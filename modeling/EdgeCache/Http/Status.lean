import EdgeCache.Bytes

/-!
# Status codes

A status code is a number of three digits.  The registered codes have a reason phrase; every other
code is shown with the phrase `Error`.
-/

set_option autoImplicit false

namespace EdgeCache

/-- A status code. -/
structure Status where
  code : Nat
  lower : 100 ≤ code
  upper : code ≤ 999
deriving DecidableEq

namespace Status

/-- The status with a given code. -/
def ofNat? (code : Nat) : Option Status :=
  if h : 100 ≤ code ∧ code ≤ 999 then some ⟨code, h.1, h.2⟩ else none

def ok : Status := ⟨200, by decide, by decide⟩
def badRequest : Status := ⟨400, by decide, by decide⟩
def notFound : Status := ⟨404, by decide, by decide⟩
def methodNotAllowed : Status := ⟨405, by decide, by decide⟩
def uriTooLong : Status := ⟨414, by decide, by decide⟩
def requestHeaderFieldsTooLarge : Status := ⟨431, by decide, by decide⟩
def internalServerError : Status := ⟨500, by decide, by decide⟩
def badGateway : Status := ⟨502, by decide, by decide⟩

instance : Inhabited Status := ⟨ok⟩

/-- The registered codes with their reason phrases. -/
def reasons : List (Nat × String) :=
  [(100, "Continue"), (101, "Switching Protocols"), (102, "Processing"), (103, "Early Hints"),
   (200, "OK"), (201, "Created"), (202, "Accepted"), (203, "Non Authoritative Information"),
   (204, "No Content"), (205, "Reset Content"), (206, "Partial Content"), (207, "Multi-Status"),
   (208, "Already Reported"), (226, "IM Used"), (300, "Multiple Choices"),
   (301, "Moved Permanently"), (302, "Found"), (303, "See Other"), (304, "Not Modified"),
   (305, "Use Proxy"), (307, "Temporary Redirect"), (308, "Permanent Redirect"),
   (400, "Bad Request"), (401, "Unauthorized"), (402, "Payment Required"), (403, "Forbidden"),
   (404, "Not Found"), (405, "Method Not Allowed"), (406, "Not Acceptable"),
   (407, "Proxy Authentication Required"), (408, "Request Timeout"), (409, "Conflict"),
   (410, "Gone"), (411, "Length Required"), (412, "Precondition Failed"),
   (413, "Payload Too Large"), (414, "URI Too Long"), (415, "Unsupported Media Type"),
   (416, "Range Not Satisfiable"), (417, "Expectation Failed"), (418, "I'm a teapot"),
   (421, "Misdirected Request"), (422, "Unprocessable Entity"), (423, "Locked"),
   (424, "Failed Dependency"), (425, "Too Early"), (426, "Upgrade Required"),
   (428, "Precondition Required"), (429, "Too Many Requests"),
   (431, "Request Header Fields Too Large"), (451, "Unavailable For Legal Reasons"),
   (500, "Internal Server Error"), (501, "Not Implemented"), (502, "Bad Gateway"),
   (503, "Service Unavailable"), (504, "Gateway Timeout"), (505, "HTTP Version Not Supported"),
   (506, "Variant Also Negotiates"), (507, "Insufficient Storage"), (508, "Loop Detected"),
   (510, "Not Extended"), (511, "Network Authentication Required")]

/-- The reason phrase of a registered code. -/
def reason? (s : Status) : Option String := (reasons.find? (·.1 == s.code)).map (·.2)

/-- The code and its phrase, as in `502 Bad Gateway`. -/
def line (s : Status) : String := toString s.code ++ " " ++ s.reason?.getD "Error"

/-- The code and its phrase, where a code without a registered phrase is shown with the words that
mark it as unknown. -/
def describe (s : Status) : String :=
  toString s.code ++ " " ++ s.reason?.getD "<unknown status code>"

end Status
end EdgeCache
