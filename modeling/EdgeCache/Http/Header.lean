import EdgeCache.Bytes

/-!
# Header fields

A header name is a token in lower case; a header value is a string of bytes without controls.  A
collection of fields may hold several values under one name.  Fields of different names keep no
particular order among each other for a reader of the collection, but the values of one name keep
the order in which they were appended: `Headers.values` is what every operation is described by.
-/

set_option autoImplicit false

namespace EdgeCache

/-! ## Names -/

/-- The bytes of a token: letters, digits and fifteen signs. -/
def isTokenByte (b : UInt8) : Bool :=
  Bytes.isAlnum b ||
    [0x21, 0x23, 0x24, 0x25, 0x26, 0x27, 0x2A, 0x2B, 0x2D, 0x2E, 0x5E, 0x5F, 0x60, 0x7C,
      0x7E].contains b

/-- A token is a non-empty string of token bytes. -/
def isToken (s : Bytes) : Bool := !s.isEmpty && s.all isTokenByte

/-- The form in which header names are kept: a token of at most 65535 bytes without capitals. -/
def isHeaderName (s : Bytes) : Bool :=
  isToken s && s.length ≤ 65535 && s.all (fun b => !Bytes.isUpper b)

/-- A header name.  Names are compared without regard to letter case, so only the lower-case form is
kept. -/
structure HeaderName where
  text : Bytes
  valid : isHeaderName text = true
deriving DecidableEq

namespace HeaderName

/-- The name spelled by `s` in any letter case. -/
def ofBytes? (s : Bytes) : Option HeaderName :=
  if h : isHeaderName (Bytes.lower s) = true then some ⟨Bytes.lower s, h⟩ else none

/-- The name spelled by `s`, which is known to be one. -/
def lit (s : String) (h : isHeaderName (bytes s) = true) : HeaderName := ⟨bytes s, h⟩

def allow : HeaderName := lit "allow" (by decide)
def connection : HeaderName := lit "connection" (by decide)
def contentLength : HeaderName := lit "content-length" (by decide)
def contentType : HeaderName := lit "content-type" (by decide)
def date : HeaderName := lit "date" (by decide)
def expect : HeaderName := lit "expect" (by decide)
def host : HeaderName := lit "host" (by decide)
def keepAlive : HeaderName := lit "keep-alive" (by decide)
def proxyAuthenticate : HeaderName := lit "proxy-authenticate" (by decide)
def proxyAuthorization : HeaderName := lit "proxy-authorization" (by decide)
def referer : HeaderName := lit "referer" (by decide)
def te : HeaderName := lit "te" (by decide)
def trailer : HeaderName := lit "trailer" (by decide)
def transferEncoding : HeaderName := lit "transfer-encoding" (by decide)
def upgrade : HeaderName := lit "upgrade" (by decide)
def userAgent : HeaderName := lit "user-agent" (by decide)
def vary : HeaderName := lit "vary" (by decide)

end HeaderName

/-! ## Values -/

/-- A field value may hold tab and every byte from space on except delete. -/
def isHeaderValue (s : Bytes) : Bool := s.all fun b => b == 9 || (32 ≤ b && b != 127)

/-- The value as text, which exists only when every byte is visible ASCII, space or tab. -/
def headerText? (s : Bytes) : Option Bytes :=
  if s.all (fun b => b == 9 || (32 ≤ b && b < 127)) then some s else none

/-! ## Collections of fields -/

/-- Header fields in the order in which they were appended. -/
structure Headers where
  fields : List (HeaderName × Bytes) := []
deriving DecidableEq

namespace Headers

/-- No fields. -/
def empty : Headers := ⟨[]⟩

/-- The values under a name, in order. -/
def values (h : Headers) (name : HeaderName) : List Bytes :=
  h.fields.filterMap fun f => if f.1 = name then some f.2 else none

/-- The first value under a name. -/
def get? (h : Headers) (name : HeaderName) : Option Bytes := (h.values name).head?

/-- There is a value under the name. -/
def contains (h : Headers) (name : HeaderName) : Bool := h.fields.any fun f => f.1 = name

/-- One more value under a name, after those it already has. -/
def append (h : Headers) (name : HeaderName) (value : Bytes) : Headers :=
  ⟨h.fields ++ [(name, value)]⟩

/-- Without the values under a name. -/
def remove (h : Headers) (name : HeaderName) : Headers :=
  ⟨h.fields.filter fun f => f.1 ≠ name⟩

/-- `value` in the place of every value under the name. -/
def insert (h : Headers) (name : HeaderName) (value : Bytes) : Headers :=
  (h.remove name).append name value

/-- All fields of another collection appended. -/
def appendAll (h more : Headers) : Headers := ⟨h.fields ++ more.fields⟩

/-- The first value under a name as text, if it is text. -/
def text? (h : Headers) (name : HeaderName) : Option Bytes := (h.get? name).bind headerText?

/-! ### What the operations do to the values -/

@[simp] theorem values_empty (name : HeaderName) : empty.values name = [] := rfl

@[simp] theorem values_append (h : Headers) (name : HeaderName) (value : Bytes) (n : HeaderName) :
    (h.append name value).values n = h.values n ++ (if name = n then [value] else []) := by
  by_cases hn : name = n <;> simp [values, append, hn]

@[simp] theorem values_appendAll (h more : Headers) (n : HeaderName) :
    (h.appendAll more).values n = h.values n ++ more.values n := by
  simp [values, appendAll]

@[simp] theorem values_remove (h : Headers) (name n : HeaderName) :
    (h.remove name).values n = if name = n then [] else h.values n := by
  by_cases hn : name = n
  · subst hn
    simp only [values, remove, if_true, List.filterMap_eq_nil_iff, List.mem_filter]
    intro f hf
    have : f.1 ≠ name := by simpa using hf.2
    simp [this]
  · simp only [values, remove, hn, if_false, List.filterMap_filter]
    congr 1
    funext f
    by_cases hf : f.1 = name
    · simp [hf, hn]
    · simp [hf]

@[simp] theorem values_insert (h : Headers) (name : HeaderName) (value : Bytes) (n : HeaderName) :
    (h.insert name value).values n = if name = n then [value] else h.values n := by
  by_cases hn : name = n <;> simp [insert, hn]

end Headers
end EdgeCache
