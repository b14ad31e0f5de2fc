import EdgeCache.Text.Utf8

/-!
# Request targets

A target comes in one of four forms: a path with an optional query (`/p?q`), the asterisk, an
authority alone (`host:80`), or an absolute form with scheme, authority, path and query.
`Uri.parse` reads them; it accepts more than the strict grammar does — non-ASCII text, quotes and
braces in a path, nearly every visible byte in a query — and drops a fragment.

`Uri.path` of an absolute form with nothing between authority and query is `/`, while
`Target.text` keeps such a target as it was written.
-/

set_option autoImplicit false

namespace EdgeCache

/-- Why a text is no request target. -/
inductive UriError where
  | tooLong
  | empty
  | invalidCharacter
  | invalidAuthority
  | invalidFormat
  | schemeTooLong
deriving DecidableEq

namespace UriError

def message : UriError → String
  | tooLong => "uri too long"
  | empty => "empty string"
  | invalidCharacter => "invalid uri character"
  | invalidAuthority => "invalid authority"
  | invalidFormat => "invalid format"
  | schemeTooLong => "scheme too long"

end UriError

/-- The scheme of an absolute form. -/
inductive Scheme where
  | http
  | https
  | other (name : Bytes)
deriving DecidableEq

/-- Path and query as they were written; the path may be empty. -/
structure Target where
  path : Bytes
  query : Option Bytes
deriving DecidableEq

/-- A request target. -/
inductive Uri where
  | origin (target : Target)
  | asterisk
  | authority (host : Bytes)
  | absolute (scheme : Scheme) (host : Bytes) (target : Target)
deriving DecidableEq

/-- The longest text that is read as a target. -/
def maxUriLength : Nat := 65534

namespace Target

/-- Path and query written out. -/
def text (t : Target) : Bytes :=
  t.path ++ (match t.query with | none => [] | some q => 0x3F :: q)

/-- Bytes that may stand unescaped in a path. -/
def isPathByte (b : UInt8) : Bool :=
  b == 0x21 || b == 0x22 || (0x24 ≤ b && b ≤ 0x3B) || b == 0x3D || (0x40 ≤ b && b ≤ 0x5F) ||
    (0x61 ≤ b && b ≤ 0x7E) || 0x80 ≤ b

/-- Bytes that may stand unescaped in a query. -/
def isQueryByte (b : UInt8) : Bool :=
  b == 0x21 || (0x24 ≤ b && b ≤ 0x3B) || b == 0x3D || (0x3F ≤ b && b ≤ 0x7E) || 0x80 ≤ b

/-- Everything before the first `#`. -/
def beforeFragment (s : Bytes) : Bytes := s.takeWhile (· != 0x23)

/-- Read path and query, dropping a fragment.  Bytes outside ASCII have to be UTF-8. -/
def parse (s : Bytes) : Except UriError Target :=
  let (path, query) := Bytes.cut 0x3F (beforeFragment s)
  if !path.all isPathByte || !(query.getD []).all isQueryByte then .error .invalidCharacter
  else if !Utf8.valid (beforeFragment s) then .error .invalidCharacter
  else .ok ⟨path, query⟩

end Target

namespace Uri

/-! ## Authorities -/

/-- Bytes that may stand in an authority, besides `%`. -/
def isAuthorityByte (b : UInt8) : Bool :=
  Bytes.isAlnum b || (bytes "!$&'()*+,-.:;=@[]_~").contains b

/-- What has been seen of an authority.  `]` and `@` forget the colons and the `%` before them,
which belonged to an address in brackets or to the user information. -/
structure AuthorityScan where
  colons : Nat := 0
  opened : Bool := false
  closed : Bool := false
  percent : Bool := false
  atLast : Bool := false

/-- One more byte of an authority. -/
def AuthorityScan.next (st : AuthorityScan) (b : UInt8) : Except UriError AuthorityScan :=
  let st' := { st with atLast := false }
  if b = 0x3A then
    if 8 ≤ st.colons then .error .invalidAuthority else .ok { st' with colons := st.colons + 1 }
  else if b = 0x5B then
    if st.percent || st.opened then .error .invalidAuthority else .ok { st' with opened := true }
  else if b = 0x5D then
    if !st.opened || st.closed then .error .invalidAuthority
    else .ok { st' with closed := true, colons := 0, percent := false }
  else if b = 0x40 then .ok { st' with colons := 0, percent := false, atLast := true }
  else if b = 0x25 then .ok { st' with percent := true }
  else if isAuthorityByte b then .ok st'
  else .error .invalidCharacter

/-- Brackets come in a pair, at most one colon is left for a port, something follows an `@`, and no
`%` stands in the host. -/
def AuthorityScan.acceptable (st : AuthorityScan) : Bool :=
  st.opened == st.closed && st.colons ≤ 1 && !st.atLast && !st.percent

/-- Check the bytes of an authority. -/
def checkAuthority (s : Bytes) : Except UriError Unit := do
  let st ← s.foldlM AuthorityScan.next {}
  if st.acceptable then .ok () else .error .invalidAuthority

/-- Cut a text where its authority ends: at the first `/`, `?` or `#`. -/
def spanAuthority (s : Bytes) : Bytes × Bytes :=
  s.span fun b => b != 0x2F && b != 0x3F && b != 0x23

/-! ## Schemes -/

/-- Bytes that may stand in a scheme. -/
def isSchemeByte (b : UInt8) : Bool := Bytes.isAlnum b || b == 0x2B || b == 0x2D || b == 0x2E

/-- The scheme that a text begins with, if any, and what follows its `://`. -/
def splitScheme (s : Bytes) : Except UriError (Option (Scheme × Bytes)) :=
  if Bytes.lower (s.take 7) = bytes "http://" then .ok (some (.http, s.drop 7))
  else if Bytes.lower (s.take 8) = bytes "https://" then .ok (some (.https, s.drop 8))
  else if s.length ≤ 3 then .ok none
  else
    let (name, rest) := s.span isSchemeByte
    if rest.take 3 = bytes "://" then
      if 64 < name.length then .error .schemeTooLong
      else .ok (some (.other name, rest.drop 3))
    else .ok none

/-! ## Whole targets -/

/-- Read an absolute form after its scheme. -/
def parseAbsolute (scheme : Scheme) (s : Bytes) : Except UriError Uri := do
  if s.isEmpty then .error .empty
  else
    let (host, rest) := spanAuthority s
    checkAuthority host
    if host.isEmpty then .error .invalidFormat
    else return .absolute scheme host (← Target.parse rest)

/-- Read an authority that is the whole text. -/
def parseAuthority (s : Bytes) : Except UriError Uri := do
  let (host, rest) := spanAuthority s
  checkAuthority host
  if rest.isEmpty then return .authority host else .error .invalidFormat

/-- Read a request target. -/
def parse (s : Bytes) : Except UriError Uri := do
  if maxUriLength < s.length then .error .tooLong
  else if s.isEmpty then .error .empty
  else if s = [0x2A] then return .asterisk
  else if s.head? = some 0x2F then return .origin (← Target.parse s)
  else if s.length = 1 then
    match parseAuthority s with
    | .error .invalidFormat => .error .invalidCharacter
    | answer => answer
  else
    match ← splitScheme s with
    | some (scheme, rest) => parseAbsolute scheme rest
    | none => parseAuthority s

/-! ## Parts -/

/-- The host and port, with any user information. -/
def authority? : Uri → Option Bytes
  | origin _ | asterisk => none
  | authority host | absolute _ host _ => some host

/-- The path; `/` where an absolute form has none, and nothing for an authority alone. -/
def path : Uri → Bytes
  | origin t => t.path
  | asterisk => [0x2A]
  | authority _ => []
  | absolute _ _ t => if t.path.isEmpty then [0x2F] else t.path

/-- The query, without its question mark. -/
def query : Uri → Option Bytes
  | origin t | absolute _ _ t => t.query
  | asterisk | authority _ => none

/-- Path and query as they were written; `/` where there is neither. -/
def pathAndQuery : Uri → Bytes
  | origin t => t.text
  | asterisk => [0x2A]
  | authority _ => [0x2F]
  | absolute _ _ t => if t.text.isEmpty then [0x2F] else t.text

/-- The name of a scheme. -/
def schemeText : Scheme → Bytes
  | .http => bytes "http"
  | .https => bytes "https"
  | .other name => name

/-- The target written out. -/
def text (u : Uri) : Bytes :=
  (match u with
    | absolute scheme _ _ => schemeText scheme ++ bytes "://"
    | _ => []) ++
  u.authority?.getD [] ++ u.path ++ (match u.query with | none => [] | some q => 0x3F :: q)

end Uri
end EdgeCache
