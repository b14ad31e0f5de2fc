import EdgeCache.Text.Quoted

/-!
# Failures

The causes for which a response is not produced, not stored or not delivered, each with its text.
-/

set_option autoImplicit false

namespace EdgeCache

/-- The kind of a failed input or output operation. -/
inductive IoKind where
  | notFound
  | permissionDenied
  | addrInUse
  | addrNotAvailable
  | brokenPipe
  | alreadyExists
  | notADirectory
  | isADirectory
  | filesystemLoop
  | invalidFilename
  | invalidInput
  | other
deriving DecidableEq

/-- A failed input or output operation: its kind, and the words of its report. -/
structure IoError where
  kind : IoKind
  text : String
deriving DecidableEq

namespace IoKind

/-- The name of a kind. -/
def name : IoKind → String
  | notFound => "NotFound"
  | permissionDenied => "PermissionDenied"
  | addrInUse => "AddrInUse"
  | addrNotAvailable => "AddrNotAvailable"
  | brokenPipe => "BrokenPipe"
  | alreadyExists => "AlreadyExists"
  | notADirectory => "NotADirectory"
  | isADirectory => "IsADirectory"
  | filesystemLoop => "FilesystemLoop"
  | invalidFilename => "InvalidFilename"
  | invalidInput => "InvalidInput"
  | other => "Other"

/-- The number under which the operating system reports a failure, if it does. -/
def number? : IoKind → Option Nat
  | notFound => some 2
  | permissionDenied => some 13
  | alreadyExists => some 17
  | notADirectory => some 20
  | isADirectory => some 21
  | brokenPipe => some 32
  | invalidFilename => some 36
  | filesystemLoop => some 40
  | addrInUse => some 98
  | addrNotAvailable => some 99
  | invalidInput => none
  | other => none

/-- A failure in plain words. -/
def words : IoKind → String
  | notFound => "No such file or directory"
  | permissionDenied => "Permission denied"
  | addrInUse => "Address already in use"
  | addrNotAvailable => "Cannot assign requested address"
  | brokenPipe => "Broken pipe"
  | alreadyExists => "File exists"
  | notADirectory => "Not a directory"
  | isADirectory => "Is a directory"
  | filesystemLoop => "Too many levels of symbolic links"
  | invalidFilename => "File name too long"
  | invalidInput => "file name contained an unexpected NUL byte"
  | other => "Unknown error"

/-- A failure in the words of the operating system, with its number. -/
def report (kind : IoKind) : String :=
  match kind.number? with
  | some n => kind.words ++ " (os error " ++ toString n ++ ")"
  | none => kind.words

end IoKind

namespace IoError

/-- A failure in the words of the operating system. -/
def ofKind (kind : IoKind) : IoError := ⟨kind, kind.report⟩

/-- A client that has gone away. -/
def clientGone : IoError := ⟨.brokenPipe, "client connection closed"⟩

/-- A failure with all that is known of it. -/
def inFull (e : IoError) : String :=
  let kind := "kind: " ++ e.kind.name
  if e = ofKind e.kind then
    match e.kind.number? with
    | some n => "Os \x7b code: " ++ toString n ++ ", " ++ kind ++ ", message: " ++
        Quoted.quote e.kind.words ++ " \x7d"
    | none => "Error \x7b " ++ kind ++ ", message: " ++ Quoted.quote e.text ++ " \x7d"
  else "Custom \x7b " ++ kind ++ ", error: " ++ Quoted.quote e.text ++ " \x7d"

end IoError

/-- Why an origin did not produce a complete response. -/
inductive OriginError where
  /-- The request could not be sent, or no response head came back. -/
  | request (text : String)
  /-- The response body broke off. -/
  | body (text : String)
  | io (cause : IoError)
  /-- The address of the origin is unusable. -/
  | invalidUpstream (text : String)
deriving DecidableEq

namespace OriginError

/-- The name of the cause. -/
def name : OriginError → String
  | request _ => "Request"
  | body _ => "Body"
  | io _ => "Io"
  | invalidUpstream _ => "InvalidUpstream"

def message : OriginError → String
  | request text => "upstream request failed: " ++ text
  | body text => "upstream body failed: " ++ text
  | io cause => "I/O error: " ++ cause.text
  | invalidUpstream text => "invalid upstream: " ++ text

/-- A failure with all that is known of it. -/
def inFull (e : OriginError) : String :=
  e.name ++ "(" ++ (match e with
    | request text | body text | invalidUpstream text => Quoted.quote text
    | io cause => cause.inFull) ++ ")"

end OriginError

/-- Why a cache operation was given up. -/
inductive CacheError where
  /-- The policy could not decide. -/
  | policy (text : String)
  /-- The store failed to read or write. -/
  | storage (text : String)
  /-- The origin ended without a response head. -/
  | headersUnavailable
  /-- The configured indicator is no header name. -/
  | invalidStatusHeader (name : String)
  /-- The origin failed outside of any caching. -/
  | upstream (cause : OriginError)
deriving DecidableEq

namespace CacheError

/-- The name of the cause, and of the cause behind it. -/
def name : CacheError → String
  | policy _ => "Policy"
  | storage _ => "Storage"
  | headersUnavailable => "HeadersUnavailable"
  | invalidStatusHeader _ => "InvalidStatusHeader"
  | upstream cause => "Upstream." ++ cause.name

def message : CacheError → String
  | policy text => "cache policy failed: " ++ text
  | storage text => "cache storage failed: " ++ text
  | headersUnavailable => "upstream ended before sending response headers"
  | invalidStatusHeader name => "invalid status header name '" ++ name ++ "'"
  | upstream cause => cause.message

/-- A failure with all that is known of it. -/
def inFull (e : CacheError) : String :=
  match e with
  | policy text | storage text | invalidStatusHeader text =>
    e.name ++ "(" ++ Quoted.quote text ++ ")"
  | headersUnavailable => e.name
  | upstream cause => "Upstream(" ++ cause.inFull ++ ")"

end CacheError

end EdgeCache
