/-!
# Log lines

Two logs are kept: one for accesses and information, one for errors.  A line carries a tag for its
severity; debug lines go to the first log, and only when they are asked for.
-/

set_option autoImplicit false

namespace EdgeCache.Log

/-- How a line is meant. -/
inductive Level where
  | error
  | warning
  | info
  | debug
  | access
deriving DecidableEq

/-- The log that a line goes to. -/
inductive Destination where
  | accesses
  | errors
deriving DecidableEq

/-- A message to be logged. -/
structure Line where
  level : Level
  message : String
deriving DecidableEq

namespace Line

def error (message : String) : Line := ⟨.error, message⟩
def warning (message : String) : Line := ⟨.warning, message⟩
def info (message : String) : Line := ⟨.info, message⟩
def debug (message : String) : Line := ⟨.debug, message⟩

/-- The text that is written. -/
def text (l : Line) : String :=
  match l.level with
  | .error => "[ERROR] " ++ l.message
  | .warning => "[WARN] " ++ l.message
  | .debug => "[DEBUG] " ++ l.message
  | .info | .access => l.message

/-- The log it is written to. -/
def destination (l : Line) : Destination :=
  match l.level with
  | .error | .warning => .errors
  | .info | .debug | .access => .accesses

/-- Debug lines are written only when they are asked for. -/
def written (debug : Bool) (l : Line) : Bool := l.level != .debug || debug

end Line

/-- Add the lines that are written. -/
def extend (debug : Bool) (log : List Line) (lines : List Line) : List Line :=
  log ++ lines.filter (Line.written debug)

end EdgeCache.Log
