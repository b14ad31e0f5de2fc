import EdgeCache.Files.Tree
import EdgeCache.Log.Line
import EdgeCache.Settings.Basic

/-!
# Where log lines go

A `Journal` is the surroundings that log lines are written to: the console with its two streams and
the files.  Each of the two logs goes to a file of its own, if one is configured, and otherwise to
its stream on the console.  Opening the logs chooses the files, once; it also says whether debug
lines are wanted, which takes effect even when a file cannot be opened.
-/

set_option autoImplicit false

namespace EdgeCache.Log

/-- The console and the files, with what is known about logging. -/
structure Journal where
  tree : Files.Tree := {}
  /-- The working directory. -/
  cwd : Files.Place := []
  /-- What has been written to standard output. -/
  out : String := ""
  /-- What has been written to standard error. -/
  err : String := ""
  /-- Debug lines are wanted. -/
  debug : Bool := false
  /-- The logs have been opened. -/
  opened : Bool := false
  accesses : Option Files.Place := none
  errors : Option Files.Place := none

namespace Journal

/-- The level that asks for debug lines, in any letter case. -/
def asksForDebug (level : String) : Bool := Bytes.lower (bytes level) = bytes "debug"

/-- Open a log file, if one is configured. -/
def openLog (j : Journal) : Option String → Journal × Except IoKind (Option Files.Place)
  | none => (j, .ok none)
  | some path =>
    match j.tree.openForAppend j.cwd (bytes path) with
    | (tree, result) => ({ j with tree }, result.map some)

/-- The failure of opening the logs a second time. -/
def alreadyOpened : IoError := ⟨.alreadyExists, "Log writer already initialized"⟩

/-- Open the logs: the one of accesses first, then the one of errors. -/
def openLogs (j : Journal) (s : Settings.Logging) : Journal × Option IoError :=
  let j := { j with debug := asksForDebug s.level }
  match j.openLog s.accessLogFile with
  | (j, .error e) => (j, some (IoError.ofKind e))
  | (j, .ok accesses) =>
    match j.openLog s.errorLogFile with
    | (j, .error e) => (j, some (IoError.ofKind e))
    | (j, .ok errors) =>
      if j.opened then (j, some alreadyOpened)
      else ({ j with opened := true, accesses, errors }, none)

/-- Write a text and a line feed to standard output. -/
def print (j : Journal) (text : String) : Journal := { j with out := j.out ++ text ++ "\n" }

/-- Write a text and a line feed to standard error. -/
def complain (j : Journal) (text : String) : Journal := { j with err := j.err ++ text ++ "\n" }

/-- Log a line. -/
def write (j : Journal) (l : Line) : Journal :=
  if !l.written j.debug then j
  else
    match l.destination with
    | .accesses =>
      match j.accesses with
      | some p => { j with tree := j.tree.append p (bytes (l.text ++ "\n")) }
      | none => j.print l.text
    | .errors =>
      match j.errors with
      | some p => { j with tree := j.tree.append p (bytes (l.text ++ "\n")) }
      | none => j.complain l.text

/-- Log several lines. -/
def writeAll (j : Journal) (lines : List Line) : Journal := lines.foldl write j

end Journal
end EdgeCache.Log
