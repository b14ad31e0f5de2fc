import EdgeCache.Exchange.Fetch
import EdgeCache.Store.Basic
import EdgeCache.Store.Body
import EdgeCache.Text.Blank
import EdgeCache.Text.Utf8
import EdgeCache.Variant.Policy

/-!
# The caching front

What answers requests: the cache settings, the indicator header, the decisions of eligibility and
policy, and the origin.  The three ways of answering are a hit (a stored response is replayed), a
miss (the origin is asked and its answer kept if it may be), and a skip (the origin is asked and the
cache left alone).
-/

set_option autoImplicit false

namespace EdgeCache

/-- How a request was answered. -/
inductive CacheStatus where
  | hit
  | miss
  | skip
deriving DecidableEq

/-- The value of the indicator header. -/
def CacheStatus.text : CacheStatus → String
  | hit => "hit"
  | miss => "miss"
  | skip => "skip"

/-- The outcome of a request. -/
structure Handled where
  /-- The status sent to the client, or 500 when there is none. -/
  status : Status
  cache : CacheStatus
  error : Option CacheError := none
deriving DecidableEq

/-- Which operations of the body storage fail, and with what words. -/
structure Faults where
  /-- Opening the sink of this number. -/
  opening : Nat → Option String := fun _ => none
  /-- A write, by its number, into the sink of a number. -/
  writing : Nat → Nat → Option String := fun _ _ => none
  /-- Closing the sink of this number. -/
  closing : Nat → Option String := fun _ => none

/-- A caching front. -/
structure Front where
  settings : Settings.Cache := {}
  /-- The header that carries the cache status. -/
  indicator : Option HeaderName := none
  eligible : Eligibility
  policy : Policy
  /-- What the origin does for the exchange of this number. -/
  respond : Nat → Responder
  faults : Faults := {}
  /-- Debug lines are logged. -/
  debug : Bool := false
  /-- The form of access log lines. -/
  accessFormat : String := "combined"

namespace Front

/-- The indicator header that a setting names; blank for none. -/
def indicatorNamed (setting : String) : Except CacheError (Option HeaderName) :=
  let name := trimBlanks setting
  if name = "" then .ok none
  else
    match HeaderName.ofBytes? (bytes name) with
    | some n => .ok (some n)
    | none => .error (.invalidStatusHeader name)

/-- A front with the default decisions and the given indicator. -/
def byDefault (settings : Settings.Cache) (indicator : Option HeaderName)
    (respond : Nat → Responder) : Front :=
  { settings, indicator, eligible := Eligibility.safeMethods settings.enabled
    policy := Policy.byStatus settings, respond }

/-- A front with the default decisions. -/
def withDefaults (settings : Settings.Cache) (respond : Nat → Responder) :
    Except CacheError Front :=
  (indicatorNamed settings.statusHeader).map fun indicator => byDefault settings indicator respond

/-- Put the cache status among the header fields. -/
def mark (f : Front) (status : CacheStatus) (h : Headers) : Headers :=
  match f.indicator with
  | some name => h.insert name (bytes status.text)
  | none => h

/-- Take it out again. -/
def unmark (f : Front) (h : Headers) : Headers :=
  match f.indicator with
  | some name => h.remove name
  | none => h

/-- Pass a request straight to the origin.  A status that was returned without a commit is committed
now, and a failure before the commit is answered with a plain `502 Bad Gateway`. -/
def forward (isHead : Bool) (s : Script (Except OriginError Status)) : Script Handled :=
  s.bind fun
    | .ok status =>
      (Script.ifUncommitted (.commit status (.done ()))).bind fun _ => .done ⟨status, .skip, none⟩
    | .error cause =>
      (Script.ifUncommitted ((Script.plain .badGateway isHead).bind fun _ => .done ())).bind
        fun _ => .done ⟨.badGateway, .skip, some (.upstream cause)⟩

end Front
end EdgeCache
