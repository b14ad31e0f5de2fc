import EdgeCache.Text.Binary64
import EdgeCache.Variant.Freshness

/-!
# Times in logs

An instant is shown in local time, as the Gregorian calendar counts days, in one of two forms:
`10/Jun/2024:06:13:20 +0000`, or `2024-06-10T06:13:20.5+00:00` with as many fraction digits as are
needed out of none, three, six or nine.  Responses carry a third one,
`Mon, 10 Jun 2024 06:13:20 GMT`.
-/

set_option autoImplicit false

namespace EdgeCache

/-- An instant together with the local offset. -/
structure LocalTime where
  instant : Instant
  /-- Whole minutes east of Greenwich.  Offsets with seconds in them, as mean times had before there
  were zones, are left out; they would be shown rounded to minutes. -/
  offset : Int := 0
deriving DecidableEq

namespace LocalTime

/-- A date and a time of day. -/
structure Civil where
  year : Int
  month : Nat
  day : Nat
  hour : Nat
  minute : Nat
  second : Nat

/-- The date of a day counted from the first of January 1970.  Years are counted from March, in
eras of four centuries. -/
def dateOf (days : Int) : Int × Nat × Nat :=
  let z := days + 719468
  let era := Int.fdiv z 146097
  let doe := (z - era * 146097).toNat
  let yoe := (doe - doe / 1460 + doe / 36524 - doe / 146096) / 365
  let doy := doe - (365 * yoe + yoe / 4 - yoe / 100)
  let mp := (5 * doy + 2) / 153
  let day := doy - (153 * mp + 2) / 5 + 1
  let month := if mp < 10 then mp + 3 else mp - 9
  (era * 400 + yoe + (if month ≤ 2 then 1 else 0), month, day)

/-- The local date and time of day.  A leap second is told by nanoseconds beyond a whole second, and
comes after the second 59. -/
def civil (t : LocalTime) : Civil :=
  let s := t.instant.seconds + t.offset * 60
  let days := Int.fdiv s 86400
  let rest := (s - days * 86400).toNat
  let (year, month, day) := dateOf days
  { year, month, day, hour := rest / 3600, minute := rest / 60 % 60
    second := rest % 60 + t.instant.nanos / 1000000000 }

/-- The short names of the months. -/
def months : List String :=
  ["Jan", "Feb", "Mar", "Apr", "May", "Jun", "Jul", "Aug", "Sep", "Oct", "Nov", "Dec"]

/-- Two digits. -/
def two (n : Nat) : String := Binary64.padded 2 n

/-- Four digits, or a sign and at least four digits for years that these do not reach. -/
def yearText (y : Int) : String :=
  if 0 ≤ y ∧ y ≤ 9999 then Binary64.padded 4 y.toNat
  else (if y < 0 then "-" else "+") ++ Binary64.padded 4 y.natAbs

/-- The offset with `colon` between hours and minutes. -/
def offsetText (offset : Int) (colon : String) : String :=
  (if offset < 0 then "-" else "+") ++ two (offset.natAbs / 60) ++ colon ++ two (offset.natAbs % 60)

/-- The time of day. -/
def clockText (c : Civil) : String := two c.hour ++ ":" ++ two c.minute ++ ":" ++ two c.second

/-- The form of the common log format. -/
def common (t : LocalTime) : String :=
  let c := t.civil
  two c.day ++ "/" ++ months.getD (c.month - 1) "" ++ "/" ++ yearText c.year ++ ":" ++
    clockText c ++ " " ++ offsetText t.offset ""

/-- The short names of the days of the week, from the one that the count of days starts with. -/
def weekdays : List String := ["Thu", "Fri", "Sat", "Sun", "Mon", "Tue", "Wed"]

/-- The form of the `Date` field: in Greenwich time, with the day of the week. -/
def stamp (t : Instant) : String :=
  let c : Civil := { instant := t : LocalTime }.civil
  weekdays.getD (Int.emod (Int.fdiv t.seconds 86400) 7).toNat "" ++ ", " ++ two c.day ++ " " ++
    months.getD (c.month - 1) "" ++ " " ++ yearText c.year ++ " " ++ clockText c ++ " GMT"

/-- As many digits of a fraction as are needed, in groups of three. -/
def fractionText (nanos : Nat) : String :=
  if nanos = 0 then ""
  else if nanos % 1000000 = 0 then "." ++ Binary64.padded 3 (nanos / 1000000)
  else if nanos % 1000 = 0 then "." ++ Binary64.padded 6 (nanos / 1000)
  else "." ++ Binary64.padded 9 nanos

/-- The form of RFC 3339. -/
def iso (t : LocalTime) : String :=
  let c := t.civil
  yearText c.year ++ "-" ++ two c.month ++ "-" ++ two c.day ++ "T" ++ clockText c ++
    fractionText (t.instant.nanos % 1000000000) ++ offsetText t.offset ":"

end LocalTime
end EdgeCache
