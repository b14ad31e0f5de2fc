/-!
# Double-precision numbers

A finite double is a whole number below 2^53 times a power of two; here it is kept as just that, so
that rounding and printing are exact arithmetic on natural numbers.

* `ofQuotient` — the double nearest to a quotient, ties to even.
* `fixed` — a number of decimal places, the nearest such decimal, ties to even.
* `shortest` — the fewest decimal digits that round back to the same double, and of these the
  nearest.
-/

set_option autoImplicit false

namespace EdgeCache

/-- A double: a sign, and `mant * 2 ^ exp` where `mant < 2 ^ 53`. -/
inductive Binary64 where
  | finite (negative : Bool) (mant : Nat) (exp : Int)
  | infinite (negative : Bool)
  | nan
deriving DecidableEq

/-- A quotient rounded to the nearest whole number, a tie to the even one. -/
def roundQuotient (num den : Nat) : Nat :=
  let q := num / den
  let r := num % den
  if 2 * r < den then q else if den < 2 * r then q + 1 else q + q % 2

/-- A quotient scaled by a power of two, as numerator and denominator. -/
def scaleTwo (num den : Nat) (exp : Int) : Nat × Nat :=
  if 0 ≤ exp then (num, den * Nat.pow 2 exp.toNat) else (num * Nat.pow 2 (-exp).toNat, den)

/-- A quotient scaled by a power of ten, as numerator and denominator. -/
def scaleTen (num den : Nat) (exp : Int) : Nat × Nat :=
  if 0 ≤ exp then (num * Nat.pow 10 exp.toNat, den) else (num, den * Nat.pow 10 (-exp).toNat)

namespace Binary64

/-- The least exponent. -/
def minExp : Int := -1074

/-- The greatest exponent. -/
def maxExp : Int := 971

/-- The double nearest to a quotient. -/
def ofQuotient (negative : Bool) (num den : Nat) : Binary64 :=
  if num = 0 ∨ den = 0 then finite negative 0 minExp
  else
    let guess : Int := (Nat.log2 num : Int) - (Nat.log2 den : Int) - 53
    let fits (e : Int) : Bool :=
      let (n, d) := scaleTwo num den e
      n / d < Nat.pow 2 53
    let e := if fits guess then guess else if fits (guess + 1) then guess + 1 else guess + 2
    let e := max e minExp
    let (n, d) := scaleTwo num den e
    let m := roundQuotient n d
    let (m, e) := if m = Nat.pow 2 53 then (Nat.pow 2 52, e + 1) else (m, e)
    if maxExp < e then infinite negative else finite negative m e

/-- A number times a power of two, as numerator and denominator. -/
def ratio (mant : Nat) (exp : Int) : Nat × Nat :=
  if 0 ≤ exp then (mant * Nat.pow 2 exp.toNat, 1) else (mant, Nat.pow 2 (-exp).toNat)

/-- The double nearest to a whole number. -/
def ofNat (n : Nat) : Binary64 := ofQuotient false n 1

/-- The double nearest to a decimal, `digits * 10 ^ exp`. -/
def ofDecimal (negative : Bool) (digits : Nat) (exp : Int) : Binary64 :=
  let size : Int := exp + (if digits = 0 then 0 else (Nat.toDigits 10 digits).length)
  if digits = 0 ∨ size < -400 then finite negative 0 minExp
  else if 400 < size then infinite negative
  else
    let (n, d) := scaleTen digits 1 exp
    ofQuotient negative n d

/-- The quotient of two doubles, with the sign of the first. -/
def divide (a b : Binary64) : Binary64 :=
  match a, b with
  | finite negative m e, finite _ m' e' =>
    let (n, d) := scaleTwo m m' (e' - e)
    ofQuotient negative n d
  | _, _ => nan

/-- The product of two doubles, with the sign of the first. -/
def multiply (a b : Binary64) : Binary64 :=
  match a, b with
  | finite negative m e, finite _ m' e' =>
    let (n, d) := ratio (m * m') (e + e')
    ofQuotient negative n d
  | infinite negative, _ => infinite negative
  | _, _ => nan

/-- The number is zero, of either sign. -/
def isZero : Binary64 → Bool
  | finite _ m _ => m == 0
  | _ => false

/-- The number is infinite. -/
def isInfinite : Binary64 → Bool
  | infinite _ => true
  | _ => false

/-- The whole number nearest to a double, half away from zero. -/
def round? : Binary64 → Option Int
  | finite negative m e =>
    let (n, d) := ratio m e
    let q := (2 * n + d) / (2 * d)
    some (if negative then -(q : Int) else q)
  | infinite _ | nan => none

/-! ## Printing -/

/-- Digits of a number, with zeros in front up to a width. -/
def padded (width n : Nat) : String :=
  let ds := Nat.toDigits 10 n
  String.ofList (List.replicate (width - ds.length) '0' ++ ds)

/-- A double that is not negative with a fixed number of decimal places. -/
def fixed (places : Nat) : Binary64 → String
  | finite _ m e =>
    let (n, d) := ratio m e
    let r := roundQuotient (n * Nat.pow 10 places) d
    toString (r / Nat.pow 10 places) ++ "." ++ padded places (r % Nat.pow 10 places)
  | infinite _ => "inf"
  | nan => "NaN"

/-- The decimal `c * 10 ^ j` rounds to `m * 2 ^ e`: it lies between the midpoints towards the two
neighbours of that double, which themselves round to it when `m` is even. -/
def roundsTo (m : Nat) (e : Int) (c : Nat) (j : Int) : Bool :=
  let (pn, pd) := scaleTen c 1 j
  let (qn, qd) := ratio 1 (e - 2)
  let low := (4 * m - (if m = Nat.pow 2 52 ∧ minExp < e then 1 else 2)) * qn
  let high := (4 * m + 2) * qn
  if m % 2 = 0 then low * pd ≤ pn * qd && pn * qd ≤ high * pd
  else low * pd < pn * qd && pn * qd < high * pd

/-- The decimal in units of `10 ^ j` that rounds to `m * 2 ^ e`, the nearer one if two do: its
digits. -/
def gridPoint? (m : Nat) (e j : Int) : Option Nat :=
  let (xn, xd) := ratio m e
  let (n, d) := scaleTen xn xd (-j)
  let below := n / d
  let up := below + 1
  let good (c : Nat) : Bool := roundsTo m e c j
  match good below, good up with
  | true, true => some (if 2 * (n % d) ≤ d then below else up)
  | true, false => some below
  | false, true => some up
  | false, false => none

/-- The coarsest grid with a point that rounds back, searched downwards from the power `10 ^ j`. -/
def shortestFrom (m : Nat) (e : Int) : Nat → Int → Nat × Int
  | 0, j => (m, j)
  | fuel + 1, j =>
    match gridPoint? m e j with
    | some c => if c = 0 then shortestFrom m e fuel (j - 1) else (c, j)
    | none => shortestFrom m e fuel (j - 1)

/-- The digits of the shortest decimal, and the power of ten they are counted in. -/
def shortestDigits (m : Nat) (e : Int) : Nat × Int :=
  let (n, d) := ratio m e
  let start : Int := (Nat.toDigits 10 (n / d)).length
  let start := if n / d = 0 then -((Nat.toDigits 10 (d / n)).length : Int) + 1 else start
  shortestFrom m e 40 start

/-- The shortest decimal that reads back as the same double, without an exponent. -/
def shortest : Binary64 → String
  | nan => "NaN"
  | infinite negative => if negative then "-inf" else "inf"
  | finite negative m e =>
    let sign := if negative then "-" else ""
    if m = 0 then sign ++ "0"
    else
      let (c, j) := shortestDigits m e
      let ds := Nat.toDigits 10 c
      if 0 ≤ j then sign ++ String.ofList (ds ++ List.replicate j.toNat '0')
      else
        let places := (-j).toNat
        let ds := List.replicate (places + 1 - ds.length) '0' ++ ds
        let whole := ds.take (ds.length - places)
        let rest := ((ds.drop (ds.length - places)).reverse.dropWhile (· == '0')).reverse
        sign ++ String.ofList (if rest.isEmpty then whole else whole ++ '.' :: rest)

/-- The shortest decimal that reads back as the same double, always with a point or an exponent:
with an exponent when there are more than sixteen digits in front of the point, or five zeros behind
it. -/
def scientific : Binary64 → String
  | nan => "NaN"
  | infinite negative => if negative then "-inf" else "inf"
  | finite negative m e =>
    let sign := if negative then "-" else ""
    if m = 0 then sign ++ "0.0"
    else
      let (c, j) := shortestDigits m e
      let ds := Nat.toDigits 10 c
      let point : Int := ds.length + j
      if 16 < point ∨ point ≤ -5 then
        let places := if ds.length = 1 then [] else '.' :: ds.drop 1
        sign ++ String.ofList (ds.take 1 ++ places) ++ "e" ++ toString (point - 1)
      else
        let s := (finite negative m e).shortest
        if 0 ≤ j then s ++ ".0" else s

end Binary64
end EdgeCache
