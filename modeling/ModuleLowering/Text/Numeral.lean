/-!
Values of number literals: double-precision numbers in exact arithmetic. A literal is rounded to
the nearest double once, when it is read; `Numeral.shortest` gives back the fewest decimal digits
that read as the same double.
-/

set_option autoImplicit false

namespace ModuleLowering

/-- The value of a number literal, `mantissa · 2 ^ exponent`, or too large to represent. -/
inductive Numeral where
  | finite (mantissa : Nat) (exponent : Int)
  | infinite
  deriving DecidableEq, Repr

namespace Numeral

def ofNat (n : Nat) : Numeral := finite n 0

private def scaled (num den : Nat) (k : Int) : Nat × Nat × Nat :=
  let n := num * Nat.pow 2 (-k).toNat
  let d := den * Nat.pow 2 k.toNat
  (n / d, n % d, d)

def ofRatio (num den : Nat) : Numeral :=
  if num = 0 then ofNat 0 else
  let least : Int := -1074
  let guess : Int := max least ((num.log2 : Int) - den.log2 - 52)
  let q := (scaled num den guess).1
  let k := if q ≥ Nat.pow 2 53 then guess + 1 else if q < Nat.pow 2 52 && guess > least
    then guess - 1 else guess
  let (q, r, d) := scaled num den k
  let m := if 2 * r > d || (2 * r == d && q % 2 == 1) then q + 1 else q
  let (m, k) := if m = Nat.pow 2 53 then (Nat.pow 2 52, k + 1) else (m, k)
  if m ≥ Nat.pow 2 52 && k > 971 then infinite else finite m k

def decimalLength (n : Nat) : Nat := (Nat.toDigits 10 n).length

/-- The double nearest to `n · 10 ^ e`. Far outside the range of doubles the power is not
computed. -/
def ofDecimal (n : Nat) (e : Int) : Numeral :=
  let size : Int := decimalLength n + e
  if n = 0 || size < -400 then ofNat 0
  else if size > 400 then infinite
  else ofRatio (n * Nat.pow 10 e.toNat) (Nat.pow 10 (-e).toNat)

private def ratio (m : Nat) (q : Int) : Nat × Nat := (m * Nat.pow 2 q.toNat, Nat.pow 2 (-q).toNat)

def mul : Numeral → Numeral → Numeral
  | finite m q, finite m' q' =>
    let (num, den) := ratio m q
    let (num', den') := ratio m' q'
    ofRatio (num * num') (den * den')
  | _, _ => infinite

def div : Numeral → Numeral → Numeral
  | finite m q, finite m' q' =>
    let (num, den) := ratio m q
    let (num', den') := ratio m' q'
    ofRatio (num * den') (den * num')
  | _, _ => infinite

/-- `n · 10 ^ e` computed in doubles: `n` is rounded first, and then multiplied with or divided by
the double nearest to the power of ten. A power that is itself too large is divided by in two
steps. -/
def scaledInDoubles (n : Nat) (e : Int) : Numeral :=
  let v := ofRatio n 1
  let power (k : Int) := ofDecimal 1 k
  if n = 0 || e < -616 then ofNat 0
  else if e < -308 then (v.div (power 308)).div (power (-e - 308))
  else if e < 0 then v.div (power (-e))
  else if e ≤ 308 then v.mul (power e)
  else infinite

def natValue? : Numeral → Option Nat
  | finite m q =>
    let (num, den) := ratio m q
    if num % den = 0 then some (num / den) else none
  | infinite => none

private def leadingZeros (den : Nat) : Nat → Nat → Nat
  | 0, _ => 0
  | fuel + 1, num => if num * 10 < den then leadingZeros den fuel (num * 10) + 1 else 0

/-- The point's place: `p` such that the value lies in `[10 ^ (p - 1), 10 ^ p)`. -/
private def pointPlace (num den : Nat) : Int :=
  let whole := num / den
  if whole > 0 then decimalLength whole else -(leadingZeros den 400 num)

/-- Of the two decimals with `len` digits around `num / den`, the nearer one that reads as the
same value. -/
private def candidate (num den : Nat) (place : Int) (len : Nat) : Option (Nat × Int) :=
  let unit : Int := place - len
  let n := num * Nat.pow 10 (-unit).toNat
  let d := den * Nat.pow 10 unit.toNat
  let low := n / d
  let same (c : Nat) : Bool := ofDecimal c unit == ofRatio num den
  let nearLow := 2 * (n % d) ≤ d
  match same low, same (low + 1) with
  | true, true => some (if nearLow then low else low + 1, unit)
  | true, false => some (low, unit)
  | false, true => some (low + 1, unit)
  | false, false => none

/-- The fewest digits that read as the same value, and the place of the point: the value is
`0.DIGITS · 10 ^ place`. -/
def shortest (m : Nat) (q : Int) : List Char × Int :=
  if m = 0 then (['0'], 1) else
  let (num, den) := ratio m q
  let place := pointPlace num den
  match (List.range 17).findSome? fun i => candidate num den place (i + 1) with
  | some (digits, unit) =>
    let cs := Nat.toDigits 10 digits
    let shown := (cs.reverse.dropWhile (· == '0')).reverse
    (shown, unit + cs.length)
  | none => (Nat.toDigits 10 (num / den), place)

end Numeral

end ModuleLowering
