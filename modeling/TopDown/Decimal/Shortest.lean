-- The shortest decimal that reads back as a given binary64: of the decimals inside the
-- interval of reals that round to the number, one with the fewest digits, and of those the
-- nearest. All of it is exact arithmetic on natural numbers.

namespace TopDown

/-- The number `digits · 10 ^ exponent`. -/
structure Decimal where
  digits : Nat
  exponent : Int
  deriving DecidableEq, Repr

namespace Decimal

/-- A positive number with the two ends of its rounding interval, as quotients with one
denominator. The ends belong to the interval if `closed`. -/
structure Interval where
  low : Nat
  value : Nat
  high : Nat
  denominator : Nat
  closed : Bool

/-- Multiply by `10 ^ -unit`. -/
def Interval.scale (i : Interval) (unit : Int) : Interval :=
  let up := Nat.pow 10 (-unit).toNat
  ⟨i.low * up, i.value * up, i.high * up, i.denominator * Nat.pow 10 unit.toNat, i.closed⟩

/-- The whole number `n` lies in the interval. -/
def Interval.has (i : Interval) (n : Nat) : Bool :=
  let x := n * i.denominator
  if i.closed then decide (i.low ≤ x ∧ x ≤ i.high) else decide (i.low < x ∧ x < i.high)

/-- The interval of the binary64 with these bits, which are of a finite positive number. A power
of two is twice as near to its lower neighbour as to its upper one. -/
def Interval.ofBits (bits : UInt64) : Interval :=
  let hidden := 1 <<< 52
  let fraction := bits.toNat % hidden
  let biased := bits.toNat / hidden % (1 <<< 11)
  let m := if biased = 0 then fraction else hidden + fraction
  let q : Int := (max biased 1 : Nat) - 1077
  let below := if fraction = 0 ∧ 1 < biased then 1 else 2
  let up := 1 <<< q.toNat
  ⟨(4 * m - below) * up, 4 * m * up, (4 * m + 2) * up, 1 <<< (-q).toNat, m % 2 == 0⟩

/-- The whole number in the interval that is nearest to its value, the even one of two, if there
is one among the two around the value. -/
def Interval.nearest? (i : Interval) : Option Nat :=
  let below := i.value / i.denominator
  let above := below + 1
  match i.has below, i.has above with
  | false, false => none
  | true, false => some below
  | false, true => some above
  | true, true =>
    let left := i.value - below * i.denominator
    let right := above * i.denominator - i.value
    some (if left < right ∨ (left = right ∧ below % 2 = 0) then below else above)

/-- The exponent of the leading decimal digit of `n / d`, where `fuel` bounds how far below one
the quotient lies. -/
def leading (n d : Nat) : Nat → Int
  | 0 => 0
  | fuel + 1 =>
    if d ≤ n then ((Nat.toDigits 10 (n / d)).length : Int) - 1 else leading (10 * n) d fuel - 1

/-- Move trailing zeros from the digits to the exponent. -/
def strip (x : Decimal) : Nat → Decimal
  | 0 => x
  | fuel + 1 =>
    if x.digits ≠ 0 ∧ x.digits % 10 = 0 then
      strip ⟨x.digits / 10, x.exponent + 1⟩ fuel
    else x

/-- The shortest decimal of a finite positive binary64. -/
def shortest (bits : UInt64) : Decimal :=
  let i := Interval.ofBits bits
  let top := leading i.value i.denominator 400
  let found := (List.range 17).findSome? fun (n : Nat) =>
    let unit := top - n
    ((i.scale unit).nearest?).map fun digits => Decimal.mk digits unit
  (found.getD ⟨0, 0⟩).strip 20

/-! ## Text -/

/-- An exponent with its sign, which is written for either direction. -/
def signedText (n : Int) : String := if n < 0 then toString n else "+" ++ toString n

/-- Positional notation, always with a point, for a leading digit from 10^-5 to 10^15; outside
of that one digit before the point and a signed exponent. -/
def text (x : Decimal) : String :=
  let ds := Nat.toDigits 10 x.digits
  let point : Int := ds.length + x.exponent
  if 0 ≤ x.exponent ∧ point ≤ 16 then
    String.ofList (ds ++ List.replicate x.exponent.toNat '0') ++ ".0"
  else if 0 < point ∧ point ≤ 16 then
    String.ofList (ds.take point.toNat ++ '.' :: ds.drop point.toNat)
  else if -5 < point ∧ point ≤ 0 then
    "0." ++ String.ofList (List.replicate (-point).toNat '0' ++ ds)
  else
    let tail := ds.drop 1
    String.ofList (ds.take 1 ++ if tail.isEmpty then [] else '.' :: tail) ++
      "e" ++ signedText (point - 1)

/-- The text of a finite binary64. -/
def ofBits (bits : UInt64) : String :=
  let magnitude := bits &&& 0x7fffffffffffffff
  let sign := if bits = magnitude then "" else "-"
  sign ++ if magnitude = 0 then "0.0" else (shortest magnitude).text

end Decimal

end TopDown
