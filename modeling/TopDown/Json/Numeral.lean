-- Numbers of the JSON format. A whole number that 64 bits hold is kept exactly. Any other is a
-- binary64, computed as the first digits that fit 64 bits, times or divided by a power of ten.
import TopDown.Json.Cursor

namespace TopDown.Json

open Reader

/-- A number's sign and digits, with the power of ten that they are scaled by. -/
structure Numeral where
  negative : Bool
  significand : Nat
  exponent : Int

namespace Numeral

def digitValue (c : Char) : Nat := c.toNat - '0'.toNat

/-- Append digits to `n` while the result stays in a word of 64 bits, and count those left over. -/
def absorb (n : Nat) (ds : List Char) : Nat × Nat :=
  ds.foldl
    (fun (n, left) d =>
      let next := n * 10 + digitValue d
      if left = 0 ∧ next < UInt64.size then (next, 0) else (n, left + 1))
    (n, 0)

def powerOfTen (n : Nat) : Float := Float.ofScientific 1 false n

/-- Divide by a power of ten, in parts that a binary64 can hold. -/
def shrink (x : Float) (n : Nat) : Float :=
  if n ≤ 308 then x / powerOfTen n
  else if x == 0 then x
  else shrink (x / powerOfTen 308) (n - 308)
termination_by n

/-- The binary64 of a numeral, if it is in range. -/
def toFloat? (x : Numeral) : Option Float :=
  let s := x.significand.toUInt64.toFloat
  let size :=
    if x.exponent < 0 then some (shrink s x.exponent.natAbs)
    else if x.significand = 0 then some s
    else if 308 < x.exponent then none
    else
      let y := s * powerOfTen x.exponent.natAbs
      if y.isInf then none else some y
  size.map fun y => if x.negative then -y else y

/-! ## Reading -/

def finish (x : Numeral) : Reader Number :=
  match x.toFloat? with
  | some y => return .binary y.toBits
  | none => fail .malformed

/-- The exponent, from its letter on. One beyond 32 bits leaves zero, or is out of range. -/
def readExponent (x : Numeral) : Reader Number := do
  skip
  let down ← match ← peek with
    | some '+' => skip; pure false
    | some '-' => skip; pure true
    | _ => pure false
  match ← takeWhile Char.isDigit with
  | [] =>
    match ← peek with
    | none => fail .unfinished
    | some _ => fail .malformed
  | ds =>
    let size := ds.foldl (fun n d => n * 10 + digitValue d) 0
    if size < 0x80000000 then
      finish { x with exponent := if down then x.exponent - size else x.exponent + size }
    else if x.significand ≠ 0 ∧ !down then fail .malformed
    else finish { x with significand := 0 }

/-- What may follow a number's digits before the exponent. -/
def readTail (x : Numeral) : Reader Number := do
  match ← peek with
  | some 'e' | some 'E' => readExponent x
  | _ => finish x

/-- The digits after the point, from the point on. -/
def readFraction (x : Numeral) : Reader Number := do
  skip
  match ← takeWhile Char.isDigit with
  | [] =>
    match ← peek with
    | none => fail .unfinished
    | some _ => fail .malformed
  | ds =>
    let (n, left) := absorb x.significand ds
    let taken := ds.length - left
    readTail { x with significand := n, exponent := x.exponent - taken }

/-- A number without point and exponent. Zero with a sign is a binary64. -/
def ofWhole (negative : Bool) (n : Nat) : Reader Number :=
  if !negative then return .whole n
  else if n ≠ 0 ∧ n ≤ 0x8000000000000000 then return .whole (-n)
  else finish ⟨negative, n, 0⟩

/-- The digits before the point, of which there is one and no leading zero. -/
def readWhole : Reader (List Char) := do
  match ← peek with
  | none => fail .unfinished
  | some '0' =>
    skip
    match ← peek with
    | some c => if c.isDigit then fail .malformed else return ['0']
    | none => return ['0']
  | some _ =>
    match ← takeWhile Char.isDigit with
    | [] => fail .malformed
    | ds => return ds

def readSign : Reader Bool := do
  match ← peek with
  | some '-' => skip; return true
  | _ => return false

def read : Reader Number := do
  let negative ← readSign
  let (n, left) := absorb 0 (← readWhole)
  let x : Numeral := ⟨negative, n, left⟩
  match ← peek with
  | some '.' => readFraction x
  | some 'e' | some 'E' => readExponent x
  | _ => if left = 0 then ofWhole negative n else finish x

/-! ## Skipping -/

/-- At least one digit. Here the end of the text is no excuse. -/
def skipDigits : Reader Unit := do
  match ← takeWhile Char.isDigit with
  | [] => fail .malformed
  | _ => return

def skipExponent : Reader Unit := do
  skip
  match ← peek with
  | some '+' | some '-' => skip
  | _ => pure ()
  skipDigits

/-- Check the shape of a number whose value is not asked for. -/
def skipOver : Reader Unit := do
  let _ ← readSign
  if (← peek).isNone then fail .malformed
  let _ ← readWhole
  if (← peek) = some '.' then
    skip
    skipDigits
  match ← peek with
  | some 'e' | some 'E' => skipExponent
  | _ => return

end Numeral

end TopDown.Json
