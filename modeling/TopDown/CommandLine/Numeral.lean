-- Numbers as arguments: decimal digits after an optional sign, in the range of a 64-bit word.

namespace TopDown.CommandLine

/-- At least one decimal digit, and nothing else. -/
def natural? (cs : List Char) : Option Nat :=
  if cs.isEmpty then none
  else if cs.all Char.isDigit then some (cs.foldl (fun n c => n * 10 + (c.toNat - 48)) 0)
  else none

/-- A number from -2^63 to 2^63 - 1. -/
def signed? (s : String) : Option Int := do
  let n : Int ← match s.toList with
    | '-' :: cs => (natural? cs).map fun n => -(n : Int)
    | '+' :: cs => (natural? cs).map fun n => (n : Int)
    | cs => (natural? cs).map fun n => (n : Int)
  if Int64.minValue.toInt ≤ n ∧ n ≤ Int64.maxValue.toInt then some n else none

/-- A number from 0 to 2^64 - 1. -/
def word? (s : String) : Option UInt64 := do
  let n ← match s.toList with
    | '+' :: cs => natural? cs
    | cs => natural? cs
  if n < UInt64.size then some n.toUInt64 else none

end TopDown.CommandLine
