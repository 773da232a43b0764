-- White space as Unicode counts it, and the trimming and splitting that go by it.

namespace TopDown.Text

/-- The characters with the property `White_Space`. The zero-width space, the byte order mark
and the separators U+001C to U+001F are not among them. -/
def isBlank (c : Char) : Bool :=
  let n := c.toNat
  (0x9 ≤ n && n ≤ 0xD) || n == 0x20 || n == 0x85 || n == 0xA0 || n == 0x1680 ||
    (0x2000 ≤ n && n ≤ 0x200A) || n == 0x2028 || n == 0x2029 || n == 0x202F ||
    n == 0x205F || n == 0x3000

/-! ## Lists of characters -/

/-- Without the blanks at the end. -/
def trimEndChars (cs : List Char) : List Char := (cs.reverse.dropWhile isBlank).reverse

/-- Without the blanks at either end. -/
def trimChars (cs : List Char) : List Char := trimEndChars (cs.dropWhile isBlank)

/-- The longest runs without a blank, in order. -/
def wordChars (cs : List Char) : List (List Char) :=
  (cs.splitOnP isBlank).filter fun w => !w.isEmpty

/-- What stands before the first `sep` and what stands after it. -/
def cutAt (sep : Char) (cs : List Char) : Option (List Char × List Char) :=
  match cs.dropWhile (· != sep) with
  | [] => none
  | _ :: after => some (cs.takeWhile (· != sep), after)

/-! ## Strings -/

def trimEnd (s : String) : String := String.ofList (trimEndChars s.toList)

def trim (s : String) : String := String.ofList (trimChars s.toList)

def words (s : String) : List String := (wordChars s.toList).map String.ofList

/-- The two sides of the first `sep` in `s`. -/
def cut (sep : Char) (s : String) : Option (String × String) :=
  (cutAt sep s.toList).map fun (left, right) => (String.ofList left, String.ofList right)

end TopDown.Text
