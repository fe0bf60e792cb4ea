import GlyphScript.Text.Blank
import GlyphScript.Text.DecimalDigit

/-!
# Integers in text

A sign and decimal digits of any script, with blanks around them and single
underscores between digits.
-/

namespace GlyphScript

/-- The digits that an integer may have. -/
def maxIntegerDigits : Nat := 4300

/-- Blanks around an integer; the information separators are none. -/
def isIntegerBlank (c : Char) : Bool := isBlank c && !(0x1C ≤ c.toNat && c.toNat ≤ 0x1F)

/-- The values of the digits, each but the first with or without an underscore before it. -/
def digitValues? : List Char → Option (List Nat)
  | [] => none
  | c :: cs => do return (← decimalDigit? c) :: (← more cs)
where
  more : List Char → Option (List Nat)
    | [] => some []
    | '_' :: c :: cs => do return (← decimalDigit? c) :: (← more cs)
    | c :: cs => do return (← decimalDigit? c) :: (← more cs)

def naturalOf? (cs : List Char) : Option Nat := do
  let digits ← digitValues? cs
  if maxIntegerDigits < digits.length then none
  else return digits.foldl (fun n d => 10 * n + d) 0

/-- The integer that a text spells. -/
def integerOf? (s : String) : Option Int :=
  let trimmed := ((s.toList.dropWhile isIntegerBlank).reverse.dropWhile isIntegerBlank).reverse
  match trimmed with
  | '-' :: cs => (naturalOf? cs).map fun n => -(n : Int)
  | '+' :: cs => (naturalOf? cs).map Int.ofNat
  | cs => (naturalOf? cs).map Int.ofNat

end GlyphScript
