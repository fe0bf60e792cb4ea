import GlyphScript.Text.DecimalDigit
import GlyphScript.Token.Scan
import Std.Data.TreeMap

/-!
# Fresh names

A symbol is a base, the separator and a number. Symbols that are in use are
skipped, and the base of a symbol is the base of whatever is made from it, so
that numbers do not pile up.
-/

namespace GlyphScript

structure Gensym where
  separator : String
  /-- The names in use, symbols already given out among them. -/
  taken : Std.TreeSet String
  /-- The last number given out for each base. -/
  counters : Std.TreeMap String Nat

namespace Gensym

def ofNames (separator : String) (taken : Std.TreeSet String) : Gensym :=
  ⟨separator, taken, Std.TreeMap.empty⟩

def isTaken (g : Gensym) (name : String) : Bool := g.taken.contains name

/-- Puts names into use. -/
def reserve (g : Gensym) (names : List String) : Gensym :=
  { g with taken := g.taken.insertMany names }

/-! ## Bases -/

/-- What stands before a separator and a number. Of several places to divide the last one
counts, and no line feed may stand before it. -/
def baseChars? (separator : List Char) : List Char → Option (List Char)
  | [] => none
  | c :: cs =>
    match if c = '\n' then none else baseChars? separator cs with
    | some base => some (c :: base)
    | none =>
      if separator.isPrefixOf (c :: cs) && isDigitRun ((c :: cs).drop separator.length) then some []
      else none

/-- The base of a symbol; any other name is its own base. -/
def baseOf (g : Gensym) (name : String) : String :=
  (baseChars? g.separator.toList name.toList).elim name String.ofList

/-! ## Symbols -/

def symbol (g : Gensym) (base : String) (number : Nat) : String :=
  s!"{base}{g.separator}{number}"

/-- The base that the symbols made from `name` share. One that would fuse with the separator
gets an underscore. -/
def symbolBase (g : Gensym) (name : String) : String :=
  let base := g.baseOf name
  if lexesAsIdentifier (g.symbol base 1) then base else base ++ "_"

/-- The first free number from `number` on, found within `fuel` steps. -/
def freeNumber (g : Gensym) (base : String) : (fuel : Nat) → (number : Nat) → Nat
  | 0, number => number
  | fuel + 1, number =>
    if g.isTaken (g.symbol base number) then freeNumber g base fuel (number + 1) else number

/-- Gives out a symbol made from `name`. Of more symbols than there are names in use, one is
free. -/
def fresh (g : Gensym) (name : String) : String × Gensym :=
  let base := g.symbolBase name
  let number := g.freeNumber base g.taken.size (g.counters.getD base 0 + 1)
  let symbol := g.symbol base number
  (symbol,
    { g with taken := g.taken.insert symbol, counters := g.counters.insert base number })

end Gensym

end GlyphScript
