/-!
# Edit distance

The least number of insertions, deletions and substitutions of one character
that turn one text into another, computed row by row, and the candidates that
are close to a name.
-/

namespace GlyphScript

/-- The rest of a row of distances: `c` is the row's character, `diagonal` and `above` come
from the row before, `left` is the entry just computed. -/
def extendRow (c : Char) : List Char → (diagonal left : Nat) → (above : List Nat) → List Nat
  | d :: ds, diagonal, left, up :: above =>
    let entry := min (min (up + 1) (left + 1)) (diagonal + if c = d then 0 else 1)
    entry :: extendRow c ds up entry above
  | _, _, _, _ => []

/-- The row after `row`, for one more character of the first text. -/
def nextRow (c : Char) (ds : List Char) : List Nat → List Nat
  | [] => []
  | first :: above => (first + 1) :: extendRow c ds first (first + 1) above

/-- The distances from the whole of `cs` to every beginning of `ds`. -/
def lastRow (cs ds : List Char) : List Nat :=
  cs.foldl (fun row c => nextRow c ds row) (List.range (ds.length + 1))

/-- The longer text runs down the rows, the shorter one along them. -/
def editDistance (s t : String) : Nat :=
  let cs := s.toList
  let ds := t.toList
  if cs.length < ds.length then (lastRow ds cs).getLastD 0 else (lastRow cs ds).getLastD 0

/-- Orders candidates by distance from `name`, then by code points. -/
def closerThan (name a b : String) : Bool :=
  let da := editDistance name a
  let db := editDistance name b
  da < db || (da == db && !(b < a))

/-- The candidates within two edits of `name`, closest first. -/
def closeTo (name : String) (candidates : List String) : List String :=
  (candidates.filter fun c => editDistance name c ≤ 2).mergeSort (closerThan name)

/-- The first `limit` elements; a negative limit drops that many from the end. -/
def takeUpTo {α : Type} (limit : Int) (xs : List α) : List α :=
  if 0 ≤ limit then xs.take limit.toNat else xs.take (xs.length - (-limit).toNat)

def suggestSimilar (name : String) (candidates : List String) (limit : Int) : List String :=
  takeUpTo limit (closeTo name candidates)

/-- At most three suggestions go into a message. -/
def suggestionLimit : Int := 3

def suggestionsFor (name : String) (candidates : List String) : List String :=
  (suggestSimilar name candidates suggestionLimit).map fun c => s!"Did you mean '{c}'?"

end GlyphScript
