/-!
# Sets of characters given by ranges of code points
-/

namespace GlyphScript

/-- Closed ranges of code points, ascending and apart. -/
abbrev CharRanges := List (Nat × Nat)

namespace CharRanges

def contains (ranges : CharRanges) (c : Char) : Bool :=
  ranges.any fun (lo, hi) => lo ≤ c.toNat && c.toNat ≤ hi

end CharRanges

end GlyphScript
