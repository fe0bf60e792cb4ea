import GlyphScript.Node.Basic

/-!
# Collecting from a tree
-/

namespace GlyphScript

namespace Node

/-- All that `found` gives, from left to right. Where it gives something, even an empty list,
the nodes below are passed over. -/
def collect {α : Type} (found : Head → Option (List α)) : Node → List α :=
  fold fun _ head slots => (found head).getD (slots.flatMap Slot.toList).flatten

end Node

end GlyphScript
