import GlyphScript.Node.Basic

/-!
# Names bound in a tree
-/

namespace GlyphScript

/-- Adds the names that are not yet listed. -/
def addNames (listed names : List String) : List String :=
  listed ++ names.filter (!listed.contains ·)

namespace Node

/-- Every name that is bound outside quotes, parents before children and from left to right. -/
def boundInside : Node → List String :=
  fold fun _ head slots =>
    if head = .quote then [] else head.boundNames ++ (slots.flatMap Slot.toList).flatten

/-- The names bound anywhere outside quotes, each once and in order of first appearance. -/
def binderNames (n : Node) : List String :=
  (n.boundInside.filter (· ≠ wildcard)).eraseDups

end Node

end GlyphScript
