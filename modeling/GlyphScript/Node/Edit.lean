import GlyphScript.Node.Transform

/-!
# Plain edits

Renaming identifiers, and dropping or doubling statements by their kind.
-/

namespace GlyphScript

/-- A plain edit of a tree: identifiers get new names, statements of some kinds are left out and
statements of other kinds are written twice. -/
structure Edit where
  rename : List (String × String)
  drop : List String
  double : List String

namespace Edit

/-- What replaces a node outright, if the edit has anything to say of it. Statements to be
doubled or dropped are not edited inside, and doubling wins over dropping. -/
def replacement? (e : Edit) (n : Node) : Option (Slot Node) :=
  if e.double.contains n.className then some (.many [n, n])
  else if e.drop.contains n.className then some (.many [])
  else
    match n.head with
    | .identifier name =>
      (e.rename.lookup name).map fun new => .one (.identifier n.span new)
    | _ => none

/-- Counts the replacements. -/
def transform (e : Edit) : Transform (StateM Nat) Unit (Slot Node) where
  enter _ n :=
    match e.replacement? n with
    | some slot => do
      modify (· + 1)
      return .done slot
    | none => return .inside ()
  leave _ n := return .one n
  toSlot := id

/-- The edited tree, and whether anything was replaced. -/
def apply (e : Edit) (n : Node) : Slot Node × Bool :=
  let (result, replaced) := n.transformM e.transform () 0
  (result, replaced ≠ 0)

end Edit

end GlyphScript
