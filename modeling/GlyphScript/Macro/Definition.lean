import GlyphScript.Node.Basic

/-!
# Macro definitions

A registry keeps the macros of a unit in the order in which their names first
came up.
-/

namespace GlyphScript

/-- A macro with a template binds its parameters to the arguments; any other macro tries its
rules in order. -/
structure MacroDefinition where
  name : String
  params : List String
  span : Span
  phase : Phase
  hygiene : Hygiene
  rules : List Node
  /-- The quote around the template. -/
  template : Option Node

namespace MacroDefinition

/-- The definition that a node makes, if it is a macro definition. -/
def ofNode? (n : Node) : Option MacroDefinition :=
  match n.head, n.slots with
  | .macroDef name params phase hygiene, [rules, template] => some
    { name, params, span := n.span, phase, hygiene, rules := rules.toList,
      template := template.toList.head? }
  | _, _ => none

/-- The number of arguments that a call must have; any number if no parameter is declared. -/
def arity (d : MacroDefinition) : Option Nat :=
  if d.params.isEmpty then none else some d.params.length

end MacroDefinition

structure Registry where
  macros : List MacroDefinition

namespace Registry

def empty : Registry := ⟨[]⟩

def size (r : Registry) : Nat := r.macros.length

def find? (r : Registry) (name : String) : Option MacroDefinition :=
  r.macros.find? (·.name = name)

def contains (r : Registry) (name : String) : Bool := (r.find? name).isSome

def names (r : Registry) : List String := r.macros.map (·.name)

/-- Adds a definition. A macro of the same name is replaced where it stands. -/
def insert (r : Registry) (d : MacroDefinition) : Registry := ⟨insertInto r.macros⟩
where
  insertInto : List MacroDefinition → List MacroDefinition
    | [] => [d]
    | e :: rest => if e.name = d.name then d :: rest else e :: insertInto rest

/-- Every macro defined anywhere in a tree. -/
def ofTree (n : Node) : Registry :=
  (n.walk.filterMap MacroDefinition.ofNode?).foldl insert empty

end Registry

end GlyphScript
