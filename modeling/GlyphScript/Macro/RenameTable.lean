import GlyphScript.Macro.Gensym

/-!
# Rename tables

The symbols given to the names of one template, in the order in which the
names came up.
-/

namespace GlyphScript

structure RenameTable where
  entries : List (String × String)

namespace RenameTable

def empty : RenameTable := ⟨[]⟩

def size (t : RenameTable) : Nat := t.entries.length

def find? (t : RenameTable) (name : String) : Option String := t.entries.lookup name

def symbols (t : RenameTable) : List String := t.entries.map (·.2)

def push (t : RenameTable) (name symbol : String) : RenameTable :=
  ⟨t.entries ++ [(name, symbol)]⟩

/-- The symbol of `name`, a fresh one if it has none yet. -/
def rename (name : String) : StateM (RenameTable × Gensym) String := fun (t, g) =>
  match t.find? name with
  | some symbol => (symbol, t, g)
  | none =>
    let (symbol, g) := g.fresh name
    (symbol, t.push name symbol, g)

end RenameTable

end GlyphScript
