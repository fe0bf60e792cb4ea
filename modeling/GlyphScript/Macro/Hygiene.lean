import GlyphScript.Macro.RenameTable
import GlyphScript.Node.Transform

/-!
# Renaming a template apart

The names of a template are renamed where they stand outside quotes. A quote
goes one level in and an unquote one level out, but never below the outside.
Names to be kept and the wildcard stay as they are.
-/

namespace GlyphScript

/-- The quote level inside a node that stands at `depth`. -/
def Head.innerDepth (depth : Nat) : Head → Nat
  | .quote => depth + 1
  | .unquote => depth - 1
  | _ => depth

abbrev IsolateM := StateM (RenameTable × Gensym)

namespace Node

def isolatedName (keep : List String) (name : String) : IsolateM String :=
  if keep.contains name || name = wildcard then return name else RenameTable.rename name

/-- The head of a node outside quotes with its names renamed. -/
def isolatedHead (keep : List String) : Head → IsolateM Head
  | .identifier name => return .identifier (← isolatedName keep name)
  | head => head.mapBindersM fun _ => isolatedName keep

/-- The contexts are quote levels. -/
def isolating (keep : List String) : Transform IsolateM Nat Node where
  enter depth n := return .inside (n.head.innerDepth depth)
  leave depth n :=
    if depth = 0 then return mk n.span (← isolatedHead keep n.head) n.slots else return n
  toSlot := .one

/-- Renames apart all names outside quotes but those of `keep`. -/
def isolate (keep : List String) (n : Node) : IsolateM Node := n.transformM (isolating keep) 0

/-- A template as its hygiene wants it, with the table of its names if they were renamed. -/
def withHygiene (n : Node) (hygiene : Hygiene) (keep : List String) (g : Gensym) :
    Node × Option RenameTable × Gensym :=
  match hygiene with
  | .isolate =>
    let (n, table, g) := n.isolate keep (RenameTable.empty, g)
    (n, some table, g)
  | .capture | .inject => (n, none, g)

end Node

end GlyphScript
