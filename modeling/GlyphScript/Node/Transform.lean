import GlyphScript.Node.Basic

/-!
# Transforming trees

One traversal serves every transformation. It asks at each node whether to
replace the node or to go inside, and where it goes inside it builds the node
again from the transformed slots. What replaces an element of a list may be
several nodes.
-/

namespace GlyphScript

/-- What a transformation does when it comes to a node: it is done with it, or goes on with the
slots in some context. -/
inductive Step (δ ρ : Type) where
  | done (result : ρ)
  | inside (context : δ)

/-- A transformation with effects in `m`, contexts `δ` and results `ρ`. -/
structure Transform (m : Type → Type) (δ ρ : Type) where
  enter : δ → Node → m (Step δ ρ)
  /-- Is given the node with its transformed slots, and the context of the node itself. -/
  leave : δ → Node → m ρ
  /-- What a result puts into the slot of the node that it replaces. -/
  toSlot : ρ → Slot Node

namespace Node

variable {m : Type → Type} [Monad m] {δ ρ : Type}

mutual

def transformM (t : Transform m δ ρ) (context : δ) : Node → m ρ
  | mk span head slots => do
    match ← t.enter context (mk span head slots) with
    | .done result => return result
    | .inside inner =>
      let slots ← transformSlotsM t inner slots
      t.leave context (mk span head slots)

def transformSlotsM (t : Transform m δ ρ) (context : δ) :
    List (Slot Node) → m (List (Slot Node))
  | [] => return []
  | .absent :: slots => return .absent :: (← transformSlotsM t context slots)
  | .one n :: slots => do
    let result ← transformM t context n
    return t.toSlot result :: (← transformSlotsM t context slots)
  | .many ns :: slots => do
    let ns ← transformListM t context ns
    return .many ns :: (← transformSlotsM t context slots)

def transformListM (t : Transform m δ ρ) (context : δ) : List Node → m (List Node)
  | [] => return []
  | n :: ns => do
    let result ← transformM t context n
    return (t.toSlot result).toList ++ (← transformListM t context ns)

end

end Node

end GlyphScript
