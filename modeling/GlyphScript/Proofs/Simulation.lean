import GlyphScript.Proofs.Tree

/-!
# Simulations

Two computations that take the same steps with another way to do some of them.
What relates the steps relates transformations of whole trees.
-/

namespace GlyphScript

/-- A relation of computations that take corresponding steps with the same results. -/
structure Simulation (m : Type → Type) [Monad m] where
  rel : ∀ {α : Type}, m α → m α → Prop
  pure : ∀ {α : Type} (a : α), rel (pure a) (pure a)
  bind : ∀ {α β : Type} {x y : m α} {f g : α → m β},
    rel x y → (∀ a, rel (f a) (g a)) → rel (x >>= f) (y >>= g)

namespace Simulation

variable {m : Type → Type} [Monad m] [LawfulMonad m] (S : Simulation m) {α β : Type}

theorem map {x y : m α} (h : S.rel x y) (f : α → β) : S.rel (f <$> x) (f <$> y) := by
  rw [map_eq_pure_bind, map_eq_pure_bind]
  exact S.bind h fun a => S.pure (f a)

theorem mapM {f g : α → m β} :
    ∀ {l : List α}, (∀ a ∈ l, S.rel (f a) (g a)) → S.rel (l.mapM f) (l.mapM g)
  | [], _ => by
    rw [List.mapM_nil, List.mapM_nil]
    exact S.pure []
  | a :: l, h => by
    obtain ⟨here, below⟩ := List.forall_mem_cons.mp h
    rw [List.mapM_cons, List.mapM_cons]
    exact S.bind here fun b => S.bind (mapM below) fun bs => S.pure (b :: bs)

theorem transformM {δ ρ : Type} {t t' : Transform m δ ρ}
    (enter : ∀ d n, S.rel (t.enter d n) (t'.enter d n))
    (leave : ∀ d n, S.rel (t.leave d n) (t'.leave d n)) (toSlot : t.toSlot = t'.toSlot)
    (n : Node) : ∀ d, S.rel (n.transformM t d) (n.transformM t' d) := by
  induction n using Node.induction_on with
  | step span head slots ih =>
    intro d
    rw [Node.transformM, Node.transformM]
    refine S.bind (enter d _) fun step => ?_
    cases step with
    | done r => exact S.pure r
    | inside d' =>
      simp only [Node.transformSlotsM_eq]
      refine S.bind (S.mapM fun s hs => ?_) fun slots' => leave d _
      cases s with
      | absent => exact S.pure _
      | one n =>
        rw [Node.transformSlotM, Node.transformSlotM, toSlot]
        exact S.map (ih _ hs n List.mem_cons_self d') _
      | many ns =>
        rw [Node.transformSlotM, Node.transformSlotM, Node.transformListM_eq,
          Node.transformListM_eq, toSlot]
        exact S.map (S.map (S.mapM fun n hn => ih _ hs n hn d') _) _

/-- The same steps in computations that carry a further state. -/
def stateT {m : Type → Type} [Monad m] (S : Simulation m) (τ : Type) : Simulation (StateT τ m) where
  rel x y := ∀ t, S.rel (x t) (y t)
  pure a t := S.pure (a, t)
  bind hx hf t := S.bind (hx t) fun r => hf r.1 r.2

end Simulation

end GlyphScript
