import GlyphScript.Proofs.Guarantee
import GlyphScript.Proofs.Run
import Mathlib.Order.Basic

/-!
# Assurances

Guarantees for computations whose state only goes on. What is said of a result
may depend on how far the state has come, and stays true from then on.
-/

namespace GlyphScript

/-- A notion of all results of a computation having a property of how far it has come. -/
structure Assurance (m : Type → Type) [Monad m] (W : Type) [Preorder W] where
  holds : ∀ {α : Type}, W → m α → (W → α → Prop) → Prop
  pure : ∀ {α : Type} {w : W} {a : α} {p : W → α → Prop}, (∀ w', w ≤ w' → p w' a) →
    holds w (pure a) p
  bind : ∀ {α β : Type} {w : W} {x : m α} {f : α → m β} {p : W → α → Prop} {q : W → β → Prop},
    holds w x p → (∀ w' a, w ≤ w' → p w' a → holds w' (f a) q) → holds w (x >>= f) q

namespace Assurance

variable {W : Type} [Preorder W]

/-- What holds of the result if the state keeps its invariant and only goes on. -/
def state {σ : Type} (view : σ → W) (I : σ → Prop) : Assurance (StateM σ) W where
  holds w x p := ∀ s, I s → w ≤ view s →
    view s ≤ view (x s).2 ∧ I (x s).2 ∧ p (view (x s).2) (x s).1
  pure h s hs le := ⟨le_refl _, hs, h _ le⟩
  bind hx hf s hs le := by
    obtain ⟨le₁, hs₁, hp⟩ := hx s hs le
    obtain ⟨le₂, hs₂, hq⟩ := hf _ _ (le_trans le le₁) hp _ hs₁ (le_refl _)
    exact ⟨le_trans le₁ le₂, hs₂, hq⟩

/-- As `state`, for computations that may end in a fault. -/
def fallible {ε σ : Type} (view : σ → W) (I : σ → Prop) :
    Assurance (ExceptT ε (StateM σ)) W where
  holds w x p := ∀ s, I s → w ≤ view s →
    view s ≤ view (x s).2 ∧ I (x s).2 ∧ ∀ a, (x s).1 = .ok a → p (view (x s).2) a
  pure h s hs le := ⟨le_refl _, hs, fun _ e => Except.ok.inj e ▸ h _ le⟩
  bind {_ _ _ x f _ _} hx hf s hs le := by
    rw [run_bind]
    obtain ⟨le₁, hs₁, hp⟩ := hx s hs le
    rcases h : x s with ⟨e | a, s₁⟩ <;> rw [h] at le₁ hs₁ hp
    · exact ⟨le₁, hs₁, by rintro _ ⟨⟩⟩
    · obtain ⟨le₂, hs₂, hq⟩ := hf _ a (le_trans le le₁) (hp a rfl) s₁ hs₁ (le_refl _)
      exact ⟨le_trans le₁ le₂, hs₂, hq⟩

/-- What holds of the result unless there is an error; there is no state to go on. -/
def except (ε : Type) : Assurance (Except ε) W where
  holds w x p := ∀ a, x = .ok a → p w a
  pure h _ e := Except.ok.inj e ▸ h _ (le_refl _)
  bind {_ _ w x f _ _} hx hf b e := by
    cases x with
    | error _ => cases e
    | ok a => exact hf w a (le_refl _) (hx a rfl) b e

variable {m : Type → Type} [Monad m] [LawfulMonad m] (A : Assurance m W) {α β : Type} {w : W}

theorem map {x : m α} {f : α → β} {p : W → α → Prop} {q : W → β → Prop} (hx : A.holds w x p)
    (h : ∀ w' a, w ≤ w' → p w' a → q w' (f a)) (lasting : ∀ w' w'' b, w' ≤ w'' → q w' b → q w'' b) :
    A.holds w (f <$> x) q := by
  rw [map_eq_pure_bind]
  exact A.bind hx fun w' a le ha => A.pure fun w'' le' => lasting _ _ _ le' (h w' a le ha)

theorem mono {x : m α} {p q : W → α → Prop} (hx : A.holds w x p)
    (h : ∀ w' a, w ≤ w' → p w' a → q w' a) (lasting : ∀ w' w'' a, w' ≤ w'' → q w' a → q w'' a) :
    A.holds w x q := by
  simpa using A.map hx (f := id) h lasting

/-- Elements that are as `p` says are taken to results as `q` says. -/
theorem mapM {f : α → m β} {p : W → α → Prop} {q : W → α → β → Prop}
    (lasting : ∀ w w' a, w ≤ w' → p w a → p w' a)
    (lasting' : ∀ w w' a b, w ≤ w' → q w a b → q w' a b) {l : List α}
    (hf : ∀ a ∈ l, ∀ w' : W, w ≤ w' → p w' a → A.holds w' (f a) fun w => q w a)
    (hl : ∀ a ∈ l, p w a) : A.holds w (l.mapM f) fun w => List.Forall₂ (q w) l := by
  induction l generalizing w with
  | nil =>
    rw [List.mapM_nil]
    exact A.pure fun _ _ => .nil
  | cons a l ih =>
    rw [List.mapM_cons]
    refine A.bind (hf a List.mem_cons_self w (le_refl _) (hl a List.mem_cons_self))
      fun w₁ b le₁ hb => ?_
    refine A.bind (ih (fun a ha w' le => hf a (List.mem_cons_of_mem _ ha) w' (le_trans le₁ le))
      fun a ha => lasting _ _ _ le₁ (hl a (List.mem_cons_of_mem _ ha))) fun w₂ bs le₂ hbs => ?_
    refine A.pure fun w₃ le₃ => .cons (lasting' _ _ _ _ (le_trans le₂ le₃) hb) ?_
    exact hbs.imp fun _ _ h => lasting' _ _ _ _ le₃ h

end Assurance

/-! ## Trees -/

/-- What is known of a step, by whether it is the last one at its node. -/
def Step.Meets {δ ρ : Type} (P : ρ → Prop) (Q : δ → Prop) : Step δ ρ → Prop
  | .done r => P r
  | .inside d => Q d

theorem Guarantee.Filled.imp {ρ : Type} {toSlot : ρ → Slot Node} {R R' : Node → ρ → Prop}
    {s t : Slot Node} (h : Filled toSlot R s t) (hR : ∀ n r, R n r → R' n r) :
    Filled toSlot R' s t := by
  cases h with
  | absent => exact .absent
  | one h => exact .one (hR _ _ h)
  | many h => exact .many (h.imp hR)

namespace Assurance

variable {W : Type} [Preorder W] {m : Type → Type} [Monad m] [LawfulMonad m] (A : Assurance m W)

/-- From what holds when a node is entered and when it is left follows what holds of the
transformed tree. -/
theorem transformM {δ ρ : Type} {t : Transform m δ ρ} {I : W → Node → Prop}
    {R : W → δ → Node → ρ → Prop} {E : δ → Node → δ → Prop}
    (lasting : ∀ w w' n, w ≤ w' → I w n → I w' n)
    (lasting' : ∀ w w' d n r, w ≤ w' → R w d n r → R w' d n r)
    (child : ∀ w span head slots, I w (.mk span head slots) →
      ∀ s ∈ slots, ∀ n ∈ s.toList, I w n)
    (enter : ∀ w d n, I w n →
      A.holds w (t.enter d n) fun w' => Step.Meets (R w' d n) (E d n))
    (leave : ∀ w d span head slots d' slots', I w (.mk span head slots) →
      E d (.mk span head slots) d' →
      List.Forall₂ (Guarantee.Filled t.toSlot (R w d')) slots slots' →
      A.holds w (t.leave d (.mk span head slots')) fun w' => R w' d (.mk span head slots))
    (n : Node) : ∀ w d, I w n → A.holds w (n.transformM t d) fun w' => R w' d n := by
  induction n using Node.induction_on with
  | step span head slots ih =>
    intro w d hn
    rw [Node.transformM]
    refine A.bind (enter w d _ hn) fun w₁ step le₁ hstep => ?_
    cases step with
    | done r => exact A.pure fun w₂ le₂ => lasting' _ _ _ _ _ le₂ hstep
    | inside d' =>
      have slot : ∀ s ∈ slots, ∀ w' : W, w₁ ≤ w' → (∀ n ∈ s.toList, I w' n) →
          A.holds w' (Node.transformSlotM t d' s) fun w => Guarantee.Filled t.toSlot (R w d') s := by
        intro s hs w' _ hi
        have filled : ∀ v v' s', v ≤ v' → Guarantee.Filled t.toSlot (R v d') s s' →
            Guarantee.Filled t.toSlot (R v' d') s s' :=
          fun v v' s' le h => h.imp fun _ _ => lasting' _ _ _ _ _ le
        cases s with
        | absent => exact A.pure fun _ _ => .absent
        | one n =>
          exact A.map (ih _ hs n List.mem_cons_self w' d' (hi n List.mem_cons_self))
            (fun _ _ _ h => .one h) filled
        | many ns =>
          rw [Node.transformSlotM, Node.transformListM_eq, ← LawfulFunctor.comp_map]
          exact A.map (A.mapM (q := fun w => R w d') lasting (fun _ _ _ _ => lasting' _ _ _ _ _)
            (fun n hn v _ h => ih _ hs n hn v d' h) hi) (fun _ _ _ h => .many h) filled
      have inner := child w₁ span head slots (lasting _ _ _ le₁ hn)
      simp only [Node.transformSlotsM_eq]
      refine A.bind (A.mapM (fun _ _ _ le h n hn => lasting _ _ _ le (h n hn))
        (fun _ _ _ _ le h => h.imp fun _ _ => lasting' _ _ _ _ _ le) slot inner) ?_
      intro w₂ slots' le₂ h
      exact leave w₂ d span head slots d' slots' (lasting _ _ _ (le_trans le₁ le₂) hn) hstep h

end Assurance

end GlyphScript
