import GlyphScript.Proofs.Run
import GlyphScript.Proofs.Tree

/-!
# Correspondences

Two computations that take corresponding steps and so come to corresponding
results. What is shown of the steps carries over to lists, to heads and to the
transformation of whole trees.
-/

namespace GlyphScript

section

variable {α α' β β' : Type} {R : α → α' → Prop} {R' : β → β' → Prop}

/-! ## Options -/

theorem optionRel_map {o : Option α} {o' : Option α'} {f : α → β} {g : α' → β'}
    (ho : Option.Rel R o o') (h : ∀ a a', R a a' → R' (f a) (g a')) :
    Option.Rel R' (o.map f) (o'.map g) := by
  cases ho with
  | none => exact .none
  | some ha => exact .some (h _ _ ha)

theorem optionRel_bind {o : Option α} {o' : Option α'} {f : α → Option β} {g : α' → Option β'}
    (ho : Option.Rel R o o') (h : ∀ a a', R a a' → Option.Rel R' (f a) (g a')) :
    Option.Rel R' (o.bind f) (o'.bind g) := by
  cases ho with
  | none => exact .none
  | some ha => exact h _ _ ha

theorem optionRel_findSome? {f : α → Option β} {g : α' → Option β'} {l : List α} {l' : List α'}
    (hl : List.Forall₂ R l l') (h : ∀ a a', R a a' → Option.Rel R' (f a) (g a')) :
    Option.Rel R' (l.findSome? f) (l'.findSome? g) := by
  induction hl with
  | nil => exact .none
  | cons first _ ih =>
    have here := h _ _ first
    rw [List.findSome?_cons, List.findSome?_cons]
    generalize f _ = o, g _ = o' at here
    cases here with
    | none => exact ih
    | some ha => exact .some ha

theorem optionRel_head? {l : List α} {l' : List α'} (h : List.Forall₂ R l l') :
    Option.Rel R l.head? l'.head? := by
  cases h with
  | nil => exact .none
  | cons first _ => exact .some first

end

/-- A notion of two computations having corresponding results. -/
structure Correspondence (m : Type → Type) [Monad m] where
  rel : ∀ {α β : Type}, (α → β → Prop) → m α → m β → Prop
  pure : ∀ {α β : Type} {R : α → β → Prop} {a : α} {b : β}, R a b → rel R (pure a) (pure b)
  bind : ∀ {α α' β β' : Type} {R : α → α' → Prop} {R' : β → β' → Prop} {x : m α} {y : m α'}
    {f : α → m β} {g : α' → m β'},
    rel R x y → (∀ a b, R a b → rel R' (f a) (g b)) → rel R' (x >>= f) (y >>= g)

/-- Corresponding results, or corresponding faults. -/
inductive Except.Corresponds {ε α β : Type} (E : ε → ε → Prop) (R : α → β → Prop) :
    Except ε α → Except ε β → Prop where
  | ok {a b} : R a b → Corresponds E R (.ok a) (.ok b)
  | error {e e'} : E e e' → Corresponds E R (.error e) (.error e')

/-- Steps that do the same, both done with or both going on in one context. -/
inductive Step.Corresponds {δ ρ ρ' : Type} (R : ρ → ρ' → Prop) : Step δ ρ → Step δ ρ' → Prop where
  | done {r r'} : R r r' → Corresponds R (.done r) (.done r')
  | inside {d} : Corresponds R (.inside d) (.inside d)

namespace Correspondence

variable {ε σ τ : Type}

def except (E : ε → ε → Prop) : Correspondence (Except ε) where
  rel R := Except.Corresponds E R
  pure := .ok
  bind hx hf := by
    cases hx with
    | ok h => exact hf _ _ h
    | error h => exact .error h

/-- From corresponding states to corresponding states. -/
def state (S : σ → σ → Prop) : Correspondence (StateM σ) where
  rel R x y := ∀ s s', S s s' → R (x s).1 (y s').1 ∧ S (x s).2 (y s').2
  pure h _ _ hs := ⟨h, hs⟩
  bind hx hf s s' hs := hf _ _ (hx s s' hs).1 _ _ (hx s s' hs).2

def run (E : ε → ε → Prop) (S : σ → σ → Prop) : Correspondence (ExceptT ε (StateM σ)) where
  rel R x y := ∀ s s', S s s' → Except.Corresponds E R (x s).1 (y s').1 ∧ S (x s).2 (y s').2
  pure h _ _ hs := ⟨.ok h, hs⟩
  bind {_ _ _ _ _ _ x y f g} hx hf s s' hs := by
    have first := hx s s' hs
    rw [run_bind, run_bind]
    revert first
    rcases x s with ⟨_ | a, t⟩ <;> rcases y s' with ⟨_ | b, t'⟩ <;> rintro ⟨result, states⟩ <;>
      cases result
    · rename_i faults
      exact ⟨.error faults, states⟩
    · rename_i results
      exact hf a b results t t' states

/-- A correspondence of computations that carry a further state. -/
def stateT {m : Type → Type} [Monad m] (C : Correspondence m) (S : τ → τ → Prop) :
    Correspondence (StateT τ m) where
  rel {α β} R x y := ∀ t t', S t t' →
    C.rel (fun (p : α × τ) (q : β × τ) => R p.1 q.1 ∧ S p.2 q.2) (x t) (y t')
  pure h _ _ ht := C.pure ⟨h, ht⟩
  bind hx hf t t' ht := C.bind (hx t t' ht) fun ⟨a, t₁⟩ ⟨b, t₁'⟩ h => hf a b h.1 t₁ t₁' h.2

variable {m : Type → Type} [Monad m] [LawfulMonad m] (C : Correspondence m) {α α' β β' : Type}

theorem map {R : α → α' → Prop} {R' : β → β' → Prop} {x : m α} {y : m α'} {f : α → β}
    {g : α' → β'} (hx : C.rel R x y) (h : ∀ a b, R a b → R' (f a) (g b)) :
    C.rel R' (f <$> x) (g <$> y) := by
  rw [map_eq_pure_bind, map_eq_pure_bind]
  exact C.bind hx fun a b hab => C.pure (h a b hab)

theorem mono {R R' : α → α' → Prop} {x : m α} {y : m α'} (hx : C.rel R x y)
    (h : ∀ a b, R a b → R' a b) : C.rel R' x y := by
  simpa using C.map hx (f := id) (g := id) h

theorem mapM {R : α → α' → Prop} {R' : β → β' → Prop} {f : α → m β} {g : α' → m β'}
    {l : List α} {l' : List α'} (hl : List.Forall₂ R l l')
    (h : ∀ a ∈ l, ∀ a', R a a' → C.rel R' (f a) (g a')) :
    C.rel (List.Forall₂ R') (l.mapM f) (l'.mapM g) := by
  induction hl with
  | nil =>
    rw [List.mapM_nil, List.mapM_nil]
    exact C.pure .nil
  | cons first _ ih =>
    obtain ⟨here, below⟩ := List.forall_mem_cons.mp h
    rw [List.mapM_cons, List.mapM_cons]
    refine C.bind (here _ first) fun b b' hb => ?_
    exact C.bind (ih below) fun bs bs' hbs => C.pure (.cons hb hbs)

omit [LawfulMonad m] in
theorem forM {R : α → α' → Prop} {f : α → m PUnit} {g : α' → m PUnit} {l : List α} {l' : List α'}
    (hl : List.Forall₂ R l l') (h : ∀ a a', R a a' → C.rel (fun _ _ => True) (f a) (g a')) :
    C.rel (fun _ _ => True) (l.forM f) (l'.forM g) := by
  induction hl with
  | nil => exact C.pure trivial
  | cons first _ ih =>
    rw [List.forM_eq_forM, List.forM_eq_forM, List.forM_cons, List.forM_cons]
    exact C.bind (h _ _ first) fun _ _ _ => ih

/-! ## Heads and trees -/

/-- What is done with the same names leads to the same heads. -/
theorem mapBindersM {f g : Head.BinderPosition → String → m String}
    (h : ∀ p x, C.rel Eq (f p x) (g p x)) (head : Head) :
    C.rel Eq (head.mapBindersM f) (head.mapBindersM g) := by
  have names (xs : List String) : C.rel Eq (xs.mapM (f .params)) (xs.mapM (g .params)) := by
    have each : C.rel (List.Forall₂ Eq) (xs.mapM (f .params)) (xs.mapM (g .params)) := by
      refine C.mapM (List.forall₂_same.mpr fun x _ => Eq.refl x) fun x _ x' hx => ?_
      rw [← hx]
      exact h .params x
    exact C.mono each fun ys ys' h => by rwa [List.forall₂_eq_eq_eq] at h
  cases head
  case functionDef name params | asyncFunctionDef name params =>
    refine C.bind (h _ _) fun y y' hy => C.bind (names params) fun ys ys' hys => C.pure ?_
    rw [hy, hys]
  case lambda params => exact C.bind (names params) fun ys ys' hys => C.pure (congrArg _ hys)
  case importDecl path alias? =>
    cases alias? with
    | none => exact C.pure rfl
    | some name => exact C.bind (h _ _) fun y y' hy => C.pure (by rw [hy])
  case loopStmt target =>
    cases target with
    | none => exact C.pure rfl
    | some name => exact C.bind (h _ _) fun y y' hy => C.pure (by rw [hy])
  case assignment | classDef | tensorDecl | neuralNet | comprehensionClause | bindPattern =>
    exact C.bind (h _ _) fun y y' hy => C.pure (congrArg _ hy)
  all_goals exact C.pure rfl

/-- Transformations correspond if they do where they enter and where they leave a node. -/
theorem transformM {N : Node → Node → Prop} {δ ρ ρ' : Type} {R : ρ → ρ' → Prop}
    {t : Transform m δ ρ} {t' : Transform m δ ρ'}
    (parts : ∀ n n', N n n' → n.head = n'.head ∧ List.Forall₂ (Slot.Rel N) n.slots n'.slots)
    (made : ∀ span span' head slots slots', List.Forall₂ (Slot.Rel N) slots slots' →
      N (.mk span head slots) (.mk span' head slots'))
    (enter : ∀ d n n', N n n' → C.rel (Step.Corresponds R) (t.enter d n) (t'.enter d n'))
    (leave : ∀ d n n', N n n' → C.rel R (t.leave d n) (t'.leave d n'))
    (toSlot : ∀ r r', R r r' → Slot.Rel N (t.toSlot r) (t'.toSlot r')) (n : Node) :
    ∀ d n', N n n' → C.rel R (n.transformM t d) (n'.transformM t' d) := by
  induction n using Node.induction_on with
  | step span head slots ih =>
    rintro d ⟨span', head', slots'⟩ h
    obtain ⟨rfl, rel⟩ := parts _ _ h
    rw [Node.transformM, Node.transformM]
    refine C.bind (enter d _ _ h) fun step step' same => ?_
    cases same with
    | done hr => exact C.pure hr
    | @inside d' =>
      simp only [Node.transformSlotsM_eq]
      have slot : C.rel (List.Forall₂ (Slot.Rel N))
          (slots.mapM (Node.transformSlotM t d')) (slots'.mapM (Node.transformSlotM t' d')) := by
        refine C.mapM rel fun s hs s' hs' => ?_
        cases hs' with
        | absent => exact C.pure .absent
        | one hn => exact C.map (ih _ hs _ List.mem_cons_self d' _ hn) toSlot
        | many hns =>
          rw [Node.transformSlotM, Node.transformSlotM, Node.transformListM_eq,
            Node.transformListM_eq]
          refine C.map (C.map (C.mapM hns fun n hn n' h => ih _ hs n hn d' n' h) ?_)
            fun _ _ h => Slot.Rel.many h
          intro rs rs' h
          induction h with
          | nil => exact .nil
          | cons r _ ih => exact List.rel_append (toSlot _ _ r).toList ih
      exact C.bind slot fun ss ss' hss => leave d _ _ (made _ _ _ _ _ hss)

end Correspondence

end GlyphScript
