import GlyphScript.Proofs.Shape

/-!
# Guarantees

What every result of a computation has in common. A guarantee is made for the
parts of a computation and carries over to lists, heads and whole trees.
-/

namespace GlyphScript

/-- A notion of all results of a computation having a property. -/
structure Guarantee (m : Type → Type) [Monad m] where
  holds : ∀ {α : Type}, m α → (α → Prop) → Prop
  pure : ∀ {α : Type} {a : α} {p : α → Prop}, p a → holds (pure a) p
  bind : ∀ {α β : Type} {x : m α} {f : α → m β} {p : α → Prop} {q : β → Prop},
    holds x p → (∀ a, p a → holds (f a) q) → holds (x >>= f) q

namespace Guarantee

/-- What holds of the result unless there is an error. -/
def except (ε : Type) : Guarantee (Except ε) where
  holds x p := ∀ a, x = .ok a → p a
  pure h _ e := Except.ok.inj e ▸ h
  bind {_ _ x f _ _} hx hf b e := by
    cases x with
    | error _ => nomatch e
    | ok a => exact hf a (hx a rfl) b e

/-- What holds of the result as long as the state keeps its invariant. -/
def state {σ : Type} (I : σ → Prop) : Guarantee (StateM σ) where
  holds x p := ∀ s, I s → p (x s).1 ∧ I (x s).2
  pure h _ hs := ⟨h, hs⟩
  bind hx hf s hs := hf _ (hx s hs).1 _ (hx s hs).2

variable {m : Type → Type} [Monad m] [LawfulMonad m] (G : Guarantee m) {α β : Type}

theorem map {x : m α} {f : α → β} {p : α → Prop} {q : β → Prop} (hx : G.holds x p)
    (h : ∀ a, p a → q (f a)) : G.holds (f <$> x) q := by
  rw [map_eq_pure_bind]
  exact G.bind hx fun a ha => G.pure (h a ha)

theorem mono {x : m α} {p q : α → Prop} (hx : G.holds x p) (h : ∀ a, p a → q a) :
    G.holds x q := by
  simpa using G.map hx (f := id) h

theorem mapM {f : α → m β} {R : α → β → Prop} : ∀ {l : List α},
    (∀ a ∈ l, G.holds (f a) (R a)) → G.holds (l.mapM f) (List.Forall₂ R l)
  | [], _ => by
    rw [List.mapM_nil]
    exact G.pure .nil
  | a :: l, h => by
    rw [List.mapM_cons]
    refine G.bind (h a List.mem_cons_self) fun b hb => ?_
    refine G.bind (mapM fun a ha => h a (List.mem_cons_of_mem _ ha)) fun bs hbs => ?_
    exact G.pure (.cons hb hbs)

/-! ## Heads -/

end Guarantee

namespace Head

/-- The names that a node itself has: that of an identifier, or those that it binds. -/
def ownNames : Head → List String
  | .identifier name => [name]
  | head => head.boundNames

/-- The second head is the first with its names replaced by related ones. -/
structure Renamed (R : String → String → Prop) (h h' : Head) : Prop where
  names : List.Forall₂ R h.ownNames h'.ownNames
  fields : h'.fields = h.fields
  /-- Only names change. -/
  same : h.ownNames = [] → h' = h

theorem Renamed.refl {R : String → String → Prop} {h : Head} (hR : ∀ x ∈ h.ownNames, R x x) :
    Renamed R h h :=
  ⟨List.forall₂_same.mpr hR, rfl, fun _ => rfl⟩

theorem Renamed.eq_iff {R : String → String → Prop} {h h' k : Head} (r : Renamed R h h')
    (hk : k.ownNames = []) : h' = k ↔ h = k := by
  constructor
  · intro e
    have := r.names
    rw [e, hk] at this
    rw [← r.same (List.forall₂_nil_right_iff.mp this), e]
  · intro e
    rw [r.same (e ▸ hk), e]

end Head

namespace Guarantee

variable {m : Type → Type} [Monad m] [LawfulMonad m] (G : Guarantee m)

theorem mapBindersM {f : Head.BinderPosition → String → m String} {R : String → String → Prop}
    {h : Head} (hf : ∀ p, ∀ x ∈ h.boundNames, G.holds (f p x) (R x))
    (hh : ∀ name, h ≠ .identifier name) :
    G.holds (h.mapBindersM f) (Head.Renamed R h) := by
  have params : ∀ xs : List String, (∀ x ∈ xs, x ∈ h.boundNames) →
      G.holds (xs.mapM (f .params)) (List.Forall₂ R xs) :=
    fun xs hxs => G.mapM fun x hx => hf .params x (hxs x hx)
  cases h
  case identifier name => exact absurd rfl (hh name)
  case assignment | classDef | tensorDecl | neuralNet | comprehensionClause | bindPattern =>
    exact G.bind (hf _ _ List.mem_cons_self) fun y hy =>
      G.pure ⟨.cons hy .nil, rfl, fun h => nomatch h⟩
  case functionDef name xs | asyncFunctionDef name xs =>
    refine G.bind (hf _ _ List.mem_cons_self) fun y hy => ?_
    refine G.bind (params xs fun x hx => List.mem_cons_of_mem _ hx) fun ys hys => ?_
    exact G.pure ⟨.cons hy hys, rfl, fun h => nomatch h⟩
  case lambda xs =>
    refine G.bind (params xs fun x hx => hx) fun ys hys => ?_
    refine G.pure ⟨hys, rfl, fun h => ?_⟩
    obtain rfl : xs = [] := h
    rw [List.forall₂_nil_left_iff.mp hys]
  case importDecl path alias? =>
    cases alias? with
    | none => exact G.pure (.refl fun _ h => nomatch h)
    | some name =>
      exact G.bind (hf _ _ List.mem_cons_self) fun y hy =>
        G.pure ⟨.cons hy .nil, rfl, fun h => nomatch h⟩
  case loopStmt target =>
    cases target with
    | none => exact G.pure (.refl fun _ h => nomatch h)
    | some name =>
      exact G.bind (hf _ _ List.mem_cons_self) fun y hy =>
        G.pure ⟨.cons hy .nil, rfl, fun h => nomatch h⟩
  all_goals exact G.pure (.refl fun _ h => nomatch h)

/-! ## Trees -/

/-- What a transformation makes of the children in a slot when it makes something related of each
of them. -/
inductive Filled {ρ : Type} (toSlot : ρ → Slot Node) (R : Node → ρ → Prop) :
    Slot Node → Slot Node → Prop where
  | absent : Filled toSlot R .absent .absent
  | one {n r} : R n r → Filled toSlot R (.one n) (toSlot r)
  | many {ns rs} : List.Forall₂ R ns rs →
    Filled toSlot R (.many ns) (.many (rs.flatMap fun r => (toSlot r).toList))

theorem Filled.rel {R : Node → Node → Prop} {s t : Slot Node} (h : Filled .one R s t) :
    s.Rel R t := by
  cases h with
  | absent => exact .absent
  | one h => exact .one h
  | many h => exact .many (by simpa [Slot.toList] using h)

/-- What holds of the children once they are transformed holds of the slots. -/
theorem transformSlotsM {δ ρ : Type} {t : Transform m δ ρ} {R : Node → ρ → Prop} {d : δ}
    {slots : List (Slot Node)}
    (h : ∀ s ∈ slots, ∀ n ∈ s.toList, G.holds (n.transformM t d) (R n)) :
    G.holds (Node.transformSlotsM t d slots) (List.Forall₂ (Filled t.toSlot R) slots) := by
  rw [Node.transformSlotsM_eq]
  refine G.mapM fun s hs => ?_
  cases s with
  | absent => exact G.pure .absent
  | one n => exact G.map (h _ hs n List.mem_cons_self) fun r hr => .one hr
  | many ns =>
    rw [Node.transformSlotM, Node.transformListM_eq, ← LawfulFunctor.comp_map]
    exact G.map (G.mapM fun n hn => h _ hs n hn) fun rs hrs => .many hrs

/-- From what holds when a node is entered and when it is left follows what holds of the
transformed tree. -/
theorem transformM {δ ρ : Type} {t : Transform m δ ρ} {R : δ → Node → ρ → Prop}
    {E : δ → Node → δ → Prop}
    (enter : ∀ d n, G.holds (t.enter d n) fun
      | .done r => R d n r
      | .inside d' => E d n d')
    (leave : ∀ d span head slots d' slots', E d (.mk span head slots) d' →
      List.Forall₂ (Filled t.toSlot (R d')) slots slots' →
      G.holds (t.leave d (.mk span head slots')) (R d (.mk span head slots)))
    (n : Node) : ∀ d, G.holds (n.transformM t d) (R d n) := by
  induction n using Node.induction_on with
  | step span head slots ih =>
    intro d
    rw [Node.transformM]
    refine G.bind (enter d _) fun step hstep => ?_
    cases step with
    | done r => exact G.pure hstep
    | inside d' =>
      exact G.bind (G.transformSlotsM fun s hs n hn => ih s hs n hn d') fun slots' h =>
        leave d span head slots d' slots' hstep h

end Guarantee

end GlyphScript
