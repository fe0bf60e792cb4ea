import GlyphScript.Proofs.Layout.Trees
import GlyphScript.Proofs.Macro.Variants
import GlyphScript.Proofs.Safety.Expansion

/-!
# Trees that mark calls differently

What a call of a macro is read as depends on whether the macro has been defined
before it. Twins are trees that differ in nothing but their places and in which
calls of certain names are marked as calls of macros. Whatever tells no marked
call from a plain one comes to the same for both.
-/

namespace GlyphScript

theorem forall₂_and_mem {α β : Type} {R : α → β → Prop} {as : List α} {bs : List β}
    (h : List.Forall₂ R as bs) : List.Forall₂ (fun a b => a ∈ as ∧ b ∈ bs ∧ R a b) as bs := by
  have left := forall₂_imp_of_mem h fun a ha b r => And.intro ha r
  have both := forall₂_imp_of_mem left.flip fun b hb a r => And.intro hb r
  exact both.flip.imp fun a b r => ⟨r.2.1, r.1, r.2.2⟩

theorem Slot.Rel.and_mem {α β : Type} {R : α → β → Prop} {s : Slot α} {t : Slot β}
    (h : s.Rel R t) : s.Rel (fun a b => a ∈ s.toList ∧ b ∈ t.toList ∧ R a b) t := by
  cases h with
  | absent => exact .absent
  | one r => exact .one ⟨List.mem_cons_self, List.mem_cons_self, r⟩
  | many r => exact .many (forall₂_and_mem r)

theorem map_eq_map {α β γ : Type} {f : α → γ} {g : β → γ} {as : List α} {bs : List β}
    (h : List.Forall₂ (fun a b => f a = g b) as bs) : as.map f = bs.map g := by
  induction h with
  | nil => rfl
  | cons same _ ih => rw [List.map_cons, List.map_cons, same, ih]

theorem Slot.Rel.map_eq_map {α β γ : Type} {f : α → γ} {g : β → γ} {s : Slot α} {t : Slot β}
    (h : s.Rel (fun a b => f a = g b) t) : s.map f = t.map g := by
  cases h with
  | absent => rfl
  | one same => exact congrArg Slot.one same
  | many same => exact congrArg Slot.many (GlyphScript.map_eq_map same)

namespace Head

/-- Calls, marked as calls of macros or not. -/
def isCall : Head → Bool
  | .call | .macroCall .. => true
  | _ => false

end Head

namespace Node

/-- The same tree, wherever its nodes stand and whichever calls of names in `K` are marked. All
other nodes have heads in `H`. -/
inductive Twin (K : String → Prop) (H : Head → Prop) : Node → Node → Prop where
  | same {span span' head slots slots'} : H head → List.Forall₂ (Slot.Rel (Twin K H)) slots slots' →
    Twin K H (.mk span head slots) (.mk span' head slots')
  | marked {span span' place x args args'} : K x → Slot.Rel (Twin K H) args args' →
    Twin K H (.mk span (.macroCall x false) [args])
      (.mk span' .call [.one (.mk place (.identifier x) []), args'])
  | unmarked {span span' place x args args'} : K x → Slot.Rel (Twin K H) args args' →
    Twin K H (.mk span .call [.one (.mk place (.identifier x) []), args])
      (.mk span' (.macroCall x false) [args'])

variable {K K' : String → Prop} {H H' : Head → Prop} {n n' : Node}

namespace Twin

/-- Twins stay twins if more is allowed at the nodes of the first. -/
theorem imp (n : Node) : (∀ x, K x → K' x) → (∀ m ∈ n.walk, H m.head → H' m.head) →
    ∀ {n'}, Twin K H n n' → Twin K' H' n n' := by
  intro hK
  induction n using Node.induction_on with
  | step span head slots ih =>
    intro hH n' h
    have below {s : Slot Node} (hs : s ∈ slots) {s' : Slot Node} (r : s.Rel (Twin K H) s') :
        s.Rel (Twin K' H') s' :=
      r.imp_of_mem fun n hn n' h => ih s hs n hn
        (fun m hm => hH m (mem_walk_mk.mpr (.inr ⟨s, hs, n, hn, hm⟩))) h
    cases h with
    | same here rel =>
      exact .same (hH _ (mem_walk_self _) here) (forall₂_imp_of_mem rel fun s hs s' r => below hs r)
    | marked hx r => exact .marked (hK _ hx) (below List.mem_cons_self r)
    | unmarked hx r =>
      exact .unmarked (hK _ hx) (below (List.mem_cons_of_mem _ List.mem_cons_self) r)

theorem mono (h : Twin K H n n') (hK : ∀ x, K x → K' x) (hH : ∀ k, H k → H' k) : Twin K' H' n n' :=
  imp n hK (fun _ _ => hH _) h

theorem symm (n : Node) : ∀ {n'}, Twin K H n n' → Twin K H n' n := by
  induction n using Node.induction_on with
  | step span head slots ih =>
    intro n' h
    have below {s : Slot Node} (hs : s ∈ slots) {s' : Slot Node} (r : s.Rel (Twin K H) s') :
        s'.Rel (Twin K H) s := by
      cases r with
      | absent => exact .absent
      | one h => exact .one (ih _ hs _ List.mem_cons_self h)
      | many h => exact .many (forall₂_imp_of_mem h fun n hn n' h => ih _ hs n hn h).flip
    cases h with
    | same here rel =>
      exact .same here (forall₂_imp_of_mem rel fun s hs s' r => below hs r).flip
    | marked hx r => exact .unmarked hx (below List.mem_cons_self r)
    | unmarked hx r => exact .marked hx (below (List.mem_cons_of_mem _ List.mem_cons_self) r)

/-- Where no call is marked in only one of them, twins are alike. -/
theorem alike (n : Node) : ∀ {n'}, (∀ m ∈ n.walk, ∀ x, m.head = .macroCall x false → ¬ K x) →
    (∀ m ∈ n'.walk, ∀ x, m.head = .macroCall x false → ¬ K x) → Twin K H n n' → n.Alike n' := by
  induction n using Node.induction_on with
  | step span head slots ih =>
    intro n' left right h
    cases h with
    | same _ rel =>
      rename_i slots'
      refine .mk ((forall₂_and_mem rel).imp fun s s' ⟨hs, hs', r⟩ => ?_)
      refine r.and_mem.imp fun n n' ⟨hn, hn', h⟩ => ?_
      exact ih s hs n hn (fun m hm => left m (mem_walk_mk.mpr (.inr ⟨s, hs, n, hn, hm⟩)))
        (fun m hm => right m (mem_walk_mk.mpr (.inr ⟨s', hs', n', hn', hm⟩))) h
    | marked hx => exact absurd hx (left _ (mem_walk_self _) _ rfl)
    | unmarked hx => exact absurd hx (right _ (mem_walk_self _) _ rfl)

/-- Twins stay twins elsewhere. -/
theorem of_alike (n : Node) : ∀ {m n'}, m.Alike n → Twin K H n n' → Twin K H m n' := by
  induction n using Node.induction_on with
  | step span head slots ih =>
    intro m n' alike h
    obtain ⟨span', head', slots'⟩ := m
    obtain rfl : head' = head := alike.head
    have rel : List.Forall₂ (Slot.Rel Alike) slots' slots := alike.slots
    have below {s t u : Slot Node} (ht : t ∈ slots) (r : s.Rel Alike t) (r' : t.Rel (Twin K H) u) :
        s.Rel (Twin K H) u := by
      cases r with
      | absent => exact r'
      | one r =>
        obtain ⟨c, twin, rfl⟩ := Slot.rel_one_left.mp r'
        exact .one (ih _ ht _ List.mem_cons_self r twin)
      | many r =>
        obtain ⟨cs, twins, rfl⟩ := Slot.rel_many_left.mp r'
        exact .many (forall₂_of_common r.flip twins fun c hc _ _ r twin => ih _ ht c hc r twin)
    cases h with
    | same here twins =>
      exact .same here (forall₂_of_common rel.flip twins fun t ht _ _ r r' => below ht r r')
    | marked hx r' =>
      obtain _ | ⟨r, ⟨⟩⟩ := rel
      exact .marked hx (below List.mem_cons_self r r')
    | unmarked hx r' =>
      obtain _ | ⟨callee, _ | ⟨r, ⟨⟩⟩⟩ := rel
      cases callee with
      | @one c _ name =>
        obtain ⟨place, kind, parts⟩ := c
        obtain rfl : kind = .identifier _ := name.head
        obtain rfl : parts = [] := List.forall₂_nil_right_iff.mp name.slots
        exact .unmarked hx (below (List.mem_cons_of_mem _ List.mem_cons_self) r r')

/-! ## What is read off twins -/

/-- Twins that are no calls have one head and twins in their slots. -/
theorem parts (h : Twin K H n n') (plain : n.head.isCall = false ∨ n'.head.isCall = false) :
    n.head = n'.head ∧ H n.head ∧ List.Forall₂ (Slot.Rel (Twin K H)) n.slots n'.slots := by
  cases h with
  | same here rel => exact ⟨rfl, here, rel⟩
  | marked => rcases plain with plain | plain <;> cases plain
  | unmarked => rcases plain with plain | plain <;> cases plain

theorem head_iff (h : Twin K H n n') {k : Head} (hk : k.isCall = false) :
    n.head = k ↔ n'.head = k := by
  constructor
  · rintro rfl
    exact (h.parts (.inl hk)).1.symm
  · rintro rfl
    exact (h.parts (.inr hk)).1

theorem isCall (h : Twin K H n n') : n.head.isCall = n'.head.isCall := by
  cases h <;> rfl

/-- What is computed from a marked call as from a plain one is the same for twins. -/
theorem fold {α : Type} {f : Span → Head → List (Slot α) → α} (placeless : ∀ span, f span = f default)
    (call : ∀ x args, f default (.macroCall x false) [args] =
      f default .call [.one (f default (.identifier x) []), args]) (n : Node) :
    ∀ {n'}, Twin K H n n' → n.fold f = n'.fold f := by
  induction n using Node.induction_on with
  | step span head slots ih =>
    intro n' h
    have below {s : Slot Node} (hs : s ∈ slots) {s' : Slot Node} (r : s.Rel (Twin K H) s') :
        s.map (Node.fold f) = s'.map (Node.fold f) :=
      Slot.Rel.map_eq_map (r.imp_of_mem fun n hn n' h => ih s hs n hn h)
    cases h with
    | @same _ span' _ _ slots' _ rel =>
      rw [fold_mk, fold_mk, placeless span, placeless span']
      exact congrArg _ (map_eq_map (forall₂_imp_of_mem rel fun s hs s' r => below hs r))
    | @marked _ span' place x _ args' _ r =>
      rw [fold_mk, fold_mk, placeless span, placeless span', List.map_singleton,
        below List.mem_cons_self r, call]
      show _ = f default .call [.one (Node.fold f (.mk place (.identifier x) [])), _]
      rw [fold_mk, placeless place]
      rfl
    | @unmarked _ span' place x _ args' _ r =>
      rw [fold_mk, fold_mk, placeless span, placeless span', List.map_singleton,
        ← below (List.mem_cons_of_mem _ List.mem_cons_self) r, call]
      show f default .call [.one (Node.fold f (.mk place (.identifier x) [])), _] = _
      rw [fold_mk, placeless place]
      rfl

theorem binderNames (h : Twin K H n n') : n.binderNames = n'.binderNames := by
  have bound : n.boundInside = n'.boundInside := fold (fun _ => rfl) (fun _ _ => rfl) n h
  rw [Node.binderNames, Node.binderNames, bound]

theorem expressionStmt {span : Span} {e : Node} (h : Twin K H (Node.expressionStmt span e) n') :
    ∃ span' e', n' = Node.expressionStmt span' e' ∧ Twin K H e e' := by
  obtain ⟨span', head', slots'⟩ := n'
  obtain ⟨same, -, rel⟩ := h.parts (.inl rfl)
  obtain rfl : .expressionStmt = head' := same
  obtain ⟨s', slots', r, rest, rfl⟩ := List.forall₂_cons_left_iff.mp rel
  obtain rfl := List.forall₂_nil_left_iff.mp rest
  obtain ⟨e', he, rfl⟩ := Slot.rel_one_left.mp r
  exact ⟨span', e', rfl, he⟩

theorem statements (h : Twin K H n n') (plain : n.head.isCall = false) :
    List.Forall₂ (Twin K H) n.statements n'.statements := by
  obtain ⟨span, head, slots⟩ := n
  obtain ⟨span', head', slots'⟩ := n'
  obtain ⟨-, -, rel⟩ := h.parts (.inl plain)
  have rel : List.Forall₂ (Slot.Rel (Twin K H)) slots slots' := rel
  unfold Node.statements
  rcases rel with _ | ⟨⟨⟩ | ⟨⟩ | ⟨ns⟩, _ | ⟨_, _⟩⟩
  case cons.many.nil => exact ns
  all_goals exact .nil

theorem ofMany {head : Head} (hh : head.isCall = false) {span : Span} {es : List Node}
    (h : Twin K H (.mk span head [.many es]) n') :
    ∃ span' es', n' = .mk span' head [.many es'] ∧ List.Forall₂ (Twin K H) es es' := by
  obtain ⟨span', head', slots'⟩ := n'
  obtain ⟨same, -, rel⟩ := h.parts (.inl hh)
  obtain rfl : head = head' := same
  obtain ⟨s', slots', r, rest, rfl⟩ := List.forall₂_cons_left_iff.mp rel
  obtain rfl := List.forall₂_nil_left_iff.mp rest
  obtain ⟨es', elements, rfl⟩ := Slot.rel_many_left.mp r
  exact ⟨span', es', rfl, elements⟩

end Twin

/-! ## Matching -/

/-- The elements of expressions that are twins are twins. -/
theorem elementsFor_twin {n n' : Node} {es : List Node} {pattern : Head} (h : Twin K H n n')
    (hn : n.OfSort .expression) (found : elementsFor pattern n = some es) :
    ∃ es', elementsFor pattern n' = some es' ∧ List.Forall₂ (Twin K H) es es' := by
  obtain ⟨span, head, slots⟩ := n
  unfold elementsFor at found
  dsimp only [Node.head, Node.slots] at found
  split at found
  case h_1 | h_2 =>
    cases found
    obtain ⟨span', es', rfl, elements⟩ := h.ofMany rfl
    exact ⟨es', rfl, elements⟩
  case h_3 | h_4 | h_5 => cases hn.admitted
  case h_6 => cases found

theorem elementsFor_rel_twin {n n' : Node} (pattern : Head) (h : Twin K H n n')
    (hn : n.OfSort .expression) :
    Option.Rel (List.Forall₂ (Twin K H)) (elementsFor pattern n) (elementsFor pattern n') := by
  cases found : elementsFor pattern n with
  | some es =>
    obtain ⟨es', found', elements⟩ := elementsFor_twin h hn found
    rw [found']
    exact .some elements
  | none =>
    cases found' : elementsFor pattern n' with
    | none => exact .none
    | some es' =>
      obtain ⟨span', head', slots'⟩ := n'
      have h' := Twin.symm n h
      unfold elementsFor at found'
      dsimp only [Node.head, Node.slots] at found'
      split at found'
      case h_1 | h_2 =>
        obtain ⟨span, es, rfl, -⟩ := h'.ofMany rfl
        cases found
      case h_3 | h_4 | h_5 =>
        have same := (h'.parts (.inl rfl)).1
        have admitted := hn.admitted
        rw [← same] at admitted
        cases admitted
      case h_6 => cases found'

theorem OfSort.unwrap_twin {n n' : Node} (h : Twin K H n n') (hn : n.OfSort .expression) :
    n'.unwrap = n' := by
  have expression : n'.head ≠ .expressionStmt := by
    intro is
    have admitted := hn.admitted
    rw [(h.head_iff rfl).mpr is] at admitted
    cases admitted
  unfold Node.unwrap
  split
  · exact absurd rfl expression
  · rfl

/-- Patterns see the same of expressions that are twins. -/
theorem matchable_twin (K : String → Prop) (H : Head → Prop) :
    Matchable fun n n' => n.OfSort .expression ∧ n.Twin K H n' := by
  refine ⟨fun n n' h => ?_, fun n n' h value kind => h.2.head_iff rfl, fun pattern n n' h => ?_⟩
  · rw [h.1.unwrap, h.1.unwrap_twin h.2]
    exact h
  · have sorts : ∀ es, elementsFor pattern n = some es → ∀ e ∈ es, e.OfSort .expression :=
      fun es => h.1.elementsFor
    have both := elementsFor_rel_twin pattern h.2 h.1
    generalize elementsFor pattern n = o, elementsFor pattern n' = o' at sorts both
    cases both with
    | none => exact .none
    | some elements =>
      exact .some (forall₂_imp_of_mem elements fun e he e' h' => ⟨sorts _ rfl e he, h'⟩)

end Node

/-! ## Transforming -/

namespace Correspondence

variable {m : Type → Type} [Monad m] [LawfulMonad m] (C : Correspondence m) {δ ρ ρ' : Type}
  {K K' : String → Prop} {H H' : Head → Prop} {R : ρ → ρ' → Prop} {t : Transform m δ ρ}
  {t' : Transform m δ ρ'}

/-- Transformations correspond on twins with a property that is handed down to the children, if
they do at nodes of one kind and at calls that only one of the two marks. -/
theorem transformM_twin {P : Node → Prop}
    (inherited : ∀ n, P n → ∀ s ∈ n.slots, ∀ m ∈ s.toList, P m)
    (enter : ∀ d span span' head slots slots', H head → P (.mk span head slots) →
      List.Forall₂ (Slot.Rel (Node.Twin K H)) slots slots' →
        C.rel (Step.Corresponds R) (t.enter d (.mk span head slots))
          (t'.enter d (.mk span' head slots')))
    (leave : ∀ d span span' head slots slots', H head →
      List.Forall₂ (Slot.Rel (Node.Twin K' H')) slots slots' →
        C.rel R (t.leave d (.mk span head slots)) (t'.leave d (.mk span' head slots')))
    (toSlot : ∀ r r', R r r' → Slot.Rel (Node.Twin K' H') (t.toSlot r) (t'.toSlot r'))
    (marked : ∀ d span span' place x args args', K x → P (.mk span (.macroCall x false) [args]) →
      Slot.Rel (Node.Twin K H) args args' →
        (∀ d, C.rel (Slot.Rel (Node.Twin K' H')) (Node.transformSlotM t d args)
          (Node.transformSlotM t' d args')) →
        C.rel R ((Node.mk span (.macroCall x false) [args]).transformM t d)
          ((Node.mk span' .call [.one (.mk place (.identifier x) []), args']).transformM t' d))
    (unmarked : ∀ d span span' place x args args', K x →
      P (.mk span .call [.one (.mk place (.identifier x) []), args]) →
      Slot.Rel (Node.Twin K H) args args' →
        (∀ d, C.rel (Slot.Rel (Node.Twin K' H')) (Node.transformSlotM t d args)
          (Node.transformSlotM t' d args')) →
        C.rel R ((Node.mk span .call [.one (.mk place (.identifier x) []), args]).transformM t d)
          ((Node.mk span' (.macroCall x false) [args']).transformM t' d)) (n : Node) :
    ∀ d n', P n → n.Twin K H n' → C.rel R (n.transformM t d) (n'.transformM t' d) := by
  induction n using Node.induction_on with
  | step span head slots ih =>
    intro d n' hP h
    have slot {s s' : Slot Node} (hs : s ∈ slots) (r : s.Rel (Node.Twin K H) s') (d : δ) :
        C.rel (Slot.Rel (Node.Twin K' H')) (Node.transformSlotM t d s)
          (Node.transformSlotM t' d s') := by
      have below : ∀ n ∈ s.toList, ∀ n', n.Twin K H n' →
          C.rel R (n.transformM t d) (n'.transformM t' d) :=
        fun n hn n' h => ih s hs n hn d n' (inherited _ hP s hs n hn) h
      cases r with
      | absent => exact C.pure .absent
      | one h => exact C.map (below _ List.mem_cons_self _ h) toSlot
      | many h =>
        rw [Node.transformSlotM, Node.transformSlotM, Node.transformListM_eq,
          Node.transformListM_eq]
        refine C.map (C.map (C.mapM h below) ?_) fun _ _ h => Slot.Rel.many h
        intro rs rs' h
        induction h with
        | nil => exact .nil
        | cons r _ ih => exact List.rel_append (toSlot _ _ r).toList ih
    cases h with
    | same here rel =>
      rw [Node.transformM, Node.transformM]
      refine C.bind (enter d _ _ _ _ _ here hP rel) fun step step' same => ?_
      cases same with
      | done hr => exact C.pure hr
      | @inside d' =>
        simp only [Node.transformSlotsM_eq]
        refine C.bind (C.mapM rel fun s hs s' r => slot hs r d') fun ss ss' hss => ?_
        exact leave d _ _ _ _ _ here hss
    | marked hx r => exact marked d _ _ _ _ _ _ hx hP r (slot List.mem_cons_self r)
    | unmarked hx r =>
      exact unmarked d _ _ _ _ _ _ hx hP r (slot (List.mem_cons_of_mem _ List.mem_cons_self) r)

end Correspondence

end GlyphScript
