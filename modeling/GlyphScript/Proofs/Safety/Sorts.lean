import GlyphScript.Proofs.Assurance
import GlyphScript.Proofs.Printing.WellFormed

/-!
# Sorts of nodes

A tree is sorted if every slot holds as many children as the head of its node
says, and only children of the category that is asked for there. A sorted tree
stays so when what stands in it gives way to something that may stand there,
where a statement may give way to any number of statements.
-/

namespace GlyphScript

theorem forall₂_comp_of_mem {α β γ : Type} {R : α → β → Prop} {S : β → γ → Prop} {T : α → γ → Prop}
    {as : List α} {bs : List β} {cs : List γ} (h : List.Forall₂ R as bs) (h' : List.Forall₂ S bs cs)
    (hT : ∀ a ∈ as, ∀ b c, R a b → S b c → T a c) : List.Forall₂ T as cs := by
  induction h generalizing cs with
  | nil =>
    cases h'
    exact .nil
  | cons r _ ih =>
    cases h' with
    | cons r' h' =>
      exact .cons (hT _ List.mem_cons_self _ _ r r')
        (ih h' fun a ha => hT a (List.mem_cons_of_mem _ ha))

/-! ## Categories -/

namespace Category

/-- An expression may stand wherever another one may that is no quote. -/
theorem admits_expression {c : Category} {h h' : Head} (hc : c.admits h = true)
    (is : Category.expression.admits h = true) (plain : h ≠ .quote)
    (is' : Category.expression.admits h' = true) : c.admits h' = true := by
  have is : h.category? = some .expression := of_decide_eq_true is
  have is' : h'.category? = some .expression := of_decide_eq_true is'
  cases c with
  | template => exact absurd (of_decide_eq_true hc) plain
  | quoted => simp [admits, is']
  | alternative =>
    have no : h ≠ .ifStmt := by
      rintro rfl
      cases is
    simp [admits, is, no] at hc
  | expression => simp [admits, is']
  | _ => simp [admits, is] at hc

end Category

namespace Head

/-- The slots of a node, in order. A loop with a target goes over something. -/
def sorts : Head → List (Arity × Category)
  | .loopStmt (some _) => [(.one, .expression), (.one, .block)]
  | head => head.fields

def isProgram : Head → Bool
  | .program _ => true
  | _ => false

/-- A node with the second head may stand wherever one with the first may. -/
structure StandsFor (h' h : Head) : Prop where
  admits : ∀ c : Category, c.admits h = true → c.admits h' = true
  program : h.isProgram = true → h'.isProgram = true

theorem StandsFor.refl (h : Head) : h.StandsFor h := ⟨fun _ => id, id⟩

theorem StandsFor.expression {h h' : Head} (is : Category.expression.admits h = true)
    (plain : h ≠ .quote) (is' : Category.expression.admits h' = true) : h'.StandsFor h where
  admits _ hc := Category.admits_expression hc is plain is'
  program hp := by
    cases h
    case program => cases is
    all_goals cases hp

/-- The heads have the same kinds of slots, and nodes with them may stand in the same places. -/
structure SameSort (h h' : Head) : Prop where
  sorts : h'.sorts = h.sorts
  stands : h'.StandsFor h

theorem SameSort.refl (h : Head) : h.SameSort h := ⟨rfl, .refl h⟩

/-- Statements stand in lists only. -/
theorem arity_of_statement {h : Head} {f : Arity × Category} (hf : f ∈ h.sorts)
    (admits : f.2.admits .expressionStmt = true) : f.1 = .many := by
  obtain ⟨a, c⟩ := f
  have statement : c = .statement := by cases c <;> first | rfl | cases admits
  subst statement
  cases h
  case macroRule isTransform => cases isTransform <;> simp [sorts, fields] at hf
  case loopStmt target => cases target <;> simp [sorts, fields] at hf
  all_goals simp [sorts, fields] at hf
  all_goals exact hf

end Head

/-- Names that a node binds do not change its sort. -/
theorem Guarantee.mapBindersM_sameSort {m : Type → Type} [Monad m] [LawfulMonad m]
    (G : Guarantee m) {f : Head.BinderPosition → String → m String}
    (hf : ∀ p x, G.holds (f p x) fun _ => True) (h : Head) :
    G.holds (h.mapBindersM f) h.SameSort := by
  have params (xs : List String) : G.holds (xs.mapM (f .params)) fun _ => True :=
    G.mono (G.mapM fun x _ => hf .params x) fun _ _ => trivial
  cases h
  case assignment | classDef | tensorDecl | neuralNet | comprehensionClause | bindPattern =>
    exact G.bind (hf _ _) fun y _ => G.pure ⟨rfl, fun c => by cases c <;> exact id, id⟩
  case functionDef | asyncFunctionDef =>
    exact G.bind (hf _ _) fun y _ => G.bind (params _) fun ys _ =>
      G.pure ⟨rfl, fun c => by cases c <;> exact id, id⟩
  case lambda => exact G.bind (params _) fun ys _ => G.pure ⟨rfl, fun c => by cases c <;> exact id, id⟩
  case importDecl path alias? =>
    cases alias? with
    | none => exact G.pure (.refl _)
    | some x => exact G.bind (hf _ _) fun y _ => G.pure ⟨rfl, fun c => by cases c <;> exact id, id⟩
  case loopStmt target =>
    cases target with
    | none => exact G.pure (.refl _)
    | some x => exact G.bind (hf _ _) fun y _ => G.pure ⟨rfl, fun c => by cases c <;> exact id, id⟩
  all_goals exact G.pure (.refl _)

/-! ## Sorted trees -/

namespace Node

/-- The slots are as the head says, and so are the kinds of the children. -/
def SortedAt (n : Node) : Prop :=
  List.Forall₂ (fun f s => f.1.Fits s ∧ ∀ m ∈ s.toList, f.2.admits m.head = true)
    n.head.sorts n.slots

instance (n : Node) : Decidable n.SortedAt := inferInstanceAs (Decidable (List.Forall₂ _ _ _))

def Sorted (n : Node) : Prop := ∀ m ∈ n.walk, m.SortedAt

instance (n : Node) : Decidable n.Sorted := inferInstanceAs (Decidable (∀ m ∈ n.walk, m.SortedAt))

/-- The tree is sorted and may stand where the category is asked for. -/
structure OfSort (c : Category) (n : Node) : Prop where
  sorted : n.Sorted
  admitted : c.admits n.head = true

end Node

/-- What may fill the slot of a sorted node. -/
structure Slot.OfField (f : Arity × Category) (s : Slot Node) : Prop where
  fits : f.1.Fits s
  children : ∀ n ∈ s.toList, n.OfSort f.2

namespace Slot.OfField

variable {c : Category} {s : Slot Node}

theorem one (h : s.OfField (.one, c)) : ∃ n, s = .one n ∧ n.OfSort c := by
  obtain ⟨⟨⟩, children⟩ := h
  exact ⟨_, rfl, children _ List.mem_cons_self⟩

theorem many (h : s.OfField (.many, c)) : ∃ ns, s = .many ns ∧ ∀ n ∈ ns, n.OfSort c := by
  obtain ⟨⟨⟩, children⟩ := h
  exact ⟨_, rfl, children⟩

theorem of_one {n : Node} (h : n.OfSort c) : (Slot.one n).OfField (.one, c) :=
  ⟨.one, fun _ hm => List.mem_singleton.mp hm ▸ h⟩

theorem of_many {ns : List Node} (h : ∀ n ∈ ns, n.OfSort c) : (Slot.many ns).OfField (.many, c) :=
  ⟨.many, h⟩

end Slot.OfField

namespace Node

theorem Sorted.of_mem_walk {n m : Node} (h : n.Sorted) (hm : m ∈ n.walk) : m.Sorted :=
  fun k hk => h k (mem_walk_trans hm hk)

theorem sorted_mk {span : Span} {head : Head} {slots : List (Slot Node)} :
    (mk span head slots).Sorted ↔ List.Forall₂ (fun f s => Slot.OfField f s) head.sorts slots := by
  constructor
  · intro h
    have own : List.Forall₂ _ head.sorts slots := h _ (mem_walk_self _)
    refine (forall₂_imp_of_mem own.flip fun s hs f hf => ⟨hf.1, fun n hn => ⟨?_, hf.2 n hn⟩⟩).flip
    exact h.of_mem_walk (mem_walk_child (n := mk span head slots) hs hn)
  · intro h m hm
    rcases mem_walk_mk.mp hm with rfl | ⟨s, hs, n, hn, hm⟩
    · exact h.imp fun f s hf => ⟨hf.fits, fun n hn => (hf.children n hn).admitted⟩
    · obtain ⟨f, -, hf⟩ := exists_of_mem_right h hs
      exact (hf.children n hn).sorted m hm

theorem Sorted.slots {n : Node} (h : n.Sorted) :
    List.Forall₂ (fun f s => Slot.OfField f s) n.head.sorts n.slots := by
  cases n
  exact sorted_mk.mp h

theorem Sorted.child {n m : Node} {s : Slot Node} (h : n.Sorted) (hs : s ∈ n.slots)
    (hm : m ∈ s.toList) : ∃ f ∈ n.head.sorts, m.OfSort f.2 := by
  obtain ⟨f, hf, field⟩ := exists_of_mem_right h.slots hs
  exact ⟨f, hf, field.children m hm⟩

theorem Sorted.expression {n : Node} (h : n.Sorted) (head : n.head = .expressionStmt) :
    ∃ e, n.slots = [.one e] ∧ e.OfSort .expression := by
  have slots := h.slots
  rw [head] at slots
  generalize n.slots = slots' at slots ⊢
  obtain _ | ⟨field, ⟨⟩⟩ := slots
  obtain ⟨e, rfl, he⟩ := field.one
  exact ⟨e, rfl, he⟩

theorem ofSort_expressionStmt (span : Span) {e : Node} (h : e.OfSort .expression) :
    (expressionStmt span e).OfSort .statement :=
  ⟨sorted_mk.mpr (.cons (.of_one h) .nil), rfl⟩

/-! ## Giving way -/

/-- What may stand in the place of a node of a sorted tree. -/
inductive GivesWay (n : Node) : Slot Node → Prop where
  | one {m} : m.Sorted → m.head.StandsFor n.head → GivesWay n (.one m)
  | statements {ms} : n.head = .expressionStmt → (∀ m ∈ ms, m.OfSort .statement) →
    GivesWay n (.many ms)

theorem GivesWay.self {n : Node} (h : n.Sorted) : n.GivesWay (.one n) := .one h (.refl _)

/-- An expression gives way to any other. -/
theorem GivesWay.expression {n m : Node} (hn : Category.expression.admits n.head = true)
    (plain : n.head ≠ .quote) (hm : m.OfSort .expression) : n.GivesWay (.one m) :=
  .one hm.sorted (.expression hn plain hm.admitted)

theorem GivesWay.ofSort {n : Node} {s : Slot Node} {c : Category} (h : n.GivesWay s)
    (hc : c.admits n.head = true) : ∀ m ∈ s.toList, m.OfSort c := by
  intro m hm
  cases h with
  | one sorted stands =>
    rw [List.mem_singleton.mp hm]
    exact ⟨sorted, stands.admits c hc⟩
  | statements head below =>
    have statement : c = .statement := by
      rw [head] at hc
      cases c <;> first | rfl | cases hc
    exact statement ▸ below m hm

end Node

variable {ρ : Type} {toSlot : ρ → Slot Node} {slots slots' : List (Slot Node)}

/-- What fills a slot still does when its children have given way. -/
theorem Slot.OfField.filled {h : Head} {f : Arity × Category} {s s' : Slot Node} (hs : s.OfField f)
    (hf : f ∈ h.sorts)
    (rel : Guarantee.Filled toSlot (fun n r => n.Sorted → n.GivesWay (toSlot r)) s s') :
    s'.OfField f := by
  have way {n : Node} {r : ρ} (hn : n ∈ s.toList) (gives : n.Sorted → n.GivesWay (toSlot r)) :
      n.GivesWay (toSlot r) := gives (hs.children n hn).sorted
  obtain ⟨arity, category⟩ := f
  obtain ⟨fits, children⟩ := hs
  cases rel with
  | absent => exact ⟨fits, List.forall_mem_nil _⟩
  | @one n r gives =>
    have hn : n ∈ (Slot.one n).toList := List.mem_cons_self
    have given := way hn gives
    refine ⟨?_, given.ofSort (children n hn).admitted⟩
    generalize toSlot r = t at given
    cases given with
    | one => cases fits <;> constructor
    | statements head =>
      obtain rfl : arity = .many := Head.arity_of_statement hf (head ▸ (children n hn).admitted)
      cases fits
  | @many ns rs rel =>
    cases fits
    refine ⟨.many, fun m hm => ?_⟩
    obtain ⟨r, hr, hm⟩ := List.mem_flatMap.mp hm
    obtain ⟨n, hn, gives⟩ := exists_of_mem_right rel hr
    exact (way hn gives).ofSort (children n hn).admitted m hm

/-- A node whose children have given way is as sorted as before, whatever its names are now. -/
theorem Node.Sorted.filled {span span' : Span} {head head' : Head}
    (h : (Node.mk span head slots).Sorted) (same : head'.sorts = head.sorts)
    (rel : List.Forall₂
      (Guarantee.Filled toSlot fun n r => n.Sorted → n.GivesWay (toSlot r)) slots slots') :
    (Node.mk span' head' slots').Sorted := by
  rw [Node.sorted_mk] at h ⊢
  rw [same]
  exact forall₂_comp_of_mem h rel fun f hf s s' hs r => hs.filled hf r

end GlyphScript
