import GlyphScript.Macro.Expansion
import GlyphScript.Node.SExpr
import GlyphScript.Proofs.Correspondence
import GlyphScript.Proofs.Macro.Bindings
import GlyphScript.Proofs.Parsing.Derivation

/-!
# Trees that stand elsewhere

Two trees are alike if they differ in nothing but the places of their nodes.
What is read off trees that are alike is the same, or alike again.
-/

namespace GlyphScript

namespace Node

/-- The same tree, wherever its nodes stand. -/
def Alike (n n' : Node) : Prop := n.unplaced = n'.unplaced

namespace Alike

variable {n n' : Node}

theorem refl (n : Node) : n.Alike n := Eq.refl n.unplaced

theorem lists_iff {ns ns' : List Node} :
    ns.map unplaced = ns'.map unplaced ↔ List.Forall₂ Alike ns ns' := by
  rw [← List.forall₂_eq_eq_eq, List.forall₂_map_left_iff, List.forall₂_map_right_iff]
  rfl

theorem slot_iff {s s' : Slot Node} :
    s.map unplaced = s'.map unplaced ↔ Slot.Rel Alike s s' := by
  constructor
  · intro h
    cases s <;> cases s' <;> simp only [Slot.map, reduceCtorEq, Slot.one.injEq,
      Slot.many.injEq] at h
    · exact .absent
    · exact .one h
    · exact .many (lists_iff.mp h)
  · intro h
    cases h with
    | absent => rfl
    | one h => exact congrArg Slot.one h
    | many h => exact congrArg Slot.many (lists_iff.mpr h)

theorem slots_iff {slots slots' : List (Slot Node)} :
    slots.map (Slot.map unplaced) = slots'.map (Slot.map unplaced) ↔
      List.Forall₂ (Slot.Rel Alike) slots slots' := by
  rw [← List.forall₂_eq_eq_eq, List.forall₂_map_left_iff, List.forall₂_map_right_iff]
  simp only [slot_iff]

theorem iff_parts : n.Alike n' ↔ n.head = n'.head ∧ List.Forall₂ (Slot.Rel Alike) n.slots n'.slots := by
  obtain ⟨span, head, slots⟩ := n
  obtain ⟨span', head', slots'⟩ := n'
  rw [Alike, unplaced_mk, unplaced_mk, ← slots_iff]
  simp [Node.head, Node.slots]

theorem head (h : n.Alike n') : n.head = n'.head := by
  rw [iff_parts] at h
  exact h.1

theorem slots (h : n.Alike n') : List.Forall₂ (Slot.Rel Alike) n.slots n'.slots := by
  rw [iff_parts] at h
  exact h.2

theorem mk {span span' : Span} {head : Head} {slots slots' : List (Slot Node)}
    (h : List.Forall₂ (Slot.Rel Alike) slots slots') :
    (Node.mk span head slots).Alike (.mk span' head slots') := by
  rw [iff_parts]
  exact ⟨rfl, h⟩

theorem children (h : n.Alike n') : List.Forall₂ Alike n.children n'.children := by
  have slots := h.slots
  rw [Node.children, Node.children]
  generalize n.slots = ss, n'.slots = ss' at slots ⊢
  induction slots with
  | nil => exact .nil
  | cons s _ ih =>
    rw [List.flatMap_cons, List.flatMap_cons]
    exact List.rel_append s.toList ih

theorem walk (h : n.Alike n') : List.Forall₂ Alike n.walk n'.walk := by
  rw [← lists_iff, ← walk_unplaced, ← walk_unplaced, show n.unplaced = n'.unplaced from h]

end Alike

/-! ## What is computed from the nodes alone -/

/-- What is computed without the places of nodes is the same for trees that are alike. -/
theorem fold_unplaced {α : Type} {f : Span → Head → List (Slot α) → α}
    (h : ∀ span, f span = f default) (n : Node) : n.unplaced.fold f = n.fold f := by
  induction n using induction_on with
  | step span head slots ih =>
    rw [unplaced_mk, fold_mk, fold_mk, h span, List.map_map]
    congr 1
    refine List.map_congr_left fun s hs => ?_
    rw [Function.comp_apply, Slot.map_map]
    exact Slot.map_congr fun n hn => ih s hs n hn

namespace Alike

variable {n n' : Node}

theorem fold {α : Type} {f : Span → Head → List (Slot α) → α} (h : n.Alike n')
    (hf : ∀ span, f span = f default) : n.fold f = n'.fold f := by
  rw [← fold_unplaced hf n, ← fold_unplaced hf n', show n.unplaced = n'.unplaced from h]

theorem source (h : n.Alike n') : n.source = n'.source := by
  have printed : n.printed = n'.printed := h.fold fun _ => rfl
  rw [Node.source, Node.source, words, words, printed]

/-- Trees that are alike have one listing. -/
theorem structurallyEqual (h : n.Alike n') : n.structurallyEqual n' = true := by
  have listed : n.sexpr = n'.sexpr := h.fold fun _ => rfl
  rw [Node.structurallyEqual, listed]
  exact beq_self_eq_true n'.sexpr

theorem binderNames (h : n.Alike n') : n.binderNames = n'.binderNames := by
  have bound : n.boundInside = n'.boundInside := h.fold fun _ => rfl
  rw [Node.binderNames, Node.binderNames, bound]

/-- The flaw of a pattern, if not its place. -/
theorem patternFlaw? (h : n.Alike n') :
    n.patternFlaw?.map Prod.fst = n'.patternFlaw?.map Prod.fst := by
  have flaw (seen : List String) {ns ns' : List Node} (h : List.Forall₂ Alike ns ns') :
      (firstFlaw? seen ns).map Prod.fst = (firstFlaw? seen ns').map Prod.fst := by
    induction h generalizing seen with
    | nil => rfl
    | cons first _ ih =>
      simp only [firstFlaw?, first.head]
      split
      · split
        · exact ih _
        · split
          · rfl
          · exact ih _
      · split
        · exact ih _
        · rfl
  exact flaw [] h.walk

/-! ## Matching -/

theorem symm (h : n.Alike n') : n'.Alike n := Eq.symm h

theorem expressionStmt {span : Span} {e : Node} (h : (Node.expressionStmt span e).Alike n') :
    ∃ span' e', n' = Node.expressionStmt span' e' ∧ e.Alike e' := by
  obtain ⟨span', head', slots'⟩ := n'
  obtain rfl : .expressionStmt = head' := h.head
  have rel : List.Forall₂ (Slot.Rel Alike) [.one e] slots' := h.slots
  cases rel with
  | cons s rest =>
    cases s with
    | one he =>
      cases rest
      exact ⟨span', _, rfl, he⟩

theorem unwrap (h : n.Alike n') : n.unwrap.Alike n'.unwrap := by
  fun_induction Node.unwrap n generalizing n' with
  | case1 span e ih =>
    obtain ⟨span', e', rfl, he⟩ := h.expressionStmt
    rw [Node.expressionStmt, Node.unwrap]
    exact ih he
  | case2 n other =>
    have other' : ∀ span e, n' = Node.expressionStmt span e → False := by
      rintro span e rfl
      obtain ⟨span', e', same, -⟩ := h.symm.expressionStmt
      exact other span' e' same
    rw [Node.unwrap]
    · exact h
    · exact other'

theorem statements (h : n.Alike n') : List.Forall₂ Alike n.statements n'.statements := by
  obtain ⟨span, head, slots⟩ := n
  obtain ⟨span', head', slots'⟩ := n'
  have rel : List.Forall₂ (Slot.Rel Alike) slots slots' := h.slots
  unfold Node.statements
  rcases rel with _ | ⟨⟨⟩ | ⟨⟩ | ⟨ns⟩, _ | ⟨_, _⟩⟩
  case cons.many.nil => exact ns
  all_goals exact .nil

end Alike

/-- The elements of trees that are alike are alike. -/
theorem elementsFor_alike {pattern : Head} {n n' : Node} {es : List Node} (h : n.Alike n')
    (found : elementsFor pattern n = some es) :
    ∃ es', elementsFor pattern n' = some es' ∧ List.Forall₂ Alike es es' := by
  obtain ⟨span, head, slots⟩ := n
  obtain ⟨span', head', slots'⟩ := n'
  obtain rfl : head = head' := h.head
  have rel : List.Forall₂ (Slot.Rel Alike) slots slots' := h.slots
  unfold elementsFor at found
  split at found
  case h_1 _ _ hh hs | h_2 _ _ hh hs =>
    obtain rfl : _ = _ := hh
    obtain rfl : _ = _ := hs
    cases found
    simp only [List.forall₂_cons_left_iff, List.forall₂_nil_left_iff, Slot.rel_many_left] at rel
    obtain ⟨_, _, ⟨es', elements, rfl⟩, rfl, rfl⟩ := rel
    exact ⟨es', rfl, elements⟩
  case h_3 _ _ hh hs =>
    obtain rfl : _ = _ := hh
    obtain rfl : _ = _ := hs
    cases found
    simp only [List.forall₂_cons_left_iff, List.forall₂_nil_left_iff, Slot.rel_many_left] at rel
    obtain ⟨_, _, ⟨shape', elements, rfl⟩, ⟨_, _, _, rfl, rfl⟩, rfl⟩ := rel
    exact ⟨shape', rfl, elements⟩
  case h_4 _ _ hh hs =>
    obtain rfl : _ = _ := hh
    obtain rfl : _ = _ := hs
    cases found
    simp only [List.forall₂_cons_left_iff, List.forall₂_nil_left_iff, Slot.rel_one_left] at rel
    obtain ⟨_, _, ⟨body', body, rfl⟩, rfl, rfl⟩ := rel
    exact ⟨body'.statements, rfl, body.statements⟩
  case h_5 _ _ hh hs =>
    obtain rfl : _ = _ := hh
    obtain rfl : _ = _ := hs
    cases found
    simp only [List.forall₂_cons_left_iff, List.forall₂_nil_left_iff, Slot.rel_one_left] at rel
    obtain ⟨_, _, ⟨source', source, rfl⟩, ⟨_, _, ⟨body', body, rfl⟩, rfl, rfl⟩, rfl⟩ := rel
    exact ⟨source' :: body'.statements, rfl, .cons source body.statements⟩
  · cases found

theorem elementsFor_rel {n n' : Node} (pattern : Head) (h : n.Alike n') :
    Option.Rel (List.Forall₂ Alike) (elementsFor pattern n) (elementsFor pattern n') := by
  cases found : elementsFor pattern n with
  | some es =>
    obtain ⟨es', found', elements⟩ := elementsFor_alike h found
    rw [found']
    exact .some elements
  | none =>
    cases found' : elementsFor pattern n' with
    | some es' =>
      obtain ⟨es, some, -⟩ := elementsFor_alike h.symm found'
      cases found.symm.trans some
    | none => exact .none

end Node

namespace Bindings

/-- The same names bound to trees that are related. -/
def Rel (N : Node → Node → Prop) (b b' : Bindings) : Prop :=
  List.Forall₂ (fun x x' => x.1 = x'.1 ∧ N x.2 x'.2) b b'

variable {N : Node → Node → Prop} {b b' : Bindings}

theorem Rel.names (h : Rel N b b') : b.names = b'.names := by
  unfold Bindings.names
  induction h with
  | nil => rfl
  | cons x _ ih => rw [List.map_cons, List.map_cons, x.1, ih]

theorem Rel.bind (h : Rel N b b') (name : String) {n n' : Node} (hn : N n n') :
    Rel N (b.bind name n) (b'.bind name n') := by
  induction h with
  | nil => exact .cons ⟨rfl, hn⟩ .nil
  | @cons x x' b b' hx rest ih =>
    obtain ⟨y, m⟩ := x
    obtain ⟨y', m'⟩ := x'
    obtain ⟨rfl, hm⟩ : y = y' ∧ N m m' := hx
    unfold Bindings.bind
    split
    · exact .cons ⟨rfl, hn⟩ rest
    · exact .cons ⟨rfl, hm⟩ ih

theorem Rel.extend {later later' : Bindings} (h : Rel N b b') (hl : Rel N later later') :
    Rel N (b.extend later) (b'.extend later') := by
  unfold Bindings.extend
  induction hl generalizing b b' with
  | nil => exact h
  | @cons x x' _ _ hx _ ih =>
    obtain ⟨y, m⟩ := x
    obtain ⟨y', m'⟩ := x'
    obtain ⟨rfl, hm⟩ : y = y' ∧ N m m' := hx
    exact ih (h.bind y hm)

theorem Rel.lookup (h : Rel N b b') (name : String) :
    Option.Rel N (b.lookup name) (b'.lookup name) := by
  induction h with
  | nil => exact .none
  | @cons x x' _ _ hx _ ih =>
    obtain ⟨y, m⟩ := x
    obtain ⟨y', m'⟩ := x'
    obtain ⟨rfl, hm⟩ : y = y' ∧ N m m' := hx
    rw [List.lookup_cons, List.lookup_cons]
    split
    · exact .some hm
    · exact ih

theorem Rel.zip {names : List String} {args args' : List Node} (h : List.Forall₂ N args args') :
    Rel N (names.zip args) (names.zip args') := by
  induction h generalizing names with
  | nil => cases names <;> exact .nil
  | cons a _ ih =>
    cases names with
    | nil => exact .nil
    | cons x names => exact .cons ⟨rfl, a⟩ ih

/-- The same names bound to trees that are alike. -/
def Alike (b b' : Bindings) : Prop :=
  List.Forall₂ (fun x x' => x.1 = x'.1 ∧ x.2.Alike x'.2) b b'

theorem Alike.names (h : Alike b b') : b.names = b'.names := Rel.names h

theorem Alike.extend {later later' : Bindings} (h : Alike b b') (hl : Alike later later') :
    Alike (b.extend later) (b'.extend later') := Rel.extend h hl

theorem Alike.lookup (h : Alike b b') (name : String) :
    Option.Rel Node.Alike (b.lookup name) (b'.lookup name) := Rel.lookup h name

end Bindings

namespace Node

/-- Of trees that are so related patterns see the same. -/
structure Matchable (N : Node → Node → Prop) : Prop where
  unwrap : ∀ n n', N n n' → N n.unwrap n'.unwrap
  literal : ∀ n n', N n n' → ∀ value kind,
    n.head = .literal value kind ↔ n'.head = .literal value kind
  elements : ∀ pattern n n', N n n' →
    Option.Rel (List.Forall₂ N) (elementsFor pattern n) (elementsFor pattern n')

/-- Patterns that are alike match related trees in the same way. -/
theorem Matchable.matchInto {N : Node → Node → Prop} (hN : Matchable N) (pattern : Node) :
    ∀ {pattern' n n' : Node} {b b' : Bindings}, pattern.Alike pattern' → N n n' → b.Rel N b' →
      Option.Rel (Bindings.Rel N) (pattern.matchInto n b) (pattern'.matchInto n' b') := by
  induction pattern using Node.induction_on with
  | step span head slots ih =>
    rintro ⟨span', head', slots'⟩ n n' b b' hp hn hb
    obtain rfl : head = head' := hp.head
    have rel : List.Forall₂ (Slot.Rel Alike) slots slots' := hp.slots
    have hn := hN.unwrap n n' hn
    have list {ps ps' ns ns' : List Node} (hps : ∀ p ∈ ps, ∃ s ∈ slots, p ∈ s.toList)
        (rel : List.Forall₂ Alike ps ps') (hns : List.Forall₂ N ns ns') :
        ∀ {b b' : Bindings}, b.Rel N b' →
          Option.Rel (Bindings.Rel N) (matchList ps ns b) (matchList ps' ns' b') := by
      induction rel generalizing ns ns' with
      | nil =>
        intro b b' hb
        cases hns with
        | nil => exact .some hb
        | cons _ _ => exact .none
      | @cons p p' ps ps' hp _ ihs =>
        intro b b' hb
        cases hns with
        | nil => exact .none
        | cons hn hns =>
          obtain ⟨s, hs, mem⟩ := hps p List.mem_cons_self
          have first := ih s hs p mem hp hn hb
          rw [matchList, matchList]
          revert first
          rcases p.matchInto _ b with _ | c <;> rcases p'.matchInto _ b' with _ | c' <;> rintro ⟨⟩
          · exact .none
          · exact ihs (fun p hp => hps p (List.mem_cons_of_mem _ hp)) hns ‹_›
    have composite {es es' : List Node} (hes : List.Forall₂ N es es') :
        Option.Rel (Bindings.Rel N) (matchSlots slots es b) (matchSlots slots' es' b') := by
      rcases rel with _ | ⟨⟨⟩ | ⟨_⟩ | ⟨ps⟩, _ | ⟨_, _⟩⟩
      case cons.many.nil =>
        rw [matchSlots, matchSlots]
        exact list (fun p hp => ⟨_, List.mem_cons_self, hp⟩) ps hes hb
      all_goals exact .none
    have elements : (elementsFor head n.unwrap = none ∧ elementsFor head n'.unwrap = none) ∨
        ∃ es es', elementsFor head n.unwrap = some es ∧ elementsFor head n'.unwrap = some es' ∧
          List.Forall₂ N es es' := by
      have both := hN.elements head _ _ hn
      revert both
      rcases elementsFor head n.unwrap with _ | es <;>
        rcases elementsFor head n'.unwrap with _ | es' <;> rintro ⟨⟩
      · exact .inl ⟨rfl, rfl⟩
      · exact .inr ⟨_, _, rfl, rfl, ‹_›⟩
    unfold Node.matchInto
    dsimp only
    cases head
    case bindPattern name =>
      dsimp only
      split
      · exact .some hb
      · exact .some (hb.bind name hn)
    case literalPattern value kind =>
      dsimp only
      have literal := hN.literal _ _ hn
      by_cases is : ∃ value kind, n.unwrap.head = .literal value kind
      · obtain ⟨value', kind', is⟩ := is
        rw [is, (literal value' kind').mp is]
        dsimp only
        split
        · exact .some hb
        · exact .none
      · have is' : ¬ ∃ value kind, n'.unwrap.head = .literal value kind := by
          rintro ⟨value', kind', is'⟩
          exact is ⟨value', kind', (literal value' kind').mpr is'⟩
        split
        · exact absurd ⟨_, _, ‹_›⟩ is
        · split
          · exact absurd ⟨_, _, ‹_›⟩ is'
          · exact .none
    all_goals
      dsimp only
      rcases elements with ⟨e, e'⟩ | ⟨es, es', e, e', hes⟩ <;> rw [e, e']
      · exact .none
      · exact composite hes

theorem matchPattern_alike {pattern pattern' n n' : Node} (hp : pattern.Alike pattern')
    (hn : n.Alike n') :
    Option.Rel Bindings.Alike (pattern.matchPattern n) (pattern'.matchPattern n') := by
  have seen : Matchable Node.Alike :=
    ⟨fun _ _ h => h.unwrap, fun _ _ h _ _ => by rw [h.head], fun pattern _ _ h => elementsFor_rel pattern h⟩
  exact seen.matchInto pattern hp hn .nil

end Node

end GlyphScript
