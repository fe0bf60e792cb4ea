import GlyphScript.Proofs.Macro.Fixpoint
import GlyphScript.Proofs.Stability.Clean

/-!
# Orderly programs

In an orderly program the nodes are sorted and tidy and quotes stand in macro
definitions only. Calls in it, and so what they are replaced by, are clean: the
program stays orderly when calls are replaced, with the same definitions in it.
-/

namespace GlyphScript

namespace Head

def isMacroDef : Head → Bool
  | .macroDef .. => true
  | _ => false

/-- Below expressions and their clauses there are only such, but for quotes. -/
theorem inline_sorts {h : Head}
    (inline : h.category? = some .expression ∨ h.category? = some .clause) (plain : h ≠ .quote) :
    h.isTemplate = false ∧ ∀ f ∈ h.sorts, f.2 = .expression ∨ f.2 = .clause := by
  cases h <;> simp_all [category?, sorts, fields, isTemplate]

/-- Where statements stand no list has to hold something. -/
theorem isFilled_of_statement {h : Head} {f : Arity × Category} (hf : f ∈ h.sorts)
    (statement : f.2 = .statement) (slots : List (Slot Node)) : Node.isFilled h slots = true := by
  cases h
  case matchStmt | comprehension | tryStmt | macroDef =>
    simp [sorts, fields] at hf
    rcases hf with rfl | rfl | rfl <;> cases statement
  all_goals rfl

end Head

namespace Node

/-! ## Definitions in a program -/

/-- The macro definitions in a tree. -/
def macros (n : Node) : List Node := n.walk.filter (·.head.isMacroDef)

variable {span : Span} {head : Head} {slots slots' : List (Slot Node)}

theorem macros_mk : (mk span head slots).macros =
    (if head.isMacroDef then [mk span head slots] else []) ++
      slots.flatMap fun s => s.toList.flatMap macros := by
  have own : List.filter (·.head.isMacroDef) [mk span head slots] =
      if head.isMacroDef then [mk span head slots] else [] := by
    simp [List.filter_cons, Node.head]
  unfold macros
  rw [walk_mk, ← List.singleton_append, List.filter_append, own, List.filter_flatMap]
  simp only [List.filter_flatMap]

theorem Clean.macros {n : Node} (h : n.Clean) : n.macros = [] := by
  refine List.filter_eq_nil_iff.mpr fun m hm def' => ?_
  have plain := (h m hm).plain
  cases hm : m.head <;> simp_all [Head.isMacroDef, Head.isTemplate]

/-! ## Quotes in a program -/

/-- No quote stands outside macro definitions. -/
def Unquoted (n : Node) : Prop := ∀ m, n.Exposes m → m.head ≠ .quote

theorem unquoted_iff {n : Node} : n.Unquoted ↔
    n.head ≠ .quote ∧ (n.head.isSealed = false → ∀ c ∈ n.children, c.Unquoted) := by
  constructor
  · intro h
    exact ⟨h n .self, fun opened c hc m hm => h m (.child opened hc hm)⟩
  · rintro ⟨own, below⟩ m hm
    rcases exposes_iff.mp hm with rfl | ⟨opened, c, hc, hm⟩
    · exact own
    · exact below opened c hc m hm

theorem Clean.unquoted {n : Node} (h : n.Clean) : n.Unquoted := by
  intro m hm quote
  have plain := (h m hm.mem_walk).plain
  rw [quote] at plain
  cases plain

/-! ## Orderly trees -/

structure Orderly (n : Node) : Prop where
  sorted : n.Sorted
  tidy : n.Tidy
  unquoted : n.Unquoted

/-- What is orderly and stands in an expression is clean. -/
theorem Orderly.clean {n : Node} (h : n.Orderly)
    (inline : n.head.category? = some .expression ∨ n.head.category? = some .clause) : n.Clean := by
  induction n using induction_on with
  | step span head slots ih =>
    obtain ⟨sorted, tidy, unquoted⟩ := h
    obtain ⟨own, below⟩ := everywhere_mk.mp tidy
    obtain ⟨unquote, opened⟩ := unquoted_iff.mp unquoted
    obtain ⟨plain, fields⟩ := Head.inline_sorts inline unquote
    refine everywhere_mk.mpr ⟨⟨own, plain⟩, fun s hs m hm => ?_⟩
    have unsealed : head.isSealed = false := by
      cases head
      case macroCall name deferred =>
        cases deferred with
        | false => rfl
        | true => cases own.spelled
      case macroDef | quote => cases plain
      all_goals rfl
    obtain ⟨f, hf, sort⟩ := sorted.child hs hm
    refine ih s hs m hm ⟨sort.sorted, below s hs m hm, opened unsealed m ?_⟩ ?_
    · exact List.mem_flatMap.mpr ⟨s, hs, hm⟩
    · have admitted := sort.admitted
      rcases fields f hf with expression | clause
      · rw [expression] at admitted
        exact .inl (of_decide_eq_true admitted)
      · rw [clause] at admitted
        exact .inr (of_decide_eq_true admitted)

theorem Orderly.child {n m : Node} (h : n.Orderly) (unsealed : n.head.isSealed = false)
    (hm : m ∈ n.children) : m.Orderly where
  sorted := h.sorted.of_mem_walk (mem_walk_of_mem_children hm)
  tidy := h.tidy.child hm
  unquoted := (unquoted_iff.mp h.unquoted).2 unsealed m hm

theorem Orderly.of_clean {n : Node} (sorted : n.Sorted) (h : n.Clean) : n.Orderly :=
  ⟨sorted, h.tidy, h.unquoted⟩

/-! ## Giving way -/

/-- What may be put in the place of a node of an orderly program. -/
structure Yields (n : Node) (s : Slot Node) : Prop where
  way : n.GivesWay s
  orderly : ∀ m ∈ s.toList, m.Orderly
  macros : s.toList.flatMap macros = n.macros

theorem Yields.self {n : Node} (h : n.Orderly) : n.Yields (.one n) :=
  ⟨.self h.sorted, List.forall_mem_singleton.mpr h, List.flatMap_singleton ..⟩

/-- Without definitions one thing takes the place of another. -/
theorem Yields.of_clean {n : Node} {s : Slot Node} (way : n.GivesWay s) (none : n.macros = [])
    (sorted : ∀ m ∈ s.toList, m.Sorted) (clean : ∀ m ∈ s.toList, m.Clean) : n.Yields s where
  way := way
  orderly m hm := .of_clean (sorted m hm) (clean m hm)
  macros := by
    rw [none]
    exact List.flatMap_eq_nil_iff.mpr fun m hm => (clean m hm).macros

/-- A node that is no statement made of an expression gives way to one node. -/
theorem Yields.one {n : Node} {s : Slot Node} (h : n.Yields s) (bare : n.head ≠ .expressionStmt) :
    ∃ m, s = .one m := by
  cases h.way with
  | one => exact ⟨_, rfl⟩
  | statements head => exact absurd head bare

section

variable {ρ : Type} {toSlot : ρ → Slot Node} {R : Node → ρ → Prop} {s s' : Slot Node}

theorem filled_imp {R' : Node → ρ → Prop} (h : Guarantee.Filled toSlot R s s')
    (hR : ∀ n r, R n r → R' n r) : Guarantee.Filled toSlot R' s s' := by
  cases h with
  | absent => exact .absent
  | one h => exact .one (hR _ _ h)
  | many h => exact .many (h.imp hR)

theorem exists_of_mem_filled (h : Guarantee.Filled toSlot R s s') {m : Node} (hm : m ∈ s'.toList) :
    ∃ n ∈ s.toList, ∃ r, R n r ∧ m ∈ (toSlot r).toList := by
  cases h with
  | absent => cases hm
  | one h => exact ⟨_, List.mem_cons_self, _, h, hm⟩
  | many h =>
    obtain ⟨r, hr, hm⟩ := List.mem_flatMap.mp hm
    obtain ⟨n, hn, made⟩ := exists_of_mem_right h hr
    exact ⟨n, hn, r, made, hm⟩

end

theorem macros_filled {s s' : Slot Node} (h : Guarantee.Filled id Yields s s') :
    s'.toList.flatMap macros = s.toList.flatMap macros := by
  cases h with
  | absent => rfl
  | one h => rw [Slot.toList, List.flatMap_singleton, id_eq, h.macros]
  | many h =>
    rw [Slot.toList, Slot.toList, List.flatMap_assoc]
    exact (flatMap_eq_flatMap h fun n _ r made => made.macros.symm).symm

/-- Where no statements stand as much stands as before. -/
theorem sameFilling_of_filled {s s' : Slot Node} (h : Guarantee.Filled id Yields s s')
    (bare : ∀ n ∈ s.toList, n.head ≠ .expressionStmt) : SameFilling s s' := by
  cases h with
  | absent => rfl
  | one h =>
    obtain ⟨m, made⟩ := h.one (bare _ List.mem_cons_self)
    rw [made]
    rfl
  | many h =>
    cases h with
    | nil => rfl
    | cons h _ =>
      obtain ⟨m, made⟩ := h.one (bare _ List.mem_cons_self)
      simp [SameFilling, Slot.toList, made]

/-- A node is orderly after things have been put in the places of its children. -/
theorem Yields.node (h : (Node.mk span head slots).Orderly) (unsealed : head.isSealed = false)
    (rel : List.Forall₂ (Guarantee.Filled id Yields) slots slots') :
    (Node.mk span head slots).Yields (.one (Node.mk span head slots')) := by
  have way : (Node.mk span head slots).GivesWay (.one (Node.mk span head slots')) :=
    .node (.refl head) (rel.imp fun _ _ made => filled_imp made fun _ _ yields _ => yields.way)
      h.sorted
  have children : ∀ s' ∈ slots', ∀ m ∈ s'.toList, m.Orderly := by
    intro s' hs' m hm
    obtain ⟨s, hs, filled⟩ := exists_of_mem_right rel hs'
    obtain ⟨n, hn, r, made, hm⟩ := exists_of_mem_filled filled hm
    exact made.orderly m hm
  have filled : isFilled head slots' = true := by
    by_cases statements : ∃ f ∈ head.sorts, f.2 = .statement
    · obtain ⟨f, hf, statement⟩ := statements
      exact Head.isFilled_of_statement hf statement slots'
    · refine (isFilled_congr (forall₂_imp_of_mem rel fun s hs s' made => ?_)).trans
        h.tidy.self.filled
      refine sameFilling_of_filled made fun n hn bare => statements ?_
      obtain ⟨f, hf, sort⟩ := h.sorted.child hs hn
      refine ⟨f, hf, ?_⟩
      have admitted := sort.admitted
      rw [bare] at admitted
      generalize f.2 = c at admitted
      cases c <;> first | rfl | cases admitted
  refine ⟨way, List.forall_mem_singleton.mpr ⟨?_, ?_, ?_⟩, ?_⟩
  · cases way with
    | one sorted => exact sorted
  · have own := h.tidy.self
    exact everywhere_mk.mpr ⟨⟨own.names, own.spelled, filled⟩, fun s hs m hm =>
      (children s hs m hm).tidy⟩
  · refine unquoted_iff.mpr ⟨(unquoted_iff.mp h.unquoted).1, fun _ m hm => ?_⟩
    obtain ⟨s, hs, hm⟩ := List.mem_flatMap.mp hm
    exact (children s hs m hm).unquoted
  · have plain : head.isMacroDef = false := by cases head <;> first | rfl | cases unsealed
    rw [Slot.toList, List.flatMap_singleton, macros_mk, macros_mk, plain]
    exact congrArg _ (flatMap_eq_flatMap rel fun s _ s' made => (macros_filled made).symm).symm

end Node

end GlyphScript
