import GlyphScript.Proofs.Fidelity.Calls
import GlyphScript.Proofs.Layout.Trees
import GlyphScript.Proofs.Macro.Matching
import GlyphScript.Proofs.Pattern
import GlyphScript.Proofs.Stability.Orderly

/-!
# Orderly programs can be printed

An orderly program in which nothing is left to expand is well formed if its
patterns bind no name twice and the macro definitions in it are those of a
well-formed program.
-/

namespace GlyphScript

/-! ## Patterns -/

namespace Head

/-- A clause starts with a pattern. -/
theorem sorts_of_isClause {h : Head} (clause : h.isClause = true) :
    ∃ c, h.sorts = [(.one, .pattern), (.one, c)] := by
  cases h
  case macroRule isTransform => cases isTransform <;> exact ⟨_, rfl⟩
  case caseClause | exceptClause => exact ⟨_, rfl⟩
  all_goals cases clause

end Head

namespace Node

/-- Patterns have no flaw if they bind no name that is bound already. -/
theorem firstFlaw?_of_nodup {seen : List String} {ns : List Node}
    (patterns : ∀ n ∈ ns, n.head.isPattern = true)
    (nodup : (seen ++ (ns.filterMap (·.head.bindName?)).filter (· ≠ wildcard)).Nodup) :
    firstFlaw? seen ns = none := by
  induction ns generalizing seen with
  | nil => rfl
  | cons n ns ih =>
    obtain ⟨pattern, patterns⟩ := List.forall_mem_cons.mp patterns
    rw [firstFlaw?]
    split
    · rename_i x hx
      split
      · rename_i wild
        exact ih patterns (by simpa [hx, Head.bindName?, wild] using nodup)
      · rename_i tame
        have next : (x :: seen ++ (ns.filterMap (·.head.bindName?)).filter (· ≠ wildcard)).Nodup :=
          List.perm_middle.nodup (by simpa [hx, Head.bindName?, tame] using nodup)
        have new : x ∉ seen := fun old =>
          (List.nodup_cons.mp next).1 (List.mem_append_left _ old)
        simp [new, ih patterns next]
    · rename_i other
      have unnamed : n.head.bindName? = none := by
        cases hn : n.head <;> first | rfl | exact absurd hn (other _)
      rw [if_pos pattern]
      exact ih patterns (by simpa [unnamed] using nodup)

theorem ValidPattern.patternFlaw? {p : Node} (h : p.ValidPattern) : p.patternFlaw? = none := by
  refine firstFlaw?_of_nodup h.pattern ?_
  rw [List.nil_append]
  exact patternVariables_eq p ▸ h.nodup

/-! ## Nodes -/

/-- What a well-formed node has besides slots of the right sorts and sound patterns. -/
theorem WellFormedAt.orderly {n : Node} (h : n.WellFormedAt) : n.SortedAt ∧ n.TidyAt := by
  obtain ⟨span, head, slots⟩ := n
  obtain ⟨fields, names, spelled, complete⟩ := h
  refine ⟨?_, names, spelled, ?_⟩
  · cases head
    case loopStmt target =>
      cases target with
      | none => exact fields
      | some x =>
        obtain _ | ⟨⟨fits, admitted⟩, rest⟩ := fields
        refine .cons ⟨?_, admitted⟩ rest
        obtain _ | ⟨-, ⟨⟩⟩ := rest
        cases fits with
        | absent => cases complete
        | present => exact .one
    all_goals exact fields
  · cases head
    case matchStmt | comprehension | tryStmt | macroDef =>
      rcases slots with _ | ⟨a, _ | ⟨b, _ | ⟨c, _ | ⟨d, slots⟩⟩⟩⟩ <;> exact complete
    all_goals rfl

/-- A node that is orderly on its own is well formed if its pattern has no flaw. -/
theorem SortedAt.wellFormedAt {n : Node} (sorted : n.SortedAt) (tidy : n.TidyAt)
    (clause : ∀ p, n.clausePattern? = some p → p.patternFlaw? = none) : n.WellFormedAt := by
  obtain ⟨span, head, slots⟩ := n
  obtain ⟨names, spelled, filled⟩ := tidy
  have flawless (c : head.isClause = true) (rest : Slot Node) (p : Node)
      (hs : slots = [.one p, rest]) :
      (Slot.one p).toList.all (·.patternFlaw?.isNone) = true := by
    simp [Slot.toList, clause p (clausePattern?_eq_some.mpr ⟨c, _, hs⟩)]
  refine ⟨?_, names, spelled, ?_⟩
  · cases head
    case loopStmt target =>
      cases target with
      | none => exact sorted
      | some x =>
        obtain _ | ⟨⟨⟨⟩, admitted⟩, rest⟩ := sorted
        exact .cons ⟨.present, admitted⟩ rest
    all_goals exact sorted
  · cases head
    case matchStmt | comprehension | tryStmt | macroDef =>
      rcases slots with _ | ⟨a, _ | ⟨b, _ | ⟨c, _ | ⟨d, slots⟩⟩⟩⟩ <;> exact filled
    case loopStmt target =>
      cases target with
      | none => rfl
      | some x =>
        obtain _ | ⟨⟨⟨⟩, -⟩, _ | ⟨-, ⟨⟩⟩⟩ := sorted
        rfl
    case macroRule isTransform =>
      cases isTransform <;> obtain _ | ⟨⟨⟨⟩, -⟩, _ | ⟨-, ⟨⟩⟩⟩ := sorted <;>
        exact flawless rfl _ _ rfl
    case exceptClause | caseClause =>
      obtain _ | ⟨⟨⟨⟩, -⟩, _ | ⟨-, ⟨⟩⟩⟩ := sorted
      exact flawless rfl _ _ rfl
    all_goals rfl

/-- The patterns of a sorted tree have no flaw if they bind no name twice. -/
theorem Sorted.patternFlaw? {n m p : Node} (h : n.Sorted)
    (distinct : ∀ p ∈ n.clausePatterns, p.patternVariables.Nodup) (hm : m ∈ n.walk)
    (hp : m.clausePattern? = some p) : p.patternFlaw? = none := by
  refine ValidPattern.patternFlaw? ⟨OfSort.isPattern ?_, distinct p (mem_clausePatterns.mpr ⟨m, hm, hp⟩)⟩
  have sorted := h.of_mem_walk hm
  obtain ⟨span, head, slots⟩ := m
  obtain ⟨clause, rest, rfl⟩ := clausePattern?_eq_some.mp hp
  obtain ⟨c, sorts⟩ := Head.sorts_of_isClause clause
  have fields := sorted_mk.mp sorted
  rw [sorts] at fields
  obtain _ | ⟨first, -⟩ := fields
  exact first.children p List.mem_cons_self

theorem WellFormed.sorted {n : Node} (h : n.WellFormed) : n.Sorted :=
  fun m hm => (h.nodes m hm).orderly.1

theorem WellFormed.tidy {n : Node} (h : n.WellFormed) : n.Tidy :=
  fun m hm => (h.nodes m hm).orderly.2

/-- A clause of a well-formed tree starts with a pattern without a flaw. -/
theorem WellFormedAt.patternFlaw? {n p : Node} (h : n.WellFormedAt) (hp : n.clausePattern? = some p) :
    p.patternFlaw? = none := by
  obtain ⟨sorted, -⟩ := h.orderly
  obtain ⟨span, head, slots⟩ := n
  obtain ⟨clause, rest, rfl⟩ := clausePattern?_eq_some.mp hp
  obtain ⟨c, sorts⟩ := Head.sorts_of_isClause clause
  have sorted : List.Forall₂ _ head.sorts _ := sorted
  rw [sorts] at sorted
  obtain _ | ⟨-, _ | ⟨-, ⟨⟩⟩⟩ := sorted
  have complete := h.complete
  cases head <;> cases clause <;> simpa [isComplete, Slot.toList, Node.head, Node.slots] using complete

/-! ## Trees that stand elsewhere -/

theorem finished_unplaced (n : Node) : n.unplaced.finished = n.finished.map unplaced := by
  induction n using induction_on with
  | step span head slots ih =>
    rw [unplaced_mk, finished_mk, finished_mk, List.map_append, List.map_singleton, unplaced_mk,
      List.flatMap_map, List.map_flatMap]
    congr 1
    refine List.flatMap_congr fun s hs => ?_
    rw [Slot.toList_map, List.flatMap_map, List.map_flatMap]
    exact List.flatMap_congr fun n hn => ih s hs n hn

namespace Alike

variable {n n' : Node}

theorem finished (h : n.Alike n') : List.Forall₂ Alike n.finished n'.finished := by
  rw [← lists_iff, ← finished_unplaced, ← finished_unplaced, show n.unplaced = n'.unplaced from h]

theorem definition? (h : n.Alike n') : n.definition? = n'.definition? := by
  rw [Node.definition?, Node.definition?, h.head]

theorem calledName? (h : n.Alike n') : n.calledName? = n'.calledName? := by
  obtain ⟨span, head, slots⟩ := n
  obtain ⟨span', head', slots'⟩ := n'
  obtain rfl : head = head' := h.head
  by_cases call : head = .call
  · subst call
    have rel : List.Forall₂ (Slot.Rel Alike) slots slots' := h.slots
    obtain _ | ⟨⟨⟩ | ⟨callee⟩ | _, _⟩ := rel <;> try rfl
    rw [calledName?_mk_call, calledName?_mk_call, callee.head]
  · rw [calledName?_of_head call, calledName?_of_head call]

theorem sortedAt (h : n.Alike n') (h' : n.SortedAt) : n'.SortedAt := by
  unfold SortedAt at h' ⊢
  rw [← h.head]
  refine forall₂_comp_of_mem h' h.slots fun f _ s s' field rel => ⟨field.1.of_rel rel, ?_⟩
  intro m' hm'
  obtain ⟨m, hm, same⟩ := exists_of_mem_right rel.toList hm'
  exact same.head ▸ field.2 m hm

theorem tidyAt (h : n.Alike n') (h' : n.TidyAt) : n'.TidyAt where
  names := h.head ▸ h'.names
  spelled := h.head ▸ h'.spelled
  filled := by
    rw [← h'.filled, ← h.head]
    exact isFilled_congr (h.slots.imp fun _ _ rel => sameFilling_of_rel rel)

theorem clausePattern? (h : n.Alike n') {p' : Node} (hp : n'.clausePattern? = some p') :
    ∃ p, n.clausePattern? = some p ∧ p.Alike p' := by
  obtain ⟨span, head, slots⟩ := n
  obtain ⟨span', head', slots'⟩ := n'
  obtain rfl : head = head' := h.head
  obtain ⟨clause, rest, rfl⟩ := clausePattern?_eq_some.mp hp
  have rel : List.Forall₂ (Slot.Rel Alike) slots (.one p' :: rest) := h.slots
  obtain _ | ⟨same, _⟩ := rel
  cases same with
  | one same => exact ⟨_, clausePattern?_eq_some.mpr ⟨clause, _, rfl⟩, same⟩

theorem wellFormedAt (h : n.Alike n') (h' : n.WellFormedAt) : n'.WellFormedAt := by
  obtain ⟨sorted, tidy⟩ := h'.orderly
  refine (h.sortedAt sorted).wellFormedAt (h.tidyAt tidy) fun p' hp' => ?_
  obtain ⟨p, hp, same⟩ := h.clausePattern? hp'
  have flaw := same.patternFlaw?
  rw [h'.patternFlaw? hp, Option.map_none] at flaw
  exact Option.map_eq_none_iff.mp flaw.symm

/-- Where a well-formed program stands does not matter. -/
theorem wellFormed (h : n.Alike n') (h' : n.WellFormed) : n'.WellFormed where
  program := h.head ▸ h'.program
  nodes m' hm' := by
    obtain ⟨m, hm, same⟩ := exists_of_mem_right h.walk hm'
    exact same.wellFormedAt (h'.nodes m hm)
  calls := by
    have apart := h'.calls
    have same := h.finished
    generalize n.finished = ms, n'.finished = ms' at apart same ⊢
    induction same with
    | nil => exact .nil
    | cons first rest ih =>
      obtain ⟨own, below⟩ := List.pairwise_cons.mp apart
      refine List.pairwise_cons.mpr ⟨fun c' hc' => ?_, ih below⟩
      obtain ⟨c, hc, same⟩ := exists_of_mem_right rest hc'
      rw [isCalledBy, ← first.definition?, ← same.calledName?]
      exact own c hc

end Alike

end Node

end GlyphScript
