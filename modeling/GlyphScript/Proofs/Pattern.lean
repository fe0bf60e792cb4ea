import GlyphScript.Macro.Hygiene
import GlyphScript.Pattern
import GlyphScript.Proofs.Tree

/-!
# Patterns in trees

What makes a pattern well formed, where the patterns of a tree stand, and how
a pattern may be respelled without a name being bound twice.
-/

namespace GlyphScript

namespace Head

/-- The clauses that start with a pattern. -/
def isClause : Head → Bool
  | .caseClause | .exceptClause | .macroRule _ => true
  | _ => false

/-- The name that a pattern binds, which may be the wildcard. -/
def bindName? : Head → Option String
  | .bindPattern x => some x
  | _ => none

end Head

namespace Node

/-- The names in a pattern from left to right, wildcards among them. -/
def bindNames (n : Node) : List String := n.walk.filterMap (·.head.bindName?)

/-- Nothing but patterns in the tree. -/
def IsPattern (n : Node) : Prop := ∀ m ∈ n.walk, m.head.isPattern = true

/-- A pattern that binds each name once. -/
structure ValidPattern (n : Node) : Prop where
  pattern : n.IsPattern
  nodup : n.patternVariables.Nodup

theorem patternVariables_eq (n : Node) :
    n.patternVariables = n.bindNames.filter (· ≠ wildcard) := by
  rw [patternVariables, bindNames, List.filter_filterMap]
  refine List.filterMap_congr fun m _ => ?_
  cases m.head <;> simp [Head.bindName?, Option.filter]

theorem bindNames_mk (span : Span) (head : Head) (slots : List (Slot Node)) :
    (mk span head slots).bindNames =
      head.bindName?.toList ++ slots.flatMap fun s => s.toList.flatMap bindNames := by
  rw [bindNames, walk_mk, List.filterMap_cons, List.filterMap_flatMap]
  simp only [List.filterMap_flatMap]
  show _ = head.bindName?.toList ++ slots.flatMap fun s => s.toList.flatMap fun n =>
    n.walk.filterMap (·.head.bindName?)
  rw [show (mk span head slots).head = head from rfl]
  cases head.bindName? <;> rfl

theorem isPattern_mk {span : Span} {head : Head} {slots : List (Slot Node)} :
    (mk span head slots).IsPattern ↔
      head.isPattern = true ∧ ∀ s ∈ slots, ∀ n ∈ s.toList, n.IsPattern := by
  simp only [IsPattern, mem_walk_mk, forall_eq_or_imp, forall_exists_index, and_imp]
  exact and_congr_right fun _ =>
    ⟨fun h s hs n hn m hm => h m s hs n hn hm, fun h m s hs n hn hm => h s hs n hn m hm⟩

/-- Where no flaw is found there are nothing but patterns, and no name is bound that is bound
already. -/
theorem firstFlaw?_eq_none {seen : List String} {ns : List Node} (once : seen.Nodup)
    (h : firstFlaw? seen ns = none) : (∀ n ∈ ns, n.head.isPattern = true) ∧
      (seen ++ (ns.filterMap (·.head.bindName?)).filter (· ≠ wildcard)).Nodup := by
  induction ns generalizing seen with
  | nil => simpa using once
  | cons n ns ih =>
    rw [firstFlaw?] at h
    split at h
    · rename_i x hx
      have pattern : n.head.isPattern = true := by rw [hx]; rfl
      split at h
      · rename_i wild
        obtain ⟨all, nodup⟩ := ih once h
        refine ⟨List.forall_mem_cons.mpr ⟨pattern, all⟩, ?_⟩
        simpa [hx, Head.bindName?, wild] using nodup
      · rename_i tame
        split at h
        · cases h
        · rename_i new
          obtain ⟨all, nodup⟩ := ih (List.nodup_cons.mpr ⟨by simpa using new, once⟩) h
          refine ⟨List.forall_mem_cons.mpr ⟨pattern, all⟩, ?_⟩
          have nodup := List.perm_middle.symm.nodup nodup
          simpa [hx, Head.bindName?, tame] using nodup
    · rename_i other
      split at h
      · rename_i pattern
        obtain ⟨all, nodup⟩ := ih once h
        refine ⟨List.forall_mem_cons.mpr ⟨pattern, all⟩, ?_⟩
        have none : n.head.bindName? = .none := by
          cases hh : n.head <;> first | rfl | exact absurd hh (other _)
        simpa [none] using nodup
      · cases h

/-- A pattern in which no flaw is found binds each name once. -/
theorem validPattern_of_flaw {p : Node} (h : p.patternFlaw? = none) : p.ValidPattern := by
  obtain ⟨all, nodup⟩ := firstFlaw?_eq_none List.nodup_nil h
  exact ⟨all, by rw [patternVariables_eq]; exact nodup⟩

/-! ## The patterns of a tree -/

/-- The pattern that a clause starts with. -/
def clausePattern? (n : Node) : Option Node :=
  if n.head.isClause then
    match n.slots with
    | .one p :: _ => some p
    | _ => none
  else none

/-- The patterns that the clauses of a tree start with. -/
def clausePatterns (n : Node) : List Node := n.walk.filterMap clausePattern?

mutual

/-- The nodes of a tree with the quote levels at which they stand. -/
def levels (depth : Nat) : Node → List (Nat × Node)
  | mk span head slots => (depth, mk span head slots) :: levelsSlots (head.innerDepth depth) slots

def levelsSlots (depth : Nat) : List (Slot Node) → List (Nat × Node)
  | [] => []
  | .absent :: slots => levelsSlots depth slots
  | .one n :: slots => levels depth n ++ levelsSlots depth slots
  | .many ns :: slots => levelsList depth ns ++ levelsSlots depth slots

def levelsList (depth : Nat) : List Node → List (Nat × Node)
  | [] => []
  | n :: ns => levels depth n ++ levelsList depth ns

end

/-- The patterns that the clauses of a tree start with, each with its quote level. -/
def patternsAt (n : Node) (depth : Nat) : List (Nat × Node) :=
  (n.levels depth).filterMap fun (d, m) => m.clausePattern?.map (d, ·)

theorem levelsList_eq (depth : Nat) (ns : List Node) :
    levelsList depth ns = ns.flatMap (levels depth) := by
  induction ns with
  | nil => rfl
  | cons n ns ih =>
    rw [List.flatMap_cons, ← ih]
    rfl

theorem levelsSlots_eq (depth : Nat) (slots : List (Slot Node)) :
    levelsSlots depth slots = slots.flatMap fun s => s.toList.flatMap (levels depth) := by
  induction slots with
  | nil => rfl
  | cons s slots ih =>
    rw [List.flatMap_cons, ← ih]
    cases s with
    | absent => rfl
    | one n =>
      rw [Slot.toList, List.flatMap_singleton]
      rfl
    | many ns =>
      rw [Slot.toList, ← levelsList_eq]
      rfl

theorem mem_levels_mk {depth : Nat} {span : Span} {head : Head} {slots : List (Slot Node)}
    {x : Nat × Node} : x ∈ (mk span head slots).levels depth ↔
      x = (depth, mk span head slots) ∨
        ∃ s ∈ slots, ∃ n ∈ s.toList, x ∈ n.levels (head.innerDepth depth) := by
  show x ∈ _ :: levelsSlots (head.innerDepth depth) slots ↔ _
  simp only [levelsSlots_eq, List.mem_cons, List.mem_flatMap]

theorem mem_walk_of_mem_levels {n : Node} : ∀ {depth : Nat} {x : Nat × Node},
    x ∈ n.levels depth → x.2 ∈ n.walk := by
  induction n using induction_on with
  | step span head slots ih =>
    intro depth x hx
    rcases mem_levels_mk.mp hx with rfl | ⟨s, hs, n, hn, hx⟩
    · exact mem_walk_self _
    · exact mem_walk_mk.mpr (.inr ⟨s, hs, n, hn, ih s hs n hn hx⟩)

theorem exists_mem_levels {n m : Node} : ∀ depth, m ∈ n.walk → ∃ d, (d, m) ∈ n.levels depth := by
  induction n using induction_on with
  | step span head slots ih =>
    intro depth hm
    rcases mem_walk_mk.mp hm with rfl | ⟨s, hs, n, hn, hm⟩
    · exact ⟨depth, mem_levels_mk.mpr (.inl rfl)⟩
    · obtain ⟨d, hd⟩ := ih s hs n hn (head.innerDepth depth) hm
      exact ⟨d, mem_levels_mk.mpr (.inr ⟨s, hs, n, hn, hd⟩)⟩

theorem clausePattern?_eq_some {span : Span} {head : Head} {slots : List (Slot Node)} {p : Node} :
    (mk span head slots).clausePattern? = some p ↔
      head.isClause = true ∧ ∃ rest, slots = .one p :: rest := by
  show (if head.isClause then _ else none) = some p ↔ _
  cases head.isClause with
  | false => simp
  | true => rcases slots with _ | ⟨_ | q | qs, rest⟩ <;> simp [slots]

theorem mem_clausePatterns {n p : Node} :
    p ∈ n.clausePatterns ↔ ∃ m ∈ n.walk, m.clausePattern? = some p :=
  List.mem_filterMap

theorem mem_patternsAt {n p : Node} {depth d : Nat} :
    (d, p) ∈ n.patternsAt depth ↔ ∃ m, (d, m) ∈ n.levels depth ∧ m.clausePattern? = some p := by
  simp only [patternsAt, List.mem_filterMap, Option.map_eq_some_iff, Prod.exists, Prod.mk.injEq]
  constructor
  · rintro ⟨_, m, hm, q, hq, rfl, rfl⟩
    exact ⟨m, hm, hq⟩
  · rintro ⟨m, hm, hp⟩
    exact ⟨d, m, hm, p, hp, rfl, rfl⟩

theorem mem_patternsAt_mk {depth d : Nat} {span : Span} {head : Head} {slots : List (Slot Node)}
    {p : Node} : (d, p) ∈ (mk span head slots).patternsAt depth ↔
      d = depth ∧ head.isClause = true ∧ (∃ rest, slots = .one p :: rest) ∨
        ∃ s ∈ slots, ∃ n ∈ s.toList, (d, p) ∈ n.patternsAt (head.innerDepth depth) := by
  simp only [mem_patternsAt, mem_levels_mk, Prod.mk.injEq]
  constructor
  · rintro ⟨m, ⟨rfl, rfl⟩ | ⟨s, hs, n, hn, hm⟩, hp⟩
    · rw [clausePattern?_eq_some] at hp
      exact .inl ⟨rfl, hp⟩
    · exact .inr ⟨s, hs, n, hn, m, hm, hp⟩
  · rintro (⟨rfl, hp⟩ | ⟨s, hs, n, hn, m, hm, hp⟩)
    · refine ⟨_, .inl ⟨rfl, rfl⟩, ?_⟩
      rwa [clausePattern?_eq_some]
    · exact ⟨m, .inr ⟨s, hs, n, hn, hm⟩, hp⟩

theorem mem_clausePatterns_of_mem_patternsAt {n p : Node} {depth d : Nat}
    (h : (d, p) ∈ n.patternsAt depth) : p ∈ n.clausePatterns := by
  obtain ⟨m, hm, hp⟩ := mem_patternsAt.mp h
  exact mem_clausePatterns.mpr ⟨m, mem_walk_of_mem_levels hm, hp⟩

theorem exists_mem_patternsAt {n p : Node} (depth : Nat) (h : p ∈ n.clausePatterns) :
    ∃ d, (d, p) ∈ n.patternsAt depth := by
  obtain ⟨m, hm, hp⟩ := mem_clausePatterns.mp h
  obtain ⟨d, hd⟩ := exists_mem_levels depth hm
  exact ⟨d, mem_patternsAt.mpr ⟨m, hd, hp⟩⟩

theorem mem_clausePatterns_mk {span : Span} {head : Head} {slots : List (Slot Node)} {p : Node} :
    p ∈ (mk span head slots).clausePatterns ↔
      head.isClause = true ∧ (∃ rest, slots = .one p :: rest) ∨
        ∃ s ∈ slots, ∃ n ∈ s.toList, p ∈ n.clausePatterns := by
  simp only [mem_clausePatterns, mem_walk_mk]
  constructor
  · rintro ⟨m, rfl | ⟨s, hs, n, hn, hm⟩, hp⟩
    · rw [clausePattern?_eq_some] at hp
      exact .inl hp
    · exact .inr ⟨s, hs, n, hn, m, hm, hp⟩
  · rintro (hp | ⟨s, hs, n, hn, m, hm, hp⟩)
    · refine ⟨_, .inl rfl, ?_⟩
      rwa [clausePattern?_eq_some]
    · exact ⟨m, .inr ⟨s, hs, n, hn, hm⟩, hp⟩

/-- The patterns of all clauses in the tree are as `P` says. -/
def Clauses (P : Node → Prop) (n : Node) : Prop := ∀ p ∈ n.clausePatterns, P p

theorem clauses_mk {P : Node → Prop} {span : Span} {head : Head} {slots : List (Slot Node)} :
    (mk span head slots).Clauses P ↔
      (∀ p rest, head.isClause = true → slots = .one p :: rest → P p) ∧
        ∀ s ∈ slots, ∀ n ∈ s.toList, n.Clauses P := by
  simp only [Clauses, mem_clausePatterns_mk]
  constructor
  · exact fun h => ⟨fun p rest hh hs => h p (.inl ⟨hh, rest, hs⟩),
      fun s hs n hn p hp => h p (.inr ⟨s, hs, n, hn, hp⟩)⟩
  · rintro ⟨own, below⟩ p (⟨hh, rest, hs⟩ | ⟨s, hs, n, hn, hp⟩)
    · exact own p rest hh hs
    · exact below s hs n hn p hp

theorem Clauses.of_mem_walk {P : Node → Prop} {n m : Node} (h : n.Clauses P) (hm : m ∈ n.walk) :
    m.Clauses P := by
  intro p hp
  obtain ⟨k, hk, hp⟩ := mem_clausePatterns.mp hp
  exact h p (mem_clausePatterns.mpr ⟨k, mem_walk_trans hm hk, hp⟩)

theorem Clauses.imp {P Q : Node → Prop} {n : Node} (h : n.Clauses P) (hPQ : ∀ p, P p → Q p) :
    n.Clauses Q :=
  fun p hp => hPQ p (h p hp)

/-- A node that is no clause, made of trees whose clauses are as `P` says. -/
theorem clauses_of_parts {P : Node → Prop} {span : Span} {head : Head} {slots : List (Slot Node)}
    (h : head.isClause = false) (parts : ∀ s ∈ slots, ∀ n ∈ s.toList, n.Clauses P) :
    (mk span head slots).Clauses P :=
  clauses_mk.mpr ⟨fun _ _ hh _ => Bool.noConfusion (h.symm.trans hh), parts⟩

/-- There are no clauses in patterns. -/
theorem IsPattern.clauses {P : Node → Prop} {n : Node} (h : n.IsPattern) : n.Clauses P := by
  intro p hp
  obtain ⟨m, hm, hp⟩ := mem_clausePatterns.mp hp
  have pattern := h m hm
  obtain ⟨span, head, slots⟩ := m
  rw [clausePattern?_eq_some] at hp
  have clause := hp.1
  cases head <;> first | exact Bool.noConfusion clause | exact Bool.noConfusion pattern

/-! ## Respelling -/

/-- If the first tree is a pattern, so is the second, with related names. -/
def Follows (R : String → String → Prop) (p p' : Node) : Prop :=
  p.IsPattern → p'.IsPattern ∧ List.Forall₂ R p.bindNames p'.bindNames

end Node

/-- What may become of a head when names are changed: the head of a pattern becomes one with related
names, and nothing else becomes the head of a clause. -/
structure Head.Respelled (R : String → String → Prop) (h h' : Head) : Prop where
  pattern : h.isPattern = true → h'.isPattern = true ∧
    List.Forall₂ R h.bindName?.toList h'.bindName?.toList
  clause : h'.isClause = true → h' = h
  depth : ∀ d, h'.innerDepth d = h.innerDepth d

theorem Head.Respelled.refl {R : String → String → Prop} {h : Head}
    (hR : ∀ x, h = .bindPattern x → R x x) : Respelled R h h := by
  refine ⟨fun hp => ⟨hp, List.forall₂_same.mpr ?_⟩, fun _ => rfl, fun _ => rfl⟩
  intro x hx
  cases h with
  | bindPattern y =>
    obtain rfl : x = y := List.mem_singleton.mp hx
    exact hR _ rfl
  | _ => cases hx

theorem Head.innerDepth_of_isPattern {h : Head} (hp : h.isPattern = true) (d : Nat) :
    h.innerDepth d = d := by
  cases h <;> first | rfl | cases hp

namespace Node

theorem Follows.node {R : String → String → Prop} {span : Span} {h h' : Head}
    {slots slots' : List (Slot Node)} (head : h.Respelled R h')
    (rel : h.isPattern = true → List.Forall₂ (Slot.Rel (Follows R)) slots slots') :
    Follows R (mk span h slots) (mk span h' slots') := by
  intro hn
  obtain ⟨own, below⟩ := isPattern_mk.mp hn
  have rel := rel own
  refine ⟨isPattern_mk.mpr ⟨(head.pattern own).1, fun s' hs' n' hn' => ?_⟩, ?_⟩
  · obtain ⟨s, hs, r⟩ := exists_of_mem_right rel hs'
    obtain ⟨n, hn, r⟩ := exists_of_mem_right r.toList hn'
    exact (r (below s hs n hn)).1
  · rw [bindNames_mk, bindNames_mk]
    refine List.rel_append (head.pattern own).2 ?_
    have rel : List.Forall₂ (fun s s' => List.Forall₂ (fun n n' =>
        List.Forall₂ R n.bindNames n'.bindNames) s.toList s'.toList) slots slots' :=
      forall₂_imp_of_mem rel fun s hs s' r =>
        forall₂_imp_of_mem r.toList fun n hn n' r => (r (below s hs n hn)).2
    exact List.rel_flatMap rel fun s s' r => List.rel_flatMap r fun _ _ r => r

/-- Names that are told apart stay different. -/
theorem nodup_of_forall₂ {R : String → String → Prop} {xs ys : List String}
    (rel : List.Forall₂ R xs ys) (wild : wildcard ∈ xs → ∀ y, R wildcard y → y = wildcard)
    (apart : ∀ x ∈ xs, ∀ x' ∈ xs, ∀ y, R x y → R x' y → y ≠ wildcard → x = x')
    (nodup : (xs.filter (· ≠ wildcard)).Nodup) : (ys.filter (· ≠ wildcard)).Nodup := by
  induction rel with
  | nil => exact List.nodup_nil
  | @cons x y xs ys hxy rest ih =>
    have apart' : ∀ x ∈ xs, ∀ x' ∈ xs, ∀ y, R x y → R x' y → y ≠ wildcard → x = x' :=
      fun x hx x' hx' => apart x (List.mem_cons_of_mem _ hx) x' (List.mem_cons_of_mem _ hx')
    have ih := ih (fun hw => wild (List.mem_cons_of_mem _ hw)) apart'
    by_cases hy : y = wildcard
    · rw [List.filter_cons_of_neg (by simpa using hy)]
      refine ih (nodup.sublist ?_)
      exact (List.sublist_cons_self _ _).filter _
    · have hx : x ≠ wildcard := by
        rintro rfl
        exact hy (wild List.mem_cons_self y hxy)
      rw [List.filter_cons_of_pos (by simpa using hx)] at nodup
      rw [List.filter_cons_of_pos (by simpa using hy)]
      obtain ⟨new, nodup⟩ := List.nodup_cons.mp nodup
      refine List.nodup_cons.mpr ⟨fun again => new ?_, ih nodup⟩
      obtain ⟨x', hx', r⟩ := exists_of_mem_right rest (List.mem_filter.mp again).1
      rw [apart x List.mem_cons_self x' (List.mem_cons_of_mem _ hx') y hxy r hy]
      refine List.mem_filter.mpr ⟨hx', ?_⟩
      rw [← apart x List.mem_cons_self x' (List.mem_cons_of_mem _ hx') y hxy r hy]
      simpa using hx

/-- A pattern stays valid if its names are told apart. -/
theorem ValidPattern.follows {R : String → String → Prop} {p p' : Node} (h : p.ValidPattern)
    (r : p.Follows R p') (wild : wildcard ∈ p.bindNames → ∀ y, R wildcard y → y = wildcard)
    (apart : ∀ x ∈ p.bindNames, ∀ x' ∈ p.bindNames, ∀ y, R x y → R x' y → y ≠ wildcard →
      x = x') : p'.ValidPattern := by
  obtain ⟨pattern, names⟩ := r h.pattern
  refine ⟨pattern, ?_⟩
  rw [patternVariables_eq]
  exact nodup_of_forall₂ names wild apart (p.patternVariables_eq ▸ h.nodup)

end Node

end GlyphScript
