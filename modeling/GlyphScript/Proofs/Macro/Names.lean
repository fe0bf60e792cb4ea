import GlyphScript.Macro.Expansion
import GlyphScript.Proofs.Guarantee

/-!
# Names in templates

The names of a tree with the quote levels at which they stand. Renaming and
filling count quotes alike but start at different levels, and filling takes
some unquotes away, so a name has a level for each of them and one in the
result.
-/

namespace GlyphScript

theorem mem_of_lookup {α : Type} {l : List (String × α)} {x : String} {a : α}
    (h : l.lookup x = some a) : (x, a) ∈ l := by
  obtain ⟨l₁, l₂, rfl, -⟩ := List.lookup_eq_some_iff.mp h
  simp

theorem Head.innerDepth_of_ownNames {h : Head} (own : h.ownNames ≠ []) (depth : Nat) :
    h.innerDepth depth = depth := by
  unfold innerDepth
  split
  · exact absurd rfl own
  · exact absurd rfl own
  · rfl

theorem Head.Renamed.innerDepth {R : String → String → Prop} {h h' : Head} (r : Renamed R h h')
    (depth : Nat) : h'.innerDepth depth = h.innerDepth depth := by
  by_cases own : h.ownNames = []
  · rw [r.same own]
  · have own' : h'.ownNames ≠ [] := fun e => own (List.forall₂_nil_right_iff.mp (e ▸ r.names))
    rw [innerDepth_of_ownNames own, innerDepth_of_ownNames own']

namespace Node

/-- The names of a tree from left to right, each with the context in which it stands. -/
def namesIn {δ : Type} (inner : Head → δ → δ) : Node → δ → List (δ × String) :=
  fold fun _ head slots d =>
    head.ownNames.map (d, ·) ++ slots.flatMap fun s => s.toList.flatMap (· (inner head d))

theorem namesIn_mk {δ : Type} (inner : Head → δ → δ) (span : Span) (head : Head)
    (slots : List (Slot Node)) (d : δ) :
    (mk span head slots).namesIn inner d = head.ownNames.map (d, ·) ++
      slots.flatMap fun s => s.toList.flatMap fun n => n.namesIn inner (inner head d) := by
  rw [namesIn, fold_mk]
  simp only [List.flatMap_map, Slot.toList_map]

theorem mem_ownNames_of_mem_namesIn {δ : Type} {inner : Head → δ → δ} {n : Node} {x : δ × String} :
    ∀ {d : δ}, x ∈ n.namesIn inner d → ∃ m ∈ n.walk, x.2 ∈ m.head.ownNames := by
  induction n using induction_on with
  | step span head slots ih =>
    intro d h
    rw [namesIn_mk, List.mem_append] at h
    rcases h with h | h
    · obtain ⟨y, hy, rfl⟩ := List.mem_map.mp h
      exact ⟨_, mem_walk_self _, hy⟩
    · obtain ⟨s, hs, h⟩ := List.mem_flatMap.mp h
      obtain ⟨n, hn, h⟩ := List.mem_flatMap.mp h
      obtain ⟨m, hm, hx⟩ := ih s hs n hn h
      exact ⟨m, mem_walk_mk.mpr (.inr ⟨s, hs, n, hn, hm⟩), hx⟩

/-- What holds of the context of a tree and goes over from each node to its children holds of the
contexts of all names. -/
theorem namesIn_invariant {δ : Type} {inner : Head → δ → δ} {I : δ → Prop}
    (hI : ∀ head d, I d → I (inner head d)) (n : Node) :
    ∀ d, I d → ∀ x ∈ n.namesIn inner d, I x.1 := by
  induction n using induction_on with
  | step span head slots ih =>
    intro d hd x h
    rw [namesIn_mk, List.mem_append] at h
    rcases h with h | h
    · obtain ⟨y, _, rfl⟩ := List.mem_map.mp h
      exact hd
    · obtain ⟨s, hs, h⟩ := List.mem_flatMap.mp h
      obtain ⟨n, hn, h⟩ := List.mem_flatMap.mp h
      exact ih s hs n hn _ (hI head d hd) x h

/-- The contexts of names go over into others with those of the trees. -/
theorem mem_namesIn_map {δ ε : Type} {inner : Head → δ → δ} {inner' : Head → ε → ε} {π : δ → ε}
    (hπ : ∀ head d, π (inner head d) = inner' head (π d)) {n : Node} {x : δ × String} {d : δ}
    (h : x ∈ n.namesIn inner d) : (π x.1, x.2) ∈ n.namesIn inner' (π d) := by
  induction n using induction_on generalizing d with
  | step span head slots ih =>
    rw [namesIn_mk, List.mem_append] at h ⊢
    apply h.imp
    · intro own
      obtain ⟨y, hy, rfl⟩ := List.mem_map.mp own
      exact List.mem_map_of_mem hy
    · intro below
      obtain ⟨s, hs, h⟩ := List.mem_flatMap.mp below
      obtain ⟨n, hn, h⟩ := List.mem_flatMap.mp h
      refine List.mem_flatMap.mpr ⟨s, hs, List.mem_flatMap.mpr ⟨n, hn, ?_⟩⟩
      rw [← hπ]
      exact ih s hs n hn h

/-! ## Names outside quotes -/

/-- The names outside quotes of a tree that stands at some quote level, from left to right. -/
def namesOutside (n : Node) (depth : Nat) : List String :=
  ((n.namesIn (fun head depth => head.innerDepth depth) depth).filter (·.1 = 0)).map (·.2)

theorem mem_ownNames_of_mem_namesOutside {n : Node} {depth : Nat} {x : String}
    (h : x ∈ n.namesOutside depth) : ∃ m ∈ n.walk, x ∈ m.head.ownNames := by
  obtain ⟨y, hy, rfl⟩ := List.mem_map.mp h
  exact mem_ownNames_of_mem_namesIn (List.mem_filter.mp hy).1

theorem namesOutside_mk (span : Span) (head : Head) (slots : List (Slot Node)) (depth : Nat) :
    (mk span head slots).namesOutside depth = (if depth = 0 then head.ownNames else []) ++
      slots.flatMap fun s => s.toList.flatMap (·.namesOutside (head.innerDepth depth)) := by
  have own : ((head.ownNames.map (depth, ·)).filter (·.1 = 0)).map (·.2) =
      if depth = 0 then head.ownNames else [] := by
    by_cases h : depth = 0 <;> simp [List.filter_map, Function.comp_def, h]
  rw [namesOutside, namesIn_mk, List.filter_append, List.map_append, own]
  simp only [List.filter_flatMap, List.map_flatMap, namesOutside]

end Node

/-! ## Levels of a name -/

/-- The quote levels at which a part of a template stands. -/
structure Depths where
  /-- As renaming counts quotes. -/
  isolation : Nat
  /-- As filling counts quotes. -/
  filling : Nat
  /-- In the filled template. -/
  result : Nat

namespace Depths

/-- Where a template starts when filling starts at `level`. -/
def start (level : Nat) : Depths := ⟨0, level, 0⟩

/-- The levels inside a node. Filling takes away an unquote at or below the level at which it
started. -/
def inside (level : Nat) (head : Head) (d : Depths) : Depths where
  isolation := head.innerDepth d.isolation
  filling := head.innerDepth d.filling
  result := if head = .unquote ∧ d.filling ≤ level then d.result else head.innerDepth d.result

/-- Filling counts what renaming counts, or one quote more outside all unquotes of a quoted
template; and the result is at least as deep in quotes as renaming finds it. -/
def Agree (level : Nat) (d : Depths) : Prop :=
  d.filling = d.isolation ∧ d.isolation ≤ d.result ∨
    level = 1 ∧ d.filling = d.isolation + 1 ∧ d.result = d.isolation

theorem inside_renamed {R : String → String → Prop} {h h' : Head} (r : h.Renamed R h')
    (level : Nat) (d : Depths) : d.inside level h' = d.inside level h := by
  simp only [inside, r.innerDepth, r.eq_iff (k := .unquote) rfl]

theorem agree_start {level : Nat} (h : level ≤ 1) : (start level).Agree level := by
  show level = 0 ∧ 0 ≤ 0 ∨ level = 1 ∧ level = 0 + 1 ∧ 0 = 0
  omega

theorem Agree.inside {level : Nat} {d : Depths} (h : d.Agree level) (head : Head) :
    (d.inside level head).Agree level := by
  by_cases hq : head = .quote
  · simp only [Agree, Depths.inside, hq, Head.innerDepth, reduceCtorEq, false_and, if_false] at h ⊢
    omega
  by_cases hu : head = .unquote
  · simp only [Agree, Depths.inside, hu, Head.innerDepth, true_and] at h ⊢
    split <;> omega
  · have inner : ∀ depth, head.innerDepth depth = depth := fun depth => by
      unfold Head.innerDepth
      split <;> first | rfl | contradiction
    simpa only [Agree, Depths.inside, inner, hu, false_and, if_false] using h

end Depths

end GlyphScript
