import Mathlib.Order.Bounds.Defs
import Mathlib.Order.MinMax
import GlyphScript.Text.EditDistance

/-!
# Edit distance

Edits change one character at a place of a text. An alignment goes through two
texts from the front and pays for every column in which they differ; edits one
after the other are no cheaper than an alignment, since alignments compose.
The rows of the table hold the costs of cheapest alignments, of texts written
backwards: a row is extended at its end.
-/

namespace GlyphScript

variable {c d : Char} {cs ds es : List Char} {m n : Nat}

/-! ## Edits -/

/-- One insertion, deletion or substitution of a character. -/
inductive EditStep : List Char → List Char → Prop where
  | insert (front back : List Char) (c : Char) : EditStep (front ++ back) (front ++ c :: back)
  | delete (front back : List Char) (c : Char) : EditStep (front ++ c :: back) (front ++ back)
  | substitute (front back : List Char) (c d : Char) :
      EditStep (front ++ c :: back) (front ++ d :: back)

/-- Edits, as many as the number says, that turn one text into another. -/
inductive Edits : Nat → List Char → List Char → Prop where
  | refl (cs : List Char) : Edits 0 cs cs
  | step {n : Nat} {cs ds es : List Char} : EditStep cs ds → Edits n ds es → Edits (n + 1) cs es

theorem EditStep.cons (h : EditStep cs ds) (c : Char) : EditStep (c :: cs) (c :: ds) := by
  cases h with
  | insert front back d => exact .insert (c :: front) back d
  | delete front back d => exact .delete (c :: front) back d
  | substitute front back d e => exact .substitute (c :: front) back d e

theorem EditStep.reverse (h : EditStep cs ds) : EditStep cs.reverse ds.reverse := by
  cases h with
  | insert front back c => simpa using EditStep.insert back.reverse front.reverse c
  | delete front back c => simpa using EditStep.delete back.reverse front.reverse c
  | substitute front back c d => simpa using EditStep.substitute back.reverse front.reverse c d

namespace Edits

theorem cons (h : Edits n cs ds) (c : Char) : Edits n (c :: cs) (c :: ds) := by
  induction h with
  | refl cs => exact .refl (c :: cs)
  | step first _ ih => exact .step (first.cons c) ih

theorem reverse (h : Edits n cs ds) : Edits n cs.reverse ds.reverse := by
  induction h with
  | refl cs => exact .refl cs.reverse
  | step first _ ih => exact .step first.reverse ih

theorem reverse_iff : Edits n cs.reverse ds.reverse ↔ Edits n cs ds := by
  constructor
  · intro h
    simpa using h.reverse
  · exact reverse

end Edits

/-! ## Alignments -/

/-- An alignment of two texts from the front, with its cost. -/
inductive Aligned : Nat → List Char → List Char → Prop where
  | nil : Aligned 0 [] []
  | right {n : Nat} {cs ds : List Char} (d : Char) : Aligned n cs ds → Aligned (n + 1) cs (d :: ds)
  | left {n : Nat} {cs ds : List Char} (c : Char) : Aligned n cs ds → Aligned (n + 1) (c :: cs) ds
  | both {n : Nat} {cs ds : List Char} (c d : Char) :
      Aligned n cs ds → Aligned (n + if c = d then 0 else 1) (c :: cs) (d :: ds)

namespace Aligned

theorem same (h : Aligned n cs ds) (c : Char) : Aligned n (c :: cs) (c :: ds) := by
  simpa using h.both c c

theorem refl (cs : List Char) : Aligned 0 cs cs := by
  induction cs with
  | nil => exact .nil
  | cons c cs ih => exact ih.same c

theorem symm (h : Aligned n cs ds) : Aligned n ds cs := by
  induction h with
  | nil => exact .nil
  | right d _ ih => exact ih.left d
  | left c _ ih => exact ih.right c
  | both c d _ ih =>
    rw [if_congr (eq_comm (a := c) (b := d)) rfl rfl]
    exact ih.both d c

/-- A column costs nothing if it holds one character twice. -/
theorem eq_of_zero (h : Aligned n cs ds) (free : n = 0) : cs = ds := by
  induction h with
  | nil => rfl
  | right d _ _ => omega
  | left c _ _ => omega
  | both c d _ ih =>
    by_cases eq : c = d
    · rw [eq, ih (by omega)]
    · simp [eq] at free

/-- The columns of two alignments that share the text in the middle are put together. Columns that
leave the middle out stand where they are, so the second alignment is taken apart in turn. -/
theorem trans (h : Aligned m cs ds) (h' : Aligned n ds es) : ∃ k, k ≤ m + n ∧ Aligned k cs es := by
  induction h generalizing n es with
  | nil => exact ⟨n, by omega, h'⟩
  | left c _ ih =>
    obtain ⟨k, le, aligned⟩ := ih h'
    exact ⟨k + 1, by omega, aligned.left c⟩
  | @right m cs ds d first ih =>
    generalize eq : d :: ds = middle at h'
    induction h' with
    | nil => cases eq
    | right e _ ih' =>
      obtain ⟨k, le, aligned⟩ := ih' eq
      exact ⟨k + 1, by omega, aligned.right e⟩
    | left d' second _ =>
      cases eq
      obtain ⟨k, le, aligned⟩ := ih second
      exact ⟨k, by omega, aligned⟩
    | both d' e second _ =>
      cases eq
      obtain ⟨k, le, aligned⟩ := ih second
      exact ⟨k + 1, by split <;> omega, aligned.right e⟩
  | @both m cs ds c d first ih =>
    generalize eq : d :: ds = middle at h'
    induction h' with
    | nil => cases eq
    | right e _ ih' =>
      obtain ⟨k, le, aligned⟩ := ih' eq
      exact ⟨k + 1, by omega, aligned.right e⟩
    | left d' second _ =>
      cases eq
      obtain ⟨k, le, aligned⟩ := ih second
      exact ⟨k + 1, by split <;> omega, aligned.left c⟩
    | both d' e second _ =>
      cases eq
      obtain ⟨k, le, aligned⟩ := ih second
      refine ⟨k + if c = e then 0 else 1, ?_, aligned.both c e⟩
      by_cases hd : c = d
      · subst hd
        simp only [if_true]
        omega
      · simp only [hd, if_false]
        split <;> split <;> omega

theorem edits (h : Aligned n cs ds) : Edits n cs ds := by
  induction h with
  | nil => exact .refl []
  | @right n cs ds d _ ih => exact .step (.insert [] cs d) (ih.cons d)
  | @left n cs ds c _ ih => exact .step (.delete [] cs c) ih
  | @both n cs ds c d _ ih =>
    by_cases eq : c = d
    · subst eq
      simpa using ih.cons c
    · simpa [eq] using Edits.step (.substitute [] cs c d) (ih.cons d)

end Aligned

theorem Aligned.append (front : List Char) (h : Aligned n cs ds) :
    Aligned n (front ++ cs) (front ++ ds) := by
  induction front with
  | nil => exact h
  | cons c front ih => exact ih.same c

theorem EditStep.aligned (h : EditStep cs ds) : ∃ k, k ≤ 1 ∧ Aligned k cs ds := by
  cases h with
  | insert front back c => exact ⟨1, le_refl 1, ((Aligned.refl back).right c).append front⟩
  | delete front back c => exact ⟨1, le_refl 1, ((Aligned.refl back).left c).append front⟩
  | substitute front back c d =>
    exact ⟨_, by split <;> omega, ((Aligned.refl back).both c d).append front⟩

theorem Edits.aligned (h : Edits n cs ds) : ∃ k, k ≤ n ∧ Aligned k cs ds := by
  induction h with
  | refl cs => exact ⟨0, le_refl 0, .refl cs⟩
  | step first _ ih =>
    obtain ⟨k, le, here⟩ := first.aligned
    obtain ⟨k', le', others⟩ := ih
    obtain ⟨k'', le'', aligned⟩ := here.trans others
    exact ⟨k'', by omega, aligned⟩

/-! ## The table -/

/-- The cost of a cheapest alignment. -/
def alignmentCost : List Char → List Char → Nat
  | [], ds => ds.length
  | c :: cs, [] => (c :: cs).length
  | c :: cs, d :: ds =>
    min (min (alignmentCost cs (d :: ds) + 1) (alignmentCost (c :: cs) ds + 1))
      (alignmentCost cs ds + if c = d then 0 else 1)

attribute [local simp] alignmentCost in
@[simp] theorem alignmentCost_nil_left (ds : List Char) : alignmentCost [] ds = ds.length := by
  simp

@[simp] theorem alignmentCost_nil_right (cs : List Char) : alignmentCost cs [] = cs.length := by
  cases cs <;> simp [alignmentCost]

theorem alignmentCost_cons (c d : Char) (cs ds : List Char) :
    alignmentCost (c :: cs) (d :: ds) =
      min (min (alignmentCost cs (d :: ds) + 1) (alignmentCost (c :: cs) ds + 1))
        (alignmentCost cs ds + if c = d then 0 else 1) := by
  rw [alignmentCost]

theorem alignmentCost_le (h : Aligned n cs ds) : alignmentCost cs ds ≤ n := by
  induction h with
  | nil => simp
  | @right n cs ds d _ ih =>
    cases cs with
    | nil => simpa using ih
    | cons c cs =>
      rw [alignmentCost_cons]
      omega
  | @left n cs ds c _ ih =>
    cases ds with
    | nil => simpa using ih
    | cons d ds =>
      rw [alignmentCost_cons]
      omega
  | both c d _ ih =>
    rw [alignmentCost_cons]
    omega

theorem aligned_length_left (ds : List Char) : Aligned ds.length [] ds := by
  induction ds with
  | nil => exact .nil
  | cons d ds ih => exact ih.right d

theorem aligned_alignmentCost (cs ds : List Char) : Aligned (alignmentCost cs ds) cs ds := by
  fun_induction alignmentCost cs ds with
  | case1 ds => exact aligned_length_left ds
  | case2 c cs => exact (aligned_length_left (c :: cs)).symm
  | case3 c cs d ds above left diagonal =>
    rcases min_choice (min (alignmentCost cs (d :: ds) + 1) (alignmentCost (c :: cs) ds + 1))
      (alignmentCost cs ds + if c = d then 0 else 1) with eq | eq
    · rcases min_choice (alignmentCost cs (d :: ds) + 1) (alignmentCost (c :: cs) ds + 1) with
        eq' | eq'
      · rw [eq, eq']
        exact above.left c
      · rw [eq, eq']
        exact left.right d
    · rw [eq]
      exact diagonal.both c d

theorem isLeast_alignmentCost (cs ds : List Char) :
    IsLeast {n | Edits n cs ds} (alignmentCost cs ds) := by
  constructor
  · exact (aligned_alignmentCost cs ds).edits
  · intro n h
    obtain ⟨k, le, aligned⟩ := Edits.aligned h
    exact le_trans (alignmentCost_le aligned) le

/-- The entries of the row of `cs` behind the one for `passed`: for `passed` and one more character
of the other text, for two more, and so on. Both `cs` and `passed` are written backwards. -/
def tableRow (cs passed : List Char) : List Char → List Nat
  | [] => []
  | d :: ds => alignmentCost cs (d :: passed) :: tableRow cs (d :: passed) ds

theorem tableRow_cons (cs passed : List Char) (d : Char) (ds : List Char) :
    tableRow cs passed (d :: ds) =
      alignmentCost cs (d :: passed) :: tableRow cs (d :: passed) ds := rfl

theorem extendRow_tableRow (c : Char) (cs ds passed : List Char) :
    extendRow c ds (alignmentCost cs passed) (alignmentCost (c :: cs) passed)
      (tableRow cs passed ds) = tableRow (c :: cs) passed ds := by
  induction ds generalizing passed with
  | nil => rfl
  | cons d ds ih =>
    simp only [tableRow_cons, extendRow, ← alignmentCost_cons, ih]

theorem nextRow_tableRow (c : Char) (cs ds : List Char) :
    nextRow c ds (alignmentCost cs [] :: tableRow cs [] ds) =
      alignmentCost (c :: cs) [] :: tableRow (c :: cs) [] ds := by
  have first : alignmentCost cs [] + 1 = alignmentCost (c :: cs) [] := by simp
  rw [nextRow, first, extendRow_tableRow]

theorem range_tableRow (ds passed : List Char) :
    List.range' passed.length (ds.length + 1) = passed.length :: tableRow [] passed ds := by
  induction ds generalizing passed with
  | nil => rfl
  | cons d ds ih =>
    rw [List.length_cons, List.range'_succ, tableRow_cons, alignmentCost_nil_left]
    exact congrArg _ (ih (d :: passed))

theorem foldl_nextRow (cs done ds : List Char) :
    cs.foldl (fun row c => nextRow c ds row) (alignmentCost done [] :: tableRow done [] ds) =
      alignmentCost (cs.reverse ++ done) [] :: tableRow (cs.reverse ++ done) [] ds := by
  induction cs generalizing done with
  | nil => rfl
  | cons c cs ih => simp [nextRow_tableRow, ih, -alignmentCost_nil_right]

theorem lastRow_eq (cs ds : List Char) :
    lastRow cs ds = alignmentCost cs.reverse [] :: tableRow cs.reverse [] ds := by
  have first := range_tableRow ds []
  rw [lastRow, List.range_eq_range']
  rw [List.length_nil] at first
  rw [first]
  simpa using foldl_nextRow cs [] ds

theorem getLastD_tableRow (cs ds passed : List Char) :
    (tableRow cs passed ds).getLastD (alignmentCost cs passed) =
      alignmentCost cs (ds.reverse ++ passed) := by
  induction ds generalizing passed with
  | nil => rfl
  | cons d ds ih =>
    rw [tableRow_cons, List.getLastD_cons, ih, List.reverse_cons, List.append_assoc]
    rfl

theorem getLastD_lastRow (cs ds : List Char) :
    (lastRow cs ds).getLastD 0 = alignmentCost cs.reverse ds.reverse := by
  rw [lastRow_eq, List.getLastD_cons, getLastD_tableRow, List.append_nil]

/-! ## The distance -/

theorem isLeast_lastRow (cs ds : List Char) :
    IsLeast {n | Edits n cs ds} ((lastRow cs ds).getLastD 0) := by
  have least := isLeast_alignmentCost cs.reverse ds.reverse
  simp only [Edits.reverse_iff] at least
  rw [getLastD_lastRow]
  exact least

theorem Edits.comm (h : Edits n cs ds) : ∃ k, k ≤ n ∧ Edits k ds cs := by
  obtain ⟨k, le, aligned⟩ := h.aligned
  exact ⟨k, le, aligned.symm.edits⟩

theorem getLastD_lastRow_comm (cs ds : List Char) :
    (lastRow cs ds).getLastD 0 = (lastRow ds cs).getLastD 0 := by
  have le : ∀ cs ds, (lastRow cs ds).getLastD 0 ≤ (lastRow ds cs).getLastD 0 := by
    intro cs ds
    obtain ⟨k, le, edits⟩ := Edits.comm (isLeast_lastRow ds cs).1
    exact le_trans ((isLeast_lastRow cs ds).2 edits) le
  exact le_antisymm (le cs ds) (le ds cs)

/-- The shorter text may run along the rows, whichever of the two it is. -/
theorem editDistance_eq (s t : String) :
    editDistance s t = (lastRow s.toList t.toList).getLastD 0 := by
  by_cases shorter : s.toList.length < t.toList.length
  · rw [editDistance, if_pos shorter, getLastD_lastRow_comm]
  · rw [editDistance, if_neg shorter]

theorem isLeast_editDistance (s t : String) :
    IsLeast {n | Edits n s.toList t.toList} (editDistance s t) := by
  rw [editDistance_eq]
  exact isLeast_lastRow s.toList t.toList

theorem editDistance_comm (s t : String) : editDistance s t = editDistance t s := by
  rw [editDistance_eq, editDistance_eq, getLastD_lastRow_comm]

theorem editDistance_le_iff (s t : String) :
    editDistance s t ≤ n ↔ ∃ k, k ≤ n ∧ Edits k s.toList t.toList := by
  constructor
  · intro le
    exact ⟨editDistance s t, le, (isLeast_editDistance s t).1⟩
  · intro ⟨k, le, edits⟩
    exact le_trans ((isLeast_editDistance s t).2 edits) le

theorem editDistance_eq_zero (s t : String) : editDistance s t = 0 ↔ s = t := by
  constructor
  · intro zero
    obtain ⟨k, le, edits⟩ := (editDistance_le_iff s t).mp (le_of_eq zero)
    obtain ⟨k', le', aligned⟩ := edits.aligned
    exact String.toList_inj.mp (aligned.eq_of_zero (by omega))
  · rintro rfl
    exact Nat.le_zero.mp ((editDistance_le_iff s s).mpr ⟨0, le_refl 0, .refl _⟩)

theorem editDistance_triangle (s t u : String) :
    editDistance s u ≤ editDistance s t + editDistance t u := by
  obtain ⟨k, le, first⟩ := Edits.aligned (isLeast_editDistance s t).1
  obtain ⟨k', le', second⟩ := Edits.aligned (isLeast_editDistance t u).1
  obtain ⟨k'', le'', aligned⟩ := first.trans second
  exact (editDistance_le_iff s u).mpr ⟨k'', by omega, aligned.edits⟩

/-! ## Suggestions -/

theorem closerThan_iff (name a b : String) :
    closerThan name a b = true ↔ editDistance name a < editDistance name b ∨
      editDistance name a = editDistance name b ∧ a ≤ b := by
  simp only [closerThan, Bool.or_eq_true, decide_eq_true_eq, Bool.and_eq_true, beq_iff_eq,
    Bool.not_eq_true', decide_eq_false_iff_not, String.not_lt]

theorem closerThan_trans (name a b c : String) (h : closerThan name a b = true)
    (h' : closerThan name b c = true) : closerThan name a c = true := by
  rw [closerThan_iff] at h h' ⊢
  rcases h with lt | ⟨eq, le⟩
  · rcases h' with lt' | ⟨eq', _⟩
    · exact .inl (lt_trans lt lt')
    · exact .inl (eq' ▸ lt)
  · rcases h' with lt' | ⟨eq', le'⟩
    · exact .inl (eq ▸ lt')
    · exact .inr ⟨eq.trans eq', String.le_trans le le'⟩

theorem closerThan_total (name a b : String) :
    (closerThan name a b || closerThan name b a) = true := by
  rw [Bool.or_eq_true, closerThan_iff, closerThan_iff]
  rcases lt_trichotomy (editDistance name a) (editDistance name b) with lt | eq | lt
  · exact .inl (.inl lt)
  · rcases String.le_total a b with le | le
    · exact .inl (.inr ⟨eq, le⟩)
    · exact .inr (.inr ⟨eq.symm, le⟩)
  · exact .inr (.inl lt)

open Classical in
/-- The computed distance is the least number of edits, and so it is a metric. Suggestions are
taken from the front of a list of the candidates within two edits, each as often as it was offered,
the closest first and at the same distance by code points. -/
theorem editDistance_least_edits :
    (∀ s t, IsLeast {n | Edits n s.toList t.toList} (editDistance s t)) ∧
    (∀ s t, editDistance s t = editDistance t s) ∧
    (∀ s t, editDistance s t = 0 ↔ s = t) ∧
    (∀ s t u, editDistance s u ≤ editDistance s t + editDistance t u) ∧
    ∀ name candidates, ∃ close : List String,
      close.Perm (candidates.filter fun c => ∃ n, n ≤ 2 ∧ Edits n name.toList c.toList) ∧
      close.Pairwise (fun a b => editDistance name a < editDistance name b ∨
        editDistance name a = editDistance name b ∧ a ≤ b) ∧
      ∀ limit, suggestSimilar name candidates limit = takeUpTo limit close := by
  refine ⟨isLeast_editDistance, editDistance_comm, editDistance_eq_zero, editDistance_triangle, ?_⟩
  intro name candidates
  refine ⟨closeTo name candidates, ?_, ?_, ?_⟩
  · have kept : candidates.filter (fun c => editDistance name c ≤ 2) =
        candidates.filter fun c => ∃ n, n ≤ 2 ∧ Edits n name.toList c.toList := by
      refine List.filter_congr fun c _ => ?_
      rw [decide_eq_decide]
      exact editDistance_le_iff name c
    rw [← kept]
    exact List.mergeSort_perm _ _
  · have sorted := List.pairwise_mergeSort (closerThan_trans name) (closerThan_total name)
      (candidates.filter fun c => editDistance name c ≤ 2)
    simp only [closerThan_iff] at sorted
    exact sorted
  · intro limit
    rw [suggestSimilar]

end GlyphScript
