import GlyphScript.Macro.Gensym
import Mathlib.Data.List.Nodup
import Mathlib.Data.List.Perm.Subperm

/-!
# Fresh symbols

A symbol given out was not in use before and is in use from then on. The search
for a free number is long enough, since the symbols of one base are all
different and only so many names are in use.
-/

namespace GlyphScript

namespace Gensym

theorem symbol_injective (g : Gensym) (base : String) : Function.Injective (g.symbol base) := by
  intro m n h
  have h : (toString m).toList = (toString n).toList := by
    simpa [symbol, String.toList_append] using congrArg String.toList h
  have h := congrArg (Nat.ofDigitChars 10 · 0) h
  simpa [Nat.toString_eq_ofList_toDigits] using h

/-- Of the numbers from `number` on the search finds a free one, or all that it looks at are in
use. -/
theorem freeNumber_spec (g : Gensym) (base : String) (fuel number : Nat) :
    g.isTaken (g.symbol base (g.freeNumber base fuel number)) = false ∨
      (∀ i < fuel, g.isTaken (g.symbol base (number + i)) = true) ∧
        g.freeNumber base fuel number = number + fuel := by
  induction fuel generalizing number with
  | zero => exact .inr ⟨fun i h => absurd h i.not_lt_zero, rfl⟩
  | succ fuel ih =>
    by_cases h : g.isTaken (g.symbol base number)
    · rw [freeNumber, if_pos h]
      refine (ih (number + 1)).imp_right fun ⟨all, eq⟩ => ⟨?_, by omega⟩
      intro i hi
      cases i with
      | zero => exact h
      | succ i => rw [Nat.add_comm i, ← Nat.add_assoc]; exact all i (by omega)
    · rw [freeNumber, if_neg h]
      exact .inl (by simpa using h)

/-- More symbols than there are names in use are not all in use. -/
theorem exists_free (g : Gensym) (base : String) (number : Nat) :
    ∃ i ≤ g.taken.size, g.isTaken (g.symbol base (number + i)) = false := by
  by_contra none
  push Not at none
  have used : (List.range (g.taken.size + 1)).map (fun i => g.symbol base (number + i)) ⊆
      g.taken.toList := by
    intro s hs
    obtain ⟨i, hi, rfl⟩ := List.mem_map.mp hs
    rw [Std.TreeSet.mem_toList]
    simpa [isTaken] using none i (by simpa [Nat.lt_succ_iff] using hi)
  have nodup : ((List.range (g.taken.size + 1)).map fun i => g.symbol base (number + i)).Nodup :=
    List.nodup_range.map fun i j h => Nat.add_left_cancel (g.symbol_injective base h)
  have := (nodup.subperm used).length_le
  rw [List.length_map, List.length_range, Std.TreeSet.length_toList] at this
  omega

theorem isTaken_symbol_freeNumber (g : Gensym) (base : String) (number : Nat) :
    g.isTaken (g.symbol base (g.freeNumber base g.taken.size number)) = false := by
  rcases g.freeNumber_spec base g.taken.size number with h | ⟨all, eq⟩
  · exact h
  · obtain ⟨i, hi, free⟩ := g.exists_free base number
    rcases Nat.lt_or_eq_of_le hi with hi | rfl
    · rw [all i hi] at free
      nomatch free
    · rw [eq, free]

/-! ## Giving out symbols -/

/-- No symbol given out is in use. -/
theorem isTaken_fst_fresh (g : Gensym) (name : String) : g.isTaken (g.fresh name).1 = false :=
  g.isTaken_symbol_freeNumber ..

theorem isTaken_snd_fresh (g : Gensym) (name other : String) :
    (g.fresh name).2.isTaken other = true ↔ other = (g.fresh name).1 ∨ g.isTaken other = true := by
  rw [eq_comm (a := other)]
  simp only [fresh, isTaken, Std.TreeSet.contains_insert, Bool.or_eq_true, beq_iff_eq,
    Std.compare_eq_iff_eq]

theorem isTaken_reserve {g : Gensym} {names : List String} {x : String} :
    (g.reserve names).isTaken x = true ↔ x ∈ names ∨ g.isTaken x = true := by
  simp [isTaken, reserve, Std.TreeSet.contains_insertMany_list, or_comm]

end Gensym

end GlyphScript
