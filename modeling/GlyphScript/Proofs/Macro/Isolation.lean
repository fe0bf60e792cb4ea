import GlyphScript.Macro.Hygiene
import GlyphScript.Proofs.Macro.Fresh
import GlyphScript.Proofs.Macro.Names

/-!
# Renaming apart

Renaming a template apart leaves its shape and the names inside quotes alone.
Outside quotes every name is kept, or gives way to a symbol that was not in use.
-/

namespace GlyphScript

/-- What stands for `x` in a template that has been renamed apart. -/
def Apart (keep : List String) (g : Gensym) (x y : String) : Prop :=
  if x ∈ keep ∨ x = wildcard then y = x else g.isTaken y = false

/-- As `Apart` outside quotes, and equality inside them. -/
def ApartAt (keep : List String) (g : Gensym) (a b : Depths × String) : Prop :=
  b.1 = a.1 ∧ if a.1.isolation = 0 then Apart keep g a.2 b.2 else b.2 = a.2

/-- Since `g` names have only been put into use, and the symbols of the table were free then. -/
def Since (g : Gensym) (s : RenameTable × Gensym) : Prop :=
  (∀ e ∈ s.1.entries, g.isTaken e.2 = false) ∧ ∀ x, g.isTaken x = true → s.2.isTaken x = true

namespace Since

theorem start (g : Gensym) : Since g (RenameTable.empty, g) :=
  ⟨fun _ h => (List.not_mem_nil h).elim, fun _ h => h⟩

end Since

variable {keep : List String} {g : Gensym}

/-- What results as long as symbols are made for names of one template. -/
abbrev isolation (g : Gensym) : Guarantee IsolateM := .state (Since g)

theorem rename_fresh (x : String) :
    (isolation g).holds (RenameTable.rename x) fun y => g.isTaken y = false := by
  rintro ⟨t, g'⟩ ⟨table, used⟩
  rw [RenameTable.rename]
  cases h : t.find? x with
  | some y => exact ⟨table _ (mem_of_lookup h), table, used⟩
  | none =>
    have free : g.isTaken (g'.fresh x).1 = false := by
      by_contra taken
      have := used _ (by simpa using taken)
      rw [g'.isTaken_fst_fresh] at this
      nomatch this
    refine ⟨free, ?_, fun y hy => (g'.isTaken_snd_fresh x y).mpr (.inr (used y hy))⟩
    intro e he
    rcases List.mem_append.mp he with he | he
    · exact table e he
    · rw [List.mem_singleton.mp he]
      exact free

theorem isolatedName_apart (x : String) :
    (isolation g).holds (Node.isolatedName keep x) (Apart keep g x) := by
  by_cases h : x ∈ keep ∨ x = wildcard
  · rw [Node.isolatedName, if_pos (by simpa using h)]
    exact (isolation g).pure (by rw [Apart, if_pos h])
  · rw [Node.isolatedName, if_neg (by simpa using h)]
    exact (isolation g).mono (rename_fresh x) fun y hy => by rwa [Apart, if_neg h]

theorem isolatedHead_renamed (h : Head) :
    (isolation g).holds (Node.isolatedHead keep h) (Head.Renamed (Apart keep g) h) := by
  cases h
  case identifier x =>
    refine (isolation g).bind (isolatedName_apart x) fun y hy => ?_
    exact (isolation g).pure ⟨.cons hy .nil, rfl, fun h => nomatch h⟩
  all_goals
    exact (isolation g).mapBindersM (fun _ x _ => isolatedName_apart x) fun _ h => nomatch h

namespace Node

/-- The second tree is the first with its names renamed apart, where it stands at `depth`. -/
structure Isolated (keep : List String) (g : Gensym) (depth : Nat) (n n' : Node) : Prop where
  shaped : n.Shaped → n'.Shaped
  names : ∀ level (d : Depths), d.isolation = depth →
    List.Forall₂ (ApartAt keep g) (n.namesIn (Depths.inside level) d)
      (n'.namesIn (Depths.inside level) d)

theorem Isolated.node {depth : Nat} {span : Span} {h h' : Head} {slots slots' : List (Slot Node)}
    (head : Head.Renamed (fun x y => if depth = 0 then Apart keep g x y else y = x) h h')
    (rel : List.Forall₂ (Slot.Rel (Isolated keep g (h.innerDepth depth))) slots slots') :
    Isolated keep g depth (.mk span h slots) (.mk span h' slots') where
  shaped hs := hs.of_rel head.fields rel fun _ _ r => r.shaped
  names level d hd := by
    rw [namesIn_mk, namesIn_mk, Depths.inside_renamed head]
    refine List.rel_append ?_ ?_
    · rw [List.forall₂_map_left_iff, List.forall₂_map_right_iff]
      refine head.names.imp fun x y r => ⟨rfl, ?_⟩
      rwa [hd]
    · refine List.rel_flatMap rel fun s s' r => List.rel_flatMap r.toList fun n n' r => ?_
      exact r.names level _ (by rw [Depths.inside, hd])

theorem isolate_isolated (n : Node) (depth : Nat) :
    (isolation g).holds (n.transformM (isolating keep) depth) (Isolated keep g depth n) := by
  refine (isolation g).transformM (E := fun d n d' => d' = n.head.innerDepth d)
    (fun d n => (isolation g).pure rfl) ?_ n depth
  rintro d span head slots _ slots' rfl rel
  have rel := rel.imp fun _ _ r => Guarantee.Filled.rel r
  by_cases hd : d = 0
  · simp only [isolating, if_pos hd]
    refine (isolation g).bind (isolatedHead_renamed head) fun head' hh => ?_
    exact (isolation g).pure (.node (by simpa only [if_pos hd] using hh) rel)
  · simp only [isolating, if_neg hd]
    exact (isolation g).pure (.node (.refl fun x _ => by rw [if_neg hd]) rel)

end Node

end GlyphScript
