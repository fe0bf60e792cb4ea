import GlyphScript.Proofs.Macro.Renaming
import GlyphScript.Proofs.Macro.Respelling
import GlyphScript.Proofs.Macro.Symbols

/-!
# Renaming apart and back

Renaming a template apart changes names one by one, each by the table that
comes with the result, and the table read backwards gives the template again.
-/

namespace GlyphScript

/-- A symbol ends with a digit. -/
theorem Gensym.symbol_ne_wildcard (g : Gensym) (base : String) (n : Nat) :
    g.symbol base n ≠ wildcard := by
  intro same
  have chars : base.toList ++ (g.separator.toList ++ Nat.toDigits 10 n) = ['_'] := by
    have chars := congrArg String.toList same
    simp only [symbol, String.toList_append, Nat.toString_eq_ofList_toDigits, String.toList_ofList,
      List.append_assoc] at chars
    exact chars
  rw [← List.append_assoc] at chars
  rcases List.append_eq_singleton_iff.mp chars with ⟨-, number⟩ | ⟨-, none⟩
  · have digit := digits_of_toDigits n '_' (by rw [number]; exact List.mem_cons_self)
    exact absurd digit (by decide)
  · exact absurd none Nat.toDigits_ne_nil

/-! ## Tables -/

namespace RenameTable

/-- The symbol of a name that has one. -/
def symbolOf (t : RenameTable) (x : String) : String := (t.find? x).getD x

/-- The name that a symbol stands for; what is no symbol of the table stands for itself. -/
def nameOf (t : RenameTable) (y : String) : String :=
  ((t.entries.find? (·.2 = y)).map (·.1)).getD y

/-- What becomes of a name at a quote level when a template is renamed apart. -/
def respelling (t : RenameTable) (keep : List String) (depth : Nat) (x : String) : String :=
  if depth = 0 ∧ x ∉ keep ∧ x ≠ wildcard then t.symbolOf x else x

/-- No name is entered twice and no symbol stands for two names. -/
structure Injective (t : RenameTable) : Prop where
  names : (t.entries.map (·.1)).Nodup
  apart : ∀ e ∈ t.entries, ∀ e' ∈ t.entries, e.2 = e'.2 → e.1 = e'.1

variable {t : RenameTable} {x y : String}

theorem find?_of_mem (names : (t.entries.map (·.1)).Nodup) (h : (x, y) ∈ t.entries) :
    t.find? x = some y := by
  obtain ⟨before, after, split⟩ := List.append_of_mem h
  rw [split, List.map_append, List.map_cons] at names
  have first : ∀ e ∈ before, e.1 ≠ x := by
    intro e he same
    exact (List.nodup_append.mp names).2.2 e.1 (List.mem_map_of_mem he) x List.mem_cons_self same
  unfold find?
  rw [split, List.lookup_eq_some_iff]
  exact ⟨before, after, rfl, fun e he => by simpa using (first e he).symm⟩

theorem symbolOf_of_mem (h : t.Injective) (mem : (x, y) ∈ t.entries) : t.symbolOf x = y := by
  rw [symbolOf, find?_of_mem h.names mem, Option.getD_some]

theorem nameOf_of_mem (h : t.Injective) (mem : (x, y) ∈ t.entries) : t.nameOf y = x := by
  unfold nameOf
  cases found : t.entries.find? (·.2 = y) with
  | none =>
    have := List.find?_eq_none.mp found _ mem
    simp at this
  | some e =>
    have symbol : e.2 = y := by simpa using List.find?_some found
    exact h.apart e (List.mem_of_find?_eq_some found) _ mem symbol

theorem nameOf_of_not_mem (h : y ∉ t.symbols) : t.nameOf y = y := by
  have none : t.entries.find? (·.2 = y) = none := by
    rw [List.find?_eq_none]
    intro e he same
    exact h (List.mem_map.mpr ⟨e, he, by simpa using same⟩)
  rw [nameOf, none, Option.map_none, Option.getD_none]

theorem injective_empty : empty.Injective := by
  constructor
  · exact List.nodup_nil
  · intro e he
    exact absurd he List.not_mem_nil

end RenameTable

/-- As `Named`, with a table that can be read both ways. -/
structure Tabled (g : Gensym) (s : RenameTable × Gensym) : Prop extends Named g s where
  names : (s.1.entries.map (·.1)).Nodup

variable {g : Gensym} {w : RenameTable × Gensym} {keep : List String}

namespace Tabled

variable {s : RenameTable × Gensym}

theorem injective (h : Tabled g s) : s.1.Injective := ⟨h.names, h.apart⟩

theorem start (g : Gensym) : Tabled g (RenameTable.empty, g) :=
  ⟨Named.start g, RenameTable.injective_empty.names⟩

/-- No symbol was in use when the renaming began. -/
theorem free (h : Tabled g s) {y : String} (hy : y ∈ s.1.symbols) : g.isTaken y = false := by
  obtain ⟨e, he, rfl⟩ := List.mem_map.mp hy
  obtain ⟨g', le, x, made⟩ := h.given e he
  by_contra taken
  exact Gensym.avoids_of_isTaken (by simpa using taken) g' le x made

end Tabled

/-- What becomes known while the names of one template are entered in a table. -/
abbrev tabling (g : Gensym) : Assurance IsolateM (RenameTable × Gensym) := .state id (Tabled g)

theorem rename_tabled (x : String) :
    (tabling g).holds w (RenameTable.rename x) fun w y => (x, y) ∈ w.1.entries := by
  intro s tabled le
  obtain ⟨le', named, mem⟩ := rename_named (g := g) x s tabled.toNamed le
  refine ⟨le', ⟨named, ?_⟩, mem⟩
  obtain ⟨t, g'⟩ := s
  rw [RenameTable.rename]
  cases unknown : t.find? x with
  | some y => exact tabled.names
  | none =>
    have new : x ∉ t.entries.map (·.1) := by
      intro hx
      obtain ⟨e, he, rfl⟩ := List.mem_map.mp hx
      have := List.lookup_eq_none_iff.mp unknown e he
      simp at this
    simp only [RenameTable.push, List.map_append, List.map_cons, List.map_nil]
    rw [List.nodup_append]
    refine ⟨tabled.names, List.nodup_singleton _, fun a ha b hb => ?_⟩
    obtain rfl : b = x := by simpa using hb
    rintro rfl
    exact new ha

theorem isolatedName_tabled (x : String) :
    (tabling g).holds w (Node.isolatedName keep x) fun w => Spelling keep w.1 0 x := by
  by_cases h : x ∈ keep ∨ x = wildcard
  · rw [Node.isolatedName, if_pos (by simpa using h)]
    refine (tabling g).pure fun _ _ => ?_
    rw [Spelling, if_neg]
    rintro ⟨-, unkept, tame⟩
    exact h.elim unkept tame
  · rw [Node.isolatedName, if_neg (by simpa using h)]
    rw [not_or] at h
    apply (tabling g).mono (rename_tabled x)
    · intro w' y _ mem
      rw [Spelling, if_pos ⟨rfl, h⟩]
      exact mem
    · intro w' w'' y le spelled
      exact spelled.mono le.1

theorem isolatedHead_tabled (h : Head) :
    (tabling g).holds w (Node.isolatedHead keep h) fun w => h.RenamedTo (Spelling keep w.1 0) := by
  have lasting : ∀ (w w' : RenameTable × Gensym) (h' : Head), w ≤ w' →
      h.RenamedTo (Spelling keep w.1 0) h' → h.RenamedTo (Spelling keep w'.1 0) h' := by
    rintro w w' h' le ⟨ys, names, made⟩
    exact ⟨ys, names.imp fun _ _ => .mono le.1, made⟩
  by_cases name : ∃ x, h = .identifier x
  · obtain ⟨x, rfl⟩ := name
    refine (tabling g).bind (isolatedName_tabled x) fun w' y _ spelled => ?_
    refine (tabling g).pure fun w'' le => lasting _ _ _ le ?_
    exact ⟨[y], .cons spelled .nil, rfl⟩
  · have other : ∀ x, h ≠ .identifier x := fun x hx => name ⟨x, hx⟩
    have renamed : Node.isolatedHead keep h = h.mapBindersM fun _ => Node.isolatedName keep := by
      cases h <;> first | rfl | exact absurd rfl (other _)
    have own : h.ownNames = h.binders.map (·.2) := by
      rw [h.map_snd_binders]
      cases h <;> first | rfl | exact absurd rfl (other _)
    have names : (tabling g).holds w (h.binders.mapM fun b => Node.isolatedName keep b.2)
        fun w => List.Forall₂ (fun b y => Spelling keep w.1 0 b.2 y) h.binders := by
      apply (tabling g).mapM (p := fun _ _ => True)
        (q := fun w (b : Head.BinderPosition × String) y => Spelling keep w.1 0 b.2 y)
      · exact fun _ _ _ _ _ => trivial
      · exact fun _ _ b y le spelled => Spelling.mono le.1 spelled
      · exact fun b _ w' _ _ => isolatedName_tabled b.2
      · exact fun _ _ => trivial
    rw [renamed, Head.mapBindersM_eq _ other]
    refine (tabling g).map names (fun w' ys _ names => ⟨ys, ?_, rfl⟩) lasting
    rw [own, List.forall₂_map_left_iff]
    exact names

namespace Node

theorem RenamedTo.mono {t t' : RenameTable} (le : t ≤ t') {depth : Nat} {n n' : Node}
    (h : n.RenamedTo (Spelling keep t) depth n') : n.RenamedTo (Spelling keep t') depth n' :=
  h.imp fun _ _ _ => .mono le

theorem isolate_renamed (keep : List String) (n : Node) (depth : Nat) :
    (tabling g).holds w (n.transformM (isolating keep) depth) fun w =>
      n.RenamedTo (Spelling keep w.1) depth := by
  refine (tabling g).transformM (I := fun _ _ => True)
    (R := fun w depth n n' => n.RenamedTo (Spelling keep w.1) depth n')
    (E := fun d n d' => d' = n.head.innerDepth d) (fun _ _ _ _ h => h)
    (fun _ _ _ _ _ le h => h.mono le.1) (fun _ _ _ _ _ _ _ _ _ => trivial)
    ?_ ?_ n w depth trivial
  · intro w d n _
    exact (tabling g).pure fun w' _ => rfl
  · intro w d span head slots d' slots' _ inner rel
    subst inner
    have later : ∀ w', w ≤ w' → List.Forall₂
        (Slot.Rel fun n n' => n.RenamedTo (Spelling keep w'.1) (head.innerDepth d) n')
        slots slots' := by
      intro w' le
      exact rel.imp fun _ _ r => (Guarantee.Filled.rel r).imp fun _ _ r => r.mono le.1
    by_cases outside : d = 0
    · subst outside
      simp only [isolating, if_true]
      refine (tabling g).bind (isolatedHead_tabled head) fun w₁ head' le₁ names => ?_
      refine (tabling g).pure fun w₂ le₂ => renamedTo_mk.mpr ⟨head', slots', rfl, ?_, ?_⟩
      · obtain ⟨ys, names, made⟩ := names
        exact ⟨ys, names.imp fun _ _ => .mono le₂.1, made⟩
      · exact later w₂ (le_trans le₁ le₂)
    · simp only [isolating, if_neg outside]
      refine (tabling g).pure fun w₁ le₁ => renamedTo_mk.mpr ⟨head, slots', rfl, ?_, later w₁ le₁⟩
      refine ⟨head.ownNames, List.forall₂_same.mpr fun x _ => ?_, (head.withNames_ownNames).symm⟩
      rw [Spelling, if_neg fun h => outside h.1]

/-- A name that stands outside quotes and is renamed there. -/
def IsMovable (n : Node) (keep : List String) (x : String) : Prop :=
  x ∈ n.namesOutside 0 ∧ x ∉ keep ∧ x ≠ wildcard

theorem exists_of_mem_namesAt {n : Node} {depth : Nat} {p : Nat × String}
    (h : p ∈ n.namesAt depth) : ∃ m ∈ n.walk, p.2 ∈ m.head.ownNames :=
  mem_ownNames_of_mem_namesIn h

/-- The table has the symbols of all names that move, as different as the names and new to the
gensym. -/
structure IsolatedBy (n : Node) (keep : List String) (g : Gensym) (t : RenameTable) (g' : Gensym) :
    Prop where
  entered : ∀ x, n.IsMovable keep x → t.symbolOf x ∈ t.symbols
  apart : ∀ x y, n.IsMovable keep x → n.IsMovable keep y → t.symbolOf x = t.symbolOf y → x = y
  back : ∀ x, n.IsMovable keep x → t.nameOf (t.symbolOf x) = x
  free : ∀ y ∈ t.symbols, g.isTaken y = false
  used : ∀ y ∈ t.symbols, g'.isTaken y = true
  tame : wildcard ∉ t.symbols
  later : g ≤ g'

theorem withHygiene_isolatedBy (n : Node) (keep : List String) (g : Gensym) :
    ∃ t g', n.withHygiene .isolate keep g = (n.mapNames (t.respelling keep) 0, some t, g') ∧
      n.IsolatedBy keep g t g' := by
  obtain ⟨-, tabled, renamed⟩ :=
    isolate_renamed keep n 0 (RenameTable.empty, g) (Tabled.start g) (le_refl _)
  rcases run : n.transformM (isolating keep) 0 (RenameTable.empty, g) with ⟨n', t, g'⟩
  rw [run] at tabled renamed
  have injective : t.Injective := tabled.injective
  have entered : ∀ x, n.IsMovable keep x → (x, t.symbolOf x) ∈ t.entries := by
    intro x ⟨outside, unkept, tame⟩
    obtain ⟨y, spelled⟩ := renamed.related _ (mem_namesOutside.mp outside)
    rw [Spelling, if_pos ⟨rfl, unkept, tame⟩] at spelled
    rwa [RenameTable.symbolOf_of_mem injective spelled]
  have respelled : n' = n.mapNames (t.respelling keep) 0 := by
    apply renamed.eq_mapNames
    intro p _ y spelled
    unfold Spelling at spelled
    unfold RenameTable.respelling
    by_cases moved : p.1 = 0 ∧ p.2 ∉ keep ∧ p.2 ≠ wildcard
    · rw [if_pos moved] at spelled ⊢
      exact (RenameTable.symbolOf_of_mem injective spelled).symm
    · rw [if_neg moved] at spelled ⊢
      exact spelled
  refine ⟨t, g', ?_, ?_⟩
  · rw [← respelled]
    simp only [withHygiene, isolate, run]
  · constructor
    · intro x hx
      exact List.mem_map_of_mem (entered x hx)
    · intro x y hx hy same
      exact injective.apart _ (entered x hx) _ (entered y hy) same
    · intro x hx
      exact RenameTable.nameOf_of_mem injective (entered x hx)
    · intro y hy
      exact tabled.free hy
    · intro y hy
      obtain ⟨e, he, rfl⟩ := List.mem_map.mp hy
      exact tabled.used e he
    · intro wild
      obtain ⟨e, he, same⟩ := List.mem_map.mp wild
      obtain ⟨g'', -, x, made⟩ := tabled.given e he
      exact g''.symbol_ne_wildcard _ _ (made.trans same)
    · exact tabled.later

/-- Renaming apart changes nothing but names outside quotes that are neither kept nor the wildcard,
each to its symbol in the table. The symbols are as different as the names, none of them was in use
before, so that none occurs in a template whose names were, and putting the names back for their
symbols gives the template again. -/
theorem withHygiene_reversible (n : Node) (keep : List String) (g : Gensym)
    (reserved : ∀ m ∈ n.walk, ∀ x ∈ m.head.ownNames, g.isTaken x = true) :
    ∃ n' t g', n.withHygiene .isolate keep g = (n', some t, g') ∧
      n' = n.mapNames (t.respelling keep) 0 ∧
      (∀ x, n.IsMovable keep x → t.symbolOf x ∈ t.symbols) ∧
      (∀ x y, n.IsMovable keep x → n.IsMovable keep y → (t.symbolOf x = t.symbolOf y ↔ x = y)) ∧
      (∀ y ∈ t.symbols, g.isTaken y = false ∧ ∀ m ∈ n.walk, y ∉ m.head.ownNames) ∧
      n'.mapNames (fun _ => t.nameOf) 0 = n := by
  obtain ⟨t, g', run, isolated⟩ := n.withHygiene_isolatedBy keep g
  have absent : ∀ y ∈ t.symbols, ∀ m ∈ n.walk, y ∉ m.head.ownNames := by
    intro y hy m hm own
    have taken := reserved m hm y own
    rw [isolated.free y hy] at taken
    cases taken
  refine ⟨_, t, g', run, rfl, isolated.entered, fun x y hx hy => ⟨isolated.apart x y hx hy, ?_⟩,
    fun y hy => ⟨isolated.free y hy, absent y hy⟩, ?_⟩
  · rintro rfl
    rfl
  · rw [mapNames_mapNames]
    apply mapNames_of_fixed
    rintro ⟨d, x⟩ hx
    unfold RenameTable.respelling
    by_cases moved : d = 0 ∧ x ∉ keep ∧ x ≠ wildcard
    · obtain ⟨rfl, movable⟩ := moved
      rw [if_pos ⟨rfl, movable⟩]
      exact isolated.back x ⟨mem_namesOutside.mpr hx, movable⟩
    · simp only [if_neg moved]
      apply RenameTable.nameOf_of_not_mem
      intro symbol
      obtain ⟨m, hm, own⟩ := exists_of_mem_namesAt hx
      exact absent x symbol m hm own

/-- An assignment whose target is read inside and outside a quote. -/
def counting : Node :=
  .assignment default "x" (.call default (.identifier default "k")
    [.identifier default "x", .quote default (.identifier default "x"), .identifier default "y"])

/-- The case of `counting` with one name kept and the first symbol of another in use. -/
theorem withHygiene_reversible_counting :
    (∀ m ∈ counting.walk, ∀ x ∈ m.head.ownNames,
      (Gensym.ofNames "%" (.ofList ["k", "x", "x%1", "y"])).isTaken x = true) ∧
    ((counting.withHygiene .isolate ["k"]
      (Gensym.ofNames "%" (.ofList ["k", "x", "x%1", "y"]))).2.1.map (·.entries) =
        some [("x", "x%2"), ("y", "y%1")]) ∧
    ∃ n' t g', counting.withHygiene .isolate ["k"]
        (Gensym.ofNames "%" (.ofList ["k", "x", "x%1", "y"])) = (n', some t, g') ∧
      n'.mapNames (fun _ => t.nameOf) 0 = counting := by
  have reserved : ∀ m ∈ counting.walk, ∀ x ∈ m.head.ownNames,
      (Gensym.ofNames "%" (.ofList ["k", "x", "x%1", "y"])).isTaken x = true := by
    decide
  obtain ⟨n', t, g', run, -, -, -, -, back⟩ := counting.withHygiene_reversible ["k"] _ reserved
  exact ⟨reserved, by decide, n', t, g', run, back⟩

end Node

end GlyphScript
