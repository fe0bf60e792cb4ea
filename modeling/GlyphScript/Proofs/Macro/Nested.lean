import GlyphScript.Proofs.Comparison
import GlyphScript.Proofs.Macro.Equivalence
import GlyphScript.Proofs.Safety.Expansion

/-!
# Macros that come out of expansions

A template that is renamed apart may define macros. The parameters of such a
macro are not renamed, so its copy in an expansion does what the macro itself
would do as long as no use of a parameter is renamed either, and as long as the
names of each of its templates are renamed everywhere or nowhere.
-/

namespace GlyphScript

open Node (outside)

/-! ## Scopes -/

/-- The name is renamed where it stands. -/
def Depths.Moves (keep : List String) (p : Depths × String) : Prop :=
  p.1.isolation = 0 ∧ p.2 ∉ keep ∧ p.2 ≠ wildcard

instance (keep : List String) (p : Depths × String) : Decidable (Depths.Moves keep p) :=
  inferInstanceAs (Decidable (_ ∧ _ ∧ _))

/-- What is renamed in a scope, a pattern with a template or a template alone, leaves the scope as
it is: it stands outside quotes in the result, and so it does everywhere, and no parameter is
renamed but where the pattern binds the name again. -/
structure Depths.Intact (keep params bound : List String) (names : List (Depths × String)) : Prop where
  outermost : ∀ p ∈ names, Moves keep p → p.1.result = 0
  whole : ∀ p ∈ names, Moves keep p → ∀ q ∈ names, q.2 = p.2 → q.1.result = 0 → q.1.isolation = 0
  linked : ∀ p ∈ names, Moves keep p → p.2 ∈ params → p.2 ∈ bound

/-- How the names of a scope are spelled after renaming. -/
def RenameTable.spelling (t : RenameTable) (keep : List String) (names : List (Depths × String))
    (x : String) : String :=
  if ∃ p ∈ names, p.2 = x ∧ Depths.Moves keep p then t.symbolOf x else x

/-- All scopes of a macro that is defined in a template at the given levels are intact. -/
structure MacroDefinition.Intact (keep : List String) (level : Nat) (d : Depths)
    (m : MacroDefinition) : Prop where
  rules : ∀ r ∈ m.rules, ∀ pattern template, r.slots = [.one pattern, .one template] →
    Depths.Intact keep m.params pattern.bindNames
      (pattern.namesIn (Depths.inside level) ⟨d.isolation, d.filling, 0⟩ ++
        template.namesIn (Depths.inside level) ⟨d.isolation, d.filling, 0⟩)
  template : ∀ body, m.templateBody? = some body → Depths.Intact keep m.params []
    (body.namesIn (Depths.inside level) ⟨d.isolation + 1, d.filling + 1, 0⟩)

/-! ## A template renamed and filled -/

/-- A template that has been renamed apart and what it is to be filled with: all names are in use,
and what is put in mentions no name that is renamed. -/
structure Renaming (f : Filling) (template : Node) (keep : List String) (g : Gensym)
    (t : RenameTable) (g' : Gensym) : Prop where
  isolated : template.IsolatedBy keep g t g'
  kept : ∀ x ∈ f.bindings.names, x ∈ keep
  written : ∀ m ∈ template.walk, ∀ x ∈ m.head.names, g.isTaken x = true
  known : ∀ x ∈ f.bindings.names, g.isTaken x = true
  passed : ∀ b ∈ f.bindings, ∀ m ∈ b.2.walk, ∀ x ∈ m.head.ownNames, g.isTaken x = true
  apart : ∀ b ∈ f.bindings, ∀ m ∈ b.2.walk, ∀ x ∈ m.head.ownNames, ¬ template.IsMovable keep x

theorem Head.mem_names_of_own {h : Head} {x : String} (hx : x ∈ h.ownNames) : x ∈ h.names := by
  cases h
  case importDecl path alias? => exact List.mem_append_right _ hx
  all_goals first | exact hx | cases hx

theorem Head.RenamedTo.eq_of_none {R : String → String → Prop} {h h' : Head}
    (none : h.ownNames = []) (r : h.RenamedTo R h') : h' = h := by
  obtain ⟨ys, names, rfl⟩ := r
  rw [none] at names
  cases names
  have same := h.withNames_ownNames
  rwa [none] at same

theorem Node.mapNames_plain {span : Span} {head : Head} {slots : List (Slot Node)}
    (none : head.ownNames = []) (f : Nat → String → String) (depth : Nat) :
    (mk span head slots).mapNames f depth =
      mk span head (slots.map (Slot.map fun n => n.mapNames f (head.innerDepth depth))) := by
  rw [mapNames_mk, Head.mapNames_of_fixed]
  rw [none]
  exact fun x hx => absurd hx List.not_mem_nil

namespace Filling

variable {f : Filling} {n n' : Node} {depth : Nat}

/-- Of a node without names only the children are filled. -/
theorem fills_plain {span : Span} {head : Head} {slots : List (Slot Node)}
    (none : head.ownNames = []) (solid : head ≠ .unquote) :
    f.Fills (depth, .mk span head slots) n' ↔ ∃ slots', n' = .mk span head slots' ∧
      List.Forall₂ (Slot.Rel fun n m => f.Fills (head.innerDepth depth, n) m) slots slots' := by
  have other : ∀ x, head ≠ .identifier x := by
    rintro x rfl
    cases none
  rw [fills_node other fun _ unquote _ => absurd unquote solid]
  constructor
  · rintro ⟨head', slots', rfl, names, rel⟩
    rw [names.eq_of_none none]
    exact ⟨slots', rfl, rel⟩
  · rintro ⟨slots', rfl, rel⟩
    refine ⟨head, slots', rfl, ⟨[], ?_, ?_⟩, rel⟩
    · rw [none]
      exact .nil
    · rw [← none, head.withNames_ownNames]

/-- The names of what a template becomes are its own and those of what is put in. -/
theorem Fills.names {P : String → Prop} (own : ∀ m ∈ n.walk, ∀ x ∈ m.head.ownNames, P x)
    (passed : ∀ b ∈ f.bindings, ∀ m ∈ b.2.walk, ∀ x ∈ m.head.ownNames, P x)
    (h : f.Fills (depth, n) n') : ∀ m ∈ n'.walk, ∀ x ∈ m.head.ownNames, P x := by
  induction n using Node.induction_on generalizing depth n' with
  | step span head slots ih =>
    have below : ∀ s ∈ slots, ∀ k ∈ s.toList, ∀ m ∈ k.walk, ∀ x ∈ m.head.ownNames, P x := by
      intro s hs k hk m hm
      exact own m (Node.mem_walk_mk.mpr (.inr ⟨s, hs, k, hk, hm⟩))
    obtain ⟨x, rfl⟩ | ⟨rfl, ⟨e, rfl⟩, shallow⟩ | ⟨other, deep⟩ := f.template_cases depth head slots
    · rcases fills_identifier.mp h with ⟨-, found⟩ | ⟨-, rfl⟩
      · exact passed _ (mem_of_lookup found)
      · exact own
    · exact ih _ List.mem_cons_self e (List.mem_singleton_self e)
        (below _ List.mem_cons_self e (List.mem_singleton_self e)) ((fills_unquote shallow).mp h)
    · obtain ⟨head', slots', rfl, ⟨ys, names, rfl⟩, rel⟩ := (fills_node other deep).mp h
      intro m hm x hx
      rcases Node.mem_walk_mk.mp hm with rfl | ⟨s', hs', k', hk', hm⟩
      · rw [Node.head, Head.ownNames_withNames names.length_eq.symm] at hx
        obtain ⟨y, hy, renames⟩ := exists_of_mem_right names hx
        have same : y = x → P x := by
          rintro rfl
          exact own _ (Node.mem_walk_self _) y hy
        by_cases outermost : depth = 0
        · rw [if_pos outermost, Renames] at renames
          cases found : f.bindings.lookup y with
          | none =>
            rw [found] at renames
            exact same renames.symm
          | some bound =>
            rw [found] at renames
            refine passed _ (mem_of_lookup found) bound bound.mem_walk_self x ?_
            rw [renames]
            exact List.mem_singleton_self x
        · rw [if_neg outermost] at renames
          exact same renames.symm
      · obtain ⟨s, hs, k, hk, r⟩ := Slot.exists_of_mem_rel rel hs' hk'
        exact ih s hs k hk (below s hs k hk) r m hm x hx

end Filling

theorem Node.Sorted.shaped {n : Node} (h : n.Sorted) : n.Shaped := by
  rintro ⟨span, head, slots⟩ hm
  have fits : List.Forall₂ (fun f s => f.1.Fits s ∧ ∀ m ∈ s.toList, f.2.admits m.head = true)
    head.sorts slots := h _ hm
  show List.Forall₂ (fun f s => f.1.Fits s) head.fields slots
  by_cases loop : ∃ x, head = .loopStmt (some x)
  · obtain ⟨x, rfl⟩ := loop
    obtain _ | ⟨⟨⟨⟩, -⟩, _ | ⟨⟨body, -⟩, ⟨⟩⟩⟩ := fits
    exact .cons .present (.cons body .nil)
  · have same : head.sorts = head.fields := by
      unfold Head.sorts
      split
      · exact absurd ⟨_, rfl⟩ loop
      · rfl
    rw [← same]
    exact fits.imp fun _ _ field => field.1

theorem Node.OfSort.template_cases {q : Node} (h : q.OfSort .template) :
    ∃ span body, q = .mk span .quote [.one body] := by
  obtain ⟨sorted, admitted⟩ := h
  obtain ⟨span, head, slots⟩ := q
  obtain rfl : head = .quote := of_decide_eq_true admitted
  obtain _ | ⟨field, ⟨⟩⟩ := sorted_mk.mp sorted
  obtain ⟨body, rfl, -⟩ := field.one
  exact ⟨span, body, rfl⟩

theorem Node.OfSort.rule_cases {r : Node} (h : r.OfSort .rule) :
    ∃ span isTransform pattern body,
      r = .mk span (.macroRule isTransform) [.one pattern, .one body] ∧ pattern.OfSort .pattern := by
  obtain ⟨sorted, admitted⟩ := h
  obtain ⟨span, head, slots⟩ := r
  cases head
  case macroRule isTransform =>
    cases isTransform <;>
    · obtain _ | ⟨first, _ | ⟨second, ⟨⟩⟩⟩ := sorted_mk.mp sorted
      obtain ⟨p, rfl, hp⟩ := first.one
      obtain ⟨b, rfl, -⟩ := second.one
      exact ⟨span, _, p, b, rfl, hp⟩
  all_goals cases admitted

namespace Filling

variable {f : Filling} {p p₀ : Node} {depth : Nat}

theorem fills_rule {span : Span} {isTransform : Bool} {body n' : Node} :
    f.Fills (depth, .mk span (.macroRule isTransform) [.one p, .one body]) n' ↔
      ∃ p' body', n' = .mk span (.macroRule isTransform) [.one p', .one body'] ∧
        f.Fills (depth, p) p' ∧ f.Fills (depth, body) body' := by
  rw [fills_plain rfl (by rintro ⟨⟩)]
  constructor
  · rintro ⟨slots', rfl, rel⟩
    obtain ⟨_, _, first, rest, rfl⟩ := List.forall₂_cons_left_iff.mp rel
    obtain ⟨_, _, second, none, rfl⟩ := List.forall₂_cons_left_iff.mp rest
    obtain rfl := List.forall₂_nil_left_iff.mp none
    obtain ⟨p', hp, rfl⟩ := Slot.rel_one_left.mp first
    obtain ⟨body', hbody, rfl⟩ := Slot.rel_one_left.mp second
    exact ⟨p', body', rfl, hp, hbody⟩
  · rintro ⟨p', body', rfl, hp, hbody⟩
    exact ⟨_, rfl, .cons (.one hp) (.cons (.one hbody) .nil)⟩

theorem Fills.ofSort_pattern (passed : Node.Expressions f.bindings) (sorted : p.OfSort .pattern)
    (h : f.Fills (depth, p) p₀) : p₀.OfSort .pattern :=
  (Node.substitute_givesWay passed p depth p₀ (transformM_eq_ok_iff.mpr h) sorted.sorted).ofSort
    sorted.admitted p₀ (List.mem_singleton_self p₀)

/-- A variable of a pattern stays one if nothing is bound to it. -/
theorem Fills.bindNames (sorted : p.OfSort .pattern) (h : f.Fills (depth, p) p₀) :
    ∀ x ∈ p.bindNames, f.bindings.lookup x = none → x ∈ p₀.bindNames := by
  intro x hx free
  have filled : p.Filled f depth p₀ := Node.substitute_filled (Gensym.ofNames "" ∅) p depth p₀
    (transformM_eq_ok_iff.mpr h)
  obtain ⟨-, names⟩ := filled.follows sorted.isPattern
  obtain ⟨y, hy, becomes⟩ := exists_of_mem_right names.flip hx
  rwa [← becomes (.inr free)]

theorem fills_quote {span : Span} {body n' : Node} :
    f.Fills (depth, .mk span .quote [.one body]) n' ↔
      ∃ body', n' = .mk span .quote [.one body'] ∧ f.Fills (depth + 1, body) body' := by
  rw [fills_plain rfl (by rintro ⟨⟩)]
  constructor
  · rintro ⟨slots', rfl, rel⟩
    obtain ⟨_, _, first, none, rfl⟩ := List.forall₂_cons_left_iff.mp rel
    obtain rfl := List.forall₂_nil_left_iff.mp none
    obtain ⟨body', hbody, rfl⟩ := Slot.rel_one_left.mp first
    exact ⟨body', rfl, hbody⟩
  · rintro ⟨body', rfl, hbody⟩
    exact ⟨_, rfl, .cons (.one hbody) .nil⟩

end Filling

theorem Node.mem_ownNames_of_bindNames {n : Node} {x : String} (h : x ∈ n.bindNames) :
    ∃ m ∈ n.walk, x ∈ m.head.ownNames := by
  obtain ⟨m, hm, named⟩ := List.mem_filterMap.mp h
  refine ⟨m, hm, ?_⟩
  rcases m with ⟨span, head, slots⟩
  cases head <;> simp_all [Head.bindName?, Head.ownNames, Head.boundNames, head]

namespace Renaming

variable {f : Filling} {template : Node} {keep : List String} {g g' : Gensym} {t : RenameTable}
  {names : List (Depths × String)}

theorem movable (within : ∀ p ∈ names, (p.1.isolation, p.2) ∈ template.namesAt 0) {p : Depths × String}
    (hp : p ∈ names) (moves : Depths.Moves keep p) : template.IsMovable keep p.2 := by
  have mem := within p hp
  rw [moves.1] at mem
  exact ⟨Node.mem_namesOutside.mpr mem, moves.2⟩

/-- A symbol is none of the names that were in use. -/
theorem fresh (h : Renaming f template keep g t g') {x y : String}
    (hx : template.IsMovable keep x) (hy : g.isTaken y = true) : t.symbolOf x ≠ y := by
  rintro rfl
  rw [h.isolated.free _ (h.isolated.entered x hx)] at hy
  cases hy

theorem unbound (h : Renaming f template keep g t g') {x : String}
    (hx : template.IsMovable keep x) :
    f.bindings.lookup x = none ∧ f.bindings.lookup (t.symbolOf x) = none := by
  constructor
  · apply Bindings.lookup_eq_none.mpr
    intro bound
    exact hx.2.1 (h.kept x bound)
  · apply Bindings.lookup_eq_none.mpr
    intro bound
    exact h.fresh hx (h.known _ bound) rfl

/-- Renaming does not change what is bound to a name. -/
theorem lookup (h : Renaming f template keep g t g') {i : Nat} {x : String}
    (hx : (i, x) ∈ template.namesAt 0) :
    f.bindings.lookup (t.respelling keep i x) = f.bindings.lookup x := by
  unfold RenameTable.respelling
  by_cases moves : i = 0 ∧ x ∉ keep ∧ x ≠ wildcard
  · obtain ⟨rfl, moves⟩ := moves
    obtain ⟨here, there⟩ := h.unbound ⟨Node.mem_namesOutside.mpr hx, moves⟩
    rw [if_pos ⟨rfl, moves⟩, here, there]
  · rw [if_neg moves]

/-! ## Scopes that stay intact -/

theorem spelling_cases (t : RenameTable) (keep : List String) (names : List (Depths × String))
    (x : String) :
    (∃ p ∈ names, p.2 = x ∧ Depths.Moves keep p) ∧ t.spelling keep names x = t.symbolOf x ∨
      (∀ p ∈ names, p.2 = x → ¬ Depths.Moves keep p) ∧ t.spelling keep names x = x := by
  unfold RenameTable.spelling
  by_cases moved : ∃ p ∈ names, p.2 = x ∧ Depths.Moves keep p
  · exact .inl ⟨moved, if_pos moved⟩
  · refine .inr ⟨fun p hp same moves => ?_, if_neg moved⟩
    exact moved ⟨p, hp, same, moves⟩

variable {params bound : List String}

/-- A part of an intact scope that has been renamed is filled as it would have been before, with its
names spelled in another way. -/
theorem fills (h : Renaming f template keep g t g')
    (within : ∀ p ∈ names, (p.1.isolation, p.2) ∈ template.namesAt 0)
    (intact : Depths.Intact keep params bound names) {n n₀ : Node} {i l : Nat}
    (part : ∀ p ∈ n.namesIn (Depths.inside f.level) ⟨i, l, 0⟩, p ∈ names) (shaped : n.Shaped)
    (plain : f.Fills (l, n) n₀) :
    f.Fills (l, n.mapNames (t.respelling keep) i)
      (n₀.mapNames (outside (t.spelling keep names)) 0) := by
  refine Filling.Fills.mapNames (d := ⟨i, l, 0⟩) (fun p hp reached m found => ?_)
    (fun p hp free => ?_) shaped plain
  · have kept : p.2 ∈ keep := by
      apply h.kept
      by_contra unknown
      rw [Bindings.lookup_eq_none.mpr unknown] at found
      cases found
    constructor
    · rw [RenameTable.respelling, if_neg]
      rintro ⟨-, unkept, -⟩
      exact unkept kept
    · apply Node.mapNames_of_fixed
      intro q hq
      rcases spelling_cases t keep names q.2 with ⟨⟨r, hr, same, moves⟩, -⟩ | ⟨-, fixed⟩
      · obtain ⟨k, hk, own⟩ := Node.exists_of_mem_namesAt hq
        rw [← same] at own
        exact absurd (movable within hr moves) (h.apart _ (mem_of_lookup found) k hk _ own)
      · rw [outside, fixed, ite_self]
  · have mem := part p hp
    have still : f.bindings.lookup (t.respelling keep p.1.isolation p.2) = f.bindings.lookup p.2 :=
      h.lookup (within p mem)
    refine ⟨?_, fun reached => ?_⟩
    · unfold outside RenameTable.respelling
      by_cases moves : Depths.Moves keep p
      · rw [if_pos (intact.outermost p mem moves),
          if_pos (show p.1.isolation = 0 ∧ p.2 ∉ keep ∧ p.2 ≠ wildcard from moves)]
        rcases spelling_cases t keep names p.2 with ⟨-, spelled⟩ | ⟨none, -⟩
        · exact spelled
        · exact absurd moves (none p mem rfl)
      · rw [if_neg (show ¬ (p.1.isolation = 0 ∧ p.2 ∉ keep ∧ p.2 ≠ wildcard) from moves)]
        by_cases top : p.1.result = 0
        · rw [if_pos top]
          rcases spelling_cases t keep names p.2 with ⟨⟨q, hq, same, moved⟩, -⟩ | ⟨-, spelled⟩
          · have unquoted := intact.whole q hq moved p mem same.symm top
            rw [Depths.Moves, same] at moved
            exact absurd ⟨unquoted, moved.2⟩ moves
          · exact spelled
        · rw [if_neg top]
    · rw [still]
      exact free.resolve_left fun deep => deep reached

/-- The names of an intact scope are spelled in accord with the parameters. -/
theorem accords (h : Renaming f template keep g t g')
    (within : ∀ p ∈ names, (p.1.isolation, p.2) ∈ template.namesAt 0)
    (intact : Depths.Intact keep params bound names) {bound₀ names₀ : List String}
    (taken : ∀ x ∈ bound₀ ++ names₀, g.isTaken x = true)
    (given : ∀ x ∈ params, g.isTaken x = true)
    (still : ∀ x ∈ bound, f.bindings.lookup x = none → x ∈ bound₀) :
    Accords (fun x => g.isTaken x = true ∨ x ∈ t.symbols) params bound₀ names₀
      (t.spelling keep names) := by
  constructor
  · constructor
    · intro x hx y hy same
      rcases spelling_cases t keep names x with ⟨⟨p, hp, rfl, moves⟩, px⟩ | ⟨-, px⟩ <;>
        rcases spelling_cases t keep names y with ⟨⟨q, hq, rfl, moves'⟩, py⟩ | ⟨-, py⟩ <;>
        rw [px, py] at same
      · exact h.isolated.apart _ _ (movable within hp moves) (movable within hq moves') same
      · exact absurd same (h.fresh (movable within hp moves) (taken y hy))
      · exact absurd same.symm (h.fresh (movable within hq moves') (taken x hx))
      · exact same
    · intro x _ wild
      rcases spelling_cases t keep names x with ⟨⟨p, hp, rfl, moves⟩, px⟩ | ⟨-, px⟩
      · rw [px] at wild
        have symbol := h.isolated.entered _ (movable within hp moves)
        rw [wild] at symbol
        exact absurd symbol h.isolated.tame
      · rwa [px] at wild
    · rcases spelling_cases t keep names wildcard with ⟨⟨p, -, same, moves⟩, -⟩ | ⟨-, px⟩
      · exact absurd same moves.2.2
      · exact px
  · intro x hx
    refine ⟨.inl (taken x hx), ?_⟩
    rcases spelling_cases t keep names x with ⟨⟨p, hp, rfl, moves⟩, px⟩ | ⟨-, px⟩
    · rw [px]
      exact .inr (h.isolated.entered _ (movable within hp moves))
    · rw [px]
      exact .inl (taken x hx)
  · intro x hx moved
    rcases spelling_cases t keep names x with ⟨⟨p, hp, rfl, moves⟩, px⟩ | ⟨-, px⟩
    · have here := movable within hp moves
      refine ⟨fun param => still _ (intact.linked p hp moves param) (h.unbound here).1, ?_⟩
      rw [px]
      intro param
      exact h.fresh here (given _ param) rfl
    · exact absurd px moved

/-! ## Definitions -/

/-- The names of a scope in a definition, each with its levels. -/
theorem within_of_mem {n : Node} {level i l : Nat} (still : ∀ p ∈ n.namesAt i, p ∈ template.namesAt 0)
    {p : Depths × String} (hp : p ∈ n.namesIn (Depths.inside level) ⟨i, l, 0⟩) :
    (p.1.isolation, p.2) ∈ template.namesAt 0 :=
  still _ (Node.mem_namesIn_map (π := Depths.isolation) (fun _ _ => rfl) hp)

/-- The names that are in use after renaming. -/
def Used (g : Gensym) (t : RenameTable) (x : String) : Prop := g.isTaken x = true ∨ x ∈ t.symbols

theorem taken (h : Renaming f template keep g t g') {n n₀ : Node} {depth : Nat}
    (walk : n ∈ template.walk) (plain : f.Fills (depth, n) n₀) :
    ∀ m ∈ n₀.walk, ∀ x ∈ m.head.ownNames, g.isTaken x = true := by
  refine plain.names (fun m hm x hx => ?_) h.passed
  exact h.written m (Node.mem_walk_trans walk hm) x (Head.mem_names_of_own hx)

/-- The copy of a rule is the rule with its names spelled in another way. -/
theorem rule (h : Renaming f template keep g t g') (passed : Node.Expressions f.bindings)
    {r r₀ r' : Node} {i l : Nat} (walk : r ∈ template.walk)
    (still : ∀ p ∈ r.namesAt i, p ∈ template.namesAt 0) (sorted : r.OfSort .rule)
    (shaped : r.Shaped) (given : ∀ x ∈ params, g.isTaken x = true)
    (intact : ∀ pattern body, r.slots = [.one pattern, .one body] →
      Depths.Intact keep params pattern.bindNames
        (pattern.namesIn (Depths.inside f.level) ⟨i, l, 0⟩ ++
          body.namesIn (Depths.inside f.level) ⟨i, l, 0⟩))
    (plain : f.Fills (l, r) r₀) (copy : f.Fills (l, r.mapNames (t.respelling keep) i) r') :
    RespelledRule (Used g t) params r₀ r' := by
  obtain ⟨span, isTransform, pattern, body, rfl, hp⟩ := sorted.rule_cases
  have parts := (Node.shaped_mk.mp shaped).2
  have first : pattern.Shaped := parts _ List.mem_cons_self pattern (List.mem_singleton_self _)
  have second : body.Shaped :=
    parts _ (List.mem_cons_of_mem _ List.mem_cons_self) body (List.mem_singleton_self _)
  have intact := intact pattern body rfl
  have within : ∀ p ∈ pattern.namesIn (Depths.inside f.level) ⟨i, l, 0⟩ ++
      body.namesIn (Depths.inside f.level) ⟨i, l, 0⟩,
      (p.1.isolation, p.2) ∈ template.namesAt 0 := by
    intro p hp
    rcases List.mem_append.mp hp with hp | hp
    · refine within_of_mem (fun q hq => still q ?_) hp
      exact Node.mem_namesIn_child List.mem_cons_self (List.mem_singleton_self pattern) hq
    · refine within_of_mem (fun q hq => still q ?_) hp
      exact Node.mem_namesIn_child (List.mem_cons_of_mem _ List.mem_cons_self)
        (List.mem_singleton_self body) hq
  rw [Node.mapNames_plain rfl] at copy
  obtain ⟨p₀, b₀, rfl, plainPattern, plainBody⟩ := Filling.fills_rule.mp plain
  obtain ⟨p', b', rfl, copyPattern, copyBody⟩ := Filling.fills_rule.mp copy
  rw [copyPattern.unique (h.fills within intact (fun p hp => List.mem_append_left _ hp) first
      plainPattern),
    copyBody.unique (h.fills within intact (fun p hp => List.mem_append_right _ hp) second
      plainBody)]
  refine ⟨span, isTransform, p₀, b₀, _, rfl, rfl, plainPattern.ofSort_pattern passed hp,
    h.accords within intact (fun x hx => ?_) given (plainPattern.bindNames hp)⟩
  rcases List.mem_append.mp hx with hx | hx
  · obtain ⟨m, hm, own⟩ := Node.mem_ownNames_of_bindNames hx
    exact h.taken (Node.mem_walk_trans walk (Node.mem_walk_child List.mem_cons_self
      (List.mem_singleton_self pattern))) plainPattern m hm x own
  · obtain ⟨m, hm, own⟩ := Node.mem_ownNames_of_mem_namesOutside hx
    exact h.taken (Node.mem_walk_trans walk (Node.mem_walk_child
      (List.mem_cons_of_mem _ List.mem_cons_self) (List.mem_singleton_self body))) plainBody m hm x own

/-- The copy of a quoted template is the template with its names spelled in another way. -/
theorem quoted (h : Renaming f template keep g t g') {body b₀ : Node} {i l : Nat}
    (walk : body ∈ template.walk) (still : ∀ p ∈ body.namesAt (i + 1), p ∈ template.namesAt 0)
    (shaped : body.Shaped) (given : ∀ x ∈ params, g.isTaken x = true)
    (intact : Depths.Intact keep params []
      (body.namesIn (Depths.inside f.level) ⟨i + 1, l + 1, 0⟩))
    (plain : f.Fills (l + 1, body) b₀) {b' : Node}
    (copy : f.Fills (l + 1, body.mapNames (t.respelling keep) (i + 1)) b') :
    ∃ σ, b' = b₀.mapNames (outside σ) 0 ∧
      Accords (Used g t) params [] (b₀.namesOutside 0) σ := by
  have within : ∀ p ∈ body.namesIn (Depths.inside f.level) ⟨i + 1, l + 1, 0⟩,
      (p.1.isolation, p.2) ∈ template.namesAt 0 := fun p hp => within_of_mem still hp
  refine ⟨_, copy.unique (h.fills within intact (fun p hp => hp) shaped plain),
    h.accords within intact (fun x hx => ?_) given (fun x hx => absurd hx List.not_mem_nil)⟩
  obtain ⟨m, hm, own⟩ := Node.mem_ownNames_of_mem_namesOutside hx
  exact h.taken walk plain m hm x own

/-- The copy of a macro has its name and its parameters, and where its scopes stay intact it differs
from the macro in the spelling of names only. -/
theorem definition (h : Renaming f template keep g t g') (passed : Node.Expressions f.bindings)
    {n n₀ n' : Node} {d : Depths} {m : MacroDefinition} (walk : n ∈ template.walk)
    (still : ∀ p ∈ n.namesAt d.isolation, p ∈ template.namesAt 0) (sorted : n.Sorted)
    (defines : MacroDefinition.ofNode? n = some m) (plain : f.Fills (d.filling, n) n₀)
    (copy : f.Fills (d.filling, n.mapNames (t.respelling keep) d.isolation) n') :
    ∃ m₀ m', MacroDefinition.ofNode? n₀ = some m₀ ∧ MacroDefinition.ofNode? n' = some m' ∧
      m₀.name = m.name ∧ m'.name = m.name ∧ m'.params = m.params ∧
      (m.Intact keep f.level d → m₀.Respelled (Used g t) m') := by
  obtain ⟨span, head, slots⟩ := n
  unfold MacroDefinition.ofNode? at defines
  split at defines
  case h_2 => cases defines
  case h_1 name params phase hygiene rules quote isMacro made =>
    cases defines
    obtain rfl : head = .macroDef name params phase hygiene := isMacro
    obtain rfl : slots = [rules, quote] := made
    obtain _ | ⟨rulesField, _ | ⟨quoteField, ⟨⟩⟩⟩ := Node.sorted_mk.mp sorted
    rw [Node.mapNames_plain rfl] at copy
    obtain ⟨_, rfl, rel⟩ := (Filling.fills_plain rfl (by rintro ⟨⟩)).mp plain
    obtain ⟨_, rfl, rel'⟩ := (Filling.fills_plain rfl (by rintro ⟨⟩)).mp copy
    obtain ⟨rules₀, _, rulesRel, rest, rfl⟩ := List.forall₂_cons_left_iff.mp rel
    obtain ⟨quote₀, _, quoteRel, none, rfl⟩ := List.forall₂_cons_left_iff.mp rest
    obtain rfl := List.forall₂_nil_left_iff.mp none
    obtain ⟨rules', _, rulesRel', rest, rfl⟩ := List.forall₂_cons_left_iff.mp rel'
    obtain ⟨quote', _, quoteRel', none, rfl⟩ := List.forall₂_cons_left_iff.mp rest
    obtain rfl := List.forall₂_nil_left_iff.mp none
    refine ⟨_, _, rfl, rfl, rfl, rfl, rfl, fun intact => ?_⟩
    have given : ∀ x ∈ params, g.isTaken x = true := fun x hx =>
      h.written _ walk x (List.mem_cons_of_mem _ hx)
    constructor
    · rfl
    · rfl
    · exact fun x hx => .inl (given x hx)
    · rw [Slot.rel_map_left] at rulesRel'
      apply forall₂_of_common rulesRel.toList rulesRel'.toList
      intro r hr r₀ r' plainRule copyRule
      have sort := rulesField.children r hr
      exact h.rule passed
        (Node.mem_walk_trans walk (Node.mem_walk_child List.mem_cons_self hr))
        (fun p hp => still p (Node.mem_namesIn_child List.mem_cons_self hr hp)) sort
        sort.sorted.shaped given (intact.rules r hr) plainRule copyRule
    · rw [Slot.rel_map_left] at quoteRel'
      cases quoteRel with
      | absent =>
        cases quoteRel'
        exact .none
      | many => cases quoteField.fits
      | @one q q₀ plainQuote =>
        obtain ⟨q', copyQuote, rfl⟩ := Slot.rel_one_left.mp quoteRel'
        have sort := quoteField.children q (List.mem_singleton_self q)
        obtain ⟨span', body, rfl⟩ := sort.template_cases
        have inside : body ∈ (Node.mk span' .quote [.one body]).walk :=
          Node.mem_walk_child List.mem_cons_self (List.mem_singleton_self body)
        have below : Slot.one (Node.mk span' .quote [.one body]) ∈
            [rules, .one (.mk span' .quote [.one body])] := List.mem_cons_of_mem _ List.mem_cons_self
        rw [Node.mapNames_plain rfl] at copyQuote
        obtain ⟨b₀, rfl, plainBody⟩ := Filling.fills_quote.mp plainQuote
        obtain ⟨b', rfl, copyBody⟩ := Filling.fills_quote.mp copyQuote
        refine .some (h.quoted ?_ (fun p hp => still p ?_) (sort.sorted.shaped.of_mem_walk inside)
          given (intact.template body rfl) plainBody copyBody)
        · exact Node.mem_walk_trans walk
            (Node.mem_walk_trans (Node.mem_walk_child below (List.mem_singleton_self _)) inside)
        · exact Node.mem_namesIn_child below (List.mem_singleton_self _)
            (Node.mem_namesIn_child List.mem_cons_self (List.mem_singleton_self body) hp)

end Renaming

/-! ## Copies in expansions -/

/-- A macro that the template of an isolating macro defines comes out of an expansion as a copy that
keeps the name and the parameters. Let the arguments mention no name that the template renames.
Then, if the scopes of the macro stay intact, a call of the copy expands whenever a call of the
macro itself does, filled as it stands in the template, and the expansions vary in names only. -/
theorem expandCall_nested {s s' : UnitState} {c : MacroCall} {e : Expansion} {d : MacroDefinition}
    {sel : Selection} (run : (Work.expandCall c).run s = (.ok e, s'))
    (called : s.registry.find? c.name = some d) (isolates : d.hygiene = .isolate)
    (selected : d.select c = .ok sel) (registered : s.registry.Sorted) (sorted : c.Sorted)
    (written : ∀ m ∈ sel.template.walk, ∀ x ∈ m.head.names, s.gensym.isTaken x = true)
    (passed : ∀ b ∈ sel.bindings, s.gensym.isTaken b.1 = true ∧
      ∀ m ∈ b.2.walk, ∀ x ∈ m.head.ownNames, s.gensym.isTaken x = true ∧
        ¬ sel.template.IsMovable (sel.bindings.names ++ s.registry.names) x)
    {levels : Depths} {definition : Node} {m : MacroDefinition}
    (nested : Node.Holds (Depths.inside sel.level)
      (Depths.start sel.level, sel.template) (levels, definition))
    (defines : MacroDefinition.ofNode? definition = some m) :
    ∃ (t : RenameTable) (plain copy : Node) (m₀ m' : MacroDefinition),
      sel.prepared .isolate s =
        sel.template.mapNames (t.respelling (sel.bindings.names ++ s.registry.names)) 0 ∧
      (sel.filling c.name).Fills (levels.filling, definition) plain ∧
      (sel.filling c.name).Fills (levels.filling, definition.mapNames
        (t.respelling (sel.bindings.names ++ s.registry.names)) levels.isolation) copy ∧
      copy ∈ e.node.walk ∧ MacroDefinition.ofNode? plain = some m₀ ∧
      MacroDefinition.ofNode? copy = some m' ∧ m'.name = m.name ∧ m'.params = m.params ∧
      (m.Intact (sel.bindings.names ++ s.registry.names) sel.level levels →
        ∀ u : UnitState, s'.gensym ≤ u.gensym → ∀ k : MacroCall, k.name = m.name →
          SameOutcome ((Work.expandCall k).run { u with registry := u.registry.insert m₀ }).1
            ((Work.expandCall k).run { u with registry := u.registry.insert m' }).1) := by
  obtain ⟨d', sel', called', selected', filled, -, -, -, -, gensym⟩ := Work.expandCall_ok run
  cases called.symm.trans called'
  cases selected.symm.trans selected'
  obtain ⟨t, g', apart, isolated⟩ := sel.template.withHygiene_isolatedBy
    (sel.bindings.names ++ s.registry.names) s.gensym
  have prepared : sel.prepared .isolate s =
      sel.template.mapNames (t.respelling (sel.bindings.names ++ s.registry.names)) 0 := by
    rw [Selection.prepared, apart]
  have after : s'.gensym = g' := by rw [gensym, isolates, Selection.gensym, apart]
  obtain ⟨ofSort, expressions⟩ := select_sorted (registered.of_find? called) sorted selected
  have setting : Renaming (sel.filling c.name) sel.template
      (sel.bindings.names ++ s.registry.names) s.gensym t g' := by
    constructor
    · exact isolated
    · exact fun x hx => List.mem_append_left _ hx
    · exact written
    · intro x hx
      obtain ⟨b, hb, rfl⟩ := List.mem_map.mp hx
      exact (passed b hb).1
    · exact fun b hb m hm x hx => ((passed b hb).2 m hm x hx).1
    · exact fun b hb m hm x hx => ((passed b hb).2 m hm x hx).2
  have still : ∀ p ∈ definition.namesAt levels.isolation, p ∈ sel.template.namesAt 0 := fun p hp =>
    (nested.map (π := Depths.isolation) fun _ _ => rfl).mem_namesIn hp
  have walk : definition ∈ sel.template.walk := nested.mem_walk
  have other : ∀ x, definition.head ≠ .identifier x := by
    intro x is
    unfold MacroDefinition.ofNode? at defines
    rw [is] at defines
    cases defines
  have solid : definition.head ≠ .unquote := by
    intro is
    unfold MacroDefinition.ofNode? at defines
    rw [is] at defines
    cases defines
  rw [isolates, prepared] at filled
  have expanded : (sel.filling c.name).Fills (sel.level, sel.template.mapNames
      (t.respelling (sel.bindings.names ++ s.registry.names)) 0) e.node :=
    Filling.transformM_eq_ok_iff.mp filled
  have copies : ∃ copy ∈ e.node.walk, (sel.filling c.name).Fills (levels.filling,
      definition.mapNames (t.respelling (sel.bindings.names ++ s.registry.names)) levels.isolation)
      copy :=
    Node.Holds.fills (f := sel.filling c.name) (p := (Depths.start sel.level, sel.template))
      (q := (levels, definition)) nested ofSort.sorted.shaped other solid expanded
  obtain ⟨copy, inside, copied⟩ := copies
  have unrenamed : ∃ plain, (sel.filling c.name).Fills (levels.filling,
      definition.mapNames (fun _ x => x) levels.isolation) plain := by
    refine copied.twin rfl fun p hp _ => ?_
    exact setting.lookup (still _ (Node.mem_namesIn_map (π := Depths.isolation) (fun _ _ => rfl) hp))
  rw [Node.mapNames_of_fixed fun _ _ => rfl] at unrenamed
  obtain ⟨plain, plainly⟩ := unrenamed
  obtain ⟨m₀, m', first, second, name, name', params, respelled⟩ := setting.definition expressions
    walk still (ofSort.sorted.of_mem_walk walk) defines plainly copied
  refine ⟨t, plain, copy, m₀, m', prepared, plainly, copied, inside, first, second, name', params,
    fun intact u later k called => ?_⟩
  have taken : ∀ x, Renaming.Used s.gensym t x → u.gensym.isTaken x = true := by
    intro x used
    rw [after] at later
    rcases used with before | symbol
    · exact later x (isolated.later x before)
    · exact later x (isolated.used x symbol)
  refine expandCall_sameOutcome (respelled intact) ?_ ?_ taken taken
  · rw [Registry.find?_insert, name, called, if_pos rfl]
  · rw [Registry.find?_insert, name', called, if_pos rfl]

/-- The macro `inner` with the parameter `p` and the rule `(( p )) =>> p ++ a`. -/
def innerRule : Node :=
  .macroDef default "inner" ["p"] .expand .isolate
    [.macroRule default false (.compositePattern default .tuplePattern [.bindPattern default "p"])
      (.binaryOp default "++" (.identifier default "p") (.identifier default "a"))] none

/-- The macro `mk` with the rule `(( a )) ==> [[ … ]]`, the definition `innerRule` in the place of
the dots. -/
def ruleMaker : MacroDefinition where
  name := "mk"
  params := []
  span := default
  phase := .parse
  hygiene := .isolate
  rules := [.macroRule default true
    (.compositePattern default .tuplePattern [.bindPattern default "a"])
    (.block default [innerRule] [])]
  template := none

/-- A unit in which `ruleMaker` is known. -/
def ruleUnit : UnitState :=
  { UnitState.start (Gensym.ofNames "%" (.ofList ["a", "inner", "mk", "p"])) none with
    registry := ⟨[ruleMaker]⟩ }

/-- `mk(( 5 ))` -/
def makerCall : MacroCall := ⟨"mk", [.literal default (.integer 5) .number], default⟩

/-- What `makerCall` selects. -/
def ruleSelection : Selection where
  template := .block default [innerRule] []
  quoted := false
  bindings := [("a", .literal default (.integer 5) .number)]

/-- What `makerCall` expands to. -/
def ruleExpansion : Expansion where
  node := .block default [.macroDef default "inner" ["p"] .expand .isolate
    [.macroRule default false
      (.compositePattern default .tuplePattern [.bindPattern default "p%1"])
      (.binaryOp default "++" (.identifier default "p%1")
        (.literal default (.integer 5) .number))] none] []
  injected := []

theorem ruleMaker_run : ((Work.expandCall makerCall).run ruleUnit).1 = .ok ruleExpansion := by
  rfl

theorem innerRule_intact {m : MacroDefinition} (h : MacroDefinition.ofNode? innerRule = some m) :
    m.Intact ["a", "mk"] 0 ⟨0, 0, 0⟩ := by
  cases h
  constructor
  · intro r hr pattern template made
    obtain rfl := List.mem_singleton.mp hr
    cases made
    constructor <;> decide
  · intro body none
    cases none

/-- The case of `ruleMaker`, whose inner parameter is bound again by the pattern of the rule. -/
theorem expandCall_nested_rule :
    ∃ plain copy m₀ m', (ruleSelection.filling "mk").Fills (0, innerRule) plain ∧
      copy ∈ ruleExpansion.node.walk ∧ MacroDefinition.ofNode? plain = some m₀ ∧
      MacroDefinition.ofNode? copy = some m' ∧
      ∀ u : UnitState, ((Work.expandCall makerCall).run ruleUnit).2.gensym ≤ u.gensym →
        ∀ k : MacroCall, k.name = "inner" →
          SameOutcome ((Work.expandCall k).run { u with registry := u.registry.insert m₀ }).1
            ((Work.expandCall k).run { u with registry := u.registry.insert m' }).1 := by
  have nested : Node.Holds (Depths.inside ruleSelection.level)
      (Depths.start ruleSelection.level, ruleSelection.template) (⟨0, 0, 0⟩, innerRule) :=
    .inside List.mem_cons_self (List.mem_singleton_self innerRule) .self
  have registered : ruleUnit.registry.Sorted := by
    intro d hd
    obtain rfl := List.mem_singleton.mp hd
    refine ⟨fun r hr => ?_, fun q hq => by cases hq⟩
    obtain rfl := List.mem_singleton.mp hr
    exact ⟨by decide, rfl⟩
  have sorted : makerCall.Sorted := by
    intro a ha
    obtain rfl := List.mem_singleton.mp ha
    exact ⟨by decide, rfl⟩
  have written : ∀ m ∈ ruleSelection.template.walk, ∀ x ∈ m.head.names,
      ruleUnit.gensym.isTaken x = true := by
    decide
  have passed : ∀ b ∈ ruleSelection.bindings, ruleUnit.gensym.isTaken b.1 = true ∧
      ∀ m ∈ b.2.walk, ∀ x ∈ m.head.ownNames, ruleUnit.gensym.isTaken x = true ∧
        ¬ ruleSelection.template.IsMovable
          (ruleSelection.bindings.names ++ ruleUnit.registry.names) x := by
    intro b hb
    obtain rfl := List.mem_singleton.mp hb
    refine ⟨by decide, fun m hm x hx => ?_⟩
    obtain rfl := List.mem_singleton.mp hm
    cases hx
  have run : (Work.expandCall makerCall).run ruleUnit =
      (.ok ruleExpansion, ((Work.expandCall makerCall).run ruleUnit).2) :=
    Prod.ext ruleMaker_run rfl
  have called : ruleUnit.registry.find? "mk" = some ruleMaker := by decide
  have selected : ruleMaker.select makerCall = .ok ruleSelection := by decide
  obtain ⟨t, plain, copy, m₀, m', -, plainly, -, inside, first, second, -, -, alike⟩ :=
    expandCall_nested run called rfl selected registered sorted written passed nested rfl
  exact ⟨plain, copy, m₀, m', plainly, inside, first, second, alike (innerRule_intact rfl)⟩

/-! ## A parameter that is left behind -/

/-- The macro `inner` with the parameter `p` and the quoted template `'( p )' ++ 1`. -/
def innerQuoted : Node :=
  .macroDef default "inner" ["p"] .expand .isolate [] (some (.quote default
    (.binaryOp default "++" (.unquote default (.identifier default "p"))
      (.literal default (.integer 1) .number))))

/-- The macro `mk` with the rule `_ ==> [[ … ]]`, the definition `innerQuoted` in the place of the
dots. -/
def quotedMaker : MacroDefinition where
  name := "mk"
  params := []
  span := default
  phase := .parse
  hygiene := .isolate
  rules := [.macroRule default true (.bindPattern default wildcard)
    (.block default [innerQuoted] [])]
  template := none

/-- A unit in which `quotedMaker` is known. -/
def quotedUnit : UnitState :=
  { UnitState.start (Gensym.ofNames "%" (.ofList ["inner", "mk", "p"])) none with
    registry := ⟨[quotedMaker]⟩ }

/-- `innerQuoted` as it comes out of an expansion. -/
def innerCopy : Node :=
  .macroDef default "inner" ["p"] .expand .isolate [] (some (.quote default
    (.binaryOp default "++" (.unquote default (.identifier default "p%1"))
      (.literal default (.integer 1) .number))))

/-- What `innerQuoted` defines, with `x` in the place of the use of its parameter. -/
def innerUsing (x : String) : MacroDefinition where
  name := "inner"
  params := ["p"]
  span := default
  phase := .expand
  hygiene := .isolate
  rules := []
  template := some (.quote default (.binaryOp default "++"
    (.unquote default (.identifier default x)) (.literal default (.integer 1) .number)))

/-- The unit after the call of `quotedMaker`. -/
def quotedUnitAfter : UnitState := ((Work.expandCall ⟨"mk", [], default⟩).run quotedUnit).2

/-- `inner(( 5 ))` -/
def innerCall : MacroCall := ⟨"inner", [.literal default (.integer 5) .number], default⟩

/-- The use of a parameter is renamed and the parameter is not, so that the argument is lost. -/
theorem nested_parameter_unlinked :
    ∃ e s' m₀ m', (Work.expandCall ⟨"mk", [], default⟩).run quotedUnit = (.ok e, s') ∧
      innerCopy ∈ e.node.walk ∧ MacroDefinition.ofNode? innerQuoted = some m₀ ∧
      MacroDefinition.ofNode? innerCopy = some m' ∧
      ¬ SameOutcome ((Work.expandCall innerCall).run { s' with registry := s'.registry.insert m₀ }).1
        ((Work.expandCall innerCall).run { s' with registry := s'.registry.insert m' }).1 := by
  have run : ((Work.expandCall ⟨"mk", [], default⟩).run quotedUnit).1 =
      .ok ⟨.block default [innerCopy] [], []⟩ := by
    rfl
  have filled : ((Work.expandCall innerCall).run { quotedUnitAfter with
      registry := quotedUnitAfter.registry.insert (innerUsing "p") }).1 =
      .ok ⟨.binaryOp default "++" (.literal default (.integer 5) .number)
        (.literal default (.integer 1) .number), []⟩ := by
    rfl
  have left : ((Work.expandCall innerCall).run { quotedUnitAfter with
      registry := quotedUnitAfter.registry.insert (innerUsing "p%1") }).1 =
      .ok ⟨.binaryOp default "++" (.identifier default "p%2")
        (.literal default (.integer 1) .number), []⟩ := by
    rfl
  refine ⟨_, quotedUnitAfter, innerUsing "p", innerUsing "p%1", Prod.ext run rfl, ?_, rfl, rfl, ?_⟩
  · exact Node.mem_walk_child List.mem_cons_self (List.mem_singleton_self innerCopy)
  · intro alike
    rw [filled, left] at alike
    have varies : Expansion.Varies
        ⟨.binaryOp default "++" (.literal default (.integer 5) .number)
          (.literal default (.integer 1) .number), []⟩
        ⟨.binaryOp default "++" (.identifier default "p%2")
          (.literal default (.integer 1) .number), []⟩ := alike
    obtain ⟨head, slots, made, -, rel⟩ := Node.renamedTo_mk.mp (varies.node.sameShape 0)
    cases made
    obtain _ | ⟨left, -⟩ := rel
    obtain ⟨_, same, made⟩ := Slot.rel_one_left.mp left
    cases made
    obtain ⟨head, slots, made, ⟨ys, none, same⟩, -⟩ := Node.renamedTo_mk.mp same
    cases made
    cases same

end GlyphScript
