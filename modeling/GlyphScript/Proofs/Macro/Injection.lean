import GlyphScript.Proofs.Macro.Expansion
import GlyphScript.Proofs.Macro.Filling
import Mathlib.Data.List.Induction

/-!
# Injected names

The names that an injecting macro installs are read off its expansion, where
code of the template and copies of arguments are mixed. Here every bound name is
listed with its origin. What an argument binds is installed too.
-/

namespace GlyphScript

/-! ## Bound names -/

/-- The new name of a binder whose name is that of a bound identifier. -/
def Filling.renamed (f : Filling) (x : String) : String :=
  match f.bindings.lookup x with
  | some ⟨_, .identifier y, _⟩ => y
  | _ => x

/-- The names that a filled template binds outside quotes, each with its origin: parents before
children and from left to right. -/
def Node.filledBinders (f : Filling) : Node → (depth : Nat) → List (Origin × String) :=
  fold fun _ head slots depth =>
    match head with
    | .identifier x =>
      if depth = 0 then ((f.bindings.lookup x).elim [] boundInside).map (.argument, ·) else []
    | .quote => []
    | head =>
      head.boundNames.map (fun x => (.template, if depth = 0 then f.renamed x else x)) ++
        slots.flatMap fun s => s.toList.flatMap (· (head.innerDepth depth))

/-- The names that an expansion of the selected template binds outside quotes. -/
def Selection.binders (sel : Selection) (name : String) : List (Origin × String) :=
  (sel.template.filledBinders (sel.filling name) sel.level).filter (·.2 ≠ wildcard)

namespace Node

variable {f : Filling} {depth : Nat} {span : Span} {head : Head} {slots : List (Slot Node)}
  {n n' : Node}

theorem boundInside_mk (other : head ≠ .quote) :
    (mk span head slots).boundInside =
      head.boundNames ++ slots.flatMap fun s => s.toList.flatMap boundInside := by
  rw [boundInside, fold_mk, if_neg other, ← List.flatMap_id, List.flatMap_assoc]
  simp only [List.flatMap_map, Slot.toList_map, id_eq]

theorem boundInside_quote : (mk span .quote slots).boundInside = [] := by
  rw [boundInside, fold_mk, if_pos rfl]

theorem filledBinders_mk (other : ∀ x, head ≠ .identifier x) (unquoted : head ≠ .quote) :
    (mk span head slots).filledBinders f depth =
      head.boundNames.map (fun x => (Origin.template, if depth = 0 then f.renamed x else x)) ++
        slots.flatMap fun s => s.toList.flatMap (·.filledBinders f (head.innerDepth depth)) := by
  rw [filledBinders, fold_mk]
  cases head
  case identifier x => exact absurd rfl (other x)
  case quote => exact absurd rfl unquoted
  all_goals simp only [List.flatMap_map, Slot.toList_map]

theorem filledBinders_identifier {x : String} :
    (mk span (.identifier x) slots).filledBinders f depth =
      if depth = 0 then ((f.bindings.lookup x).elim [] boundInside).map (.argument, ·) else [] := by
  rw [filledBinders, fold_mk]

theorem filledBinders_quote : (mk span .quote slots).filledBinders f depth = [] := by
  rw [filledBinders, fold_mk]

theorem mem_boundNames_of_mem_boundInside {x : String} (h : x ∈ n.boundInside) :
    ∃ m ∈ n.walk, x ∈ m.head.boundNames := by
  induction n using induction_on with
  | step span head slots ih =>
    by_cases quoted : head = .quote
    · subst quoted
      simp [boundInside_quote] at h
    · rw [boundInside_mk quoted, List.mem_append] at h
      cases h with
      | inl own => exact ⟨_, mem_walk_self _, own⟩
      | inr below =>
        obtain ⟨s, hs, h⟩ := List.mem_flatMap.mp below
        obtain ⟨n, hn, h⟩ := List.mem_flatMap.mp h
        obtain ⟨m, hm, own⟩ := ih s hs n hn h
        exact ⟨m, mem_walk_mk.mpr (.inr ⟨s, hs, n, hn, hm⟩), own⟩

end Node

theorem Node.mem_filledBinders_argument {f : Filling} {depth : Nat} {n : Node} {x : String}
    (h : (.argument, x) ∈ n.filledBinders f depth) : ∃ b ∈ f.bindings, x ∈ b.2.boundInside := by
  induction n using Node.induction_on generalizing depth with
  | step span head slots ih =>
    by_cases name : ∃ y, head = .identifier y
    · obtain ⟨y, rfl⟩ := name
      rw [filledBinders_identifier] at h
      cases found : f.bindings.lookup y with
      | none => simp [found] at h
      | some n =>
        split at h
        · exact ⟨(y, n), mem_of_lookup found, by simpa [found] using h⟩
        · simp at h
    · by_cases quoted : head = .quote
      · subst quoted
        simp [filledBinders_quote] at h
      · rw [filledBinders_mk (fun y hy => name ⟨y, hy⟩) quoted, List.mem_append] at h
        cases h with
        | inl own => simp at own
        | inr below =>
          obtain ⟨s, hs, h⟩ := List.mem_flatMap.mp below
          obtain ⟨n, hn, h⟩ := List.mem_flatMap.mp h
          exact ih s hs n hn h

/-! ## Filling -/

theorem Head.ownNames_eq_boundNames {h : Head} (other : ∀ x, h ≠ .identifier x) :
    h.ownNames = h.boundNames := by
  cases h <;> first | rfl | exact absurd rfl (other _)

theorem Head.withNames_ne_identifier {h : Head} (other : ∀ x, h ≠ .identifier x)
    (ys : List String) (x : String) : h.withNames ys ≠ .identifier x := by
  unfold withNames
  split
  case h_1 y z => exact absurd rfl (other y)
  all_goals simp [other]

theorem Head.withNames_eq_quote {h : Head} {ys : List String} :
    h.withNames ys = .quote ↔ h = .quote := by
  unfold withNames
  split <;> simp

namespace Filling

variable {f : Filling} {depth : Nat} {span : Span} {head : Head} {slots : List (Slot Node)}
  {n n' : Node}

theorem Renames.eq_renamed {x y : String} (h : f.Renames x y) : y = f.renamed x := by
  unfold Renames at h
  unfold renamed
  cases found : f.bindings.lookup x with
  | none =>
    rw [found] at h
    exact h
  | some bound =>
    rw [found] at h
    obtain ⟨span, head, slots⟩ := bound
    obtain rfl : head = .identifier y := h
    rfl

theorem boundNames_renamedTo {head' : Head} (other : ∀ x, head ≠ .identifier x)
    (names : head.RenamedTo (fun x y => if depth = 0 then f.Renames x y else y = x) head') :
    head'.boundNames = head.boundNames.map fun x => if depth = 0 then f.renamed x else x := by
  obtain ⟨ys, related, rfl⟩ := names
  have own : (head.withNames ys).ownNames = ys := Head.ownNames_withNames related.length_eq.symm
  have renamed : ys = head.ownNames.map fun x => if depth = 0 then f.renamed x else x := by
    rw [← List.forall₂_eq_eq_eq, List.forall₂_map_right_iff]
    by_cases outside : depth = 0
    · simp only [outside, if_true] at related ⊢
      exact related.flip.imp fun _ _ h => Renames.eq_renamed h
    · simp only [outside, if_false] at related ⊢
      exact related.flip
  rw [← Head.ownNames_eq_boundNames (Head.withNames_ne_identifier other ys), own, renamed,
    Head.ownNames_eq_boundNames other]

/-- What the tree binds that a template becomes. -/
theorem Fills.boundInside (h : f.Fills (depth, n) n') (shaped : n.Shaped) :
    n'.boundInside = (n.filledBinders f depth).map (·.2) := by
  induction n using Node.induction_on generalizing depth n' with
  | step span head slots ih =>
    have below : ∀ s ∈ slots, ∀ n ∈ s.toList, n.Shaped := (Node.shaped_mk.mp shaped).2
    obtain ⟨x, rfl⟩ | ⟨rfl, ⟨e, rfl⟩, shallow⟩ | ⟨other, deep⟩ := f.template_cases depth head slots
    · rw [Node.filledBinders_identifier]
      rcases fills_identifier.mp h with ⟨rfl, found⟩ | ⟨free, rfl⟩
      · rw [if_pos rfl, found, Option.elim_some, List.map_map]
        exact (List.map_id _).symm
      · obtain rfl := (Node.shaped_mk.mp shaped).1.identifier
        rw [Node.boundInside_mk (by simp)]
        rcases free with inside | unbound
        · simp [inside, Head.boundNames]
        · simp [unbound, Head.boundNames]
    · rw [ih _ (List.mem_singleton_self _) e (List.mem_singleton_self e)
        ((fills_unquote shallow).mp h) (below _ (List.mem_singleton_self _) e
          (List.mem_singleton_self e)), Node.filledBinders_mk (by simp) (by simp)]
      simp [Head.boundNames, Slot.toList, Head.innerDepth]
    · obtain ⟨head', slots', rfl, names, rel⟩ := (fills_node other deep).mp h
      by_cases quoted : head = .quote
      · obtain ⟨ys, -, rfl⟩ := names
        rw [Head.withNames_eq_quote.mpr quoted, Node.boundInside_quote, quoted,
          Node.filledBinders_quote, List.map_nil]
      · have unquoted : head' ≠ .quote := by
          obtain ⟨ys, -, rfl⟩ := names
          rwa [ne_eq, Head.withNames_eq_quote]
        rw [Node.boundInside_mk unquoted, Node.filledBinders_mk other quoted,
          boundNames_renamedTo other names, List.map_append, List.map_map, List.map_flatMap]
        apply congrArg
        refine (flatMap_eq_flatMap rel fun s hs s' r => ?_).symm
        rw [List.map_flatMap]
        exact flatMap_eq_flatMap r.toList fun n hn m h => (ih s hs n hn h (below s hs n hn)).symm

end Filling

/-! ## Calls -/

theorem eraseDups_append_singleton (xs : List String) (x : String) :
    (xs ++ [x]).eraseDups = if x ∈ xs then xs.eraseDups else xs.eraseDups ++ [x] := by
  rw [List.eraseDups_append]
  by_cases old : x ∈ xs <;> simp [List.removeAll, old, List.eraseDups_cons]

/-- Repeated names fall away. The names of one origin are all there is to a list of names if each
name of the other origin has one of the same spelling in front of it. -/
theorem eraseDups_template {names : List (Origin × String)}
    (listed : ∀ before x after, names = before ++ (Origin.argument, x) :: after →
      (Origin.template, x) ∈ before) :
    (names.map (·.2)).eraseDups = ((names.filter (·.1 = .template)).map (·.2)).eraseDups := by
  induction names using List.reverseRecOn with
  | nil => rfl
  | append_singleton names name ih =>
    have before : ∀ front x after, names = front ++ (Origin.argument, x) :: after →
        (Origin.template, x) ∈ front := by
      intro front x after eq
      refine listed front x (after ++ [name]) ?_
      simp [eq]
    have kept : ∀ x, (Origin.template, x) ∈ names ↔
        x ∈ (names.filter (·.1 = .template)).map (·.2) := by
      simp
    have same : ∀ x, x ∈ names.map (·.2) ↔ (Origin.template, x) ∈ names := by
      intro x
      constructor
      · intro h
        obtain ⟨⟨origin, y⟩, hy, rfl⟩ := List.mem_map.mp h
        cases origin with
        | template => exact hy
        | argument =>
          obtain ⟨front, after, eq⟩ := List.append_of_mem hy
          rw [eq]
          exact List.mem_append_left _ (before front y after eq)
      · exact List.mem_map_of_mem
    obtain ⟨origin, x⟩ := name
    rw [List.map_append, List.map_singleton, eraseDups_append_singleton, ih before,
      List.filter_append]
    cases origin with
    | template =>
      simp only [same, kept, decide_true, List.filter_cons_of_pos, List.filter_nil,
        List.map_append, List.map_singleton, eraseDups_append_singleton]
    | argument =>
      have old : (Origin.template, x) ∈ names := listed names x [] rfl
      simp [same, old]

section

variable {s s' : UnitState} {c : MacroCall} {e : Expansion} {d : MacroDefinition} {sel : Selection}

theorem injected_eq (run : (Work.expandCall c).run s = (.ok e, s'))
    (called : s.registry.find? c.name = some d) (injects : d.hygiene = .inject)
    (selected : d.select c = .ok sel) (shaped : d.Shaped) :
    e.injected = ((sel.binders c.name).map (·.2)).eraseDups := by
  obtain ⟨d', sel', called', selected', filled, injected, -⟩ := Work.expandCall_ok run
  cases called.symm.trans called'
  cases selected.symm.trans selected'
  have prepared : sel.prepared d.hygiene s = sel.template := by
    rw [Selection.prepared, injects]
    rfl
  rw [prepared] at filled
  have fills := ((sel.filling c.name).substitute_fills sel.template).1 e.node |>.mp filled
  rw [injected, if_pos injects, Node.binderNames, fills.boundInside (select_shaped selected shaped),
    List.filter_map]
  rfl

/-- What an argument binds in the expansion it binds where it is written. -/
theorem mem_binders_argument (selected : d.select c = .ok sel) {x : String}
    (h : (Origin.argument, x) ∈ sel.binders c.name) :
    ∃ a ∈ c.args, ∃ m ∈ a.walk, x ∈ m.head.boundNames := by
  obtain ⟨b, hb, hx⟩ := Node.mem_filledBinders_argument (List.mem_of_mem_filter h)
  obtain ⟨m, hm, hx⟩ := Node.mem_boundNames_of_mem_boundInside hx
  rcases ((d.select_ok selected).2 b hb).offers with ⟨a, ha, hba⟩ | tuple
  · exact ⟨a, ha, m, Node.mem_walk_trans hba hm, hx⟩
  · rw [tuple] at hm
    rcases Node.mem_walk_mk.mp hm with rfl | ⟨slot, hs, a, ha, hm⟩
    · nomatch hx
    · rw [List.mem_singleton.mp hs] at ha
      exact ⟨a, ha, m, hm, hx⟩

/-- The names installed by a call of an injecting macro are those that its expansion binds outside
quotes, each with its origin: the wildcard is left out and of equal names the first counts. They
are names that the template binds if and only if the arguments bind no others; and they are what
the template binds, in its order, if an argument binds only what the template has bound before. -/
theorem expandCall_injected_iff (run : (Work.expandCall c).run s = (.ok e, s'))
    (called : s.registry.find? c.name = some d) (injects : d.hygiene = .inject)
    (selected : d.select c = .ok sel) (shaped : d.Shaped) :
    e.injected = ((sel.binders c.name).map (·.2)).eraseDups ∧
    (∀ x, (.argument, x) ∈ sel.binders c.name → ∃ a ∈ c.args, ∃ m ∈ a.walk, x ∈ m.head.boundNames) ∧
    ((∀ x ∈ e.injected, (.template, x) ∈ sel.binders c.name) ↔
      ∀ x, (.argument, x) ∈ sel.binders c.name → (.template, x) ∈ sel.binders c.name) ∧
    ((∀ before x after, sel.binders c.name = before ++ (.argument, x) :: after →
        (.template, x) ∈ before) →
      e.injected = (((sel.binders c.name).filter (·.1 = .template)).map (·.2)).eraseDups) := by
  have installed := injected_eq run called injects selected shaped
  have mem : ∀ x, x ∈ e.injected ↔ ∃ origin, (origin, x) ∈ sel.binders c.name := by
    simp [installed, List.mem_eraseDups]
  refine ⟨installed, fun x => mem_binders_argument selected, ⟨?_, ?_⟩, ?_⟩
  · intro h x hx
    exact h x ((mem x).mpr ⟨_, hx⟩)
  · intro h x hx
    obtain ⟨origin, hx⟩ := (mem x).mp hx
    cases origin with
    | template => exact hx
    | argument => exact h x hx
  · intro listed
    rw [installed, eraseDups_template listed]

end

/-! ## An argument that binds a name -/

/-- The macro `m` with the parameter `x` and the quoted template `'( x )'`. -/
def identityMacro : MacroDefinition where
  name := "m"
  params := ["x"]
  span := default
  phase := .expand
  hygiene := .inject
  rules := []
  template := some (Node.quote default (Node.unquote default (Node.identifier default "x")))

/-- `m(((\\ y => y \\)))` -/
def identityCall : MacroCall :=
  ⟨"m", [Node.lambda default ["y"] (Node.identifier default "y")], default⟩

def identitySelection : Selection where
  template := Node.unquote default (Node.identifier default "x")
  quoted := true
  bindings := [("x", Node.lambda default ["y"] (Node.identifier default "y"))]

/-- A unit in which `identityMacro` is known. -/
def identityUnit : UnitState :=
  { UnitState.start (Gensym.ofNames "%" (.ofList ["m", "x", "y"])) none with
    registry := ⟨[identityMacro]⟩ }

theorem identityMacro_shaped : identityMacro.Shaped := by
  constructor
  · intro r h
    nomatch h
  · intro q h
    cases h
    decide

theorem identityCall_run : ((Work.expandCall identityCall).run identityUnit).1 =
    .ok ⟨Node.lambda default ["y"] (Node.identifier default "y"), ["y"]⟩ := rfl

/-- The name installed by `identityCall` is one that the argument binds. -/
theorem identityCall_injected_iff :
    ["y"] = ((identitySelection.binders "m").map (·.2)).eraseDups ∧
    (∀ x, (.argument, x) ∈ identitySelection.binders "m" →
      ∃ a ∈ identityCall.args, ∃ m ∈ a.walk, x ∈ m.head.boundNames) ∧
    ((∀ x ∈ ["y"], (.template, x) ∈ identitySelection.binders "m") ↔
      ∀ x, (.argument, x) ∈ identitySelection.binders "m" →
        (.template, x) ∈ identitySelection.binders "m") ∧
    ((∀ before x after, identitySelection.binders "m" = before ++ (.argument, x) :: after →
        (.template, x) ∈ before) →
      ["y"] = (((identitySelection.binders "m").filter (·.1 = .template)).map (·.2)).eraseDups) :=
  expandCall_injected_iff (Prod.ext identityCall_run rfl) rfl rfl rfl identityMacro_shaped

/-- The template of `identityMacro` binds nothing. -/
theorem argument_binder_installed : ¬ ∀ {s s' : UnitState} {c : MacroCall} {e : Expansion}
    {d : MacroDefinition} {sel : Selection},
    (Work.expandCall c).run s = (.ok e, s') → s.registry.find? c.name = some d →
    d.hygiene = .inject → d.select c = .ok sel → d.Shaped →
    ∀ x ∈ e.injected, (.template, x) ∈ sel.binders c.name := by
  intro claim
  have installed : (.template, "y") ∈ identitySelection.binders "m" :=
    claim (Prod.ext identityCall_run rfl) rfl rfl rfl identityMacro_shaped "y" (by decide)
  revert installed
  decide

end GlyphScript
