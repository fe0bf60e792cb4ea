import GlyphScript.Proofs.Macro.Clauses
import GlyphScript.Proofs.Macro.Reversible
import GlyphScript.Proofs.Macro.Variants

/-!
# Macros that differ in names

A macro and one whose rules and template spell their names outside quotes in
another way, each in one that tells names apart and is in accord with the
parameters, expand the same calls, and their expansions vary in names only.
-/

namespace GlyphScript

namespace Node

theorem head_mapNames (f : Nat → String → String) (n : Node) (depth : Nat) :
    (n.mapNames f depth).head = n.head.mapNames (f depth) := by
  obtain ⟨span, head, slots⟩ := n
  rw [mapNames_mk]
  rfl

theorem namesAt_mapNames (f : Nat → String → String) (n : Node) (depth : Nat) :
    (n.mapNames f depth).namesAt depth = (n.namesAt depth).map fun p => (p.1, f p.1 p.2) := by
  induction n using induction_on generalizing depth with
  | step span head slots ih =>
    rw [mapNames_mk, namesAt, namesAt, namesIn_mk, namesIn_mk, Head.ownNames_mapNames,
      List.map_append, List.map_map, List.map_map, List.map_flatMap, List.flatMap_map]
    congr 1
    apply List.flatMap_congr
    intro s hs
    rw [Slot.toList_map, List.flatMap_map, List.map_flatMap]
    apply List.flatMap_congr
    intro n hn
    rw [Head.innerDepth_mapNames]
    exact ih s hs n hn _

theorem mem_namesOutside_mapNames {spell : String → String} {n : Node} {y : String} :
    y ∈ (n.mapNames (outside spell) 0).namesOutside 0 ↔ ∃ x ∈ n.namesOutside 0, spell x = y := by
  simp only [mem_namesOutside, namesAt_mapNames, List.mem_map, Prod.exists, Prod.mk.injEq]
  constructor
  · rintro ⟨d, x, mem, rfl, rfl⟩
    exact ⟨x, mem, rfl⟩
  · rintro ⟨x, mem, rfl⟩
    exact ⟨0, x, mem, rfl, rfl⟩

theorem mapNames_outside (σ τ : String → String) (n : Node) :
    (n.mapNames (outside σ) 0).mapNames (outside τ) 0 = n.mapNames (outside fun x => τ (σ x)) 0 := by
  rw [mapNames_mapNames]
  apply mapNames_congr
  intro p _
  unfold outside
  by_cases h : p.1 = 0 <;> simp [h]

end Node

open Node (outside)

/-! ## Preparing -/

/-- Preparing a template spells its names in a way that tells them apart and that leaves what is
bound bound. -/
theorem Selection.prepared_respelled (sel : Selection) (hygiene : Hygiene) (u : UnitState)
    (names : ∀ x ∈ sel.template.namesOutside 0, u.gensym.isTaken x = true)
    (bound : ∀ x ∈ sel.bindings.names, u.gensym.isTaken x = true) :
    ∃ spell, sel.prepared hygiene u = sel.template.mapNames (outside spell) 0 ∧
      (∀ x ∈ sel.template.namesOutside 0, ∀ y ∈ sel.template.namesOutside 0,
        spell x = spell y → x = y) ∧
      ∀ x ∈ sel.template.namesOutside 0, sel.bindings.lookup (spell x) = sel.bindings.lookup x := by
  have verbatim : ∃ spell, sel.template = sel.template.mapNames (outside spell) 0 ∧
      (∀ x ∈ sel.template.namesOutside 0, ∀ y ∈ sel.template.namesOutside 0,
        spell x = spell y → x = y) ∧
      ∀ x ∈ sel.template.namesOutside 0,
        sel.bindings.lookup (spell x) = sel.bindings.lookup x := by
    refine ⟨id, ?_, fun x _ y _ same => same, fun x _ => rfl⟩
    symm
    apply Node.mapNames_of_fixed
    intro p _
    simp [outside]
  cases hygiene with
  | capture => exact verbatim
  | inject => exact verbatim
  | isolate =>
    obtain ⟨t, g', run, isolated⟩ := sel.template.withHygiene_isolatedBy
      (sel.bindings.names ++ u.registry.names) u.gensym
    have movable : ∀ {x}, x ∈ sel.template.namesOutside 0 →
        x ∉ sel.bindings.names ++ u.registry.names ∧ x ≠ wildcard →
        sel.template.IsMovable (sel.bindings.names ++ u.registry.names) x :=
      fun hx moved => ⟨hx, moved⟩
    have new : ∀ {x y}, sel.template.IsMovable (sel.bindings.names ++ u.registry.names) x →
        u.gensym.isTaken y = true → t.symbolOf x ≠ y := by
      rintro x y moved taken rfl
      rw [isolated.free _ (isolated.entered x moved)] at taken
      cases taken
    refine ⟨fun x => if x ∉ sel.bindings.names ++ u.registry.names ∧ x ≠ wildcard then t.symbolOf x
      else x, ?_, fun x hx y hy same => ?_, fun x hx => ?_⟩
    · have prepared : sel.prepared .isolate u = sel.template.mapNames
          (t.respelling (sel.bindings.names ++ u.registry.names)) 0 := by
        rw [Selection.prepared, run]
      rw [prepared]
      apply Node.mapNames_congr
      intro p _
      unfold RenameTable.respelling outside
      by_cases h : p.1 = 0 <;> simp [h]
    · dsimp only at same
      by_cases first : x ∉ sel.bindings.names ++ u.registry.names ∧ x ≠ wildcard <;>
        by_cases second : y ∉ sel.bindings.names ++ u.registry.names ∧ y ≠ wildcard
      · rw [if_pos first, if_pos second] at same
        exact isolated.apart x y (movable hx first) (movable hy second) same
      · rw [if_pos first, if_neg second] at same
        exact absurd same (new (movable hx first) (names y hy))
      · rw [if_neg first, if_pos second] at same
        exact absurd same.symm (new (movable hy second) (names x hx))
      · rwa [if_neg first, if_neg second] at same
    · dsimp only
      by_cases moved : x ∉ sel.bindings.names ++ u.registry.names ∧ x ≠ wildcard
      · have unbound : x ∉ sel.bindings.names := fun h => moved.1 (List.mem_append_left _ h)
        have unbound' : t.symbolOf x ∉ sel.bindings.names := fun h =>
          new (movable hx moved) (bound _ h) rfl
        rw [if_pos moved, Bindings.lookup_eq_none.mpr unbound, Bindings.lookup_eq_none.mpr unbound']
      · rw [if_neg moved]

/-! ## Definitions -/

/-- A spelling of the names of a template whose pattern binds `bound`: all names before and after
are in use, and where a parameter is spelled in another way, the pattern binds it instead. -/
structure Accords (used : String → Prop) (params bound names : List String)
    (σ : String → String) : Prop where
  separates : Separates σ (· ∈ bound ++ names)
  known : ∀ x ∈ bound ++ names, used x ∧ used (σ x)
  linked : ∀ x ∈ bound ++ names, σ x ≠ x → (x ∈ params → x ∈ bound) ∧ σ x ∉ params

/-- The second rule is the first with its names outside quotes spelled in another way. -/
def RespelledRule (used : String → Prop) (params : List String) (r r' : Node) : Prop :=
  ∃ span isTransform pattern template σ,
    r = .mk span (.macroRule isTransform) [.one pattern, .one template] ∧
    r' = .mk span (.macroRule isTransform) [.one (pattern.mapNames (outside σ) 0),
      .one (template.mapNames (outside σ) 0)] ∧
    pattern.OfSort .pattern ∧ Accords used params pattern.bindNames (template.namesOutside 0) σ

/-- The second macro is the first with the names outside quotes of each of its templates spelled in
another way. -/
structure MacroDefinition.Respelled (used : String → Prop) (d d' : MacroDefinition) : Prop where
  params : d'.params = d.params
  hygiene : d'.hygiene = d.hygiene
  known : ∀ x ∈ d.params, used x
  rules : List.Forall₂ (RespelledRule used d.params) d.rules d'.rules
  template : Option.Rel (fun body body' => ∃ σ, body' = body.mapNames (outside σ) 0 ∧
    Accords used d.params [] (body.namesOutside 0) σ) d.templateBody? d'.templateBody?

/-- The second template is the first with its names spelled by `σ`, and these are bound to the same
trees. -/
structure Selection.Respelled (used : String → Prop) (σ : String → String) (sel sel' : Selection) :
    Prop where
  quoted : sel'.quoted = sel.quoted
  template : sel'.template = sel.template.mapNames (outside σ) 0
  apart : ∀ x ∈ sel.template.namesOutside 0, ∀ y ∈ sel.template.namesOutside 0, σ x = σ y → x = y
  same : ∀ x ∈ sel.template.namesOutside 0, sel'.bindings.lookup (σ x) = sel.bindings.lookup x
  known : ∀ x ∈ sel.template.namesOutside 0, used x ∧ used (σ x)
  bound : ∀ x ∈ sel.bindings.names ++ sel'.bindings.names, used x

section

variable {used : String → Prop} {params bound names : List String} {σ : String → String}

theorem names_zip {b : Bindings} {xs : List String} {ns : List Node} {x : String}
    (h : x ∈ (b.extend (xs.zip ns)).names) : x ∈ b.names ∨ x ∈ xs := by
  apply (Bindings.names_extend h).imp_right
  intro mem
  obtain ⟨z, hz, rfl⟩ := List.mem_map.mp mem
  exact (List.of_mem_zip hz).1

/-- What a name is bound to when the pattern's variables come after the parameters. -/
theorem Accords.lookup (h : Accords used params bound names σ) {args : List Node}
    {matched : Bindings} (within : ∀ x ∈ matched.names, x ∈ bound)
    (complete : ∀ x ∈ bound, x ≠ wildcard → x ∈ matched.names) {x : String}
    (hx : x ∈ bound ++ names) :
    ((Bindings.extend [] (params.zip args)).extend (matched.rename σ)).lookup (σ x) =
      ((Bindings.extend [] (params.zip args)).extend matched).lookup x := by
  have reversed : ∀ y, y ∈ Bindings.names matched.reverse ↔ y ∈ matched.names := by
    intro y
    rw [Bindings.names, List.map_reverse, List.mem_reverse, Bindings.names]
  have apart : ∀ y ∈ Bindings.names matched.reverse, σ y = σ x → y = x := fun y hy =>
    h.separates.apart y (List.mem_append_left _ (within y ((reversed y).mp hy))) x hx
  have free : ∀ y, y ∉ params → (Bindings.extend [] (params.zip args)).lookup y = none := by
    intro y hy
    apply Bindings.lookup_eq_none.mpr
    intro mem
    rcases names_zip mem with mem | mem
    · cases mem
    · exact hy mem
  generalize Bindings.extend [] (params.zip args) = given at free ⊢
  rw [Bindings.lookup_extend, Bindings.lookup_extend, Bindings.reverse_rename,
    Bindings.lookup_rename apart]
  cases found : matched.reverse.lookup x with
  | some n => rfl
  | none =>
    rw [Option.none_or, Option.none_or]
    by_cases moved : σ x = x
    · rw [moved]
    · obtain ⟨shadowed, fresh⟩ := h.linked x hx moved
      have other : x ∉ params := by
        intro mem
        have tame : x ≠ wildcard := by
          rintro rfl
          exact moved h.separates.wild
        apply Bindings.lookup_eq_none.mp found
        exact (reversed x).mpr (complete x (shadowed mem) tame)
      rw [free _ other, free _ fresh]

end

namespace MacroDefinition

variable {used : String → Prop} {d d' : MacroDefinition} {c : MacroCall}

theorem ruleSubject_mapNames (f : Nat → String → String) (pattern : Node) (args : List Node)
    (span : Span) : ruleSubject (pattern.mapNames f 0) args span = ruleSubject pattern args span := by
  unfold ruleSubject
  simp only [Node.head_mapNames, Head.mapNames_eq_iff (k := .tuplePattern) rfl]

/-- A rule fits what the other fits, and binds its own names to the same trees. -/
theorem tryRule_respelled {params : List String} {r r' : Node}
    (h : RespelledRule used params r r') (c : MacroCall) :
    c.tryRule r = none ∧ c.tryRule r' = none ∨
      ∃ bound template matched σ, c.tryRule r = some (template, matched) ∧
        c.tryRule r' = some (template.mapNames (outside σ) 0, matched.rename σ) ∧
        Accords used params bound (template.namesOutside 0) σ ∧
        (∀ x ∈ matched.names, x ∈ bound) ∧ ∀ x ∈ bound, x ≠ wildcard → x ∈ matched.names := by
  obtain ⟨span, isTransform, pattern, template, σ, rfl, rfl, sorted, accords⟩ := h
  have separates : Separates (outside σ 0) (· ∈ pattern.bindNames) := by
    have spelled : outside σ 0 = σ := by
      funext x
      rfl
    rw [spelled]
    exact ⟨fun x hx y hy => accords.separates.apart x (List.mem_append_left _ hx) y
      (List.mem_append_left _ hy), fun x hx => accords.separates.tame x (List.mem_append_left _ hx),
      accords.separates.wild⟩
  obtain ⟨same, within⟩ := pattern.matchInto_mapNames separates (fun x hx => hx)
    (ruleSubject pattern c.args c.span) [] (by simp [Bindings.names])
  have matching : (pattern.mapNames (outside σ) 0).matchPattern
      (ruleSubject (pattern.mapNames (outside σ) 0) c.args c.span) =
      (pattern.matchPattern (ruleSubject pattern c.args c.span)).map (Bindings.rename σ) := by
    rw [ruleSubject_mapNames]
    exact same
  cases matched : pattern.matchPattern (ruleSubject pattern c.args c.span) with
  | none =>
    rw [matched] at matching
    left
    constructor
    · simp only [MacroCall.tryRule, Node.slots, matched, Option.map_none]
    · simp only [MacroCall.tryRule, Node.slots, matching, Option.map_none]
  | some b =>
    rw [matched] at matching
    right
    refine ⟨pattern.bindNames, template, b, σ, ?_, ?_, accords, within b matched, ?_⟩
    · simp only [MacroCall.tryRule, Node.slots, matched, Option.map_some]
    · simp only [MacroCall.tryRule, Node.slots, matching, Option.map_some]
    · exact (Node.matchInto_binds sorted matched).new

theorem findRule_respelled {params : List String} {rules rules' : List Node}
    (h : List.Forall₂ (RespelledRule used params) rules rules') (c : MacroCall) :
    rules.findSome? c.tryRule = none ∧ rules'.findSome? c.tryRule = none ∨
      ∃ bound template matched σ, rules.findSome? c.tryRule = some (template, matched) ∧
        rules'.findSome? c.tryRule = some (template.mapNames (outside σ) 0, matched.rename σ) ∧
        Accords used params bound (template.namesOutside 0) σ ∧
        (∀ x ∈ matched.names, x ∈ bound) ∧ ∀ x ∈ bound, x ≠ wildcard → x ∈ matched.names := by
  induction h with
  | nil => exact .inl ⟨rfl, rfl⟩
  | cons r _ ih =>
    rcases tryRule_respelled r c with ⟨none, none'⟩ | ⟨bound, template, b, σ, first, first', rest⟩
    · rwa [List.findSome?_cons, none, List.findSome?_cons, none']
    · refine .inr ⟨bound, template, b, σ, ?_, ?_, rest⟩
      · rw [List.findSome?_cons, first]
      · rw [List.findSome?_cons, first']

/-- Either macro selects where the other does. -/
theorem select_respelled (h : d.Respelled used d') (c : MacroCall) :
    (∃ e, d.select c = .error e ∧ d'.select c = .error e) ∨
      ∃ sel sel' σ, d.select c = .ok sel ∧ d'.select c = .ok sel' ∧ sel.Respelled used σ sel' := by
  have arity : d'.arity = d.arity := by rw [arity, arity, h.params]
  unfold select
  rw [arity, h.params]
  by_cases wrong : d.arity.any (· ≠ c.args.length) = true
  · rw [if_pos wrong, if_pos wrong]
    exact .inl ⟨_, rfl, rfl⟩
  · rw [if_neg wrong, if_neg wrong]
    have known : ∀ {bound names σ} {matched : Bindings}, Accords used d.params bound names σ →
        (∀ x ∈ matched.names, x ∈ bound) →
        ∀ x ∈ ((Bindings.extend [] (d.params.zip c.args)).extend matched).names ++
          ((Bindings.extend [] (d.params.zip c.args)).extend (matched.rename σ)).names, used x := by
      intro bound names σ matched accords within x hx
      have param : x ∈ (Bindings.extend [] (d.params.zip c.args)).names → used x := by
        intro mem
        rcases names_zip mem with mem | mem
        · cases mem
        · exact h.known x mem
      rcases List.mem_append.mp hx with hx | hx <;> rcases Bindings.names_extend hx with hx | hx
      · exact param hx
      · exact (accords.known x (List.mem_append_left _ (within x hx))).1
      · exact param hx
      · rw [Bindings.names_rename] at hx
        obtain ⟨y, hy, rfl⟩ := List.mem_map.mp hx
        exact (accords.known y (List.mem_append_left _ (within y hy))).2
    have selected : ∀ {bound template σ} (matched : Bindings) (quoted : Bool),
        Accords used d.params bound (template.namesOutside 0) σ →
        (∀ x ∈ matched.names, x ∈ bound) →
        (∀ x ∈ bound, x ≠ wildcard → x ∈ matched.names) →
        Selection.Respelled used σ
          ⟨template, quoted, (Bindings.extend [] (d.params.zip c.args)).extend matched⟩
          ⟨template.mapNames (outside σ) 0, quoted,
            (Bindings.extend [] (d.params.zip c.args)).extend (matched.rename σ)⟩ := by
      intro bound template σ matched quoted accords within complete
      constructor
      · rfl
      · rfl
      · intro x hx y hy
        exact accords.separates.apart x (List.mem_append_right _ hx) y (List.mem_append_right _ hy)
      · intro x hx
        exact accords.lookup within complete (List.mem_append_right _ hx)
      · intro x hx
        exact accords.known x (List.mem_append_right _ hx)
      · exact known accords within
    have template := h.template
    cases body : d.templateBody? <;> cases body' : d'.templateBody? <;>
      rw [body, body'] at template <;> rcases template with ⟨σ, rfl, accords⟩ | -
    · rcases findRule_respelled h.rules c with ⟨none, none'⟩ |
        ⟨bound, template, matched, σ, first, first', accords, within, complete⟩
      · rw [none, none']
        exact .inl ⟨_, rfl, rfl⟩
      · rw [first, first']
        exact .inr ⟨_, _, σ, rfl, rfl, selected matched false accords within complete⟩
    · refine .inr ⟨_, _, σ, rfl, rfl, selected [] true accords ?_ ?_⟩
      · simp [Bindings.names]
      · simp

end MacroDefinition

/-! ## Expanding -/

/-- What a call of a macro comes to. -/
theorem expandCall_result {d : MacroDefinition} {c : MacroCall} {u : UnitState}
    (called : u.registry.find? c.name = some d) :
    (Work.expandCall c u).1 =
      match d.select c with
      | .error fault => .error (.expansion fault)
      | .ok sel =>
        match (sel.prepared d.hygiene u).substitute (sel.filling c.name) with
        | .error fault => .error (.expansion fault)
        | .ok node => .ok ⟨node, if d.hygiene = .inject then node.binderNames else []⟩ := by
  have found : Work.calledMacro c u = (.ok d, u) := Work.calledMacro_ok.mpr ⟨called, rfl⟩
  unfold Work.expandCall
  rw [run_bind, found]
  dsimp only
  rw [run_bind]
  cases d.select c with
  | error fault => rfl
  | ok sel =>
    obtain ⟨table, prepared⟩ := Work.prepare_run sel d.hygiene u
    dsimp only [Work.ofExpansion, run_pure]
    rw [run_bind, prepared]
    dsimp only
    rw [run_bind]
    cases filled : (sel.prepared d.hygiene u).substitute (sel.filling c.name) with
    | error fault =>
      unfold Selection.filling Selection.level at filled
      rw [filled]
      rfl
    | ok node =>
      unfold Selection.filling Selection.level at filled
      rw [filled]
      dsimp only [run_pure]
      split <;> rfl

/-- The same names are installed, as they are spelled in each. -/
structure Expansion.Varies (e e' : Expansion) : Prop where
  node : e.node.Varies e'.node
  injected : e.injected = [] ∧ e'.injected = [] ∨
    e.injected = e.node.binderNames ∧ e'.injected = e'.node.binderNames

/-- Both calls fail or both are expanded, and then the expansions vary in names only. -/
def SameOutcome : Except Fault Expansion → Except Fault Expansion → Prop
  | .error _, .error _ => True
  | .ok e, .ok e' => e.Varies e'
  | _, _ => False

/-- Selections that are respelled are filled alike. -/
theorem Selection.Respelled.filled {used : String → Prop} {σ : String → String}
    {sel sel' : Selection} (h : sel.Respelled used σ sel') (hygiene : Hygiene) (name : String)
    {u u' : UnitState} (taken : ∀ x, used x → u.gensym.isTaken x = true)
    (taken' : ∀ x, used x → u'.gensym.isTaken x = true) :
    (∀ n, (sel.prepared hygiene u).substitute (sel.filling name) = .ok n →
      ∃ n', (sel'.prepared hygiene u').substitute (sel'.filling name) = .ok n') ∧
    (∀ n', (sel'.prepared hygiene u').substitute (sel'.filling name) = .ok n' →
      ∃ n, (sel.prepared hygiene u).substitute (sel.filling name) = .ok n) ∧
    ∀ n n', (sel.prepared hygiene u).substitute (sel.filling name) = .ok n →
      (sel'.prepared hygiene u').substitute (sel'.filling name) = .ok n' → n.Varies n' := by
  have level : sel'.level = sel.level := by rw [Selection.level, Selection.level, h.quoted]
  have respelled : ∀ {x}, x ∈ sel.template.namesOutside 0 → σ x ∈ sel'.template.namesOutside 0 := by
    intro x hx
    rw [h.template]
    exact Node.mem_namesOutside_mapNames.mpr ⟨x, hx, rfl⟩
  obtain ⟨spell, prepared, apart, same⟩ := sel.prepared_respelled hygiene u
    (fun x hx => taken x (h.known x hx).1) (fun x hx => taken x (h.bound x (List.mem_append_left _ hx)))
  obtain ⟨spell', prepared', apart', same'⟩ := sel'.prepared_respelled hygiene u'
    (by
      intro y hy
      rw [h.template] at hy
      obtain ⟨x, hx, rfl⟩ := Node.mem_namesOutside_mapNames.mp hy
      exact taken' _ (h.known x hx).2)
    (fun x hx => taken' x (h.bound x (List.mem_append_right _ hx)))
  have bound : ∀ x ∈ sel.template.namesOutside 0,
      sel.bindings.lookup (spell x) = sel'.bindings.lookup (spell' (σ x)) := by
    intro x hx
    rw [same x hx, same' _ (respelled hx), h.same x hx]
  rw [h.template, Node.mapNames_outside] at prepared'
  rw [prepared, prepared']
  have reached : ∀ p ∈ sel.template.namesIn (Depths.inside sel.level) (Depths.start sel.level),
      p.1.filling = 0 →
      sel.bindings.lookup (outside spell p.1.isolation p.2) =
        sel'.bindings.lookup (outside (fun x => spell' (σ x)) p.1.isolation p.2) := by
    intro p hp filling
    obtain ⟨outermost, mem⟩ := Node.mem_namesOutside_of_reached hp filling
    rw [outermost]
    exact bound p.2 mem
  unfold Node.substitute
  simp only [Filling.transformM_eq_ok_iff]
  rw [show (sel.filling name).level = sel.level from rfl,
    show (sel'.filling name).level = sel.level from level]
  refine ⟨fun n filled => ?_, fun n' filled' => ?_, fun n n' filled filled' => ?_⟩
  · exact Filling.Fills.twin (d := Depths.start sel.level) level reached filled
  · refine Filling.Fills.twin (d := Depths.start sel.level) level.symm (fun p hp filling => ?_) filled'
    rw [show (sel'.filling name).level = sel.level from level] at hp
    exact (reached p hp filling).symm
  · refine ⟨sel.template, spell, fun x => spell' (σ x), sel.filling name, sel'.filling name, level,
      fun x hx y hy => ⟨fun e => ?_, fun e => ?_⟩, bound, filled, filled'⟩
    · rw [apart x hx y hy e]
    · rw [h.apart x hx y hy (apart' _ (respelled hx) _ (respelled hy) e)]

/-- A call of either of two macros that differ in names only expands if that of the other does. -/
theorem expandCall_sameOutcome {used : String → Prop} {d d' : MacroDefinition} (h : d.Respelled used d')
    {c : MacroCall} {u u' : UnitState} (called : u.registry.find? c.name = some d)
    (called' : u'.registry.find? c.name = some d') (taken : ∀ x, used x → u.gensym.isTaken x = true)
    (taken' : ∀ x, used x → u'.gensym.isTaken x = true) :
    SameOutcome (Work.expandCall c u).1 (Work.expandCall c u').1 := by
  rw [expandCall_result called, expandCall_result called', h.hygiene]
  rcases d.select_respelled h c with ⟨e, failed, failed'⟩ | ⟨sel, sel', σ, made, made', respelled⟩
  · rw [failed, failed']
    trivial
  · rw [made, made']
    dsimp only
    obtain ⟨there, back, varies⟩ := respelled.filled d.hygiene c.name taken taken'
    cases filled : (sel.prepared d.hygiene u).substitute (sel.filling c.name) with
    | error e =>
      cases filled' : (sel'.prepared d.hygiene u').substitute (sel'.filling c.name) with
      | error e' => trivial
      | ok n' =>
        obtain ⟨n, made⟩ := back n' filled'
        rw [filled] at made
        cases made
    | ok n =>
      obtain ⟨n', made⟩ := there n filled
      rw [made]
      refine ⟨varies n n' filled made, ?_⟩
      by_cases inject : d.hygiene = .inject
      · simp [inject]
      · simp [inject]

end GlyphScript
