import GlyphScript.Proofs.Parsing.Enrolment

/-!
# Registries of trees

A definition that a parser reads is registered where it ends, a registry made of
a finished tree takes the definitions where they start. The two differ where a
definition stands inside another one of the same name.
-/

namespace GlyphScript

namespace Node

/-! ## Definitions inside definitions -/

mutual

/-- The macros defined in a tree in the order in which their definitions start, each with those
whose definitions it stands in, outermost first. -/
def nested : Node → List (List MacroDefinition × MacroDefinition)
  | mk span head slots =>
    match MacroDefinition.ofNode? (mk span head slots) with
    | some d => ([], d) :: (nestedSlots slots).map fun (around, e) => (d :: around, e)
    | none => nestedSlots slots

def nestedSlots : List (Slot Node) → List (List MacroDefinition × MacroDefinition)
  | [] => []
  | .absent :: slots => nestedSlots slots
  | .one n :: slots => nested n ++ nestedSlots slots
  | .many ns :: slots => nestedList ns ++ nestedSlots slots

def nestedList : List Node → List (List MacroDefinition × MacroDefinition)
  | [] => []
  | n :: ns => nested n ++ nestedList ns

end

theorem nestedList_eq (ns : List Node) : nestedList ns = ns.flatMap nested := by
  induction ns with
  | nil => rfl
  | cons n ns ih => rw [nestedList, ih, List.flatMap_cons]

theorem nestedSlots_eq (slots : List (Slot Node)) :
    nestedSlots slots = slots.flatMap fun s => s.toList.flatMap nested := by
  induction slots with
  | nil => rfl
  | cons s slots ih =>
    rw [List.flatMap_cons, ← ih]
    cases s with
    | absent => rfl
    | one n => rw [nestedSlots, Slot.toList, List.flatMap_singleton]
    | many ns => rw [nestedSlots, nestedList_eq, Slot.toList]

/-- The last definition of a macro to start, with those that it stands in. -/
def lastNested? (n : Node) (x : String) : Option (List MacroDefinition × MacroDefinition) :=
  n.nested.reverse.find? (·.2.name = x)

theorem map_snd_nested (n : Node) : n.nested.map (·.2) = n.walk.filterMap MacroDefinition.ofNode? := by
  induction n using induction_on with
  | step span head slots ih =>
    have below : (nestedSlots slots).map (·.2) =
        (slots.flatMap fun s => s.toList.flatMap walk).filterMap MacroDefinition.ofNode? := by
      rw [nestedSlots_eq, List.map_flatMap, List.filterMap_flatMap]
      refine List.flatMap_congr fun s hs => ?_
      rw [List.map_flatMap, List.filterMap_flatMap]
      exact List.flatMap_congr fun n hn => ih s hs n hn
    rw [nested, walk_mk]
    cases made : MacroDefinition.ofNode? (mk span head slots) with
    | none => rw [List.filterMap_cons_none made, ← below]
    | some d =>
      rw [List.filterMap_cons_some made, ← below]
      simp [Function.comp_def]

end Node

/-! ## The outermost definition -/

/-- Of a definition and those around it, the outermost of a name. -/
def outermost (x : String) (p : List MacroDefinition × MacroDefinition) : MacroDefinition :=
  (p.1.find? (·.name = x)).getD p.2

theorem outermost_alone {x : String} {p : List MacroDefinition × MacroDefinition}
    (alone : ∀ e ∈ p.1, e.name ≠ x) : outermost x p = p.2 := by
  have none : p.1.find? (·.name = x) = none := by simpa using alone
  rw [outermost, none, Option.getD_none]

theorem outermost_cons (x : String) (d e : MacroDefinition) (around : List MacroDefinition) :
    outermost x (d :: around, e) = if d.name = x then d else outermost x (around, e) := by
  by_cases same : d.name = x <;> simp [outermost, same]

theorem find?_reverse_flatMap {α : Type} {x : String} {f : α → List MacroDefinition}
    {g : α → List (List MacroDefinition × MacroDefinition)} {as : List α}
    (each : ∀ a ∈ as, (f a).reverse.find? (·.name = x) =
      ((g a).reverse.find? (·.2.name = x)).map (outermost x)) :
    (as.flatMap f).reverse.find? (·.name = x) =
      ((as.flatMap g).reverse.find? (·.2.name = x)).map (outermost x) := by
  induction as with
  | nil => rfl
  | cons a as ih =>
    rw [List.flatMap_cons, List.flatMap_cons, List.reverse_append, List.reverse_append,
      List.find?_append, List.find?_append, Option.map_or, each a List.mem_cons_self,
      ih fun a ha => each a (List.mem_cons_of_mem _ ha)]

/-- The last definition of a name to end is the outermost around the last one to start. -/
theorem Node.find?_definitions (n : Node) (x : String) :
    n.definitions.reverse.find? (·.name = x) = (n.lastNested? x).map (outermost x) := by
  unfold lastNested?
  induction n using induction_on with
  | step span head slots ih =>
    have below : (definitionsIn slots).reverse.find? (·.name = x) =
        ((nestedSlots slots).reverse.find? (·.2.name = x)).map (outermost x) := by
      rw [nestedSlots_eq]
      exact find?_reverse_flatMap fun s hs => find?_reverse_flatMap fun n hn => ih s hs n hn
    rw [definitions_mk, nested, List.reverse_append, List.find?_append, below]
    cases MacroDefinition.ofNode? (mk span head slots) with
    | none => simp
    | some d =>
      rw [List.reverse_cons, List.find?_append, ← List.map_reverse, List.find?_map, Option.map_or,
        Option.map_map]
      by_cases same : d.name = x
      · have outer : outermost x ∘ (fun p : List MacroDefinition × MacroDefinition => (d :: p.1, p.2)) = fun _ => d := by
          funext p
          exact (outermost_cons x d p.2 p.1).trans (if_pos same)
        have alone : outermost x ([], d) = d := rfl
        simp only [outer, alone, same, decide_true, List.reverse_singleton, List.find?_cons_of_pos,
          Option.toList_some, Option.map_some, Function.comp_def]
        cases (nestedSlots slots).reverse.find? (·.2.name = x) <;> rfl
      · have outer : outermost x ∘ (fun p : List MacroDefinition × MacroDefinition => (d :: p.1, p.2)) = outermost x := by
          funext p
          exact (outermost_cons x d p.2 p.1).trans (if_neg same)
        simp [outer, same, Function.comp_def]

/-! ## Registries -/

theorem Registry.find?_enrol (r : Registry) (ds : List MacroDefinition) (x : String) :
    (r.enrol ds).find? x = (ds.reverse.find? (·.name = x)).or (r.find? x) := by
  induction ds generalizing r with
  | nil => rfl
  | cons d ds ih =>
    have first : (r.enrol (d :: ds)) = (r.insert d).enrol ds := rfl
    rw [first, ih, find?_insert, List.reverse_cons, List.find?_append, Option.or_assoc]
    by_cases same : d.name = x <;> simp [same]

/-- A registry made of a tree knows the last definition of a macro to start. -/
theorem Registry.find?_ofTree (n : Node) (x : String) :
    (ofTree n).find? x = (n.lastNested? x).map (·.2) := by
  have last : (n.nested.map (·.2)).reverse.find? (·.name = x) = (n.lastNested? x).map (·.2) := by
    rw [← List.map_reverse, List.find?_map]
    rfl
  have enrolled : ofTree n = empty.enrol (n.nested.map (·.2)) := by
    rw [Node.map_snd_nested]
    rfl
  rw [enrolled, find?_enrol, last]
  exact Option.or_none

/-- A unit that is parsed without expanding macros has the macros registered that a registry of its
tree has. Of several definitions of a name the parser has the outermost around the last one, and
the registry of the tree has this last one itself; they are the same one unless that stands inside
another definition of the name. -/
theorem registry_of_tree {settings : Settings} {tokens : List Token} {unit u : UnitState} {n : Node}
    (fresh : unit.registry = Registry.empty)
    (read : Work.parse (Parser.program settings) tokens unit = (.ok n, u))
    (unexpanded : u.expansions = unit.expansions) (x : String) :
    u.registry.contains x = (Registry.ofTree n).contains x ∧
    u.registry.find? x = (n.lastNested? x).map (outermost x) ∧
    (Registry.ofTree n).find? x = (n.lastNested? x).map (·.2) ∧
    ((∀ around d, n.lastNested? x = some (around, d) → ∀ e ∈ around, e.name ≠ x) →
      u.registry.find? x = (Registry.ofTree n).find? x) := by
  have parsed : u.registry.find? x = (n.lastNested? x).map (outermost x) := by
    rw [registry_of_unexpanded read unexpanded, fresh, Registry.find?_enrol, n.find?_definitions]
    exact Option.or_none
  have made := Registry.find?_ofTree n x
  refine ⟨?_, parsed, made, ?_⟩
  · rw [Registry.contains, Registry.contains, parsed, made, Option.isSome_map, Option.isSome_map]
  · intro alone
    rw [parsed, made]
    cases last : n.lastNested? x with
    | none => rfl
    | some p => exact congrArg some (outermost_alone (alone p.1 p.2 last))

/-! ## Definitions inside definitions -/

/-- The rule of `a` makes a definition of `b`, which is defined again behind it. -/
def innerDefinition : String :=
  "<%| a (( )) [[ \x7b@ _ ==> [[ <%| b ((x)) [[ '[ x ]' ]] |%> ]] @\x7d ]] |%> " ++
  "<%| b (( )) [[ '[ 1 ]' ]] |%>"

/-- The rule of `m` makes another definition of `m`. -/
def selfDefinition : String :=
  "<%| m (( )) [[ \x7b@ _ ==> [[ <%| m ((x)) [[ '[ x ]' ]] |%> ]] @\x7d ]] |%>"

theorem registry_of_tree_innerDefinition : ∃ tokens n u,
    tokenize innerDefinition "<input>" = .ok tokens ∧
    Work.parse (Parser.program {}) tokens (UnitState.ofTokens {} tokens none) = (.ok n, u) ∧
    u.expansions = 0 ∧ (n.nested.map fun (around, d) => (around.map (·.name), d.name)) =
      [([], "a"), (["a"], "b"), ([], "b")] ∧
    u.registry.contains "b" = (Registry.ofTree n).contains "b" ∧
    u.registry.find? "b" = (n.lastNested? "b").map (outermost "b") ∧
    (Registry.ofTree n).find? "b" = (n.lastNested? "b").map (·.2) ∧
    ((∀ around d, n.lastNested? "b" = some (around, d) → ∀ e ∈ around, e.name ≠ "b") →
      u.registry.find? "b" = (Registry.ofTree n).find? "b") := by
  have reads : ((tokenize innerDefinition "<input>").toOption.bind fun tokens =>
      let r := Work.parse (Parser.program {}) tokens (UnitState.ofTokens {} tokens none)
      r.1.toOption.map fun n =>
        (r.2.expansions, n.nested.map fun (around, d) => (around.map (·.name), d.name))) =
      some (0, [([], "a"), (["a"], "b"), ([], "b")]) := by
    delta innerDefinition
    rw [tokenize_append_ofList]
    decide +kernel
  obtain ⟨tokens, divided, reads⟩ := Option.bind_eq_some_iff.mp reads
  obtain ⟨n, made, found⟩ := Option.map_eq_some_iff.mp reads
  obtain ⟨expansions, nested⟩ := Prod.mk.inj found
  obtain ⟨u, parsed⟩ : ∃ u, Work.parse (Parser.program {}) tokens
      (UnitState.ofTokens {} tokens none) = (.ok n, u) := ⟨_, Prod.ext (ok_of_toOption made) rfl⟩
  rw [parsed] at expansions
  exact ⟨tokens, n, u, ok_of_toOption divided, parsed, expansions, nested,
    registry_of_tree rfl parsed expansions "b"⟩

/-- The parser knows the outer definition of `selfDefinition`, the registry of its tree the inner
one. -/
theorem selfDefinition_lookups : ∃ tokens n u,
    tokenize selfDefinition "<input>" = .ok tokens ∧
    Work.parse (Parser.program {}) tokens (UnitState.ofTokens {} tokens none) = (.ok n, u) ∧
    u.expansions = 0 ∧ u.registry.find? "m" ≠ (Registry.ofTree n).find? "m" := by
  have reads : ((tokenize selfDefinition "<input>").toOption.bind fun tokens =>
      let r := Work.parse (Parser.program {}) tokens (UnitState.ofTokens {} tokens none)
      r.1.toOption.map fun n => (r.2.expansions, (r.2.registry.find? "m").map (·.params),
        ((Registry.ofTree n).find? "m").map (·.params))) = some (0, some [], some ["x"]) := by
    delta selfDefinition
    rw [tokenize_ofList]
    decide +kernel
  obtain ⟨tokens, divided, reads⟩ := Option.bind_eq_some_iff.mp reads
  obtain ⟨n, made, found⟩ := Option.map_eq_some_iff.mp reads
  obtain ⟨expansions, params⟩ := Prod.mk.inj found
  obtain ⟨outer, inner⟩ := Prod.mk.inj params
  refine ⟨tokens, n, _, ok_of_toOption divided, Prod.ext (ok_of_toOption made) rfl, expansions, ?_⟩
  intro same
  rw [same, inner] at outer
  cases outer

end GlyphScript
