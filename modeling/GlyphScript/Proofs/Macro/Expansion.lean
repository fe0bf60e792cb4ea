import GlyphScript.Proofs.Macro.Provenance

/-!
# Expanding a call without capture

The names that an isolating macro brings into its expansion are symbols made
for it, names of macros and the wildcard, unless a parameter stands in a quoted
template where filling does not reach it.
-/

namespace GlyphScript

namespace Selection

/-- The quote level at which the template is filled. -/
def level (sel : Selection) : Nat := if sel.quoted then 1 else 0

def filling (sel : Selection) (name : String) : Filling := ⟨sel.bindings, name, sel.level⟩

/-- The template as the hygiene of its macro wants it in some state. -/
def prepared (sel : Selection) (hygiene : Hygiene) (s : UnitState) : Node :=
  (sel.template.withHygiene hygiene (sel.bindings.names ++ s.registry.names) s.gensym).1

/-- The gensym after the template has been prepared. -/
def gensym (sel : Selection) (hygiene : Hygiene) (s : UnitState) : Gensym :=
  (sel.template.withHygiene hygiene (sel.bindings.names ++ s.registry.names) s.gensym).2.2

theorem level_le_one (sel : Selection) : sel.level ≤ 1 := by
  rw [level]
  split <;> decide

end Selection

namespace Work

variable {s s' : UnitState} {c : MacroCall} {e : Expansion}

theorem ofExpansion_ok {α : Type} {r : Except ExpansionFault α} {a : α} :
    ofExpansion r s = (.ok a, s') ↔ r = .ok a ∧ s' = s := by
  cases r with
  | error fault =>
    refine ⟨fun h => ?_, fun h => ?_⟩
    · nomatch h
    · nomatch h.1
  | ok b =>
    constructor
    · intro h
      cases h
      exact ⟨rfl, rfl⟩
    · rintro ⟨h, rfl⟩
      cases h
      rfl

theorem calledMacro_ok {d : MacroDefinition} :
    calledMacro c s = (.ok d, s') ↔ s.registry.find? c.name = some d ∧ s' = s := by
  rw [calledMacro, run_bind, run_get]
  dsimp only
  cases s.registry.find? c.name with
  | some definition =>
    constructor
    · intro h
      cases h
      exact ⟨rfl, rfl⟩
    · rintro ⟨h, rfl⟩
      cases h
      rfl
  | none =>
    refine ⟨fun h => ?_, fun h => ?_⟩
    · nomatch h
    · nomatch h.1

theorem prepare_run (sel : Selection) (hygiene : Hygiene) (s : UnitState) :
    ∃ table, prepare sel hygiene s =
      (.ok (sel.prepared hygiene s, table), { s with gensym := sel.gensym hygiene s }) :=
  ⟨_, rfl⟩

/-- A call expands to a template of its macro, prepared and filled. -/
theorem expandCall_ok (h : (expandCall c).run s = (.ok e, s')) : ∃ d sel,
    s.registry.find? c.name = some d ∧ d.select c = .ok sel ∧
      (sel.prepared d.hygiene s).substitute (sel.filling c.name) = .ok e.node ∧
      e.injected = (if d.hygiene = .inject then e.node.binderNames else []) ∧
      s'.registry = s.registry ∧ s'.checks = s.checks ∧ s'.progress = s.progress ∧
      s'.gensym = sel.gensym d.hygiene s := by
  obtain ⟨d, s₁, hd, h₁⟩ := bind_ok.mp h
  obtain ⟨called, rfl⟩ := calledMacro_ok.mp hd
  obtain ⟨sel, s₂, hsel, h₂⟩ := bind_ok.mp h₁
  obtain ⟨selected, rfl⟩ := ofExpansion_ok.mp hsel
  obtain ⟨⟨template, table⟩, s₃, prepared, h₃⟩ := bind_ok.mp h₂
  obtain ⟨table', ready⟩ := prepare_run sel d.hygiene s₂
  cases ready.symm.trans prepared
  obtain ⟨node, s₄, hnode, h₄⟩ := bind_ok.mp h₃
  obtain ⟨filled, rfl⟩ := ofExpansion_ok.mp hnode
  refine ⟨d, sel, called, selected, ?_⟩
  dsimp only at h₄
  split at h₄
  · cases h₄
    exact ⟨filled, rfl, rfl, rfl, rfl, rfl⟩
  · cases h₄
    exact ⟨filled, rfl, rfl, rfl, rfl, rfl⟩

end Work

/-! ## Names of an expansion -/

namespace Selection

/-- The names outside quotes of an expansion, each with its origin. -/
def names (sel : Selection) (hygiene : Hygiene) (s : UnitState) (name : String) :
    List (Origin × String) :=
  (sel.prepared hygiene s).trace (sel.filling name) (Depths.start sel.level)

/-- The names of the template outside quotes that filling does not reach, since they stand outside
the unquotes of a quoted template. -/
def bareNames (sel : Selection) : List String :=
  ((sel.template.namesIn (Depths.inside sel.level) (Depths.start sel.level)).filter
    fun (d, _) => d.isolation = 0 && d.filling ≠ 0).map (·.2)

end Selection

/-- Every tree of the definition has the slots of its heads. -/
def MacroDefinition.Shaped (d : MacroDefinition) : Prop :=
  (∀ r ∈ d.rules, r.Shaped) ∧ ∀ q, d.template = some q → q.Shaped

/-- A name of an expansion that is new in the unit, or the name of a macro, or the wildcard. -/
def Uncaptured (unit : List String) (s : UnitState) (x : String) : Prop :=
  s.gensym.isTaken x = false ∧ x ∉ unit ∨ s.registry.contains x = true ∨ x = wildcard

section

variable {s s' : UnitState} {c : MacroCall} {e : Expansion} {d : MacroDefinition} {sel : Selection}

theorem passes_shaped (args : ∀ a ∈ c.args, a.Shaped) {n : Node} (h : c.Passes n) : n.Shaped := by
  rcases h.offers with ⟨a, ha, hn⟩ | rfl
  · exact (args a ha).of_mem_walk hn
  · refine Node.shaped_mk.mpr ⟨.cons .many .nil, fun slot hs a ha => ?_⟩
    rw [List.mem_singleton.mp hs] at ha
    exact args a ha

theorem select_shaped (selected : d.select c = .ok sel) (shaped : d.Shaped) :
    sel.template.Shaped := by
  have h := (d.select_ok selected).1
  split at h
  · obtain ⟨q, hq, ht⟩ := h
    exact (shaped.2 q hq).of_mem_walk (Node.mem_walk_of_mem_children ht)
  · obtain ⟨r, hr, ht⟩ := h
    exact (shaped.1 r hr).of_mem_walk (Node.mem_walk_of_mem_children ht)

theorem prepared_isolated (sel : Selection) (s : UnitState) :
    Node.Isolated (sel.bindings.names ++ s.registry.names) s.gensym 0 sel.template
      (sel.prepared .isolate s) :=
  (Node.isolate_isolated sel.template 0 (RenameTable.empty, s.gensym) (.start s.gensym)).1

theorem prepared_shaped (h : sel.template.Shaped) (hygiene : Hygiene) (s : UnitState) :
    (sel.prepared hygiene s).Shaped := by
  cases hygiene with
  | isolate => exact (prepared_isolated sel s).shaped h
  | capture | inject => exact h

/-- The names of an expansion are those of the filled template. -/
theorem names_eq_namesOutside (run : (Work.expandCall c).run s = (.ok e, s'))
    (called : s.registry.find? c.name = some d) (selected : d.select c = .ok sel)
    (shaped : d.Shaped) (args : ∀ a ∈ c.args, a.Shaped) :
    (sel.names d.hygiene s c.name).map (·.2) = e.node.namesOutside 0 := by
  obtain ⟨d', sel', called', selected', filled, -⟩ := Work.expandCall_ok run
  cases called.symm.trans called'
  cases selected.symm.trans selected'
  have bound : ∀ x ∈ (sel.filling c.name).bindings, x.2.Shaped :=
    fun x hx => passes_shaped args ((d.select_ok selected).2 x hx)
  exact (Node.substitute_filledWith bound _ _ _ filled).names
    (prepared_shaped (select_shaped selected shaped) _ _) (Depths.start sel.level) rfl

/-- What comes in with the arguments is written in one of them. -/
theorem mem_names_argument (selected : d.select c = .ok sel) {hygiene : Hygiene} {x : String}
    (h : (.argument, x) ∈ sel.names hygiene s c.name) :
    ∃ a ∈ c.args, ∃ m ∈ a.walk, x ∈ m.head.ownNames := by
  obtain ⟨y, -, hy⟩ := Node.mem_trace.mp h
  obtain ⟨b, hb, hx⟩ := Filling.mem_trace_argument hy
  obtain ⟨m, hm, hx⟩ := Node.mem_ownNames_of_mem_namesOutside hx
  rcases ((d.select_ok selected).2 b hb).offers with ⟨a, ha, hba⟩ | tuple
  · exact ⟨a, ha, m, Node.mem_walk_trans hba hm, hx⟩
  · rw [tuple] at hm
    rcases Node.mem_walk_mk.mp hm with rfl | ⟨slot, hs, a, ha, hm⟩
    · nomatch hx
    · rw [List.mem_singleton.mp hs] at ha
      exact ⟨a, ha, m, hm, hx⟩

theorem contains_iff_mem_names (r : Registry) (x : String) :
    r.contains x = true ↔ x ∈ r.names := by
  simp [Registry.contains, Registry.find?, Registry.names, List.find?_isSome]

theorem agree_of_mem_namesIn (sel : Selection) {n : Node} {x : Depths × String}
    (h : x ∈ n.namesIn (Depths.inside sel.level) (Depths.start sel.level)) :
    x.1.Agree sel.level :=
  Node.namesIn_invariant (fun head _ hd => hd.inside head) n _
    (Depths.agree_start sel.level_le_one) x h

/-- A name of the template in an expansion is uncaptured unless it is a parameter that stands
bare. -/
theorem mem_names_template {unit : List String} (inUse : ∀ x ∈ unit, s.gensym.isTaken x = true)
    {x : String} (h : (.template, x) ∈ sel.names .isolate s c.name) :
    Uncaptured unit s x ∨ x ∈ sel.bareNames ∧ x ∈ sel.bindings.names := by
  obtain ⟨⟨d, y⟩, hy, h⟩ := Node.mem_trace.mp h
  obtain ⟨rfl, result, kept⟩ := Filling.mem_trace_template.mp h
  have isolation : d.isolation = 0 := by
    have agree : d.Agree sel.level := agree_of_mem_namesIn sel hy
    have result : d.result = 0 := result
    rcases agree with h | h <;> omega
  obtain ⟨⟨d', z⟩, hz, rfl, apart⟩ := exists_of_mem_right
    ((prepared_isolated sel s).names sel.level (Depths.start sel.level) rfl) hy
  rw [if_pos isolation] at apart
  unfold Apart at apart
  split at apart
  · rename_i keep
    dsimp only at apart hz keep isolation
    subst apart
    rw [List.mem_append] at keep
    rcases keep with (bound | named) | wildcard
    · have filling : d.filling ≠ 0 := by
        refine kept.resolve_right fun unbound => ?_
        obtain ⟨b, hb, e⟩ := List.mem_map.mp bound
        exact absurd e.symm (by simpa using List.lookup_eq_none_iff.mp unbound b hb)
      refine .inr ⟨List.mem_map.mpr ⟨(d, x), List.mem_filter.mpr ⟨hz, ?_⟩, rfl⟩, bound⟩
      simp [isolation, filling]
    · exact .inl (.inr (.inl ((contains_iff_mem_names _ _).mpr named)))
    · exact .inl (.inr (.inr wildcard))
  · rename_i keep
    refine .inl (.inl ⟨apart, fun hu => ?_⟩)
    rw [inUse _ hu] at apart
    nomatch apart

/-- A parameter that stands bare is left as it is. -/
theorem mem_names_of_bare {x : String} (bare : x ∈ sel.bareNames) (bound : x ∈ sel.bindings.names) :
    (.template, x) ∈ sel.names .isolate s c.name := by
  obtain ⟨⟨d, y⟩, hy, rfl⟩ := List.mem_map.mp bare
  obtain ⟨hy, depths⟩ := List.mem_filter.mp hy
  simp only [Bool.and_eq_true, decide_eq_true_eq] at depths
  obtain ⟨⟨d', z⟩, hz, rfl, apart⟩ := exists_of_mem_right
    ((prepared_isolated sel s).names sel.level (Depths.start sel.level) rfl).flip hy
  dsimp only at apart bound depths hz
  rw [if_pos depths.1, Apart, if_pos (.inl (List.mem_append_left _ bound))] at apart
  subst apart
  refine Node.mem_trace.mpr ⟨_, hz, Filling.mem_trace_template.mpr ⟨rfl, ?_, .inl depths.2⟩⟩
  have agree : d'.Agree sel.level := agree_of_mem_namesIn sel hz
  show d'.result = 0
  rcases agree with h | h <;> omega

/-- Filling reaches every name outside quotes in the template of a rule. -/
theorem bareNames_of_rule (h : sel.quoted = false) : sel.bareNames = [] := by
  have level : sel.level = 0 := by rw [Selection.level, h]; rfl
  rw [Selection.bareNames, List.map_eq_nil_iff, List.filter_eq_nil_iff]
  rintro ⟨d, x⟩ hx
  have agree : d.Agree sel.level := agree_of_mem_namesIn sel hx
  rw [level] at agree
  simp only [Bool.and_eq_true, decide_eq_true_eq]
  rcases agree with h | h <;> omega

/-- The names outside quotes of the expansion of a call of an isolating macro are known with their
origins. Those that come in with the arguments are written there, and those of the template are new
in the unit, names of macros or the wildcard, if and only if no other parameter stands bare. -/
theorem expandCall_uncaptured_iff {unit : List String}
    (run : (Work.expandCall c).run s = (.ok e, s'))
    (called : s.registry.find? c.name = some d) (isolates : d.hygiene = .isolate)
    (selected : d.select c = .ok sel) (shaped : d.Shaped) (args : ∀ a ∈ c.args, a.Shaped)
    (inUse : ∀ x ∈ unit, s.gensym.isTaken x = true) (bound : ∀ x ∈ sel.bindings.names, x ∈ unit) :
    (sel.names .isolate s c.name).map (·.2) = e.node.namesOutside 0 ∧
    (∀ x, (.argument, x) ∈ sel.names .isolate s c.name →
      ∃ a ∈ c.args, ∃ m ∈ a.walk, x ∈ m.head.ownNames) ∧
    ((∀ x, (.template, x) ∈ sel.names .isolate s c.name → Uncaptured unit s x) ↔
      ∀ x ∈ sel.bareNames, x ∈ sel.bindings.names →
        s.registry.contains x = true ∨ x = wildcard) := by
  refine ⟨?_, fun x => mem_names_argument selected, fun h x bare hx => ?_, fun h x hx => ?_⟩
  · rw [← names_eq_namesOutside run called selected shaped args, isolates]
  · rcases h x (mem_names_of_bare bare hx) with new | macroOrWildcard
    · exact absurd (bound x hx) new.2
    · exact macroOrWildcard
  · rcases mem_names_template inUse hx with h' | ⟨bare, hx⟩
    · exact h'
    · exact .inr (h x bare hx)

end

/-! ## A parameter that stands bare -/

/-- The macro `m` with the parameter `x` and the quoted template `x ++ '( x )'`. -/
def sumMacro : MacroDefinition where
  name := "m"
  params := ["x"]
  span := default
  phase := .expand
  hygiene := .isolate
  rules := []
  template := some (Node.quote default (Node.binaryOp default "++" (Node.identifier default "x")
    (Node.unquote default (Node.identifier default "x"))))

/-- `m(( 3 ))` -/
def sumCall : MacroCall := ⟨"m", [Node.literal default (.integer 3) .number], default⟩

def sumSelection : Selection where
  template := Node.binaryOp default "++" (Node.identifier default "x")
    (Node.unquote default (Node.identifier default "x"))
  quoted := true
  bindings := [("x", Node.literal default (.integer 3) .number)]

/-- A unit in which `sumMacro` is known. -/
def sumUnit : UnitState :=
  { UnitState.start (Gensym.ofNames "%" (.ofList ["m", "x"])) none with registry := ⟨[sumMacro]⟩ }

theorem sumMacro_shaped : sumMacro.Shaped := by
  refine ⟨fun r h => (List.not_mem_nil h).elim, fun q h => ?_⟩
  cases h
  decide

theorem sumCall_run : ((Work.expandCall sumCall).run sumUnit).1 =
    .ok ⟨Node.binaryOp default "++" (Node.identifier default "x")
      (Node.literal default (.integer 3) .number), []⟩ := rfl

/-- The case of `sumCall`, in which the bare parameter is all that is left of the template. -/
theorem sumCall_uncaptured_iff :
    (sumSelection.names .isolate sumUnit "m").map (·.2) = ["x"] ∧
    (∀ x, (.argument, x) ∈ sumSelection.names .isolate sumUnit "m" →
      ∃ a ∈ sumCall.args, ∃ m ∈ a.walk, x ∈ m.head.ownNames) ∧
    ((∀ x, (.template, x) ∈ sumSelection.names .isolate sumUnit "m" →
        Uncaptured ["m", "x"] sumUnit x) ↔
      ∀ x ∈ sumSelection.bareNames, x ∈ sumSelection.bindings.names →
        sumUnit.registry.contains x = true ∨ x = wildcard) :=
  expandCall_uncaptured_iff (Prod.ext sumCall_run rfl) rfl rfl rfl sumMacro_shaped (by decide)
    (by decide) (by decide)

/-- The name left of the template of `sumMacro` can be captured at the call. -/
theorem isolated_call_captured : ¬ ∀ {s s' : UnitState} {c : MacroCall} {e : Expansion}
    {d : MacroDefinition} {sel : Selection} {unit : List String},
    (Work.expandCall c).run s = (.ok e, s') → s.registry.find? c.name = some d →
    d.hygiene = .isolate → d.select c = .ok sel → d.Shaped → (∀ a ∈ c.args, a.Shaped) →
    (∀ x ∈ unit, s.gensym.isTaken x = true) → (∀ x ∈ sel.bindings.names, x ∈ unit) →
    ∀ x, (.template, x) ∈ sel.names .isolate s c.name → Uncaptured unit s x := by
  intro claim
  have bare : (.template, "x") ∈ sumSelection.names .isolate sumUnit "m" :=
    mem_names_of_bare (c := sumCall) (by decide) (by decide)
  have inUse : ∀ x ∈ ["m", "x"], sumUnit.gensym.isTaken x = true := by decide
  rcases claim (Prod.ext sumCall_run rfl) rfl rfl rfl sumMacro_shaped (by decide) inUse (by decide)
    "x" bare with ⟨_, new⟩ | named | wildcard
  · exact new (by decide)
  · exact absurd named (by decide)
  · exact absurd wildcard (by decide)

end GlyphScript
