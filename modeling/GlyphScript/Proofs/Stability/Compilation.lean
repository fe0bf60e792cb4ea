import GlyphScript.Proofs.Compilation
import GlyphScript.Proofs.Fidelity.Reprinting
import GlyphScript.Proofs.Stability.Definitions
import GlyphScript.Proofs.Validity

/-!
# Expanded programs compile to themselves

What an elementary unit compiles to is well formed and settled. It is printed
as a text that is read as the same program, with macros of the same names, so
that there is nothing left to expand in it.
-/

namespace GlyphScript

/-! ## Settled programs -/

namespace Node

variable {n n' : Node} {r r' : Registry}

/-- Only the names of the macros decide what is settled. -/
theorem Settled.alike (h : n.Alike n') (names : ∀ x, r'.contains x = true → r.contains x = true)
    (settled : n.Settled r) : n'.Settled r' := by
  induction n using induction_on generalizing n' with
  | step span head slots ih =>
    obtain ⟨own, below⟩ := settled_iff.mp settled
    have same : head = n'.head := h.head
    refine settled_iff.mpr ⟨⟨same ▸ own.expanded, fun call callee' x hc hx => ?_⟩,
      fun opened c' hc' => ?_⟩
    · obtain ⟨s, hs, rel⟩ := exists_of_mem_right h.slots hc
      cases rel with
      | @one callee _ alike =>
        refine Bool.eq_false_iff.mpr fun known => ?_
        have unknown := own.uncalled (same.trans call) callee x hs (alike.head.trans hx)
        exact Bool.noConfusion (unknown.symm.trans (names x known))
    · obtain ⟨c, hc, alike⟩ := exists_of_mem_right h.children hc'
      obtain ⟨s, hs, hn⟩ := List.mem_flatMap.mp hc
      exact ih s hs c hn alike (below (same ▸ opened) c hc)

end Node

/-! ## Runs -/

namespace Work

variable {settings : Settings} {tokens : List Token} {u v : UnitState} {n : Node}

theorem parse_of_run {s : ParserState}
    (run : Parser.program settings (ParserState.start u tokens) = (.ok n, s)) :
    parse (Parser.program settings) tokens u = (.ok n, s.unit) := by
  generalize Parser.program settings = p at run ⊢
  show ((p (ParserState.start u tokens)).1, (p (ParserState.start u tokens)).2.unit) = _
  rw [run]

/-- What is done with a program that has been read. -/
theorem unitProgram_run (read : parse (Parser.program settings) tokens u = (.ok n, v)) :
    (unitProgram settings tokens).run u =
      (if settings.expand then do
        let program ← expand settings n
        report (.unitExpanded settings.file (← get).progress.iterations)
        return program
      else return n : Work Node)
        { v with log := .unitParsed settings.file v.registry.size :: v.log } := by
  show unitProgram settings tokens u = _
  unfold unitProgram
  rw [run_bind, read]
  rfl

/-- A program is read and then expanded. -/
theorem unitProgram_expanding {program : Node} {w : UnitState} (expands : settings.expand = true)
    (read : parse (Parser.program settings) tokens u = (.ok program, v))
    (run : (expand settings program).run
      { v with log := .unitParsed settings.file v.registry.size :: v.log } = (.ok n, w)) :
    (unitProgram settings tokens).run u =
      (.ok n, { w with log := .unitExpanded settings.file w.progress.iterations :: w.log }) := by
  rw [unitProgram_run read, if_pos expands]
  show (expand settings program >>= _) _ = _
  rw [run_bind, show expand settings program _ = _ from run]
  rfl

/-- What is read in a fresh unit can be expanded. -/
theorem parse_part (fresh : u.registry = Registry.empty)
    (read : parse (Parser.program settings) tokens u = (.ok n, v)) :
    v.registry.Regular ∧ n.Part v.registry.expanded := by
  have empty : u.registry.Regular := by
    rw [fresh]
    exact fun _ h => (List.not_mem_nil h).elim
  obtain ⟨done, run, rfl⟩ := parse_ok read
  obtain ⟨-, regular, part⟩ := conducts_program settings u.registry
    (ParserState.start u tokens) empty (le_refl _)
  rw [run] at regular part
  exact ⟨regular, (part n rfl).mono (Registry.scope_le_expanded _)⟩

/-- Expansion only passes over a program of which the registry knows all macros. -/
theorem expand_known (sorted : n.Sorted) (known : ∀ x, n.Defines x → u.registry.contains x = true) :
    (expand settings n).run u =
      settle settings settings.maxIterations n { u with progress := ⟨0, 0⟩ } := by
  refine expand_eq (registerMissing_self fun d hd => known d.name ?_)
  obtain ⟨m, hm, made⟩ := List.mem_filterMap.mp hd
  have macroDef := Node.isMacroDef_of_ofNode? made
  obtain ⟨d', phase, made', defines⟩ := (sorted m hm).ofNode? macroDef
  cases made.symm.trans made'
  exact ⟨m, List.mem_filter.mpr ⟨hm, macroDef⟩, phase, defines⟩

end Work

theorem run_of_compile {settings : Settings} {source : String} {tokens : List Token} {n : Node}
    (divided : tokenize source settings.file = .ok tokens)
    (compiled : (compile settings source none).result = .ok n) :
    ∃ u, (Work.unitProgram settings tokens).run (UnitState.ofTokens settings tokens none) =
      (.ok n, u) := by
  rw [compile_of_tokenize divided] at compiled
  exact ⟨_, Prod.ext compiled rfl⟩

theorem compile_of_run {settings : Settings} {source : String} {tokens : List Token} {n : Node}
    {u : UnitState} (divided : tokenize source settings.file = .ok tokens)
    (run : (Work.unitProgram settings tokens).run (UnitState.ofTokens settings tokens none) =
      (.ok n, u)) :
    (compile settings source none).result = .ok n ∧
      (compile settings source none).iterations = u.progress.iterations := by
  rw [compile_of_tokenize divided, run]
  exact ⟨rfl, rfl⟩

/-! ## Printed programs -/

theorem Registry.late_empty : Registry.empty.Late := fun _ => rfl

/-- A well-formed program in which nothing is left to expand is printed as a text that compiles to
it. -/
theorem Node.WellFormed.compile_source {settings : Settings} {P : Node} (h : P.WellFormed)
    (settled : settings.expand = true →
      ∀ r : Registry, (∀ x, r.contains x = true ↔ P.Defines x) → P.Settled r) :
    ∃ text, P.source = .ok text ∧ ∃ P', (compile settings text none).result = .ok P' ∧
      P'.Alike P ∧ (compile settings text none).iterations = 0 := by
  obtain ⟨wss, k, printed, words, later, ns, derived, made⟩ :=
    @Node.derives_of_wellFormed settings P h
  refine ⟨_, printed, ?_⟩
  obtain ⟨tokens, scanned, divided⟩ := scanFrom_spells (spells_lines words) _
    (Location.atStart settings.file) (Nat.lt_succ_self _)
  let unit := UnitState.ofTokens settings tokens none
  obtain ⟨n, s, reads, same, -, calm⟩ := programWith_advances
    (s := ParserState.start unit tokens) (Rereading.growing_upTo settings settings.maxParseDepth)
    Registry.holds_empty rfl divided derived (.inr later)
  have read : Work.parse (Parser.program settings) tokens unit = (.ok n, s.unit) :=
    Work.parse_of_run reads
  have quiet : s.unit.Quiet := by
    refine calm fun name hygiene reported => ?_
    cases List.mem_singleton.mp reported
  obtain ⟨registry, -, progress, going⟩ := registry_of_parse Registry.late_empty quiet read
  have alike : n.Alike P := same.trans made.symm
  have sorted := (alike.symm.wellFormed h).sorted
  cases expands : settings.expand with
  | false =>
    have run := Work.unitProgram_run read
    rw [if_neg (by rw [expands]; decide)] at run
    obtain ⟨result, iterations⟩ := compile_of_run scanned run
    exact ⟨n, result, alike, iterations.trans (congrArg Progress.iterations progress)⟩
  | true =>
    have names (x : String) : s.unit.registry.contains x = true ↔ P.Defines x := by
      rw [registry]
      exact (Node.contains_definitions sorted x).trans ⟨alike.defines x, alike.symm.defines x⟩
    let u : UnitState :=
      { s.unit with log := .unitParsed settings.file s.unit.registry.size :: s.unit.log }
    have known (x : String) (hx : n.Defines x) : u.registry.contains x = true :=
      (names x).mpr (alike.defines x hx)
    have still : n.Settled u.registry :=
      (settled expands s.unit.registry names).alike alike.symm fun _ => id
    have unstopped : u.checks ≠ some 0 := by
      rw [show u.checks = none from going rfl]
      nofun
    obtain ⟨v, run, -, passes⟩ := @Work.settle_settled settings settings.maxIterations n
      { u with progress := ⟨0, 0⟩ } still unstopped
    obtain ⟨result, iterations⟩ := compile_of_run scanned
      (Work.unitProgram_expanding expands read ((Work.expand_known sorted known).trans run))
    exact ⟨n, result, alike, iterations.trans (congrArg Progress.iterations passes)⟩

/-! ## Expanded programs -/

variable {settings : Settings} {source : String} {tokens : List Token} {T P : Node}

/-- What expansion makes of an elementary program is well formed and settled, unless a pattern in it
binds a name twice. -/
theorem Node.Elementary.settle {r : Registry} {u u' : UnitState} {k : Nat} (h : T.Elementary)
    (wellFormed : T.WellFormed) (regular : r.Regular) (part : T.Part r.expanded)
    (registered : r = Registry.empty.enrol T.definitions) (hu : u.Ready r)
    (run : Work.settle settings k T u = (.ok P, u'))
    (distinct : ∀ p ∈ P.clausePatterns, p.patternVariables.Nodup) :
    P.WellFormed ∧ P.Settled r ∧ P.macros = T.macros := by
  obtain ⟨injected, program⟩ := wellFormed.program
  have orderly := h.orderly wellFormed.sorted wellFormed.tidy (by rw [program]; nofun)
  have ordinary (d : MacroDefinition) (hd : d ∈ r.macros) : d.Ordinary := by
    rw [registered] at hd
    rcases Registry.mem_enrol hd with hd | hd
    · exact h.ordinary_definition wellFormed.sorted wellFormed.tidy hd
    · cases hd
  have names (x : String) (hx : T.Defines x) : r.contains x = true := by
    rw [registered]
    exact (Node.contains_definitions wellFormed.sorted x).mpr hx
  obtain ⟨orderly', program', macros, -⟩ :=
    Work.settle_orderly ordinary orderly (by rw [program]; rfl) hu run
  obtain ⟨-, -, settled⟩ := Work.settle_ok run (hu.registry ▸ regular) (hu.registry ▸ part)
  rw [hu.registry] at settled
  refine ⟨⟨?_, fun m hm => ?_, ?_⟩, settled, macros⟩
  · cases hp : P.head
    case program injected => exact ⟨injected, rfl⟩
    all_goals rw [hp] at program'; cases program'
  · exact (orderly'.sorted m hm).wellFormedAt (orderly'.tidy m hm) fun p hp =>
      orderly'.sorted.patternFlaw? distinct hm hp
  · exact settled.calls orderly' macros h.flat names wellFormed.calls

/-- The source printed for what an elementary unit compiles to compiles to the same program, with
nothing left to expand, unless a pattern in it binds a name twice. -/
theorem compile_compiled (percent : settings.separator = "%")
    (divided : tokenize source settings.file = .ok tokens)
    (quiet : (Work.parse (Parser.program settings) tokens
      (UnitState.ofTokens settings tokens none)).2.Quiet)
    (read : (Work.parse (Parser.program settings) tokens
      (UnitState.ofTokens settings tokens none)).1 = .ok T)
    (elementary : T.Elementary) (compiled : (compile settings source none).result = .ok P)
    (distinct : ∀ p ∈ P.clausePatterns, p.patternVariables.Nodup) :
    ∃ text, P.source = .ok text ∧ ∃ P', (compile settings text none).result = .ok P' ∧
      P'.structurallyEqual P = true ∧ (compile settings text none).iterations = 0 := by
  obtain ⟨k, ns, derived, later, made⟩ := derives_of_parse divided rfl rfl quiet read
  have alike : (Node.program default ns []).Alike T :=
    (congrArg Node.unplaced made).symm.trans (Node.unplaced_unplaced T)
  have wellFormed := alike.wellFormed (derived.wellFormed later (lexemes_of_tokenize divided))
  obtain ⟨u, read, quiet⟩ : ∃ u, Work.parse (Parser.program settings) tokens
      (UnitState.ofTokens settings tokens none) = (.ok T, u) ∧ u.Quiet :=
    ⟨_, Prod.ext read rfl, quiet⟩
  obtain ⟨registry, gensym, -⟩ := registry_of_parse Registry.late_empty quiet read
  obtain ⟨regular, part⟩ := Work.parse_part rfl read
  have ready : P.WellFormed ∧ (settings.expand = true → ∀ r : Registry,
      (∀ x, r.contains x = true ↔ P.Defines x) → P.Settled r) := by
    obtain ⟨v, all⟩ := run_of_compile divided compiled
    rw [Work.unitProgram_run read] at all
    cases expands : settings.expand with
    | false =>
      rw [if_neg (by rw [expands]; decide)] at all
      cases all
      exact ⟨wellFormed, nofun⟩
    | true =>
      rw [if_pos expands] at all
      obtain ⟨P', w, expanded, reported⟩ := bind_ok.mp all
      cases reported
      have sorted := wellFormed.sorted
      have names (x : String) : u.registry.contains x = true ↔ T.Defines x := by
        rw [registry]
        exact Node.contains_definitions sorted x
      have run := (Work.expand_known (u := { u with
        log := .unitParsed settings.file u.registry.size :: u.log }) sorted
        fun x hx => (names x).mpr hx).symm.trans expanded
      have ready : UnitState.Ready u.registry { u with
          log := .unitParsed settings.file u.registry.size :: u.log, progress := ⟨0, 0⟩ } :=
        ⟨rfl, by rw [gensym]; exact percent⟩
      obtain ⟨well, settled, macros⟩ :=
        elementary.settle wellFormed regular part registry ready run distinct
      refine ⟨well, fun _ r hr => settled.alike (.refl P) fun x hx => (names x).mpr ?_⟩
      exact (Node.defines_of_macros macros x).mp ((hr x).mp hx)
  obtain ⟨text, printed, P', result, same, iterations⟩ := ready.1.compile_source ready.2
  exact ⟨text, printed, P', result, same.structurallyEqual, iterations⟩

section

open Word

/-- The variable that the macro binds gets a name of its own. -/
def bindingSource : String :=
  "<%| m (( x )) [[ \x7b@ y ==> [[ \x7b[ a [=] y ]\x7d ]] @\x7d ]] |%> m (( b ))"

def bindingTokens : List Token := lineTokens "<input>" 0
  [mark .macroOpen, name "m", mark .listOpen, name "x", mark .listClose, mark .bodyOpen,
   mark .ruleOpen, name "y", mark .transformArrow, mark .bodyOpen, mark .assignOpen, name "a",
   mark .assignOp, name "y", mark .assignClose, mark .bodyClose, mark .ruleClose, mark .bodyClose,
   mark .macroClose, name "m", mark .listOpen, name "b", mark .listClose]

end

/-- Whether what is read from tokens is elementary, and what is reported meanwhile. -/
def elementary? (settings : Settings) (tokens : List Token) : Option (Bool × List Event) :=
  (Work.parse (Parser.program settings) tokens (UnitState.ofTokens settings tokens none)).1.toOption.map
    fun n => (n.Elementary,
      (Work.parse (Parser.program settings) tokens (UnitState.ofTokens settings tokens none)).2.log)

/-- The case of `bindingSource`. -/
theorem compile_compiled_binding : ∃ unit T P,
    unit = UnitState.ofTokens {} bindingTokens none ∧
    tokenize bindingSource "<input>" = .ok bindingTokens ∧
    (Work.parse (Parser.program {}) bindingTokens unit).2.Quiet ∧
    (Work.parse (Parser.program {}) bindingTokens unit).1 = .ok T ∧ T.Elementary ∧
    (compile {} bindingSource none).result = .ok P ∧
    (∀ p ∈ P.clausePatterns, p.patternVariables.Nodup) ∧
    ∃ text, P.source = .ok text ∧ ∃ P', (compile {} text none).result = .ok P' ∧
      P'.structurallyEqual P = true ∧ (compile {} text none).iterations = 0 := by
  have scanned : tokenize bindingSource "<input>" = .ok bindingTokens := by
    delta bindingSource
    rw [tokenize_ofList]
    exact ok_of_toOption (by decide +kernel)
  have parses : elementary? {} bindingTokens = some (true,
      [.programParsed 2, .macroRegistered "m" .expand .isolate, .tokenized "<input>" 24]) := by
    decide +kernel
  unfold elementary? at parses
  obtain ⟨T, read, both⟩ := Option.map_eq_some_iff.mp parses
  obtain ⟨elementary, logged⟩ := Prod.mk.inj both
  have compiles : (compile {} bindingSource none).bindsOnce? = some true := by
    rw [compile_of_tokenize scanned]
    decide +kernel
  obtain ⟨P, compiled, once⟩ := Option.map_eq_some_iff.mp compiles
  have distinct : ∀ p ∈ P.clausePatterns, p.patternVariables.Nodup := fun p hp =>
    of_decide_eq_true (List.all_eq_true.mp once p hp)
  have quiet : (Work.parse (Parser.program {}) bindingTokens
      (UnitState.ofTokens {} bindingTokens none)).2.Quiet := by
    intro name hygiene reported
    rw [logged] at reported
    simp at reported
  have read := ok_of_toOption read
  have elementary := of_decide_eq_true elementary
  have compiled := ok_of_toOption compiled
  exact ⟨_, T, P, rfl, scanned, quiet, read, elementary, compiled, distinct,
    compile_compiled rfl scanned quiet read elementary compiled distinct⟩

end GlyphScript
