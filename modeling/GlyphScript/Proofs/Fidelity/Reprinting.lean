import GlyphScript.Proofs.Fidelity.Calls
import GlyphScript.Proofs.Printing.RoundTrip

/-!
# Parsing and printing keep the tokens

A program that is parsed without expanding macros is well formed, so it is
printed as a text that is read as the same program. Both texts say what the
program says, in the same order: parsing loses, adds and reorders nothing.
-/

namespace GlyphScript

variable {settings : Settings} {k : Macros} {us : List Word} {ns : List Node}

/-! ## What is parsed is well formed -/

/-- A program that is derived is well formed. -/
theorem Derives.wellFormed (h : Derives settings (.part .statements) [] us k (.ofNodes ns))
    (later : k.Later) (lexemes : ∀ w ∈ us, IsLexeme w.1 w.2.toList) :
    (Node.program default ns []).WellFormed := by
  obtain ⟨-, upright⟩ := h.statements_outlined later lexemes
  refine ⟨⟨[], rfl⟩, Node.wellFormed_mk (.cons (.many upright) .nil) ?_ rfl rfl, ?_⟩
  · exact List.forall_mem_nil _
  · have ends : (Node.program default ns []).finished =
        (Found.ofNodes ns).finished ++ [Node.program default ns []] :=
      (List.append_nil _).symm.trans (Found.finished_ofNode default (.program []) (.ofNodes ns))
    have last : Macros.Settle [] ((Found.ofNodes ns).finished ++ [Node.program default ns []]) k :=
      (h.settles trivial later lexemes).append <| .idle <|
        List.forall_mem_singleton.mpr ⟨rfl, rfl⟩
    rw [ends]
    exact last.apart.among

/-- The words of a text that is divided into tokens are tokens each. -/
theorem lexemes_of_tokenize {source file : String} {tokens : List Token}
    (h : tokenize source file = .ok tokens) : ∀ w ∈ sentence tokens, IsLexeme w.1 w.2.toList := by
  obtain ⟨inner, stop, rfl, lexemes⟩ := scanFrom_lexemes h
  intro w hw
  obtain ⟨t, ht, rfl⟩ := List.mem_map.mp hw
  obtain ⟨ht, whole⟩ := List.mem_filter.mp ht
  rcases List.mem_append.mp ht with ht | ht
  · exact lexemes t ht
  · rw [List.mem_singleton.mp ht] at whole
    cases whole

/-- A program that is parsed without expanding macros is derived, and defines no macro of the parse
phase. -/
theorem derives_of_parse {source file : String} {tokens : List Token}
    (divided : tokenize source file = .ok tokens) {unit : UnitState}
    (fresh : unit.registry = Registry.empty) (unstopped : unit.checks = none)
    (quiet : (Work.parse (Parser.program settings) tokens unit).2.Quiet) {n : Node}
    (read : (Work.parse (Parser.program settings) tokens unit).1 = .ok n) :
    ∃ k ns, Derives settings (.part .statements) [] (sentence tokens) k (.ofNodes ns) ∧ k.Later ∧
      n.unplaced = .program default ns [] := by
  obtain ⟨k, ns, derived, made⟩ :=
    ((parse_iff_derivable settings divided fresh unstopped quiet).1 _).mpr ⟨n, read, rfl⟩
  obtain ⟨hw, -⟩ := words_of_tokenize divided
  have hk : (ParserState.start unit tokens).unit.registry.Holds [] := by
    show unit.registry.Holds []
    rw [fresh]
    exact Registry.holds_empty
  obtain ⟨-, s', -, -, holds, -⟩ := programWith_advances
    (Rereading.growing_upTo settings settings.maxParseDepth) hk unstopped hw derived (.inl quiet)
  exact ⟨k, ns, derived, holds.phases, made⟩

/-! ## Tokens -/

theorem core_tokens {us : List Word} {tokens : List Token} {x : String}
    (h : tokens.map Token.word = us ++ [(TokenKind.endOfInput, x)]) :
    essence tokens = withoutEmptyLists .elsewhere (core us) := by
  have none : core [(.endOfInput, x)] = [] := rfl
  rw [essence_eq, h, core_append, none, List.append_nil]

/-- The essence of a text that is read as statements is that of what the statements say. -/
theorem essence_of_derives {tokens : List Token} {x : String}
    (h : Derives settings (.part .statements) [] us k (.ofNodes ns)) (later : k.Later)
    (lexemes : ∀ w ∈ us, IsLexeme w.1 w.2.toList)
    (whole : tokens.map Token.word = us ++ [(TokenKind.endOfInput, x)]) :
    essence tokens = withoutEmptyLists .elsewhere (ns.flatMap Node.outline) := by
  have alike := (h.statements_outlined later lexemes).1 .elsewhere [] []
  rw [List.nil_append, List.nil_append, List.append_nil, List.append_nil] at alike
  rw [core_tokens whole, alike]

/-- The tokens of the text that is printed for a program are those of the text that the program was
read from, one by one, but for what may be left out. -/
theorem essence_source {source file : String} {tokens : List Token}
    (divided : tokenize source file = .ok tokens) {unit : UnitState}
    (fresh : unit.registry = Registry.empty) (unstopped : unit.checks = none)
    (quiet : (Work.parse (Parser.program settings) tokens unit).2.Quiet) {n : Node}
    (read : (Work.parse (Parser.program settings) tokens unit).1 = .ok n) (file' : String) :
    ∃ text tokens', n.source = .ok text ∧ tokenize text file' = .ok tokens' ∧
      essence tokens' = essence tokens := by
  obtain ⟨k, ns, derived, later, made⟩ := derives_of_parse divided fresh unstopped quiet read
  have lexemes := lexemes_of_tokenize divided
  have same : n.source = (Node.program default ns []).source := by
    rw [← made, Node.source, Node.words, Node.source, Node.words, Node.printed_unplaced]
  obtain ⟨wss, k', printed, words, later', ns', derived', made'⟩ :=
    @Node.derives_of_wellFormed settings _ (derived.wellFormed later lexemes)
  obtain ⟨tokens', scanned, divided'⟩ := scanFrom_spells (spells_lines words) _
    (Location.atStart file') (Nat.lt_succ_self _)
  have lexemes' : ∀ w ∈ wss.flatten.map lexed, IsLexeme w.1 w.2.toList := by
    intro w hw
    obtain ⟨v, hv, rfl⟩ := List.mem_map.mp hw
    exact words v hv
  obtain rfl : ns' = ns.map Node.unplaced := by
    rw [Node.program, Node.unplaced_mk] at made'
    injection made' with _ _ slots
    injection slots with slots
    injection slots with slots
    exact slots.symm
  refine ⟨_, tokens', same.trans printed, scanned, ?_⟩
  rw [essence_of_derives derived' later' lexemes' divided',
    essence_of_derives derived later lexemes (words_of_tokenize divided).1, List.flatMap_map]
  simp only [Node.outline_unplaced]

/-- A definition with a phase, a list without an item and a product of a sum. -/
def dispensing : String := "<%|m((x))^=[['[x]']]|%>#[(())[[%%m((a**(b++c) ))]]#]"

theorem essence_source_dispensing : ∃ tokens unit n,
    tokenize dispensing "call.mgs" = .ok tokens ∧
    unit.registry = Registry.empty ∧ unit.checks = none ∧
    (Work.parse (Parser.program {}) tokens unit).2.Quiet ∧
    (Work.parse (Parser.program {}) tokens unit).1 = .ok n ∧
    ∃ text tokens', n.source = .ok text ∧ tokenize text "<printed>" = .ok tokens' ∧
      essence tokens' = essence tokens := by
  let unit := UnitState.start (Gensym.ofNames "%" Std.TreeSet.empty) none
  have run : (tokenize dispensing "call.mgs").toOption.map (fun tokens =>
      ((Work.parse (Parser.program {}) tokens unit).2.log,
        (Work.parse (Parser.program {}) tokens unit).1.toBool)) =
      some ([.programParsed 2, .macroRegistered "m" .expand .isolate], true) := by
    delta dispensing
    rw [tokenize_ofList]
    decide +kernel
  cases h : tokenize dispensing "call.mgs" with
  | error fault =>
    rw [h] at run
    cases run
  | ok tokens =>
    rw [h] at run
    have both : ((Work.parse (Parser.program {}) tokens unit).2.log,
        (Work.parse (Parser.program {}) tokens unit).1.toBool) = _ := Option.some.inj run
    have logged := congrArg Prod.fst both
    have made := congrArg Prod.snd both
    dsimp only at logged made
    cases read : (Work.parse (Parser.program {}) tokens unit).1 with
    | error fault =>
      rw [read] at made
      cases made
    | ok n =>
      have quiet : (Work.parse (Parser.program {}) tokens unit).2.Quiet := by
        intro name hygiene reported
        rw [logged] at reported
        simp at reported
      exact ⟨tokens, unit, n, rfl, rfl, rfl, quiet, read,
        essence_source h rfl rfl quiet read "<printed>"⟩

end GlyphScript
