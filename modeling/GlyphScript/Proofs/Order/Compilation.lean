import GlyphScript.Proofs.Order.Statements
import GlyphScript.Proofs.Safety.Compilation
import GlyphScript.Proofs.Stability.Compilation

/-!
# The order of definitions does not matter

Two units of the same statements, of which only definitions of macros have
moved, compile to the same statements but for the definitions, as long as no
macro has moved past one that calls it by a name which is bound there.
-/

namespace GlyphScript

open TopLevel

variable {settings : Settings} {source source' : String} {tokens tokens' : List Token}
  {unit unit' : List (TopLevel settings)}

/-! ## Reading -/

/-- What is known of a unit that has been read. -/
structure ReadUnit (settings : Settings) (tokens : List Token) (unit : List (TopLevel settings))
    (T : Node) (u : UnitState) : Prop where
  run : Work.parse (Parser.program settings) tokens (UnitState.ofTokens settings tokens none) =
    (.ok T, u)
  alike : T.Alike (.program default (TopLevel.read unit []) [])
  sorted : T.SortedProgram
  registry : u.registry = Registry.empty.enrol T.definitions
  macros : u.Sorted
  gensym : u.gensym = Gensym.ofNames settings.separator (identifierNames tokens)
  checks : u.checks = none

theorem Work.sorted_of_parse {T : Node} {u : UnitState}
    (read : Work.parse (Parser.program settings) tokens (UnitState.ofTokens settings tokens none) =
      (.ok T, u)) : u.Sorted ∧ T.SortedProgram := by
  have proper : Proper UnitState.Sorted (fun n _ => n.SortedProgram)
      (Work.parse (Parser.program settings) tokens (UnitState.ofTokens settings tokens none)) :=
    Work.proper_parse (Parser.safe_programWith
      (Rereading.safe_upTo settings settings.maxParseDepth) settings) tokens _ (List.forall_mem_nil _)
  rw [read] at proper
  cases proper with
  | ok macros sorted => exact ⟨macros, sorted⟩

/-- A unit is read statement by statement. -/
theorem TopLevel.readUnit (divided : tokenize source settings.file = .ok tokens)
    (whole : sentence tokens = unit.flatMap words) : ∃ T u, ReadUnit settings tokens unit T u := by
  obtain ⟨hw, -⟩ := words_of_tokenize divided
  rw [whole] at hw
  obtain ⟨T, s, reads, same, -, calm⟩ := programWith_advances
    (s := ParserState.start (UnitState.ofTokens settings tokens none) tokens)
    (Rereading.growing_upTo settings settings.maxParseDepth) Registry.holds_empty rfl hw
    (derives_read unit []) (.inr (later_known (List.forall_mem_nil _)))
  have read := Work.parse_of_run reads
  have quiet : s.unit.Quiet := by
    refine calm fun name hygiene reported => ?_
    cases List.mem_singleton.mp reported
  obtain ⟨registry, gensym, -, going⟩ := registry_of_parse Registry.late_empty quiet read
  obtain ⟨macros, sorted⟩ := Work.sorted_of_parse read
  refine ⟨T, s.unit, read, ?_, sorted, registry, macros, gensym, going rfl⟩
  show T.unplaced = _
  rw [← same, Node.unplaced_unplaced]

theorem TopLevel.lexed (divided : tokenize source settings.file = .ok tokens)
    (whole : sentence tokens = unit.flatMap words) : Lexed unit := by
  intro s hs
  refine s.upright fun w hw => lexemes_of_tokenize divided w ?_
  rw [whole]
  exact List.mem_flatMap.mpr ⟨s, hs, hw⟩

/-- Units of the same statements use the same names. -/
theorem Gensym.same_ofNames (separator : String)
    (perm : (sentence tokens').Perm (sentence tokens)) :
    (Gensym.ofNames separator (identifierNames tokens)).Same
      (Gensym.ofNames separator (identifierNames tokens')) := by
  have names (tokens : List Token) (x : String) :
      (Gensym.ofNames separator (identifierNames tokens)).isTaken x = true ↔
        (.identifier, x) ∈ sentence tokens := by
    have mem : x ∈ (identifierNames tokens).toList ↔ x ∈ identifierNames tokens :=
      Std.TreeSet.mem_toList
    rw [Gensym.isTaken, Gensym.ofNames, Std.TreeSet.contains_iff_mem, ← mem, mem_identifierNames,
      sentence, List.mem_map]
    constructor
    · rintro ⟨t, ht, kind, rfl⟩
      exact ⟨t, List.mem_filter.mpr ⟨ht, by simp [Token.isEnd, kind]⟩, by rw [Token.word, kind]⟩
    · rintro ⟨t, ht, word⟩
      obtain ⟨kind, lexeme⟩ := Prod.mk.inj word
      exact ⟨t, (List.mem_filter.mp ht).1, kind, lexeme⟩
  refine ⟨rfl, fun x => ?_, rfl⟩
  rw [Bool.eq_iff_iff, names, names, perm.mem_iff]

/-! ## Expanding -/

theorem Node.Alike.of_program {T : Node} {ns : List Node} (h : T.Alike (.program default ns [])) :
    ∃ span ss, T = .program span ss [] ∧ List.Forall₂ Node.Alike ss ns := by
  obtain ⟨span, head, slots⟩ := T
  obtain rfl : head = .program [] := h.head
  have rel : List.Forall₂ (Slot.Rel Node.Alike) slots [.many ns] := h.slots
  obtain _ | ⟨⟨⟩ | ⟨⟩ | ⟨ss⟩, ⟨⟩⟩ := rel
  exact ⟨span, _, rfl, ss⟩

/-- Units in which only definitions have moved are read as programs in which only definitions have
moved. -/
theorem Reordered.programTwin (h : Reordered unit unit') (plain : Plain unit) (lexed : Lexed unit)
    {T T' : Node} (read : T.Alike (.program default (TopLevel.read unit []) []))
    (read' : T'.Alike (.program default (TopLevel.read unit' []) [])) :
    ProgramTwin (· ∈ definedNames unit) T T' := by
  obtain ⟨span, ss, rfl, alike⟩ := read.of_program
  obtain ⟨span', ss', rfl, alike'⟩ := read'.of_program
  have others {ss ns : List Node} (alike : List.Forall₂ Node.Alike ss ns) : List.Forall₂ Node.Alike
      (ss.filter (!·.head.isMacroDef)) (ns.filter (!·.head.isMacroDef)) :=
    List.rel_filter (fun n n' same => by dsimp only; rw [same.head]) alike
  have twins := h.others_twin plain lexed fun _ => id
  refine .intro (Arranged.of_others ?_)
  have left := forall₂_comp_of_mem (others alike) twins fun n _ m m' same twin =>
    Node.Twin.of_alike m same twin
  refine forall₂_comp_of_mem left (others alike').flip fun n _ m m' twin same => ?_
  exact Node.Twin.symm _ (Node.Twin.of_alike _ same (Node.Twin.symm _ twin))

namespace Node

variable {K : String → Prop}

/-- All nodes of a tree with a twin are open. -/
theorem Twin.opened (n : Node) : ∀ {n'}, Twin K Head.Opens n n' → ∀ m ∈ n.walk, m.head.Opens := by
  induction n using Node.induction_on with
  | step span head slots ih =>
    intro n' h m hm
    have below {s s' : Slot Node} (hs : s ∈ slots) (r : s.Rel (Twin K Head.Opens) s') {c : Node}
        (hc : c ∈ s.toList) (hm : m ∈ c.walk) : m.head.Opens := by
      obtain ⟨c', -, twin⟩ := exists_of_mem_right r.toList.flip hc
      exact ih s hs c hc twin m hm
    rcases mem_walk_mk.mp hm with rfl | ⟨s, hs, c, hc, inside⟩
    · cases h with
      | same here _ => exact here
      | marked => rfl
      | unmarked => rfl
    · cases h with
      | same _ rel =>
        obtain ⟨s', -, r⟩ := exists_of_mem_right rel.flip hs
        exact below hs r hc inside
      | marked _ r =>
        obtain rfl := List.mem_singleton.mp hs
        exact below List.mem_cons_self r hc inside
      | unmarked _ r =>
        rcases List.mem_cons.mp hs with rfl | hs
        · obtain rfl := List.mem_singleton.mp hc
          obtain rfl | ⟨_, hs, _⟩ := mem_walk_mk.mp inside
          · rfl
          · cases hs
        · obtain rfl := List.mem_singleton.mp hs
          exact below (List.mem_cons_of_mem _ List.mem_cons_self) r hc inside

/-- Where all nodes are open, expansion sees them all. -/
theorem exposes_of_opened {n m : Node} (opened : ∀ k ∈ n.walk, k.head.Opens) (hm : m ∈ n.walk) :
    n.Exposes m := by
  induction n using Node.induction_on with
  | step span head slots ih =>
    rcases mem_walk_mk.mp hm with rfl | ⟨s, hs, c, hc, hm⟩
    · exact .self
    · refine .child (opened _ (mem_walk_self _)) (List.mem_flatMap.mpr ⟨s, hs, hc⟩) ?_
      exact ih s hs c hc (fun k hk => opened k (mem_walk_mk.mpr (.inr ⟨s, hs, c, hc, hk⟩))) hm

/-- Twins in settled trees are alike: no call is marked in them any more. -/
theorem Twin.alike_of_settled {r r' : Registry} {n n' : Node} (h : Twin K Head.Opens n n')
    (settled : n.Settled r) (settled' : n'.Settled r') : n.Alike n' := by
  have unmarked {n n' : Node} {r : Registry} (h : Twin K Head.Opens n n') (settled : n.Settled r) :
      ∀ m ∈ n.walk, ∀ x, m.head = .macroCall x false → ¬ K x := fun m hm x is =>
    absurd is ((settled m (exposes_of_opened (Twin.opened n h) hm)).expanded x)
  exact Twin.alike n (unmarked h settled) (unmarked (Twin.symm n h) settled') h

end Node

theorem ProgramTwin.alike {K : String → Prop} {p p' : Node} {r r' : Registry}
    (h : ProgramTwin K p p') (settled : p.Settled r) (settled' : p'.Settled r') :
    List.Forall₂ Node.Alike (p.statements.filter (!·.head.isMacroDef))
      (p'.statements.filter (!·.head.isMacroDef)) := by
  obtain @⟨span, span', ns, ns', injected, arranged⟩ := h
  have below {span : Span} {ns : List Node} {r : Registry}
      (settled : (Node.program span ns injected).Settled r) : ∀ n ∈ ns, n.Settled r := fun n hn =>
    (Node.settled_iff.mp settled).2 rfl n (List.mem_flatMap.mpr ⟨.many ns, List.mem_cons_self, hn⟩)
  refine (forall₂_and_mem arranged.others).imp fun n n' ⟨hn, hn', twin⟩ => ?_
  exact twin.alike_of_settled (below settled n (List.mem_filter.mp hn).1)
    (below settled' n' (List.mem_filter.mp hn').1)

/-! ## Compiling -/

/-- A unit that has been read, about to be expanded. -/
def UnitState.started (settings : Settings) (u : UnitState) : UnitState :=
  { u with log := .unitParsed settings.file u.registry.size :: u.log, progress := ⟨0, 0⟩ }

namespace ReadUnit

variable {T P : Node} {u : UnitState}

/-- A unit that has been read compiles to what its program settles in. -/
theorem compile_ok (h : ReadUnit settings tokens unit T u)
    (divided : tokenize source settings.file = .ok tokens) (expands : settings.expand = true) :
    (compile settings source none).result = .ok P ↔
      ∃ v, Work.settle settings settings.maxIterations T (u.started settings) = (.ok P, v) := by
  have known (x : String) (hx : T.Defines x) : u.registry.contains x = true := by
    rw [h.registry]
    exact (Node.contains_definitions h.sorted.sorted x).mpr hx
  have expand : Work.expand settings T { u with
      log := .unitParsed settings.file u.registry.size :: u.log } = _ :=
    Work.expand_known h.sorted.sorted known
  constructor
  · intro compiled
    obtain ⟨w, all⟩ := run_of_compile divided compiled
    rw [Work.unitProgram_run h.run, if_pos expands] at all
    obtain ⟨P', v, expanded, reported⟩ := bind_ok.mp all
    cases reported
    exact ⟨v, expand.symm.trans expanded⟩
  · rintro ⟨v, run⟩
    exact (compile_of_run divided (Work.unitProgram_expanding expands h.run (expand.trans run))).1

theorem settled (h : ReadUnit settings tokens unit T u) {v : UnitState}
    (run : Work.settle settings settings.maxIterations T (u.started settings) = (.ok P, v)) :
    P.Settled u.registry := by
  obtain ⟨regular, part⟩ := Work.parse_part rfl h.run
  exact (Work.settle_ok run regular part).2.2

end ReadUnit

/-- If nothing but definitions of macros is moved in a unit that compiles, and none past one that
calls it by a name which is bound there, the unit still compiles, and the other statements are
expanded to the same. -/
theorem compile_reordered (expands : settings.expand = true)
    (divided : tokenize source settings.file = .ok tokens)
    (whole : sentence tokens = unit.flatMap words)
    (divided' : tokenize source' settings.file = .ok tokens')
    (whole' : sentence tokens' = unit'.flatMap words)
    (plain : Plain unit) (reordered : Reordered unit unit') (steady : Steady unit unit') {P : Node}
    (compiled : (compile settings source none).result = .ok P) :
    ∃ P', (compile settings source' none).result = .ok P' ∧
      List.Forall₂ Node.Alike (P.statements.filter (!·.head.isMacroDef))
        (P'.statements.filter (!·.head.isMacroDef)) := by
  have lexed := TopLevel.lexed divided whole
  obtain ⟨T, u, read⟩ := TopLevel.readUnit divided whole
  obtain ⟨T', u', read'⟩ := TopLevel.readUnit divided' whole'
  have twin := reordered.programTwin plain lexed read.alike read'.alike
  have registries := reordered.registry_twin plain lexed steady read.sorted.sorted
    read'.sorted.sorted read.alike read'.alike
  rw [← read.registry, ← read'.registry] at registries
  have perm : (sentence tokens').Perm (sentence tokens) := by
    rw [whole, whole']
    exact reordered.perm.flatMap_right words
  have gensyms : u.gensym.Same u'.gensym := by
    rw [read.gensym, read'.gensym]
    exact Gensym.same_ofNames _ perm
  have states : UnitState.Twin (· ∈ definedNames unit) (u.started settings) (u'.started settings) :=
    ⟨registries, read.macros, gensyms, read.checks.trans read'.checks.symm, rfl⟩
  obtain ⟨v, run⟩ := (read.compile_ok divided expands).mp compiled
  obtain ⟨result, -⟩ := Work.abreast_settle settings.maxIterations twin read.sorted _ _ states
  obtain ⟨P', v', run', -, made⟩ : ∃ P' v', Work.settle settings settings.maxIterations T'
      (u'.started settings) = (.ok P', v') ∧ P.SortedProgram ∧
        ProgramTwin (· ∈ definedNames unit) P P' := by
    rw [run] at result
    generalize Work.settle settings settings.maxIterations T' (u'.started settings) = res at result
    obtain ⟨res, v'⟩ := res
    cases result with
    | ok made => exact ⟨_, v', rfl, made⟩
  refine ⟨P', (read'.compile_ok divided' expands).mpr ⟨v', run'⟩, ?_⟩
  exact made.alike (read.settled run) (read'.settled run')

/-! ## A macro that calls another -/

section

open Word

/-- A macro `g` with one parameter that calls `f`. -/
def callerWords (parameter : String) (argument : Word) : List Word :=
  [mark .macroOpen, name "g", mark .listOpen, mark .listClose, mark .bodyOpen, mark .ruleOpen,
   mark .listOpen, name parameter, mark .listClose, mark .ruleArrow, name "f", mark .listOpen,
   argument, mark .listClose, mark .ruleClose, mark .bodyClose, mark .macroClose]

/-- A macro `f` that expands to a number. -/
def calledWords : List Word :=
  [mark .macroOpen, name "f", mark .listOpen, mark .listClose, mark .bodyOpen, mark .ruleOpen,
   name "x", mark .ruleArrow, number 7, mark .ruleClose, mark .bodyClose, mark .macroClose]

/-- A call of `g`. -/
def callWords : List Word := [name "g", mark .listOpen, name "h", mark .listClose]

/-- The names of the macros and of the argument are identifiers. -/
theorem lexes_names : ∀ x ∈ ["f", "g", "h", "x"], lexesAsIdentifier x = true := by
  have letters : ∀ x ∈ ["f", "g", "h", "x"],
      x.toList ≠ [] ∧ ∀ c ∈ x.toList, isAsciiLetter c = true := by
    simp [isAsciiLetter]
  exact fun x hx => lexesAsIdentifier_of_letters (letters x hx).1 (letters x hx).2

theorem callerWords_spelled {parameter : String} (lexes : lexesAsIdentifier parameter = true)
    {argument : Word} (spelled : argument.Spelled) :
    ∀ w ∈ callerWords parameter argument, w.Spelled := by
  have := lexes_names
  simp_all [callerWords, mark, name, Spelled]

theorem calledWords_spelled : ∀ w ∈ calledWords, w.Spelled := by
  have := lexes_names
  have short : (Nat.toDigits 10 7).length ≤ maxNumeralLength := by decide
  simp_all [calledWords, mark, name, number, Spelled]

theorem callWords_spelled : ∀ w ∈ callWords, w.Spelled := by
  have := lexes_names
  simp_all [callWords, mark, name, Spelled]

end

/-- A macro of the parse phase has been registered. -/
def Event.isEarly : Event → Bool
  | .macroRegistered _ .parse _ => true
  | _ => false

/-- The tree that words on a line are read as, if they are one statement, in which no macro is
defined but by the statement itself. -/
def alone? (settings : Settings) (words : List Word) : Option Node :=
  let tokens := lineTokens settings.file 0 words
  match Work.parse (Parser.program settings) tokens (UnitState.ofTokens settings tokens none) with
  | (.ok T, u) =>
    match T.statements with
    | [n] =>
      if leading words ≠ some .listOpen ∧ (∀ w ∈ words, w.1 ≠ .endOfInput) ∧
          (∀ c ∈ n.children, c.macros.isEmpty) ∧ (∀ e ∈ u.log, e.isEarly = false) then
        some n.unplaced
      else none
    | _ => none
  | _ => none

theorem words_lineTokens (file : String) (offset : Nat) (words : List Word) :
    (lineTokens file offset words).map Token.word = words ++ [(TokenKind.endOfInput, "")] := by
  induction words generalizing offset with
  | nil => rfl
  | cons w words ih =>
    rw [lineTokens, List.map_cons, ih]
    rfl

/-- The words of a line are those it is made of. -/
theorem sentence_lineTokens (file : String) (offset : Nat) {words : List Word}
    (spelled : ∀ w ∈ words, w.Spelled) : sentence (lineTokens file offset words) = words := by
  induction words generalizing offset with
  | nil => rfl
  | cons w words ih =>
    obtain ⟨here, below⟩ := List.forall_mem_cons.mp spelled
    rw [lineTokens, sentence, List.filter_cons_of_pos (by simpa [Token.isEnd] using here.isLexeme.inner),
      List.map_cons]
    exact congrArg (w :: ·) (ih _ below)

theorem Node.eq_program_of_unplaced {T : Node} {ns : List Node}
    (h : T.unplaced = .program default ns []) :
    ∃ span ss, T = .program span ss [] ∧ ss.map unplaced = ns := by
  obtain ⟨span, head, slots⟩ := T
  rw [unplaced_mk] at h
  injection h with _ hh hs
  obtain rfl : head = .program [] := hh
  obtain ⟨s, rfl, hs⟩ := List.map_eq_singleton_iff.mp hs
  cases s with
  | many ss => exact ⟨span, ss, rfl, Slot.many.inj (List.cons.inj hs).1⟩
  | _ => cases (List.cons.inj hs).1

/-- A program of one statement in which no macro is defined but by the statement itself. -/
theorem Node.defines_single {n : Node} (flat : ∀ c ∈ n.children, c.macros.isEmpty) (span : Span)
    (injected : List String) (x : String) :
    (program span [n] injected).Defines x ↔ n.definition?.any (·.1 = x) = true := by
  have macros : (program span [n] injected).macros = if n.head.isMacroDef then [n] else [] := by
    obtain ⟨place, head, slots⟩ := n
    have none : (slots.flatMap fun s => s.toList.flatMap Node.macros) = [] := by
      refine List.flatMap_eq_nil_iff.mpr fun s hs => List.flatMap_eq_nil_iff.mpr fun c hc => ?_
      exact List.isEmpty_iff.mp (flat c (List.mem_flatMap.mpr ⟨s, hs, hc⟩))
    have whole : (mk place head slots).macros =
        if head.isMacroDef then [mk place head slots] else [] := by
      rw [macros_mk, none, List.append_nil]
    rw [program, macros_mk, List.flatMap_singleton, Slot.toList, List.flatMap_singleton, whole]
    rfl
  rw [Defines, macros, Option.any_eq_true]
  constructor
  · rintro ⟨d, hd, phase, defines⟩
    split at hd
    · obtain rfl := List.mem_singleton.mp hd
      exact ⟨_, defines, decide_eq_true rfl⟩
    · cases hd
  · rintro ⟨⟨y, phase⟩, defines, same⟩
    obtain rfl := of_decide_eq_true same
    refine ⟨n, ?_, phase, defines⟩
    have own : n.head.isMacroDef = true := by
      unfold definition? at defines
      split at defines
      · rename_i head
        rw [head]
        rfl
      · cases defines
    rw [own]
    exact List.mem_singleton_self n

theorem Work.derived_of_parse {words : List Word} {x : String} {T : Node} {u : UnitState}
    (hw : tokens.map Token.word = words ++ [(TokenKind.endOfInput, x)])
    (inner : ∀ w ∈ words, w.1 ≠ TokenKind.endOfInput)
    (run : Work.parse (Parser.program settings) tokens (UnitState.ofTokens settings tokens none) =
      (.ok T, u)) (quiet : u.Quiet) :
    ∃ k ns, Derives settings (.part .statements) [] words k (.ofNodes ns) ∧
      T.unplaced = .program default ns [] ∧ u.registry.Holds k := by
  obtain ⟨s, reads, rfl⟩ := Work.parse_ok run
  let start := ParserState.start (UnitState.ofTokens settings tokens none) tokens
  have hw : start.words = words ++ [(TokenKind.endOfInput, x)] := hw
  have reads : Parser.programWith settings (Rereading.within settings) start = (.ok T, s) := reads
  have growing := Rereading.growing_upTo settings settings.maxParseDepth
  have calm : (Parser.programWith settings (Rereading.within settings) start).2.unit.Quiet := by
    rw [reads]
    exact quiet
  rcases programWith_sound growing Registry.holds_empty rfl hw inner calm with
    ⟨p, s', failed⟩ | ⟨T', s', k, ns, reads', derived, -⟩
  · cases reads.symm.trans failed
  · obtain ⟨T', s', again, made, holds, -⟩ := programWith_advances growing Registry.holds_empty rfl
      hw derived (.inl calm)
    cases reads.symm.trans again
    exact ⟨k, ns, derived, made, holds⟩

theorem TopLevel.exists_of_alone {words : List Word} {node : Node}
    (h : alone? settings words = some node) :
    ∃ s : TopLevel settings, s.words = words ∧ s.node = node := by
  unfold alone? at h
  dsimp only at h
  split at h
  · rename_i T u run
    split at h
    · rename_i n single
      split at h
      · rename_i checked
        obtain ⟨separate, inner, flat, quiet⟩ := checked
        cases h
        have quiet : u.Quiet := fun name hygiene reported => nomatch quiet _ reported
        have sorted := (Work.sorted_of_parse run).2.sorted
        obtain ⟨k, ns, derived, made, holds⟩ :=
          Work.derived_of_parse (words_lineTokens settings.file 0 words) inner run quiet
        obtain ⟨registry, -⟩ := registry_of_parse Registry.late_empty quiet run
        obtain ⟨span, ss, rfl, rfl⟩ := Node.eq_program_of_unplaced made
        obtain rfl : ss = [n] := single
        refine ⟨⟨words, n.unplaced, k, derived, holds.phases, fun x => ?_, separate⟩, rfl, rfl⟩
        rw [← holds.contains, registry, Bool.eq_iff_iff]
        refine (Node.contains_definitions sorted x).trans ((Node.defines_single flat span [] x).trans ?_)
        rw [Node.definition?, Node.definition?, Node.head_unplaced]
      · cases h
    · cases h
  · cases h

/-- No quote is in a statement, no macro below it, and none of the parse phase. -/
def Node.isPlain (n : Node) : Bool :=
  n.walk.all (·.head ≠ .quote) && n.children.all (·.macros.isEmpty) &&
    n.definition?.all (·.2 = .expand)

namespace TopLevel

theorem exists_of_words {statements : List (List Word)} {nodes : List Node}
    (h : statements.mapM (alone? settings) = some nodes) :
    ∃ unit : List (TopLevel settings), unit.map words = statements ∧ unit.map node = nodes := by
  induction statements generalizing nodes with
  | nil =>
    cases h
    exact ⟨[], rfl, rfl⟩
  | cons statement statements ih =>
    rw [List.mapM_cons] at h
    obtain ⟨node, read, h⟩ := Option.bind_eq_some_iff.mp h
    obtain ⟨nodes', below, h⟩ := Option.bind_eq_some_iff.mp h
    cases h
    obtain ⟨s, rfl, rfl⟩ := exists_of_alone read
    obtain ⟨unit, rfl, rfl⟩ := ih below
    exact ⟨s :: unit, rfl, rfl⟩

theorem plain_of_nodes (plain : ∀ s ∈ unit, s.node.isPlain = true)
    (distinct : (definedNames unit).Nodup) : Plain unit := by
  refine ⟨fun s hs m hm => ?_, fun s hs c hc => ?_, fun s hs x phase defines => ?_, distinct⟩
  all_goals
    obtain ⟨ab, expand⟩ := Bool.and_eq_true_iff.mp (plain s hs)
    obtain ⟨unquoted, flat⟩ := Bool.and_eq_true_iff.mp ab
  · exact of_decide_eq_true (List.all_eq_true.mp unquoted m hm)
  · exact List.isEmpty_iff.mp (List.all_eq_true.mp flat c hc)
  · rw [defines] at expand
    exact of_decide_eq_true expand

theorem reordered_swap {g f : TopLevel settings} (hg : g.name?.isNone = false)
    (hf : f.name?.isNone = false) : Reordered (g :: f :: unit) (f :: g :: unit) := by
  refine ⟨.swap g f unit, ?_⟩
  rw [List.filter_cons_of_neg, List.filter_cons_of_neg, List.filter_cons_of_neg,
    List.filter_cons_of_neg] <;> simp only [hf, hg, Bool.false_eq_true, not_false_eq_true]

end TopLevel

/-- A line of two definitions and a call of `g`. -/
def callTokens (first second : List Word) : List Token :=
  lineTokens "<input>" 0 (first ++ second ++ callWords)

/-- A text of the words of two statements and a call of `g`. -/
structure IsCallText (source : String) (first second : List Word) (unit : List (TopLevel {})) :
    Prop where
  divided : tokenize source "<input>" = .ok (callTokens first second)
  whole : sentence (callTokens first second) = unit.flatMap words
  plain : Plain unit

/-- What is checked of the statements if the definition of `g` is first. -/
def callTrees? (settings : Settings) (first second : List Word) (check : Node → Bool) : Bool :=
  ([first, second, callWords].mapM (alone? settings)).any fun nodes =>
    nodes.all (fun n => n.isPlain && check n) &&
      nodes.map (fun n => n.definition?.map (·.1)) = [some "g", some "f", none]

theorem IsCallText.exists {first second : List Word} {unit : List (TopLevel {})}
    (spelled : ∀ w ∈ first ++ second, w.Spelled)
    (whole : unit.flatMap words = first ++ second ++ callWords) (plain : Plain unit) :
    ∃ source, IsCallText source first second unit := by
  have spelled := List.forall_mem_append.mpr ⟨spelled, callWords_spelled⟩
  have inhabited : first ++ second ++ callWords ≠ [] :=
    List.append_ne_nil_of_right_ne_nil _ (List.cons_ne_nil _ _)
  exact ⟨_, tokenize_line "<input>" inhabited spelled,
    (sentence_lineTokens "<input>" 0 spelled).trans whole.symm, plain⟩

/-- The two texts of a macro `g` and a macro `f` and a call of `g`. -/
theorem exists_texts {caller : List Word} {check : Node → Bool}
    (spelled : ∀ w ∈ caller, w.Spelled) (trees : callTrees? {} caller calledWords check = true) :
    ∃ source source' unit unit', IsCallText source caller calledWords unit ∧
      IsCallText source' calledWords caller unit' ∧ Reordered unit unit' ∧ Reordered unit' unit ∧
      ∀ s ∈ unit, check s.node = true := by
  obtain ⟨nodes, read, h⟩ := (Option.any_eq_true ..).mp trees
  obtain ⟨all, names⟩ := Bool.and_eq_true_iff.mp h
  have names := of_decide_eq_true names
  obtain ⟨unit, hw, rfl⟩ := TopLevel.exists_of_words read
  obtain ⟨g, behind, rfl, rfl, hwf⟩ := List.map_eq_cons_iff.mp hw
  obtain ⟨f, behind, rfl, hf, hwc⟩ := List.map_eq_cons_iff.mp hwf
  obtain ⟨c, behind, rfl, hc, hwn⟩ := List.map_eq_cons_iff.mp hwc
  obtain rfl := List.map_eq_nil_iff.mp hwn
  obtain ⟨ng, names⟩ := List.cons.inj names
  obtain ⟨nf, names⟩ := List.cons.inj names
  obtain ⟨nc, -⟩ := List.cons.inj names
  have each : ∀ s ∈ [g, f, c], s.node.isPlain = true ∧ check s.node = true := fun s hs =>
    Bool.and_eq_true_iff.mp (List.all_eq_true.mp all _ (List.mem_map_of_mem hs))
  have swap : Reordered [g, f, c] [f, g, c] :=
    TopLevel.reordered_swap (congrArg Option.isNone ng) (congrArg Option.isNone nf)
  have swap' : Reordered [f, g, c] [g, f, c] :=
    TopLevel.reordered_swap (congrArg Option.isNone nf) (congrArg Option.isNone ng)
  have distinct : (definedNames [g, f, c]).Nodup := by
    simp only [definedNames, List.filterMap_cons, name?, ng, nf, nc]
    decide
  have plain := TopLevel.plain_of_nodes (fun s hs => (each s hs).1) distinct
  have plain' : Plain [f, g, c] := by
    refine TopLevel.plain_of_nodes (fun s hs => (each s (swap.perm.mem_iff.mp hs)).1) ?_
    exact (swap.perm.filterMap _).nodup_iff.mpr distinct
  obtain ⟨source, isText⟩ := IsCallText.exists
    (List.forall_mem_append.mpr ⟨spelled, calledWords_spelled⟩) (by simp [hf, hc]) plain
  obtain ⟨source', isText'⟩ := IsCallText.exists
    (List.forall_mem_append.mpr ⟨calledWords_spelled, spelled⟩) (by simp [hf, hc]) plain'
  exact ⟨source, source', _, _, isText, isText', swap, swap', fun s hs => (each s hs).2⟩

/-- What the statements of a unit that define no macro are expanded to. -/
def Compilation.others? (c : Compilation) : Option (List String) :=
  c.result.toOption.map fun P => (P.statements.filter (!·.head.isMacroDef)).map Node.sexpr

/-- The case of a macro that is moved behind another that calls it. -/
theorem compile_reordered_called : ∃ (source source' : String) (tokens tokens' : List Token)
    (unit unit' : List (TopLevel {})) (P : Node), ({} : Settings).expand = true ∧
    tokenize source "<input>" = .ok tokens ∧ sentence tokens = unit.flatMap words ∧
    tokenize source' "<input>" = .ok tokens' ∧ sentence tokens' = unit'.flatMap words ∧
    Plain unit ∧ Reordered unit unit' ∧ Steady unit unit' ∧
    (compile {} source none).result = .ok P ∧
    ∃ P', (compile {} source' none).result = .ok P' ∧
      List.Forall₂ Node.Alike (P.statements.filter (!·.head.isMacroDef))
        (P'.statements.filter (!·.head.isMacroDef)) := by
  let caller := callerWords "x" (.name "x")
  have trees : callTrees? {} caller calledWords (·.boundCalls.isEmpty) = true := by decide +kernel
  have spelled : ∀ w ∈ caller, w.Spelled :=
    callerWords_spelled (lexes_names "x" (by simp)) (lexes_names "x" (by simp))
  obtain ⟨source', source, unit', unit, text', text, swap, reordered, free⟩ :=
    exists_texts spelled trees
  have steady : Steady unit unit' := by
    intro s hs x hx
    have none := List.isEmpty_iff.mp (free s (swap.perm.mem_iff.mp hs))
    rw [none] at hx
    cases hx
  have compiles : (compile {} source none).others? =
      some ["(ExpressionStatement (Literal 7))"] := by
    rw [compile_of_tokenize text.divided]
    decide +kernel
  obtain ⟨P, compiled, -⟩ := Option.map_eq_some_iff.mp compiles
  have compiled := ok_of_toOption compiled
  exact ⟨source, source', _, _, unit, unit', P, rfl, text.divided, text.whole, text'.divided,
    text'.whole, text.plain, reordered, steady, compiled, compile_reordered rfl text.divided
      text.whole text'.divided text'.whole text.plain reordered steady compiled⟩

/-- A call of `f` in a macro whose pattern binds `f` is a call of the macro `f` only if that is
defined in front. -/
theorem compile_reordered_bound : ¬ ∀ (settings : Settings) (source source' : String)
    (tokens tokens' : List Token) (unit unit' : List (TopLevel settings)) (P : Node),
    settings.expand = true → tokenize source settings.file = .ok tokens →
    sentence tokens = unit.flatMap words → tokenize source' settings.file = .ok tokens' →
    sentence tokens' = unit'.flatMap words → Plain unit → Reordered unit unit' →
    (compile settings source none).result = .ok P →
    ∃ P', (compile settings source' none).result = .ok P' ∧
      List.Forall₂ Node.Alike (P.statements.filter (!·.head.isMacroDef))
        (P'.statements.filter (!·.head.isMacroDef)) := by
  intro all
  let caller := callerWords "f" (.number 1)
  have trees : callTrees? {} caller calledWords (fun _ => true) = true := by decide +kernel
  have spelled : ∀ w ∈ caller, w.Spelled :=
    callerWords_spelled (lexes_names "f" (by simp)) ⟨rfl, by decide⟩
  obtain ⟨source, source', unit, unit', text, text', reordered, -⟩ := exists_texts spelled trees
  have before : (compile {} source none).others? =
      some ["(ExpressionStatement (Call (Identifier h) [(Literal 1)]))"] := by
    rw [compile_of_tokenize text.divided]
    decide +kernel
  have behind : (compile {} source' none).others? = some ["(ExpressionStatement (Literal 7))"] := by
    rw [compile_of_tokenize text'.divided]
    decide +kernel
  obtain ⟨P, compiled, others⟩ := Option.map_eq_some_iff.mp before
  obtain ⟨P', compiled', same⟩ := all {} source source' _ _ unit unit' P rfl text.divided text.whole
    text'.divided text'.whole text.plain reordered (ok_of_toOption compiled)
  have sexprs : (P.statements.filter (!·.head.isMacroDef)).map Node.sexpr =
      (P'.statements.filter (!·.head.isMacroDef)).map Node.sexpr :=
    map_eq_map (same.imp fun _ _ alike => of_decide_eq_true alike.structurallyEqual)
  rw [Compilation.others?, compiled'] at behind
  exact absurd (others.symm.trans (sexprs.trans (Option.some.inj behind))) (by decide)

end GlyphScript
