import GlyphScript.Proofs.Parsing.Completeness

/-!
# What the parser accepts

As long as no macro of the parse phase is registered, parsing the tokens of a
text gives exactly the program that the grammar derives from them, and fails
with a fault of the grammar if it derives none.
-/

namespace GlyphScript

open GlyphScript.Parser

/-- The words of tokens without the end of the input. -/
def sentence (tokens : List Token) : List Word := (tokens.filter (!·.isEnd)).map Token.word

theorem words_of_tokenize {source file : String} {tokens : List Token}
    (h : tokenize source file = .ok tokens) :
    tokens.map Token.word = sentence tokens ++ [(TokenKind.endOfInput, "")] ∧
      ∀ w ∈ sentence tokens, w.1 ≠ .endOfInput := by
  obtain ⟨inner, stop, rfl, lexemes⟩ := scanFrom_lexemes h
  have kept : (inner ++ [Token.endAt stop]).filter (!·.isEnd) = inner := by
    rw [List.filter_append, List.filter_eq_self.mpr fun t ht => by
      simp [Token.isEnd, (lexemes t ht).inner]]
    simp [Token.isEnd, Token.endAt]
  rw [sentence, kept, List.map_append]
  refine ⟨rfl, fun w hw => ?_⟩
  obtain ⟨t, ht, rfl⟩ := List.mem_map.mp hw
  exact (lexemes t ht).inner

section

variable {settings : Settings} {t : Rereading}

/-! ## The loop of a program -/

/-- One turn of reading a program. -/
def programItem (g : Nonterminals) : Parser (List Node) := do
  ofWork Work.checkpoint
  g.statement

theorem programItem_run {g : Nonterminals} {s : ParserState} (h : s.unit.checks = none) :
    programItem g s = g.statement s := by
  have pass : ofWork Work.checkpoint s = (.ok (), s) := by
    have run : Work.checkpoint s.unit = (.ok (), s.unit) := by
      unfold Work.checkpoint
      rw [run_bind, run_get]
      dsimp only
      rw [h]
      rfl
    show ((Work.checkpoint s.unit).1, { s with unit := (Work.checkpoint s.unit).2 }) = _
    rw [run]
  unfold programItem
  rw [run_bind, pass]

theorem grows_programItem {g : Nonterminals} (hg : g.Growing) : Grows (programItem g) :=
  (Grows.work Work.onlyReports_checkpoint).bind fun _ => hg.statement

theorem atEnd_run (s : ParserState) :
    (not <$> atEnd : Parser Bool) s = (.ok (!s.next.isEnd), s) := rfl

theorem look_atEnd (s : ParserState) : ∃ b, (not <$> atEnd : Parser Bool) s = (.ok b, s) :=
  ⟨_, atEnd_run s⟩

theorem programLoop (ht : t.Growing) (depth : Nat) {s : ParserState}
    (unstopped : s.unit.checks = none) {x : String} : StatementLoop settings t depth s.unit.checks [(.endOfInput, x)] (not <$> atEnd)
      (programItem (.upTo settings t depth)) := by
  have growing := ht.upTo settings depth
  refine ⟨fun s inner _ => ?_, fun s hw => ?_, Grows.map grows_peek.map, grows_programItem growing,
    fun s hc => programItem_run (hc.trans unstopped)⟩
  · rw [atEnd_run, inner]
    rfl
  · have stop : s.next.isEnd = true := by
      unfold ParserState.words at hw
      obtain ⟨token, rest, hr, word, -⟩ := List.map_eq_cons_iff.mp hw
      have kind : token.kind = .endOfInput := congrArg Prod.fst word
      simp [ParserState.next, hr, Token.isEnd, kind]
    rw [atEnd_run, stop]
    rfl

/-! ## Programs -/

/-- What is done when the statements of a program have been read. -/
def finishProgram (span : Span) (nss : List (List Node)) : Parser Node := do
  let injected ← closeScope
  ofWork (Work.report (.programParsed nss.flatten.length))
  return Node.program span nss.flatten injected

theorem programWith_run (settings : Settings) (t : Rereading) (s : ParserState) :
    ∃ span, programWith settings t s =
    (repeatWhile (not <$> atEnd) (programItem (.upTo settings t (2 * s.rest.length + 2))) >>=
      finishProgram span) { s with scopes := [] :: s.scopes } := by
  let start := (s.rest.head?.map (·.location)).getD (Location.atStart "<empty>")
  -- With the span left open the unifier would run the loop before it finds it.
  refine ⟨⟨start, (s.rest.getLast?.map (·.location)).getD start⟩, ?_⟩
  unfold programWith
  rfl

theorem grows_finishProgram (span : Span) (nss : List (List Node)) :
    Grows (finishProgram span nss) :=
  grows_closeScope.bind fun _ => (Grows.work (Work.onlyReports_report _)).bind fun _ => .pure _

theorem finishProgram_run (span : Span) (nss : List (List Node)) {s : ParserState}
    {scopes : List (List String)} (h : s.scopes = [] :: scopes) :
    ∃ s', finishProgram span nss s = (.ok (.program span nss.flatten []), s') ∧
      s'.unit.registry = s.unit.registry ∧ (s.unit.Quiet → s'.unit.Quiet) := by
  have scope : closeScope s = (.ok [], { s with scopes }) := by
    rw [closeScope_run, h]
  refine ⟨{ s with
    scopes
    unit := { s.unit with log := .programParsed nss.flatten.length :: s.unit.log } }, ?_, rfl, ?_⟩
  · unfold finishProgram
    rw [run_bind, scope]
    rfl
  · intro quiet name hygiene reported
    exact (List.mem_cons.mp reported).elim (fun same => nomatch same) (quiet name hygiene)

theorem unplaced_program (span : Span) (ns : List Node) :
    (Node.program span ns []).unplaced = .program default (ns.map Node.unplaced) [] :=
  Node.unplaced_mk ..

/-- Words in front of the end are all that is read up to the end. -/
theorem eq_of_append_end {us vs ws : List Word} {x : String}
    (h : us ++ vs = ws ++ [(TokenKind.endOfInput, x)])
    (hu : ∀ w ∈ us, w.1 ≠ TokenKind.endOfInput) (hw : ∀ w ∈ ws, w.1 ≠ TokenKind.endOfInput)
    (hv : vs = [] ∨ ∃ y vs', vs = (.endOfInput, y) :: vs') : us = ws := by
  rcases List.append_eq_append_iff.mp h with ⟨as, rfl, rfl⟩ | ⟨bs, rfl, hb⟩
  · rcases as with _ | ⟨a, as⟩
    · exact (List.append_nil us).symm
    · rcases hv with hv | ⟨y, vs', hv⟩
      · cases hv
      · rw [List.cons_append] at hv
        injection hv with ha _
        exact absurd (congrArg Prod.fst ha) (hw a (List.mem_append_right _ List.mem_cons_self))
  · rcases bs with _ | ⟨b, bs⟩
    · exact List.append_nil ws
    · rw [List.cons_append] at hb
      injection hb with hb _
      exact absurd (congrArg Prod.fst hb).symm (hu b (List.mem_append_right _ List.mem_cons_self))

variable {s : ParserState} {k : Macros} {words : List Word} {x : String}

/-- A program that is read is derived from the words up to the end. -/
theorem programWith_sound (ht : t.Growing) (hk : s.unit.registry.Holds k)
    (unstopped : s.unit.checks = none) (hw : s.words = words ++ [(TokenKind.endOfInput, x)])
    (inner : ∀ w ∈ words, w.1 ≠ TokenKind.endOfInput)
    (quiet : (programWith settings t s).2.unit.Quiet) :
    (∃ p s', programWith settings t s = (.error (.parse p), s')) ∨
      ∃ n s' k' ns, programWith settings t s = (.ok n, s') ∧
        Derives settings (.part .statements) k words k' (.ofNodes ns) ∧
        n.unplaced = .program default ns [] := by
  obtain ⟨span, run⟩ := programWith_run settings t s
  rw [run] at quiet ⊢
  have sound := Nonterminals.sound_upTo settings ht (2 * s.rest.length + 2)
  have inside := sound.statements (s := { s with scopes := [] :: s.scopes }) look_atEnd
    (grows_programItem sound.growing) (fun s hc => programItem_run hc) (s.rest.length + 1)
    unstopped (Nat.le_refl _) (Nat.lt_succ_self _) hk (quiet_of_bind (grows_finishProgram span) quiet)
  have loop : repeatWhile (not <$> atEnd) (programItem (.upTo settings t (2 * s.rest.length + 2)))
      { s with scopes := [] :: s.scopes } =
    repeatUpTo (not <$> atEnd) (programItem (.upTo settings t (2 * s.rest.length + 2)))
      (s.rest.length + 1) { s with scopes := [] :: s.scopes } := rfl
  rw [run_bind, loop]
  generalize repeatUpTo _ _ _ _ = res at inside
  cases inside with
  | @fault p s' => exact .inl ⟨p, s', rfl⟩
  | @ok nss us k' s' moved made =>
    obtain ⟨derived, s'', ahead, ends⟩ := made
    obtain ⟨final, finish, -⟩ := finishProgram_run span nss moved.scopes
    refine .inr ⟨_, final, k', nss.flatten.map Node.unplaced, finish, ?_, unplaced_program ..⟩
    have stop : s''.next.isEnd = true := by
      rw [atEnd_run] at ends
      injection ends with ends _
      injection ends with ends
      simpa using ends
    have behind : s'.words = [] ∨ ∃ y vs, s'.words = (.endOfInput, y) :: vs := by
      rw [← ahead]
      unfold ParserState.words
      unfold ParserState.next at stop
      cases hr : s''.rest with
      | nil => exact .inl rfl
      | cons token rest =>
        rw [hr] at stop
        have kind : token.kind = .endOfInput := by simpa [Token.isEnd] using stop
        refine .inr ⟨token.lexeme, rest.map Token.word, ?_⟩
        rw [List.map_cons, Token.word, kind]
    have read : us ++ s'.words = words ++ [(TokenKind.endOfInput, x)] := moved.words.symm.trans hw
    rw [← eq_of_append_end read derived.inner inner behind]
    exact derived

/-- A program that is derived from the words up to the end is read, and the macros that are known
then are those that the derivation defines. -/
theorem programWith_advances (ht : t.Growing) (hk : s.unit.registry.Holds k)
    (unstopped : s.unit.checks = none) (hw : s.words = words ++ [(TokenKind.endOfInput, x)])
    {k' : Macros} {ns : List Node}
    (derived : Derives settings (.part .statements) k words k' (.ofNodes ns))
    (calm : Calm (programWith settings t s).2.unit k') :
    ∃ n s', programWith settings t s = (.ok n, s') ∧ n.unplaced = .program default ns [] ∧
      s'.unit.registry.Holds k' ∧ (s.unit.Quiet → s'.unit.Quiet) := by
  obtain ⟨span, run⟩ := programWith_run settings t s
  rw [run] at calm ⊢
  have all : ReadsStatements settings k words k' (.ofNodes ns) := derived.completes
  have free : ∀ r ∈ Phrase.tailMarks, leading [(.endOfInput, x)] ≠ some r := by
    intro r _ next
    cases next
  obtain ⟨nss, s', read, moved, made⟩ := all (s := { s with scopes := [] :: s.scopes }) ht
    (programLoop ht _ unstopped) (Nat.le_refl _) (Nat.lt_succ_self _) hk hw free
    (calm.imp_left (quiet_of_bind (grows_finishProgram span)))
  obtain ⟨final, finish, registry, log⟩ := finishProgram_run span nss moved.scopes
  refine ⟨.program span nss.flatten [], final, ?_, ?_, registry ▸ moved.holds, log ∘ moved.quiet⟩
  · have read : repeatWhile (not <$> atEnd)
        (programItem (.upTo settings t (2 * s.rest.length + 2)))
        { s with scopes := [] :: s.scopes } = (.ok nss, s') := read
    rw [run_bind, read]
    exact finish
  · rw [unplaced_program, Found.ofNodes_inj made]

/-- A program that is derived from the words up to the end is read. -/
theorem programWith_complete (ht : t.Growing) (hk : s.unit.registry.Holds k)
    (unstopped : s.unit.checks = none) (hw : s.words = words ++ [(TokenKind.endOfInput, x)])
    {k' : Macros} {ns : List Node}
    (derived : Derives settings (.part .statements) k words k' (.ofNodes ns))
    (calm : Calm (programWith settings t s).2.unit k') :
    ∃ n s', programWith settings t s = (.ok n, s') ∧ n.unplaced = .program default ns [] := by
  obtain ⟨n, s', read, made, -⟩ := programWith_advances ht hk unstopped hw derived calm
  exact ⟨n, s', read, made⟩

/-! ## Texts -/

theorem Registry.holds_empty : Registry.empty.Holds [] := ⟨rfl, fun _ => rfl, List.forall_mem_nil _⟩

/-- The parser accepts the texts that the grammar derives, as the trees it derives from them, and
finds a fault of the grammar in all others. -/
theorem parse_iff_derivable (settings : Settings) {source file : String} {tokens : List Token}
    (divided : tokenize source file = .ok tokens) {unit : UnitState}
    (fresh : unit.registry = Registry.empty) (unstopped : unit.checks = none)
    (quiet : (Work.parse (Parser.program settings) tokens unit).2.Quiet) :
    (∀ T, Derivable settings (sentence tokens) T ↔
      ∃ n, (Work.parse (Parser.program settings) tokens unit).1 = .ok n ∧ n.unplaced = T) ∧
    ((∀ T, ¬ Derivable settings (sentence tokens) T) →
      ∃ p, (Work.parse (Parser.program settings) tokens unit).1 = .error (.parse p)) := by
  obtain ⟨hw, inner⟩ := words_of_tokenize divided
  have run : (Work.parse (Parser.program settings) tokens unit).1 =
    (programWith settings (Rereading.within settings) (ParserState.start unit tokens)).1 := rfl
  have growing := Rereading.growing_upTo settings settings.maxParseDepth
  have hk : (ParserState.start unit tokens).unit.registry.Holds [] := by
    show unit.registry.Holds []
    rw [fresh]
    exact Registry.holds_empty
  have sound := programWith_sound growing hk unstopped hw inner quiet
  rw [run]
  refine ⟨fun T => ⟨?_, ?_⟩, fun none => ?_⟩
  · rintro ⟨k, ns, derived, rfl⟩
    obtain ⟨n, s', reads, made⟩ := programWith_complete growing hk unstopped hw derived (.inl quiet)
    exact ⟨n, congrArg Prod.fst reads, made⟩
  · rintro ⟨n, reads, rfl⟩
    rcases sound with ⟨p, s', fails⟩ | ⟨m, s', k, ns, reads', derived, made⟩
    · rw [Rereading.within, fails] at reads
      cases reads
    · rw [Rereading.within, reads'] at reads
      cases reads
      exact ⟨k, ns, derived, made⟩
  · rcases sound with ⟨p, s', fails⟩ | ⟨m, s', k, ns, reads, derived, -⟩
    · exact ⟨p, congrArg Prod.fst fails⟩
    · exact absurd ⟨k, ns, derived, rfl⟩ (none _)

end

/-- A text in which a macro is defined and called. -/
theorem parse_iff_derivable_call : ∃ tokens unit,
    tokenize "<%|m((x))[['[x]']]|%>m((a++b))" "call.mgs" = .ok tokens ∧
    unit.registry = Registry.empty ∧ unit.checks = none ∧
    (Work.parse (Parser.program {}) tokens unit).2.Quiet ∧
    (∀ T, Derivable {} (sentence tokens) T ↔
      ∃ n, (Work.parse (Parser.program {}) tokens unit).1 = .ok n ∧ n.unplaced = T) ∧
    ((∀ T, ¬ Derivable {} (sentence tokens) T) →
      ∃ p, (Work.parse (Parser.program {}) tokens unit).1 = .error (.parse p)) := by
  let unit := UnitState.start (Gensym.ofNames "%" Std.TreeSet.empty) none
  have logged : (tokenize "<%|m((x))[['[x]']]|%>m((a++b))" "call.mgs").toOption.map
      (fun tokens => (Work.parse (Parser.program {}) tokens unit).2.log) =
        some [.programParsed 2, .macroRegistered "m" .expand .isolate] := by
    rw [tokenize_ofList]
    decide +kernel
  cases h : tokenize "<%|m((x))[['[x]']]|%>m((a++b))" "call.mgs" with
  | error fault =>
    rw [h] at logged
    cases logged
  | ok tokens =>
    have quiet : (Work.parse (Parser.program {}) tokens unit).2.Quiet := by
      intro name hygiene reported
      rw [h] at logged
      have logged : (Work.parse (Parser.program {}) tokens unit).2.log =
          [.programParsed 2, .macroRegistered "m" .expand .isolate] := Option.some.inj logged
      rw [logged] at reported
      simp at reported
    exact ⟨tokens, unit, rfl, rfl, rfl, quiet, parse_iff_derivable {} h rfl rfl quiet⟩

end GlyphScript
