import GlyphScript.Proofs.Parsing.Growth
import GlyphScript.Proofs.Parsing.Lookahead

/-!
# Advancing

How the states of a parser that reads words of the grammar follow each other
when no macro of the parse phase is around: words are read, macros become
known, and the constructs, scopes and calls that were open are as before.
-/

namespace GlyphScript

open GlyphScript.Parser

/-! ## The words ahead -/

/-- The words not yet read. -/
def ParserState.words (s : ParserState) : List Word := s.rest.map Token.word

section

variable {s : ParserState}

theorem next_reserved? (s : ParserState) : s.next.reserved? = leading s.words := by
  rw [ParserState.next, ParserState.words]
  cases s.rest <;> rfl

theorem isReserved_next {r : Reserved} :
    s.next.isReserved r = true ↔ leading s.words = some r := by
  rw [isReserved_iff, next_reserved?]

theorem words_of_isEnd (h : s.next.isEnd = false) : s.words = s.next.word :: (passed s).words := by
  unfold ParserState.next at h
  unfold ParserState.words passed ParserState.next
  cases hr : s.rest with
  | nil =>
    rw [hr] at h
    cases h
  | cons t rest => rfl

theorem words_of_leading {r : Reserved} (h : leading s.words = some r) :
    ∃ x, s.next.word = (.reserved r, x) ∧ s.words = (.reserved r, x) :: (passed s).words := by
  have reserved := isReserved_next.mpr h
  have word : s.next.word = (.reserved r, s.next.lexeme) := by
    rw [Token.isReserved, decide_eq_true_eq] at reserved
    rw [Token.word, reserved]
  exact ⟨_, word, word ▸ words_of_isEnd (isEnd_of_isReserved reserved)⟩

/-- The next token when words are ahead. -/
theorem next_of_words {w : Word} {us : List Word} (h : s.words = w :: us) (hw : w.1 ≠ .endOfInput) :
    s.next.word = w ∧ s.next.isEnd = false ∧ (passed s).words = us := by
  unfold ParserState.words at h
  obtain ⟨t, rest, hr, rfl, rfl⟩ := List.map_eq_cons_iff.mp h
  have next : s.next = t := by rw [ParserState.next, hr]; rfl
  have inner : t.isEnd = false := by simpa [Token.isEnd, Token.word] using hw
  refine ⟨by rw [next], by rw [next, inner], ?_⟩
  unfold ParserState.words passed
  rw [hr]
  rfl

theorem length_words (s : ParserState) : s.words.length = s.rest.length := List.length_map ..

end

/-! ## Macros known -/

/-- The registry knows the macros of `k`, and none that is expanded while parsing. -/
structure Registry.Holds (r : Registry) (k : Macros) : Prop where
  contains : r.contains = k.defines
  later : ∀ x, isExpandedHere r x = false
  phases : k.Later

theorem Registry.Holds.insert {r : Registry} {k : Macros} (h : r.Holds k) {d : MacroDefinition}
    (hd : d.phase ≠ .parse) : (r.insert d).Holds ((d.name, d.phase) :: k) := by
  refine ⟨?_, fun x => ?_, List.forall_mem_cons.mpr ⟨hd, h.phases⟩⟩
  · funext x
    rw [contains_insert, h.contains]
    rfl
  · have later := h.later x
    unfold isExpandedHere at later ⊢
    rw [find?_insert]
    split
    · simp [hd]
    · exact later

theorem Macros.after_unplaced (k : Macros) (n : Node) : k.after n.unplaced = k.after n := by
  obtain ⟨span, head, slots⟩ := n
  rw [Node.unplaced_mk]
  unfold Macros.after
  cases head
  case macroDef name params phase hygiene =>
    rcases slots with _ | ⟨rules, _ | ⟨template, _ | ⟨s, slots⟩⟩⟩ <;> rfl
  all_goals rfl

/-! ## States -/

/-- From the first state to the second the words have been read and the macros of `k` have become
known; nothing else has changed. -/
structure ParserState.Advanced (s : ParserState) (us : List Word) (k : Macros) (s' : ParserState) :
    Prop where
  words : s.words = us ++ s'.words
  frames : s'.frames = s.frames
  scopes : s'.scopes = s.scopes
  pending : s'.pending = s.pending
  checks : s'.unit.checks = s.unit.checks
  holds : s'.unit.registry.Holds k
  quiet : s.unit.Quiet → s'.unit.Quiet

namespace ParserState.Advanced

variable {s s' s'' : ParserState} {us vs : List Word} {k k' : Macros}

theorem refl (h : s.unit.registry.Holds k) : s.Advanced [] k s :=
  ⟨rfl, rfl, rfl, rfl, rfl, h, id⟩

theorem trans (h : s.Advanced us k s') (h' : s'.Advanced vs k' s'') :
    s.Advanced (us ++ vs) k' s'' where
  words := by rw [h.words, h'.words, List.append_assoc]
  frames := h'.frames.trans h.frames
  scopes := h'.scopes.trans h.scopes
  pending := h'.pending.trans h.pending
  checks := h'.checks.trans h.checks
  holds := h'.holds
  quiet := h'.quiet ∘ h.quiet

theorem one (h : s.unit.registry.Holds k) (inner : s.next.isEnd = false) :
    s.Advanced [s.next.word] k (passed s) :=
  ⟨words_of_isEnd inner, rfl, rfl, rfl, rfl, h, id⟩

theorem mark (h : s.unit.registry.Holds k) {r : Reserved} (hr : leading s.words = some r) :
    ∃ x, s.Advanced [(.reserved r, x)] k (passed s) := by
  obtain ⟨x, -, hw⟩ := words_of_leading hr
  exact ⟨x, hw, rfl, rfl, rfl, rfl, h, id⟩

theorem length (h : s.Advanced us k s') : s.rest.length = us.length + s'.rest.length := by
  rw [← length_words, h.words, List.length_append, length_words]

end ParserState.Advanced

/-! ## Steps -/

section

variable {s : ParserState} {k : Macros}

theorem unwanted_parse (e : Expected) (s : ParserState) : ∃ p, unwanted e s = .parse p := by
  unfold unwanted
  split
  · exact ⟨_, rfl⟩
  · exact ⟨_, rfl⟩

theorem consume_leading {r : Reserved} (h : leading s.words = some r) :
    consume r s = (.ok s.next, passed s) := by
  rw [consume_run, if_pos (isReserved_next.mpr h)]

theorem check_leading {r : Reserved} (h : leading s.words = some r) :
    check r s = (.ok true, s) := by
  rw [check_run, isReserved_next.mpr h]

theorem check_other {r : Reserved} (h : leading s.words ≠ some r) : check r s = (.ok false, s) := by
  rw [check_run]
  have : s.next.isReserved r = false := Bool.eq_false_iff.mpr fun h' => h (isReserved_next.mp h')
  rw [this]

/-- The state in which a construct has been opened. -/
def opened (c : Construct) (s : ParserState) : ParserState :=
  { s with previous := some s.next, rest := s.rest.tail, frames := ⟨c, s.next⟩ :: s.frames }

/-- The state in which the innermost construct has been closed. -/
def closed (s : ParserState) : ParserState :=
  { s with previous := some s.next, rest := s.rest.tail, frames := s.frames.tail }

theorem openConstruct_leading {c : Construct} (h : leading s.words = some c.opener) :
    openConstruct c s = (.ok s.next, opened c s) := by
  unfold openConstruct
  rw [run_bind, consume_leading h]
  rfl

theorem closeConstruct_leading {c : Construct} {t : Token} {frames : Frames}
    (hf : s.frames = ⟨c, t⟩ :: frames) (h : leading s.words = some c.closer) :
    closeConstruct s = (.ok (), closed s) := by
  rw [closeConstruct_run, hf]
  dsimp only
  rw [closingFault?_eq_none.mpr (isReserved_next.mpr h)]
  unfold closed passed
  rw [hf]
  rfl

theorem openConstruct_cases (c : Construct) (s : ParserState) :
    (∃ p s', openConstruct c s = (.error (.parse p), s')) ∨ leading s.words = some c.opener := by
  by_cases h : leading s.words = some c.opener
  · exact .inr h
  · obtain ⟨p, hp⟩ := unwanted_parse (.mark c.opener) s
    refine .inl ⟨p, s, ?_⟩
    unfold openConstruct
    rw [run_bind, consume_run, if_neg fun h' => h (isReserved_next.mp h'), hp]

theorem closeConstruct_cases {c : Construct} {t : Token} {frames : Frames}
    (hf : s.frames = ⟨c, t⟩ :: frames) :
    (∃ p s', closeConstruct s = (.error (.parse p), s')) ∨ leading s.words = some c.closer := by
  by_cases h : leading s.words = some c.closer
  · exact .inr h
  · cases fault : Frames.closingFault? ⟨c, t⟩ s.next with
    | none => exact absurd (isReserved_next.mp (closingFault?_eq_none.mp fault)) h
    | some p =>
      refine .inl ⟨p, s, ?_⟩
      rw [closeConstruct_run, hf]
      dsimp only
      rw [fault]

/-- The words of a construct are its opener, what is inside, and its closer. -/
theorem ParserState.Advanced.construct {c : Construct} {s' : ParserState} {us : List Word}
    (opens : leading s.words = some c.opener) (inside : (opened c s).Advanced us k s')
    (closes : leading s'.words = some c.closer) :
    ∃ x y, s.Advanced ((.reserved c.opener, x) :: us ++ [(TokenKind.reserved c.closer, y)]) k
      (closed s') := by
  obtain ⟨x, -, first⟩ := words_of_leading opens
  obtain ⟨y, -, last⟩ := words_of_leading closes
  refine ⟨x, y, ?_, ?_, inside.scopes, inside.pending, inside.checks, inside.holds, inside.quiet⟩
  · have middle : (passed s).words = us ++ s'.words := inside.words
    have behind : (passed s').words = (closed s').words := rfl
    rw [first, middle, last, behind]
    simp only [List.cons_append, List.append_assoc, List.nil_append]
  · show s'.frames.tail = s.frames
    rw [inside.frames]
    rfl

theorem atBodyEnd_run (s : ParserState) : (not <$> Nonterminals.atBodyEnd : Parser Bool) s =
    (.ok (!(s.next.isEnd || (leading s.words).any fun r =>
      Construct.isCloser r || Nonterminals.armMarks.contains r)), s) := by
  rw [← next_reserved?]
  rfl

/-- The state in which the statements of a body are read. -/
def entered (s : ParserState) : ParserState :=
  { opened .body s with scopes := [] :: s.scopes }

/-- The state in which the body around has been left. -/
def left (s : ParserState) : ParserState := { closed s with scopes := s.scopes.tail }

/-- What is done when the statements of a body have been read. -/
def leaveBody (start : Token) (nss : List (List Node)) : Parser Node := do
  closeConstruct
  let injected ← closeScope
  return Node.block (← spanFrom start) nss.flatten injected

theorem body_leading {g : Nonterminals} (h : leading s.words = some .bodyOpen) :
    g.body s = (repeatWhile (not <$> Nonterminals.atBodyEnd) g.statement >>= leaveBody s.next)
      (entered s) := by
  unfold Nonterminals.body
  rw [run_bind, openConstruct_leading h]
  rfl

theorem leaveBody_run (start : Token) (nss : List (List Node)) {t : Token} {frames : Frames}
    {scopes : List (List String)} (hf : s.frames = ⟨.body, t⟩ :: frames)
    (hs : s.scopes = [] :: scopes) (h : leading s.words = some .bodyClose) :
    ∃ span, leaveBody start nss s = (.ok (.block span nss.flatten []), left s) := by
  refine ⟨⟨start.location, s.next.stopOrStart⟩, ?_⟩
  have scope : closeScope (closed s) = (.ok [], left s) := by
    rw [closeScope_run, show (closed s).scopes = [] :: scopes from hs, left, hs]
    rfl
  unfold leaveBody
  rw [run_bind, closeConstruct_leading hf h]
  dsimp only
  rw [run_bind, scope]
  rfl

/-- The words of a body are those of its statements in brackets. -/
theorem ParserState.Advanced.body {s' : ParserState} {us : List Word}
    (opens : leading s.words = some .bodyOpen) (inside : (entered s).Advanced us k s')
    (closes : leading s'.words = some .bodyClose) :
    ∃ x y, s.Advanced ((.reserved .bodyOpen, x) :: us ++ [(TokenKind.reserved .bodyClose, y)]) k
      (left s') := by
  have inside' : (opened .body s).Advanced us k { s' with scopes := s.scopes } :=
    ⟨inside.words, inside.frames, rfl, inside.pending, inside.checks, inside.holds, inside.quiet⟩
  obtain ⟨x, y, moved⟩ := ParserState.Advanced.construct (c := .body) opens inside' closes
  refine ⟨x, y, moved.words, moved.frames, ?_, moved.pending, moved.checks, moved.holds,
    moved.quiet⟩
  show s'.scopes.tail = s.scopes
  rw [inside.scopes]
  rfl

theorem announce_other {n : Node} (h : isExpandedHere s.unit.registry = fun _ => false)
    (hn : MacroDefinition.ofNode? n = none) : announce n s = (.ok (), s) := by
  obtain ⟨span, head, slots⟩ := n
  cases head
  case macroDef name params phase hygiene =>
    unfold announce
    simp only [Node.head, hn]
    rfl
  case macroCall x deferred =>
    cases deferred
    · rw [announce_macroCall]
      simp [h]
    · rfl
  all_goals rfl

theorem ofNode?_extended (known : String → Bool) (span : Span) (m : Level) (n : Node) (f : Found) :
    MacroDefinition.ofNode? (Node.extended known span m n f) = none := by
  unfold Node.extended
  split
  · rfl
  · split
    · split <;> rfl
    · rfl
  · rfl

/-- A left operand and its tail are put together, and nothing else happens. -/
theorem extend_run (hk : s.unit.registry.Holds k) (m : Level) (n : Node) (start : Token)
    (f : Found) : ∃ span, extend m n start f s = (.ok (Node.extended k.defines span m n f), s) := by
  obtain ⟨stop, look⟩ : ∃ stop, tailStop m start f s = (.ok stop, s) := by
    unfold tailStop
    split <;> exact ⟨_, rfl⟩
  refine ⟨⟨n.span.start, stop⟩, ?_⟩
  unfold extend
  rw [run_bind, look]
  dsimp only
  rw [run_bind, run_get]
  dsimp only
  rw [run_bind, announce_other (funext hk.later) (ofNode?_extended ..), hk.contains]
  rfl

/-- An expression ends where no operator follows that holds together tightly enough. -/
theorem extendUpTo_stops {g : Nonterminals} {l : Level} {n : Node} (fuel : Nat)
    (h : ∀ r ∈ Phrase.operatorsFrom l.rank, leading s.words ≠ some r) :
    g.extendUpTo l (fuel + 1) n s = (.ok n, s) := by
  rw [Phrase.extendUpTo_run, next_reserved?]
  cases ht : (leading s.words).bind Phrase.tail? with
  | none => rfl
  | some t =>
    obtain ⟨r, hr, hm⟩ := Option.bind_eq_some_iff.mp ht
    dsimp only
    rw [if_neg fun le => h r (Phrase.mem_operatorsFrom.mpr ⟨_, _, hm, le⟩) hr]

/-- Registering a macro of another phase is no registration of one of the parse phase. -/
theorem Work.quiet_register {d : MacroDefinition} (hd : d.phase ≠ .parse) {u : UnitState}
    (h : u.Quiet) : (Work.register d u).2.Quiet := by
  have own (name : String) (hygiene : Hygiene) :
      Event.macroRegistered name .parse hygiene ≠ .macroRegistered d.name d.phase d.hygiene :=
    fun same => by
      injection same with _ same _
      exact hd same.symm
  intro name hygiene reported
  unfold Work.register at reported
  rw [run_bind, run_get] at reported
  dsimp only at reported
  cases hp : u.registry.find? d.name with
  | none =>
    rw [hp] at reported
    exact (List.mem_cons.mp reported).elim (own _ _) (h _ _)
  | some previous =>
    rw [hp] at reported
    dsimp only at reported
    split at reported
    · rcases List.mem_cons.mp reported with same | reported
      · exact own _ _ same
      · exact (List.mem_cons.mp reported).elim (fun same => nomatch same) (h _ _)
    · exact (List.mem_cons.mp reported).elim (own _ _) (h _ _)

/-- When a node is complete, nothing happens but that the macro it defines becomes known. -/
theorem announce_advanced {n : Node} (h : s.unit.registry.Holds k)
    (calm : (announce n s).2.unit.Quiet ∨ (k.after n).Later) :
    ∃ s', announce n s = (.ok (), s') ∧ s.Advanced [] (k.after n) s' := by
  cases hn : MacroDefinition.ofNode? n with
  | none =>
    refine ⟨s, announce_other (funext h.later) hn, ?_⟩
    rw [Macros.after, hn]
    exact .refl h
  | some d =>
    have registers : announce n = ofWork (Work.register d) := by
      obtain ⟨span, head, slots⟩ := n
      cases head
      case macroDef => unfold announce; simp only [Node.head, hn]
      all_goals cases hn
    obtain ⟨warnings, made⟩ := Work.register_run d s.unit
    have run : announce n s = (.ok (), { s with unit := { s.unit with
        registry := s.unit.registry.insert d
        log := .macroRegistered d.name d.phase d.hygiene :: (warnings ++ s.unit.log) } }) := by
      rw [registers]
      unfold ofWork
      show ((Work.register d s.unit).1, { s with unit := (Work.register d s.unit).2 }) = _
      rw [made]
    have after : k.after n = (d.name, d.phase) :: k := by rw [Macros.after, hn]
    have later : d.phase ≠ .parse := by
      intro parse
      rcases calm with quiet | later
      · rw [run, parse] at quiet
        exact quiet _ _ List.mem_cons_self
      · rw [after] at later
        exact later _ List.mem_cons_self parse
    refine ⟨_, run, ?_⟩
    rw [after]
    refine ⟨rfl, rfl, rfl, rfl, rfl, h.insert later, fun quiet => ?_⟩
    have registered := Work.quiet_register later quiet
    rwa [made] at registered

/-! ## Complete statements -/

end

namespace Rereading

/-- What is done to complete a tree when it has been read. -/
def completion (t : Rereading) (outer : Nat) (n : Node) : Parser (Slot Node) := do
  let slot ← if (← get).pending = 0 then pure (.one n) else n.transformM t.transform ()
  modify fun s => { s with pending := outer }
  return slot

theorem completed_run (t : Rereading) (read : Parser Node) (s : ParserState) :
    t.completed read s = (read >>= t.completion s.pending) { s with pending := 0 } := rfl

theorem grows_completion {t : Rereading} (ht : t.Growing) (outer : Nat) (n : Node) :
    Grows (t.completion outer n) := by
  have put : Grows (modify fun s : ParserState => { s with pending := outer }) :=
    .calm fun _ => rfl
  refine .of_get fun s => ?_
  dsimp only
  split
  · exact (Grows.pure _).bind fun _ => put.bind fun _ => .pure _
  · exact (ht.transform n).bind fun _ => put.bind fun _ => .pure _

/-- A tree without calls to be expanded is complete. -/
theorem completion_run {t : Rereading} {outer : Nat} {n : Node} {s : ParserState}
    (h : s.pending = 0) : t.completion outer n s = (.ok (.one n), { s with pending := outer }) := by
  unfold completion
  rw [run_bind, run_get]
  dsimp only
  rw [if_pos h]
  rfl

end Rereading

end GlyphScript
