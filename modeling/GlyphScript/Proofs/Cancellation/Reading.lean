import GlyphScript.Proofs.Cancellation.Heedless
import GlyphScript.Proofs.Parsing.Reading

/-!
# Reading takes no heed of a cancellation

No production makes a check, and neither does what is done with the text of an
expansion. Only the loop over the statements of a program does.
-/

namespace GlyphScript

open GlyphScript.Parser Allowance

namespace Heedless

variable {α : Type}

theorem work {w : Work α} (h : Heedless w) : Heedless (ofWork w) := by
  intro s k
  obtain ⟨lasting, same⟩ := h s.unit k
  have := congrArg (fun r : Except Fault α × UnitState => (r.1, { s with unit := r.2 })) same
  exact ⟨lasting, this⟩

theorem repeatUpTo {test : Parser Bool} {x : Parser α} (ht : Heedless test) (hx : Heedless x)
    (fuel : Nat) : Heedless (repeatUpTo test x fuel) := by
  induction fuel with
  | zero => exact .throw nofun
  | succ fuel ih =>
    rw [Parser.repeatUpTo_succ]
    refine ht.bind fun b => ?_
    cases b
    · exact .pure _
    · exact hx.bind fun a => ih.bind fun as => .pure _

theorem repeatWhile {test : Parser Bool} {x : Parser α} (ht : Heedless test) (hx : Heedless x) :
    Heedless (repeatWhile test x) :=
  .of_get (fun _ _ => rfl) fun _ => repeatUpTo ht hx _

end Heedless

/-! ## Tokens, constructs and scopes -/

theorem unwanted_ne_cancelled (e : Expected) (s : ParserState) : unwanted e s ≠ .cancelled := by
  unfold unwanted
  split <;> exact nofun

theorem heedless_peek : Heedless peek := fun _ _ => ⟨nofun, rfl⟩

theorem heedless_check (r : Reserved) : Heedless (check r) := fun _ _ => ⟨nofun, rfl⟩

theorem heedless_atEnd : Heedless atEnd := fun _ _ => ⟨nofun, rfl⟩

theorem heedless_spanFrom (start : Token) : Heedless (spanFrom start) := fun _ _ => ⟨nofun, rfl⟩

theorem heedless_failExpecting {α : Type} (e : Expected) :
    Heedless (failExpecting e : Parser α) := by
  refine heedless_peek.bind fun t => ?_
  split <;> exact .throw nofun

theorem heedless_advance : Heedless advance := by
  intro s k
  rw [advance_run, advance_run]
  refine ⟨nofun, ?_⟩
  show (_, if s.next.isEnd then _ else _) = _
  split <;> rfl

theorem heedless_consume (r : Reserved) : Heedless (consume r) :=
  (heedless_check r).bind fun _ => .ite heedless_advance (heedless_failExpecting _)

theorem heedless_consumeName (what : String) : Heedless (consumeName what) :=
  heedless_peek.bind fun _ =>
    .ite (heedless_advance.bind fun _ => .pure _) (heedless_failExpecting _)

theorem heedless_checkBinding : Heedless checkBinding := by
  refine .of_get (fun _ _ => rfl) fun s => ?_
  split <;> exact .pure _

theorem heedless_openConstruct (c : Construct) : Heedless (openConstruct c) :=
  (heedless_consume _).bind fun _ => .bind (.modify fun _ _ => rfl) fun _ => .pure _

theorem heedless_closeConstruct : Heedless closeConstruct := by
  intro s k
  rw [closeConstruct_run, closeConstruct_run, show (allow k s).frames = s.frames from rfl]
  cases s.frames with
  | nil => exact ⟨nofun, rfl⟩
  | cons frame frames =>
    dsimp only
    rw [show (allow k s).next = s.next from rfl]
    cases Frames.closingFault? frame s.next with
    | none => exact ⟨nofun, rfl⟩
    | some fault => exact ⟨nofun, rfl⟩

theorem heedless_openScope : Heedless openScope := .modify fun _ _ => rfl

theorem heedless_closeScope : Heedless closeScope := by
  intro s k
  rw [closeScope_run, closeScope_run, show (allow k s).scopes = s.scopes from rfl]
  cases s.scopes with
  | nil => exact ⟨nofun, rfl⟩
  | cons scope scopes => exact ⟨nofun, rfl⟩

theorem heedless_inject (names : List String) : Heedless (inject names) := by
  refine .modify fun s k => ?_
  obtain ⟨unit, previous, rest, stop, frames, scopes, pending⟩ := s
  cases scopes <;> rfl

theorem heedless_announce (n : Node) : Heedless (announce n) := by
  unfold announce
  split
  · split
    · exact (Work.heedless_register _).work
    · exact .pure _
  · exact .of_get (fun _ _ => rfl) fun s => .ite (.modify fun _ _ => rfl) (.pure _)
  · exact .pure _

/-! ## Phrases -/

/-- The parsers for the nonterminals make no check. -/
structure Nonterminals.Heedless (g : Nonterminals) : Prop where
  expression : ∀ l, GlyphScript.Heedless (g.expression l)
  statement : GlyphScript.Heedless g.statement
  pattern : GlyphScript.Heedless g.pattern

namespace Nonterminals.Heedless

open GlyphScript (Heedless)

variable {g : Nonterminals} (hg : g.Heedless)

include hg

theorem wellFormedPattern : GlyphScript.Heedless g.wellFormedPattern := by
  refine hg.pattern.bind fun n => ?_
  split
  · exact .throw nofun
  · exact .pure _

theorem statements :
    GlyphScript.Heedless (repeatWhile (not <$> Nonterminals.atBodyEnd) g.statement) :=
  .repeatWhile (heedless_peek.bind fun _ => .pure _).map hg.statement

theorem body : GlyphScript.Heedless g.body := by
  refine (heedless_openConstruct _).bind fun start => heedless_openScope.bind fun _ => ?_
  refine hg.statements.bind fun statements => heedless_closeConstruct.bind fun _ => ?_
  refine heedless_closeScope.bind fun injected => ?_
  exact (heedless_spanFrom start).bind fun span => .pure _

theorem part (n : Nonterminal) : GlyphScript.Heedless (n.read g) := by
  cases n with
  | expression l => exact (hg.expression l).map
  | pattern => exact hg.pattern.map
  | binding => exact hg.wellFormedPattern.map
  | body => exact hg.body.map
  | statement => exact hg.statement.map
  | statements => exact hg.statements.map

theorem read (a : Phrase) : GlyphScript.Heedless (a.read g) := by
  induction a with
  | give f => exact .pure _
  | place => exact heedless_peek.bind fun _ => .pure _
  | mark r =>
    rw [Phrase.read, discard_bind]
    exact (heedless_consume r).bind fun _ => .pure _
  | kept r =>
    rw [Phrase.read, discard_bind]
    exact (heedless_consume r).bind fun _ => .pure _
  | spelled r => exact (heedless_consume r).bind fun _ => .pure _
  | name what => exact (heedless_consumeName what).bind fun _ => .pure _
  | part n => exact hg.part n
  | fail what => exact heedless_failExpecting _
  | seq a b iha ihb => exact iha.bind fun f => ihb.bind fun h => .pure _
  | either r a b iha ihb => exact (heedless_check r).bind fun c => .ite iha ihb
  | ahead a b iha ihb => exact heedless_checkBinding.bind fun c => .ite iha ihb
  | star r a ih => exact (Heedless.repeatWhile (heedless_check r) ih).map
  | gather a ih => exact ih.map
  | list a ih => exact ih.map
  | demand a what ih =>
    refine ih.bind fun f => ?_
    split
    · exact .bind (heedless_failExpecting _) fun _ => .pure _
    · exact .pure _
  | node head a ih =>
    rw [Phrase.read_node]
    refine heedless_peek.bind fun start => ih.bind fun f =>
      (heedless_spanFrom start).bind fun span => ?_
    exact (heedless_announce _).bind fun _ => .pure _
  | chain a ih =>
    rw [Phrase.read_chain]
    exact heedless_peek.bind fun start => ih.bind fun f =>
      (heedless_spanFrom start).bind fun _ => .pure _
  | construct c a ih =>
    rw [Phrase.read, discard_bind]
    exact (heedless_openConstruct c).bind fun _ => ih.bind fun f =>
      heedless_closeConstruct.bind fun _ => .pure _

omit hg in
theorem extend (m : Level) (left : Node) (start : Token) (f : Found) :
    GlyphScript.Heedless (extend m left start f) := by
  unfold Parser.extend tailStop
  refine GlyphScript.Heedless.bind ?_ fun stop => .of_get (fun _ _ => rfl) fun s =>
    (heedless_announce _).bind fun _ => .pure _
  exact .ite (heedless_spanFrom start).map (.pure _)

theorem tail (a : Phrase) (m : Level) (left : Node) :
    GlyphScript.Heedless (peek >>= fun start => a.read g >>= Parser.extend m left start) :=
  heedless_peek.bind fun start => (hg.read a).bind fun f => extend m left start f

theorem extendUpTo (l : Level) (fuel : Nat) (left : Node) :
    GlyphScript.Heedless (g.extendUpTo l fuel left) := by
  induction fuel generalizing left with
  | zero => exact .throw nofun
  | succ fuel ih =>
    intro s k
    rw [Phrase.extendUpTo_run, Phrase.extendUpTo_run, show (allow k s).next = s.next from rfl]
    split
    · split
      · exact ((hg.tail _ _ left).bind ih) s k
      · exact ⟨nofun, rfl⟩
    · exact ⟨nofun, rfl⟩

omit hg in
theorem ofNode_injective : Function.Injective Found.ofNode := by
  intro n m h
  cases h
  rfl

theorem operand : GlyphScript.Heedless g.operand := by
  refine .of_map ofNode_injective fun s k => ?_
  rw [Phrase.operand_run, Phrase.operand_run, show (allow k s).next = s.next from rfl]
  split
  · exact ⟨nofun, rfl⟩
  · exact hg.read _ s k
  · exact ⟨fun e => unwanted_ne_cancelled _ _ (Except.error.inj e), rfl⟩

theorem readExpression (l : Level) : GlyphScript.Heedless (g.readExpression l) :=
  hg.operand.bind fun left => .of_get (fun _ _ => rfl) fun _ => hg.extendUpTo l _ left

theorem readPattern : GlyphScript.Heedless g.readPattern := by
  refine .of_map ofNode_injective fun s k => ?_
  rw [Phrase.pattern_run, Phrase.pattern_run, show (allow k s).next = s.next from rfl]
  split
  · exact ⟨nofun, rfl⟩
  · exact hg.read _ s k
  · refine ⟨fun e => ?_, rfl⟩
    split at e <;> nomatch e

theorem plainStatement (settings : Settings) : GlyphScript.Heedless (g.plainStatement settings) := by
  refine .of_map ofNode_injective ?_
  rw [Phrase.plainStatement_eq]
  refine heedless_peek.bind fun t => ?_
  split
  · exact hg.read _
  · exact hg.read _

end Nonterminals.Heedless

/-! ## Expansions -/

/-- Reading the texts of expansions makes no check. -/
structure Rereading.Heedless (t : Rereading) : Prop where
  expression : ∀ c text, GlyphScript.Heedless (t.expression c text)
  statements : ∀ c text, GlyphScript.Heedless (t.statements c text)

namespace Rereading.Heedless

variable {t : Rereading} (ht : t.Heedless)

theorem expandHere (c : MacroCall) : GlyphScript.Heedless (Rereading.expandHere c) :=
  (Work.heedless_expandCall c).work.bind fun _ => (heedless_inject _).bind fun _ => .pure _

theorem textOf (n : Node) : GlyphScript.Heedless (Rereading.textOf n) := by
  unfold Rereading.textOf
  split
  · exact .pure _
  · exact .throw nofun

include ht

theorem enter (n : Node) : GlyphScript.Heedless (t.enter n) := by
  refine .of_get (fun _ _ => rfl) fun s => ?_
  dsimp only
  split
  · exact .pure _
  · exact .pure _
  · split
    · refine .bind ?_ fun ns => .pure _
      exact (expandHere _).bind fun e => (textOf _).bind fun text => ht.statements _ text
    · refine .bind ?_ fun n => .pure _
      refine (expandHere _).bind fun e => ?_
      refine (Work.heedless_ofExpansion _).work.bind fun n => ?_
      exact (textOf n).bind fun text => ht.expression _ text
    · exact .pure _

theorem transform (n : Node) : GlyphScript.Heedless (n.transformM t.transform ()) := by
  refine (heedless ParserState).transformM (fun _ n => ?_) (fun _ n => ?_) rfl n ()
  · exact enter ht n
  · exact GlyphScript.Heedless.pure _

theorem completed {read : Parser Node} (h : GlyphScript.Heedless read) :
    GlyphScript.Heedless (t.completed read) := by
  unfold Rereading.completed
  refine .of_get (fun _ _ => rfl) fun s => .bind (.modify fun _ _ => rfl) fun _ =>
    h.bind fun n => .of_get (fun _ _ => rfl) fun s' => ?_
  have put : GlyphScript.Heedless
      (modify fun s' : ParserState => { s' with pending := s.pending } : Parser Unit) :=
    .modify fun _ _ => rfl
  split
  · exact (GlyphScript.Heedless.pure _).bind fun _ => put.bind fun _ => .pure _
  · exact (transform ht n).bind fun _ => put.bind fun _ => .pure _

theorem upTo (settings : Settings) (depth : Nat) :
    (Nonterminals.upTo settings t depth).Heedless := by
  induction depth with
  | zero => exact ⟨fun _ => .throw nofun, .throw nofun, .throw nofun⟩
  | succ depth ih =>
    exact ⟨fun l => ih.readExpression l, (completed ht (ih.plainStatement settings)).map,
      ih.readPattern⟩

omit ht in
theorem within {α : Type} {tokens : List Token} {p : Parser α} (h : GlyphScript.Heedless p) :
    GlyphScript.Heedless (Parser.within tokens p) := by
  intro s k
  obtain ⟨lasting, same⟩ := h (ParserState.start s.unit tokens) k
  have := congrArg
    (fun r : Except Fault α × ParserState => (r.1, { s with unit := r.2.unit })) same
  exact ⟨lasting, this⟩

omit ht in
theorem reread {α : Type} (c : MacroCall) (depth : Nat) (text : String)
    {p : Parser (α × List String)} (h : GlyphScript.Heedless p) :
    GlyphScript.Heedless (reread c depth text p) := by
  refine .bind ?_ fun tokens => (within h).bind fun a => (heedless_inject _).bind fun _ => .pure _
  refine ((Work.heedless_tokens _ _).bind fun tokens => ?_).work
  refine GlyphScript.Heedless.bind (.modify fun _ _ => rfl) fun _ => ?_
  exact (Work.heedless_report _).bind fun _ => .pure _

theorem expressionWith (settings : Settings) :
    GlyphScript.Heedless (expressionWith settings t) := by
  refine .of_get (fun _ _ => rfl) fun s => heedless_openScope.bind fun _ => ?_
  have whole : GlyphScript.Heedless (do
      let node ← (Nonterminals.upTo settings t (2 * s.rest.length + 2)).anyExpression
      unless ← atEnd do throw (.parse (.expectedToken (.phrase "end of input") (← peek)))
      return node) := by
    refine ((upTo ht settings _).expression _).bind fun n => heedless_atEnd.bind fun b => ?_
    split
    · exact .pure _
    · exact heedless_peek.bind fun _ => .bind (.throw nofun) fun _ => .pure _
  refine (completed ht whole).bind fun slot => ?_
  split
  · exact heedless_closeScope.bind fun _ => .pure _
  · exact .throw nofun

theorem statementsWith (settings : Settings) :
    GlyphScript.Heedless (statementsWith settings t) := by
  refine .of_get (fun _ _ => rfl) fun s => heedless_openScope.bind fun _ => ?_
  refine .bind (.repeatWhile heedless_atEnd.map (upTo ht settings _).statement) fun _ => ?_
  exact heedless_closeScope.bind fun _ => .pure _

end Rereading.Heedless

theorem Rereading.heedless_upTo (settings : Settings) (remaining : Nat) :
    (Rereading.upTo settings remaining).Heedless := by
  induction remaining with
  | zero => exact ⟨fun _ _ => .throw nofun, fun _ _ => .throw nofun⟩
  | succ remaining ih =>
    exact ⟨fun c text => Heedless.reread c _ text (ih.expressionWith settings),
      fun c text => Heedless.reread c _ text (ih.statementsWith settings)⟩

end GlyphScript
