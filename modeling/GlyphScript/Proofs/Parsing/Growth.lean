import GlyphScript.Proofs.Macro.Registry
import GlyphScript.Proofs.Parsing.Reading

/-!
# The log of a parser

Parsing adds to the log and takes nothing back, whether it succeeds or fails. So
what the log does not hold in the end has not been reported on the way.
-/

namespace GlyphScript

open GlyphScript.Parser

/-- Whatever comes of the parser, it has only added to the log, and its result is as `p` says. -/
def growing : Guarantee Parser where
  holds x p := ∀ s : ParserState, s.unit.log <:+ (x s).2.unit.log ∧ ∀ a, (x s).1 = .ok a → p a
  pure h _ := ⟨List.suffix_rfl, fun _ e => Except.ok.inj e ▸ h⟩
  bind {_ _ x f _ _} hx hf s := by
    rw [run_bind]
    obtain ⟨log, made⟩ := hx s
    rcases h : x s with ⟨_ | a, s'⟩ <;> rw [h] at log made
    · exact ⟨log, fun _ e => by cases e⟩
    · obtain ⟨log', made'⟩ := hf a (made a rfl) s'
      exact ⟨log.trans log', made'⟩

/-- The parser only adds to the log. -/
def Grows {α : Type} (x : Parser α) : Prop := growing.holds x fun _ => True

namespace Grows

variable {α β : Type} {x : Parser α}

theorem log (h : Grows x) (s : ParserState) : s.unit.log <:+ (x s).2.unit.log := (h s).1

theorem of_log (h : ∀ s, s.unit.log <:+ (x s).2.unit.log) : Grows x :=
  fun s => ⟨h s, fun _ _ => trivial⟩

/-- A parser that leaves the unit alone. -/
theorem calm (unit : ∀ s, (x s).2.unit = s.unit) : Grows x := by
  refine of_log fun s => ?_
  exact (unit s).symm ▸ List.suffix_rfl

theorem pure (a : α) : Grows (Pure.pure a : Parser α) := growing.pure trivial

theorem throw (f : Fault) : Grows (throw f : Parser α) := calm fun _ => rfl

theorem bind {f : α → Parser β} (hx : Grows x) (hf : ∀ a, Grows (f a)) : Grows (x >>= f) :=
  growing.bind hx fun a _ => hf a

theorem map {f : α → β} (hx : Grows x) : Grows (f <$> x) := growing.map hx fun _ _ => trivial

theorem of_map {f : α → β} (h : Grows (f <$> x)) : Grows x := by
  refine of_log fun s => ?_
  have := h.log s
  rw [run_map] at this
  rcases hx : x s with ⟨_ | a, s'⟩ <;> rw [hx] at this <;> exact this

theorem of_get {f : ParserState → Parser β} (h : ∀ s, Grows (f s)) : Grows (get >>= f) :=
  fun s => h s s

theorem ite {c : Prop} [Decidable c] {y : Parser α} (hx : Grows x) (hy : Grows y) :
    Grows (if c then x else y) := by
  split
  · exact hx
  · exact hy

theorem work {w : Work α} (h : w.OnlyReports) : Grows (ofWork w) := of_log fun s => (h s.unit).2

theorem repeatUpTo {test : Parser Bool} (ht : Grows test) (hx : Grows x) (fuel : Nat) :
    Grows (repeatUpTo test x fuel) := by
  induction fuel with
  | zero => exact .throw _
  | succ fuel ih =>
    rw [Parser.repeatUpTo_succ]
    refine ht.bind fun b => ?_
    cases b
    · exact .pure _
    · exact hx.bind fun a => ih.bind fun as => .pure _

theorem repeatWhile {test : Parser Bool} (ht : Grows test) (hx : Grows x) :
    Grows (repeatWhile test x) :=
  .of_get fun _ => repeatUpTo ht hx _

end Grows

/-- No macro of the parse phase has been registered. -/
def UnitState.Quiet (u : UnitState) : Prop :=
  ∀ name hygiene, Event.macroRegistered name .parse hygiene ∉ u.log

/-- What has not been registered when all is done has not been registered halfway. -/
theorem quiet_of_bind {α β : Type} {p : Parser α} {f : α → Parser β} {s : ParserState}
    (hf : ∀ a, Grows (f a)) (h : ((p >>= f) s).2.unit.Quiet) : (p s).2.unit.Quiet := by
  intro name hygiene reported
  refine h name hygiene ?_
  rw [run_bind]
  rcases hp : p s with ⟨_ | a, s'⟩ <;> rw [hp] at reported
  · exact reported
  · exact ((hf a).log s').mem reported

/-! ## Tokens, constructs and scopes -/

theorem grows_peek : Grows peek := .calm fun _ => rfl

theorem grows_check (r : Reserved) : Grows (check r) := .calm fun _ => rfl

theorem grows_consume (r : Reserved) : Grows (consume r) := by
  refine .calm fun s => ?_
  rw [consume_run]
  split <;> rfl

theorem grows_consumeName (what : String) : Grows (consumeName what) := by
  refine .calm fun s => ?_
  rw [consumeName_run]
  split <;> rfl

theorem grows_failExpecting {α : Type} (e : Expected) : Grows (failExpecting e : Parser α) := by
  refine .calm fun s => ?_
  rw [failExpecting_run]

theorem grows_spanFrom (start : Token) : Grows (spanFrom start) := .calm fun _ => rfl

theorem grows_checkBinding : Grows checkBinding := by
  refine .calm fun s => ?_
  rw [checkBinding_run]

theorem grows_openConstruct (c : Construct) : Grows (openConstruct c) :=
  (grows_consume _).bind fun _ => .bind (.calm fun _ => rfl) fun _ => .pure _

theorem grows_closeConstruct : Grows closeConstruct := by
  refine .calm fun s => ?_
  rw [closeConstruct_run]
  split
  · rfl
  · split <;> rfl

theorem grows_closeScope : Grows closeScope := by
  refine .calm fun s => ?_
  rw [closeScope_run]
  cases s.scopes <;> rfl

theorem grows_inject (names : List String) : Grows (inject names) := by
  refine .calm fun s => ?_
  rw [inject, run_modify]
  dsimp only
  split <;> rfl

theorem grows_register (d : MacroDefinition) : Grows (ofWork (Work.register d)) := by
  refine .of_log fun s => ?_
  obtain ⟨warnings, h⟩ := Work.register_run d s.unit
  show s.unit.log <:+ (Work.register d s.unit).2.log
  rw [h]
  exact (List.suffix_append ..).trans (List.suffix_cons ..)

theorem grows_announce (n : Node) : Grows (announce n) := by
  unfold announce
  split
  · split
    · exact grows_register _
    · exact .pure _
  · exact .of_get fun s => .ite (.calm fun _ => rfl) (.pure _)
  · exact .pure _

/-! ## Phrases -/

/-- The parsers for the nonterminals only add to the log. -/
structure Nonterminals.Growing (g : Nonterminals) : Prop where
  expression : ∀ l, Grows (g.expression l)
  statement : Grows g.statement
  pattern : Grows g.pattern

namespace Nonterminals.Growing

variable {g : Nonterminals} (hg : g.Growing)

include hg

theorem wellFormedPattern : Grows g.wellFormedPattern := by
  refine hg.pattern.bind fun n => ?_
  split
  · exact .throw _
  · exact .pure _

omit hg in
theorem atBodyEnd : Grows atBodyEnd := grows_peek.bind fun _ => .pure _

theorem statements : Grows (repeatWhile (not <$> Nonterminals.atBodyEnd) g.statement) :=
  .repeatWhile atBodyEnd.map hg.statement

theorem body : Grows g.body := by
  refine (grows_openConstruct _).bind fun start => .bind (.calm fun _ => rfl) fun _ => ?_
  refine hg.statements.bind fun statements => grows_closeConstruct.bind fun _ => ?_
  refine grows_closeScope.bind fun injected => ?_
  exact (grows_spanFrom start).bind fun span => .pure _

theorem part (n : Nonterminal) : Grows (n.read g) := by
  cases n with
  | expression l => exact (hg.expression l).map
  | pattern => exact hg.pattern.map
  | binding => exact hg.wellFormedPattern.map
  | body => exact hg.body.map
  | statement => exact hg.statement.map
  | statements => exact hg.statements.map

theorem read (a : Phrase) : Grows (a.read g) := by
  induction a with
  | give f => exact .pure _
  | place => exact grows_peek.bind fun _ => .pure _
  | mark r =>
    rw [Phrase.read, discard_bind]
    exact (grows_consume r).bind fun _ => .pure _
  | kept r =>
    rw [Phrase.read, discard_bind]
    exact (grows_consume r).bind fun _ => .pure _
  | spelled r => exact (grows_consume r).bind fun _ => .pure _
  | name what => exact (grows_consumeName what).bind fun _ => .pure _
  | part n => exact hg.part n
  | fail what => exact grows_failExpecting _
  | seq a b iha ihb => exact iha.bind fun f => ihb.bind fun h => .pure _
  | either r a b iha ihb => exact (grows_check r).bind fun c => .ite iha ihb
  | ahead a b iha ihb => exact grows_checkBinding.bind fun c => .ite iha ihb
  | star r a ih => exact (Grows.repeatWhile (grows_check r) ih).map
  | gather a ih => exact ih.map
  | list a ih => exact ih.map
  | demand a what ih =>
    refine ih.bind fun f => ?_
    split
    · exact .bind (grows_failExpecting _) fun _ => .pure _
    · exact .pure _
  | node head a ih =>
    rw [Phrase.read_node]
    refine grows_peek.bind fun start => ih.bind fun f => (grows_spanFrom start).bind fun span => ?_
    exact (grows_announce _).bind fun _ => .pure _
  | chain a ih =>
    rw [Phrase.read_chain]
    exact grows_peek.bind fun start => ih.bind fun f => (grows_spanFrom start).bind fun _ => .pure _
  | construct c a ih =>
    rw [Phrase.read, discard_bind]
    exact (grows_openConstruct c).bind fun _ => ih.bind fun f =>
      grows_closeConstruct.bind fun _ => .pure _

omit hg in
theorem extend (m : Level) (left : Node) (start : Token) (f : Found) :
    Grows (extend m left start f) := by
  unfold Parser.extend tailStop
  refine Grows.bind ?_ fun stop => .of_get fun s => (grows_announce _).bind fun _ => .pure _
  exact .ite (grows_spanFrom start).map (.pure _)

theorem tail (a : Phrase) (m : Level) (left : Node) :
    Grows (peek >>= fun start => a.read g >>= Parser.extend m left start) :=
  grows_peek.bind fun start => (hg.read a).bind fun f => extend m left start f

theorem extendUpTo (l : Level) (fuel : Nat) (left : Node) : Grows (g.extendUpTo l fuel left) := by
  induction fuel generalizing left with
  | zero => exact .throw _
  | succ fuel ih =>
    refine .of_log fun s => ?_
    rw [Phrase.extendUpTo_run]
    split
    · split
      · exact ((hg.tail _ _ left).bind ih).log s
      · exact List.suffix_rfl
    · exact List.suffix_rfl

theorem operand : Grows g.operand := by
  refine .of_map (f := Found.ofNode) (.of_log fun s => ?_)
  rw [Phrase.operand_run]
  split
  · exact List.suffix_rfl
  · exact (hg.read _).log s
  · exact List.suffix_rfl

theorem readExpression (l : Level) : Grows (g.readExpression l) :=
  hg.operand.bind fun left => .of_get fun _ => hg.extendUpTo l _ left

theorem readPattern : Grows g.readPattern := by
  refine .of_map (f := Found.ofNode) (.of_log fun s => ?_)
  rw [Phrase.pattern_run]
  split
  · exact List.suffix_rfl
  · exact (hg.read _).log s
  · exact List.suffix_rfl

theorem plainStatement (settings : Settings) : Grows (g.plainStatement settings) := by
  refine .of_map (f := Found.ofNode) ?_
  rw [Phrase.plainStatement_eq]
  refine grows_peek.bind fun t => ?_
  split
  · exact hg.read _
  · exact hg.read _

end Nonterminals.Growing

/-! ## Expansions -/

/-- Reading the texts of expansions only adds to the log. -/
structure Rereading.Growing (t : Rereading) : Prop where
  expression : ∀ c text, Grows (t.expression c text)
  statements : ∀ c text, Grows (t.statements c text)

namespace Rereading.Growing

variable {t : Rereading} (ht : t.Growing)

theorem expandHere (c : MacroCall) : Grows (Rereading.expandHere c) :=
  (Grows.work (Work.onlyReports_expandCall c)).bind fun _ => (grows_inject _).bind fun _ => .pure _

theorem textOf (n : Node) : Grows (Rereading.textOf n) := by
  unfold Rereading.textOf
  split
  · exact .pure _
  · exact .throw _

include ht

theorem enter (n : Node) : Grows (t.enter n) := by
  refine .of_get fun s => ?_
  dsimp only
  split
  · exact .pure _
  · exact .pure _
  · split
    · refine .bind ?_ fun ns => .pure _
      exact (expandHere _).bind fun e => (textOf _).bind fun text => ht.statements _ text
    · refine .bind ?_ fun n => .pure _
      refine (expandHere _).bind fun e => ?_
      refine (Grows.work (Work.onlyReports_ofExpansion _)).bind fun n => ?_
      exact (textOf n).bind fun text => ht.expression _ text
    · exact .pure _

theorem transform (n : Node) : Grows (n.transformM t.transform ()) := by
  refine growing.transformM (R := fun _ _ _ => True) (E := fun _ _ _ => True) (fun d n => ?_)
    (fun d span head slots d' slots' _ _ => growing.pure trivial) n ()
  refine growing.mono (enter ht n) fun step _ => ?_
  cases step <;> trivial

theorem completed {read : Parser Node} (h : Grows read) : Grows (t.completed read) := by
  unfold Rereading.completed
  refine .of_get fun s => .bind (.calm fun _ => rfl) fun _ => h.bind fun n => .of_get fun s' => ?_
  have put : Grows (modify fun s' : ParserState => { s' with pending := s.pending }) :=
    .calm fun _ => rfl
  split
  · exact (Grows.pure _).bind fun _ => put.bind fun _ => .pure _
  · exact (transform ht n).bind fun _ => put.bind fun _ => .pure _

theorem upTo (settings : Settings) (depth : Nat) :
    (Nonterminals.upTo settings t depth).Growing := by
  induction depth with
  | zero => exact ⟨fun _ => .throw _, .throw _, .throw _⟩
  | succ depth ih =>
    exact ⟨fun l => ih.readExpression l, (completed ht (ih.plainStatement settings)).map,
      ih.readPattern⟩

omit ht in
theorem within {α : Type} {tokens : List Token} {p : Parser α} (h : Grows p) :
    Grows (Parser.within tokens p) :=
  .of_log fun s => h.log (ParserState.start s.unit tokens)

omit ht in
theorem reread {α : Type} (c : MacroCall) (depth : Nat) (text : String)
    {p : Parser (α × List String)} (h : Grows p) : Grows (reread c depth text p) := by
  refine .bind ?_ fun tokens => (within h).bind fun a => (grows_inject _).bind fun _ => .pure _
  refine .work ((Work.onlyReports_tokens _ _).bind fun tokens => ?_)
  refine Work.OnlyReports.bind (fun _ => ⟨rfl, List.suffix_rfl⟩) fun _ => ?_
  exact (Work.onlyReports_report _).bind fun _ => .pure _

theorem expressionWith (settings : Settings) : Grows (expressionWith settings t) := by
  refine .of_get fun s => .bind (.calm fun _ => rfl) fun _ => ?_
  have whole : Grows (do
      let node ← (Nonterminals.upTo settings t (2 * s.rest.length + 2)).anyExpression
      unless ← atEnd do throw (.parse (.expectedToken (.phrase "end of input") (← peek)))
      return node) := by
    refine ((upTo ht settings _).expression _).bind fun n => Grows.bind grows_peek.map fun b => ?_
    split
    · exact .pure _
    · exact grows_peek.bind fun _ => .bind (.throw _) fun _ => .pure _
  refine (completed ht whole).bind fun slot => ?_
  split
  · exact grows_closeScope.bind fun _ => .pure _
  · exact .throw _

theorem statementsWith (settings : Settings) : Grows (statementsWith settings t) := by
  refine .of_get fun s => .bind (.calm fun _ => rfl) fun _ => ?_
  refine .bind (.repeatWhile (Grows.map grows_peek.map) (upTo ht settings _).statement) fun _ => ?_
  exact grows_closeScope.bind fun _ => .pure _

end Rereading.Growing

theorem Rereading.growing_upTo (settings : Settings) (remaining : Nat) :
    (Rereading.upTo settings remaining).Growing := by
  induction remaining with
  | zero => exact ⟨fun _ _ => .throw _, fun _ _ => .throw _⟩
  | succ remaining ih =>
    exact ⟨fun c text => Growing.reread c _ text (ih.expressionWith settings),
      fun c text => Growing.reread c _ text (ih.statementsWith settings)⟩

end GlyphScript
