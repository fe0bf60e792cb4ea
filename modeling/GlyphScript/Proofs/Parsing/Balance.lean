import GlyphScript.Proofs.Parsing.Acceptance
import GlyphScript.Proofs.Parsing.Nesting
import GlyphScript.Proofs.Parsing.Still

/-!
# The balance of the parser

Every parser of the grammar keeps the state balanced, step by step, whether or not
it succeeds; it comes to no closer where nothing is open, and what was open before
it is open behind it. So a program is read with its delimiters nested.
-/

namespace GlyphScript

open GlyphScript.Parser

/-! ## Parsers that keep the balance -/

/-- From the state `s` a run has gone by steps to one that is balanced, and has asked for no construct
where none is open. If it has succeeded it has come to the place `q`, and open is what was open. -/
structure Kept {α : Type} (tokens : List Token) (s : ParserState) (q : Place)
    (r : Except Fault α × ParserState) : Prop where
  run : BalancedRun tokens s r.2
  fault : r.1 ≠ .error .nothingOpen
  made : ∀ a, r.1 = .ok a → q.Holds tokens r.2 ∧ r.2.frames = s.frames

/-- The parser keeps the balance at the place `p`, and comes to the place `q`. -/
def Keeps {α : Type} (p q : Place) (x : Parser α) : Prop :=
  ∀ tokens s, p.Holds tokens s → Kept tokens s q (x s)

namespace Kept

variable {α : Type} {tokens : List Token} {s : ParserState} {q : Place}

theorem fail {f : Fault} (h : f ≠ .nothingOpen) :
    Kept (α := α) tokens s q (.error f, s) :=
  ⟨.refl, fun e => h (Except.error.inj e), by rintro _ ⟨⟩⟩

theorem step_passed (inner : s.next.isEnd = false) : s.Step (passed s) :=
  .pass s.next (Place.rest_of_next inner) rfl

theorem read (a : α) (inner : s.next.isEnd = false) (there : q.Holds tokens (passed s)) :
    Kept tokens s q (.ok a, passed s) :=
  ⟨.single ⟨step_passed inner, there.balanced⟩, by rintro ⟨⟩, fun _ _ => ⟨there, rfl⟩⟩

end Kept

namespace Keeps

variable {α β : Type} {x : Parser α} {p q r : Place} {due due' : Bool}

theorem still (h : Still x) : Keeps p p x := by
  intro tokens s here
  obtain ⟨rest, frames, fault, -⟩ := h s
  have here' := here.congr rest frames
  exact ⟨.single ⟨.stay rest frames, here'.balanced⟩, fault, fun _ _ => ⟨here', frames⟩⟩

theorem pure (a : α) : Keeps p p (Pure.pure a : Parser α) := still (.pure a)

theorem throw {f : Fault} (h : f ≠ .nothingOpen) : Keeps p q (throw f : Parser α) :=
  fun _ _ _ => ⟨.refl, fun e => h (Except.error.inj e), by rintro _ ⟨⟩⟩

theorem bind {f : α → Parser β} (hx : Keeps p q x) (hf : ∀ a, Keeps q r (f a)) :
    Keeps p r (x >>= f) := by
  intro tokens s here
  obtain ⟨run, fault, made⟩ := hx tokens s here
  rw [run_bind]
  rcases h : x s with ⟨e | a, s'⟩ <;> rw [h] at run fault made
  · exact ⟨run, fun e' => fault (congrArg _ (Except.error.inj e')), by rintro _ ⟨⟩⟩
  · obtain ⟨here', frames⟩ := made a rfl
    obtain ⟨run', fault', made'⟩ := hf a tokens s' here'
    exact ⟨run.trans run', fault', fun b e => ⟨(made' b e).1, (made' b e).2.trans frames⟩⟩

theorem map {f : α → β} (hx : Keeps p q x) : Keeps p q (f <$> x) := by
  rw [map_eq_pure_bind]
  exact hx.bind fun _ => .pure _

theorem of_map {f : α → β} (h : Keeps p q (f <$> x)) : Keeps p q x := by
  intro tokens s here
  have := h tokens s here
  rw [run_map] at this
  rcases hx : x s with ⟨e | a, s'⟩ <;> rw [hx] at this
  · exact ⟨this.run, fun e' => this.fault (congrArg _ (Except.error.inj e')), by rintro _ ⟨⟩⟩
  · exact ⟨this.run, by rintro ⟨⟩, fun _ _ => this.made _ rfl⟩

theorem of_get {f : ParserState → Parser β} (h : ∀ s, Keeps p q (f s)) : Keeps p q (get >>= f) :=
  fun tokens s => h s tokens s

theorem ite {c : Prop} [Decidable c] {y : Parser α} (hx : Keeps p q x) (hy : Keeps p q y) :
    Keeps p q (if c then x else y) := by
  split
  · exact hx
  · exact hy

/-- Where a pattern is due, none has to be read. -/
theorem undue (h : Keeps .outside q x) : Keeps (.ofDue due) q x :=
  fun tokens s here => h tokens s here.undue

theorem weaken (h : Keeps p (.ofDue due) x) (le : due' = true → due = true) :
    Keeps p (.ofDue due') x := fun tokens s here =>
  have ⟨run, fault, made⟩ := h tokens s here
  ⟨run, fault, fun a e => ⟨(made a e).1.weaken le, (made a e).2⟩⟩

theorem past (h : Keeps p (.ofDue due) x) : Keeps p .outside x := by
  show Keeps p (.ofDue false) x
  exact h.weaken (by rintro ⟨⟩)

/-- A token is read, and then what follows. -/
theorem advance {tokens : List Token} {s : ParserState} (hx : Keeps p q x)
    (inner : s.next.isEnd = false) (there : p.Holds tokens (passed s)) :
    Kept tokens s q ((discard Parser.advance >>= fun _ => x) s) := by
  rw [run_bind, discard_advance_run inner]
  obtain ⟨run, fault, made⟩ := hx tokens (passed s) there
  exact ⟨.head ⟨Kept.step_passed inner, there.balanced⟩ run, fault, made⟩

theorem repeatUpTo {test : Parser Bool} (ht : Still test) (hx : Keeps p p x) (fuel : Nat) :
    Keeps p p (repeatUpTo test x fuel) := by
  induction fuel with
  | zero => exact .throw (by rintro ⟨⟩)
  | succ fuel ih =>
    rw [Parser.repeatUpTo_succ]
    refine (still ht).bind fun b => ?_
    cases b
    · exact .pure _
    · exact hx.bind fun a => ih.bind fun as => .pure _

theorem repeatWhile {test : Parser Bool} (ht : Still test) (hx : Keeps p p x) :
    Keeps p p (repeatWhile test x) :=
  .of_get fun _ => repeatUpTo ht hx _

/-- A parser that reads a token, if the token is as wanted. -/
theorem token (wanted : Token → Bool) (f : Token → α) (e : ParserState → Fault)
    (run : ∀ s, x s = if wanted s.next then (.ok (f s.next), passed s) else (.error (e s), s))
    (fault : ∀ s, e s ≠ .nothingOpen)
    (read : ∀ tokens s, p.Holds tokens s → wanted s.next = true →
      s.next.isEnd = false ∧ q.Holds tokens (passed s)) : Keeps p q x := by
  intro tokens s here
  rw [run]
  split
  · obtain ⟨inner, there⟩ := read tokens s here ‹_›
    exact .read _ inner there
  · exact .fail (fault s)

end Keeps

/-! ## Tokens and constructs -/

theorem keeps_consume {r : Reserved} (h : r.isDelimiter = false) :
    Keeps .outside (.ofDue r.introducesPattern) (consume r) := by
  refine .token (·.isReserved r) id (unwanted (.mark r)) (consume_run r) (unwanted_ne _) fun tokens s here found => ?_
  have inner := isEnd_of_isReserved found
  have reserved := isReserved_iff.mp found
  have there := here.passed inner (by rw [reserved]; exact h)
  rw [reserved] at there
  exact ⟨inner, there⟩

/-- Reading a token of a pattern. -/
theorem keeps_consume_inside {r : Reserved} {F G : Frames}
    (h : ∀ t : Token, t.isReserved r = true → t.inPattern = true ∧ F.step t = some G) :
    Keeps (.pattern F) (.pattern G) (consume r) := by
  refine .token (·.isReserved r) id (unwanted (.mark r)) (consume_run r) (unwanted_ne _) fun tokens s here found => ?_
  have inner := isEnd_of_isReserved found
  obtain ⟨fits, leaves⟩ := h _ found
  exact ⟨inner, here.passedInside inner fits leaves⟩

theorem keeps_consumeName (what : String) : Keeps .outside .outside (consumeName what) := by
  refine .token (·.kind = .identifier) (·.lexeme) (unwanted (.phrase what))
    (by simpa using consumeName_run what) (unwanted_ne _) fun tokens s here found => ?_
  have inner : s.next.isEnd = false := isEnd_of_identifier (of_decide_eq_true found)
  have bare : s.next.reserved? = none := by
    rw [Token.reserved?, of_decide_eq_true found]
    rfl
  exact ⟨inner, (here.passed inner (by rw [bare]; rfl)).undue⟩

theorem openConstruct_run (c : Construct) (s : ParserState) :
    openConstruct c s = if s.next.isReserved c.opener then (.ok s.next, opened c s)
      else (.error (unwanted (.mark c.opener) s), s) := by
  unfold openConstruct
  rw [run_bind, consume_run]
  by_cases h : s.next.isReserved c.opener
  · rw [if_pos h, if_pos h]
    rfl
  · rw [if_neg h, if_neg h]

/-- A construct is opened, what is inside keeps the balance, and the construct is closed. -/
theorem Keeps.construct {α β : Type} {c : Construct} {q : Place} {x : Token → Parser α}
    {f : Token → α → Parser β} (hx : ∀ t, Keeps .outside .outside (x t))
    (hf : ∀ t a, Keeps .outside q (f t a)) : Keeps .outside q
      (openConstruct c >>= fun t => x t >>= fun a => closeConstruct >>= fun _ => f t a) := by
  intro tokens s here
  rw [run_bind, openConstruct_run]
  by_cases opens : s.next.isReserved c.opener
  · rw [if_pos opens]
    dsimp only
    have inner := isEnd_of_isReserved opens
    have inside : Place.outside.Holds tokens (opened c s) :=
      here.read inner rfl (Frames.step_opener opens)
    have enter : BalancedRun tokens s (opened c s) :=
      .single ⟨.opens c s.next opens (Place.rest_of_next inner) rfl, inside.balanced⟩
    obtain ⟨run, fault, made⟩ := hx s.next tokens (opened c s) inside
    rw [run_bind]
    rcases h : x s.next (opened c s) with ⟨e | a, s'⟩ <;> rw [h] at run fault made
    · exact ⟨enter.trans run, fun e' => fault (congrArg _ (Except.error.inj e')), by rintro _ ⟨⟩⟩
    · obtain ⟨last, frames⟩ := made a rfl
      have frames : s'.frames = ⟨c, s.next⟩ :: s.frames := frames
      dsimp only
      rw [run_bind]
      by_cases closes : s'.next.isReserved c.closer
      · rw [closeConstruct_leading frames (isReserved_next.mp closes)]
        have inner' := isEnd_of_isReserved closes
        have same : (closed s').frames = s.frames := by
          show s'.frames.tail = s.frames
          rw [frames]
          rfl
        have outside : Place.outside.Holds tokens (closed s') := by
          refine last.read inner' rfl ?_
          rw [same, frames]
          exact Frames.step_closer closes
        have leave : BalancedRun tokens s' (closed s') := by
          refine .single ⟨.closes c s'.next s.next closes (Place.rest_of_next inner') ?_,
            outside.balanced⟩
          rw [same, frames]
        obtain ⟨run', fault', made'⟩ := hf s.next a tokens (closed s') outside
        exact ⟨((enter.trans run).trans leave).trans run', fault',
          fun b e => ⟨(made' b e).1, (made' b e).2.trans same⟩⟩
      · rw [closeConstruct_run, frames]
        dsimp only
        cases hc : Frames.closingFault? ⟨c, s.next⟩ s'.next with
        | none => exact absurd (closingFault?_eq_none.mp hc) closes
        | some p => exact ⟨enter.trans run, by rintro ⟨⟩, by rintro _ ⟨⟩⟩
  · rw [if_neg opens]
    exact ⟨.refl, fun h => unwanted_ne _ s (Except.error.inj h), by rintro _ ⟨⟩⟩

/-! ## Phrases -/

/-- Whether a pattern is due behind the phrase, if one is or is not due before it. There is no
answer if the phrase reads delimiters other than by constructs, or patterns where none is due. -/
def Phrase.due : Phrase → Bool → Option Bool
  | give _, due | place, due | fail _, due => some due
  | mark r, _ | kept r, _ | spelled r, _ =>
    if r.isDelimiter then none else some r.introducesPattern
  | name _, _ => some false
  | part .pattern, _ => none
  | part .binding, due => if due then some false else none
  | part _, _ => some false
  | seq a b, due => (a.due due).bind b.due
  | either _ a b, due | ahead a b, due => do return (← a.due due) && (← b.due due)
  | star _ a, _ => (a.due false).map fun _ => false
  | gather a, due | list a, due | demand a _, due | node _ a, due | chain a, due => a.due due
  | construct _ a, _ => (a.due false).map fun _ => false

namespace Phrase

theorem due_operand : ∀ r a, operand? r = some a → a.due false = some false := by
  intro r a h
  cases IsOperand.of h <;> decide

theorem due_tail : ∀ r m a, tail? r = some (m, a) → a.due false = some false := by
  intro r m a h
  cases IsTail.of h <;> decide

theorem due_statement (settings : Settings) :
    ∀ r a, statement? settings r = some a → a.due false = some false := by
  intro r a h
  cases IsStatement.of h <;> rfl

end Phrase

theorem keeps_mark {r : Reserved} {due due' : Bool} (h : (Phrase.mark r).due due = some due') :
    Keeps (.ofDue due) (.ofDue due') (consume r) := by
  rw [Phrase.due] at h
  split at h
  · cases h
  · cases h
    exact (keeps_consume (Bool.eq_false_iff.mpr ‹_›)).undue

/-- The parsers for the nonterminals keep the balance. -/
structure Nonterminals.Keeping (g : Nonterminals) : Prop where
  expression : ∀ l, Keeps .outside .outside (g.expression l)
  statement : Keeps .outside .outside g.statement
  pattern : ∀ brackets, Keeps (.pattern brackets) (.pattern brackets) g.pattern

namespace Nonterminals.Keeping

variable {g : Nonterminals} (hg : g.Keeping)

include hg

theorem wellFormedPattern : Keeps (.pattern []) .outside g.wellFormedPattern := by
  have checked : Keeps (.ofDue true) (.ofDue true) g.wellFormedPattern := by
    refine (hg.pattern []).bind fun n => ?_
    split
    · exact .throw (by rintro ⟨⟩)
    · exact .pure _
  exact checked.past

omit hg in
theorem atBodyEnd : Still atBodyEnd := still_peek.bind fun _ => .pure _

theorem statements :
    Keeps .outside .outside (repeatWhile (not <$> Nonterminals.atBodyEnd) g.statement) :=
  .repeatWhile atBodyEnd.map hg.statement

theorem body : Keeps .outside .outside g.body := by
  have form : g.body = openConstruct .body >>= fun start =>
      (openScope >>= fun _ => repeatWhile (not <$> Nonterminals.atBodyEnd) g.statement) >>=
        fun statements => closeConstruct >>= fun _ => closeScope >>= fun injected =>
          spanFrom start >>= fun span => pure (Node.block span statements.flatten injected) := by
    simp only [Nonterminals.body, bind_assoc]
  rw [form]
  refine .construct (fun start => ?_) fun start statements => ?_
  · exact (Keeps.still still_openScope).bind fun _ => hg.statements
  · exact .still (still_closeScope.bind fun _ => (still_spanFrom _).bind fun _ => .pure _)

theorem part {n : Nonterminal} {due due' : Bool} (h : (Phrase.part n).due due = some due') :
    Keeps (.ofDue due) (.ofDue due') (n.read g) := by
  cases n with
  | expression l => cases h; exact (hg.expression l).map.undue
  | pattern => cases h
  | binding =>
    cases due <;> cases h
    exact hg.wellFormedPattern.map
  | body => cases h; exact hg.body.map.undue
  | statement => cases h; exact hg.statement.map.undue
  | statements => cases h; exact hg.statements.map.undue

theorem read {a : Phrase} {due due' : Bool} (h : a.due due = some due') :
    Keeps (.ofDue due) (.ofDue due') (a.read g) := by
  induction a generalizing due due' with
  | give f => cases h; exact .pure _
  | place => cases h; exact .still (still_peek.bind fun _ => .pure _)
  | mark r =>
    rw [Phrase.read, discard_bind]
    exact (keeps_mark h).bind fun _ => .pure _
  | kept r =>
    rw [Phrase.read, discard_bind]
    exact (keeps_mark h).bind fun _ => .pure _
  | spelled r => exact (keeps_mark h).bind fun _ => .pure _
  | name what => cases h; exact ((keeps_consumeName what).bind fun _ => .pure _).undue
  | part n => exact hg.part h
  | fail what => cases h; exact .still (still_failExpecting _)
  | seq a b iha ihb =>
    obtain ⟨due'', first, second⟩ := Option.bind_eq_some_iff.mp h
    exact (iha first).bind fun f => (ihb second).bind fun h => .pure _
  | either r a b iha ihb =>
    obtain ⟨x, hx, h⟩ := Option.bind_eq_some_iff.mp h
    obtain ⟨y, hy, h⟩ := Option.bind_eq_some_iff.mp h
    cases h
    refine (Keeps.still (still_check r)).bind fun c => .ite ?_ ?_
    · exact (iha hx).weaken fun h => (Bool.and_eq_true_iff.mp h).1
    · exact (ihb hy).weaken fun h => (Bool.and_eq_true_iff.mp h).2
  | ahead a b iha ihb =>
    obtain ⟨x, hx, h⟩ := Option.bind_eq_some_iff.mp h
    obtain ⟨y, hy, h⟩ := Option.bind_eq_some_iff.mp h
    cases h
    refine (Keeps.still still_checkBinding).bind fun c => .ite ?_ ?_
    · exact (iha hx).weaken fun h => (Bool.and_eq_true_iff.mp h).1
    · exact (ihb hy).weaken fun h => (Bool.and_eq_true_iff.mp h).2
  | star r a ih =>
    obtain ⟨x, hx, h⟩ := Option.map_eq_some_iff.mp h
    cases h
    have one : Keeps .outside .outside (a.read g) := (ih hx).past
    exact (Keeps.repeatWhile (still_check r) one).map.undue
  | gather a ih => exact (ih h).map
  | list a ih => exact (ih h).map
  | demand a what ih =>
    refine (ih h).bind fun f => ?_
    split
    · exact (Keeps.still (still_failExpecting _)).bind fun _ => .pure _
    · exact .pure _
  | node head a ih =>
    rw [Phrase.read_node]
    refine (Keeps.still still_peek).bind fun start => (ih h).bind fun f => .still ?_
    exact (still_spanFrom start).bind fun span => (still_announce _).bind fun _ => .pure _
  | chain a ih =>
    rw [Phrase.read_chain]
    refine (Keeps.still still_peek).bind fun start => (ih h).bind fun f => .still ?_
    exact (still_spanFrom start).bind fun _ => .pure _
  | construct c a ih =>
    obtain ⟨x, hx, h⟩ := Option.map_eq_some_iff.mp h
    cases h
    rw [Phrase.read, discard_bind]
    have inside : Keeps .outside .outside (a.read g) := (ih hx).past
    exact (Keeps.construct (fun _ => inside) fun _ _ => .pure _).undue

theorem tail {a : Phrase} (h : a.due false = some false) (m : Level) (left : Node) :
    Keeps .outside .outside (peek >>= fun start => a.read g >>= Parser.extend m left start) :=
  (Keeps.still still_peek).bind fun start => (hg.read h).bind fun f =>
    .still (still_extend m left start f)

theorem extendUpTo (l : Level) (fuel : Nat) (left : Node) :
    Keeps .outside .outside (g.extendUpTo l fuel left) := by
  induction fuel generalizing left with
  | zero => exact .throw (by rintro ⟨⟩)
  | succ fuel ih =>
    intro tokens s here
    rw [Phrase.extendUpTo_run]
    split
    · split
      · obtain ⟨r, -, hr⟩ := Option.bind_eq_some_iff.mp ‹_›
        exact ((hg.tail (Phrase.due_tail _ _ _ hr) _ left).bind ih) tokens s here
      · exact Keeps.pure left tokens s here
    · exact Keeps.pure left tokens s here

end Nonterminals.Keeping

/-! ## Operands, patterns and statements -/

theorem plain_of_atom {t : Token} {n : Node} (h : Nonterminals.atom? t = some n) :
    t.reserved?.any Reserved.isDelimiter = false := by
  obtain ⟨kind, lexeme, location, stop⟩ := t
  cases kind with
  | reserved r => cases r <;> cases h <;> rfl
  | identifier | number | text | endOfInput => rfl

theorem plain_of_atomicPattern {t : Token} {n : Node}
    (h : Nonterminals.atomicPattern? t = some n) :
    t.reserved?.any Reserved.isDelimiter = false := by
  obtain ⟨kind, lexeme, location, stop⟩ := t
  cases kind with
  | reserved r => cases r <;> cases h <;> rfl
  | identifier | number | text | endOfInput => rfl

/-- What the opener of a composite pattern leaves open its closer closes. -/
theorem brackets_of_composite {t : Token} {r closer : Reserved} {head : Head}
    (reserved : t.reserved? = some r)
    (h : Nonterminals.compositePattern? r = some (closer, head)) (F : Frames) :
    ∃ G, t.inPattern = true ∧ F.step t = some G ∧
      ∀ u : Token, u.isReserved closer = true → u.inPattern = true ∧ G.step u = some F := by
  have other : ∀ {u : Token} {r : Reserved}, u.reserved? = some r → r.isDelimiter = false →
      F.step u = some F := by
    intro u r hu plain
    refine Frames.step_other ?_
    rw [hu]
    exact plain
  cases r <;> cases h
  case listOpen | tensorLitOpen =>
    refine ⟨F, Token.inPattern_mark reserved rfl, other reserved rfl, fun u hu => ?_⟩
    have hu := isReserved_iff.mp hu
    exact ⟨Token.inPattern_mark hu rfl, other hu rfl⟩
  case nnOpen =>
    refine ⟨⟨.network, t⟩ :: F, Token.inPattern_mark reserved rfl,
      Frames.step_opener (isReserved_iff.mpr reserved), fun u hu => ?_⟩
    exact ⟨Token.inPattern_mark (isReserved_iff.mp hu) rfl, Frames.step_closer hu⟩
  case streamOpen =>
    refine ⟨⟨.stream, t⟩ :: F, Token.inPattern_mark reserved rfl,
      Frames.step_opener (isReserved_iff.mpr reserved), fun u hu => ?_⟩
    exact ⟨Token.inPattern_mark (isReserved_iff.mp hu) rfl, Frames.step_closer hu⟩

namespace Nonterminals.Keeping

variable {g : Nonterminals} (hg : g.Keeping)

include hg

theorem operand : Keeps .outside .outside g.operand := by
  refine .of_map (f := Found.ofNode) fun tokens s here => ?_
  rw [Phrase.operand_run]
  split
  · rename_i n _ atom
    have inner := Phrase.isEnd_of_atom atom
    exact .read _ inner (here.passed inner (plain_of_atom atom)).undue
  · obtain ⟨r, -, hr⟩ := Option.bind_eq_some_iff.mp ‹_›
    exact hg.read (Phrase.due_operand _ _ hr) tokens s here
  · exact .fail (unwanted_ne _ s)

theorem readExpression (l : Level) : Keeps .outside .outside (g.readExpression l) :=
  hg.operand.bind fun left => .of_get fun _ => hg.extendUpTo l _ left

/-- Items of a composite pattern up to its closer. -/
theorem elements {closer : Reserved} {F G : Frames} (closes : ∀ u : Token,
    u.isReserved closer = true → u.inPattern = true ∧ G.step u = some F) :
    Keeps (.pattern G) (.pattern F) (listUntil closer g.pattern) := by
  have separator : Keeps (.pattern G) (.pattern G) (consume .separator) := by
    refine keeps_consume_inside fun t h => ?_
    have reserved := isReserved_iff.mp h
    refine ⟨Token.inPattern_mark reserved rfl, Frames.step_other ?_⟩
    rw [reserved]
    rfl
  have close := keeps_consume_inside closes
  rw [listUntil, accept_bind]
  refine (Keeps.still (still_check closer)).bind fun c => .ite (close.bind fun _ => .pure _) ?_
  refine (hg.pattern G).bind fun first => ?_
  rw [repeatWhile_accept]
  refine (Keeps.repeatWhile (still_check _) (separator.bind fun _ => hg.pattern G)).bind fun _ => ?_
  rw [discard_bind]
  exact close.bind fun _ => .pure _

theorem readPattern (brackets : Frames) :
    Keeps (.pattern brackets) (.pattern brackets) g.readPattern := by
  intro tokens s here
  unfold Nonterminals.readPattern
  rw [run_bind, peek_run]
  dsimp only
  cases atom : Nonterminals.atomicPattern? s.next with
  | some n =>
    have fits : s.next.inPattern = true := by
      rw [Token.inPattern, atom]
      rfl
    have inner := Phrase.isEnd_of_atomicPattern atom
    have there := here.passedInside inner fits (Frames.step_other (plain_of_atomicPattern atom))
    exact (Keeps.pure n).advance inner there
  | none =>
    cases hr : s.next.reserved?.bind Nonterminals.compositePattern? with
    | some entry =>
      obtain ⟨r, reserved, composite⟩ := Option.bind_eq_some_iff.mp hr
      obtain ⟨G, fits, leaves, closes⟩ := brackets_of_composite reserved composite brackets
      have inner := isEnd_of_isReserved (isReserved_iff.mpr reserved)
      refine Keeps.advance ?_ inner (here.passedInside inner fits leaves)
      refine (hg.elements closes).bind fun elements => ?_
      exact (Keeps.still (still_spanFrom _)).bind fun span => .pure _
    | none =>
      dsimp only
      split
      · exact .fail (by rintro ⟨⟩)
      · exact .fail (by rintro ⟨⟩)

theorem plainStatement (settings : Settings) :
    Keeps .outside .outside (g.plainStatement settings) := by
  refine .of_map (f := Found.ofNode) ?_
  rw [Phrase.plainStatement_eq]
  refine (Keeps.still still_peek).bind fun t => ?_
  split
  · obtain ⟨r, -, hr⟩ := Option.bind_eq_some_iff.mp ‹_›
    exact hg.read (Phrase.due_statement settings _ _ hr)
  · exact hg.read (show Phrase.expressionStmt.due false = some false from rfl)

end Nonterminals.Keeping

/-! ## Expansions -/

/-- Reading the texts of expansions does not touch what is being read. -/
structure Rereading.Apart (t : Rereading) : Prop where
  expression : ∀ c text, Still (t.expression c text)
  statements : ∀ c text, Still (t.statements c text)

namespace Rereading.Apart

variable {t : Rereading} (ht : t.Apart)

theorem expandHere (c : MacroCall) : Still (Rereading.expandHere c) :=
  (Still.work (Work.aside_expandCall c)).bind fun _ => (still_inject _).bind fun _ => .pure _

theorem textOf (n : Node) : Still (Rereading.textOf n) := by
  unfold Rereading.textOf
  split
  · exact .pure _
  · exact .throw (by rintro ⟨⟩)

include ht

theorem enter (n : Node) : Still (t.enter n) := by
  refine .of_get fun s => ?_
  dsimp only
  split
  · exact .pure _
  · exact .pure _
  · split
    · refine .bind ?_ fun ns => .pure _
      exact (expandHere _).bind fun e => (textOf _).bind fun text => ht.statements _ text
    · refine .bind ?_ fun n => .pure _
      refine (expandHere _).bind fun e => ?_
      refine (Still.work (Work.aside_ofExpansion _)).bind fun n => ?_
      exact (textOf n).bind fun text => ht.expression _ text
    · exact .pure _

theorem transform (n : Node) : Still (n.transformM t.transform ()) := by
  refine still.transformM (R := fun _ _ _ => True) (E := fun _ _ _ => True) (fun d n => ?_)
    (fun d span head slots d' slots' _ _ => still.pure trivial) n ()
  refine still.mono (enter ht n) fun step _ => ?_
  cases step <;> trivial

theorem completed {read : Parser Node} (h : Keeps .outside .outside read) :
    Keeps .outside .outside (t.completed read) := by
  have put (outer : Nat) : Still (modify fun s : ParserState => { s with pending := outer }) :=
    .of_run fun _ => ⟨rfl, rfl, by rintro ⟨⟩⟩
  unfold Rereading.completed
  refine .of_get fun s => (Keeps.still (put 0)).bind fun _ => h.bind fun n => .of_get fun s' => ?_
  refine .still ?_
  split
  · exact (Still.pure _).bind fun _ => (put _).bind fun _ => .pure _
  · exact (transform ht n).bind fun _ => (put _).bind fun _ => .pure _

theorem upTo (settings : Settings) (depth : Nat) :
    (Nonterminals.upTo settings t depth).Keeping := by
  induction depth with
  | zero => exact ⟨fun _ => .throw (by rintro ⟨⟩), .throw (by rintro ⟨⟩), fun _ => .throw (by rintro ⟨⟩)⟩
  | succ depth ih =>
    exact ⟨fun l => ih.readExpression l, (completed ht (ih.plainStatement settings)).map,
      ih.readPattern⟩

omit ht in
theorem reread {α : Type} (c : MacroCall) (depth : Nat) (text : String)
    {p : Parser (α × List String)} (h : Keeps .outside .outside p) :
    Still (reread c depth text p) := by
  have within (tokens : List Token) : Still (Parser.within tokens p) := .of_run fun s =>
    ⟨rfl, rfl, (h tokens _ (Place.outside_start s.unit tokens)).fault⟩
  refine .bind ?_ fun tokens => (within tokens).bind fun a => (still_inject _).bind fun _ => .pure _
  refine .work ((Work.aside_tokens _ _).bind fun tokens => ?_)
  refine Work.Aside.bind (fun _ => by rintro ⟨⟩) fun _ => ?_
  exact (Work.aside_report _).bind fun _ => .pure _

theorem expressionWith (settings : Settings) :
    Keeps .outside .outside (expressionWith settings t) := by
  refine .of_get fun s => (Keeps.still still_openScope).bind fun _ => ?_
  have whole : Keeps .outside .outside (do
      let node ← (Nonterminals.upTo settings t (2 * s.rest.length + 2)).anyExpression
      unless ← atEnd do throw (.parse (.expectedToken (.phrase "end of input") (← peek)))
      return node) := by
    refine ((upTo ht settings _).expression _).bind fun n => .still (still_peek.map.bind fun b => ?_)
    split
    · exact .pure _
    · exact still_peek.bind fun _ => .bind (.throw (by rintro ⟨⟩)) fun _ => .pure _
  refine (completed ht whole).bind fun slot => .still ?_
  split
  · exact still_closeScope.bind fun _ => .pure _
  · exact .throw (by rintro ⟨⟩)

theorem statementsWith (settings : Settings) :
    Keeps .outside .outside (statementsWith settings t) := by
  refine .of_get fun s => (Keeps.still still_openScope).bind fun _ => ?_
  refine (Keeps.repeatWhile still_peek.map.map (upTo ht settings _).statement).bind fun _ => ?_
  exact .still (still_closeScope.bind fun _ => .pure _)

end Rereading.Apart

theorem Rereading.apart_upTo (settings : Settings) (remaining : Nat) :
    (Rereading.upTo settings remaining).Apart := by
  induction remaining with
  | zero => exact ⟨fun _ _ => .throw (by rintro ⟨⟩), fun _ _ => .throw (by rintro ⟨⟩)⟩
  | succ remaining ih =>
    exact ⟨fun c text => Apart.reread c _ text (ih.expressionWith settings),
      fun c text => Apart.reread c _ text (ih.statementsWith settings)⟩

/-! ## Programs -/

theorem still_finishProgram (span : Span) (nss : List (List Node)) :
    Still (finishProgram span nss) :=
  still_closeScope.bind fun _ => (Still.work (Work.aside_report _)).bind fun _ => .pure _

theorem keeps_programWith (settings : Settings) {t : Rereading} (ht : t.Apart) :
    Keeps .outside .outside (programWith settings t) := by
  refine .of_get fun s => .of_get fun s' => (Keeps.still still_openScope).bind fun _ => ?_
  have item : Keeps .outside .outside
      (programItem (.upTo settings t (2 * s.rest.length + 2))) :=
    (Keeps.still (.work Work.aside_checkpoint)).bind fun _ => (ht.upTo settings _).statement
  refine (Keeps.repeatWhile still_peek.map.map item).bind fun nss => ?_
  exact .still (still_finishProgram _ nss)

def freshUnit : UnitState := UnitState.start (Gensym.ofNames "%" Std.TreeSet.empty) none

end GlyphScript
