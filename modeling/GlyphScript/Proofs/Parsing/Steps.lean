import GlyphScript.Grammar.Program
import GlyphScript.Proofs.Run

/-!
# Steps of the parser

What the primitives of the parser do in a state, and equations between
parsers that look ahead and parsers that read.
-/

namespace GlyphScript

namespace Parser

variable {α β : Type} {s s' : ParserState}

/-- The state after reading the next token, which is not the end. -/
def passed (s : ParserState) : ParserState :=
  { s with previous := some s.next, rest := s.rest.tail }

theorem peek_run (s : ParserState) : peek s = (.ok s.next, s) := rfl

theorem check_run (r : Reserved) (s : ParserState) :
    check r s = (.ok (s.next.isReserved r), s) := rfl

theorem advance_run (s : ParserState) :
    advance s = (.ok s.next, if s.next.isEnd then s else passed s) := by
  unfold advance
  rw [run_bind, run_get]
  by_cases h : s.next.isEnd <;> simp [h, run_bind, run_pure, run_set, passed]

theorem isEnd_of_isReserved {t : Token} {r : Reserved} (h : t.isReserved r = true) :
    t.isEnd = false := by
  simp only [Token.isReserved, decide_eq_true_eq] at h
  simp [Token.isEnd, h]

theorem isReserved_iff {t : Token} {r : Reserved} : t.isReserved r = true ↔ t.reserved? = some r := by
  cases h : t.kind <;> simp [Token.isReserved, Token.reserved?, TokenKind.reserved?, h]

theorem isEnd_of_identifier {t : Token} (h : t.kind = .identifier) : t.isEnd = false := by
  simp [Token.isEnd, h]

theorem advance_run_reserved {r : Reserved} (h : s.next.isReserved r = true) :
    advance s = (.ok s.next, passed s) := by
  simp [advance_run, isEnd_of_isReserved h]

theorem discard_advance_run (h : s.next.isEnd = false) : discard advance s = (.ok (), passed s) := by
  simp [run_discard, advance_run, h]

/-- The fault of a parser that wants something else than the next token. -/
def unwanted (expected : Expected) (s : ParserState) : Fault :=
  if s.next.isEnd then .parse (.unexpectedEnd expected s.next)
  else .parse (.expectedToken expected s.next)

theorem failExpecting_run (expected : Expected) (s : ParserState) :
    (failExpecting expected : Parser α) s = (.error (unwanted expected s), s) := by
  unfold failExpecting
  rw [run_bind, peek_run]
  by_cases h : s.next.isEnd <;> simp [h, run_throw, unwanted]

theorem consume_run (r : Reserved) (s : ParserState) :
    consume r s = if s.next.isReserved r then (.ok s.next, passed s)
      else (.error (unwanted (.mark r) s), s) := by
  unfold consume
  rw [run_bind, check_run]
  by_cases h : s.next.isReserved r
  · simp [h, advance_run_reserved h]
  · simp [h, failExpecting_run]

theorem consumeName_run (what : String) (s : ParserState) :
    consumeName what s = if s.next.kind = .identifier then (.ok s.next.lexeme, passed s)
      else (.error (unwanted (.phrase what) s), s) := by
  unfold consumeName
  rw [run_bind, peek_run]
  by_cases h : s.next.kind = .identifier
  · simp [h, run_bind, run_pure, advance_run, isEnd_of_identifier h]
  · simp [h, failExpecting_run]

theorem accept_run (r : Reserved) (s : ParserState) :
    accept r s = if s.next.isReserved r then (.ok true, passed s) else (.ok false, s) := by
  unfold accept
  rw [run_bind, check_run]
  by_cases h : s.next.isReserved r
  · simp [h, run_discard, run_bind, run_pure, advance_run_reserved h]
  · simp [h, run_pure]

theorem spanFrom_run (start : Token) (s : ParserState) :
    spanFrom start s = (.ok ⟨start.location, (s.previous.getD start).stopOrStart⟩, s) := rfl

theorem markOr_run {β : Type} (meaning : Reserved → Option β) (d : β) (s : ParserState) :
    Nonterminals.markOr meaning d s = match s.next.reserved?.bind meaning with
      | some a => (.ok a, passed s)
      | none => (.ok d, s) := by
  unfold Nonterminals.markOr
  rw [run_bind, peek_run]
  dsimp only
  cases h : s.next.reserved? with
  | none => rfl
  | some r =>
    have : s.next.isEnd = false := by
      cases hk : s.next.kind <;> simp_all [Token.reserved?, TokenKind.reserved?, Token.isEnd]
    cases h' : meaning r with
    | none => simp [h', run_pure]
    | some a => simp [h', run_bind, run_pure, discard_advance_run this]

theorem closingFault?_eq_none {frame : Frame} {t : Token} :
    Frames.closingFault? frame t = none ↔ t.isReserved frame.construct.closer = true := by
  unfold Frames.closingFault?
  dsimp only
  by_cases h : t.isReserved frame.construct.closer
  · simp [h]
  · rw [if_neg h]
    split
    · simp [h]
    · split <;> simp [h]

theorem closeConstruct_run (s : ParserState) : closeConstruct s = match s.frames with
    | [] => (.error .nothingOpen, s)
    | frame :: frames =>
      match Frames.closingFault? frame s.next with
      | none => (.ok (), passed { s with frames })
      | some fault => (.error (.parse fault), s) := by
  unfold closeConstruct
  rw [run_bind, run_get]
  dsimp only
  cases hf : s.frames with
  | nil => rfl
  | cons frame frames =>
    cases h : Frames.closingFault? frame s.next with
    | none =>
      have : (ParserState.next { s with frames }).isEnd = false :=
        isEnd_of_isReserved (closingFault?_eq_none.mp h)
      simp [Frames.close, h, run_bind, run_set, discard_advance_run this]
    | some fault => simp [Frames.close, h, run_throw]

/-- The innermost scope is left, so there has to be one. -/
theorem closeScope_run (s : ParserState) : closeScope s = match s.scopes with
    | scope :: scopes => (.ok scope, { s with scopes })
    | [] => (.error .outOfReach, s) := by
  unfold closeScope
  rw [run_bind, run_get]
  dsimp only
  cases s.scopes <;> rfl

/-! ## Equations -/

theorem discard_bind (p : Parser α) (f : Unit → Parser β) :
    (Functor.discard p >>= f) = p >>= fun _ => f () := by
  rw [Functor.discard, map_const, Function.comp_apply, bind_map_left]

theorem ite_bind (c : Prop) [Decidable c] (p q : Parser α) (f : α → Parser β) :
    ((if c then p else q) >>= f) = if c then p >>= f else q >>= f := by
  split <;> rfl

theorem peek_consume (r : Reserved) (f : Token → Token → Parser α) :
    (peek >>= fun start => consume r >>= f start) = consume r >>= fun t => f t t := by
  funext s
  simp only [run_bind, peek_run, consume_run]
  by_cases h : s.next.isReserved r <;> simp [h]

theorem peek_openConstruct (c : Construct) (f : Token → Token → Parser α) :
    (peek >>= fun start => openConstruct c >>= f start) = openConstruct c >>= fun t => f t t := by
  funext s
  simp only [openConstruct, run_bind, peek_run, consume_run]
  by_cases h : s.next.isReserved c.opener <;> simp [h, run_modify, run_pure]

theorem accept_bind (r : Reserved) (f : Bool → Parser α) :
    (accept r >>= f) =
      check r >>= fun b => if b then consume r >>= fun _ => f true else f false := by
  funext s
  simp only [run_bind, accept_run, check_run]
  by_cases h : s.next.isReserved r <;> simp [h, run_bind, consume_run]

theorem check_advance (r : Reserved) (f : Token → Parser α) (p : Parser α) :
    (check r >>= fun b => if b then advance >>= f else p) =
      check r >>= fun b => if b then consume r >>= f else p := by
  funext s
  simp only [run_bind, check_run]
  by_cases h : s.next.isReserved r
  · simp [h, run_bind, consume_run, advance_run_reserved h]
  · simp [h]

theorem consume_span (r : Reserved) (f : Token → Span → Parser α) :
    (consume r >>= fun t => spanFrom t >>= f t) = consume r >>= fun t => f t t.span := by
  funext s
  simp only [run_bind, consume_run]
  by_cases h : s.next.isReserved r
  · simp only [h, if_true, spanFrom_run]
    rfl
  · simp [h]

theorem repeatUpTo_succ (test : Parser Bool) (p : Parser α) (fuel : Nat) :
    repeatUpTo test p (fuel + 1) = test >>= fun b =>
      if b then p >>= fun a => repeatUpTo test p fuel >>= fun as => pure (a :: as)
      else pure [] := rfl

theorem repeatUpTo_map (test : Parser Bool) (p : Parser α) (f : α → β) (fuel : Nat) :
    repeatUpTo test (f <$> p) fuel = List.map f <$> repeatUpTo test p fuel := by
  induction fuel with
  | zero =>
    funext s
    rw [run_map]
    rfl
  | succ fuel ih =>
    simp only [repeatUpTo_succ, ih, map_bind, bind_map_left]
    refine bind_congr fun b => ?_
    cases b <;> simp

theorem repeatWhile_map (test : Parser Bool) (p : Parser α) (f : α → β) :
    repeatWhile test (f <$> p) = List.map f <$> repeatWhile test p := by
  simp only [repeatWhile, repeatUpTo_map, map_bind]

theorem repeatUpTo_accept (r : Reserved) (p : Parser α) (fuel : Nat) :
    repeatUpTo (accept r) p fuel = repeatUpTo (check r) (consume r >>= fun _ => p) fuel := by
  induction fuel with
  | zero => rfl
  | succ fuel ih =>
    simp only [repeatUpTo_succ, accept_bind, ih]
    refine bind_congr fun b => ?_
    cases b <;> simp

theorem repeatWhile_accept (r : Reserved) (p : Parser α) :
    repeatWhile (accept r) p = repeatWhile (check r) (consume r >>= fun _ => p) := by
  simp only [repeatWhile, repeatUpTo_accept]

theorem repeatUpTo_advance (r : Reserved) (f : Token → Parser α) (fuel : Nat) :
    repeatUpTo (check r) (advance >>= f) fuel = repeatUpTo (check r) (consume r >>= f) fuel := by
  induction fuel with
  | zero => rfl
  | succ fuel ih =>
    simp only [repeatUpTo_succ, ih, bind_assoc]
    exact check_advance ..

theorem repeatWhile_advance (r : Reserved) (f : Token → Parser α) :
    repeatWhile (check r) (advance >>= f) = repeatWhile (check r) (consume r >>= f) := by
  simp only [repeatWhile, repeatUpTo_advance]

theorem listUntil_map (closer : Reserved) (p : Parser α) (f : α → β) :
    listUntil closer (f <$> p) = List.map f <$> listUntil closer p := by
  simp only [listUntil, repeatWhile_map, map_bind, bind_map_left]
  refine bind_congr fun b => ?_
  cases b <;> simp

end Parser

end GlyphScript
