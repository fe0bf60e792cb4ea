import GlyphScript.Proofs.Macro.Filling
import GlyphScript.Proofs.Safety.Reading

/-!
# Parsers come to an end

Every turn of a repetition reads a token, also where the input has no token for
its end, and of two nested nonterminals one has read a token before it comes to
the next. So a parser never runs out of turns or of nesting, whatever the tokens
and whatever the macros known.
-/

namespace GlyphScript

open GlyphScript.Parser

/-! ## Faults of single steps -/

/-- The faults that stand for something wrong with the input. The parser has none of the others
unless it stops halfway, or its constructs are out of balance. -/
def Fault.Genuine : Fault → Prop
  | .nothingOpen | .outOfReach => False
  | _ => True

/-- Too many texts of expansions are nested. -/
def Fault.IsNesting : Fault → Prop
  | .expansion (.nonTermination _ _ _ .nesting) => True
  | _ => False

instance : DecidablePred Fault.IsNesting
  | .expansion (.nonTermination _ _ _ .nesting) => isTrue trivial
  | .expansion (.nonTermination _ _ _ .iterations) => isFalse id
  | .expansion (.nonTermination _ _ _ .replacements) => isFalse id
  | .expansion (.undefinedMacro ..) => isFalse id
  | .expansion (.noMatchingRule ..) => isFalse id
  | .expansion (.hygieneConflict ..) => isFalse id
  | .lex _ | .parse _ | .unprintable _ | .cancelled | .nothingOpen | .outOfReach => isFalse id

/-- The faults that do not lie in how texts are nested. -/
def Fault.Single (f : Fault) : Prop := f.Genuine ∧ ¬ f.IsNesting

namespace Work

variable {α β : Type}

/-- The work ends with a result or a fault of a single step. -/
def Single (w : Work α) : Prop := ∀ u f, (w u).1 = .error f → f.Single

theorem Single.pure (a : α) : Single (Pure.pure a : Work α) := by
  intro u f h
  cases h

theorem Single.throw {f : Fault} (h : f.Single) : Single (throw f : Work α) := by
  intro u f' e
  cases e
  exact h

theorem Single.bind {w : Work α} {f : α → Work β} (hw : Single w) (hf : ∀ a, Single (f a)) :
    Single (w >>= f) := by
  intro u e h
  rw [run_bind] at h
  have first := hw u
  rcases made : w u with ⟨e' | a, u'⟩ <;> simp only [made] at h first
  · exact first e (congrArg _ (Except.error.inj h))
  · exact hf a u' e h

theorem Single.modify (f : UnitState → UnitState) : Single (modify f : Work Unit) := by
  intro u e h
  cases h

theorem single_report (e : Event) : Single (report e) := .modify _

theorem single_get : Single (get : Work UnitState) := by
  intro u f h
  cases h

theorem single_checkpoint : Single checkpoint := by
  apply single_get.bind
  intro u
  split
  · exact .pure _
  · exact .throw ⟨trivial, id⟩
  · exact .modify _

theorem single_register (d : MacroDefinition) : Single (register d) := by
  intro u f h
  obtain ⟨warnings, run⟩ := register_run d u
  rw [run] at h
  cases h

theorem single_tokens (source file : String) : Single (tokens source file) := by
  unfold tokens
  cases tokenize source file with
  | ok tokens => exact (single_report _).bind fun _ => .pure _
  | error f => exact .throw ⟨trivial, id⟩

theorem single_ofExpansion {r : Except ExpansionFault α}
    (h : ∀ e, r = .error e → (Fault.expansion e).Single) : Single (ofExpansion r) := by
  cases r with
  | ok a => exact .pure a
  | error e => exact .throw (h e rfl)

theorem single_mismatch (c : MacroCall) (m : RuleMismatch) :
    (Fault.expansion (c.mismatch m)).Single := ⟨trivial, id⟩

theorem single_expandCall (c : MacroCall) : Single (expandCall c) := by
  have called : Single (calledMacro c) := by
    apply single_get.bind
    intro u
    dsimp only
    split
    · exact .pure _
    · exact .throw ⟨trivial, id⟩
  refine called.bind fun d => (single_ofExpansion fun e h => ?_).bind fun sel => ?_
  · unfold MacroDefinition.select at h
    split at h
    · cases h
      exact single_mismatch ..
    · dsimp only at h
      split at h
      · cases h
      · split at h
        · cases h
        · cases h
          exact single_mismatch ..
  · refine Single.bind (w := prepare sel d.hygiene) (fun u f h => by cases h) fun (template, table) => ?_
    refine (single_ofExpansion fun e h => ?_).bind fun node => ?_
    · obtain ⟨receiver, position, x, bound, -, -, -, rfl⟩ := (Filling.transformM_fills _ _ _).1 e h
      exact ⟨trivial, id⟩
    · dsimp only
      split
      · exact (single_report _).bind fun _ => (single_report _).bind fun _ => .pure _
      · exact (single_report _).bind fun _ => .pure _

theorem single_asExpression (e : Expansion) (c : MacroCall) :
    Single (ofExpansion (e.asExpression c)) := by
  refine single_ofExpansion fun f h => ?_
  unfold Expansion.asExpression at h
  split at h
  · split at h
    · cases h
    · cases h
      exact single_mismatch ..
  · cases h

/-- The tokens of the text of an expansion, its names put into use. -/
def rereadTokens (c : MacroCall) (depth : Nat) (text : String) : Work (List Token) := do
  let tokens ← Work.tokens text s!"<expansion of {c.name}>"
  modify fun s => { s with gensym := s.gensym.reserve (identifierNames tokens).toList }
  report (.rereading c.name depth)
  return tokens

theorem single_rereadTokens (c : MacroCall) (depth : Nat) (text : String) :
    Single (rereadTokens c depth text) :=
  (single_tokens _ _).bind fun _ => (Single.modify _).bind fun _ =>
    (single_report _).bind fun _ => .pure _

end Work

theorem Parser.reread_eq {α : Type} (c : MacroCall) (depth : Nat) (text : String)
    (p : Parser (α × List String)) : reread c depth text p =
      ofWork (Work.rereadTokens c depth text) >>= fun tokens =>
        within tokens p >>= fun r => inject r.2 >>= fun _ => pure r.1 := rfl

/-! ## Going on -/

/-- A parser has come to an end: there is something wrong with the input, or a result and a state
as `P` says. -/
inductive Stops {α : Type} (P : α → ParserState → Prop) : Except Fault α × ParserState → Prop where
  | fault {f s} : f.Genuine → Stops P (.error f, s)
  | ok {a s} : P a s → Stops P (.ok a, s)

/-- A parser at `s` has come to an end where it has read `k` tokens at least and found what `P`
says. -/
def Ends {α : Type} (s : ParserState) (k : Nat) (P : α → Prop) :
    Except Fault α × ParserState → Prop :=
  Stops fun a s' => s.Resumes k s' ∧ P a

namespace Stops

variable {α β : Type} {s : ParserState} {P : α → ParserState → Prop} {Q : β → ParserState → Prop}

theorem bind {p : Parser α} {f : α → Parser β} (hp : Stops P (p s))
    (hf : ∀ a s', P a s' → Stops Q (f a s')) : Stops Q ((p >>= f) s) := by
  rw [run_bind]
  generalize p s = res at hp
  cases hp with
  | fault genuine => exact .fault genuine
  | ok made => exact hf _ _ made

theorem mono {P' : α → ParserState → Prop} {res : Except Fault α × ParserState} (h : Stops P res)
    (hP : ∀ a s', P a s' → P' a s') : Stops P' res := by
  cases h with
  | fault genuine => exact .fault genuine
  | ok made => exact .ok (hP _ _ made)

end Stops

namespace Ends

variable {α β : Type} {s : ParserState} {k k' : Nat} {P : α → Prop} {Q : β → Prop}

theorem bind {p : Parser α} {f : α → Parser β} (hp : Ends s k P (p s))
    (hf : ∀ a s', s.Resumes k s' → P a → Ends s' k' Q (f a s')) :
    Ends s (k + k') Q ((p >>= f) s) :=
  Stops.bind hp fun a s' h => (hf a s' h.1 h.2).mono fun _ _ h' => ⟨h.1.trans h'.1, h'.2⟩

/-- What follows need not read anything. -/
theorem andThen {p : Parser α} {f : α → Parser β} (hp : Ends s k P (p s))
    (hf : ∀ a s', s.Resumes k s' → P a → Ends s' 0 Q (f a s')) : Ends s k Q ((p >>= f) s) :=
  hp.bind hf

theorem mono {P' : α → Prop} {res : Except Fault α × ParserState} (h : Ends s k P res)
    (hP : ∀ a, P a → P' a) (le : k' ≤ k) : Ends s k' P' res :=
  Stops.mono h fun a _ made => ⟨made.1.mono le, hP a made.2⟩

theorem map {p : Parser α} {f : α → β} (hp : Ends s k P (p s)) (h : ∀ a, P a → Q (f a)) :
    Ends s k Q ((f <$> p) s) := by
  rw [run_map]
  generalize p s = res at hp
  cases hp with
  | fault genuine => exact .fault genuine
  | ok made => exact .ok ⟨made.1, h _ made.2⟩

theorem of_map {f : α → β} {p : Parser α} (h : Ends s k Q ((f <$> p) s)) :
    Ends s k (fun a => Q (f a)) (p s) := by
  rw [run_map] at h
  rcases hp : p s with ⟨_ | a, s'⟩ <;> rw [hp] at h <;> dsimp only at h <;> cases h
  case error.fault genuine => exact .fault genuine
  case ok.ok made => exact .ok made

theorem pure {a : α} (h : P a) : Ends s 0 P ((pure a : Parser α) s) := .ok ⟨.refl s, h⟩

/-- Looking leaves everything as it is. -/
theorem look {p : Parser α} {a : α} {f : α → Parser β} (hp : p s = (.ok a, s))
    (hf : Ends s k Q (f a s)) : Ends s k Q ((p >>= f) s) := by
  rw [run_bind, hp]
  exact hf

end Ends

/-- What results of parsers that come to an end wherever they are at work. -/
def ending : Guarantee Parser where
  holds x p := ∀ s : ParserState, Ends s 0 p (x s)
  pure h _ := .pure h
  bind hx hf s := (hx s).bind fun a s' _ ha => hf a ha s'

section

variable {α : Type} {P : α → Prop}

theorem ending_get : ending.holds (get : Parser ParserState) fun _ => True :=
  fun s => .ok ⟨.refl s, trivial⟩

theorem ending_modify {f : ParserState → ParserState} (h : ∀ s : ParserState, s.Resumes 0 (f s)) :
    ending.holds (modify f : Parser Unit) fun _ => True :=
  fun s => .ok ⟨h s, trivial⟩

theorem ending_ofWork {w : Work α} (h : w.Single) : ending.holds (ofWork w) fun _ => True := by
  intro s
  show Ends s 0 _ ((w s.unit).1, { s with unit := (w s.unit).2 })
  rcases made : (w s.unit).1 with f | a
  · exact .fault (h _ _ made).1
  · exact .ok ⟨⟨le_rfl, rfl, rfl⟩, trivial⟩

theorem ending_announce (n : Node) : ending.holds (announce n) fun _ => True := by
  unfold announce
  split
  · split
    · exact ending_ofWork (Work.single_register _)
    · exact ending.pure trivial
  · refine ending.bind ending_get fun s _ => ?_
    split
    · exact ending_modify fun s => ⟨le_rfl, rfl, rfl⟩
    · exact ending.pure trivial
  · exact ending.pure trivial

theorem ending_inject (names : List String) : ending.holds (inject names) fun _ => True := by
  refine ending_modify fun s => ?_
  split
  · rename_i scopes
    exact ⟨le_rfl, rfl, by simp [scopes]⟩
  · exact .refl s

end

/-! ## Tokens, constructs and scopes -/

section

variable {s : ParserState}

theorem unwanted_genuine (e : Expected) (s : ParserState) : (unwanted e s).Genuine := by
  obtain ⟨p, hp⟩ := unwanted_parse e s
  rw [hp]
  trivial

theorem failExpecting_ends {α : Type} {k : Nat} {P : α → Prop} (e : Expected) :
    Ends s k P (failExpecting e s) := by
  rw [failExpecting_run]
  exact .fault (unwanted_genuine e s)

theorem consume_ends (r : Reserved) : Ends s 1 (fun _ => True) (consume r s) := by
  rw [consume_run]
  by_cases h : s.next.isReserved r
  · rw [if_pos h]
    exact .ok ⟨.passed (isEnd_of_isReserved h), trivial⟩
  · rw [if_neg h]
    exact .fault (unwanted_genuine _ s)

theorem consumeName_ends (what : String) : Ends s 1 (fun _ => True) (consumeName what s) := by
  rw [consumeName_run]
  by_cases h : s.next.kind = .identifier
  · rw [if_pos h]
    exact .ok ⟨.passed (isEnd_of_identifier h), trivial⟩
  · rw [if_neg h]
    exact .fault (unwanted_genuine _ s)

theorem openConstruct_stops (c : Construct) :
    Stops (fun t s' => t = s.next ∧ s' = opened c s ∧
      (opened c s).rest.length + 1 = s.rest.length) (openConstruct c s) := by
  by_cases h : leading s.words = some c.opener
  · rw [openConstruct_leading h]
    exact .ok ⟨rfl, rfl, length_passed (isEnd_of_isReserved (isReserved_next.mpr h))⟩
  · rw [openConstruct, run_bind, consume_run, if_neg fun h' => h (isReserved_next.mp h')]
    exact .fault (unwanted_genuine _ s)

theorem closeConstruct_stops {c : Construct} {t : Token} {frames : Frames}
    (hf : s.frames = ⟨c, t⟩ :: frames) :
    Stops (fun _ s' => s'.rest.length ≤ s.rest.length ∧ s'.frames = frames ∧ s'.scopes = s.scopes)
      (closeConstruct s) := by
  rw [closeConstruct_run, hf]
  dsimp only
  cases Frames.closingFault? ⟨c, t⟩ s.next with
  | some fault => exact .fault trivial
  | none =>
    refine .ok ⟨?_, rfl, rfl⟩
    simp [passed]

/-- Where a scope is open it can be left. -/
theorem closeScope_stops {k : Nat} (open' : s.scopes.length = k + 1) :
    Stops (fun _ s' => ∃ scopes : List (List String), scopes.length = k ∧ s' = { s with scopes })
      (closeScope s) := by
  obtain ⟨names, scopes, made⟩ := List.exists_cons_of_length_eq_add_one open'
  rw [closeScope_run, made]
  rw [made] at open'
  exact .ok ⟨scopes, Nat.succ.inj open', rfl⟩

/-- Repeating what reads a token, there are enough turns. -/
theorem repeatUpTo_ends {α : Type} {test : Parser Bool} {item : Parser α}
    (look : ∀ s, ∃ b, test s = (.ok b, s)) (bound : Nat) {P : α → Prop}
    (reads : ∀ s : ParserState, s.rest.length ≤ bound → Ends s 1 P (item s)) (fuel : Nat) :
    ∀ {s : ParserState}, s.rest.length ≤ bound → s.rest.length < fuel →
      Ends s 0 (fun as => ∀ a ∈ as, P a) (repeatUpTo test item fuel s) := by
  induction fuel with
  | zero =>
    intro s _ enough
    omega
  | succ fuel ih =>
    intro s deep enough
    rw [repeatUpTo_succ]
    obtain ⟨b, hb⟩ := look s
    apply Ends.look hb
    cases b with
    | false => exact .pure (by simp)
    | true =>
      refine Ends.mono ((reads s deep).andThen fun a s' moved ha => ?_) (fun _ => id) (Nat.zero_le 1)
      have := moved.tokens
      apply (ih (by omega) (by omega)).andThen
      intro as s'' _ has
      exact .pure (by simpa using ⟨ha, has⟩)

end

/-! ## Nonterminals -/

/-- What is found in an expression is no statement. -/
def Nonterminal.NoStatement : Nonterminal → Found → Prop
  | .expression _, f => ∃ n, f = .ofNode n ∧ n.head ≠ .expressionStmt
  | _, _ => True

/-- The parsers for nonterminals come to an end when `depth` is as deep as the tokens left
demand. -/
structure Nonterminals.Ending (g : Nonterminals) (depth : Nat) : Prop where
  expression : ∀ l s, 2 * s.rest.length + 1 ≤ depth →
    Ends s 1 (fun n => n.head ≠ .expressionStmt) (g.expression l s)
  pattern : ∀ s, 2 * s.rest.length + 1 ≤ depth → Ends s 1 (fun _ => True) (g.pattern s)
  statement : ∀ s, 2 * s.rest.length + 2 ≤ depth → Ends s 1 (fun _ => True) (g.statement s)

namespace Nonterminals.Ending

open Nonterminals.Sound (look_atBodyEnd)

variable {g : Nonterminals} {depth : Nat} (hg : g.Ending depth)

include hg

theorem wellFormedPattern {s : ParserState} (deep : 2 * s.rest.length + 1 ≤ depth) :
    Ends s 1 (fun _ => True) (g.wellFormedPattern s) := by
  apply (hg.pattern s deep).andThen
  intro n s' _ _
  cases n.patternFlaw? with
  | some flaw => exact .fault trivial
  | none => exact .pure trivial

/-- In a body one more construct and one more scope are open. -/
theorem body {s : ParserState} (deep : 2 * s.rest.length ≤ depth) :
    Ends s 1 (fun _ => True) (g.body s) := by
  unfold Nonterminals.body
  refine Stops.bind (openConstruct_stops .body) ?_
  rintro t _ ⟨rfl, rfl, shorter⟩
  have shorter : (entered s).rest.length + 1 = s.rest.length := shorter
  have loop : Ends (entered s) 0 (fun _ => True)
      (repeatWhile (not <$> atBodyEnd) g.statement (entered s)) :=
    (repeatUpTo_ends look_atBodyEnd (s.rest.length - 1)
      (fun s' le => hg.statement s' (by omega)) _ (by omega) (Nat.lt_succ_self _)).mono
        (fun _ _ => trivial) le_rfl
  refine Stops.bind (p := openScope) (P := fun _ s' => s' = entered s) (.ok rfl) ?_
  rintro _ _ rfl
  refine Stops.bind loop fun nss s' ⟨moved, _⟩ => ?_
  refine Stops.bind (closeConstruct_stops moved.frames) fun _ s'' ⟨le, frames, scopes⟩ => ?_
  refine Stops.bind (closeScope_stops (k := s.scopes.length) (by rw [scopes]; exact moved.scopes)) ?_
  rintro injected _ ⟨left, length, rfl⟩
  have := moved.tokens
  exact .ok ⟨⟨by show s''.rest.length + 1 ≤ s.rest.length; omega, frames, length⟩, trivial⟩

theorem part {n : Nonterminal} (clear : (Phrase.part n).clear = true) {s : ParserState}
    (deep : 2 * s.rest.length + (Phrase.part n).cost ≤ depth) :
    Ends s 1 n.NoStatement (n.read g s) := by
  cases n with
  | expression l => exact (hg.expression l s deep).map fun n plain => ⟨n, rfl, plain⟩
  | pattern => exact (hg.pattern s deep).map fun _ _ => trivial
  | binding => exact (hg.wellFormedPattern deep).map fun _ _ => trivial
  | body => exact (hg.body deep).map fun _ _ => trivial
  | statement => cases clear
  | statements => cases clear

/-- Reading a phrase comes to an end, with what can be found in it. -/
theorem read {a : Phrase} (clear : a.clear = true) : ∀ {s : ParserState},
    2 * s.rest.length + a.cost ≤ depth →
      Ends s a.least (a.Makes Nonterminal.NoStatement) (a.read g s) := by
  induction a with
  | give f => exact fun _ => .pure rfl
  | place => exact fun {s} _ => .look (peek_run s) (.pure ⟨_, rfl⟩)
  | mark r | kept r =>
    intro s _
    rw [Phrase.read, discard_bind]
    exact (consume_ends r).andThen fun _ _ _ _ => .pure rfl
  | spelled r => exact fun _ => (consume_ends r).andThen fun _ _ _ _ => .pure ⟨_, rfl⟩
  | name what => exact fun _ => (consumeName_ends what).andThen fun _ _ _ _ => .pure ⟨_, rfl⟩
  | part n =>
    intro s deep
    exact (hg.part clear deep).mono (fun _ => id) (by unfold Phrase.least; split <;> decide)
  | fail what => exact fun _ => failExpecting_ends _
  | seq a b iha ihb =>
    intro s deep
    rw [Phrase.clear, Bool.and_eq_true, Bool.and_eq_true] at clear
    rw [Phrase.cost] at deep
    have first : 2 * s.rest.length + a.cost ≤ depth := by
      split at deep <;> omega
    refine .mono (.bind (iha clear.1.1 first) fun f s' moved made => ?_)
      (fun _ => id) (Phrase.least_and a.nullable b.nullable)
    have second : 2 * s'.rest.length + b.cost ≤ depth := by
      have read := moved.tokens
      unfold Phrase.least at read
      split at deep
      · omega
      · rename_i full
        rw [if_neg full] at read
        have := b.cost_le
        omega
    exact (ihb clear.1.2 second).andThen fun h s'' _ made' => .pure ⟨f, h, made, made', rfl⟩
  | either r a b iha ihb =>
    intro s deep
    simp only [Phrase.clear, Bool.and_eq_true] at clear
    rw [Phrase.cost] at deep
    have least := Phrase.least_or a.nullable b.nullable
    apply Ends.look (check_run r s)
    cases s.next.isReserved r with
    | true => exact (iha clear.1.1.1 (by omega)).mono (fun _ => .inl) least.1
    | false => exact (ihb clear.1.1.2 (by omega)).mono (fun _ => .inr) least.2
  | ahead a b iha ihb =>
    intro s deep
    simp only [Phrase.clear, Bool.and_eq_true] at clear
    rw [Phrase.cost] at deep
    have least := Phrase.least_or a.nullable b.nullable
    obtain ⟨c, look⟩ : ∃ c, checkBinding s = (.ok c, s) := ⟨_, checkBinding_run s⟩
    apply Ends.look look
    cases c with
    | true => exact (iha clear.1.1.1 (by omega)).mono (fun _ => .inl) least.1
    | false => exact (ihb clear.1.1.2 (by omega)).mono (fun _ => .inr) least.2
  | star r a ih =>
    intro s deep
    simp only [Phrase.clear, Bool.and_eq_true, decide_eq_true_eq] at clear
    rw [Phrase.cost] at deep
    have turn (s' : ParserState) (le : s'.rest.length ≤ s.rest.length) :
        Ends s' 1 (a.Makes Nonterminal.NoStatement) (a.read g s') := by
      rw [← Phrase.least_of_opener clear.1.2]
      exact ih clear.1.1 (by omega)
    exact Ends.map (repeatUpTo_ends (fun s => ⟨_, check_run r s⟩) s.rest.length turn _ le_rfl
      (Nat.lt_succ_self _)) fun fs hfs => ⟨fs, hfs, rfl⟩
  | gather a ih | list a ih => exact fun deep => (ih clear deep).map fun f made => ⟨f, made, rfl⟩
  | demand a what ih =>
    intro s deep
    apply (ih clear deep).andThen
    intro f s' _ made
    by_cases empty : f.nodes = []
    · rw [empty, List.isEmpty_nil, if_pos rfl]
      exact .andThen (P := fun _ => False) (failExpecting_ends _) fun _ _ _ absurd => absurd.elim
    · rw [if_neg (by simpa using empty)]
      exact .pure ⟨made, empty⟩
  | node head a ih =>
    intro s deep
    rw [Phrase.read_node]
    refine .look (peek_run s) ((ih clear deep).andThen fun f s' _ made => ?_)
    apply Ends.look (spanFrom_run _ s')
    exact (ending_announce _ s').andThen fun _ _ _ _ => .pure ⟨f, _, made, rfl⟩
  | chain a ih =>
    intro s deep
    rw [Phrase.read_chain]
    refine .look (peek_run s) ((ih clear deep).andThen fun f s' _ made => ?_)
    exact .look (spanFrom_run _ s') (.pure ⟨f, _, made, rfl⟩)
  | construct c a ih =>
    intro s deep
    simp only [Phrase.clear, Bool.and_eq_true] at clear
    rw [Phrase.read, discard_bind]
    refine Stops.bind (openConstruct_stops c) ?_
    rintro _ _ ⟨-, rfl, shorter⟩
    have deep' : 2 * (opened c s).rest.length + a.cost ≤ depth := by
      have := a.cost_le
      omega
    refine Stops.bind (ih clear.1 deep') fun f s' resumed => ?_
    obtain ⟨moved, made⟩ := resumed
    refine Stops.bind (closeConstruct_stops moved.frames) fun _ s'' closed => ?_
    obtain ⟨le, frames, scopes⟩ := closed
    have := moved.tokens
    have least : (Phrase.construct c a).least = 1 := rfl
    exact .ok ⟨⟨by omega, frames, by rw [scopes]; exact moved.scopes⟩, made⟩

/-! ## Expressions and patterns -/

omit hg in
/-- A group is what stands in it; every other operand is a node of its own. -/
theorem head_of_operand {r : Reserved} {a : Phrase} {n : Node} (h : Phrase.operand? r = some a)
    (made : a.Makes Nonterminal.NoStatement (.ofNode n)) : n.head ≠ .expressionStmt := by
  cases Phrase.IsOperand.of h
  case groupOpen =>
    obtain ⟨_, _, rfl, ⟨_, _, ⟨m, rfl, plain⟩, rfl, rfl⟩, same⟩ := made
    cases same
    exact plain
  all_goals
    obtain ⟨f, span, -, same⟩ := made
    cases same
    exact Head.noConfusion

omit hg in
theorem head_of_atom {t : Token} {n : Node} (h : atom? t = some n) : n.head ≠ .expressionStmt := by
  unfold atom? at h
  split at h <;> cases h <;> exact Head.noConfusion

omit hg in
theorem head_of_extended (known : String → Bool) (span : Span) (m : Level) (left : Node) (f : Found) :
    (Node.extended known span m left f).head ≠ .expressionStmt := by
  unfold Node.extended
  split
  · exact Head.noConfusion
  · split
    · split <;> exact Head.noConfusion
    · exact Head.noConfusion
  · exact Head.noConfusion

theorem operand {s : ParserState} (deep : 2 * s.rest.length ≤ depth) :
    Ends s 1 (fun n => n.head ≠ .expressionStmt) (g.operand s) := by
  refine (Ends.of_map (Q := fun f => ∀ n, f = Found.ofNode n → n.head ≠ .expressionStmt) ?_).mono
    (fun n made => made n rfl) le_rfl
  rw [Phrase.operand_run]
  cases ha : atom? s.next with
  | some n =>
    refine .ok ⟨.passed (Phrase.isEnd_of_atom ha), ?_⟩
    rintro _ ⟨⟩
    exact head_of_atom ha
  | none =>
    cases ho : s.next.reserved?.bind Phrase.operand? with
    | none => exact .fault (unwanted_genuine _ s)
    | some a =>
      obtain ⟨r, -, hr⟩ := Option.bind_eq_some_iff.mp ho
      have leads := Phrase.leads_operand hr
      apply (hg.read leads.clear (by rw [leads.cost]; exact deep)).mono
      · rintro _ made n rfl
        exact head_of_operand hr made
      · exact (Phrase.least_of_opener leads.opener).ge

theorem extend {s : ParserState} {r : Reserved} {m : Level} {a : Phrase}
    (ht : Phrase.tail? r = some (m, a)) (n : Node) (deep : 2 * s.rest.length ≤ depth) :
    Ends s 1 (fun n => n.head ≠ .expressionStmt)
      ((peek >>= fun start => a.read g >>= Parser.extend m n start) s) := by
  have leads := Phrase.leads_tail ht
  have tail := hg.read leads.clear (s := s) (by rw [leads.cost]; exact deep)
  rw [Phrase.least_of_opener leads.opener] at tail
  refine .look (peek_run s) (tail.andThen fun f s' _ _ => ?_)
  obtain ⟨stop, look⟩ : ∃ stop, tailStop m s.next f s' = (.ok stop, s') := by
    unfold tailStop
    split <;> exact ⟨_, rfl⟩
  refine .look look (.look (run_get s') ?_)
  exact (ending_announce _ s').andThen fun _ _ _ _ => .pure (head_of_extended _ _ _ _ _)

theorem extendUpTo (l : Level) (fuel : Nat) : ∀ {s : ParserState} {n : Node},
    n.head ≠ .expressionStmt → 2 * s.rest.length ≤ depth → s.rest.length < fuel →
      Ends s 0 (fun n => n.head ≠ .expressionStmt) (g.extendUpTo l fuel n s) := by
  induction fuel with
  | zero =>
    intro s n _ _ enough
    omega
  | succ fuel ih =>
    intro s n plain deep enough
    rw [Phrase.extendUpTo_run]
    cases ht : s.next.reserved?.bind Phrase.tail? with
    | none => exact .pure plain
    | some t =>
      obtain ⟨r, -, ha⟩ := Option.bind_eq_some_iff.mp ht
      dsimp only
      split
      · refine Ends.mono ((hg.extend ha n deep).andThen fun m s' moved plain => ?_) (fun _ => id)
          (Nat.zero_le 1)
        have := moved.tokens
        exact ih plain (by omega) (by omega)
      · exact .pure plain

theorem readExpression (l : Level) {s : ParserState} (deep : 2 * s.rest.length ≤ depth) :
    Ends s 1 (fun n => n.head ≠ .expressionStmt) (g.readExpression l s) := by
  apply (hg.operand deep).andThen
  intro n s' moved plain
  have := moved.tokens
  exact .look (run_get s') (hg.extendUpTo l _ plain (by omega) (Nat.lt_succ_self _))

theorem readPattern {s : ParserState} (deep : 2 * s.rest.length ≤ depth) :
    Ends s 1 (fun _ => True) (g.readPattern s) := by
  apply Ends.of_map (f := Found.ofNode) (Q := fun _ => True)
  rw [Phrase.pattern_run]
  cases ha : atomicPattern? s.next with
  | some n => exact .ok ⟨.passed (Phrase.isEnd_of_atomicPattern ha), trivial⟩
  | none =>
    cases ho : s.next.reserved?.bind Phrase.pattern? with
    | none =>
      dsimp only
      split <;> exact .fault trivial
    | some a =>
      obtain ⟨r, -, hr⟩ := Option.bind_eq_some_iff.mp ho
      have leads := Phrase.leads_pattern hr
      apply (hg.read leads.clear (by rw [leads.cost]; exact deep)).mono
      · exact fun _ _ => trivial
      · exact (Phrase.least_of_opener leads.opener).ge

theorem plainStatement (settings : Settings) {s : ParserState}
    (deep : 2 * s.rest.length + 1 ≤ depth) :
    Ends s 1 (fun _ => True) (g.plainStatement settings s) := by
  apply Ends.of_map (f := Found.ofNode) (Q := fun _ => True)
  rw [Phrase.plainStatement_eq]
  apply Ends.look (peek_run s)
  cases ho : s.next.reserved?.bind (Phrase.statement? settings) with
  | none => exact (hg.read (a := .expressionStmt) rfl deep).mono (fun _ _ => trivial) le_rfl
  | some a =>
    obtain ⟨r, -, hr⟩ := Option.bind_eq_some_iff.mp ho
    have leads := Phrase.leads_statement hr
    apply (hg.read leads.clear (by rw [leads.cost]; omega)).mono
    · exact fun _ _ => trivial
    · exact (Phrase.least_of_opener leads.opener).ge

end Nonterminals.Ending

/-! ## Expansions -/

/-- Reading the texts of expansions comes to an end. -/
structure Rereading.Ending (t : Rereading) : Prop where
  expression : ∀ c text, ending.holds (t.expression c text) fun _ => True
  statements : ∀ c text, ending.holds (t.statements c text) fun _ => True

/-- Into the place of the node comes one node, unless it is a statement. -/
def Node.OneFor (n : Node) (slot : Slot Node) : Prop :=
  n.head ≠ .expressionStmt → ∃ m, slot = .one m

namespace Rereading

theorem ending_expandHere (c : MacroCall) : ending.holds (expandHere c) fun _ => True :=
  ending.bind (ending_ofWork (Work.single_expandCall c)) fun _ _ =>
    ending.bind (ending_inject _) fun _ _ => ending.pure trivial

theorem ending_textOf (n : Node) : ending.holds (textOf n) fun _ => True := by
  unfold textOf
  split
  · exact ending.pure trivial
  · exact fun s => .fault trivial

namespace Ending

variable {t : Rereading} (ht : t.Ending)

include ht

theorem replaceStatement (c : MacroCall) (span : Span) :
    ending.holds (t.replaceStatement c span) fun _ => True :=
  ending.bind (ending_expandHere c) fun _ _ =>
    ending.bind (ending_textOf _) fun text _ => ht.statements c text

theorem replaceExpression (c : MacroCall) : ending.holds (t.replaceExpression c) fun _ => True :=
  ending.bind (ending_expandHere c) fun e _ =>
    ending.bind (ending_ofWork (Work.single_asExpression e c)) fun n _ =>
      ending.bind (ending_textOf n) fun text _ => ht.expression c text

theorem enter (n : Node) :
    ending.holds (t.enter n) (Step.Meets n.OneFor fun _ => True) := by
  refine ending.bind ending_get fun s _ => ?_
  split
  · exact ending.pure fun _ => ⟨n, rfl⟩
  · exact ending.pure fun _ => ⟨n, rfl⟩
  · dsimp only
    split
    · rename_i c statement
      have head : n.head = .expressionStmt := by
        unfold callStatement? at statement
        split at statement
        · assumption
        · cases statement
      exact ending.bind (ht.replaceStatement c _) fun ns _ =>
        ending.pure fun plain => absurd head plain
    · rename_i c _ _
      exact ending.bind (ht.replaceExpression c) fun m _ => ending.pure fun _ => ⟨m, rfl⟩
    · exact ending.pure trivial

theorem transform (n : Node) : ending.holds (n.transformM t.transform ()) n.OneFor := by
  refine ending.transformM (R := fun _ => Node.OneFor) (E := fun _ _ _ => True)
    (fun _ n => ht.enter n) ?_ n ()
  intro _ span head slots _ slots' _ _
  exact ending.pure fun _ => ⟨_, rfl⟩

/-- Completing what has been read. -/
theorem completed {read : Parser Node} {s : ParserState} {k : Nat} {P : Node → Prop}
    (h : Ends { s with pending := 0 } k P (read { s with pending := 0 })) :
    Ends s k (fun slot => ∃ n : Node, P n ∧ n.OneFor slot) (t.completed read s) := by
  rw [completed_run]
  refine Stops.mono (h.andThen fun n s' _ hn => ?_) fun slot s' ⟨moved, made⟩ =>
    ⟨⟨moved.tokens, moved.frames, moved.scopes⟩, made⟩
  have put {slot : Slot Node} (one : n.OneFor slot) : ending.holds
      (modify (fun s' : ParserState => { s' with pending := s.pending }) >>= fun _ => pure slot)
      fun slot => ∃ n : Node, P n ∧ n.OneFor slot :=
    ending.bind (ending_modify fun _ => ⟨le_rfl, rfl, rfl⟩) fun _ _ => ending.pure ⟨n, hn, one⟩
  refine Ends.look (run_get s') ?_
  by_cases none : s'.pending = 0
  · rw [if_pos none, pure_bind]
    exact put (fun _ => ⟨n, rfl⟩) s'
  · rw [if_neg none]
    exact (ht.transform n s').andThen fun slot s'' _ one => put one s''

theorem upTo (settings : Settings) (depth : Nat) :
    (Nonterminals.upTo settings t depth).Ending depth := by
  induction depth with
  | zero => constructor <;> intros <;> omega
  | succ depth ih =>
    constructor
    · intro l s deep
      exact ih.readExpression l (by omega)
    · intro s deep
      exact ih.readPattern (by omega)
    · intro s deep
      refine (ht.completed (ih.plainStatement settings (s := { s with pending := 0 }) ?_)).map ?_
      · show 2 * s.rest.length + 1 ≤ depth
        omega
      · exact fun _ _ => trivial

/-! ## Whole texts -/

omit ht in
theorem scope {α β : Type} {p : Parser α} {f : α → List String → Parser β} {P : α → Prop}
    {s : ParserState}
    (h : Ends { s with scopes := [] :: s.scopes } 0 P (p { s with scopes := [] :: s.scopes }))
    (hf : ∀ a names, ending.holds (f a names) fun _ => True) :
    Ends s 0 (fun _ => True) ((openScope >>= fun _ => p >>= fun a => closeScope >>= f a) s) := by
  refine Stops.bind (p := openScope) (P := fun _ s' => s' = { s with scopes := [] :: s.scopes })
    (.ok rfl) ?_
  rintro _ _ rfl
  refine Stops.bind h fun a s' ⟨moved, _⟩ => ?_
  refine Stops.bind (closeScope_stops moved.scopes) ?_
  rintro names _ ⟨scopes, length, rfl⟩
  refine Stops.mono (hf a names _) fun b s'' ⟨moved', made⟩ => ⟨⟨?_, ?_, ?_⟩, made⟩
  · exact le_trans moved'.tokens moved.tokens
  · exact moved'.frames.trans moved.frames
  · exact moved'.scopes.trans length

omit ht in
theorem look_atEnd (s : ParserState) : ∃ b, (not <$> atEnd : Parser Bool) s = (.ok b, s) := ⟨_, rfl⟩

omit ht in
/-- Statements for as long as there are tokens. -/
theorem untilEnd {β : Type} {item : Parser (List Node)} {f : List (List Node) → List String → Parser β}
    {s : ParserState}
    (reads : ∀ s' : ParserState, s'.rest.length ≤ s.rest.length → Ends s' 1 (fun _ => True) (item s'))
    (hf : ∀ nss names, ending.holds (f nss names) fun _ => True) :
    Ends s 0 (fun _ => True) ((openScope >>= fun _ => repeatWhile (not <$> atEnd) item >>= fun nss =>
      closeScope >>= f nss) s) := by
  have loop := repeatUpTo_ends (s := { s with scopes := [] :: s.scopes }) look_atEnd
    s.rest.length reads _ le_rfl (Nat.lt_succ_self _)
  exact scope loop hf

theorem statementsWith (settings : Settings) :
    ending.holds (statementsWith settings t) fun _ => True := by
  intro s
  have hg := upTo ht settings (2 * s.rest.length + 2)
  unfold Parser.statementsWith
  refine .look rfl (untilEnd (fun s' le => hg.statement s' (by omega)) fun _ _ => ?_)
  exact ending.pure trivial

theorem programWith (settings : Settings) :
    ending.holds (programWith settings t) fun _ => True := by
  intro s
  have hg := upTo ht settings (2 * s.rest.length + 2)
  unfold Parser.programWith
  refine .look rfl (.look (run_get s) (untilEnd (fun s' le => ?_) fun _ _ => ?_))
  · have checked := ending_ofWork Work.single_checkpoint s'
    refine .mono (checked.bind fun _ s'' moved _ => hg.statement s'' ?_) (fun _ => id) ?_
    · have := moved.tokens
      omega
    · exact le_rfl
  · exact ending.bind (ending_ofWork (Work.single_report _)) fun _ _ => ending.pure trivial

theorem expressionWith (settings : Settings) :
    ending.holds (expressionWith settings t) fun _ => True := by
  intro s
  have hg := upTo ht settings (2 * s.rest.length + 2)
  unfold Parser.expressionWith
  refine .look rfl (Stops.bind (p := openScope)
    (P := fun _ s' => s' = { s with scopes := [] :: s.scopes }) (.ok rfl) ?_)
  rintro _ _ rfl
  refine Stops.bind (ht.completed (k := 0) (P := fun n => n.head ≠ .expressionStmt) ?_) ?_
  · refine .mono (.andThen (hg.expression _ _ (Nat.le_succ _)) fun n s' _ plain => ?_)
      (fun _ => id) (Nat.zero_le 1)
    refine .look (a := s'.next.isEnd) rfl ?_
    cases s'.next.isEnd with
    | true => exact .pure plain
    | false => exact .look (peek_run s') (.fault trivial)
  · rintro slot s' ⟨moved, n, plain, one⟩
    obtain ⟨m, rfl⟩ := one plain
    refine Stops.bind (closeScope_stops moved.scopes) ?_
    rintro names _ ⟨scopes, length, rfl⟩
    exact .ok ⟨⟨moved.tokens, moved.frames, length⟩, trivial⟩

omit ht in
theorem reread {α : Type} (c : MacroCall) (depth : Nat) (text : String)
    {p : Parser (α × List String)} (h : ending.holds p fun _ => True) :
    ending.holds (reread c depth text p) fun _ => True := by
  rw [reread_eq]
  refine ending.bind (ending_ofWork (Work.single_rereadTokens c depth text)) fun tokens _ => ?_
  have inner : ending.holds (Parser.within tokens p) fun _ => True := by
    intro s
    show Ends s 0 _ ((p (ParserState.start s.unit tokens)).1,
      { s with unit := (p (ParserState.start s.unit tokens)).2.unit })
    have inner := h (ParserState.start s.unit tokens)
    generalize p (ParserState.start s.unit tokens) = res at inner
    cases inner with
    | fault genuine => exact .fault genuine
    | ok made => exact .ok ⟨⟨le_rfl, rfl, rfl⟩, trivial⟩
  exact ending.bind inner fun r _ => ending.bind (ending_inject _) fun _ _ => ending.pure trivial

end Ending

theorem ending_upTo (settings : Settings) (remaining : Nat) :
    (upTo settings remaining).Ending := by
  induction remaining with
  | zero => exact ⟨fun _ _ _ => .fault trivial, fun _ _ _ => .fault trivial⟩
  | succ remaining ih =>
    exact ⟨fun c text => Ending.reread c _ text (ih.expressionWith settings),
      fun c text => Ending.reread c _ text (ih.statementsWith settings)⟩

end Rereading

/-- Parsing a unit comes to an end, whatever the tokens are, whether or not the last of them is the
end of the input, and whatever macros are known: the turns of no loop and the nesting of no
productions are used up. -/
theorem Work.parse_genuine (settings : Settings) (tokens : List Token) (unit : UnitState)
    {f : Fault} (fails : (Work.parse (Parser.program settings) tokens unit).1 = .error f) :
    f.Genuine := by
  have ends := (Rereading.ending_upTo settings settings.maxParseDepth).programWith settings
    (ParserState.start unit tokens)
  have fails : (Parser.programWith settings (.upTo settings settings.maxParseDepth)
    (ParserState.start unit tokens)).1 = .error f := fails
  generalize Parser.programWith settings _ _ = res at ends fails
  cases ends with
  | fault genuine =>
    cases fails
    exact genuine
  | ok => cases fails

end GlyphScript
