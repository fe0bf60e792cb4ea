import GlyphScript.Proofs.Rereading.Progress

/-!
# What a parser asks of the texts of expansions

A parser depends on how the texts of expansions are read only through what it
asks for. If another way to read them gives the same answers, except where an
answer fails, the parser does the same, except where it fails; and if texts are
nested too deeply, it has asked for a text in which they are.
-/

namespace GlyphScript

open GlyphScript.Parser

/-! ## Requests -/

/-- A text to be read in the place of a call, as an expression or as statements. -/
inductive Request where
  | expression (c : MacroCall) (text : String)
  | statements (c : MacroCall) (text : String)

namespace Request

def call : Request → MacroCall
  | expression c _ | statements c _ => c

def text : Request → String
  | expression _ text | statements _ text => text

/-- What reads the tokens of the text, when the texts of further expansions are read as `t` says. -/
def reader (settings : Settings) (q : Request) (t : Rereading) : Parser (Slot Node × List String) :=
  match q with
  | expression .. => (fun r => (.one r.1, r.2)) <$> expressionWith settings t
  | statements .. => (fun r => (.many r.1, r.2)) <$> statementsWith settings t

end Request

/-- The computation ends in a fault that `F` holds of. -/
def Fails {σ α : Type} (F : Fault → Prop) (res : Except Fault α × σ) : Prop :=
  ∃ f, res.1 = .error f ∧ F f

instance {σ α : Type} (F : Fault → Prop) [DecidablePred F] :
    (res : Except Fault α × σ) → Decidable (Fails F res)
  | (.error f, _) =>
    decidable_of_iff (F f) ⟨fun h => ⟨f, rfl, h⟩, fun ⟨_, same, h⟩ => Except.error.inj same ▸ h⟩
  | (.ok _, _) => isFalse fun ⟨_, same, _⟩ => nomatch same

namespace Rereading

/-- What is read for a request. -/
def answer (t : Rereading) : Request → Parser (Slot Node)
  | .expression c text => Slot.one <$> t.expression c text
  | .statements c text => Slot.many <$> t.statements c text

open Classical in
/-- Texts are read as before, but for the one asked for at `here`: that ends in `fault`. -/
noncomputable def interrupted (t : Rereading) (q : Request) (here : ParserState) (fault : Fault) :
    Rereading where
  expression c text s :=
    if .expression c text = q ∧ s = here then (.error fault, s) else t.expression c text s
  statements c text s :=
    if .statements c text = q ∧ s = here then (.error fault, s) else t.statements c text s

/-- Wherever the first does not fail as `F` says, the other gives the same answer. -/
structure Follows (F : Fault → Prop) (t t' : Rereading) : Prop where
  expression : ∀ c text s, Fails F (t.expression c text s) ∨
    t'.expression c text s = t.expression c text s
  statements : ∀ c text s, Fails F (t.statements c text s) ∨
    t'.statements c text s = t.statements c text s

theorem fails_map {α β : Type} {F : Fault → Prop} {f : α → β} {p : Parser α} {s : ParserState} :
    Fails F ((f <$> p) s) ↔ Fails F (p s) := by
  rw [run_map]
  rcases p s with ⟨e | a, s'⟩ <;> simp [Fails]

/-- Only one answer is another, and where that fails there is nothing lost. -/
theorem follows_interrupted {t : Rereading} {q : Request} {here : ParserState}
    (fails : Fails (fun _ => True) (t.answer q here)) (fault : Fault) :
    t.Follows (fun _ => True) (t.interrupted q here fault) := by
  constructor
  · intro c text s
    by_cases same : .expression c text = q ∧ s = here
    · obtain ⟨rfl, rfl⟩ := same
      exact .inl (fails_map.mp fails)
    · exact .inr (if_neg same)
  · intro c text s
    by_cases same : .statements c text = q ∧ s = here
    · obtain ⟨rfl, rfl⟩ := same
      exact .inl (fails_map.mp fails)
    · exact .inr (if_neg same)

end Rereading

/-- The parser asks for a text at `here`: in whatever fault its reading ended, the parser would end
in that fault. -/
def Asks {α : Type} (p : Rereading → Parser α) (t : Rereading) (s : ParserState) (q : Request)
    (here : ParserState) : Prop :=
  ∀ fault, (p (t.interrupted q here fault) s).1 = .error fault

/-! ## Parsers that consult -/

/-- All that the parser owes to how texts are read it has from the answers to what it asks for. -/
structure Consults {α : Type} (p : Rereading → Parser α) : Prop where
  same : ∀ {F : Fault → Prop} {t t' : Rereading}, t.Follows F t' → ∀ s,
    Fails F (p t s) ∨ p t' s = p t s
  asks : ∀ {t : Rereading} {s : ParserState}, Fails Fault.IsNesting (p t s) →
    ∃ q here, Fails Fault.IsNesting (t.answer q here) ∧ Asks p t s q here

/-- No texts are nested too deeply in the parser. -/
def Shallow {α : Type} (x : Parser α) : Prop := ∀ s f, (x s).1 = .error f → ¬ f.IsNesting

namespace Shallow

variable {α β : Type} {x : Parser α}

theorem pure (a : α) : Shallow (Pure.pure a : Parser α) := by
  intro s f h
  cases h

theorem throw {f : Fault} (h : ¬ f.IsNesting) : Shallow (throw f : Parser α) := by
  intro s f' e
  cases e
  exact h

theorem bind {f : α → Parser β} (hx : Shallow x) (hf : ∀ a, Shallow (f a)) :
    Shallow (x >>= f) := by
  intro s e h
  rw [run_bind] at h
  have first := hx s
  rcases made : x s with ⟨e' | a, s'⟩ <;> simp only [made] at h first
  · exact first e (congrArg _ (Except.error.inj h))
  · exact hf a s' e h

theorem of_get {f : ParserState → Parser β} (h : ∀ s, Shallow (f s)) : Shallow (get >>= f) :=
  fun s => h s s

theorem modify (f : ParserState → ParserState) : Shallow (modify f : Parser Unit) := by
  intro s e h
  cases h

theorem ite {c : Prop} [Decidable c] {y : Parser α} (hx : Shallow x) (hy : Shallow y) :
    Shallow (if c then x else y) := by
  split
  · exact hx
  · exact hy

theorem work {w : Work α} (h : w.Single) : Shallow (ofWork w) := fun s f e => (h s.unit f e).2

end Shallow

theorem shallow_peek : Shallow peek := fun _ _ h => by cases h

theorem shallow_check (r : Reserved) : Shallow (check r) := fun _ _ h => by cases h

theorem shallow_atEnd : Shallow atEnd := fun _ _ h => by cases h

theorem shallow_spanFrom (start : Token) : Shallow (spanFrom start) := fun _ _ h => by cases h

theorem shallow_failExpecting {α : Type} (e : Expected) :
    Shallow (failExpecting e : Parser α) := by
  intro s f h
  rw [failExpecting_run] at h
  obtain ⟨p, hp⟩ := unwanted_parse e s
  rw [← Except.error.inj h, hp]
  exact id

theorem shallow_advance : Shallow advance := by
  intro s f h
  rw [advance_run] at h
  cases h

theorem shallow_consume (r : Reserved) : Shallow (consume r) :=
  (shallow_check r).bind fun _ => .ite shallow_advance (shallow_failExpecting _)

theorem shallow_consumeName (what : String) : Shallow (consumeName what) :=
  shallow_peek.bind fun _ =>
    .ite (shallow_advance.bind fun _ => .pure _) (shallow_failExpecting _)

theorem shallow_checkBinding : Shallow checkBinding := by
  intro s f h
  rw [checkBinding_run] at h
  cases h

theorem shallow_openConstruct (c : Construct) : Shallow (openConstruct c) :=
  (shallow_consume _).bind fun _ => (Shallow.modify _).bind fun _ => .pure _

theorem shallow_closeConstruct : Shallow closeConstruct := by
  intro s f h
  rw [closeConstruct_run] at h
  split at h
  · cases h
    exact id
  · split at h
    · cases h
    · cases h
      exact id

theorem shallow_closeScope : Shallow closeScope := by
  intro s f h
  rw [closeScope_run] at h
  split at h
  · cases h
  · cases h
    exact id

theorem shallow_announce (n : Node) : Shallow (announce n) := by
  unfold announce
  split
  · split
    · exact .work (Work.single_register _)
    · exact .pure _
  · exact .of_get fun s => .ite (.modify _) (.pure _)
  · exact .pure _

namespace Consults

variable {α β : Type} {p : Rereading → Parser α}

theorem const {x : Parser α} (h : Shallow x) : Consults fun _ => x where
  same _ _ := .inr rfl
  asks := by
    rintro t s ⟨f, made, nesting⟩
    exact absurd nesting (h s f made)

theorem bind {f : α → Rereading → Parser β} (hp : Consults p) (hf : ∀ a, Consults (f a)) :
    Consults fun t => p t >>= fun a => f a t where
  same {F t t'} follows s := by
    rw [run_bind, run_bind]
    obtain ⟨fault, made, holds⟩ | same := hp.same follows s
    · left
      rcases ran : p t s with ⟨e | a, s'⟩ <;> rw [ran] at made <;> cases made
      exact ⟨fault, rfl, holds⟩
    · rw [same]
      rcases p t s with ⟨e | a, s'⟩
      · exact .inr rfl
      · exact (hf a).same follows s'
  asks {t s} fails := by
    rw [run_bind] at fails
    rcases ran : p t s with ⟨e | a, s'⟩ <;> rw [ran] at fails
    · obtain ⟨q, here, answer, asks⟩ := hp.asks (t := t) (s := s) (by simpa [ran, Fails] using fails)
      refine ⟨q, here, answer, fun fault => ?_⟩
      dsimp only
      rw [run_bind]
      have stopped := asks fault
      rcases made : p (t.interrupted q here fault) s with ⟨e' | a', s''⟩ <;> rw [made] at stopped
      · exact congrArg Except.error (Except.error.inj stopped)
      · cases stopped
    · obtain ⟨q, here, answer, asks⟩ := (hf a).asks fails
      refine ⟨q, here, answer, fun fault => ?_⟩
      obtain ⟨f, made, -⟩ := answer
      have first := hp.same (Rereading.follows_interrupted ⟨f, made, trivial⟩ fault) s
      rw [ran] at first
      obtain ⟨_, absurd, -⟩ | first := first
      · cases absurd
      · dsimp only
        rw [run_bind, first]
        exact asks fault

theorem map {f : α → β} (hp : Consults p) : Consults fun t => f <$> p t := by
  simp only [map_eq_pure_bind]
  exact hp.bind fun a => .const (.pure _)

theorem of_get {f : ParserState → Rereading → Parser β} (h : ∀ s, Consults (f s)) :
    Consults fun t => get >>= fun s => f s t where
  same follows s := (h s).same follows s
  asks {_ s} fails := (h s).asks fails

theorem ite {c : Prop} [Decidable c] {p' : Rereading → Parser α} (hp : Consults p)
    (hp' : Consults p') : Consults fun t => if c then p t else p' t := by
  split
  · exact hp
  · exact hp'

/-- At every state the parser does the same as one that consults. -/
theorem of_run (h : ∀ s, ∃ p', Consults p' ∧ ∀ t, p t s = p' t s) : Consults p where
  same follows s := by
    obtain ⟨p', hp', run⟩ := h s
    rw [run, run]
    exact hp'.same follows s
  asks {t s} fails := by
    obtain ⟨p', hp', run⟩ := h s
    rw [run] at fails
    obtain ⟨q, here, answer, asks⟩ := hp'.asks fails
    refine ⟨q, here, answer, fun fault => ?_⟩
    rw [run]
    exact asks fault

theorem repeatUpTo {test : Parser Bool} (ht : Shallow test) (hp : Consults p) (fuel : Nat) :
    Consults fun t => repeatUpTo test (p t) fuel := by
  induction fuel with
  | zero => exact .const (.throw id)
  | succ fuel ih =>
    simp only [Parser.repeatUpTo_succ]
    refine (const ht).bind fun b => ?_
    cases b
    · exact .const (.pure _)
    · exact hp.bind fun a => ih.bind fun as => .const (.pure _)

theorem repeatWhile {test : Parser Bool} (ht : Shallow test) (hp : Consults p) :
    Consults fun t => repeatWhile test (p t) :=
  .of_get fun _ => repeatUpTo ht hp _

theorem mapM {γ : Type} {f : γ → Rereading → Parser β} {l : List γ}
    (h : ∀ c ∈ l, Consults (f c)) : Consults fun t => l.mapM (f · t) := by
  induction l with
  | nil => exact .const (.pure _)
  | cons c l ih =>
    simp only [List.mapM_cons]
    refine (h c List.mem_cons_self).bind fun b => ?_
    exact (ih fun c hc => h c (List.mem_cons_of_mem _ hc)).bind fun bs => .const (.pure _)

/-- Transformations of trees consult at the nodes. -/
theorem transformM {δ ρ : Type} {x : Rereading → Transform Parser δ ρ} (toSlot : ρ → Slot Node)
    (enter : ∀ d n, Consults fun t => (x t).enter d n)
    (leave : ∀ d n, Consults fun t => (x t).leave d n) (slot : ∀ t, (x t).toSlot = toSlot)
    (n : Node) : ∀ d, Consults fun t => n.transformM (x t) d := by
  induction n using Node.induction_on with
  | step span head slots ih =>
    intro d
    simp only [Node.transformM]
    refine (enter d _).bind fun step => ?_
    cases step with
    | done r => exact .const (.pure _)
    | inside d' =>
      simp only [Node.transformSlotsM_eq]
      refine (mapM fun s hs => ?_).bind fun slots' => leave d _
      cases s with
      | absent => exact .const (.pure _)
      | one n =>
        simp only [Node.transformSlotM, slot]
        exact (ih _ hs n List.mem_cons_self d').map
      | many ns =>
        simp only [Node.transformSlotM, Node.transformListM_eq, slot]
        exact (mapM fun n hn => ih _ hs n hn d').map.map

end Consults

/-! ## Phrases -/

/-- The parsers for the nonterminals consult. -/
structure Nonterminals.Consulting (g : Rereading → Nonterminals) : Prop where
  expression : ∀ l, Consults fun t => (g t).expression l
  statement : Consults fun t => (g t).statement
  pattern : Consults fun t => (g t).pattern

namespace Nonterminals.Consulting

variable {g : Rereading → Nonterminals} (hg : Consulting g)

include hg

theorem wellFormedPattern : Consults fun t => (g t).wellFormedPattern := by
  refine hg.pattern.bind fun n => .const ?_
  split
  · exact .throw id
  · exact .pure _

theorem statements :
    Consults fun t => repeatWhile (not <$> Nonterminals.atBodyEnd) (g t).statement :=
  .repeatWhile (fun _ _ h => by cases h) hg.statement

theorem body : Consults fun t => (g t).body := by
  refine (Consults.const (shallow_openConstruct _)).bind fun start => ?_
  refine (Consults.const (Shallow.modify _)).bind fun _ => hg.statements.bind fun _ => .const ?_
  exact shallow_closeConstruct.bind fun _ => shallow_closeScope.bind fun _ =>
    (shallow_spanFrom start).bind fun _ => .pure _

theorem part (n : Nonterminal) : Consults fun t => n.read (g t) := by
  cases n with
  | expression l => exact (hg.expression l).map
  | pattern => exact hg.pattern.map
  | binding => exact hg.wellFormedPattern.map
  | body => exact hg.body.map
  | statement => exact hg.statement.map
  | statements => exact hg.statements.map

theorem read (a : Phrase) : Consults fun t => a.read (g t) := by
  induction a with
  | give f => exact .const (.pure _)
  | place =>
    simp only [Phrase.read]
    exact .const (shallow_peek.bind fun _ => .pure _)
  | mark r | kept r =>
    simp only [Phrase.read, discard_bind]
    exact .const ((shallow_consume r).bind fun _ => .pure _)
  | spelled r => exact .const ((shallow_consume r).bind fun _ => .pure _)
  | name what => exact .const ((shallow_consumeName what).bind fun _ => .pure _)
  | part n => exact hg.part n
  | fail what => exact .const (shallow_failExpecting _)
  | seq a b iha ihb => exact iha.bind fun f => ihb.bind fun h => .const (.pure _)
  | either r a b iha ihb => exact (Consults.const (shallow_check r)).bind fun c => .ite iha ihb
  | ahead a b iha ihb => exact (Consults.const shallow_checkBinding).bind fun c => .ite iha ihb
  | star r a ih => exact (Consults.repeatWhile (shallow_check r) ih).map
  | gather a ih | list a ih => exact ih.map
  | demand a what ih =>
    refine ih.bind fun f => .const ?_
    split
    · exact (shallow_failExpecting _).bind fun _ => .pure _
    · exact .pure _
  | node head a ih =>
    simp only [Phrase.read_node]
    refine (Consults.const shallow_peek).bind fun start => ih.bind fun f => .const ?_
    exact (shallow_spanFrom start).bind fun _ => (shallow_announce _).bind fun _ => .pure _
  | chain a ih =>
    simp only [Phrase.read_chain]
    refine (Consults.const shallow_peek).bind fun start => ih.bind fun f => .const ?_
    exact (shallow_spanFrom start).bind fun _ => .pure _
  | construct c a ih =>
    simp only [Phrase.read, discard_bind]
    refine (Consults.const (shallow_openConstruct c)).bind fun _ => ih.bind fun f => .const ?_
    exact shallow_closeConstruct.bind fun _ => .pure _

omit hg in
theorem shallow_extend (m : Level) (left : Node) (start : Token) (f : Found) :
    Shallow (extend m left start f) := by
  refine Shallow.bind ?_ fun stop => .of_get fun s => (shallow_announce _).bind fun _ => .pure _
  intro s f h
  unfold tailStop at h
  split at h <;> cases h

theorem tail (a : Phrase) (m : Level) (left : Node) :
    Consults fun t => peek >>= fun start => a.read (g t) >>= Parser.extend m left start :=
  (Consults.const shallow_peek).bind fun start => (hg.read a).bind fun f =>
    .const (shallow_extend m left start f)

theorem extendUpTo (l : Level) (fuel : Nat) (left : Node) :
    Consults fun t => (g t).extendUpTo l fuel left := by
  induction fuel generalizing left with
  | zero => exact .const (.throw id)
  | succ fuel ih =>
    refine .of_run fun s => ?_
    cases found : s.next.reserved?.bind Phrase.tail? with
    | none =>
      refine ⟨fun _ => pure left, .const (.pure _), fun t => ?_⟩
      rw [Phrase.extendUpTo_run, found]
      rfl
    | some tail =>
      by_cases tight : l.rank ≤ tail.1.rank
      · refine ⟨_, (hg.tail tail.2 tail.1 left).bind ih, fun t => ?_⟩
        rw [Phrase.extendUpTo_run, found]
        exact if_pos tight
      · refine ⟨fun _ => pure left, .const (.pure _), fun t => ?_⟩
        rw [Phrase.extendUpTo_run, found]
        exact if_neg tight

/-! ## Expressions, patterns and statements -/

omit hg in
theorem of_map {α β : Type} {p : Rereading → Parser α} {f : α → β} (injective : Function.Injective f)
    (h : Consults fun t => f <$> p t) : Consults p where
  same {F t t'} follows s := by
    rcases h.same follows s with fails | same
    · exact .inl (Rereading.fails_map.mp fails)
    · right
      rw [run_map, run_map] at same
      generalize p t s = res at same ⊢
      generalize p t' s = res' at same ⊢
      rcases res with ⟨e | a, u⟩ <;> rcases res' with ⟨e' | a', u'⟩ <;>
        obtain ⟨result, rfl⟩ := Prod.mk.inj same
      · rw [Except.error.inj result]
      · cases result
      · cases result
      · rw [injective (Except.ok.inj result)]
  asks {t s} fails := by
    obtain ⟨q, here, answer, asks⟩ := h.asks (Rereading.fails_map.mpr fails)
    refine ⟨q, here, answer, fun fault => ?_⟩
    have stopped := asks fault
    dsimp only at stopped
    rw [run_map] at stopped
    rcases made : p (t.interrupted q here fault) s with ⟨e | a, s'⟩ <;> rw [made] at stopped
    · exact congrArg Except.error (Except.error.inj stopped)
    · cases stopped

theorem operand : Consults fun t => (g t).operand := by
  refine of_map (fun _ _ => Found.ofNode_inj) (.of_run fun s => ?_)
  simp only [Phrase.operand_run]
  cases Nonterminals.atom? s.next with
  | some n =>
    refine ⟨fun _ s => (.ok (.ofNode n), passed s), .const fun _ _ h => ?_, fun _ => rfl⟩
    cases h
  | none =>
    cases s.next.reserved?.bind Phrase.operand? with
    | some a => exact ⟨_, hg.read a, fun _ => rfl⟩
    | none => exact ⟨_, .const (shallow_failExpecting _), fun _ => (failExpecting_run _ s).symm⟩

theorem readExpression (l : Level) : Consults fun t => (g t).readExpression l :=
  hg.operand.bind fun left => .of_get fun _ => hg.extendUpTo l _ left

theorem readPattern : Consults fun t => (g t).readPattern := by
  refine of_map (fun _ _ => Found.ofNode_inj) (.of_run fun s => ?_)
  simp only [Phrase.pattern_run]
  cases Nonterminals.atomicPattern? s.next with
  | some n =>
    refine ⟨fun _ s => (.ok (.ofNode n), passed s), .const fun _ _ h => ?_, fun _ => rfl⟩
    cases h
  | none =>
    cases s.next.reserved?.bind Phrase.pattern? with
    | some a => exact ⟨_, hg.read a, fun _ => rfl⟩
    | none =>
      refine ⟨_, .const (.throw ?_), fun _ => rfl⟩
      split <;> exact id

theorem plainStatement (settings : Settings) :
    Consults fun t => (g t).plainStatement settings := by
  apply of_map (fun _ _ => Found.ofNode_inj)
  simp only [Phrase.plainStatement_eq]
  refine (Consults.const shallow_peek).bind fun token => ?_
  split
  · exact hg.read _
  · exact hg.read _

end Nonterminals.Consulting

/-! ## Expansions -/

namespace Consults

theorem expression (c : MacroCall) (text : String) : Consults fun t => t.expression c text where
  same follows s := follows.expression c text s
  asks {t s} fails := by
    refine ⟨.expression c text, s, Rereading.fails_map.mpr fails, fun fault => ?_⟩
    simp [Rereading.interrupted]

theorem statements (c : MacroCall) (text : String) : Consults fun t => t.statements c text where
  same follows s := follows.statements c text s
  asks {t s} fails := by
    refine ⟨.statements c text, s, Rereading.fails_map.mpr fails, fun fault => ?_⟩
    simp [Rereading.interrupted]

end Consults

namespace Rereading

theorem shallow_expandHere (c : MacroCall) : Shallow (expandHere c) :=
  (Shallow.work (Work.single_expandCall c)).bind fun _ => (Shallow.modify _).bind fun _ => .pure _

theorem shallow_textOf (n : Node) : Shallow (textOf n) := by
  unfold textOf
  split
  · exact .pure _
  · exact .throw id

theorem consults_replaceStatement (c : MacroCall) (span : Span) :
    Consults fun t => t.replaceStatement c span :=
  (Consults.const (shallow_expandHere c)).bind fun _ =>
    (Consults.const (shallow_textOf _)).bind fun text => .statements c text

theorem consults_replaceExpression (c : MacroCall) : Consults fun t => t.replaceExpression c :=
  (Consults.const (shallow_expandHere c)).bind fun e =>
    (Consults.const (.work (Work.single_asExpression e c))).bind fun n =>
      (Consults.const (shallow_textOf n)).bind fun text => .expression c text

theorem consults_enter (n : Node) : Consults fun t => t.enter n := by
  refine .of_get fun s => ?_
  dsimp only
  split
  · exact .const (.pure _)
  · exact .const (.pure _)
  · split
    · exact (consults_replaceStatement _ _).bind fun _ => .const (.pure _)
    · exact (consults_replaceExpression _).bind fun _ => .const (.pure _)
    · exact .const (.pure _)

theorem consults_transform (n : Node) : Consults fun t => n.transformM t.transform () :=
  .transformM (x := fun t => t.transform) id (fun _ n => consults_enter n)
    (fun _ _ => .const (.pure _)) (fun _ => rfl) n ()

theorem consults_completed {read : Rereading → Parser Node} (h : Consults read) :
    Consults fun t => t.completed (read t) := by
  refine .of_get fun s => (Consults.const (.modify _)).bind fun _ => h.bind fun n =>
    .of_get fun s' => ?_
  have put (slot : Slot Node) : Shallow (modify (fun s' : ParserState =>
      { s' with pending := s.pending }) >>= fun _ => (Pure.pure slot : Parser (Slot Node))) :=
    (Shallow.modify _).bind fun _ => .pure _
  split
  · exact .const ((Shallow.pure _).bind put)
  · exact (consults_transform n).bind fun slot => .const (put slot)

theorem consulting_upTo (settings : Settings) (depth : Nat) :
    Nonterminals.Consulting fun t => Nonterminals.upTo settings t depth := by
  induction depth with
  | zero => exact ⟨fun _ => .const (.throw id), .const (.throw id), .const (.throw id)⟩
  | succ depth ih =>
    exact ⟨fun l => ih.readExpression l, (consults_completed (ih.plainStatement settings)).map,
      ih.readPattern⟩

/-! ## Whole texts -/

theorem consults_programWith (settings : Settings) : Consults (programWith settings) := by
  refine .of_get fun s => .of_get fun _ => (Consults.const (.modify _)).bind fun _ => ?_
  refine (Consults.repeatWhile (fun _ _ h => by cases h) ?_).bind fun nss => .const ?_
  · exact (Consults.const (.work Work.single_checkpoint)).bind fun _ =>
      (consulting_upTo settings _).statement
  · exact shallow_closeScope.bind fun _ => (Shallow.work (Work.single_report _)).bind fun _ => .pure _

theorem consults_statementsWith (settings : Settings) : Consults (statementsWith settings) := by
  refine .of_get fun s => (Consults.const (.modify _)).bind fun _ => ?_
  refine (Consults.repeatWhile (fun _ _ h => by cases h) ?_).bind fun nss => .const ?_
  · exact (consulting_upTo settings _).statement
  · exact shallow_closeScope.bind fun _ => .pure _

theorem consults_expressionWith (settings : Settings) : Consults (expressionWith settings) := by
  refine .of_get fun s => (Consults.const (.modify _)).bind fun _ => ?_
  refine (consults_completed ?_).bind fun slot => .const ?_
  · refine ((consulting_upTo settings _).expression _).bind fun n => .const ?_
    refine shallow_atEnd.bind fun b => ?_
    split
    · exact .pure _
    · exact shallow_peek.bind fun _ => (Shallow.throw id).bind fun _ => .pure _
  · split
    · exact shallow_closeScope.bind fun _ => .pure _
    · exact .throw id

end Rereading

theorem Request.consults_reader (settings : Settings) (q : Request) :
    Consults (q.reader settings) := by
  cases q with
  | expression c text => exact (Rereading.consults_expressionWith settings).map
  | statements c text => exact (Rereading.consults_statementsWith settings).map

end GlyphScript
