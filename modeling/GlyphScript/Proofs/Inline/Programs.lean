import GlyphScript.Node.SExpr
import GlyphScript.Proofs.Compilation
import GlyphScript.Proofs.Inline.Reading
import GlyphScript.Proofs.Parsing.Conduct.Program
import GlyphScript.Proofs.Safety.Compilation

/-!
# Programs without calls to be expanded while parsing

When a statement is complete, all calls in it are replaced whose macros are
known by then, and so are those in the texts of their expansions. So in a parsed
program no such call stands behind the definition of its macro.
-/

namespace GlyphScript

open GlyphScript.Parser
open MacroUse (Within)

/-! ## Texts of expansions -/

namespace Work

/-- Divides the text of an expansion into tokens, whose names are not to be given out. -/
def expansionTokens (c : MacroCall) (depth : Nat) (text : String) : Work (List Token) := do
  let tokens ← Work.tokens text s!"<expansion of {c.name}>"
  modify fun s => { s with gensym := s.gensym.reserve (identifierNames tokens).toList }
  Work.report (.rereading c.name depth)
  return tokens

theorem onlyReports_expansionTokens (c : MacroCall) (depth : Nat) (text : String) :
    OnlyReports (expansionTokens c depth text) := by
  refine (onlyReports_tokens _ _).bind fun tokens => ?_
  refine OnlyReports.bind (fun _ => ⟨rfl, List.suffix_rfl⟩) fun _ => ?_
  exact (onlyReports_report _).bind fun _ => .pure _

theorem RegistersNothing.expansionTokens (c : MacroCall) (depth : Nat) (text : String) :
    RegistersNothing (expansionTokens c depth text) := by
  refine (RegistersNothing.tokens _ _).bind fun tokens => ?_
  refine RegistersNothing.bind (fun _ => rfl) fun _ => ?_
  exact (RegistersNothing.report rfl).bind fun _ => .pure _

end Work

/-! ## Expanding while parsing -/

/-- From the texts of expansions nothing is left to be expanded. -/
structure Rereading.Tracked (t : Rereading) : Prop where
  expression : ∀ {k} c text, Tracks false k (t.expression c text) fun us n => Within n.uses us
  statements : ∀ {k} c text,
    Tracks false k (t.statements c text) fun us ns => Within (ns.flatMap Node.uses) us

namespace Rereading

variable {k : String → Prop}

theorem tracks_textOf (n : Node) : Tracks false k (textOf n) fun us _ => us = [] := by
  unfold textOf
  split
  · exact (Tracks.pure _).mono fun _ _ h => h.1
  · exact .throw _

theorem tracks_expandHere (c : MacroCall) : Tracks false k (expandHere c) fun us _ => us = [] :=
  (tracks_work (Work.onlyReports_expandCall c) (.expandCall c)).quiet_bind fun _ =>
    (tracks_inject _).bind_pure fun _ _ none => none

/-- A template stays what it is. -/
theorem enter_template (t : Rereading) {n : Node} (template : n.head.isTemplate = true)
    (s : ParserState) : t.enter n s = (.ok (.done (.one n)), s) := by
  obtain ⟨span, head, slots⟩ := n
  cases head
  case macroDef | quote => rfl
  all_goals cases template

/-- What is no template becomes something else if it is a call to be expanded, and is gone
through otherwise. -/
theorem enter_plain (t : Rereading) {n : Node} (plain : n.head.isTemplate = false)
    (s : ParserState) : t.enter n s =
      ((callStatement? s.unit.registry n).elim
        ((callHere? s.unit.registry n).elim (pure (.inside ())) fun c =>
          (fun m => .done (.one m)) <$> t.replaceExpression c)
        fun c => (fun ns => .done (.many ns)) <$> t.replaceStatement c n.span) s := by
  unfold Rereading.enter
  rw [run_bind, run_get]
  refine congrFun ?_ s
  split
  · rename_i head
    rw [head] at plain
    cases plain
  · rename_i head
    rw [head] at plain
    cases plain
  · cases callStatement? s.unit.registry n <;> cases callHere? s.unit.registry n <;>
      simp only [Option.elim, map_eq_pure_bind]

/-- What is come to before a node is gone through, which is itself such a use. -/
def Entered (own : Option MacroUse) (us : List MacroUse) : Step Unit (Slot Node) → Prop
  | .done slot => Within (slot.toList.flatMap Node.uses) us
  | .inside _ => us = own.toList

namespace Tracked

variable {t : Rereading} (ht : t.Tracked)

include ht

theorem replaceExpression (c : MacroCall) :
    Tracks false k (t.replaceExpression c) fun us n => Within n.uses us := by
  refine (tracks_expandHere c).quiet_bind fun e => ?_
  refine (tracks_work (Work.onlyReports_ofExpansion _) (.ofExpansion _)).quiet_bind fun n => ?_
  exact (tracks_textOf n).quiet_bind fun text => ht.expression c text

theorem replaceStatement (c : MacroCall) (span : Span) :
    Tracks false k (t.replaceStatement c span) fun us ns => Within (ns.flatMap Node.uses) us :=
  (tracks_expandHere c).quiet_bind fun _ => (tracks_textOf _).quiet_bind fun text =>
    ht.statements c text

/-- Where nothing takes the place of a node, the node is no call to be expanded. -/
theorem enter {span : Span} {head : Head} {slots : List (Slot Node)}
    (plain : head.isTemplate = false) :
    Tracks false k (t.enter (.mk span head slots)) (Entered (head.use? slots.length)) := by
  intro s step s' run faithful known
  rw [enter_plain t (n := .mk span head slots) plain] at run
  cases statement : callStatement? s.unit.registry (.mk span head slots) with
  | some c =>
    rw [statement] at run
    exact (ht.replaceStatement c span).map (fun us ns h => h) s step s' run faithful known
  | none =>
    rw [statement] at run
    cases expression : callHere? s.unit.registry (.mk span head slots) with
    | some c =>
      rw [expression] at run
      refine (ht.replaceExpression c).map (fun us n h => ?_) s step s' run faithful known
      show Within ([n].flatMap Node.uses) us
      rwa [List.flatMap_singleton]
    | none =>
      rw [expression] at run
      cases run
      refine ⟨faithful, List.suffix_rfl, fun single => ⟨_, .own rfl (fun x hx => ?_)
        (fun x hx registered => ?_), rfl⟩⟩
      · rw [Head.isTemplate_of_use? hx] at plain
        cases plain
      · obtain ⟨-, c, made, rfl⟩ := Node.use?_eq_called span hx
        refine absurd expression (Option.ne_none_iff_exists'.mpr ⟨c, ?_⟩)
        exact Option.filter_eq_some_iff.mpr ⟨made, faithful single _ registered⟩

omit ht in
/-- The uses in a template are of macros that are known. -/
theorem transform_template {span : Span} {head : Head} {slots : List (Slot Node)}
    (template : head.isTemplate = true)
    (known : ∀ name, .defined name .parse ∈ (Node.mk span head slots).uses → k name) :
    Tracks false k ((Node.mk span head slots).transformM t.transform ()) fun us slot =>
      Within (slot.toList.flatMap Node.uses) us := by
  intro s slot s' run faithful before
  have stays : t.transform.enter () (.mk span head slots) s = _ :=
    t.enter_template (n := .mk span head slots) template s
  rw [Node.transformM, run_bind, stays] at run
  cases run
  have uses : (Node.mk span head slots).uses = (head.use? slots.length).toList := by
    rw [Node.uses_mk, if_pos template, List.append_nil]
  rw [uses] at known
  refine ⟨faithful, List.suffix_rfl, fun single => ⟨(head.use? slots.length).toList,
    .own rfl (fun x hx => ?_) (fun x hx => ?_), .of_sublist ?_⟩⟩
  · exact before single x (known x (Option.mem_toList.mpr hx))
  · rw [(Node.use?_eq_called span hx).1] at template
    cases template
  · rw [Slot.toList, List.flatMap_singleton, uses]

/-- Expanding the calls in a tree leaves none whose macro has been known before. -/
theorem transform (n : Node) (known : ∀ name, .defined name .parse ∈ n.uses → k name) :
    Tracks false k (n.transformM t.transform ()) fun us slot =>
      Within (slot.toList.flatMap Node.uses) us := by
  induction n using Node.induction_on with
  | step span head slots ih =>
    cases template : head.isTemplate with
    | true => exact transform_template template known
    | false =>
      have below {m : Node} {s : Slot Node} (hs : s ∈ slots) (hm : m ∈ s.toList) (name : String)
          (defined : .defined name .parse ∈ m.uses) : k name := by
        refine known name ?_
        rw [Node.uses_mk, template]
        refine List.mem_append_right _ (List.mem_flatMap.mpr ⟨s, hs, ?_⟩)
        exact List.mem_flatMap.mpr ⟨m, hm, defined⟩
      have slot (s : Slot Node) (hs : s ∈ slots) : Tracks false k
          (Node.transformSlotM t.transform () s) fun us s' =>
            Within (s'.toList.flatMap Node.uses) us := by
        cases s with
        | absent =>
          refine (Tracks.pure _).mono fun us s' made => ?_
          rw [made.2]
          exact .nil us
        | one n =>
          exact (ih _ hs n List.mem_cons_self (below hs List.mem_cons_self)).map fun _ _ h => h
        | many ns =>
          rw [Node.transformSlotM, Node.transformListM_eq, ← LawfulFunctor.comp_map]
          refine (Tracks.mapM fun n hn => ih _ hs n hn (below hs hn)).map fun us made h => ?_
          rw [← List.flatMap_assoc] at h
          exact h.2
      rw [Node.transformM]
      refine (ht.enter template).bind fun step us => ?_
      cases step with
      | done slot =>
        refine (Tracks.pure slot).mono fun vs slot' made entered => ?_
        rw [made.1, made.2, List.append_nil]
        exact entered
      | inside _ =>
        dsimp only
        rw [Node.transformSlotsM_eq]
        refine (Tracks.mapM slot).bind_pure fun vs slots' made entered => ?_
        show Within ([Node.mk span head slots'].flatMap Node.uses) (us ++ vs)
        rw [List.flatMap_singleton, Node.uses_mk, template, made.1, entered]
        exact (Within.refl _).append made.2

/-- When a statement is complete, no call is counted any more. -/
theorem completed {read : Parser Node}
    (h : ∀ {k}, Tracks true k read fun us n => Within n.uses us) :
    Tracks false k (t.completed read) fun us slot => Within (slot.toList.flatMap Node.uses) us := by
  intro s slot s' run faithful known
  rw [completed_eq] at run
  obtain ⟨_, _, got, run⟩ := bind_ok.mp run
  cases got
  obtain ⟨_, _, cleared, run⟩ := bind_ok.mp run
  cases cleared
  obtain ⟨n, s₁, first, run⟩ := bind_ok.mp run
  obtain ⟨kept, grown, made⟩ := h _ n s₁ first faithful known
  obtain ⟨_, _, got, run⟩ := bind_ok.mp run
  cases got
  split at run
  next none =>
    cases run
    refine ⟨kept, grown, fun single => ?_⟩
    obtain ⟨us, leads, found⟩ := made single
    refine ⟨us, ⟨leads.known, Nat.le_refl _, fun _ => rfl, fun _ => leads.settled none⟩, ?_⟩
    show Within ([n].flatMap Node.uses) us
    rwa [List.flatMap_singleton]
  next =>
    obtain ⟨_, s₂, replaced, run⟩ := bind_ok.mp run
    cases run
    have before (single : s₁.unit.SinglePhase) (name) (hn : .defined name .parse ∈ n.uses) :
        s₁.unit.Expands name := by
      obtain ⟨us, leads, found⟩ := made single
      exact leads.known name (found.subset _ hn)
    obtain ⟨kept', grown', made'⟩ := ht.transform n (fun _ h => h) s₁ slot s₂ replaced kept before
    refine ⟨kept', grown.trans grown', fun single => ?_⟩
    obtain ⟨us, leads, found⟩ := made' single
    obtain ⟨apart, fresh⟩ := leads.settled (leads.level rfl)
    exact ⟨us, ⟨leads.known, Nat.le_refl _, fun _ => rfl, fun _ => ⟨apart, fun name hu registered =>
      fresh name hu (grown.subset registered)⟩⟩, found⟩

/-! ## Nonterminals at any depth -/

theorem upTo (settings : Settings) (depth : Nat) :
    (Nonterminals.upTo settings t depth).Tracked := by
  induction depth with
  | zero => exact ⟨fun _ => .throw _, .throw _, .throw _⟩
  | succ depth ih =>
    exact ⟨fun l => ih.readExpression l,
      (ht.completed (ih.plainStatement settings)).map fun _ _ => id, ih.readPattern⟩

/-- Whatever is read with the nonterminals as deep as the tokens lead. -/
theorem here {α : Type} {settings : Settings} {f : Nonterminals → Parser α}
    {P : List MacroUse → α → Prop} {c : Bool}
    (h : ∀ g : Nonterminals, g.Tracked → Tracks c k (f g) P) :
    Tracks c k (Nonterminals.here settings t >>= f) P := by
  unfold Nonterminals.here
  rw [bind_assoc]
  refine .of_get fun s => ?_
  rw [pure_bind]
  exact h _ (ht.upTo settings _)

omit ht in
theorem tracks_atEnd {c : Bool} : Tracks c k atEnd fun us _ => us = [] :=
  .quiet (fun _ => rfl) fun _ => rfl

omit ht in
theorem tracks_notAtEnd {c : Bool} : Tracks c k (not <$> atEnd) fun us _ => us = [] :=
  tracks_atEnd.map fun _ _ none => none

theorem programWith (settings : Settings) :
    Tracks false k (programWith settings t) fun us n => Within n.uses us := by
  refine ht.here fun g hg => .of_get fun s => tracks_openScope.quiet_bind fun _ => ?_
  have statement : Tracks false k (ofWork Work.checkpoint >>= fun _ => g.statement) fun us ns =>
      Within (ns.flatMap Node.uses) us :=
    (tracks_work Work.onlyReports_checkpoint .checkpoint).quiet_bind fun _ => hg.statement
  refine (Tracks.repeatWhile tracks_notAtEnd statement).bind_quiet fun nss => ?_
  refine tracks_closeScope.quiet_bind fun injected => ?_
  refine (tracks_work (Work.onlyReports_report _) (.report rfl)).quiet_bind fun _ => ?_
  refine (Tracks.pure _).mono fun us n made => ?_
  obtain ⟨rfl, rfl⟩ := made
  refine ⟨rfl, fun us found => ?_⟩
  rw [Node.program, Nonterminals.Tracked.uses_scope rfl rfl]
  rwa [← List.flatMap_id, List.flatMap_assoc]

theorem statementsWith (settings : Settings) : Tracks false k (statementsWith settings t)
    fun us a => Within (a.1.flatMap Node.uses) us := by
  refine ht.here fun g hg => tracks_openScope.quiet_bind fun _ => ?_
  refine (hg.statements tracks_notAtEnd).bind_quiet fun nss => ?_
  exact tracks_closeScope.bind_pure fun us injected none => ⟨none, fun us found => found⟩

theorem expressionWith (settings : Settings) : Tracks false k (expressionWith settings t)
    fun us a => Within a.1.uses us := by
  refine ht.here fun g hg => tracks_openScope.quiet_bind fun _ => ?_
  have whole {k : String → Prop} : Tracks true k (do
      let node ← g.anyExpression
      unless ← atEnd do throw (.parse (.expectedToken (.phrase "end of input") (← peek)))
      return node) fun us n => Within n.uses us := by
    refine (hg.expression _).bind_quiet fun n => tracks_atEnd.quiet_bind fun ended => ?_
    have ends : Tracks true k (pure n) fun vs m => vs = [] ∧ ∀ us, Within n.uses us →
        Within m.uses us := (Tracks.pure n).mono fun us m made => by
      obtain ⟨rfl, rfl⟩ := made
      exact ⟨rfl, fun us found => found⟩
    split
    · exact ends
    · exact tracks_peek.quiet_bind fun _ => (Tracks.throw _ (P := fun _ _ => False)).bind
        fun _ _ => ends.mono fun _ _ _ failed => failed.elim
  refine (ht.completed whole).bind_quiet fun slot => ?_
  split
  · refine tracks_closeScope.bind_pure fun us injected none => ⟨none, fun us found => ?_⟩
    rwa [Slot.toList, List.flatMap_singleton] at found
  · exact .throw _

end Tracked

/-! ## Texts of expansions -/

section

variable {α : Type} {P : List MacroUse → α → Prop}

theorem tracks_within {tokens : List Token} {p : Parser α} (h : Tracks false k p P) :
    Tracks false k (Parser.within tokens p) P := by
  intro s a s' run faithful known
  have result : (p (ParserState.start s.unit tokens)).1 = .ok a := congrArg Prod.fst run
  obtain ⟨kept, grown, made⟩ := h _ a _ (Prod.ext result rfl) faithful known
  obtain rfl := congrArg Prod.snd run
  refine ⟨kept, grown, fun single => ?_⟩
  obtain ⟨us, leads, found⟩ := made single
  have settled := leads.settled (leads.level rfl)
  exact ⟨us, ⟨leads.known, Nat.le_refl _, fun _ => rfl, fun _ => settled⟩, found⟩

theorem tracks_reread (c : MacroCall) (depth : Nat) (text : String) {p : Parser (α × List String)}
    (h : Tracks false k p fun us a => P us a.1) : Tracks false k (reread c depth text p) P := by
  have tokens : Tracks false k (ofWork (Work.expansionTokens c depth text)) fun us _ => us = [] :=
    tracks_work (Work.onlyReports_expansionTokens c depth text) (.expansionTokens c depth text)
  refine tokens.quiet_bind fun tokens => (tracks_within h).bind_quiet fun a => ?_
  exact (tracks_inject _).bind_pure fun us _ none => ⟨none, fun us found => found⟩

end

theorem tracked_upTo (settings : Settings) (remaining : Nat) :
    (upTo settings remaining).Tracked := by
  induction remaining with
  | zero => exact ⟨fun _ _ => .throw _, fun _ _ => .throw _⟩
  | succ remaining ih =>
    exact ⟨fun c text => tracks_reread c _ text (ih.expressionWith settings),
      fun c text => tracks_reread c _ text (ih.statementsWith settings)⟩

end Rereading

/-! ## Parsed programs -/

/-- Outside of definitions and quotes no call of a macro to be expanded while parsing stands behind
the definition of the macro. -/
structure Node.Expanded (p : Node) : Prop where
  /-- No definition and no call is left out of the uses. -/
  complete : ∀ m ∈ p.walk,
    (∀ name params phase hygiene, m.head = .macroDef name params phase hygiene →
      m.head.use? m.slots.length = some (.defined name phase)) ∧
    ∀ name deferred, m.head = .macroCall name deferred →
      m.head.use? m.slots.length = some (.called name)
  behind : ∀ before name behind, p.uses = before ++ .defined name .parse :: behind →
    .called name ∉ behind

/-- A complete statement has no call of a macro that has been known before to be expanded while
parsing. -/
theorem statement_expands (settings : Settings) {depth : Nat} {s s' : ParserState} {ns : List Node}
    (faithful : s.unit.Faithful)
    (run : (Nonterminals.upTo settings (Rereading.within settings) depth).statement s =
      (.ok ns, s'))
    (single : s'.unit.SinglePhase) {name : String} (known : s.unit.Expands name) :
    .called name ∉ ns.flatMap Node.uses := by
  intro called
  have tracked := (Rereading.tracked_upTo settings settings.maxParseDepth).upTo settings depth
  obtain ⟨-, -, made⟩ :=
    tracked.statement (k := fun _ => False) s ns s' run faithful fun _ _ h => h.elim
  obtain ⟨us, leads, found⟩ := made single
  exact (leads.settled (leads.level rfl)).2 name (found.subset _ called) known

section

variable {settings : Settings} {tokens : List Token} {checks : Option Nat}
variable {p : Node} {u : UnitState}

/-- All definitions and calls of macros in a parsed program are uses. -/
theorem use?_of_parse (parsed : (Work.parse (Parser.program settings) tokens).run
      (UnitState.ofTokens settings tokens checks) = (.ok p, u)) {m : Node} (hm : m ∈ p.walk) :
    (∀ name params phase hygiene, m.head = .macroDef name params phase hygiene →
      m.head.use? m.slots.length = some (.defined name phase)) ∧
    ∀ name deferred, m.head = .macroCall name deferred →
      m.head.use? m.slots.length = some (.called name) := by
  have empty : Registry.empty.Regular := fun _ h => (List.not_mem_nil h).elim
  have regular : p.Regular _ := ((conducts_program settings Registry.empty
    (ParserState.start (UnitState.ofTokens settings tokens checks) tokens) empty
    (le_refl _)).2.2 p (congrArg Prod.fst parsed)).regular
  have sorted : p.Sorted := by
    have none : (UnitState.ofTokens settings tokens checks).Sorted := List.forall_mem_nil _
    have ended : Proper _ _ ((Work.parse (Parser.program settings) tokens).run _) :=
      Work.proper_parse (safe_programWith (Rereading.safe_upTo settings _) settings) tokens _ none
    rw [parsed] at ended
    cases ended with
    | ok _ made => exact made.sorted
  have length : m.slots.length = m.head.sorts.length := (sorted m hm).length_eq.symm
  refine ⟨fun name params phase hygiene head => ?_, fun name deferred head => ?_⟩
  · rw [length, head]
    rfl
  · cases deferred with
    | true => exact ((regular m hm).deferred name head).elim
    | false =>
      rw [length, head]
      rfl

/-- In a parsed program no call of a macro to be expanded while parsing stands behind the
definition of the macro, if no macro has been registered in two phases. Nor has a statement a call
of a macro that has been registered before, wherever its definition is. -/
theorem parse_expands (parsed : (Work.parse (Parser.program settings) tokens).run
      (UnitState.ofTokens settings tokens checks) = (.ok p, u)) (single : u.SinglePhase) :
    p.Expanded ∧ ∀ depth s ns s', s.unit.Faithful →
      (Nonterminals.upTo settings (Rereading.within settings) depth).statement s = (.ok ns, s') →
      s'.unit.SinglePhase → ∀ name, s.unit.Expands name → .called name ∉ ns.flatMap Node.uses := by
  refine ⟨⟨fun m hm => use?_of_parse parsed hm, fun before name behind parts called => ?_⟩,
    fun _ _ _ _ faithful run single _ known => statement_expands settings faithful run single known⟩
  obtain ⟨done, run, rfl⟩ := Work.parse_ok parsed
  have faithful : (UnitState.ofTokens settings tokens checks).Faithful := fun _ _ h => nomatch h
  obtain ⟨-, -, made⟩ := (Rereading.tracked_upTo settings settings.maxParseDepth).programWith
    settings (k := fun _ => False) _ p done run faithful fun _ _ h => h.elim
  obtain ⟨us, leads, found⟩ := made single
  have apart := found.apart (leads.settled (leads.level rfl)).1
  rw [parts] at apart
  have first := (List.pairwise_append.mp apart).2.1
  exact (List.pairwise_cons.mp first).1 _ called name rfl rfl

end

/-! ## Two macros that call one another -/

/-- The expansion of the last call is the call of a macro that has been defined before. -/
def lateCall : String :=
  "<%| B ((x)) ^< [[ '[ '(x)' ]' ]] |%> <%| A (( )) ^< [[ '[ %% B((1)) ]' ]] |%> A(( ))"

/-- The macro that is called in the expansion is not defined until later. -/
def earlyCall : String :=
  "<%| A (( )) ^< [[ '[ %% B((1)) ]' ]] |%> A(( )) <%| B ((x)) ^< [[ '[ '(x)' ]' ]] |%>"

/-- The case of `lateCall`. -/
theorem parse_expands_lateCall : ∃ tokens p u,
    tokenize lateCall "<input>" = .ok tokens ∧
    (Work.parse (Parser.program {}) tokens).run (UnitState.ofTokens {} tokens none) = (.ok p, u) ∧
    u.SinglePhase ∧ p.uses = [.defined "B" .parse, .defined "A" .parse] ∧ p.Expanded := by
  have reads : ((tokenize lateCall "<input>").toOption.bind fun tokens =>
      let r := (Work.parse (Parser.program {}) tokens).run (UnitState.ofTokens {} tokens none)
      r.1.toOption.map fun p => (p.uses, r.2.registrations)) =
      some ([.defined "B" .parse, .defined "A" .parse], [("A", .parse), ("B", .parse)]) := by
    delta lateCall
    rw [tokenize_ofList]
    decide +kernel
  obtain ⟨tokens, divided, reads⟩ := Option.bind_eq_some_iff.mp reads
  obtain ⟨p, made, found⟩ := Option.map_eq_some_iff.mp reads
  obtain ⟨uses, registrations⟩ := Prod.mk.inj found
  obtain ⟨u, parsed⟩ : ∃ u, (Work.parse (Parser.program {}) tokens).run
      (UnitState.ofTokens {} tokens none) = (.ok p, u) := ⟨_, Prod.ext (ok_of_toOption made) rfl⟩
  have single : u.SinglePhase := by
    intro name phase phase' first second
    rw [parsed] at registrations
    rw [registrations] at first second
    simp only [List.mem_cons, Prod.mk.injEq, List.not_mem_nil, or_false] at first second
    grind
  exact ⟨tokens, p, u, ok_of_toOption divided, parsed, single, uses,
    (parse_expands parsed single).1⟩

/-- As it is written, `earlyCall` has each macro defined once and before it is called, but when it
has been parsed a call is left that is to be expanded while parsing. -/
theorem earlyCall_left : ∃ tokens p u p' u',
    tokenize earlyCall "<input>" = .ok tokens ∧
    (Work.parse (Parser.program (Settings.postponed {})) (tokens.map Token.postponed)).run
      (UnitState.ofTokens {} tokens none) = (.ok p, u) ∧
    p.sexpr = "(Program [(MacroDef A [] EXPAND ISOLATE [] (Quote (MacroCall B [(Literal 1)]))) " ++
      "(ExpressionStatement (MacroCall A [])) " ++
      "(MacroDef B [x] EXPAND ISOLATE [] (Quote (Unquote (Identifier x))))])" ∧
    (Work.parse (Parser.program {}) tokens).run (UnitState.ofTokens {} tokens none) = (.ok p', u') ∧
    u'.registrations = [("B", .parse), ("A", .parse)] ∧
    p'.uses = [.defined "A" .parse, .called "B", .defined "B" .parse] := by
  have reads : ((tokenize earlyCall "<input>").toOption.bind fun tokens =>
      let r :=
        (Work.parse (Parser.program (Settings.postponed {})) (tokens.map Token.postponed)).run
          (UnitState.ofTokens {} tokens none)
      let r' := (Work.parse (Parser.program {}) tokens).run (UnitState.ofTokens {} tokens none)
      r.1.toOption.bind fun p =>
        r'.1.toOption.map fun p' => (p.sexpr, p'.uses, r'.2.registrations)) =
      some ("(Program [(MacroDef A [] EXPAND ISOLATE [] (Quote (MacroCall B [(Literal 1)]))) " ++
        "(ExpressionStatement (MacroCall A [])) " ++
        "(MacroDef B [x] EXPAND ISOLATE [] (Quote (Unquote (Identifier x))))])",
        [.defined "A" .parse, .called "B", .defined "B" .parse],
        [("B", .parse), ("A", .parse)]) := by
    delta earlyCall
    rw [tokenize_ofList]
    decide +kernel
  obtain ⟨tokens, divided, reads⟩ := Option.bind_eq_some_iff.mp reads
  obtain ⟨p, written, reads⟩ := Option.bind_eq_some_iff.mp reads
  obtain ⟨p', parsed, found⟩ := Option.map_eq_some_iff.mp reads
  obtain ⟨listing, found⟩ := Prod.mk.inj found
  obtain ⟨uses, registrations⟩ := Prod.mk.inj found
  exact ⟨tokens, p, _, p', _, ok_of_toOption divided, Prod.ext (ok_of_toOption written) rfl,
    listing, Prod.ext (ok_of_toOption parsed) rfl, registrations, uses⟩

end GlyphScript
