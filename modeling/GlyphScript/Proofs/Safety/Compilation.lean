import GlyphScript.Compilation
import GlyphScript.Proofs.Safety.Pass
import GlyphScript.Proofs.Safety.Printable
import GlyphScript.Proofs.Safety.Reading

/-!
# Compiling without any but documented faults

Expanding a call while parsing puts sorted nodes where the call was: what the
call expands to can be written out, and what its text reads as is sorted. So the
nonterminals read sorted nodes at any depth, and compiling a unit gives a sorted
program or ends with a documented fault.
-/

namespace GlyphScript

open GlyphScript.Parser

/-! ## Expanding while parsing -/

/-- The texts of expansions are read as sorted nodes. -/
structure Rereading.Safe (t : Rereading) : Prop where
  expression : ∀ c text, safe.holds (t.expression c text) (Node.OfSort .expression)
  statements : ∀ c text, safe.holds (t.statements c text) fun ns => ∀ n ∈ ns, n.OfSort .statement

namespace Rereading

theorem safe_textOf {n : Node} (h : Made n.source) : safe.holds (textOf n) fun _ => True := by
  obtain ⟨text, made⟩ := h
  unfold textOf
  rw [made]
  exact safe.pure trivial

theorem safe_inject (names : List String) : safe.holds (inject names) fun _ => True := by
  refine safe_modify (fun s => ?_) fun s => ?_
  · split <;> rfl
  · split
    · rename_i open'
      exact ⟨le_rfl, rfl, (congrArg List.length open').symm ▸ rfl⟩
    · exact .refl s

theorem safe_expandHere {c : MacroCall} (hc : c.Sorted) :
    safe.holds (expandHere c) fun e => e.node.OfSort .quoted :=
  safe.bind (safe_ofWork (Work.proper_expandCall hc)) fun _ he =>
    safe.bind (safe_inject _) fun _ _ => safe.pure he

namespace Safe

variable {t : Rereading} (ht : t.Safe)

include ht

theorem replaceExpression {c : MacroCall} (hc : c.Sorted) :
    safe.holds (t.replaceExpression c) (Node.OfSort .expression) := by
  refine safe.bind (safe_expandHere hc) fun e he => ?_
  refine safe.bind (safe_ofWork (Work.proper_ofExpansion fun n hn =>
    Expansion.asExpression_sorted he hn)) fun n hn => ?_
  exact safe.bind (safe_textOf hn.source) fun text _ => ht.expression c text

theorem replaceStatement {c : MacroCall} (hc : c.Sorted) (span : Span) :
    safe.holds (t.replaceStatement c span) fun ns => ∀ n ∈ ns, n.OfSort .statement := by
  refine safe.bind (safe_expandHere hc) fun e he => ?_
  have program : (Node.program span (e.asStatements span) []).Sorted :=
    Node.sorted_mk.mpr (.cons (.of_many (Expansion.asStatements_sorted he span)) .nil)
  exact safe.bind (safe_textOf (Node.made_program program)) fun text _ => ht.statements c text

theorem enter {n : Node} (hn : n.Sorted) :
    safe.holds (t.enter n) (Step.Meets n.GivesWay fun _ => True) := by
  have calls {k : Registry} {n : Node} {c : MacroCall} (h : callHere? k n = some c) : n.Calls c :=
    MacroCall.calls_of_node (Option.filter_eq_some_iff.mp h).1
  refine safe.bind safe_get fun s _ => ?_
  split
  · exact safe.pure (.self hn)
  · exact safe.pure (.self hn)
  · dsimp only
    split
    · rename_i c statement
      unfold callStatement? at statement
      split at statement
      · rename_i e head slots
        have he : e.Sorted := hn.of_mem_walk
          (Node.mem_walk_child (s := .one e) (slots ▸ List.mem_cons_self) List.mem_cons_self)
        refine safe.bind (ht.replaceStatement ((calls statement).sorted he) n.span) fun ns hns => ?_
        exact safe.pure (.statements head hns)
      · cases statement
    · rename_i c _ expression
      refine safe.bind (ht.replaceExpression ((calls expression).sorted hn)) fun m hm => ?_
      exact safe.pure (.expression (calls expression).expression (calls expression).plain hm)
    · exact safe.pure trivial

/-- Expanding the calls in a tree puts into its place what may stand there. -/
theorem transform (n : Node) : n.Sorted → safe.holds (n.transformM t.transform ()) n.GivesWay := by
  induction n using Node.induction_on with
  | step span head slots ih =>
    intro hn
    rw [Node.transformM]
    refine safe.bind (ht.enter hn) fun step hstep => ?_
    cases step with
    | done s => exact safe.pure hstep
    | inside _ =>
      refine safe.bind (safe.transformSlotsM
        (R := fun n s => n.Sorted → n.GivesWay s) fun s hs n hm => ?_) fun slots' rel => ?_
      · obtain ⟨f, -, sort⟩ := hn.child hs hm
        exact safe.mono (ih s hs n hm sort.sorted) fun _ h _ => h
      · exact safe.pure (.node (.refl head) rel hn)

theorem completion {n : Node} (hn : n.Sorted) (outer : Nat) :
    safe.holds (t.completion outer n) n.GivesWay := by
  have reset {slot : Slot Node} (gives : n.GivesWay slot) : safe.holds
      (modify (fun s : ParserState => { s with pending := outer }) >>= fun _ => pure slot)
      n.GivesWay :=
    safe.bind (safe_modify (fun _ => rfl) fun _ => ⟨le_rfl, rfl, rfl⟩) fun _ _ => safe.pure gives
  refine safe.bind safe_get fun s _ => ?_
  dsimp only
  split
  · exact safe.bind (safe.pure (.self hn)) fun _ => reset
  · exact safe.bind (ht.transform n hn) fun _ => reset

/-- Completing what has been read puts into its place what may stand there. -/
theorem completed {read : Parser Node} {s : ParserState} {k : Nat} {c : Category}
    (h : Safely { s with pending := 0 } k (Node.OfSort c) (read { s with pending := 0 })) :
    Safely s k (fun slot => ∃ n : Node, n.OfSort c ∧ n.GivesWay slot) (t.completed read s) := by
  rw [completed_run]
  refine Proper.mono (h.andThen fun n s' hs' _ hn => ?_) fun slot s' ⟨moved, made⟩ =>
    ⟨⟨moved.tokens, moved.frames, moved.scopes⟩, made⟩
  exact (ht.completion hn.sorted _ s' hs').mono (fun slot gives => ⟨n, hn, gives⟩) le_rfl

end Safe

end Rereading

/-! ## Nonterminals at any depth -/

section

variable {t : Rereading} (ht : t.Safe) (settings : Settings)

include ht

theorem Nonterminals.safe_upTo (depth : Nat) : (upTo settings t depth).Safe depth := by
  induction depth with
  | zero =>
    refine ⟨fun l s deep => ?_, fun s deep => ?_, fun s deep => ?_⟩ <;>
      exact absurd deep (Nat.not_succ_le_zero _)
  | succ depth ih =>
    refine ⟨fun l s deep hs => ih.readExpression l (Nat.le_of_succ_le_succ deep) hs,
      fun s deep hs => ih.readPattern (Nat.le_of_succ_le_succ deep) hs, fun s deep hs => ?_⟩
    refine (ht.completed (ih.plainStatement settings (s := { s with pending := 0 })
      (Nat.le_of_succ_le_succ deep) hs)).map fun slot gives => ?_
    obtain ⟨n, hn, gives⟩ := gives
    exact gives.ofSort hn.admitted

namespace Parser

omit ht in
/-- What is read between opening and leaving a scope. -/
theorem safe_scoped {α β : Type} {p : Parser α} {f : α → Parser β} {P : α → Prop} {Q : β → Prop}
    {s : ParserState} (hs : s.Sorted)
    (h : Safely { s with scopes := [] :: s.scopes } 0 P (p { s with scopes := [] :: s.scopes }))
    (leaves : ∀ a, P a → ∃ f', f a = closeScope >>= f' ∧ ∀ names, safe.holds (f' names) Q) :
    Safely s 0 Q ((openScope >>= fun _ => p >>= f) s) := by
  refine Proper.bind (p := openScope) (P := fun _ s' => s' = { s with scopes := [] :: s.scopes })
    (.ok hs rfl) ?_
  rintro _ _ - rfl
  refine Proper.bind h fun a s' hs' ⟨moved, made⟩ => ?_
  obtain ⟨f', behind, hf⟩ := leaves a made
  rw [behind]
  refine Proper.bind (closeScope_proper hs' moved.scopes) ?_
  rintro names _ hs'' ⟨scopes, length, rfl⟩
  refine Proper.mono (hf names _ hs'') fun b s'' ⟨moved', made'⟩ => ⟨⟨?_, ?_, ?_⟩, made'⟩
  · exact le_trans moved'.tokens moved.tokens
  · exact moved'.frames.trans moved.frames
  · exact moved'.scopes.trans length

omit ht in
theorem look_atEnd (s : ParserState) : ∃ b, (not <$> atEnd : Parser Bool) s = (.ok b, s) := ⟨_, rfl⟩

omit ht in
/-- Reading statements as long as there are tokens, between opening and leaving a scope. -/
theorem safe_untilEnd {β : Type} {item : Parser (List Node)} {f : List (List Node) → List String → Parser β}
    {Q : β → Prop} {s : ParserState} (hs : s.Sorted)
    (reads : ∀ s', s'.Sorted → s'.rest.length ≤ s.rest.length →
      Safely s' 1 (fun ns => ∀ n ∈ ns, n.OfSort .statement) (item s'))
    (hf : ∀ nss names, (∀ n ∈ nss.flatten, n.OfSort .statement) → safe.holds (f nss names) Q) :
    Safely s 0 Q
      ((openScope >>= fun _ => repeatWhile (not <$> atEnd) item >>= fun nss => closeScope >>= f nss) s) := by
  have loop := repeatUpTo_safely (s := { s with scopes := [] :: s.scopes }) look_atEnd
    s.rest.length (fun s' hs' le _ => reads s' hs' le) _ hs le_rfl (Nat.lt_succ_self _)
  refine safe_scoped hs loop fun nss hnss => ⟨_, rfl, fun names => hf nss names fun n hn => ?_⟩
  obtain ⟨ns, hns, hn⟩ := List.mem_flatten.mp hn
  exact hnss ns hns n hn

theorem safe_statementsWith :
    safe.holds (statementsWith settings t) fun a => ∀ n ∈ a.1, n.OfSort .statement := by
  intro s hs
  have hg := Nonterminals.safe_upTo ht settings (2 * s.rest.length + 2)
  unfold statementsWith
  refine .look rfl (safe_untilEnd hs (fun s' hs' le => hg.statement s' (by omega) hs') ?_)
  exact fun nss names hnss => safe.pure hnss

theorem safe_programWith : safe.holds (programWith settings t) Node.SortedProgram := by
  intro s hs
  have hg := Nonterminals.safe_upTo ht settings (2 * s.rest.length + 2)
  unfold programWith
  refine .look rfl (.look (run_get s) (safe_untilEnd hs (fun s' hs' le => ?_) fun nss names hnss => ?_))
  · have checked := safe_ofWork Work.proper_checkpoint s' hs'
    refine .mono (checked.bind fun _ s'' hs'' moved _ => hg.statement s'' ?_ hs'') (fun _ => id) ?_
    · have := moved.tokens
      omega
    · exact le_rfl
  · exact safe.bind (safe_ofWork (Work.proper_report _)) fun _ _ =>
      safe.pure ⟨Node.sorted_mk.mpr (.cons (.of_many hnss) .nil), rfl⟩

/-- An expression stays one expression when the calls in it are expanded. -/
theorem safe_expressionWith :
    safe.holds (expressionWith settings t) fun a => a.1.OfSort .expression := by
  intro s hs
  have hg := Nonterminals.safe_upTo ht settings (2 * s.rest.length + 2)
  unfold expressionWith
  refine .look rfl (safe_scoped hs (ht.completed (k := 0) (c := .expression) ?_) ?_)
  · refine .mono (.andThen (hg.expression _ _ (Nat.le_succ _) hs) fun n s' hs' _ hn => ?_)
      (fun _ => id) (Nat.zero_le 1)
    refine .look (a := s'.next.isEnd) rfl ?_
    cases s'.next.isEnd with
    | true => exact .pure hs' hn
    | false => exact .look (peek_run s') (.fault (by trivial) hs')
  · rintro slot ⟨n, hn, gives⟩
    cases gives with
    | one sorted stands =>
      exact ⟨_, rfl, fun names => safe.pure ⟨sorted, stands.admits _ hn.admitted⟩⟩
    | statements head =>
      have := hn.admitted
      rw [head] at this
      cases this

end Parser

end

namespace Parser

variable {α : Type} {P : α → Prop}

/-- What is read from other tokens changes the unit only. -/
theorem safe_within {tokens : List Token} {p : Parser α} (h : safe.holds p P) :
    safe.holds (within tokens p) P := by
  intro s hs
  show Safely s 0 P ((p (ParserState.start s.unit tokens)).1,
    { s with unit := (p (ParserState.start s.unit tokens)).2.unit })
  have inner := h (ParserState.start s.unit tokens) hs
  generalize p (ParserState.start s.unit tokens) = res at inner
  cases inner with
  | fault documented kept => exact .fault documented kept
  | ok kept made => exact .ok kept ⟨⟨le_rfl, rfl, rfl⟩, made.2⟩

theorem safe_reread (c : MacroCall) (depth : Nat) (text : String) {p : Parser (α × List String)}
    (h : safe.holds p fun a => P a.1) : safe.holds (reread c depth text p) P := by
  have tokens : Work.proper.holds (do
      let tokens ← Work.tokens text s!"<expansion of {c.name}>"
      modify fun s => { s with gensym := s.gensym.reserve (identifierNames tokens).toList }
      Work.report (.rereading c.name depth)
      return tokens) fun _ => True :=
    Work.proper.bind (Work.proper_tokens _ _) fun _ _ =>
      Work.proper.bind (Work.proper_modify fun _ hu => hu) fun _ _ =>
        Work.proper.bind (Work.proper_report _) fun _ _ => Work.proper.pure trivial
  refine safe.bind (safe_ofWork tokens) fun tokens _ => safe.bind (safe_within h) fun (a, names) ha => ?_
  exact safe.bind (Rereading.safe_inject names) fun _ _ => safe.pure ha

end Parser

/-! ## Compiling -/

theorem Rereading.safe_upTo (settings : Settings) (remaining : Nat) :
    (upTo settings remaining).Safe := by
  induction remaining with
  | zero => exact ⟨fun c text => safe_throw (by trivial), fun c text => safe_throw (by trivial)⟩
  | succ remaining ih =>
    exact ⟨fun c text => safe_reread c _ text (safe_expressionWith ih settings),
      fun c text => safe_reread c _ text (safe_statementsWith ih settings)⟩

/-- Parsing a unit gives a sorted program, or ends with a documented fault. -/
theorem Work.proper_parse {α : Type} {p : Parser α} {P : α → Prop} (h : safe.holds p P)
    (tokens : List Token) : Work.proper.holds (Work.parse p tokens) P := by
  intro u hu
  show Proper _ _ ((p (ParserState.start u tokens)).1, (p (ParserState.start u tokens)).2.unit)
  have inner := h (ParserState.start u tokens) hu
  generalize p (ParserState.start u tokens) = res at inner
  cases inner with
  | fault documented kept => exact .fault documented kept
  | ok kept made => exact .ok kept made.2

theorem Work.proper_unitTokens (settings : Settings) (source : String) :
    Work.proper.holds (Work.unitTokens settings source) fun _ => True :=
  Work.proper.bind Work.proper_checkpoint fun _ _ =>
    Work.proper.bind (Work.proper_tokens _ _) fun _ _ =>
      Work.proper.bind (Work.proper_modify fun _ hu => hu) fun _ _ => Work.proper.pure trivial

theorem Work.proper_unitProgram (settings : Settings) (tokens : List Token) :
    Work.proper.holds (Work.unitProgram settings tokens) Node.SortedProgram := by
  have program := Parser.safe_programWith (Rereading.safe_upTo settings settings.maxParseDepth) settings
  refine Work.proper.bind (Work.proper_parse program tokens) fun n hn => ?_
  refine Work.proper.bind Work.proper_get fun _ _ => Work.proper.bind (Work.proper_report _) fun _ _ => ?_
  split
  · refine Work.proper.bind (Work.proper_expand settings hn) fun m hm => ?_
    exact Work.proper.bind Work.proper_get fun _ _ =>
      Work.proper.bind (Work.proper_report _) fun _ _ => Work.proper.pure hm
  · exact Work.proper.pure hn

/-- Whatever text is compiled and whatever the settings are, the compilation ends with a sorted
program, which can be written out, or with a documented fault. -/
theorem compile_documented (settings : Settings) (source : String) (checks : Option Nat) :
    match (compile settings source checks).result with
    | .ok n => n.SortedProgram ∧ ∃ text, n.source = .ok text
    | .error fault => fault.Documented := by
  have none : (UnitState.ofSettings settings checks).Sorted := List.forall_mem_nil _
  have divided : Proper _ _ ((Work.unitTokens settings source).run _) :=
    Work.proper_unitTokens settings source _ none
  unfold compile
  generalize (Work.unitTokens settings source).run _ = res at divided
  cases divided with
  | fault documented => exact documented
  | @ok tokens u known =>
    have ended : Proper _ _ ((Work.unitProgram settings tokens).run u) :=
      Work.proper_unitProgram settings tokens u known
    dsimp only
    generalize (Work.unitProgram settings tokens).run u = res at ended
    cases ended with
    | fault documented => exact documented
    | @ok n _ _ program =>
      refine ⟨program, ?_⟩
      obtain ⟨span, head, slots⟩ := n
      cases head
      case program => exact Node.made_program program.sorted
      all_goals cases program.program

end GlyphScript
