import GlyphScript.Proofs.Inline.Completion

/-!
# Reading lists no names

Until a statement is complete nothing is listed in the scope around it: what its
bodies install has been listed by their own scopes.
-/

namespace GlyphScript

open GlyphScript.Parser

/-! ## Trees one after another -/

section

variable {settings : Settings} {u v w : UnitState} {ns ms : List Node}

namespace GrownList

theorem start (idle : u.Idle v) (h : GrownList settings v w ns) : GrownList settings u w ns := by
  cases h with
  | nil rest => exact .nil (idle.trans rest)
  | cons first grown rest => exact .cons (idle.trans first) grown rest

theorem append (h : GrownList settings u v ns) (h' : GrownList settings v w ms) :
    GrownList settings u w (ns ++ ms) := by
  induction ns generalizing u with
  | nil =>
    cases h with
    | nil idle => exact h'.start idle
  | cons n ns ih =>
    cases h with
    | cons first grown rest => exact .cons first grown (ih rest)

theorem stop (h : GrownList settings u v ns) (idle : v.Idle w) : GrownList settings u w ns := by
  have := h.append (.nil idle)
  rwa [List.append_nil] at this

theorem of_append (h : GrownList settings u w (ns ++ ms)) :
    ∃ v, GrownList settings u v ns ∧ GrownList settings v w ms := by
  induction ns generalizing u with
  | nil => exact ⟨u, .nil (.refl u), h⟩
  | cons n ns ih =>
    cases h with
    | cons first grown rest =>
      obtain ⟨v, others, last⟩ := ih rest
      exact ⟨v, .cons first grown others, last⟩

/-- Trees in between are read in between. -/
theorem mem (h : GrownList settings u v ns) {n : Node} (hn : n ∈ ns) :
    ∃ a b, u.Before a ∧ n.Grown settings a b ∧ b.Before v := by
  induction ns generalizing u with
  | nil => exact absurd hn List.not_mem_nil
  | cons m ns ih =>
    cases h with
    | cons first grown rest =>
      rcases List.mem_cons.mp hn with rfl | hn
      · exact ⟨_, _, first.before, grown, rest.before⟩
      · obtain ⟨a, b, start, found, stop⟩ := ih rest hn
        exact ⟨a, b, first.before.trans (grown.before.trans start), found, stop⟩

theorem single {n : Node} (h : n.Grown settings u v) : GrownList settings u v [n] :=
  .cons (.refl u) h (.nil (.refl v))

/-- The parts of a node other than a body or a name have been read, and so has the node. -/
theorem node {span : Span} {head : Head} {slots : List (Slot Node)} (plain : head.isScope = false)
    (composite : ∀ x, head ≠ .identifier x) (h : GrownList settings u v (slots.flatMap Slot.toList)) :
    GrownList settings u v [.mk span head slots] :=
  single (.node plain (fun x e => absurd e (composite x)) h)

/-- No call is expanded to read a name. -/
theorem of_identifier {n : Node} {x : String} (h : GrownList settings u v (n :: ns))
    (name : n.head = .identifier x) : GrownList settings u v ns := by
  cases h with
  | cons first grown rest =>
    cases grown with
    | node plain alone below =>
      rw [alone x name] at below
      cases below with
      | nil idle => exact rest.start (first.trans idle)
    | block => cases name

end GrownList

theorem grown_leaf {span : Span} {head : Head} (plain : head.isScope = false) :
    (Node.mk span head []).Grown settings u u :=
  .node plain (fun _ _ => rfl) (.nil (.refl u))

end

/-! ## Parsers that only read -/

/-- When the trees in `before` have been read, the parser lists no names, and after it those in
`nodes` have been read. -/
def Accrues {α : Type} (settings : Settings) (before : List Node) (x : Parser α)
    (nodes : α → List Node) : Prop :=
  ∀ u v, GrownList settings u v before →
    Installs v x fun w names a => names = [] ∧ GrownList settings u w (nodes a)

namespace Accrues

variable {α β : Type} {settings : Settings} {before : List Node} {x : Parser α}
variable {nodes : α → List Node} {nodes' : β → List Node}

theorem bind {f : α → Parser β} (hx : Accrues settings before x nodes)
    (hf : ∀ a, Accrues settings (nodes a) (f a) nodes') :
    Accrues settings before (x >>= f) nodes' := by
  intro u v grown
  refine (hx u v grown).bind fun a w names ha => ?_
  rw [ha.1]
  exact hf a u w ha.2

theorem pure {a : α} (h : ∀ u v, GrownList settings u v before → GrownList settings u v (nodes a)) :
    Accrues settings before (Pure.pure a) nodes :=
  fun u v grown => .pure ⟨rfl, h u v grown⟩

theorem throw (fault : Fault) : Accrues settings before (throw fault : Parser α) nodes :=
  fun _ _ _ => .throw fault

theorem failExpecting (e : Expected) :
    Accrues settings before (failExpecting e : Parser α) nodes := by
  intro u v _ s a s' run
  rw [failExpecting_run] at run
  cases run

theorem of_get {f : ParserState → Parser α} (h : ∀ s, Accrues settings before (f s) nodes) :
    Accrues settings before (get >>= f) nodes :=
  fun u v grown => .of_get fun s => h s u v grown

theorem ite {b : Prop} [Decidable b] {y : Parser α} (hx : Accrues settings before x nodes)
    (hy : Accrues settings before y nodes) :
    Accrues settings before (if b then x else y) nodes := by
  split
  · exact hx
  · exact hy

theorem map {f : α → β} (hx : Accrues settings before x nodes)
    (h : ∀ a u v, GrownList settings u v (nodes a) → GrownList settings u v (nodes' (f a))) :
    Accrues settings before (f <$> x) nodes' := by
  rw [map_eq_pure_bind]
  exact hx.bind fun a => .pure (h a)

theorem of_map {f : α → β} (h : Accrues settings before (f <$> x) nodes') :
    Accrues settings before x fun a => nodes' (f a) :=
  fun u v grown => (h u v grown).of_map

/-- A parser that reads none. -/
theorem of_unlisting (hx : Unlisting x) : Accrues settings before x fun _ => before :=
  fun _ v grown => (hx v).mono fun _ _ _ none => ⟨none.1, grown.stop none.2⟩

theorem quiet_bind {f : α → Parser β} (hx : Unlisting x)
    (hf : ∀ a, Accrues settings before (f a) nodes') : Accrues settings before (x >>= f) nodes' :=
  (of_unlisting hx).bind hf

/-- More trees may have been read before. -/
theorem append (hx : Accrues settings [] x nodes) :
    Accrues settings before x fun a => before ++ nodes a :=
  fun _ v grown => (hx v v (.nil (.refl v))).mono fun _ _ _ found => ⟨found.1, grown.append found.2⟩

theorem repeatUpTo {test : Parser Bool} (ht : Unlisting test) (hx : Accrues settings [] x nodes)
    (fuel : Nat) : Accrues settings [] (repeatUpTo test x fuel) fun as => as.flatMap nodes := by
  induction fuel with
  | zero => exact .throw _
  | succ fuel ih =>
    rw [Parser.repeatUpTo_succ]
    refine quiet_bind ht fun b => .ite ?_ (.pure fun _ _ none => none)
    refine hx.bind fun a => (append ih).bind fun as => .pure fun u v grown => ?_
    rwa [List.flatMap_cons]

theorem repeatWhile {test : Parser Bool} (ht : Unlisting test) (hx : Accrues settings [] x nodes) :
    Accrues settings [] (repeatWhile test x) fun as => as.flatMap nodes :=
  .of_get fun _ => repeatUpTo ht hx _

end Accrues

/-! ## Phrases -/

namespace Phrase

/-- The nodes that are made are neither bodies nor names nor conditionals with further arms, and
statements are read in bodies only. -/
def Flat : Phrase → Prop
  | give f => f.nodes = []
  | part n => n ≠ .statement ∧ n ≠ .statements
  | seq a b | either _ a b | ahead a b => a.Flat ∧ b.Flat
  | star _ a | gather a | list a | demand a _ | construct _ a => a.Flat
  | node head a => (∀ x, (head x).isScope = false ∧ ∀ y, head x ≠ .identifier y) ∧ a.Flat
  | chain _ => False
  | _ => True

attribute [local simp] Flat Head.isScope

theorem flat_operand {r : Reserved} {a : Phrase} (h : operand? r = some a) : a.Flat := by
  cases IsOperand.of h <;> simp [group, tupleLiteral, tensorLiteral, comprehension,
    comprehensionClause, lambda, quote, unquote, markedCall, negation, awaiting, seqs, arguments,
    items, expression, manyOf, someOf]

theorem flat_pattern {r : Reserved} {a : Phrase} (h : pattern? r = some a) : a.Flat := by
  cases IsComposite.of h <;> simp [composite, seqs, items]

theorem flat_tail {r : Reserved} {m : Level} {a : Phrase} (h : tail? r = some (m, a)) :
    a.Flat := by
  cases IsTail.of h <;> simp [arguments, items, seqs, expression]

theorem flat_macroDef (settings : Settings) : (macroDef settings).Flat := by
  simp [macroDef, macroHead, macroBody, macroRule, ruleTemplate, quote, phaseMark,
    hygieneMark, oneOf, parameters, items, seqs, expression, manyOf, Found.nodes,
    Found.nothing, Found.ofOption, Found.ofNodes, Slot.ofOption, Slot.toList]

theorem flat_expressionStmt : expressionStmt.Flat := by
  simp [expressionStmt, expression]

theorem flat_statement {settings : Settings} {r : Reserved} {a : Phrase}
    (h : statement? settings r = some a) (hr : r ≠ .ifOpen) : a.Flat := by
  by_cases defines : r = .macroOpen
  · subst defines
    cases h
    exact flat_macroDef settings
  · cases IsStatement.of h <;> simp [assignment, importDecl, modulePath, importAlias, returnStmt,
      yieldStmt, optionalValue, breakStmt, continueStmt, memoryStmt, deviceStmt, blockStmt,
      exceptClause, tryStmt, caseClause, matchStmt, functionDef, asyncFunctionDef, classDef,
      loopStmt, loopHeader, parallelStmt, gpuStmt, tensorDecl, neuralNet, streamStmt, arguments,
      optionalArguments, optionalNode, parameters, items, seqs, expression, manyOf, someOf,
      Found.nodes, Found.nothing, Found.ofOption, Slot.ofOption, Slot.toList]
      at hr defines ⊢

end Phrase

/-! ## Statements -/

section

variable {settings : Settings} {u : UnitState}

/-- A statement that has been read, the calls in it expanded, and the names that these install. -/
def Settles (settings : Settings) (u v : UnitState) (ns : List Node) (names : List String) : Prop :=
  ∃ u' w n s, u.Idle u' ∧ GrownList settings u' w [n] ∧ n.Inlined settings u' w v false s names ∧
    ns = s.toList

theorem installs_statements {test : Parser Bool} {x : Parser (List Node)} (ht : Unlisting test)
    (hx : ∀ u, Installs u x fun v names ns => Settles settings u v ns names) (fuel : Nat) :
    Installs u (repeatUpTo test x fuel) fun v names nss =>
      Completed settings u v nss.flatten names := by
  induction fuel generalizing u with
  | zero => exact .throw _
  | succ fuel ih =>
    rw [Parser.repeatUpTo_succ]
    refine ht.bind fun b u₁ idle => ?_
    cases b with
    | false => exact .pure (.nil idle)
    | true =>
      refine (hx u₁).bind fun ns v names settled => ih.bind fun nss w more others => .pure ?_
      obtain ⟨u', w', n, s, first, grown, done, rfl⟩ := settled
      rw [List.append_nil]
      exact .cons (idle.trans first) grown done others

/-- What is read has no call left of a macro that was known before. -/
theorem Installs.leaves {α : Type} {x : Parser α} {post : UnitState → List String → α → Prop}
    {uses : α → List MacroUse} (hx : Installs u x post)
    (tracked : Tracks false (fun _ => False) x fun us a => MacroUse.Within (uses a) us) :
    Installs u x fun v names a => post v names a ∧
      (v.SinglePhase → ∀ name, u.Expands name → .called name ∉ uses a) := by
  intro s a s' run start recorded
  obtain ⟨kept, names, charged, ha⟩ := hx s a s' run start recorded
  refine ⟨kept, names, charged, ha, fun single name known called => ?_⟩
  obtain ⟨-, -, made⟩ := tracked s a s' run (start ▸ recorded.faithful) fun _ _ h => h.elim
  obtain ⟨us, leads, found⟩ := made single
  exact (leads.settled (leads.level rfl)).2 name (found.subset _ called) (start ▸ known)

end

theorem Completed.start {settings : Settings} {u v w : UnitState} {ns : List Node}
    {names : List String} (h : Completed settings v w ns names) (idle : u.Idle v) :
    Completed settings u w ns names := by
  cases h with
  | nil rest => exact .nil (idle.trans rest)
  | cons first grown done rest => exact .cons (idle.trans first) grown done rest

/-! ## Productions -/

/-- The parsers for expressions and patterns list no names, and the parser for statements lists
those that the calls install that are expanded in the statement. -/
structure Nonterminals.Accruing (settings : Settings) (g : Nonterminals) : Prop where
  tracked : g.Tracked
  expression : ∀ l, Accrues settings [] (g.expression l) fun n => [n]
  statement : ∀ u, Installs u g.statement fun v names ns => Settles settings u v ns names
  pattern : Accrues settings [] g.pattern fun n => [n]

namespace Nonterminals.Accruing

variable {settings : Settings} {g : Nonterminals} (hg : g.Accruing settings)

include hg

theorem wellFormedPattern : Accrues settings [] g.wellFormedPattern fun n => [n] := by
  refine hg.pattern.bind fun n => ?_
  split
  · exact .throw _
  · exact .pure fun _ _ grown => grown

theorem body : Accrues settings [] g.body fun n => [n] := by
  refine .quiet_bind (unlisting_openConstruct _) fun start u v before => ?_
  have statements : Installs v (repeatWhile (not <$> atBodyEnd) g.statement) fun w names nss =>
      Completed settings v w nss.flatten names :=
    .of_get fun _ => installs_statements unlisting_atBodyEnd hg.statement _
  have inner : Installs v (repeatWhile (not <$> atBodyEnd) g.statement >>= fun nss =>
      closeConstruct >>= fun _ => pure nss) fun w names nss => ∃ w',
        Completed settings v w' nss.flatten names ∧ w'.Idle w ∧ (w'.SinglePhase → ∀ x,
          v.Expands x → .called x ∉ nss.flatten.flatMap Node.uses) := by
    refine (statements.leaves (hg.tracked.statements Tracked.tracks_atBodyEnd)).bind ?_
    intro nss w names done
    refine unlisting_closeConstruct.bind fun _ w' idle => .pure ?_
    rw [List.append_nil]
    exact ⟨w, done.1, idle, done.2⟩
  have scope := installs_scope (q := fun w names n => names = [] ∧ GrownList settings u w [n])
    (k := fun nss injected => spanFrom start >>= fun span =>
      pure (Node.block span nss.flatten injected)) inner fun nss w names done => by
    obtain ⟨w', completed, stop, left⟩ := done
    refine (unlisting_spanFrom start).bind fun span w₁ idle => .pure ⟨rfl, ?_⟩
    refine before.append (.single ?_)
    exact .block (.refl v) completed (stop.trans idle) left
  simpa only [bind_assoc, pure_bind] using scope

theorem part {n : Nonterminal} (hn : n ≠ .statement ∧ n ≠ .statements) :
    Accrues settings [] (n.read g) Found.nodes := by
  have one {x : Parser Node} (hx : Accrues settings [] x fun n => [n]) :
      Accrues settings [] (Found.ofNode <$> x) Found.nodes := hx.map fun _ _ _ grown => grown
  cases n with
  | expression l => exact one (hg.expression l)
  | pattern => exact one hg.pattern
  | binding => exact one hg.wellFormedPattern
  | body => exact one hg.body
  | statement => exact absurd rfl hn.1
  | statements => exact absurd rfl hn.2

omit hg in
/-- Something is read, but no trees are found. -/
theorem accrues_bare {α : Type} {x : Parser α} {f : α → Found} (hx : Unlisting x)
    (bare : ∀ a, (f a).nodes = []) :
    Accrues settings [] (x >>= fun a => pure (f a)) Found.nodes :=
  .quiet_bind hx fun a => .pure fun u v none => by rwa [bare]

theorem read {a : Phrase} (flat : a.Flat) : Accrues settings [] (a.read g) Found.nodes := by
  induction a with
  | give f => exact .pure fun u v none => by rwa [show f.nodes = [] from flat]
  | place => exact accrues_bare unlisting_peek fun _ => rfl
  | mark r =>
    rw [Phrase.read, discard_bind]
    exact accrues_bare (unlisting_consume r) fun _ => rfl
  | kept r =>
    rw [Phrase.read, discard_bind]
    exact accrues_bare (unlisting_consume r) fun _ => rfl
  | spelled r => exact accrues_bare (unlisting_consume r) fun _ => rfl
  | name what => exact accrues_bare (unlisting_consumeName what) fun _ => rfl
  | part n => exact hg.part flat
  | fail what => exact .failExpecting _
  | seq a b iha ihb =>
    refine (iha flat.1).bind fun f => (Accrues.append (ihb flat.2)).bind fun f' => ?_
    exact .pure fun u v grown => by rwa [Found.nodes_append]
  | either r a b iha ihb =>
    exact .quiet_bind (unlisting_check r) fun c => .ite (iha flat.1) (ihb flat.2)
  | ahead a b iha ihb =>
    exact .quiet_bind unlisting_checkBinding fun c => .ite (iha flat.1) (ihb flat.2)
  | star r a ih =>
    refine (Accrues.repeatWhile (unlisting_check r) (ih flat)).map fun fs u v grown => ?_
    rwa [Found.nodes_join]
  | gather a ih => exact (ih flat).map fun _ _ _ grown => grown
  | list a ih =>
    refine (ih flat).map fun f u v grown => ?_
    rwa [Found.nodes_listed]
  | demand a what ih =>
    refine (ih flat).bind fun f => ?_
    split
    · have fails : Accrues settings f.nodes (failExpecting (.phrase what) : Parser Unit)
          fun _ => f.nodes := .failExpecting _
      exact fails.bind fun _ => .pure fun _ _ grown => grown
    · exact .pure fun _ _ grown => grown
  | node head a ih =>
    rw [Phrase.read_node]
    refine .quiet_bind unlisting_peek fun start => (ih flat.2).bind fun f => ?_
    refine .quiet_bind (unlisting_spanFrom start) fun span => ?_
    refine .quiet_bind (unlisting_announce _) fun _ => .pure fun u v grown => ?_
    exact .node (flat.1 _).1 (flat.1 _).2 grown
  | chain a ih => exact flat.elim
  | construct c a ih =>
    rw [Phrase.read, discard_bind]
    refine .quiet_bind (unlisting_openConstruct c) fun _ => (ih flat).bind fun f => ?_
    exact .quiet_bind unlisting_closeConstruct fun _ => .pure fun _ _ grown => grown

/-! ## Conditionals -/

omit hg in
theorem grown_ifStmt {u v w : UnitState} {span : Span} {condition body : Node} {orelse : Option Node}
    (arm : GrownList settings u v [condition, body])
    (rest : GrownList settings v w orelse.toList) :
    GrownList settings u w [Node.ifStmt span condition body orelse] := by
  refine .node rfl (fun _ => Head.noConfusion) ?_
  have all := arm.append (rest.append (.nil (.refl w)))
  rwa [← Slot.toList_ofOption] at all

omit hg in
/-- The further arms of a conditional are nested in one another. -/
theorem grown_nestArms {u v : UnitState} {stop : Location} {otherwise : Option Node}
    {arms : List (Token × Node × Node)}
    (h : GrownList settings u v (arms.flatMap (fun a => [a.2.1, a.2.2]) ++ otherwise.toList)) :
    GrownList settings u v (nestArms stop otherwise arms).toList := by
  induction arms generalizing u with
  | nil => exact h
  | cons arm arms ih =>
    obtain ⟨start, condition, body⟩ := arm
    have h : GrownList settings u v ([condition, body] ++
      (arms.flatMap (fun a => [a.2.1, a.2.2]) ++ otherwise.toList)) := h
    obtain ⟨w, first, rest⟩ := h.of_append
    exact grown_ifStmt first (ih rest)

theorem arm (start : Token) : Accrues settings [] (g.arm start) fun a => [a.2.1, a.2.2] :=
  (hg.expression _).bind fun _ => (Accrues.append hg.body).bind fun _ => .pure fun _ _ grown => grown

theorem ifStmt : Accrues settings [] g.ifStmt fun n => [n] := by
  refine .quiet_bind (unlisting_openConstruct _) fun start => (hg.arm start).bind fun a => ?_
  obtain ⟨_, condition, body⟩ := a
  have arms : Accrues settings [] (repeatWhile (check .elifArm) (advance >>= g.arm))
      fun arms => arms.flatMap fun a => [a.2.1, a.2.2] :=
    .repeatWhile (unlisting_check _) (.quiet_bind unlisting_advance hg.arm)
  refine arms.append.bind fun arms => ?_
  have close (otherwise : Option Node) : Accrues settings
      ([condition, body] ++ arms.flatMap (fun a => [a.2.1, a.2.2]) ++ otherwise.toList)
      (closeConstruct >>= fun _ => spanFrom start >>= fun span =>
        pure (Node.ifStmt span condition body (nestArms span.stop otherwise arms)))
      fun n => [n] := by
    refine .quiet_bind unlisting_closeConstruct fun _ => .quiet_bind (unlisting_spanFrom start) ?_
    refine fun span => .pure fun u v grown => ?_
    rw [List.append_assoc] at grown
    obtain ⟨w, first, rest⟩ := grown.of_append
    exact grown_ifStmt first (grown_nestArms rest)
  refine .quiet_bind (unlisting_accept _) fun c => ?_
  cases c with
  | false =>
    have none : Accrues settings [] (pure none) Option.toList := .pure fun _ _ grown => grown
    exact none.append.bind close
  | true =>
    have body : Accrues settings [] (some <$> g.body) Option.toList :=
      hg.body.map fun _ _ _ grown => grown
    exact body.append.bind close

/-! ## Expressions, patterns and statements -/

omit hg in
theorem grown_extended {u v : UnitState} {known : String → Bool} {span : Span} {m : Level}
    {left : Node} {f : Found} (h : GrownList settings u v (left :: f.nodes)) :
    GrownList settings u v [Node.extended known span m left f] := by
  unfold Node.extended
  split
  · exact .node rfl (fun _ => Head.noConfusion) h
  · split
    · rename_i name
      split
      · exact .node rfl (fun _ => Head.noConfusion) (h.of_identifier name)
      · exact .node rfl (fun _ => Head.noConfusion) h
    · exact .node rfl (fun _ => Head.noConfusion) h
  · exact .node rfl (fun _ => Head.noConfusion) h

theorem tail {r : Reserved} {m : Level} {a : Phrase} (h : Phrase.tail? r = some (m, a))
    (left : Node) :
    Accrues settings [left] (peek >>= fun start => a.read g >>= extend m left start)
      fun n => [n] := by
  refine .quiet_bind unlisting_peek fun start => ?_
  refine (hg.read (Phrase.flat_tail h)).append.bind fun f => ?_
  have stop : Unlisting (tailStop m start f) :=
    .ite (unlisting_spanFrom start).map (.pure _)
  refine .quiet_bind stop fun stop => .of_get fun s => .quiet_bind (unlisting_announce _) fun _ => ?_
  exact .pure fun u v grown => grown_extended grown

theorem extendUpTo (l : Level) (fuel : Nat) (left : Node) :
    Accrues settings [left] (g.extendUpTo l fuel left) fun n => [n] := by
  induction fuel generalizing left with
  | zero => exact .throw _
  | succ fuel ih =>
    have stay : Accrues settings [left] (pure left) fun n => [n] := .pure fun _ _ grown => grown
    intro u v before s n s' run
    rw [Phrase.extendUpTo_run] at run
    split at run
    · rename_i m a h
      obtain ⟨r, -, ha⟩ := Option.bind_eq_some_iff.mp h
      split at run
      · exact ((hg.tail ha left).bind ih) u v before s n s' run
      · exact stay u v before s n s' run
    · exact stay u v before s n s' run

omit hg in
theorem grown_atom {u : UnitState} {t : Token} {n : Node} (h : atom? t = some n) :
    n.Grown settings u u := by
  unfold atom? at h
  split at h <;> cases h <;> exact grown_leaf rfl

omit hg in
theorem grown_atomicPattern {u : UnitState} {t : Token} {n : Node} (h : atomicPattern? t = some n) :
    n.Grown settings u u := by
  unfold atomicPattern? at h
  split at h <;> cases h <;> exact grown_leaf rfl

omit hg in
/-- A token that is a node. -/
theorem accrues_passed {n : Node} (h : ∀ u, n.Grown settings u u) :
    Accrues settings [] (fun s => (.ok (Found.ofNode n), passed s) : Parser Found) Found.nodes := by
  intro u v none s f s' run start recorded
  cases run
  subst start
  exact ⟨recorded, [], (charge_nil _).symm, rfl, none.append (.single (h _))⟩

omit hg in
theorem of_ofNode {x : Parser Node} (h : Accrues settings [] (Found.ofNode <$> x) Found.nodes) :
    Accrues settings [] x fun n => [n] := h.of_map

theorem operand : Accrues settings [] g.operand fun n => [n] := by
  refine of_ofNode fun u v none s f s' run => ?_
  rw [Phrase.operand_run] at run
  split at run
  · rename_i n _ h
    exact accrues_passed (fun _ => grown_atom h) u v none s f s' run
  · rename_i a h
    obtain ⟨r, -, ha⟩ := Option.bind_eq_some_iff.mp h
    exact hg.read (Phrase.flat_operand ha) u v none s f s' run
  · cases run

theorem readExpression (l : Level) : Accrues settings [] (g.readExpression l) fun n => [n] :=
  hg.operand.bind fun left => .of_get fun _ => hg.extendUpTo l _ left

theorem readPattern : Accrues settings [] g.readPattern fun n => [n] := by
  refine of_ofNode fun u v none s f s' run => ?_
  rw [Phrase.pattern_run] at run
  split at run
  · rename_i n _ h
    exact accrues_passed (fun _ => grown_atomicPattern h) u v none s f s' run
  · rename_i a h
    obtain ⟨r, -, ha⟩ := Option.bind_eq_some_iff.mp h
    exact hg.read (Phrase.flat_pattern ha) u v none s f s' run
  · cases run

theorem plainStatement : Accrues settings [] (g.plainStatement settings) fun n => [n] := by
  refine of_ofNode ?_
  rw [Phrase.plainStatement_eq]
  refine .quiet_bind unlisting_peek fun t => ?_
  split
  · rename_i a h
    obtain ⟨r, -, ha⟩ := Option.bind_eq_some_iff.mp h
    by_cases conditional : r = .ifOpen
    · subst conditional
      cases ha
      rw [Phrase.read_ifStmt]
      exact hg.ifStmt.map fun _ _ _ grown => grown
    · exact hg.read (Phrase.flat_statement ha conditional)
  · exact hg.read Phrase.flat_expressionStmt

end Nonterminals.Accruing

end GlyphScript
