import GlyphScript.Proofs.Inline.Scopes

/-!
# Programs and the names installed in their scopes

When a statement is complete, the calls in it are expanded one after another, and
the scope around the statement lists what they install. Calls in a body of the
statement have been expanded before, unless their macros became known later.
-/

namespace GlyphScript

open GlyphScript.Parser

/-! ## Nodes that are gone through -/

/-- The call that a node is counts among the uses of the node. -/
theorem Node.called_mem_uses {n : Node} {c : MacroCall} (h : MacroCall.ofNode? n = some c) :
    .called c.name ∈ n.uses := by
  obtain ⟨span, head, slots⟩ := n
  unfold MacroCall.ofNode? at h
  split at h
  · rename_i name args headed slotted
    cases h
    rw [show head = .macroCall name false from headed, show slots = [args] from slotted, uses_mk]
    exact List.mem_append_left _ (List.mem_singleton_self _)
  · cases h

/-- What is known of a tree in the unit `u` when the calls in it are about to be expanded: it has
been read since the unit was `base`, or it stands in a body that has been, and no macro is called
in it that was known by then. -/
structure Node.Ready (settings : Settings) (base u : UnitState) (inside : Bool) (n : Node) :
    Prop where
  grown : inside = false → ∃ a b, base.Before a ∧ n.Grown settings a b ∧ b.Before u
  spent : inside = true → u.SinglePhase → ∀ x, .called x ∈ n.uses → ¬ base.Expands x

namespace Node.Ready

variable {settings : Settings} {base u v : UnitState} {inside : Bool}

theorem later {n : Node} (h : n.Ready settings base u inside) (after : u.Before v) :
    n.Ready settings base v inside where
  grown outside := by
    obtain ⟨a, b, start, grown, stop⟩ := h.grown outside
    exact ⟨a, b, start, grown, stop.trans after⟩
  spent i single := h.spent i (single.before after.registrations)

/-- What is below a node that is no template is as ready as the node. -/
theorem child {span : Span} {head : Head} {slots : List (Slot Node)}
    (h : (Node.mk span head slots).Ready settings base u inside) (plain : head.isTemplate = false)
    {s : Slot Node} (hs : s ∈ slots) {n : Node} (hn : n ∈ s.toList) :
    n.Ready settings base u (inside || head.isScope) where
  grown outside := by
    obtain ⟨out, open'⟩ := Bool.or_eq_false_iff.mp outside
    obtain ⟨a, b, start, grown, stop⟩ := h.grown out
    cases grown with
    | node _ _ below =>
      obtain ⟨a', b', start', grown, stop'⟩ := below.mem (List.mem_flatMap.mpr ⟨s, hs, hn⟩)
      exact ⟨a', b', start.trans start', grown, stop'.trans stop⟩
    | block => cases open'
  spent within single x called known := by
    cases inside with
    | true =>
      refine h.spent rfl single x ?_ known
      rw [uses_mk, plain]
      refine List.mem_append_right _ (List.mem_flatMap.mpr ⟨s, hs, ?_⟩)
      exact List.mem_flatMap.mpr ⟨n, hn, called⟩
    | false =>
      obtain ⟨a, b, start, grown, stop⟩ := h.grown rfl
      cases grown with
      | node closed => rw [closed] at within; cases within
      | block first done last left =>
        cases List.mem_singleton.mp hs
        refine left (single.before (last.before.trans stop).registrations) x ?_
          (List.mem_flatMap.mpr ⟨n, hn, called⟩)
        exact first.before.expands (start.expands known)

end Node.Ready

/-! ## Replacing calls -/

namespace Rereading

/-- What the texts of expansions read as, and the names that are installed around them. -/
structure Listing (settings : Settings) (t : Rereading) : Prop where
  tracked : t.Tracked
  eq_upTo : ∃ remaining, t = upTo settings remaining
  expression : ∀ c text u, Installs u (t.expression c text) fun v names m =>
    ∃ u' w n, u.Idle u' ∧ GrownList settings u' w [n] ∧
      n.Inlined settings u' w v false (.one m) names
  statements : ∀ c text u, Installs u (t.statements c text) fun v names ns =>
    Completed settings u v ns names

theorem textOf_ok {n : Node} {text : String} {s s' : ParserState}
    (run : textOf n s = (.ok text, s')) : n.source = .ok text ∧ s' = s := by
  unfold textOf at run
  rcases made : n.source with e | t
  · rw [made] at run
    cases run
  · rw [made] at run
    cases run
    exact ⟨rfl, rfl⟩

end Rereading

/-- An expression that is the whole input. -/
def Nonterminals.wholeExpression (g : Nonterminals) : Parser Node := do
  let node ← g.anyExpression
  unless ← atEnd do throw (.parse (.expectedToken (.phrase "end of input") (← peek)))
  return node

theorem Nonterminals.Accruing.wholeExpression {settings : Settings} {g : Nonterminals}
    (hg : g.Accruing settings) : Accrues settings [] g.wholeExpression fun n => [n] := by
  refine (hg.expression _).bind fun n => .quiet_bind unlisting_atEnd fun ended => ?_
  have fails (fault : Fault) : Accrues settings [n] (throw fault : Parser Unit) fun _ => [n] :=
    .throw fault
  split
  · exact .pure fun _ _ grown => grown
  · exact .quiet_bind unlisting_peek fun _ => (fails _).bind fun _ => .pure fun _ _ grown => grown

namespace Rereading

/-- The one node in a slot. -/
def onlyNode : Slot Node → Parser Node
  | .one n => pure n
  | _ => throw .outOfReach

theorem ofExpansion_ok {α : Type} {r : Except ExpansionFault α} {a : α} {s s' : ParserState}
    (run : ofWork (Work.ofExpansion r) s = (.ok a, s')) : r = .ok a ∧ s' = s := by
  cases r with
  | error fault => cases run
  | ok b =>
    cases run
    exact ⟨rfl, rfl⟩

/-- The names that are recorded count as others that come to the same. -/
theorem installs_inject {u : UnitState} {names listed : List String}
    (same : ∀ scope, addNames scope names = listNames scope listed) :
    Installs u (inject names) fun v more _ => v = u ∧ more = listed := by
  intro s a s' run start recorded
  rw [inject, run_modify] at run
  cases scopes : s.scopes with
  | nil =>
    rw [scopes] at run
    cases run
    exact ⟨start ▸ recorded, listed, scopes, start, rfl⟩
  | cons scope outer =>
    rw [scopes] at run
    cases run
    exact ⟨start ▸ recorded, listed, congrArg (· :: outer) (same scope), start, rfl⟩

/-- What a call that is expanded installs is listed in the innermost scope. -/
theorem installs_expandHere {u : UnitState} {c : MacroCall}
    (here : isExpandedHere u.registry c.name = true) :
    Installs u (expandHere c) fun v names e => names = e.injected ∧ c.Replaced u e v := by
  have expands : Installs u (ofWork (Work.expandCall c)) fun v names e =>
      names = [] ∧ c.Replaced u e v := by
    intro s e s' run start recorded
    subst start
    have result : (Work.expandCall c s.unit).1 = .ok e := congrArg Prod.fst run
    have ran : Work.expandCall c s.unit = (.ok e, (Work.expandCall c s.unit).2) :=
      Prod.ext result rfl
    obtain rfl : { s with unit := (Work.expandCall c s.unit).2 } = s' := congrArg Prod.snd run
    obtain ⟨d, -, found, -, -, names, registry, -⟩ := Work.expandCall_ok ran
    have kept := recorded.of_same registry (Work.RegistersNothing.expandCall c s.unit)
    refine ⟨kept, [], (charge_nil _).symm, rfl, ran, recorded.registered _ here, d, found, ?_, names⟩
    unfold isExpandedHere at here
    rw [found] at here
    exact of_decide_eq_true here
  refine expands.bind fun e v names replaced => ?_
  rw [replaced.1]
  have once (scope : List String) : addNames scope e.injected = listNames scope e.injected :=
    addNames_eq_listNames replaced.2.nodup
  refine (installs_inject once).bind fun _ w more injected => .pure ?_
  rw [injected.1, injected.2]
  exact ⟨List.append_nil _, replaced.2⟩

namespace Listing

variable {settings : Settings} {t : Rereading} (ht : t.Listing settings)

include ht

/-! ## Replacing calls -/

variable {base u : UnitState} {inside : Bool}

theorem replaceStatement {c : MacroCall} {e : Node} {span : Span}
    (call : callHere? u.registry e = some c)
    (spent : inside = true → u.SinglePhase → ¬ base.Expands c.name) :
    Installs u (t.replaceStatement c span) fun v names ns =>
      Node.Inlined settings base u v inside (.mk span .expressionStmt [.one e]) (.many ns) names := by
  obtain ⟨made, here⟩ := Option.filter_eq_some_iff.mp call
  obtain ⟨remaining, rfl⟩ := ht.eq_upTo
  intro s ns s' run start recorded
  obtain ⟨x, s₁, expanded, run₁⟩ := bind_ok.mp run
  obtain ⟨kept, names, charged, rfl, replaced⟩ :=
    installs_expandHere here s x s₁ expanded start recorded
  obtain ⟨text, s₂, printed, reread⟩ := bind_ok.mp run₁
  obtain ⟨source, rfl⟩ := textOf_ok printed
  obtain ⟨kept', more, charged', completed⟩ :=
    ht.statements c text s₂.unit s₂ ns s' reread rfl kept
  refine ⟨kept', x.injected ++ more, ?_, .statement made replaced spent source reread completed⟩
  rw [charge_append, ← charged, charged']

theorem replaceExpression {c : MacroCall} {n : Node} (call : callHere? u.registry n = some c)
    (spent : inside = true → u.SinglePhase → ¬ base.Expands c.name) :
    Installs u (t.replaceExpression c) fun v names m =>
      n.Inlined settings base u v inside (.one m) names := by
  obtain ⟨made, here⟩ := Option.filter_eq_some_iff.mp call
  obtain ⟨remaining, rfl⟩ := ht.eq_upTo
  intro s m s' run start recorded
  obtain ⟨x, s₁, expanded, run₁⟩ := bind_ok.mp run
  obtain ⟨kept, names, charged, rfl, replaced⟩ :=
    installs_expandHere here s x s₁ expanded start recorded
  obtain ⟨k, s₂, found, run₂⟩ := bind_ok.mp run₁
  obtain ⟨stands, rfl⟩ := ofExpansion_ok found
  obtain ⟨text, s₃, printed, reread⟩ := bind_ok.mp run₂
  obtain ⟨source, rfl⟩ := textOf_ok printed
  obtain ⟨kept', more, charged', u', w, n', first, grown, done⟩ :=
    ht.expression c text s₃.unit s₃ m s' reread rfl kept
  refine ⟨kept', x.injected ++ more, ?_, ?_⟩
  · rw [charge_append, ← charged, charged']
  · exact .expression made replaced spent stands source reread first grown done

/-! ## Whole statements -/

/-- A node that gives way does so, and what is gone into is left as it is. -/
def Met (settings : Settings) (base u v : UnitState) (inside : Bool) (n : Node)
    (names : List String) : Step Unit (Slot Node) → Prop
  | .done slot => n.Inlined settings base u v inside slot names
  | .inside _ => v = u ∧ names = []

theorem enter {span : Span} {head : Head} {slots : List (Slot Node)}
    (plain : head.isTemplate = false)
    (ready : (Node.mk span head slots).Ready settings base u inside) :
    Installs u (t.enter (.mk span head slots)) fun v names =>
      Met settings base u v inside (.mk span head slots) names := by
  intro s step s' run start recorded
  subst start
  rw [enter_plain t (n := .mk span head slots) plain] at run
  have spent (c : MacroCall) (called : .called c.name ∈ (Node.mk span head slots).uses)
      (i : inside = true) (single : s.unit.SinglePhase) : ¬ base.Expands c.name :=
    ready.spent i single _ called
  cases statement : callStatement? s.unit.registry (.mk span head slots) with
  | some c =>
    rw [statement] at run
    unfold callStatement? at statement
    split at statement
    · rename_i e headed slotted
      obtain rfl : head = .expressionStmt := headed
      obtain rfl : slots = [.one e] := slotted
      have called : .called c.name ∈ (Node.mk span .expressionStmt [.one e]).uses := by
        rw [Node.uses_mk]
        have inner := Node.called_mem_uses (Option.filter_eq_some_iff.mp statement).1
        simpa [Node.usesIn, Head.isTemplate, Slot.toList] using Or.inr inner
      have met : Installs s.unit
          ((fun ns => Step.done (Slot.many ns)) <$> t.replaceStatement c span) fun v names =>
          Met settings base s.unit v inside (.mk span .expressionStmt [.one e]) names :=
        (ht.replaceStatement statement (spent c called)).map fun _ _ _ done => done
      exact met s step s' run rfl recorded
    · cases statement
  | none =>
    rw [statement] at run
    cases expression : callHere? s.unit.registry (.mk span head slots) with
    | some c =>
      rw [expression] at run
      have called := Node.called_mem_uses (Option.filter_eq_some_iff.mp expression).1
      have met : Installs s.unit ((fun m => Step.done (Slot.one m)) <$> t.replaceExpression c)
          fun v names => Met settings base s.unit v inside (.mk span head slots) names :=
        (ht.replaceExpression expression (spent c called)).map fun _ _ _ done => done
      exact met s step s' run rfl recorded
    | none =>
      rw [expression] at run
      cases run
      exact ⟨recorded, [], (charge_nil _).symm, rfl, rfl⟩

omit ht in
theorem list {ns : List Node} (h : ∀ n ∈ ns, ∀ u, n.Ready settings base u inside →
      Installs u (n.transformM t.transform ()) fun v names slot =>
        n.Inlined settings base u v inside slot names)
    (ready : ∀ n ∈ ns, n.Ready settings base u inside) :
    Installs u (Node.transformListM t.transform () ns) fun v names ns' =>
      InlinedList settings base u v inside ns ns' names := by
  induction ns generalizing u with
  | nil => exact .pure .nil
  | cons n ns ih =>
    rw [Node.transformListM]
    refine (h n List.mem_cons_self u (ready n List.mem_cons_self)).bind fun s w names first => ?_
    refine (ih (fun n hn => h n (List.mem_cons_of_mem _ hn)) fun n hn =>
      (ready n (List.mem_cons_of_mem _ hn)).later first.before).bind fun ns' v rest others => ?_
    refine .pure ?_
    rw [List.append_nil]
    exact .cons first others

omit ht in
theorem slots {slots : List (Slot Node)} (h : ∀ s ∈ slots, ∀ n ∈ s.toList, ∀ u,
      n.Ready settings base u inside → Installs u (n.transformM t.transform ())
        fun v names slot => n.Inlined settings base u v inside slot names)
    (ready : ∀ s ∈ slots, ∀ n ∈ s.toList, n.Ready settings base u inside) :
    Installs u (Node.transformSlotsM t.transform () slots) fun v names slots' =>
      InlinedSlots settings base u v inside slots slots' names := by
  induction slots generalizing u with
  | nil => exact .pure .nil
  | cons s slots ih =>
    have others {v : UnitState} (after : u.Before v) :=
      ih (u := v) (fun s hs => h s (List.mem_cons_of_mem _ hs)) fun s hs n hn =>
        (ready s (List.mem_cons_of_mem _ hs) n hn).later after
    have here := h s List.mem_cons_self
    have now := ready s List.mem_cons_self
    cases s with
    | absent =>
      rw [Node.transformSlotsM]
      refine (others (.refl u)).bind fun slots' v rest done => .pure ?_
      rw [List.append_nil]
      exact .absent done
    | one n =>
      rw [Node.transformSlotsM]
      refine (here n List.mem_cons_self u (now n List.mem_cons_self)).bind fun s' w names first => ?_
      refine (others first.before).bind fun slots' v rest done => .pure ?_
      rw [List.append_nil]
      exact .one first done
    | many ns =>
      rw [Node.transformSlotsM]
      refine (list here now).bind fun ns' w names first => ?_
      refine (others first.before).bind fun slots' v rest done => .pure ?_
      rw [List.append_nil]
      exact .many first done

/-- The calls in a tree are expanded one after another. -/
theorem transform (n : Node) (ready : n.Ready settings base u inside) :
    Installs u (n.transformM t.transform ()) fun v names slot =>
      n.Inlined settings base u v inside slot names := by
  induction n using Node.induction_on generalizing u inside with
  | step span head slots ih =>
    rw [Node.transformM]
    cases template : head.isTemplate with
    | true =>
      intro s slot s' run start recorded
      subst start
      have stays : t.transform.enter () (.mk span head slots) s = _ :=
        t.enter_template (n := .mk span head slots) template s
      rw [run_bind, stays] at run
      cases run
      exact ⟨recorded, [], (charge_nil _).symm, .kept⟩
    | false =>
      refine (ht.enter template ready).bind fun step v names met => ?_
      cases step with
      | done slot =>
        refine .pure ?_
        rw [List.append_nil]
        exact met
      | inside _ =>
        obtain ⟨rfl, rfl⟩ := met
        have below {s : Slot Node} (hs : s ∈ slots) {n : Node} (hn : n ∈ s.toList) :=
          ready.child template hs hn
        refine (Listing.slots (fun s hs n hn u ready => ih s hs n hn ready) fun s hs n hn =>
          below hs hn).bind fun slots' w names done => .pure ?_
        rw [List.append_nil]
        exact .node done

/-- When a statement is complete the calls in it have been expanded. -/
theorem completed {read : Parser Node} (h : Accrues settings [] read fun n => [n]) :
    Installs u (t.completed read) fun v names slot => ∃ w n, GrownList settings u w [n] ∧
      n.Inlined settings u w v false slot names := by
  rw [completed_eq]
  refine .of_get fun s => ?_
  refine Unlisting.bind (.calm (fun _ => rfl) fun _ => rfl) fun _ u₁ idle => ?_
  refine (h u u₁ (.nil idle)).bind fun n w names grown => ?_
  obtain ⟨rfl, grown⟩ := grown
  have ready : n.Ready settings u w false :=
    ⟨fun _ => grown.mem List.mem_cons_self, fun within => Bool.noConfusion within⟩
  refine .of_get fun s' => ?_
  have last {v : UnitState} {slot : Slot Node} {names : List String}
      (done : n.Inlined settings u w v false slot names) :
      Installs v (modify (fun s'' : ParserState => { s'' with pending := s.pending }) >>= fun _ =>
        pure slot) fun v more slot => ∃ w n, GrownList settings u w [n] ∧
          n.Inlined settings u w v false slot (names ++ more) := by
    intro s a s' run start recorded
    cases run
    subst start
    refine ⟨recorded, [], (charge_nil _).symm, w, n, grown, ?_⟩
    rwa [List.append_nil]
  split
  · exact last .kept
  · exact (ht.transform n ready).bind fun slot v names done => last done

/-! ## Nonterminals at any depth -/

theorem upTo (depth : Nat) : (Nonterminals.upTo settings t depth).Accruing settings := by
  induction depth with
  | zero => exact ⟨ht.tracked.upTo settings 0, fun _ => .throw _, fun _ => .throw _, .throw _⟩
  | succ depth ih =>
    refine ⟨ht.tracked.upTo settings (depth + 1), fun l => ih.readExpression l, fun u => ?_,
      ih.readPattern⟩
    refine (ht.completed ih.plainStatement).map fun v names slot done => ?_
    obtain ⟨w, n, grown, done⟩ := done
    exact ⟨u, w, n, slot, .refl u, grown, done, rfl⟩

/-- Whatever is read with the nonterminals as deep as the tokens lead. -/
theorem here {α : Type} {f : Nonterminals → Parser α} {post : UnitState → List String → α → Prop}
    (h : ∀ g : Nonterminals, g.Accruing settings → Installs u (f g) post) :
    Installs u (Nonterminals.here settings t >>= f) post := by
  unfold Nonterminals.here
  rw [bind_assoc]
  refine .of_get fun s => ?_
  rw [pure_bind]
  exact h _ (ht.upTo _)

theorem statementsWith : Installs u (statementsWith settings t) fun v names a =>
    names = [] ∧ ∃ listed, a.2 = listNames [] listed ∧ Completed settings u v a.1 listed := by
  refine ht.here fun g hg => ?_
  have statements : Installs u (repeatWhile (not <$> atEnd) g.statement) fun w names nss =>
      Completed settings u w nss.flatten names :=
    .of_get fun _ => installs_statements unlisting_notAtEnd hg.statement _
  apply installs_scope (k := fun nss injected => pure (nss.flatten, injected)) statements
  intro nss w names done
  exact .pure ⟨rfl, names, rfl, done⟩

omit ht in
theorem expressionWith_eq : expressionWith settings t =
    Nonterminals.here settings t >>= fun g => openScope >>= fun _ =>
      (t.completed g.wholeExpression >>= onlyNode) >>= fun n => closeScope >>= fun injected =>
        pure (n, injected) := by
  unfold Parser.expressionWith
  refine bind_congr fun g => bind_congr fun _ => ?_
  rw [bind_assoc]
  refine bind_congr fun slot => ?_
  cases slot <;> rfl

theorem expressionWith : Installs u (expressionWith settings t) fun v names a =>
    names = [] ∧ ∃ w n listed, a.2 = listNames [] listed ∧ GrownList settings u w [n] ∧
      n.Inlined settings u w v false (.one a.1) listed := by
  rw [expressionWith_eq]
  refine ht.here fun g hg => ?_
  have expression : Installs u (t.completed g.wholeExpression >>= onlyNode) fun v names m =>
      ∃ w n, GrownList settings u w [n] ∧ n.Inlined settings u w v false (.one m) names := by
    refine (ht.completed hg.wholeExpression).bind fun slot v names done => ?_
    cases slot with
    | one m =>
      refine .pure ?_
      rw [List.append_nil]
      exact done
    | absent => exact .throw _
    | many ms => exact .throw _
  refine installs_scope (k := fun n injected => pure (n, injected)) expression ?_
  intro m v names done
  obtain ⟨w, n, grown, done⟩ := done
  exact .pure ⟨rfl, w, n, names, rfl, grown, done⟩

/-! ## Texts of expansions -/

end Listing

section

variable {settings : Settings} {α : Type} {u : UnitState}

theorem unlisting_expansionTokens (c : MacroCall) (depth : Nat) (text : String) :
    Unlisting (ofWork (Work.expansionTokens c depth text)) := by
  refine .work (Work.onlyReports_expansionTokens c depth text)
    (.expansionTokens c depth text) fun u => ?_
  unfold Work.expansionTokens Work.tokens
  rw [run_bind]
  cases tokenize text s!"<expansion of {c.name}>" <;> rfl

/-- What the text of an expansion installs is listed in the scope around the call. -/
theorem installs_reread {c : MacroCall} {depth : Nat} {text : String}
    {p : Parser (α × List String)} {q : UnitState → UnitState → List String → α → Prop}
    (h : ∀ v, Installs v p fun w names a =>
      names = [] ∧ ∃ listed, a.2 = listNames [] listed ∧ q v w listed a.1) :
    Installs u (reread c depth text p) fun w names a => ∃ v, u.Idle v ∧ q v w names a := by
  refine (unlisting_expansionTokens c depth text).bind fun tokens v idle => ?_
  have inner : Installs v (Parser.within tokens p) fun w names a =>
      names = [] ∧ ∃ listed, a.2 = listNames [] listed ∧ q v w listed a.1 := by
    intro s a s' run start recorded
    subst start
    have result : (p (ParserState.start s.unit tokens)).1 = .ok a := congrArg Prod.fst run
    obtain ⟨kept, names, -, -, found⟩ := h s.unit _ a _ (Prod.ext result rfl) rfl recorded
    obtain rfl := congrArg Prod.snd run
    exact ⟨kept, [], (charge_nil _).symm, rfl, found⟩
  refine inner.bind fun a w names found => ?_
  obtain ⟨a, injected⟩ := a
  obtain ⟨rfl, listed, rfl, made⟩ := found
  have same (scope : List String) : addNames scope (listNames [] listed) = listNames scope listed :=
    (addNames_eq_listNames (nodup_listNames List.nodup_nil)).trans listNames_listNames_nil
  refine (installs_inject same).bind fun _ w' more injected => .pure ?_
  obtain ⟨rfl, rfl⟩ := injected
  rw [List.append_nil]
  exact ⟨v, idle, made⟩

theorem listing_upTo (settings : Settings) (remaining : Nat) :
    (upTo settings remaining).Listing settings := by
  induction remaining with
  | zero => exact ⟨tracked_upTo settings 0, ⟨0, rfl⟩, fun _ _ _ => .throw _, fun _ _ _ => .throw _⟩
  | succ remaining ih =>
    refine ⟨tracked_upTo settings (remaining + 1), ⟨remaining + 1, rfl⟩, fun c text u => ?_,
      fun c text u => ?_⟩
    · refine (installs_reread (q := fun v w names m => ∃ w' n, GrownList settings v w' [n] ∧
        n.Inlined settings v w' w false (.one m) names) fun v => ?_).mono ?_
      · refine ih.expressionWith.mono fun w names a done => ?_
        obtain ⟨rfl, w', n, listed, same, grown, done⟩ := done
        exact ⟨rfl, listed, same, w', n, grown, done⟩
      · intro w names m done
        obtain ⟨v, idle, w', n, grown, done⟩ := done
        exact ⟨v, w', n, idle, grown, done⟩
    · refine (installs_reread (q := fun v w names ns => Completed settings v w ns names)
        fun v => ih.statementsWith).mono fun w names ns done => ?_
      obtain ⟨v, idle, done⟩ := done
      exact done.start idle

end

/-! ## Programs -/

theorem Listing.programWith {settings : Settings} {t : Rereading} (ht : t.Listing settings)
    {u : UnitState} : Installs u (programWith settings t) fun v names p => names = [] ∧
      ∃ span w ns listed, p = Node.program span ns (listNames [] listed) ∧
        Completed settings u w ns listed ∧ w.Idle v := by
  refine ht.here fun g hg => .of_get fun s => ?_
  have checkpoint : Unlisting (ofWork Work.checkpoint) := by
    refine .work Work.onlyReports_checkpoint .checkpoint fun u => ?_
    unfold Work.checkpoint
    rw [run_bind, run_get]
    dsimp only
    rcases u.checks with _ | _ | n <;> rfl
  have statement (u : UnitState) : Installs u (ofWork Work.checkpoint >>= fun _ => g.statement)
      fun v names ns => Settles settings u v ns names := by
    refine checkpoint.bind fun _ v idle => (hg.statement v).mono fun w names ns settled => ?_
    obtain ⟨u', w', n, s, first, read⟩ := settled
    exact ⟨u', w', n, s, idle.trans first, read⟩
  have statements : Installs u (repeatWhile (not <$> atEnd)
      (ofWork Work.checkpoint >>= fun _ => g.statement)) fun w names nss =>
      Completed settings u w nss.flatten names :=
    .of_get fun _ => installs_statements unlisting_notAtEnd statement _
  have scope (span : Span) : Installs u (openScope >>= fun _ => repeatWhile (not <$> atEnd)
      (ofWork Work.checkpoint >>= fun _ => g.statement) >>= fun nss => closeScope >>= fun injected =>
        ofWork (Work.report (.programParsed nss.flatten.length)) >>= fun _ =>
          pure (Node.program span nss.flatten injected)) fun v names p => names = [] ∧
      ∃ span w ns listed, p = Node.program span ns (listNames [] listed) ∧
        Completed settings u w ns listed ∧ w.Idle v := by
    refine installs_scope statements fun nss w names done => ?_
    have parsed : Unlisting (ofWork (Work.report (.programParsed nss.flatten.length))) :=
      .work (Work.onlyReports_report _) (.report rfl) fun _ => rfl
    refine parsed.bind fun _ v idle => .pure ?_
    exact ⟨rfl, span, w, nss.flatten, names, rfl, done, idle⟩
  exact scope _

end Rereading

/-! ## Parsed programs -/

theorem UnitState.recorded_ofTokens (settings : Settings) (tokens : List Token)
    (checks : Option Nat) : (UnitState.ofTokens settings tokens checks).Recorded :=
  ⟨fun _ _ known => absurd known List.not_mem_nil, fun _ here => absurd here Bool.false_ne_true⟩

/-- A parsed program lists the names that the calls install that are expanded as its statements are
completed, and so does each body for its own statements. Every expansion that the log reports is one
of those. A call in a body of a statement is left to the scope around the statement only if its
macro was not known when the statement began: if none has become known since, the body is left as it
is. -/
theorem parse_completed {settings : Settings} {tokens : List Token} {checks : Option Nat} {p : Node}
    {u : UnitState} (parsed : (Work.parse (Parser.program settings) tokens).run
      (UnitState.ofTokens settings tokens checks) = (.ok p, u)) :
    (∃ span w ns names, p = Node.program span ns (listNames [] names) ∧
      Completed settings (UnitState.ofTokens settings tokens checks) w ns names ∧ w.Idle u) ∧
    ∀ base v v' n s names, Node.Inlined settings base v v' true n s names → base.Settled v' →
      s = .one n ∧ names = [] := by
  obtain ⟨done, run, rfl⟩ := Work.parse_ok parsed
  have recorded := UnitState.recorded_ofTokens settings tokens checks
  have listing := Rereading.listing_upTo settings settings.maxParseDepth
  obtain ⟨-, -, -, -, made⟩ := listing.programWith _ p done run rfl recorded
  exact ⟨made, fun _ _ _ _ _ _ inlined settled => inlined.kept_inside rfl settled⟩

/-- The call in the body is expanded when it is complete. -/
def callInBody : String :=
  "<%| m (( )) ^< $> [[ \x7b@ _ ==> [[ \x7b[ x [=] 1 ]\x7d ]] @\x7d ]] |%> \x7b? 1 [[ m(( )) ]] ?\x7d"

/-- The call of `m` in the body stands before the definition of the macro, which is in the body
too, and the call of `a` has all calls in the statement gone through once more. -/
def strayCall : String :=
  "<%| a (( )) ^< [[ \x7b@ _ =>> 1 @\x7d ]] |%> \x7b? a(( )) [[ %% m(( )) " ++
    "<%| m (( )) ^< $> [[ \x7b@ _ ==> [[ \x7b[ x [=] 1 ]\x7d ]] @\x7d ]] |%> ]] ?\x7d"

/-- The case of `callInBody`: the body lists the name. -/
theorem parse_completed_callInBody : ∃ tokens p u,
    tokenize callInBody "<input>" = .ok tokens ∧
    (Work.parse (Parser.program {}) tokens).run (UnitState.ofTokens {} tokens none) = (.ok p, u) ∧
    p.sexpr = "(Program [(MacroDef m [] PARSE INJECT [(MacroRule #+ (BindPattern _) " ++
      "(Block [(Assignment x (Literal 1))]))] nil) " ++
      "(IfStmt (Literal 1) (Block [x] [(Assignment x (Literal 1))]) nil)])" ∧
    ∃ span w ns names, p = Node.program span ns (listNames [] names) ∧
      Completed {} (UnitState.ofTokens {} tokens none) w ns names ∧ w.Idle u := by
  have reads : ((tokenize callInBody "<input>").toOption.bind fun tokens =>
      ((Work.parse (Parser.program {}) tokens).run
        (UnitState.ofTokens {} tokens none)).1.toOption.map Node.sexpr) =
      some ("(Program [(MacroDef m [] PARSE INJECT [(MacroRule #+ (BindPattern _) " ++
        "(Block [(Assignment x (Literal 1))]))] nil) " ++
        "(IfStmt (Literal 1) (Block [x] [(Assignment x (Literal 1))]) nil)])") := by
    delta callInBody
    rw [tokenize_ofList]
    decide +kernel
  obtain ⟨tokens, divided, reads⟩ := Option.bind_eq_some_iff.mp reads
  obtain ⟨p, made, listing⟩ := Option.map_eq_some_iff.mp reads
  obtain ⟨u, parsed⟩ : ∃ u, (Work.parse (Parser.program {}) tokens).run
      (UnitState.ofTokens {} tokens none) = (.ok p, u) := ⟨_, Prod.ext (ok_of_toOption made) rfl⟩
  exact ⟨tokens, p, u, ok_of_toOption divided, parsed, listing, (parse_completed parsed).1⟩

/-- In `strayCall` as it is written the call of `m` stands in the body. When it has been parsed the
assignment that the call expands to stands there too, but its name is listed by the program. -/
theorem strayCall_listed_outside : ∃ tokens p u p' u',
    tokenize strayCall "<input>" = .ok tokens ∧
    (Work.parse (Parser.program (Settings.postponed {})) (tokens.map Token.postponed)).run
      (UnitState.ofTokens {} tokens none) = (.ok p, u) ∧
    p.sexpr = "(Program [(MacroDef a [] EXPAND ISOLATE [(MacroRule #- (BindPattern _) " ++
      "(Literal 1))] nil) (IfStmt (MacroCall a []) (Block [(ExpressionStatement (MacroCall m [])) " ++
      "(MacroDef m [] EXPAND INJECT [(MacroRule #+ (BindPattern _) " ++
      "(Block [(Assignment x (Literal 1))]))] nil)]) nil)])" ∧
    (Work.parse (Parser.program {}) tokens).run (UnitState.ofTokens {} tokens none) = (.ok p', u') ∧
    p'.sexpr = "(Program [x] [(MacroDef a [] PARSE ISOLATE [(MacroRule #- (BindPattern _) " ++
      "(Literal 1))] nil) (IfStmt (Literal 1) (Block [(Assignment x (Literal 1)) " ++
      "(MacroDef m [] PARSE INJECT [(MacroRule #+ (BindPattern _) " ++
      "(Block [(Assignment x (Literal 1))]))] nil)]) nil)])" := by
  have reads : ((tokenize strayCall "<input>").toOption.bind fun tokens =>
      let r :=
        (Work.parse (Parser.program (Settings.postponed {})) (tokens.map Token.postponed)).run
          (UnitState.ofTokens {} tokens none)
      let r' := (Work.parse (Parser.program {}) tokens).run (UnitState.ofTokens {} tokens none)
      r.1.toOption.bind fun p => r'.1.toOption.map fun p' => (p.sexpr, p'.sexpr)) =
      some ("(Program [(MacroDef a [] EXPAND ISOLATE [(MacroRule #- (BindPattern _) " ++
        "(Literal 1))] nil) (IfStmt (MacroCall a []) (Block [(ExpressionStatement (MacroCall m [])) " ++
        "(MacroDef m [] EXPAND INJECT [(MacroRule #+ (BindPattern _) " ++
        "(Block [(Assignment x (Literal 1))]))] nil)]) nil)])",
        "(Program [x] [(MacroDef a [] PARSE ISOLATE [(MacroRule #- (BindPattern _) " ++
        "(Literal 1))] nil) (IfStmt (Literal 1) (Block [(Assignment x (Literal 1)) " ++
        "(MacroDef m [] PARSE INJECT [(MacroRule #+ (BindPattern _) " ++
        "(Block [(Assignment x (Literal 1))]))] nil)]) nil)])") := by
    delta strayCall
    rw [tokenize_append_ofList]
    decide +kernel
  obtain ⟨tokens, divided, reads⟩ := Option.bind_eq_some_iff.mp reads
  obtain ⟨p, written, reads⟩ := Option.bind_eq_some_iff.mp reads
  obtain ⟨p', parsed, found⟩ := Option.map_eq_some_iff.mp reads
  obtain ⟨first, second⟩ := Prod.mk.inj found
  exact ⟨tokens, p, _, p', _, ok_of_toOption divided, Prod.ext (ok_of_toOption written) rfl,
    first, Prod.ext (ok_of_toOption parsed) rfl, second⟩

end GlyphScript
