import GlyphScript.Proofs.Parsing.Conduct.Basic

/-!
# The conduct of productions

What is asked of the parsers for the nonterminals holds of every production
that is made of them.
-/

namespace GlyphScript

open GlyphScript.Parser

/-! ## Phrases -/

namespace Phrase

/-- All nodes made are plain, and statements are read in bodies only. -/
def Plain : Phrase → Prop
  | give f => f.nodes = []
  | part n => n ≠ .statement ∧ n ≠ .statements
  | seq a b | either _ a b | ahead a b => a.Plain ∧ b.Plain
  | star _ a | gather a | list a | demand a _ | chain a | construct _ a => a.Plain
  | node head a => (∀ x, (head x).isPlain = true) ∧ a.Plain
  | _ => True

attribute [local simp] Plain Head.isPlain

theorem plain_operand {r : Reserved} {a : Phrase} (h : operand? r = some a)
    (hr : r ≠ .macroInvoke) : a.Plain := by
  cases IsOperand.of h <;> simp [group, tupleLiteral, tensorLiteral, comprehension,
    comprehensionClause, lambda, quote, unquote, negation, awaiting, seqs, items, expression, manyOf,
    someOf] at hr ⊢

theorem plain_pattern {r : Reserved} {a : Phrase} (h : pattern? r = some a) : a.Plain := by
  cases IsComposite.of h <;> simp [composite, seqs, items]

theorem plain_tail {r : Reserved} {m : Level} {a : Phrase} (h : tail? r = some (m, a)) :
    a.Plain := by
  cases IsTail.of h <;> simp [arguments, items, seqs, expression]

theorem plain_statement {settings : Settings} {r : Reserved} {a : Phrase}
    (h : statement? settings r = some a) (hr : r ≠ .macroOpen) : a.Plain := by
  cases IsStatement.of h <;> simp [assignment, importDecl, modulePath, importAlias, returnStmt,
    yieldStmt, optionalValue, breakStmt, continueStmt, memoryStmt, deviceStmt, blockStmt,
    exceptClause, tryStmt, caseClause, matchStmt, functionDef, asyncFunctionDef, classDef, ifStmt,
    arm, loopStmt, loopHeader, parallelStmt, gpuStmt, tensorDecl, neuralNet, streamStmt, arguments,
    optionalArguments, optionalNode, parameters, items, seqs, expression, manyOf, someOf,
    Found.nodes, Found.nothing, Found.ofOption, Slot.ofOption, Slot.toList] at hr ⊢

end Phrase

namespace Node

variable {S : Scope}

theorem part_ifStmt {span : Span} {condition body orelse : Slot Node}
    (hc : ∀ n ∈ condition.toList, n.Part S) (hb : ∀ n ∈ body.toList, n.Part S)
    (ho : ∀ n ∈ orelse.toList, n.Part S) :
    (mk span .ifStmt [condition, body, orelse]).Part S := by
  refine part_plain rfl ?_
  simp only [List.mem_cons, List.not_mem_nil, or_false, forall_eq_or_imp, forall_eq]
  exact ⟨hc, hb, ho⟩

theorem part_nestSlots {stop : Location} (places : List Location) : ∀ {slots : List (Slot Node)},
    (∀ s ∈ slots, ∀ n ∈ s.toList, n.Part S) →
      ∀ n ∈ (nestSlots stop places slots).toList, n.Part S := by
  induction places with
  | nil =>
    intro slots h n hn
    rw [nestSlots] at hn
    rcases slots with _ | ⟨s, slots⟩
    · exact (List.not_mem_nil hn).elim
    · exact h s List.mem_cons_self n hn
    · rintro _ _ _ _ _ ⟨⟩
  | cons start places ih =>
    intro slots h n hn
    rcases slots with _ | ⟨condition, _ | ⟨body, slots⟩⟩
    · exact (List.not_mem_nil hn).elim
    · exact h condition List.mem_cons_self n hn
    · rw [nestSlots] at hn
      rw [List.mem_singleton.mp hn]
      refine part_ifStmt (h _ List.mem_cons_self) (h _ (by simp)) (ih fun s hs => h s ?_)
      simp [hs]

theorem part_ofArms {span : Span} {places : List Location} {slots : List (Slot Node)}
    (h : ∀ s ∈ slots, ∀ n ∈ s.toList, n.Part S) : (ofArms span places slots).Part S := by
  rcases slots with _ | ⟨condition, _ | ⟨body, slots⟩⟩
  · exact part_plain rfl h
  · exact part_plain rfl h
  · refine part_ifStmt (h _ List.mem_cons_self) (h _ (by simp)) (part_nestSlots places fun s hs => h s ?_)
    simp [hs]

end Node

namespace Found

/-- All nodes found are parts. -/
def Parts (S : Scope) (f : Found) : Prop := ∀ n ∈ f.nodes, n.Part S

theorem Parts.slots {S : Scope} {f : Found} (h : f.Parts S) :
    ∀ s ∈ f.slots, ∀ n ∈ s.toList, n.Part S :=
  fun s hs n hn => h n (mem_nodes.mpr ⟨s, hs, hn⟩)

theorem Parts.append {S : Scope} {f h : Found} (hf : f.Parts S) (hh : h.Parts S) :
    (f ++ h).Parts S := by
  intro n hn
  rw [nodes_append] at hn
  exact (List.mem_append.mp hn).elim (hf n) (hh n)

theorem Parts.onward {r r' : Registry} {f : Found} (h : f.Parts r.scope) (le : r ≤ r') :
    f.Parts r'.scope :=
  fun n hn => (h n hn).onward le

end Found

/-- What is asked of the parsers for the nonterminals. -/
structure Nonterminals.Conduct (g : Nonterminals) : Prop where
  expression : ∀ r l, Conducts r (g.expression l) fun r n => n.Part r.scope
  statement : ∀ r, Conducts r g.statement fun r ns => ∀ n ∈ ns, n.Regular r.scope
  pattern : ∀ r, Conducts r g.pattern fun r n => n.Part r.scope

theorem Conducts.of_map {α β : Type} {r : Registry} {x : Parser α} {f : α → β}
    {post : Registry → β → Prop} (h : Conducts r (f <$> x) post) :
    Conducts r x fun r a => post r (f a) := by
  intro s hr le
  have := h s hr le
  rw [run_map] at this
  rcases hx : x s with ⟨_ | a, s'⟩ <;> rw [hx] at this
  · exact ⟨this.1, this.2.1, fun _ e => nomatch e⟩
  · exact ⟨this.1, this.2.1, fun _ e => Except.ok.inj e ▸ this.2.2 _ rfl⟩

/-- Completing a node other than a definition leaves the unit alone. -/
theorem conducts_announce {r : Registry} {n : Node}
    (h : ∀ x params p hy, n.head ≠ .macroDef x params p hy) :
    Conducts r (announce n) fun _ _ => True := by
  refine .calm (fun s => ?_) fun _ _ _ => trivial
  obtain ⟨span, head, slots⟩ := n
  cases head
  case macroDef => exact absurd rfl (h _ _ _ _)
  case macroCall x d =>
    cases d
    · rw [announce_macroCall]
      dsimp only
      split <;> rfl
    · rfl
  all_goals rfl

theorem conducts_register {r : Registry} {d : MacroDefinition} (hd : d.Regular r.scope) :
    Conducts r (ofWork (Work.register d)) fun r _ => r.contains d.name = true := by
  intro s hr le
  have h : ∀ u : UnitState, (Work.register d u).2.registry = u.registry.insert d ∧
      u.log <:+ (Work.register d u).2.log := by
    intro u
    obtain ⟨warnings, h⟩ := Work.register_run d u
    rw [h]
    exact ⟨rfl, (List.suffix_append warnings u.log).trans (List.suffix_cons ..)⟩
  have e : (ofWork (Work.register d) s).2.unit = (Work.register d s.unit).2 := rfl
  rw [e, (h s.unit).1]
  refine ⟨⟨(h s.unit).2, ?_⟩, hr.insert (hd.mono (Registry.scope_le le)), fun _ _ => ?_⟩
  · rw [(h s.unit).1]
    exact s.unit.registry.le_insert d
  · show (s.unit.registry.insert d).contains d.name = true
    rw [Registry.contains_insert, decide_eq_true rfl, Bool.true_or]

theorem conducts_extend {r : Registry} {m : Level} {left : Node} {start : Token} {f : Found}
    {post : Registry → Node → Prop} (h : ∀ r', r ≤ r' → ∀ known span,
      post r' (Node.extended known span m left f)) : Conducts r (extend m left start f) post := by
  have plain : ∀ known span x params p hy,
      (Node.extended known span m left f).head ≠ .macroDef x params p hy := by
    intro known span x params p hy
    unfold Node.extended
    split
    · exact fun h => nomatch h
    · split
      · split <;> exact fun h => nomatch h
      · exact fun h => nomatch h
    · exact fun h => nomatch h
  have stop : Conducts r (tailStop m start f) fun _ _ => True :=
    .ite ((conducts_spanFrom start).map fun _ _ _ _ => trivial) (.pure fun _ _ => trivial)
  unfold extend
  refine stop.bind fun stop r₁ le₁ _ => .of_get fun s => ?_
  refine (conducts_announce (plain _ _)).bind fun _ r₂ le₂ _ => .pure fun r₃ le₃ => ?_
  exact h r₃ (le_trans (le_trans le₁ le₂) le₃) _ _

theorem Node.part_extended_call {S : Scope} {known : String → Bool} {span : Span} {left : Node}
    {args : List Node} (hl : left.Part S) (ha : ∀ a ∈ args, a.Part S) :
    (Node.extended known span .postfixed left (.ofNodes args)).Part S := by
  simp only [Node.extended]
  split
  · split
    · exact part_macroCall (fun h => Bool.noConfusion h) ha
    · exact part_call hl ha
  · exact part_call hl ha

theorem Node.part_extended_plain {S : Scope} {known : String → Bool} {span : Span} {m : Level}
    {left : Node} {f : Found} (hm : m ≠ .postfixed) (hl : left.Part S) (hf : f.Parts S) :
    (Node.extended known span m left f).Part S := by
  have parts : ∀ s ∈ Slot.one left :: f.slots, ∀ n ∈ s.toList, n.Part S := by
    intro s hs n hn
    rcases List.mem_cons.mp hs with rfl | hs
    · rwa [List.mem_singleton.mp hn]
    · exact hf.slots s hs n hn
  cases m
  case postfixed => exact absurd rfl hm
  all_goals exact part_plain rfl parts

/-- Something is found, but no nodes. -/
theorem Conducts.found {α : Type} {r : Registry} {x : Parser α} {p : Registry → α → Prop}
    {k : α → Found} (hk : ∀ a, (k a).nodes = []) (h : Conducts r x p) :
    Conducts r (k <$> x) fun r f => f.Parts r.scope := by
  refine h.map fun r' a _ _ n hn => ?_
  rw [hk] at hn
  exact (List.not_mem_nil hn).elim

namespace Nonterminals.Conduct

variable {g : Nonterminals} (hg : g.Conduct)

include hg

theorem wellFormedPattern (r : Registry) :
    Conducts r g.wellFormedPattern fun r n => n.Part r.scope := by
  refine (hg.pattern r).bind fun n r₁ _ hn => ?_
  split
  · exact .throw _
  · exact .pure fun r' le => hn.onward le

theorem body (r : Registry) : Conducts r g.body fun r n => n.Part r.scope := by
  have atEnd : ∀ r, Conducts r (not <$> atBodyEnd) fun _ _ => True := by
    intro r
    have ends : Conducts r atBodyEnd fun _ _ => True :=
      conducts_peek.bind fun _ _ _ _ => .pure fun _ _ => trivial
    exact ends.map fun _ _ _ _ => trivial
  refine (conducts_openConstruct _).bind fun start r₁ _ _ => ?_
  refine conducts_openScope.bind fun _ r₂ _ _ => ?_
  refine (Conducts.repeatWhile (p := fun r ns => ∀ n ∈ ns, n.Regular r.scope) ?_
    (fun r _ => atEnd r) fun r _ => hg.statement r).bind fun nss r₃ _ hs => ?_
  · exact fun r r' ns le h n hn => (h n hn).onward le
  refine conducts_closeConstruct.bind fun _ r₄ le₄ _ => ?_
  refine conducts_closeScope.bind fun injected r₅ le₅ _ => ?_
  refine (conducts_spanFrom _).bind fun span r₆ le₆ _ => ?_
  refine .pure fun r₇ le₇ => Node.part_scope rfl fun n hn => ?_
  obtain ⟨ns, hns, hn⟩ := List.mem_flatten.mp hn
  exact (hs ns hns n hn).onward (le_trans (le_trans (le_trans le₄ le₅) le₆) le₇)

theorem part {n : Nonterminal} (r : Registry) (hn : n ≠ .statement ∧ n ≠ .statements) :
    Conducts r (n.read g) fun r f => f.Parts r.scope := by
  have one : ∀ {p : Parser Node}, Conducts r p (fun r n => n.Part r.scope) →
      Conducts r (Found.ofNode <$> p) fun r f => f.Parts r.scope := by
    intro p hp
    refine hp.map fun r' n _ h m hm => ?_
    rwa [List.mem_singleton.mp hm]
  cases n with
  | expression l => exact one (hg.expression r l)
  | pattern => exact one (hg.pattern r)
  | binding => exact one (hg.wellFormedPattern r)
  | body => exact one (hg.body r)
  | statement => exact absurd rfl hn.1
  | statements => exact absurd rfl hn.2

omit hg in
theorem announce_plain {span : Span} {head : Head} {slots : List (Slot Node)}
    (h : head.isPlain = true) : announce (.mk span head slots) = pure () := by
  cases head <;> first | rfl | nomatch h

theorem read {a : Phrase} (ha : a.Plain) (r : Registry) :
    Conducts r (a.read g) fun r f => f.Parts r.scope := by
  induction a generalizing r with
  | give f =>
    refine .pure fun r' _ n hn => ?_
    rw [show f.nodes = [] from ha] at hn
    exact (List.not_mem_nil hn).elim
  | place => exact conducts_peek.found (k := fun t => .ofPlace t.location) fun _ => rfl
  | mark m =>
    rw [Phrase.read, discard_bind, ← map_eq_pure_bind]
    exact (conducts_consume m).found fun _ => rfl
  | kept m =>
    rw [Phrase.read, discard_bind, ← map_eq_pure_bind]
    exact (conducts_consume m).found fun _ => rfl
  | spelled m => exact (conducts_consume m).found (k := fun t => .ofText t.lexeme) fun _ => rfl
  | name what => exact (conducts_consumeName what).found fun _ => rfl
  | part n => exact hg.part r ha
  | fail what => exact conducts_fail _
  | seq a b iha ihb =>
    refine (iha ha.1 r).bind fun f r₁ _ hf => ?_
    exact (ihb ha.2 r₁).map fun r₂ h le hh => (hf.onward le).append hh
  | either m a b iha ihb =>
    refine (conducts_check m).bind fun c r₁ _ _ => ?_
    exact .ite (iha ha.1 r₁) (ihb ha.2 r₁)
  | ahead a b iha ihb =>
    refine conducts_checkBinding.bind fun c r₁ _ _ => ?_
    exact .ite (iha ha.1 r₁) (ihb ha.2 r₁)
  | star m a ih =>
    refine (Conducts.repeatWhile (fun _ _ _ le h => h.onward le) (fun r _ => conducts_check m)
      fun r _ => ih ha r).map fun r₁ fs _ h n hn => ?_
    rw [Found.nodes_join] at hn
    obtain ⟨f, hf, hn⟩ := List.mem_flatMap.mp hn
    exact h f hf n hn
  | gather a ih => exact (ih ha r).map fun _ f _ h => h
  | list a ih =>
    refine (ih ha r).map fun r₁ f _ h n hn => ?_
    rw [Found.nodes_listed] at hn
    exact h n hn
  | demand a what ih =>
    refine (ih ha r).bind fun f r₁ _ hf => ?_
    split
    · have fails : Conducts r₁ (failExpecting (.phrase what) : Parser Unit) fun _ _ => True :=
        conducts_fail _
      exact fails.bind fun _ r₂ le _ => .pure fun r₃ le' => hf.onward (le_trans le le')
    · exact .pure fun r₂ le => hf.onward le
  | node head a ih =>
    rw [Phrase.read_node]
    refine conducts_peek.bind fun start r₁ _ _ => ?_
    refine (ih ha.2 r₁).bind fun f r₂ _ hf => ?_
    refine (conducts_spanFrom start).bind fun span r₃ le₃ _ => ?_
    rw [announce_plain (ha.1 _), pure_bind]
    refine .pure fun r₄ le₄ n hn => ?_
    rw [List.mem_singleton.mp hn]
    exact Node.part_plain (ha.1 _) (hf.onward (le_trans le₃ le₄)).slots
  | chain a ih =>
    rw [Phrase.read_chain]
    refine conducts_peek.bind fun start r₁ _ _ => ?_
    refine (ih ha r₁).bind fun f r₂ _ hf => ?_
    refine (conducts_spanFrom start).bind fun span r₃ le₃ _ => ?_
    refine .pure fun r₄ le₄ n hn => ?_
    rw [List.mem_singleton.mp hn]
    exact Node.part_ofArms (hf.onward (le_trans le₃ le₄)).slots
  | construct c a ih =>
    rw [Phrase.read, discard_bind]
    refine (conducts_openConstruct c).bind fun _ r₁ _ _ => ?_
    refine (ih ha r₁).bind fun f r₂ _ hf => ?_
    exact conducts_closeConstruct.bind fun _ r₃ le₃ _ => .pure fun r₄ le₄ =>
      hf.onward (le_trans le₃ le₄)

/-! ## Calls and definitions -/

theorem arguments (r : Registry) :
    Conducts r g.arguments fun r ns => ∀ n ∈ ns, n.Part r.scope := by
  have h := hg.read (Phrase.plain_tail (r := .listOpen) rfl) r
  rw [Phrase.read_arguments] at h
  refine h.of_map.mono fun r' ns _ hns n hn => hns n ?_
  simpa [Found.ofNodes, Found.nodes, Slot.toList] using hn

theorem markedCall (r : Registry) : Conducts r g.markedCall fun r n => n.Part r.scope := by
  refine (conducts_consume _).bind fun start r₁ _ _ => ?_
  refine (conducts_consumeName _).bind fun name r₂ _ _ => ?_
  refine (hg.arguments r₂).bind fun args r₃ _ ha => ?_
  refine (conducts_spanFrom start).bind fun span r₄ le₄ _ => ?_
  rw [Phrase.macroCall_eq]
  refine (conducts_announce (by rintro x params p h ⟨⟩)).bind fun _ r₅ le₅ _ => ?_
  exact .pure fun r₆ le₆ => Node.part_macroCall (fun h => nomatch h) fun a h =>
    (ha a h).onward (le_trans (le_trans le₄ le₅) le₆)

theorem operand (r : Registry) {m : Reserved} {a : Phrase} (h : Phrase.operand? m = some a) :
    Conducts r (a.read g) fun r f => f.Parts r.scope := by
  by_cases hm : m = .macroInvoke
  · subst hm
    cases h
    rw [Phrase.read_markedCall]
    refine (hg.markedCall r).map fun r' n _ hn k hk => ?_
    rwa [List.mem_singleton.mp hk]
  · exact hg.read (Phrase.plain_operand h hm) r

/-- A left operand and the tail behind it make a part. -/
theorem tail (r : Registry) {t : Reserved} {m : Level} {a : Phrase} {left : Node}
    (h : Phrase.tail? t = some (m, a)) (hl : left.Part r.scope) :
    Conducts r (peek >>= fun start => a.read g >>= extend m left start)
      fun r n => n.Part r.scope := by
  refine conducts_peek.bind fun start r₁ le₁ _ => ?_
  by_cases hm : m = .postfixed
  · subst hm
    obtain rfl : a = Phrase.arguments := by cases t <;> cases h; rfl
    rw [Phrase.arguments_bind]
    refine (hg.arguments r₁).bind fun args r₂ le₂ ha => ?_
    refine conducts_extend fun r₃ le₃ known span => ?_
    have le := le_trans (le_trans le₁ le₂) le₃
    exact Node.part_extended_call (hl.onward le) fun a h => (ha a h).onward le₃
  · refine (hg.read (Phrase.plain_tail h) r₁).bind fun f r₂ le₂ hf => ?_
    refine conducts_extend fun r₃ le₃ known span => ?_
    have le := le_trans (le_trans le₁ le₂) le₃
    exact Node.part_extended_plain hm (hl.onward le) (hf.onward le₃)

theorem extendUpTo (l : Level) (fuel : Nat) (r : Registry) {left : Node}
    (hl : left.Part r.scope) : Conducts r (g.extendUpTo l fuel left) fun r n => n.Part r.scope := by
  induction fuel generalizing r left with
  | zero => exact .throw _
  | succ fuel ih =>
    intro s hr le
    rw [Phrase.extendUpTo_run]
    have stop : Conducts r (pure left : Parser Node) fun r n => n.Part r.scope :=
      .pure fun r' le => hl.onward le
    split
    · rename_i m a ht
      obtain ⟨t, -, ha⟩ := Option.bind_eq_some_iff.mp ht
      split
      · exact (hg.tail r ha hl).bind (fun n r₁ _ hn => ih r₁ hn) s hr le
      · exact stop s hr le
    · exact stop s hr le

omit hg in
theorem ofNode_iff {r : Registry} {x : Parser Node} :
    Conducts r (Found.ofNode <$> x) (fun r f => f.Parts r.scope) ↔
      Conducts r x fun r n => n.Part r.scope := by
  constructor
  · intro h
    exact h.of_map.mono fun r' n _ hn => hn n (List.mem_singleton_self n)
  · intro h
    refine h.map fun r' n _ hn m hm => ?_
    rwa [List.mem_singleton.mp hm]

omit hg in
theorem part_atom {S : Scope} {t : Token} {n : Node} (h : atom? t = some n) : n.Part S := by
  unfold atom? at h
  split at h <;> cases h <;> exact Node.part_plain rfl (by simp)

omit hg in
theorem part_atomicPattern {S : Scope} {t : Token} {n : Node} (h : atomicPattern? t = some n) :
    n.Part S := by
  unfold atomicPattern? at h
  split at h <;> cases h <;> exact Node.part_plain rfl (by simp)

theorem readExpression (l : Level) (r : Registry) :
    Conducts r (g.readExpression l) fun r n => n.Part r.scope := by
  have start : Conducts r g.operand fun r n => n.Part r.scope := by
    refine ofNode_iff.mp fun s hr le => ?_
    rw [Phrase.operand_run]
    cases ha : atom? s.next with
    | some n =>
      refine ⟨.refl _, hr, fun f e m hm => ?_⟩
      cases e
      rw [List.mem_singleton.mp hm]
      exact part_atom ha
    | none =>
      cases ho : s.next.reserved?.bind Phrase.operand? with
      | none => exact ⟨.refl _, hr, fun _ e => nomatch e⟩
      | some a =>
        obtain ⟨m, -, hm⟩ := Option.bind_eq_some_iff.mp ho
        exact hg.operand r hm s hr le
  exact start.bind fun left r₁ _ hl => .of_get fun s => hg.extendUpTo l _ r₁ hl

theorem readPattern (r : Registry) : Conducts r g.readPattern fun r n => n.Part r.scope := by
  refine ofNode_iff.mp fun s hr le => ?_
  rw [Phrase.pattern_run]
  cases ha : atomicPattern? s.next with
  | some n =>
    refine ⟨.refl _, hr, fun f e m hm => ?_⟩
    cases e
    rw [List.mem_singleton.mp hm]
    exact part_atomicPattern ha
  | none =>
    cases ho : s.next.reserved?.bind Phrase.pattern? with
    | none => exact ⟨.refl _, hr, fun _ e => nomatch e⟩
    | some a =>
      obtain ⟨m, -, hm⟩ := Option.bind_eq_some_iff.mp ho
      exact hg.read (Phrase.plain_pattern hm) r s hr le

theorem quote (r : Registry) : Conducts r g.quote fun r n => n.Holder r.scope := by
  refine (conducts_consume _).bind fun start r₁ _ _ => ?_
  refine (conducts_check _).bind fun c r₂ _ _ => ?_
  have close : ∀ inner r, Node.Part r.scope inner → Conducts r (do
      discard (consume .quoteClose)
      return Node.quote (← spanFrom start) inner) fun r n => n.Holder r.scope := by
    intro inner r hi
    refine (conducts_consume _).discard.bind fun _ r₁ le₁ _ => ?_
    refine (conducts_spanFrom start).bind fun span r₂ le₂ _ => .pure fun r₃ le₃ => ?_
    refine Node.holder_plain rfl rfl ?_
    simpa [Slot.toList] using hi.onward (le_trans (le_trans le₁ le₂) le₃)
  exact .ite ((hg.body r₂).bind fun inner r _ => close inner r)
    ((hg.expression r₂ _).bind fun inner r _ => close inner r)

theorem macroRule (r : Registry) : Conducts r g.macroRule fun r n => n.Holder r.scope := by
  refine (conducts_consume _).bind fun start r₁ _ _ => ?_
  refine (hg.wellFormedPattern r₁).bind fun pattern r₂ _ hp => ?_
  refine conducts_ruleArrow.bind fun b r₃ le₃ _ => ?_
  have close : ∀ template r, r₃ ≤ r → Node.Part r.scope template → Conducts r (do
      discard (consume .ruleClose)
      return Node.macroRule (← spanFrom start) b pattern template)
        fun r n => n.Holder r.scope := by
    intro template r le ht
    refine (conducts_consume _).discard.bind fun _ r₄ le₄ _ => ?_
    refine (conducts_spanFrom start).bind fun span r₅ le₅ _ => .pure fun r₆ le₆ => ?_
    have le' := le_trans (le_trans le₄ le₅) le₆
    refine Node.holder_plain rfl rfl ?_
    simpa [Slot.toList] using ⟨hp.onward (le_trans le₃ (le_trans le le')), ht.onward le'⟩
  exact .ite ((hg.body r₃).bind close) ((hg.expression r₃ _).bind close)

theorem macroBody (r : Registry) : Conducts r g.macroBody fun r b =>
    (∀ n ∈ b.1, n.Holder r.scope) ∧ ∀ q, b.2 = some q → q.Holder r.scope := by
  refine (conducts_check _).bind fun c r₁ _ _ => ?_
  cases c
  · refine (Conducts.repeatWhile (fun _ _ _ le h => h.onward le) (fun _ _ => conducts_check _)
      fun r _ => hg.macroRule r).bind fun rules r₂ _ hs => ?_
    have found : Conducts r₂ (pure (rules, none) : Parser (List Node × Option Node)) fun r b =>
        (∀ n ∈ b.1, n.Holder r.scope) ∧ ∀ q, b.2 = some q → q.Holder r.scope := by
      refine .pure fun r₃ le => ⟨fun n hn => (hs n hn).onward le, ?_⟩
      rintro q ⟨⟩
    split
    · refine Conducts.bind (conducts_fail _) fun (_ : Unit) r₃ le (_ : True) => found.onward le
    · exact found
  · refine (hg.quote r₁).bind fun template r₂ _ ht => .pure fun r₃ le => ⟨?_, ?_⟩
    · exact fun n hn => (List.not_mem_nil hn).elim
    · rintro q ⟨⟩
      exact ht.onward le

theorem macroDef (settings : Settings) (r : Registry) :
    Conducts r (g.macroDef settings) fun r n => n.Part r.scope := by
  refine (conducts_openConstruct _).bind fun start r₁ _ _ => ?_
  refine (conducts_consumeName _).bind fun name r₂ _ _ => ?_
  refine conducts_parameterNames.bind fun params r₃ _ _ => ?_
  refine (conducts_markOr _ _).bind fun phase r₄ _ _ => ?_
  refine (conducts_markOr _ _).bind fun hygiene r₅ _ _ => ?_
  refine (conducts_openConstruct _).discard.bind fun _ r₆ _ _ => ?_
  refine (hg.macroBody r₆).bind fun b r₇ le₇ hb => ?_
  refine conducts_closeConstruct.bind fun _ r₈ le₈ _ => ?_
  refine conducts_closeConstruct.bind fun _ r₉ le₉ _ => ?_
  refine (conducts_spanFrom _).bind fun span r₁₀ le₁₀ _ => ?_
  have le := le_trans (le_trans le₈ le₉) le₁₀
  refine (conducts_register ⟨fun n hn => (hb.1 n hn).onward le,
    fun q hq => (hb.2 q hq).onward le⟩).bind fun _ r₁₁ le₁₁ known => .pure fun r₁₂ le₁₂ => ?_
  have le := le_trans (le_trans le le₁₁) le₁₂
  refine Node.part_macroDef (le₁₂ _ known) ?_
  intro s hs n hn
  rcases List.mem_cons.mp hs with rfl | hs
  · exact ((hb.1 n hn).onward le).part
  · rw [List.mem_singleton.mp hs] at hn
    rw [Slot.toList_ofOption, Option.mem_toList] at hn
    exact ((hb.2 n hn).onward le).part

/-! ## Statements -/

theorem expressionStmt (r : Registry) :
    Conducts r g.expressionStmt fun r n => n.Regular r.scope := by
  refine conducts_peek.bind fun start r₁ _ _ => ?_
  refine (hg.expression r₁ _).bind fun e r₂ _ he => ?_
  refine (conducts_spanFrom start).bind fun span r₃ le _ => .pure fun r₄ le' => ?_
  exact Node.regular_expressionStmt (he.onward (le_trans le le'))

theorem plainStatement (settings : Settings) (r : Registry) :
    Conducts r (g.plainStatement settings) fun r n => n.Regular r.scope := by
  have one : ∀ {r : Registry} {n : Node}, (Found.ofNode n).Parts r.scope → n.Regular r.scope :=
    fun h => (h _ (List.mem_singleton_self _)).regular
  unfold Nonterminals.plainStatement
  refine conducts_peek.bind fun t r₁ _ _ => ?_
  cases h : t.reserved?.bind (g.statementWith? settings) with
  | none => exact hg.expressionStmt r₁
  | some production =>
    obtain ⟨m, -, hm⟩ := Option.bind_eq_some_iff.mp h
    by_cases hd : m = .macroOpen
    · subst hd
      cases hm
      exact (hg.macroDef settings r₁).mono fun _ _ _ hn => hn.regular
    · have table := Phrase.read_statement? g settings m
      rw [hm, Option.map_some] at table
      obtain ⟨a, ha, hp⟩ := Option.map_eq_some_iff.mp table
      have := hg.read (Phrase.plain_statement ha hd) r₁
      rw [hp] at this
      exact (ofNode_iff.mp this).mono fun _ _ _ hn => hn.regular

end Nonterminals.Conduct

end GlyphScript
