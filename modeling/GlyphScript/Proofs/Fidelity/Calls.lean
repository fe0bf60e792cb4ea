import GlyphScript.Proofs.Fidelity.Derivations

/-!
# Calls and definitions that are derived

A call whose callee is the name of a macro that is known when the call ends is
derived as the call of the macro. So in a tree that is derived no call of a name
comes after the definition of a macro of that name.
-/

namespace GlyphScript

open Reserved

/-! ## Macros on the way -/

/-- From the macros of `k` to those of `k'` the nodes come to their ends: what they define is known
then, and none of them calls by its name a macro that is known. -/
structure Macros.Settle (k : Macros) (t : List Node) (k' : Macros) : Prop where
  kept : ∀ e ∈ k, e ∈ k'
  defined : ∀ m ∈ t, ∀ e, m.definition? = some e → e ∈ k'
  apart : CallsApart k t

namespace Macros.Settle

variable {k k' k'' : Macros} {t u : List Node} {n : Node}

theorem nil : k.Settle [] k :=
  ⟨fun _ => id, fun _ hm => (List.not_mem_nil hm).elim, fun _ hc => (List.not_mem_nil hc).elim, .nil⟩

theorem append (h : k.Settle t k') (h' : k'.Settle u k'') : k.Settle (t ++ u) k'' where
  kept e he := h'.kept e (h.kept e he)
  defined m hm e he :=
    (List.mem_append.mp hm).elim (fun hm => h'.kept e (h.defined m hm e he)) (h'.defined m · e he)
  apart := by
    refine ⟨fun c hc x hx => ?_, List.pairwise_append.mpr ⟨h.apart.among, h'.apart.among, ?_⟩⟩
    · rcases List.mem_append.mp hc with hc | hc
      · exact h.apart.known c hc x hx
      · by_contra defined
        obtain ⟨e, he, rfl⟩ := Macros.defines_iff.mp (Bool.not_eq_false _ ▸ defined)
        have unknown := h'.apart.known c hc e.1 hx
        rw [Macros.defines_iff.mpr ⟨e, h.kept e he, rfl⟩] at unknown
        cases unknown
    · intro d hd c hc
      by_contra called
      rw [Bool.not_eq_false, Node.isCalledBy, Option.any_eq_true] at called
      obtain ⟨e, he, hx⟩ := called
      have unknown := h'.apart.known c hc e.1 (of_decide_eq_true hx)
      rw [Macros.defines_iff.mpr ⟨e, h.defined d hd e he, rfl⟩] at unknown
      cases unknown

theorem sublist (h : k.Settle t k') (sub : u.Sublist t) : k.Settle u k' where
  kept := h.kept
  defined m hm := h.defined m (sub.subset hm)
  apart := ⟨fun c hc => h.apart.known c (sub.subset hc), h.apart.among.sublist sub⟩

/-- One more node that calls no macro known and defines none but those known then. -/
theorem one (kept : ∀ e ∈ k, e ∈ k') (defined : ∀ e, n.definition? = some e → e ∈ k')
    (unknown : ∀ x, n.calledName? = some x → k.defines x = false) : k.Settle [n] k' where
  kept
  defined := List.forall_mem_singleton.mpr defined
  apart := ⟨List.forall_mem_singleton.mpr unknown, List.pairwise_singleton ..⟩

/-- Nodes that neither define nor call anything. -/
theorem idle (h : ∀ m ∈ t, m.definition? = none ∧ m.calledName? = none) : k.Settle t k where
  kept _ := id
  defined m hm e he := by
    rw [(h m hm).1] at he
    cases he
  apart := by
    have uncalled : ∀ c ∈ t, ∀ x, c.calledName? ≠ some x := fun c hc x hx => by
      rw [(h c hc).2] at hx
      cases hx
    refine ⟨fun c hc x hx => absurd hx (uncalled c hc x), ?_⟩
    refine List.pairwise_iff_forall_sublist.mpr fun {d c} sub => ?_
    by_contra called
    rw [Bool.not_eq_false, Node.isCalledBy, Option.any_eq_true] at called
    obtain ⟨e, -, hx⟩ := called
    exact uncalled c (sub.subset (by simp)) e.1 (of_decide_eq_true hx)

end Macros.Settle

/-! ## Nodes -/

namespace Found

/-- The nodes below what is found, in the order in which their texts end. -/
def finished (f : Found) : List Node := f.nodes.flatMap Node.finished

theorem finished_append (f h : Found) : (f ++ h).finished = f.finished ++ h.finished := by
  rw [finished, nodes_append, List.flatMap_append]
  rfl

theorem finished_eq (f : Found) :
    f.finished = f.slots.flatMap fun s => s.toList.flatMap Node.finished := by
  rw [finished, nodes, List.flatMap_assoc]

theorem finished_ofNode (span : Span) (head : Head) (f : Found) :
    (ofNode (.mk span head f.slots)).finished = f.finished ++ [Node.mk span head f.slots] := by
  rw [finished_eq f, ← Node.finished_mk]
  exact List.append_nil _

theorem finished_ofNodes_cons (n : Node) (ns : List Node) :
    (ofNodes (n :: ns)).finished = (ofNode n).finished ++ (ofNodes ns).finished := by
  simp [finished, nodes, ofNode, ofNodes, Slot.toList]

end Found

namespace Node

/-- The further arms of a conditional come to their ends after what is in them. -/
theorem finished_nestSlots (stop : Location) (places : List Location) (slots : List (Slot Node)) :
    ∃ t u, (nestSlots stop places slots).toList.flatMap finished = t ++ u ∧
      t.Sublist (slots.flatMap fun s => s.toList.flatMap finished) ∧ ∀ m ∈ u, m.head = .ifStmt := by
  induction places generalizing slots with
  | nil =>
    refine ⟨_, [], (List.append_nil _).symm, ?_, List.forall_mem_nil _⟩
    cases slots with
    | nil => exact .refl _
    | cons s slots => exact List.sublist_append_left _ _
  | cons start places ih =>
    rcases slots with _ | ⟨condition, _ | ⟨body, slots⟩⟩
    · exact ⟨[], [], rfl, .refl _, List.forall_mem_nil _⟩
    · exact ⟨_, [], (List.append_nil _).symm, List.sublist_append_left _ _, List.forall_mem_nil _⟩
    · obtain ⟨t, u, ends, sub, arms⟩ := ih slots
      refine ⟨condition.toList.flatMap finished ++ (body.toList.flatMap finished ++ t),
        u ++ [mk ⟨start, stop⟩ .ifStmt [condition, body, nestSlots stop places slots]], ?_, ?_, ?_⟩
      · rw [nestSlots, Slot.toList, List.flatMap_singleton, finished_mk]
        simp [ends]
      · exact (List.Sublist.refl _).append ((List.Sublist.refl _).append sub)
      · exact fun m hm => (List.mem_append.mp hm).elim (arms m) fun hm => by
          rw [List.mem_singleton.mp hm]
          rfl

theorem finished_ofArms (span : Span) (places : List Location) (slots : List (Slot Node)) :
    ∃ t u, (ofArms span places slots).finished = t ++ u ∧
      t.Sublist (slots.flatMap fun s => s.toList.flatMap finished) ∧ ∀ m ∈ u, m.head = .ifStmt := by
  rcases slots with _ | ⟨condition, _ | ⟨body, slots⟩⟩
  · exact ⟨_, _, finished_mk .., .refl _, List.forall_mem_singleton.mpr rfl⟩
  · exact ⟨_, _, finished_mk .., .refl _, List.forall_mem_singleton.mpr rfl⟩
  · obtain ⟨t, u, ends, sub, arms⟩ := finished_nestSlots span.stop places slots
    refine ⟨condition.toList.flatMap finished ++ (body.toList.flatMap finished ++ t),
      u ++ [mk span .ifStmt [condition, body, nestSlots span.stop places slots]], ?_, ?_, ?_⟩
    · rw [ofArms, finished_mk]
      simp [ends]
    · exact (List.Sublist.refl _).append ((List.Sublist.refl _).append sub)
    · exact fun m hm => (List.mem_append.mp hm).elim (arms m) fun hm => by
        rw [List.mem_singleton.mp hm]
        rfl

theorem idle_ifStmt {n : Node} (h : n.head = .ifStmt) :
    n.definition? = none ∧ n.calledName? = none := by
  obtain ⟨span, head, slots⟩ := n
  obtain rfl : head = .ifStmt := h
  exact ⟨rfl, rfl⟩

theorem calledName?_of_head {span : Span} {head : Head} {slots : List (Slot Node)}
    (h : head ≠ .call) : (mk span head slots).calledName? = none := by
  unfold calledName?
  split
  · rename_i is _
    exact absurd is h
  · rfl

theorem calledName?_mk_call (span : Span) (n : Node) (slots : List (Slot Node)) :
    (mk span .call (.one n :: slots)).calledName? = match n.head with
      | .identifier x => some x
      | _ => none :=
  rfl

end Node

/-! ## Phrases -/

namespace Phrase

/-- No node of the phrase is a call, none is given, and every definition becomes known. -/
def Declares : Phrase → Prop
  | give f => f.nodes = []
  | node head a => (∀ x, head x ≠ .call) ∧
    (∀ ms f e k, a.Bears ms f → (Node.mk default (head f.attributes) f.slots).definition? = some e →
      e ∈ Macros.after k (.mk default (head f.attributes) f.slots)) ∧ a.Declares
  | seq a b | either _ a b | ahead a b => a.Declares ∧ b.Declares
  | star _ a | gather a | list a | demand a _ | chain a | construct _ a => a.Declares
  | _ => True

attribute [local simp] Declares Node.definition? Node.head

theorem declares_operand {r : Reserved} {a : Phrase} (h : operand? r = some a) : a.Declares := by
  cases IsOperand.of h <;> simp [group, tupleLiteral, tensorLiteral, comprehension,
    comprehensionClause, lambda, quote, unquote, markedCall, negation, awaiting, arguments, seqs,
    items, expression, manyOf, someOf]

theorem declares_pattern {r : Reserved} {a : Phrase} (h : pattern? r = some a) : a.Declares := by
  cases IsComposite.of h <;> simp [composite, seqs, items]

theorem declares_tail {r : Reserved} {m : Level} {a : Phrase} (h : tail? r = some (m, a)) :
    a.Declares := by
  cases IsTail.of h <;> simp [arguments, items, seqs, expression]

theorem declares_macroDef (settings : Settings) : (macroDef settings).Declares := by
  refine ⟨fun x => by simp [macroHead], fun ms f e k made defines => ?_, ?_⟩
  · obtain ⟨_, rfl, made⟩ := made
    obtain ⟨_, _, _, _, rfl, ⟨x, hx, rfl, rfl⟩, made, rfl⟩ := made
    obtain ⟨_, _, _, _, rfl, params, made, rfl⟩ := made
    obtain ⟨_, _, _, _, rfl, phase, made, rfl⟩ := made
    obtain ⟨_, _, _, _, rfl, hygiene, ⟨_, rfl, made⟩, rfl⟩ := made
    obtain ⟨xs, -, rfl, rfl⟩ := params.parameters
    obtain ⟨rfl, phases, rfl⟩ := bears_oneOf (by decide) phase
    obtain ⟨rfl, hygienes, rfl⟩ := bears_oneOf (by decide) hygiene
    obtain ⟨ns, s, -, -, -, rfl, rfl⟩ := bears_macroBody made
    cases defines
    exact List.mem_cons_self
  · simp [parameters, phaseMark, hygieneMark, oneOf, macroBody, macroRule, ruleTemplate, quote,
      manyOf, items, seqs, expression, Found.nodes, Found.nothing, Found.ofNodes, Found.ofOption,
      Slot.ofOption, Slot.toList]

theorem declares_statement {settings : Settings} {r : Reserved} {a : Phrase}
    (h : statement? settings r = some a) : a.Declares := by
  cases IsStatement.of h
  case macroOpen => exact declares_macroDef settings
  all_goals simp [assignment, importDecl, modulePath, importAlias, returnStmt, yieldStmt,
    optionalValue, breakStmt, continueStmt, memoryStmt, deviceStmt, blockStmt, exceptClause,
    tryStmt, caseClause, matchStmt, functionDef, asyncFunctionDef, classDef, ifStmt, arm, loopStmt,
    loopHeader, parallelStmt, gpuStmt, tensorDecl, neuralNet, streamStmt, arguments, optionalArguments,
    optionalNode, parameters, items, seqs, expression, manyOf, someOf, Found.nodes, Found.nothing,
    Found.ofOption, Slot.ofOption, Slot.toList]

theorem declares_expressionStmt : expressionStmt.Declares := by
  simp [expressionStmt, expression]

end Phrase

/-! ## Derivations -/

section

variable {settings : Settings} {k k' : Macros} {us : List Word}

/-- A node without children that is neither a call nor a definition. -/
theorem settle_leaf {head : Head} (called : head ≠ .call)
    (plain : (Node.mk default head []).definition? = none) :
    k.Settle (Found.ofNode (.mk default head [])).finished k :=
  .idle <| List.forall_mem_singleton.mpr ⟨plain, Node.calledName?_of_head called⟩

/-- A left operand and the tail behind it. If the callee is the name of a macro that is known, the
call is a call of the macro. -/
theorem settle_extended (k : Macros) (m : Level) (n : Node) (f : Found) :
    ∃ t, (Found.ofNode (Node.extended k.defines default m n f)).finished =
        t ++ [Node.extended k.defines default m n f] ∧
      t.Sublist ((Found.ofNode n).finished ++ f.finished) ∧
      k.Settle [Node.extended k.defines default m n f] k := by
  have parts (head : Head) : (Found.ofNode (.mk default head (.one n :: f.slots))).finished =
      (Found.ofNode n).finished ++ f.finished ++ [Node.mk default head (.one n :: f.slots)] := by
    rw [show Found.ofNode (.mk default head (.one n :: f.slots)) =
      .ofNode (.mk default head (Found.ofNode n ++ f).slots) from rfl, Found.finished_ofNode,
      Found.finished_append]
    rfl
  have plain {head : Head} {slots : List (Slot Node)} (called : head ≠ .call)
      (defines : (Node.mk default head slots).definition? = none) :
      k.Settle [.mk default head slots] k :=
    .idle <| List.forall_mem_singleton.mpr ⟨defines, Node.calledName?_of_head called⟩
  have call (unknown : ∀ x, n.head = .identifier x → k.defines x = false) :
      k.Settle [.mk default .call (.one n :: f.slots)] k := by
    refine .one (fun _ => id) (fun e he => nomatch he) fun x hx => ?_
    rw [Node.calledName?_mk_call] at hx
    split at hx
    · rename_i y is
      cases hx
      exact unknown _ is
    · cases hx
  cases m
  case postfixed =>
    unfold Node.extended
    dsimp only
    split
    · rename_i x is
      split
      · exact ⟨f.finished, Found.finished_ofNode .., List.sublist_append_right _ _,
          plain (by simp) rfl⟩
      · rename_i unknown
        refine ⟨_, parts .call, .refl _, call fun y hy => ?_⟩
        cases is.symm.trans hy
        simpa using unknown
    · rename_i other
      exact ⟨_, parts .call, .refl _, call fun y hy => absurd hy (other y)⟩
  all_goals exact ⟨_, parts _, .refl _, plain (by simp) rfl⟩

/-- Along a derivation nothing is called that is known as a macro. -/
theorem Derives.settles {a : Phrase} {f : Found} (h : Derives settings a k us k' f)
    (declares : a.Declares) (later : k'.Later) (lexemes : ∀ w ∈ us, IsLexeme w.1 w.2.toList) :
    k.Settle f.finished k' := by
  induction h with
  | @give f k =>
    have none : f.nodes = [] := declares
    rw [Found.finished, Found.nodes_unplaced, none]
    exact .nil
  | place | mark | kept | spelled | name | starNil | noStatement => exact .nil
  | seq _ behind iha ihb =>
    obtain ⟨here, there⟩ := List.forall_mem_append.mp lexemes
    rw [Found.finished_append]
    exact (iha declares.1 (behind.later later) here).append (ihb declares.2 later there)
  | starCons _ behind iha ihb =>
    obtain ⟨here, there⟩ := List.forall_mem_append.mp lexemes
    rw [Found.finished_append]
    exact (iha declares (behind.later later) here).append (ihb declares later there)
  | left _ ih | bound _ ih => exact ih declares.1 later lexemes
  | right _ ih | unbound _ ih => exact ih declares.2 later lexemes
  | gather _ ih => exact ih declares later lexemes
  | list _ ih =>
    rw [Found.finished, Found.nodes_listed]
    exact ih declares later lexemes
  | demand _ _ ih => exact ih declares later lexemes
  | @node head a k k' us f derived ih =>
    obtain ⟨called, defined, declares⟩ := declares
    obtain ⟨ms, -, made⟩ := derived.outlined later.of_after lexemes
    rw [Found.finished_ofNode]
    refine (ih declares later.of_after lexemes).append (.one (fun e he => ?_) ?_ fun x hx => ?_)
    · unfold Macros.after
      split
      · exact List.mem_cons_of_mem _ he
      · exact he
    · exact fun e => defined ms f e k' made
    · rw [Node.calledName?_of_head (called _)] at hx
      cases hx
  | @chain a k k' us f _ ih =>
    obtain ⟨t, u, ends, sub, arms⟩ := Node.finished_ofArms default f.places f.slots
    have whole : (Found.ofNode (Node.ofArms default f.places f.slots)).finished = t ++ u :=
      (List.append_nil _).trans ends
    rw [whole]
    rw [← Found.finished_eq] at sub
    exact ((ih declares later lexemes).sublist sub).append
      (.idle fun m hm => Node.idle_ifStmt (arms m hm))
  | construct _ ih => exact ih declares later fun w hw => lexemes w (by simp [hw])
  | @atom t n k h =>
    unfold Nonterminals.atom? at h
    split at h <;> cases h <;> exact settle_leaf (by simp) rfl
  | operand h _ ih => exact ih (Phrase.declares_operand h) later lexemes
  | tighter _ _ ih => exact ih trivial later lexemes
  | @tail r m a k₁ k₂ k₃ us vs n f h _ behind iha ihb =>
    obtain ⟨here, there⟩ := List.forall_mem_append.mp lexemes
    obtain ⟨t, ends, sub, last⟩ := settle_extended k₃ m n f
    rw [ends]
    have parts := (iha trivial (behind.later later) here).append
      (ihb (Phrase.declares_tail h) later there)
    exact (parts.sublist sub).append last
  | @atomicPattern t n k h =>
    unfold Nonterminals.atomicPattern? at h
    split at h <;> cases h <;> exact settle_leaf (by simp) rfl
  | compositePattern h _ ih => exact ih (Phrase.declares_pattern h) later lexemes
  | binding _ _ ih => exact ih trivial later lexemes
  | @body ns k k' us x y _ ih =>
    have block : (Found.ofNode (.block default ns [])).finished =
        (Found.ofNodes ns).finished ++ [Node.block default ns []] :=
      Found.finished_ofNode default (.block []) (.ofNodes ns)
    rw [block]
    refine (ih trivial later fun w hw => lexemes w (by simp [hw])).append (.idle ?_)
    exact List.forall_mem_singleton.mpr ⟨rfl, Node.calledName?_of_head (by simp)⟩
  | @statement r a k₁ k₂ k₃ us vs n ns h _ behind iha ihb =>
    obtain ⟨here, there⟩ := List.forall_mem_append.mp lexemes
    rw [Found.finished_ofNodes_cons]
    exact (iha (Phrase.declares_statement h) (behind.later later) here).append
      (ihb trivial later there)
  | @expressionStmt k₁ k₂ k₃ us vs n ns _ behind _ iha ihb =>
    obtain ⟨here, there⟩ := List.forall_mem_append.mp lexemes
    rw [Found.finished_ofNodes_cons]
    exact (iha Phrase.declares_expressionStmt (behind.later later) here).append (ihb trivial later there)

end

end GlyphScript
