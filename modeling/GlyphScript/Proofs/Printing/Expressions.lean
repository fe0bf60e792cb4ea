import GlyphScript.Proofs.Printing.Nodes

/-!
# Printing expressions and patterns

The words printed for an expression derive from its level, and those printed for
a pattern derive from the patterns, as soon as this holds of their parts.
-/

namespace GlyphScript

open Reserved Words

section

variable {settings : Settings} {span : Span}

/-! ## Atoms -/

/-- A literal is one token, which is read as the literal. -/
theorem literal_lexeme {value : Scalar} {kind : LiteralKind} (h : value.isSpelled kind = true) :
    ∃ t : Token, t.lexeme = literalSpelling value kind ∧ IsLexeme t.kind t.lexeme.toList ∧
      Nonterminals.atom? t = some (.literal t.span value kind) ∧
      Nonterminals.atomicPattern? t = some (.literalPattern t.span value kind) := by
  unfold Scalar.isSpelled at h
  split at h
  · rename_i n
    simp only [Bool.and_eq_true, decide_eq_true_eq] at h
    obtain ⟨n, rfl⟩ := Int.eq_ofNat_of_zero_le h.1
    exact ⟨⟨.number n, toString (n : Int), default, none⟩, rfl, isLexeme_numeral h.2, rfl, rfl⟩
  · rename_i s
    exact ⟨⟨.text s, stringSpelling s, default, none⟩, rfl, isLexeme_string s, rfl, rfl⟩
  · rename_i b
    cases b
    · exact ⟨⟨.reserved .falseMark, _, default, none⟩, rfl, isLexeme_reserved _, rfl, rfl⟩
    · exact ⟨⟨.reserved .trueMark, _, default, none⟩, rfl, isLexeme_reserved _, rfl, rfl⟩
  · exact ⟨⟨.reserved .nullMark, _, default, none⟩, rfl, isLexeme_reserved _, rfl, rfl⟩
  · cases h

namespace Node

/-- A node that is one token, wherever the node stands. -/
theorem printsAs_token {head : Head} {a : Phrase} {t : Token} {q : Words}
    (lexeme : IsLexeme t.kind t.lexeme.toList)
    (derives : ∀ k, Derives settings a k [t.word] k (.ofNode (mk t.span head []).unplaced))
    (words : q = word t.lexeme) : (mk span head []).PrintsAs settings a q := by
  have one := Prints.word lexeme derives
  rw [unplaced_mk] at one
  rw [PrintsAs, words, unplaced_mk]
  exact one.weaken

/-! ## Operands -/

section

variable {head : Head} {slots : List (Slot Node)} {n : Node} {r : Reserved} {a : Phrase} {p : Words}

theorem printsAs_of_operand (h : Phrase.operand? r = some a) (made : n.PrintsAs settings a p)
    (level : n.level.rank ≤ (Phrase.operandLevel r).rank) :
    n.PrintsAs settings (.part (.expression n.level)) p :=
  made.of_derives fun _ _ _ derived => .tighter level (.operand h derived)

/-- No parameter is printed as one empty word. -/
theorem separatedBy_names {names : List String} (h : ∀ x ∈ names, lexesAsIdentifier x = true) :
    (if separatedBy separator (names.map ([·])) = [""] then []
      else separatedBy separator (names.map ([·]))) =
    if names.isEmpty then [] else separatedBy separator (names.map ([·])) := by
  cases names with
  | nil => rfl
  | cons x names =>
    have named : x ≠ "" := by
      rintro rfl
      exact absurd (h "" List.mem_cons_self) (by decide)
    rw [List.map_cons, separatedBy_cons]
    simp [named]

theorem prints_lambda {params : List String} (hp : ∀ x ∈ params, lexesAsIdentifier x = true)
    (hn : n.PrintsAs settings Phrase.expression n.printed.words) :
    (lambda span params n).PrintsAs settings Phrase.lambda (lambda span params n).printed.words := by
  refine printsAs_node
    (Prints.mark.seq ((prints_names hp arrow).seq (hn.seq Prints.mark))) ?_ ?_ rfl
  · simp [Slot.toList]
  · rw [lambda, printed_mk, itemWords_word, ← separatedBy_names hp]
    show (do return List.flatten [_, if separatedBy separator (params.map ([·])) = [""] then []
        else separatedBy separator (params.map ([·])), _, ← n.printed.words, _]) = _
    cases n.printed.words with
    | error e => rfl
    | ok ws =>
      show Except.ok (_ ++ (_ ++ ([_] ++ (ws ++ _)))) = Except.ok (_ ++ (_ ++ _ ++ (ws ++ _)))
      simp

theorem prints_quote (hn : n.PrintsAs settings (.either bodyOpen (.part .body) Phrase.expression)
      n.printed.words) :
    (quote span n).PrintsAs settings Phrase.quote (quote span n).printed.words := by
  refine printsAs_node (Prints.mark.seq (hn.seq Prints.mark)) ?_ ?_ rfl
  · simp [Slot.toList]
  · rw [quote, printed_mk]
    show (do return List.flatten [_, ← n.printed.words, _]) = _
    cases n.printed.words <;> rfl

theorem prints_unquote (hn : n.PrintsAs settings Phrase.expression n.printed.words) :
    (unquote span n).PrintsAs settings Phrase.unquote (unquote span n).printed.words := by
  refine printsAs_node (Prints.mark.seq (hn.seq Prints.mark)) ?_ ?_ rfl
  · simp [Slot.toList]
  · rw [unquote, printed_mk]
    show (do return List.flatten [_, ← n.printed.words, _]) = _
    cases n.printed.words <;> rfl

theorem prints_awaitExpr
    (hn : n.PrintsAs settings (.part (.expression .unary)) (n.printed.operand .unary)) :
    (awaitExpr span n).PrintsAs settings Phrase.awaiting (awaitExpr span n).printed.words := by
  refine printsAs_node (Prints.mark.seq hn) ?_ ?_ rfl
  · simp [Slot.toList]
  · rw [awaitExpr, printed_mk]
    show (do return _ :: (← n.printed.operand .unary)) = _
    cases n.printed.operand .unary <;> rfl

theorem prints_unaryOp
    (hn : n.PrintsAs settings (.part (.expression .unary)) (n.printed.operand .unary)) :
    (unaryOp span negate.spelling n).PrintsAs settings Phrase.negation
      (unaryOp span negate.spelling n).printed.words := by
  refine printsAs_node (Prints.spelled.seq hn) ?_ ?_ rfl
  · simp [Slot.toList]
  · rw [unaryOp, printed_mk]
    show (do return _ :: (← n.printed.operand .unary)) = _
    cases n.printed.operand .unary <;> rfl

variable {ns : List Node}

theorem prints_tupleLiteral
    (hn : ∀ n ∈ ns, n.PrintsAs settings Phrase.expression n.printed.words) :
    (tupleLiteral span ns).PrintsAs settings Phrase.tupleLiteral
      (tupleLiteral span ns).printed.words := by
  refine printsAs_node (Prints.mark.seq (prints_items listClose hn)) ?_ ?_ rfl
  · simp [Slot.toList]
  · rw [tupleLiteral, printed_mk]
    exact argumentWords_many _

theorem prints_tensorLiteral
    (hn : ∀ n ∈ ns, n.PrintsAs settings Phrase.expression n.printed.words) :
    (tensorLiteral span ns).PrintsAs settings Phrase.tensorLiteral
      (tensorLiteral span ns).printed.words := by
  refine printsAs_node (Prints.mark.seq (prints_items tensorLitClose hn)) ?_ ?_ rfl
  · simp [Slot.toList]
  · rw [tensorLiteral, printed_mk]
    exact enclosed_eq ..

theorem prints_macroCall {x : String} (hx : lexesAsIdentifier x = true)
    (hn : ∀ n ∈ ns, n.PrintsAs settings Phrase.expression n.printed.words) :
    (macroCall span x ns false).PrintsAs settings Phrase.markedCall
      (macroCall span x ns false).printed.words := by
  refine printsAs_node (Prints.mark.seq ((Prints.name hx).seq (prints_arguments hn))) ?_ ?_ rfl
  · simp [Slot.toList]
  · rw [macroCall, printed_mk]
    show (do return List.flatten [_, ← argumentWords (.many (ns.map printed))]) = _
    cases argumentWords (.many (ns.map printed)) with
    | error e => rfl
    | ok ws =>
      show Except.ok (_ ++ (ws ++ [])) = _
      rw [List.append_nil]
      rfl

theorem prints_comprehensionClause {x : String} (hx : lexesAsIdentifier x = true)
    (hn : n.PrintsAs settings Phrase.expression n.printed.words)
    (hns : ∀ n ∈ ns, n.PrintsAs settings Phrase.expression n.printed.words) :
    (comprehensionClause span x n ns).PrintsAs settings Phrase.comprehensionClause
      (word pathSep.spelling ++ (comprehensionClause span x n ns).printed.clause) := by
  have conditions : ∀ n ∈ ns, n.PrintsAs settings (.seq (.mark compIf) Phrase.expression)
      (word compIf.spelling ++ n.printed.words) :=
    fun n h => Prints.mark.seq (hns n h)
  refine printsAs_node (Prints.mark.seq ((Prints.name hx).seq
    (Prints.mark.seq (hn.seq (prints_many conditions))))) ?_ ?_ rfl
  · simp [Slot.toList]
  · have more : clauseWords compIf (.many (ns.map printed)) (·.words) =
        join (ns.map fun n => word compIf.spelling ++ n.printed.words) := by
      rw [clauseWords_eq, List.map_map]
      rfl
    rw [comprehensionClause, printed_mk, ← more]
    show _ ++ (do return List.flatten [_, ← n.printed.words,
      ← clauseWords compIf (.many (ns.map printed)) (·.words)]) = _
    cases n.printed.words with
    | error e => rfl
    | ok ws =>
      cases clauseWords compIf (.many (ns.map printed)) (·.words) with
      | error e => rfl
      | ok vs =>
        show Except.ok (_ ++ (_ ++ (ws ++ (vs ++ [])))) = _
        rw [List.append_nil]
        rfl

theorem prints_comprehension (hn : n.PrintsAs settings Phrase.expression n.printed.words)
    (hns : ∀ n ∈ ns, n.PrintsAs settings Phrase.comprehensionClause
      (word pathSep.spelling ++ n.printed.clause)) (inhabited : ns ≠ []) :
    (comprehension span n ns).PrintsAs settings Phrase.comprehension
      (comprehension span n ns).printed.words := by
  refine printsAs_node (Prints.mark.seq
    (hn.seq ((prints_some hns inhabited).seq Prints.mark))) ?_ ?_ rfl
  · simp [Slot.toList]
  · have more : clauseWords pathSep (.many (ns.map printed)) (·.clause) =
        join (ns.map fun n => word pathSep.spelling ++ n.printed.clause) := by
      rw [clauseWords_eq, List.map_map]
      rfl
    rw [comprehension, printed_mk, ← more]
    show (do return List.flatten [_, ← n.printed.words,
      ← clauseWords pathSep (.many (ns.map printed)) (·.clause), _]) = _
    cases n.printed.words with
    | error e => rfl
    | ok ws => cases clauseWords pathSep (.many (ns.map printed)) (·.clause) <;> rfl

/-! ## Operators -/

/-- What is printed behind an operand goes on with it. -/
theorem printsAs_tail {m : Level} {c left : Node} {t u : List Node} {p q : Words} {f : Found}
    (h : Phrase.tail? r = some (m, a))
    (first : Prints settings (.part (.expression m)) t p (.ofNode left.unplaced))
    (second : Prints settings a u q f) (ends : c.finished = t ++ u ++ [c])
    (made : ∀ k, CallsApart k [c] → extended k.defines default m left.unplaced f = c.unplaced) :
    c.PrintsAs settings (.part (.expression m)) (p ++ q) := by
  intro k apart
  rw [ends] at apart
  obtain ⟨us, k', hp, words, derived, gain⟩ := first k apart.left.left
  obtain ⟨vs, k'', hq, words', derived', gain'⟩ := second k' (apart.left.right gain)
  refine ⟨us ++ vs, k'', append_ok hp hq, ?_, ?_, ?_⟩
  · intro w hw
    exact (List.mem_append.mp hw).elim (words w) (words' w)
  · rw [List.map_append, ← made k'' (apart.right (gain.trans gain'))]
    exact .tail h derived derived'
  · rw [ends]
    exact (gain.trans gain').trans .refl

/-- The operators of the language go on with a left operand of their own level. -/
theorem tail?_operator {r : Reserved} (h : r ∈ [add, subtract, multiply, divide]) :
    Phrase.tail? r = some (Level.ofOperator r.spelling,
      Phrase.seqs [.spelled r, .part (.expression (Level.ofOperator r.spelling).tighter)]) ∧
    ∀ known left f, extended known default (Level.ofOperator r.spelling) left f =
      mk default (.binaryOp f.attributes.name) (.one left :: f.slots) := by
  simp only [List.mem_cons, List.not_mem_nil, or_false] at h
  rcases h with rfl | rfl | rfl | rfl <;> exact ⟨rfl, fun _ _ _ => rfl⟩

theorem prints_binaryOp {operator : String} {left right : Node}
    (own : [add, subtract, multiply, divide].any (·.spelling = operator) = true)
    (hl : left.PrintsAs settings (.part (.expression left.level)) left.printed.words)
    (hr : right.PrintsAs settings (.part (.expression right.level)) right.printed.words) :
    (binaryOp span operator left right).PrintsAs settings
      (.part (.expression (Level.ofOperator operator)))
      (binaryOp span operator left right).printed.words := by
  obtain ⟨r, mem, spelled⟩ := List.any_eq_true.mp own
  obtain rfl : r.spelling = operator := by simpa using spelled
  obtain ⟨goes, made⟩ := tail?_operator mem
  have words : (binaryOp span r.spelling left right).printed.words =
      left.printed.operand (Level.ofOperator r.spelling) ++ (word r.spelling ++
        right.printed.operand (Level.ofOperator r.spelling).tighter) := by
    rw [binaryOp, printed_mk]
    show (do return List.flatten [← left.printed.operand (Level.ofOperator r.spelling), _,
      ← right.printed.operand (Level.ofOperator r.spelling).tighter]) = _
    cases left.printed.operand (Level.ofOperator r.spelling) with
    | error e => rfl
    | ok ws =>
      cases right.printed.operand (Level.ofOperator r.spelling).tighter with
      | error e => rfl
      | ok vs =>
        show Except.ok (ws ++ (_ ++ (vs ++ []))) = _
        rw [List.append_nil]
        rfl
  rw [words]
  refine printsAs_tail goes (printsAs_operand hl) (Prints.spelled.seq (printsAs_operand hr)) ?_ ?_
  · rw [binaryOp, finished_mk]
    simp [Slot.toList]
  · intro k _
    rw [made, binaryOp, unplaced_mk]
    rfl

theorem prints_conditional {condition consequent alternative : Node}
    (hc : condition.PrintsAs settings (.part (.expression condition.level)) condition.printed.words)
    (ht : consequent.PrintsAs settings Phrase.expression consequent.printed.words)
    (he : alternative.PrintsAs settings (.part (.expression alternative.level))
      alternative.printed.words) :
    (conditional span condition consequent alternative).PrintsAs settings
      (.part (.expression .conditional))
      (conditional span condition consequent alternative).printed.words := by
  have words : (conditional span condition consequent alternative).printed.words =
      condition.printed.operand .additive ++ (word condThen.spelling ++ (consequent.printed.words ++
        (word condElse.spelling ++ alternative.printed.operand .additive))) := by
    rw [conditional, printed_mk]
    show (do return List.flatten [← condition.printed.operand .additive, _,
      ← consequent.printed.words, _, ← alternative.printed.operand .additive]) = _
    cases condition.printed.operand .additive with
    | error e => rfl
    | ok us =>
      cases consequent.printed.words with
      | error e => rfl
      | ok vs =>
        cases alternative.printed.operand .additive with
        | error e => rfl
        | ok ws =>
          show Except.ok (us ++ (_ ++ (vs ++ (_ ++ (ws ++ []))))) = _
          rw [List.append_nil]
          rfl
  rw [words]
  have first : Prints settings (.part (.expression .conditional)) condition.finished
      (condition.printed.operand .additive) (.ofNode condition.unplaced) :=
    (printsAs_operand hc : condition.PrintsAs settings (.part (.expression .additive)) _).of_derives
      fun _ _ _ => .tighter (by decide)
  refine printsAs_tail (r := condThen) rfl first
    (Prints.mark.seq (ht.seq (Prints.mark.seq (printsAs_operand he)))) ?_ fun _ _ => ?_
  · rw [conditional, finished_mk]
    simp [Slot.toList]
  · rw [conditional, unplaced_mk]
    rfl

theorem prints_call {callee : Node}
    (hc : callee.PrintsAs settings (.part (.expression callee.level)) callee.printed.words)
    (hn : ∀ n ∈ ns, n.PrintsAs settings Phrase.expression n.printed.words) :
    (call span callee ns).PrintsAs settings (.part (.expression .postfixed))
      (call span callee ns).printed.words := by
  have words : (call span callee ns).printed.words =
      callee.printed.operand .postfixed ++ argumentWords (.many (ns.map printed)) := by
    rw [call, printed_mk]
    show (do return List.flatten [← callee.printed.operand .postfixed,
      ← argumentWords (.many (ns.map printed))]) = _
    cases callee.printed.operand .postfixed with
    | error e => rfl
    | ok us =>
      cases argumentWords (.many (ns.map printed)) with
      | error e => rfl
      | ok vs =>
        show Except.ok (us ++ (vs ++ [])) = _
        rw [List.append_nil]
        rfl
  rw [words]
  refine printsAs_tail (r := listOpen) rfl (printsAs_operand hc) (prints_arguments hn) ?_ ?_
  · rw [call, finished_mk]
    simp [Slot.toList]
  · intro k apart
    have unknown : ∀ x, callee.head = .identifier x → k.defines x = false := by
      intro x hx
      exact apart.known _ (List.mem_singleton.mpr rfl) x (calledName?_call hx)
    unfold extended
    dsimp only
    rw [head_unplaced, call, unplaced_mk]
    split
    · rename_i x hx
      rw [unknown x hx]
      rfl
    · rfl

/-! ## All expressions -/

theorem prints_expression {slots : List (Slot Node)} (is : head.category? = some .expression)
    (names : ∀ x ∈ head.names, lexesAsIdentifier x = true) (spelled : head.isSpelled = true)
    (complete : isComplete head slots = true)
    (fields : List.Forall₂ (Printable settings) head.fields slots) :
    Category.expression.Prints settings (mk span head slots) := by
  cases head
  case literal value kind =>
    obtain ⟨⟩ := fields
    obtain ⟨t, lexeme, isLexeme, atom, -⟩ := literal_lexeme spelled
    refine printsAs_token isLexeme (fun _ => .atom atom) ?_
    rw [printed_mk, lexeme]
    rfl
  case identifier x =>
    obtain ⟨⟩ := fields
    let t : Token := ⟨.identifier, x, default, none⟩
    have atom : Nonterminals.atom? t = some (identifier t.span x) := rfl
    refine printsAs_token (isLexeme_name (names x List.mem_cons_self)) (fun _ => .atom atom) ?_
    rw [printed_mk]
    rfl
  case tupleLiteral =>
    obtain _ | ⟨elements, ⟨⟩⟩ := fields
    obtain ⟨ns, rfl, hn⟩ := elements.many
    exact printsAs_of_operand (r := listOpen) rfl
      (prints_tupleLiteral fun n h => printsAs_expression (hn n h)) (Nat.le_refl _)
  case tensorLiteral =>
    obtain _ | ⟨elements, ⟨⟩⟩ := fields
    obtain ⟨ns, rfl, hn⟩ := elements.many
    exact printsAs_of_operand (r := tensorLitOpen) rfl
      (prints_tensorLiteral fun n h => printsAs_expression (hn n h)) (Nat.le_refl _)
  case comprehension =>
    obtain _ | ⟨element, _ | ⟨clauses, ⟨⟩⟩⟩ := fields
    obtain ⟨n, rfl, hn⟩ := element.one
    obtain ⟨ns, rfl, hns⟩ := clauses.many
    have inhabited : ns ≠ [] := by simpa [isComplete, Slot.toList] using complete
    exact printsAs_of_operand (r := compOpen) rfl
      (prints_comprehension (printsAs_expression hn) hns inhabited) (Nat.le_refl _)
  case call =>
    obtain _ | ⟨callee, _ | ⟨args, ⟨⟩⟩⟩ := fields
    obtain ⟨n, rfl, hn⟩ := callee.one
    obtain ⟨ns, rfl, hns⟩ := args.many
    exact prints_call hn fun n h => printsAs_expression (hns n h)
  case macroCall x deferred =>
    obtain _ | ⟨args, ⟨⟩⟩ := fields
    obtain ⟨ns, rfl, hn⟩ := args.many
    obtain rfl : deferred = false := by simpa [Head.isSpelled] using spelled
    exact printsAs_of_operand (r := macroInvoke) rfl
      (prints_macroCall (names x List.mem_cons_self) fun n h => printsAs_expression (hn n h))
      (Nat.le_succ _)
  case lambda params =>
    obtain _ | ⟨body, ⟨⟩⟩ := fields
    obtain ⟨n, rfl, hn⟩ := body.one
    exact printsAs_of_operand (r := lambdaOpen) rfl
      (prints_lambda names (printsAs_expression hn)) (Nat.le_refl _)
  case awaitExpr =>
    obtain _ | ⟨value, ⟨⟩⟩ := fields
    obtain ⟨n, rfl, hn⟩ := value.one
    exact printsAs_of_operand (r := await) rfl (prints_awaitExpr (printsAs_operand hn))
      (Nat.le_refl _)
  case binaryOp operator =>
    obtain _ | ⟨left, _ | ⟨right, ⟨⟩⟩⟩ := fields
    obtain ⟨l, rfl, hl⟩ := left.one
    obtain ⟨r, rfl, hr⟩ := right.one
    exact prints_binaryOp spelled hl hr
  case unaryOp operator =>
    obtain _ | ⟨operand, ⟨⟩⟩ := fields
    obtain ⟨n, rfl, hn⟩ := operand.one
    obtain rfl : operator = negate.spelling := by simpa [Head.isSpelled] using spelled
    exact printsAs_of_operand (r := negate) rfl (prints_unaryOp (printsAs_operand hn))
      (Nat.le_refl _)
  case conditional =>
    obtain _ | ⟨condition, _ | ⟨consequent, _ | ⟨alternative, ⟨⟩⟩⟩⟩ := fields
    obtain ⟨c, rfl, hc⟩ := condition.one
    obtain ⟨t, rfl, ht⟩ := consequent.one
    obtain ⟨e, rfl, he⟩ := alternative.one
    exact prints_conditional hc (printsAs_expression ht) he
  case quote =>
    obtain _ | ⟨body, ⟨⟩⟩ := fields
    obtain ⟨n, rfl, hn⟩ := body.one
    exact printsAs_of_operand (r := quoteOpen) rfl (prints_quote hn) (Nat.le_refl _)
  case unquote =>
    obtain _ | ⟨expression, ⟨⟩⟩ := fields
    obtain ⟨n, rfl, hn⟩ := expression.one
    exact printsAs_of_operand (r := unquoteOpen) rfl (prints_unquote (printsAs_expression hn))
      (Nat.le_refl _)
  all_goals cases is

/-! ## Patterns -/

theorem prints_compositePattern {r closer : Reserved}
    (h : Nonterminals.compositePattern? r = some (closer, head))
    (hn : ∀ n ∈ ns, n.PrintsAs settings (.part .pattern) n.printed.words) (q : Words)
    (words : q = word r.spelling ++ itemWords closer (·.words) (ns.map printed)) :
    (mk span head [.many ns]).PrintsAs settings (.part .pattern) q := by
  have phrase : Phrase.pattern? r = some (Phrase.composite r closer head) := by
    rw [Phrase.pattern?, h]
    rfl
  have made : (mk span head [.many ns]).PrintsAs settings (Phrase.composite r closer head) q := by
    refine printsAs_node (Prints.mark.seq (prints_items closer hn)) ?_ words rfl
    simp [Slot.toList]
  exact made.of_derives fun _ _ _ => .compositePattern phrase

theorem prints_pattern {slots : List (Slot Node)} (is : head.category? = some .pattern)
    (names : ∀ x ∈ head.names, lexesAsIdentifier x = true) (spelled : head.isSpelled = true)
    (fields : List.Forall₂ (Printable settings) head.fields slots) :
    Category.pattern.Prints settings (mk span head slots) := by
  cases head
  case literalPattern value kind =>
    obtain ⟨⟩ := fields
    obtain ⟨t, lexeme, isLexeme, -, atom⟩ := literal_lexeme spelled
    refine printsAs_token isLexeme (fun _ => .atomicPattern atom) ?_
    rw [printed_mk, lexeme]
    rfl
  case bindPattern x =>
    obtain ⟨⟩ := fields
    let t : Token := ⟨.identifier, x, default, none⟩
    have atom : Nonterminals.atomicPattern? t = some (bindPattern t.span x) := rfl
    refine printsAs_token (isLexeme_name (names x List.mem_cons_self))
      (fun _ => .atomicPattern atom) ?_
    rw [printed_mk]
    rfl
  case tuplePattern =>
    obtain _ | ⟨elements, ⟨⟩⟩ := fields
    obtain ⟨ns, rfl, hn⟩ := elements.many
    refine prints_compositePattern (r := listOpen) rfl hn _ ?_
    rw [printed_mk]
    exact argumentWords_many _
  case tensorShapePattern =>
    obtain _ | ⟨elements, ⟨⟩⟩ := fields
    obtain ⟨ns, rfl, hn⟩ := elements.many
    refine prints_compositePattern (r := tensorLitOpen) rfl hn _ ?_
    rw [printed_mk]
    exact enclosed_eq ..
  case graphPattern =>
    obtain _ | ⟨elements, ⟨⟩⟩ := fields
    obtain ⟨ns, rfl, hn⟩ := elements.many
    refine prints_compositePattern (r := nnOpen) rfl hn _ ?_
    rw [printed_mk]
    exact enclosed_eq ..
  case streamPattern =>
    obtain _ | ⟨elements, ⟨⟩⟩ := fields
    obtain ⟨ns, rfl, hn⟩ := elements.many
    refine prints_compositePattern (r := streamOpen) rfl hn _ ?_
    rw [printed_mk]
    exact enclosed_eq ..
  all_goals cases is

/-- A pattern that binds no name twice. -/
theorem printsAs_binding {p : Words} (h : n.PrintsAs settings (.part .pattern) p)
    (flawless : n.patternFlaw? = none) : n.PrintsAs settings (.part .binding) p :=
  h.of_derives fun _ _ _ derived => .binding derived ((patternFlaw?_unplaced n).mpr flawless)

end

end Node

end

end GlyphScript
