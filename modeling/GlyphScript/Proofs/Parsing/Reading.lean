import GlyphScript.Proofs.Parsing.Productions

/-!
# Reading the productions

The parser of every production reads the phrase of the production.
-/

namespace GlyphScript

namespace Phrase

open Reserved Nonterminal

section

open GlyphScript.Parser Found

theorem listed_join_ofNode (ns : List Node) : (join (ns.map ofNode)).listed = ofNodes ns := by
  have h : join (ns.map ofNode) = { slots := ns.map .one } := by
    induction ns with
    | nil => rfl
    | cons n ns ih => rw [List.map_cons, join, List.foldr_cons, ← join, ih]; rfl
  rw [h, listed, nodes, List.flatMap_map]
  simp [Slot.toList, ofNodes]

theorem gathered_join_ofText (xs : List String) :
    (join (xs.map ofText)).gathered = { attributes := { lists := [xs] } } := by
  have h : join (xs.map ofText) = { attributes := { texts := xs } } := by
    induction xs with
    | nil => rfl
    | cons x xs ih => rw [List.map_cons, join, List.foldr_cons, ← join, ih]; rfl
  rw [h]
  rfl

variable (g : Nonterminals)

theorem read_items (closer : Reserved) (item : Phrase) :
    (items closer item).read g = join <$> listUntil closer (item.read g) := by
  simp only [items, seqs, read, listUntil, accept_bind, map_bind, bind_assoc, pure_bind,
    discard_bind, repeatWhile_accept]
  refine bind_congr fun b => ?_
  cases b <;> simp [join]

theorem read_nodes (closer : Reserved) {item : Phrase} {p : Parser Node}
    (h : item.read g = ofNode <$> p) :
    (list (items closer item)).read g = ofNodes <$> listUntil closer p := by
  simp only [read, read_items, h, listUntil_map, Functor.map_map, listed_join_ofNode]

theorem read_expression : expression.read g = ofNode <$> g.anyExpression := rfl

theorem read_argumentsUntil (closer : Reserved) :
    (list (items closer expression)).read g = ofNodes <$> g.argumentsUntil closer :=
  read_nodes g closer (read_expression g)

theorem arguments_bind {α : Type} (k : Found → Parser α) :
    (arguments.read g >>= k) = g.arguments >>= fun ns => k (ofNodes ns) := by
  simp only [arguments, seqs, seq_bind, mark_bind, read_argumentsUntil, Nonterminals.arguments,
    bind_assoc, bind_map_left, discard_bind, nothing_append]

theorem read_arguments : arguments.read g = ofNodes <$> g.arguments := by
  rw [map_eq_pure_bind, ← arguments_bind, bind_pure]

theorem expression_bind {α : Type} (k : Found → Parser α) :
    (expression.read g >>= k) = g.anyExpression >>= fun n => k (ofNode n) := by
  rw [read_expression, bind_map_left]

theorem part_bind {α : Type} (n : Nonterminal) (k : Found → Parser α) :
    ((part n).read g >>= k) = n.read g >>= k := rfl

theorem body_bind {α : Type} (k : Found → Parser α) :
    ((part body).read g >>= k) = g.body >>= fun n => k (ofNode n) := by
  rw [part_bind, Nonterminal.read, bind_map_left]

theorem binding_bind {α : Type} (k : Found → Parser α) :
    ((part binding).read g >>= k) = g.wellFormedPattern >>= fun n => k (ofNode n) := by
  rw [part_bind, Nonterminal.read, bind_map_left]

theorem tighter_bind {α : Type} (l : Level) (k : Found → Parser α) :
    ((part (.expression l)).read g >>= k) = g.expression l >>= fun n => k (ofNode n) := by
  rw [part_bind, Nonterminal.read, bind_map_left]

theorem optionalArguments_bind {α : Type} (k : Found → Parser α) :
    (optionalArguments.read g >>= k) = g.optionalArguments >>= fun ns => k (ofNodes ns) := by
  have h : (items listClose expression).read g =
      join <$> List.map ofNode <$> g.argumentsUntil listClose := by
    rw [read_items, read_expression, listUntil_map]
    rfl
  simp only [optionalArguments, read, seqs, h, Nonterminals.optionalArguments, accept_bind,
    bind_map_left, bind_assoc, discard_bind, pure_bind, nothing_append]
  refine bind_congr fun c => ?_
  cases c
  · simp [listed, nodes, ofNodes, nothing]
  · simp [listed_join_ofNode]

theorem names_bind {α : Type} (closer : Reserved) (what : String) (k : Found → Parser α) :
    ((gather (items closer (name what))).read g >>= k) =
      listUntil closer (consumeName what) >>= fun xs =>
        k { attributes := { lists := [xs] } } := by
  have item : (name what).read g = ofText <$> consumeName what := by
    simp only [read, map_eq_pure_bind]
  rw [read, read_items, item, listUntil_map, Functor.map_map, Functor.map_map, bind_map_left]
  simp only [gathered_join_ofText]

theorem parameters_bind {α : Type} (k : Found → Parser α) :
    (parameters.read g >>= k) =
      parameterNames >>= fun xs => k { attributes := { lists := [xs] } } := by
  simp only [parameters, seqs, seq_bind, mark_bind, names_bind, parameterNames, bind_assoc,
    discard_bind, nothing_append]

theorem manyOf_bind {α : Type} {r : Reserved} {a : Phrase} {p : Parser Node}
    (h : a.read g = ofNode <$> p) (k : Found → Parser α) :
    ((manyOf r a).read g >>= k) = repeatWhile (check r) p >>= fun ns => k (ofNodes ns) := by
  rw [manyOf, read, read, h, repeatWhile_map, Functor.map_map, Functor.map_map, bind_map_left]
  simp only [listed_join_ofNode]

theorem someOf_bind {α : Type} {r : Reserved} {a : Phrase} {f : Token → Parser Node}
    (h : a.read g = ofNode <$> (consume r >>= f)) (k : Found → Parser α) :
    ((someOf r a).read g >>= k) = consume r >>= fun t => f t >>= fun first =>
      repeatWhile (check r) (consume r >>= f) >>= fun others =>
        k (ofNodes (first :: others)) := by
  have found : ∀ n ns, (ofNode n ++ join (ns.map ofNode)).listed = ofNodes (n :: ns) :=
    fun n ns => listed_join_ofNode (n :: ns)
  simp only [someOf, read, h, repeatWhile_map, bind_map_left, bind_assoc, pure_bind, found]

theorem optionalNode_bind {α : Type} {r : Reserved} {a : Phrase} {p : Parser Node}
    (h : a.read g = ofNode <$> p) (k : Found → Parser α) :
    ((optionalNode r a).read g >>= k) =
      (accept r >>= fun c => if c then some <$> p else pure none) >>= fun o => k (ofOption o) := by
  simp only [optionalNode, seqs, either_bind, seq_bind, mark_bind, give_bind, h, accept_bind,
    bind_assoc, bind_map_left, nothing_append]
  refine bind_congr fun c => ?_
  cases c
  · simp
  · simp [bind_map_left]
    rfl

theorem optionalValue_bind {α : Type} (closer : Reserved) (k : Found → Parser α) :
    ((optionalValue closer).read g >>= k) =
      g.optionalValue closer >>= fun o => k (ofOption o) := by
  simp only [optionalValue, seqs, either_bind, seq_bind, mark_bind, give_bind, expression_bind,
    Nonterminals.optionalValue, bind_assoc, discard_bind, pure_bind, append_nothing]
  refine bind_congr fun c => ?_
  cases c
  · simp [bind_map_left]
    rfl
  · simp

theorem demand_bind {α : Type} (a : Phrase) (what : String) (k : Found → Parser α) :
    ((demand a what).read g >>= k) = a.read g >>= fun f =>
      (if f.nodes.isEmpty then failExpecting (.phrase what) else pure ()) >>= fun _ => k f := by
  simp only [read, bind_assoc]
  refine bind_congr fun f => ?_
  cases f.nodes.isEmpty <;> simp

/-! ## Operands -/

theorem read_group : group.read g = ofNode <$> g.group := by
  simp only [group, seqs, read, expression, Nonterminal.read, Nonterminals.group, Nonterminals.anyExpression,
    map_eq_pure_bind, bind_assoc, pure_bind, discard_bind]
  rfl

theorem read_tupleLiteral : tupleLiteral.read g = ofNode <$> g.tupleLiteral := by
  simp only [tupleLiteral, seqs, read_node, seq_bind, mark_bind, read_argumentsUntil,
    peek_consume, Nonterminals.tupleLiteral, map_eq_pure_bind, bind_assoc, pure_bind]
  rfl

theorem read_tensorLiteral : tensorLiteral.read g = ofNode <$> g.tensorLiteral := by
  simp only [tensorLiteral, seqs, read_node, seq_bind, mark_bind, read_argumentsUntil,
    peek_consume, Nonterminals.tensorLiteral, map_eq_pure_bind, bind_assoc, pure_bind]
  rfl

theorem read_unquote : unquote.read g = ofNode <$> g.unquote := by
  simp only [unquote, seqs, read_node, seq_bind, mark_bind, expression_bind,
    peek_consume, Nonterminals.unquote, map_eq_pure_bind, bind_assoc, pure_bind, discard_bind]
  rfl

theorem read_negation : negation.read g = ofNode <$> g.negation := by
  simp only [negation, seqs, read_node, seq_bind, spelled_bind, tighter_bind, peek_consume,
    Nonterminals.negation, map_eq_pure_bind, bind_assoc, pure_bind]
  rfl

theorem read_awaiting : awaiting.read g = ofNode <$> g.awaiting := by
  simp only [awaiting, seqs, read_node, seq_bind, mark_bind, tighter_bind, peek_consume,
    Nonterminals.awaiting, map_eq_pure_bind, bind_assoc, pure_bind]
  rfl

theorem macroCall_eq (span : Span) (name : String) (args : List Node) :
    macroCall span name args = announce (Node.macroCall span name args false) >>= fun _ =>
      pure (Node.macroCall span name args false) := by
  simp only [macroCall, announce, Node.macroCall, Node.head, bind_assoc]
  refine bind_congr fun s => ?_
  split <;> simp

theorem read_markedCall : markedCall.read g = ofNode <$> g.markedCall := by
  simp only [markedCall, seqs, read_node, seq_bind, mark_bind, name_bind, arguments_bind,
    peek_consume, Nonterminals.markedCall, macroCall_eq, map_eq_pure_bind, bind_assoc, pure_bind]
  rfl

theorem read_lambda : lambda.read g = ofNode <$> g.lambda := by
  simp only [lambda, seqs, read_node, seq_bind, mark_bind, names_bind, expression_bind,
    peek_consume, Nonterminals.lambda, map_eq_pure_bind, bind_assoc, pure_bind, discard_bind]
  rfl

theorem read_quote : quote.read g = ofNode <$> g.quote := by
  simp only [quote, seqs, read_node, seq_bind, mark_bind, either_bind, body_bind, expression_bind,
    peek_consume, Nonterminals.quote, map_eq_pure_bind, bind_assoc, pure_bind, discard_bind,
    ite_bind]
  rfl

theorem read_comprehensionClause : comprehensionClause.read g =
    ofNode <$> (consume pathSep >>= g.comprehensionClause) := by
  have condition : (seq (mark compIf) expression).read g =
      ofNode <$> (consume compIf >>= fun _ => g.anyExpression) := by
    simp only [read, read_expression, discard_bind, bind_assoc, pure_bind, nothing_append,
      map_eq_pure_bind]
  simp only [comprehensionClause, seqs, read_node, seq_bind, mark_bind, name_bind, expression_bind,
    manyOf_bind g condition, peek_consume, Nonterminals.comprehensionClause, repeatWhile_accept,
    map_eq_pure_bind, bind_assoc, pure_bind, discard_bind]
  rfl

theorem read_comprehension : comprehension.read g = ofNode <$> g.comprehension := by
  simp only [comprehension, seqs, read_node, seq_bind, mark_bind, expression_bind,
    someOf_bind g (read_comprehensionClause g), peek_consume, Nonterminals.comprehension,
    repeatWhile_advance, map_eq_pure_bind, bind_assoc, pure_bind, discard_bind]
  rfl

/-- The operands of the parser are the phrases of the table. -/
theorem read_operand? (r : Reserved) :
    (operand? r).map (·.read g) = (g.operandWith? r).map (ofNode <$> ·) := by
  cases r <;> simp only [operand?, Nonterminals.operandWith?, Option.map_some, Option.map_none,
    read_group, read_tupleLiteral, read_tensorLiteral, read_comprehension, read_lambda, read_quote,
    read_unquote, read_markedCall, read_negation, read_awaiting]

/-! ## Statements -/

theorem read_assignment : assignment.read g = ofNode <$> g.assignment := by
  simp only [assignment, seqs, read_node, seq_bind, mark_bind, name_bind, expression_bind,
    peek_consume, Nonterminals.assignment, map_eq_pure_bind, bind_assoc, pure_bind, discard_bind]
  rfl

theorem modulePath_bind {α : Type} (k : Found → Parser α) :
    (modulePath.read g >>= k) =
      consumeName "module name" >>= fun first =>
        repeatWhile (accept pathSep) (consumeName "module name") >>= fun others =>
          k { attributes := { lists := [first :: others] } } := by
  have item : (seq (mark pathSep) (name "module name")).read g =
      ofText <$> (consume pathSep >>= fun _ => consumeName "module name") := by
    simp only [read, discard_bind, bind_assoc, pure_bind, nothing_append, map_eq_pure_bind]
  have found : ∀ x xs, (ofText x ++ join (xs.map ofText)).gathered =
      { attributes := { lists := [x :: xs] } } := fun x xs => gathered_join_ofText (x :: xs)
  have items : (star pathSep (seq (mark pathSep) (name "module name"))).read g =
      join <$> List.map ofText <$> repeatWhile (accept pathSep) (consumeName "module name") := by
    rw [read, item, repeatWhile_map, repeatWhile_accept]
  rw [modulePath, read, bind_map_left, seq_bind, name_bind]
  simp only [items, bind_map_left, found]

theorem importAlias_bind {α : Type} (k : Found → Parser α) :
    (importAlias.read g >>= k) =
      (accept arrow >>= fun c => if c then some <$> consumeName "import alias" else pure none) >>=
        fun o => k { attributes := { texts := o.toList } } := by
  simp only [importAlias, either_bind, seq_bind, mark_bind, name_bind, give_bind, accept_bind,
    bind_assoc, nothing_append]
  refine bind_congr fun c => ?_
  cases c
  · simp [nothing]
  · simp [bind_map_left, ofText]

theorem read_importDecl : importDecl.read g = ofNode <$> Nonterminals.importDecl := by
  have alias? : ∀ o : Option String, ([] ++ (o.toList ++ [])).head? = o := by
    intro o
    cases o <;> rfl
  simp only [importDecl, seqs, read_node, seq_bind, mark_bind, modulePath_bind, importAlias_bind,
    peek_consume, Nonterminals.importDecl, map_eq_pure_bind, bind_assoc, pure_bind, discard_bind,
    nothing_append, append_nothing, append_texts]
  refine bind_congr fun start => bind_congr fun first => bind_congr fun others =>
    bind_congr fun c => ?_
  cases c
  · simp only [Bool.false_eq_true, if_false, bind_assoc, pure_bind]
    rfl
  · simp only [if_true, bind_assoc, pure_bind]
    rfl

theorem read_returnStmt : returnStmt.read g = ofNode <$> g.returnStmt := by
  simp only [returnStmt, seqs, read_node, seq_bind, mark_bind, optionalValue_bind, peek_consume,
    Nonterminals.returnStmt, map_eq_pure_bind, bind_assoc, pure_bind]
  rfl

theorem read_yieldStmt : yieldStmt.read g = ofNode <$> g.yieldStmt := by
  simp only [yieldStmt, seqs, read_node, seq_bind, mark_bind, optionalValue_bind, peek_consume,
    Nonterminals.yieldStmt, map_eq_pure_bind, bind_assoc, pure_bind]
  rfl

theorem read_breakStmt : breakStmt.read g = ofNode <$> Nonterminals.breakStmt := by
  simp only [breakStmt, read_node, mark_bind, peek_consume]
  rw [consume_span breakMark]
  simp only [Nonterminals.breakStmt, map_eq_pure_bind, bind_assoc, pure_bind]
  rfl

theorem read_continueStmt : continueStmt.read g = ofNode <$> Nonterminals.continueStmt := by
  simp only [continueStmt, read_node, mark_bind, peek_consume]
  rw [consume_span continueMark]
  simp only [Nonterminals.continueStmt, map_eq_pure_bind, bind_assoc, pure_bind]
  rfl

theorem read_memoryStmt : memoryStmt.read g = ofNode <$> g.memoryStmt := by
  simp only [memoryStmt, seqs, read_node, seq_bind, mark_bind, name_bind, arguments_bind,
    peek_consume, Nonterminals.memoryStmt, map_eq_pure_bind, bind_assoc, pure_bind, discard_bind]
  rfl

theorem read_deviceStmt : deviceStmt.read g = ofNode <$> g.deviceStmt := by
  simp only [deviceStmt, seqs, read_node, construct_bind, seq_bind, expression_bind, body_bind,
    peek_openConstruct, Nonterminals.deviceStmt, map_eq_pure_bind, bind_assoc, pure_bind]
  rfl

theorem read_blockStmt : blockStmt.read g = ofNode <$> g.blockStmt := by
  simp only [blockStmt, read_node, construct_bind, body_bind, peek_openConstruct,
    Nonterminals.blockStmt, map_eq_pure_bind, bind_assoc, pure_bind]
  rfl

theorem read_exceptClause : exceptClause.read g =
    ofNode <$> (consume exceptArm >>= g.exceptClause) := by
  simp only [exceptClause, seqs, read_node, seq_bind, mark_bind, binding_bind, body_bind,
    peek_consume, Nonterminals.exceptClause, map_eq_pure_bind, bind_assoc, pure_bind]
  rfl

theorem read_tryStmt : tryStmt.read g = ofNode <$> g.tryStmt := by
  have empty : ∀ (ns : List Node) (o : Option Node),
      (ofNodes ns ++ ofOption o).nodes.isEmpty = (ns.isEmpty && o.isNone) := by
    intro ns o
    cases ns <;> cases o <;> rfl
  have finallyBody : (part body).read g = ofNode <$> g.body := rfl
  simp only [tryStmt, seqs, read_node, construct_bind, seq_bind, body_bind, demand_bind,
    manyOf_bind g (read_exceptClause g), optionalNode_bind g finallyBody, empty,
    peek_openConstruct, Nonterminals.tryStmt, repeatWhile_advance, map_eq_pure_bind, bind_assoc,
    pure_bind]
  refine bind_congr fun start => bind_congr fun b => bind_congr fun handlers =>
    bind_congr fun c => ?_
  cases c
  · cases handlers <;> simp <;> rfl
  · simp
    rfl

theorem read_caseClause : caseClause.read g =
    ofNode <$> (consume caseArm >>= g.caseClause) := by
  simp only [caseClause, seqs, read_node, seq_bind, mark_bind, binding_bind, body_bind,
    peek_consume, Nonterminals.caseClause, map_eq_pure_bind, bind_assoc, pure_bind]
  rfl

theorem read_matchStmt : matchStmt.read g = ofNode <$> g.matchStmt := by
  simp only [matchStmt, seqs, read_node, construct_bind, seq_bind, expression_bind,
    someOf_bind g (read_caseClause g), peek_openConstruct, Nonterminals.matchStmt,
    repeatWhile_advance, map_eq_pure_bind, bind_assoc, pure_bind]
  rfl

theorem read_functionDef : functionDef.read g = ofNode <$> g.functionDef := by
  simp only [functionDef, seqs, read_node, construct_bind, seq_bind, name_bind, parameters_bind,
    body_bind, peek_openConstruct, Nonterminals.functionDef, map_eq_pure_bind, bind_assoc,
    pure_bind]
  rfl

theorem read_asyncFunctionDef : asyncFunctionDef.read g = ofNode <$> g.asyncFunctionDef := by
  simp only [asyncFunctionDef, seqs, read_node, construct_bind, seq_bind, name_bind,
    parameters_bind, body_bind, peek_openConstruct, Nonterminals.asyncFunctionDef,
    map_eq_pure_bind, bind_assoc, pure_bind]
  rfl

theorem read_classDef : classDef.read g = ofNode <$> g.classDef := by
  simp only [classDef, seqs, read_node, construct_bind, seq_bind, name_bind,
    optionalArguments_bind, body_bind, peek_openConstruct, Nonterminals.classDef,
    map_eq_pure_bind, bind_assoc, pure_bind]
  rfl

/-- What is found in a further arm. -/
def ofArm (a : Token × Node × Node) : Found :=
  ofPlace a.1.location ++ (ofNode a.2.1 ++ ofNode a.2.2)

theorem arm_bind {α : Type} (k : Found → Parser α) :
    (arm.read g >>= k) = consume elifArm >>= fun start => g.arm start >>= fun a =>
      k (ofArm a) := by
  simp only [arm, seqs, seq_bind, place_bind, mark_bind, expression_bind, body_bind, peek_consume, nothing_append, Nonterminals.arm, bind_assoc, pure_bind, ofArm]

theorem read_arm : arm.read g = ofArm <$> (consume elifArm >>= g.arm) := by
  have := arm_bind g (fun f => pure f)
  rw [bind_pure] at this
  rw [this, map_eq_pure_bind, bind_assoc]

theorem ofArms_found (span : Span) (condition body : Node) (otherwise : Option Node)
    (arms : List (Token × Node × Node)) {f : Found}
    (h : f = ofNode condition ++ (ofNode body ++ (join (arms.map ofArm) ++ ofOption otherwise))) :
    Node.ofArms span f.places f.slots =
      Node.ifStmt span condition body (Nonterminals.nestArms span.stop otherwise arms) := by
  have nest : ∀ arms : List (Token × Node × Node),
      Node.nestSlots span.stop (join (arms.map ofArm)).places
        ((join (arms.map ofArm)).slots ++ [Slot.ofOption otherwise]) =
        .ofOption (Nonterminals.nestArms span.stop otherwise arms) := by
    intro arms
    induction arms with
    | nil => 
      cases otherwise <;> rfl
    | cons arm arms ih =>
      obtain ⟨start, condition, b⟩ := arm
      show Node.nestSlots span.stop (start.location :: (join (arms.map ofArm)).places)
        (.one condition :: .one b :: ((join (arms.map ofArm)).slots ++ [Slot.ofOption otherwise])) = _
      rw [Node.nestSlots, ih]
      rfl
  subst h
  show Node.ofArms span ((join (arms.map ofArm)).places ++ [])
    (.one condition :: .one body :: ((join (arms.map ofArm)).slots ++ [Slot.ofOption otherwise])) = _
  rw [List.append_nil, Node.ofArms, nest]
  rfl

theorem read_ifStmt : ifStmt.read g = ofNode <$> g.ifStmt := by
  have alternative : (part body).read g = ofNode <$> g.body := rfl
  have arms : (star elifArm arm).read g = (fun arms => join (arms.map ofArm)) <$>
      repeatWhile (check elifArm) (consume elifArm >>= g.arm) := by
    rw [read, read_arm, repeatWhile_map, Functor.map_map]
  simp only [ifStmt, read_chain, construct_bind, peek_openConstruct, seqs, seq_bind, expression_bind,
    body_bind, arms, optionalNode_bind g alternative, Nonterminals.ifStmt, Nonterminals.arm,
    repeatWhile_advance, map_eq_pure_bind, bind_assoc, pure_bind]
  refine bind_congr fun start => bind_congr fun condition => bind_congr fun body =>
    bind_congr fun arms => bind_congr fun c => ?_
  cases c
  · simp only [Bool.false_eq_true, if_false, bind_assoc, pure_bind, ofArms_found _ _ _ _ _ rfl]
  · simp only [if_true, bind_assoc, pure_bind, ofArms_found _ _ _ _ _ rfl]

theorem loopHeader_bind {α : Type} (k : Found → Parser α) :
    (loopHeader.read g >>= k) = g.loopHeader >>= fun h =>
      k { attributes := { texts := h.1.toList }, slots := [.ofOption h.2] } := by
  simp only [loopHeader, seqs, either_bind, seq_bind, mark_bind, give_bind, Nonterminals.loopHeader,
    accept_bind, bind_assoc]
  refine bind_congr fun c => ?_
  cases c
  · simp only [Bool.false_eq_true, if_false, pure_bind]
    rfl
  simp only [if_true, bind_assoc, pure_bind]
  refine bind_congr fun _ => ?_
  have ahead_bind : ∀ (a b : Phrase) (k : Found → Parser α), ((ahead a b).read g >>= k) =
      checkBinding >>= fun c => if c then a.read g >>= k else b.read g >>= k := by
    intro a b k
    simp only [read, bind_assoc, ite_bind]
  have target := checkBinding_bind "loop target" fun t => g.anyExpression >>= fun header =>
    consume listClose >>= fun _ => k { attributes := { texts := t.toList }, slots := [.one header] }
  simp only [ahead_bind, seq_bind, name_bind, mark_bind, expression_bind]
  refine Eq.trans ?_ (target.trans ?_)
  · rfl
  · refine bind_congr fun s => ?_
    rcases s.rest with _ | ⟨a, _ | ⟨b, rest⟩⟩
    · simp only [discard_bind, bind_assoc, pure_bind]
      rfl
    · simp only [discard_bind, bind_assoc, pure_bind]
      rfl
    · simp only [ite_bind, discard_bind, bind_assoc, pure_bind]
      rfl

theorem read_loopStmt : loopStmt.read g = ofNode <$> g.loopStmt := by
  have target : ∀ (o : Option String) (n : Node),
      (o.toList ++ (ofNode n).attributes.texts).head? = o := by
    intro o n
    cases o <;> rfl
  simp only [loopStmt, seqs, read_node, construct_bind, seq_bind, loopHeader_bind, body_bind,
    peek_openConstruct, Nonterminals.loopStmt, map_eq_pure_bind, bind_assoc, pure_bind, append_texts, target]
  rfl

theorem read_parallelStmt : parallelStmt.read g = ofNode <$> g.parallelStmt := by
  simp only [parallelStmt, seqs, read_node, construct_bind, seq_bind, optionalArguments_bind,
    body_bind, peek_openConstruct, Nonterminals.parallelStmt, map_eq_pure_bind, bind_assoc,
    pure_bind]
  rfl

theorem read_gpuStmt : gpuStmt.read g = ofNode <$> g.gpuStmt := by
  simp only [gpuStmt, seqs, read_node, construct_bind, seq_bind, optionalArguments_bind,
    body_bind, peek_openConstruct, Nonterminals.gpuStmt, map_eq_pure_bind, bind_assoc, pure_bind]
  rfl

theorem read_tensorDecl : tensorDecl.read g = ofNode <$> g.tensorDecl := by
  simp only [tensorDecl, seqs, read_node, construct_bind, seq_bind, name_bind,
    optionalArguments_bind, body_bind, peek_openConstruct, Nonterminals.tensorDecl,
    map_eq_pure_bind, bind_assoc, pure_bind]
  rfl

theorem read_neuralNet : neuralNet.read g = ofNode <$> g.neuralNet := by
  simp only [neuralNet, seqs, read_node, construct_bind, seq_bind, name_bind, body_bind,
    peek_openConstruct, Nonterminals.neuralNet, map_eq_pure_bind, bind_assoc, pure_bind]
  rfl

theorem read_streamStmt : streamStmt.read g = ofNode <$> g.streamStmt := by
  simp only [streamStmt, seqs, read_node, construct_bind, seq_bind, expression_bind, body_bind,
    peek_openConstruct, Nonterminals.streamStmt, map_eq_pure_bind, bind_assoc, pure_bind]
  rfl

theorem ruleTemplate_bind {α : Type} (k : Found → Parser α) :
    (ruleTemplate.read g >>= k) = Nonterminals.ruleArrow >>= fun b =>
      (if b then g.body else g.anyExpression) >>= fun n =>
        k { attributes := { marks := if b then [transformArrow] else [] }, slots := [.one n] } := by
  simp only [ruleTemplate, seqs, either_bind, seq_bind, kept_bind, mark_bind, expression_bind,
    body_bind, Nonterminals.ruleArrow, accept_bind, bind_assoc]
  refine bind_congr fun transforms => ?_
  cases transforms
  · simp only [Bool.false_eq_true, if_false, bind_assoc]
    refine bind_congr fun plain => ?_
    cases plain
    · funext s
      simp [read, run_bind, failExpecting_run]
    · simp only [if_true, bind_assoc, pure_bind]
      rfl
  · simp only [if_true, bind_assoc, pure_bind]
    rfl

theorem read_macroRule : macroRule.read g = ofNode <$> g.macroRule := by
  have transforms : ∀ b : Bool, (if b then [transformArrow] else []).contains transformArrow = b :=
    by decide
  simp only [macroRule, seqs, read_node, seq_bind, mark_bind, binding_bind, ruleTemplate_bind,
    peek_consume, Nonterminals.macroRule, map_eq_pure_bind, bind_assoc, discard_bind,
    nothing_append, append_nothing]
  refine bind_congr fun start => bind_congr fun pattern => bind_congr fun b => ?_
  cases b
  · simp only [Bool.false_eq_true, if_false, bind_assoc, pure_bind]
    rfl
  · simp only [if_true, bind_assoc, pure_bind]
    rfl

theorem macroBody_bind {α : Type} (k : Found → Parser α) :
    (macroBody.read g >>= k) = g.macroBody >>= fun b => k (ofNodes b.1 ++ ofOption b.2) := by
  have empty : ∀ ns, (ofNodes ns).nodes.isEmpty = ns.isEmpty := by
    intro ns
    cases ns <;> rfl
  simp only [macroBody, seqs, either_bind, seq_bind, give_bind, read_quote, bind_map_left,
    demand_bind, manyOf_bind g (read_macroRule g), empty, Nonterminals.macroBody, bind_assoc]
  refine bind_congr fun c => ?_
  cases c
  · simp only [Bool.false_eq_true, if_false, bind_assoc]
    refine bind_congr fun rules => ?_
    cases rules.isEmpty
    · simp
    · simp only [if_true, bind_assoc, pure_bind]
  · simp only [if_true, bind_assoc, pure_bind]
    rfl

theorem oneOf_run {α : Type} (k : Found → Parser α) (s : ParserState) : ∀ rs,
    ((oneOf rs).read g >>= k) s = match s.next.reserved?.filter (rs.contains ·) with
      | some r => k (ofMark r) (passed s)
      | none => k .nothing s := by
  intro rs
  induction rs with
  | nil => 
    cases s.next.reserved? <;> simp [oneOf, give_bind]
  | cons r rs ih =>
    simp only [oneOf, either_bind, kept_bind]
    rw [run_bind, check_run]
    by_cases h : s.next.isReserved r
    · have : s.next.reserved? = some r := by
        simp_all [Token.isReserved, Token.reserved?, TokenKind.reserved?]
      simp [h, this, run_bind, consume_run, Option.filter]
    · have : s.next.reserved? ≠ some r := by
        intro e
        cases hk : s.next.kind <;> simp_all [Token.isReserved, Token.reserved?, TokenKind.reserved?]
      simp only [h, Bool.false_eq_true, if_false, ih]
      cases hr : s.next.reserved? with
      | none => rfl
      | some r' =>
        have : r' ≠ r := fun e => this (hr.trans (congrArg some e))
        simp [Option.filter, this]

theorem oneOf_bind {α β : Type} {rs : List Reserved} {meaning : Reserved → Option β} {d : β}
    {k : Found → Parser α} {k' : β → Parser α} (marks : ∀ r, r ∈ rs ↔ (meaning r).isSome)
    (found : ∀ r a, meaning r = some a → k (ofMark r) = k' a) (nothing : k .nothing = k' d) :
    ((oneOf rs).read g >>= k) = Nonterminals.markOr meaning d >>= k' := by
  funext s
  rw [oneOf_run, run_bind, markOr_run]
  cases s.next.reserved? with
  | none => 
    simp [nothing]
  | some r =>
    cases hr : meaning r with
    | none =>
      have : r ∉ rs := by simp [marks, hr]
      simp [Option.filter, this, hr, nothing]
    | some a =>
      have : r ∈ rs := by simp [marks, hr]
      simp [Option.filter, this, hr, found r a hr]

theorem announce_macroDef {settings : Settings} {span : Span} {x : String} {params : List String}
    {phase : Phase} {hygiene : Hygiene} {rules : List Node} {template : Option Node} {f : Found}
    (marks : List Reserved)
    (h : f = { attributes := ⟨[x], [params], marks⟩, slots := [.many rules, .ofOption template] })
    (hp : (marks.findSome? Nonterminals.phaseOf).getD settings.phase = phase)
    (hh : (marks.findSome? Nonterminals.hygieneOf).getD settings.hygiene = hygiene) :
    (announce (.mk span (macroHead settings f.attributes) f.slots) >>= fun _ =>
      pure (ofNode (.mk span (macroHead settings f.attributes) f.slots))) =
    ofWork (Work.register { name := x, params, span, phase, hygiene, rules, template }) >>= fun _ =>
      pure (ofNode (Node.macroDef span x params phase hygiene rules template)) := by
  subst h hp hh
  have : (Slot.ofOption template).toList.head? = template := by
    cases template <;> rfl
  simp only [announce, macroHead, Node.head, MacroDefinition.ofNode?, Node.slots, Node.span, this]
  rfl

theorem phaseOf_or_hygieneOf (r : Reserved) :
    Nonterminals.phaseOf r = none ∨ Nonterminals.hygieneOf r = none := by
  cases r <;> simp [Nonterminals.phaseOf, Nonterminals.hygieneOf]

theorem read_macroDef (settings : Settings) :
    (macroDef settings).read g = ofNode <$> g.macroDef settings := by
  have phases : ∀ r, r ∈ [phaseParse, phaseExpand, phaseCompile] ↔
      (Nonterminals.phaseOf r).isSome := by
    intro r
    cases r <;> decide
  have hygienes : ∀ r, r ∈ [hygieneCapture, hygieneIsolate, hygieneInject] ↔
      (Nonterminals.hygieneOf r).isSome := by
    intro r
    cases r <;> decide
  simp only [macroDef, seqs, read_node, construct_bind, seq_bind, name_bind, parameters_bind,
    macroBody_bind, peek_openConstruct, Nonterminals.macroDef, map_eq_pure_bind, bind_assoc,
    pure_bind, discard_bind]
  refine bind_congr fun start => bind_congr fun x => bind_congr fun params => ?_
  refine oneOf_bind g phases (fun r p hp => ?_) ?_
  · have hr : Nonterminals.hygieneOf r = none := by
      simpa [hp] using phaseOf_or_hygieneOf r
    refine oneOf_bind g hygienes (fun r' h hh => ?_) ?_
    · refine bind_congr fun _ => bind_congr fun b => bind_congr fun _ => bind_congr fun _ =>
        bind_congr fun span => announce_macroDef [r, r'] rfl ?_ ?_
      · simp [hp]
      · simp [hh, hr]
    · refine bind_congr fun _ => bind_congr fun b => bind_congr fun _ => bind_congr fun _ =>
        bind_congr fun span => announce_macroDef [r] rfl ?_ ?_
      · simp [hp]
      · simp [hr]
  · refine oneOf_bind g hygienes (fun r' h hh => ?_) ?_
    · have hr : Nonterminals.phaseOf r' = none := by
        simpa [hh] using phaseOf_or_hygieneOf r'
      refine bind_congr fun _ => bind_congr fun b => bind_congr fun _ => bind_congr fun _ =>
        bind_congr fun span => announce_macroDef [r'] rfl ?_ ?_
      · simp [hr]
      · simp [hh]
    · exact bind_congr fun _ => bind_congr fun b => bind_congr fun _ => bind_congr fun _ =>
        bind_congr fun span => announce_macroDef [] rfl rfl rfl

theorem read_expressionStmt : expressionStmt.read g = ofNode <$> g.expressionStmt := by
  simp only [expressionStmt, read_node, expression_bind, Nonterminals.expressionStmt,
    map_eq_pure_bind, bind_assoc, pure_bind]
  rfl

/-- The statements of the parser are the phrases of the table. -/
theorem read_statement? (settings : Settings) (r : Reserved) :
    (statement? settings r).map (·.read g) =
      (g.statementWith? settings r).map (ofNode <$> ·) := by
  cases r <;> simp only [statement?, Nonterminals.statementWith?, Option.map_some,
    Option.map_none, read_assignment, read_importDecl, read_returnStmt, read_yieldStmt,
    read_breakStmt, read_continueStmt, read_macroDef, read_memoryStmt, read_deviceStmt,
    read_tryStmt, read_matchStmt, read_functionDef, read_asyncFunctionDef, read_classDef,
    read_ifStmt, read_loopStmt, read_parallelStmt, read_gpuStmt, read_tensorDecl, read_neuralNet,
    read_streamStmt, read_blockStmt]

/-! ## The nonterminals -/

theorem isEnd_of_atom {t : Token} {n : Node} (h : Nonterminals.atom? t = some n) :
    t.isEnd = false := by
  unfold Nonterminals.atom? at h
  cases hk : t.kind <;> simp_all [Token.isEnd]

theorem operand_run (s : ParserState) : (ofNode <$> g.operand) s =
    match Nonterminals.atom? s.next, s.next.reserved?.bind operand? with
    | some n, _ => (.ok (ofNode n), passed s)
    | none, some a => a.read g s
    | none, none => (.error (unwanted (.phrase "expression") s), s) := by
  have table : (s.next.reserved?.bind operand?).map (·.read g) =
      (s.next.reserved?.bind g.operandWith?).map (ofNode <$> ·) := by
    cases s.next.reserved? with
    | none => rfl
    | some r => exact read_operand? g r
  rw [run_map]
  unfold Nonterminals.operand
  rw [run_bind, peek_run]
  dsimp only
  cases ha : Nonterminals.atom? s.next with
  | some n =>
    simp [run_bind, discard_advance_run (isEnd_of_atom ha), run_pure]
  | none =>
    cases hp : s.next.reserved?.bind g.operandWith? with
    | none =>
      have : s.next.reserved?.bind operand? = none := by simpa [hp] using table
      simp [this, failExpecting_run]
    | some p =>
      rw [hp] at table
      obtain ⟨a, ha, hr⟩ := Option.map_eq_some_iff.mp table
      simp [ha, hr, run_map]

theorem isEnd_of_atomicPattern {t : Token} {n : Node} (h : Nonterminals.atomicPattern? t = some n) :
    t.isEnd = false := by
  unfold Nonterminals.atomicPattern? at h
  cases hk : t.kind <;> simp_all [Token.isEnd]

theorem read_composite {r closer : Reserved} {head : Head}
    (h : Nonterminals.compositePattern? r = some (closer, head)) :
    (composite r closer head).read g = ofNode <$> (consume r >>= fun token =>
      listUntil closer g.pattern >>= fun elements =>
        (fun span => Node.compositePattern span head elements) <$> spanFrom token) := by
  have elements := read_nodes g closer (show (part pattern).read g = ofNode <$> g.pattern from rfl)
  have quiet : ∀ span slots, announce (.mk span head slots) = pure () := by
    intro span slots
    cases r <;> cases h <;> rfl
  simp only [composite, seqs, read_node, seq_bind, mark_bind, elements, quiet, peek_consume,
    map_eq_pure_bind, bind_assoc, pure_bind]
  rfl

theorem pattern_run (s : ParserState) : (ofNode <$> g.readPattern) s =
    match Nonterminals.atomicPattern? s.next, s.next.reserved?.bind pattern? with
    | some n, _ => (.ok (ofNode n), passed s)
    | none, some a => a.read g s
    | none, none => (.error (if s.next.isEnd then .parse (.unexpectedEnd (.phrase "pattern") s.next)
        else .parse (.invalidPattern (.cannotStart s.next.lexeme) s.next.span)), s) := by
  rw [run_map]
  unfold Nonterminals.readPattern
  rw [run_bind, peek_run]
  dsimp only
  cases ha : Nonterminals.atomicPattern? s.next with
  | some n => 
    simp [run_bind, discard_advance_run (isEnd_of_atomicPattern ha), run_pure]
  | none =>
    cases hr : s.next.reserved? with
    | none => 
      by_cases h : s.next.isEnd <;> simp [h, run_throw]
    | some r =>
      have reserved : s.next.isReserved r := isReserved_iff.mpr hr
      cases hc : Nonterminals.compositePattern? r with
      | none => 
        simp [pattern?, hc, run_throw, isEnd_of_isReserved reserved]
      | some c =>
        simp [pattern?, hc, read_composite g hc, run_map, run_bind, consume_run, reserved,
          discard_advance_run (isEnd_of_isReserved reserved)]

theorem tail?_level (t : Token) : Nonterminals.operatorLevel? t =
    (t.reserved?.bind tail?).map (·.1) := by
  unfold Nonterminals.operatorLevel?
  cases h : t.reserved? with
  | none => rfl
  | some r => cases r <;> rfl

theorem binary_run {r : Reserved} {m : Level} {left : Node} {s : ParserState}
    (hr : s.next.isReserved r = true) (hm : m ≠ .postfixed ∧ m ≠ .conditional) :
    g.binary m left s = (peek >>= fun start =>
      (seqs [spelled r, part (.expression m.tighter)]).read g >>= extend m left start) s := by
  have run : ∀ (p : Token → Parser Node), (advance >>= p) s = (peek >>= fun start => consume r >>= p) s := by
    intro p
    simp [run_bind, peek_run, consume_run, advance_run_reserved hr, hr]
  unfold Nonterminals.binary
  rw [run]
  simp only [seqs, seq_bind, spelled_bind, tighter_bind, peek_consume]
  have : ∀ (t : Token) (right : Node), extend m left t (ofText t.lexeme ++ ofNode right) =
      pure (Node.binaryOp ⟨left.span.start, right.span.stop⟩ t.lexeme left right) := by
    intro t right
    unfold extend tailStop
    rw [if_neg hm.1]
    cases m <;> simp_all <;> rfl
  simp only [this]

theorem conditional_eq (left : Node) :
    g.conditional left = peek >>= fun start =>
      (seqs [mark condThen, expression, mark condElse, part (.expression .additive)]).read g >>=
        extend .conditional left start := by
  simp only [seqs, seq_bind, mark_bind, expression_bind, tighter_bind, peek_consume]
  unfold Nonterminals.conditional
  simp only [discard_bind]
  rfl

theorem callOf_eq (left : Node) :
    g.callOf left = peek >>= fun start => arguments.read g >>= extend .postfixed left start := by
  simp only [arguments_bind]
  unfold Nonterminals.callOf
  refine bind_congr fun start => bind_congr fun args => ?_
  unfold extend tailStop
  simp only [if_true, bind_map_left]
  refine bind_congr fun span => ?_
  obtain ⟨lspan, head, slots⟩ := left
  cases head <;> try rfl
  rename_i name
  refine bind_congr fun s => ?_
  simp only [Node.extended, Node.head]
  by_cases h : s.unit.registry.contains name
  · simp only [h, if_true, macroCall_eq]
    rfl
  · simp only [h, Bool.false_eq_true, if_false]
    rfl

/-- Going on behind an operand is reading the tail that starts with the next token. -/
theorem extension_run {r : Reserved} {m : Level} {a : Phrase} {left : Node} {s : ParserState}
    (h : tail? r = some (m, a)) (hr : s.next.isReserved r = true) :
    g.extension m left s = (peek >>= fun start => a.read g >>= extend m left start) s := by
  cases IsTail.of h
  case condThen => exact congrFun (conditional_eq g left) s
  case listOpen => exact congrFun (callOf_eq g left) s
  all_goals exact binary_run g hr (by decide)

theorem extendUpTo_run (l : Level) (fuel : Nat) (left : Node) (s : ParserState) :
    g.extendUpTo l (fuel + 1) left s = match s.next.reserved?.bind tail? with
      | some (m, a) =>
        if l.rank ≤ m.rank then
          ((peek >>= fun start => a.read g >>= extend m left start) >>=
            g.extendUpTo l fuel) s
        else (.ok left, s)
      | none => (.ok left, s) := by
  rw [Nonterminals.extendUpTo, run_bind, peek_run]
  dsimp only
  rw [tail?_level]
  cases ht : s.next.reserved?.bind tail? with
  | none => rfl
  | some t =>
    obtain ⟨m, a⟩ := t
    obtain ⟨r, hr, ha⟩ := Option.bind_eq_some_iff.mp ht
    dsimp only [Option.map_some]
    by_cases le : l.rank ≤ m.rank
    · rw [if_pos le, if_pos le, run_bind, extension_run g ha (isReserved_iff.mpr hr)]
      exact (run_bind _ _ s).symm
    · rw [if_neg le, if_neg le]
      rfl

theorem plainStatement_eq (settings : Settings) : ofNode <$> g.plainStatement settings =
    peek >>= fun t => match t.reserved?.bind (statement? settings) with
      | some a => a.read g
      | none => expressionStmt.read g := by
  unfold Nonterminals.plainStatement
  rw [map_bind]
  refine bind_congr fun t => ?_
  have table : (t.reserved?.bind (statement? settings)).map (·.read g) =
      (t.reserved?.bind (g.statementWith? settings)).map (ofNode <$> ·) := by
    cases t.reserved? with
    | none => rfl
    | some r => exact read_statement? g settings r
  cases hp : t.reserved?.bind (g.statementWith? settings) with
  | none =>
    have : t.reserved?.bind (statement? settings) = none := by simpa [hp] using table
    simp [this, read_expressionStmt]
  | some p =>
    rw [hp] at table
    obtain ⟨a, ha, hr⟩ := Option.map_eq_some_iff.mp table
    simp [ha, hr]

end

end Phrase

end GlyphScript
