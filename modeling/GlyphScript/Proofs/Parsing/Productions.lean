import GlyphScript.Proofs.Parsing.Phrase

/-!
# Productions

The phrase of every production of the grammar.
-/

namespace GlyphScript

namespace Phrase

open Reserved Nonterminal

/-! ## Parts of productions -/

@[grind =]
def seqs : List Phrase → Phrase
  | [] => give .nothing
  | [a] => a
  | a :: as => seq a (seqs as)

def expression : Phrase := part (.expression .conditional)

/-- Items with separators between them up to and including `closer`. -/
def items (closer : Reserved) (item : Phrase) : Phrase :=
  either closer (mark closer)
    (seqs [item, star separator (seqs [mark separator, item]), mark closer])

def arguments : Phrase := seqs [mark listOpen, list (items listClose expression)]

def optionalArguments : Phrase :=
  list (either listOpen (seqs [mark listOpen, items listClose expression]) (give .nothing))

def parameters : Phrase :=
  seqs [mark listOpen, gather (items listClose (name "parameter name"))]

/-- Nodes that start with `r`. -/
def manyOf (r : Reserved) (a : Phrase) : Phrase := list (star r a)

/-- As `manyOf`, one node at least. -/
def someOf (r : Reserved) (a : Phrase) : Phrase := list (seq a (star r a))

/-- What follows `r`, or nothing at all. -/
def optionalNode (r : Reserved) (a : Phrase) : Phrase :=
  either r (seqs [mark r, a]) (give (.ofOption none))

/-- An expression up to and including `closer`, or `closer` alone. -/
def optionalValue (closer : Reserved) : Phrase :=
  either closer (seqs [give (.ofOption none), mark closer]) (seqs [expression, mark closer])

/-! ## Operands -/

def group : Phrase := seqs [mark groupOpen, expression, mark groupClose]

def tupleLiteral : Phrase :=
  node (fun _ => .tupleLiteral) (seqs [mark listOpen, list (items listClose expression)])

def tensorLiteral : Phrase :=
  node (fun _ => .tensorLiteral)
    (seqs [mark tensorLitOpen, list (items tensorLitClose expression)])

def comprehensionClause : Phrase :=
  node (fun a => .comprehensionClause a.name)
    (seqs [mark pathSep, name "comprehension variable", mark bindArrow, expression,
      manyOf compIf (seq (mark compIf) expression)])

def comprehension : Phrase :=
  node (fun _ => .comprehension)
    (seqs [mark compOpen, expression,
      someOf pathSep comprehensionClause, mark compClose])

def lambda : Phrase :=
  node (fun a => .lambda a.names)
    (seqs [mark lambdaOpen, gather (items arrow (name "parameter name")), expression,
      mark lambdaClose])

def quote : Phrase :=
  node (fun _ => .quote)
    (seqs [mark quoteOpen, either bodyOpen (part body) expression, mark quoteClose])

def unquote : Phrase :=
  node (fun _ => .unquote) (seqs [mark unquoteOpen, expression, mark unquoteClose])

def markedCall : Phrase :=
  node (fun a => .macroCall a.name false) (seqs [mark macroInvoke, name "macro name", arguments])

def negation : Phrase :=
  node (fun a => .unaryOp a.name) (seqs [spelled negate, part (.expression .unary)])

def awaiting : Phrase :=
  node (fun _ => .awaitExpr) (seqs [mark await, part (.expression .unary)])

/-- The phrase of an operand that starts with a reserved token. -/
def operand? : Reserved → Option Phrase
  | groupOpen => some group
  | listOpen => some tupleLiteral
  | tensorLitOpen => some tensorLiteral
  | compOpen => some comprehension
  | lambdaOpen => some lambda
  | quoteOpen => some quote
  | unquoteOpen => some unquote
  | macroInvoke => some markedCall
  | negate => some negation
  | await => some awaiting
  | _ => none

/-! ## Operators -/

/-- What follows a left operand, by its first token: how tightly the operator holds together,
and the operator with what is to its right. -/
def tail? : Reserved → Option (Level × Phrase)
  | condThen =>
    some (.conditional,
      seqs [mark condThen, expression, mark condElse, part (.expression .additive)])
  | add => some (.additive, seqs [spelled add, part (.expression .multiplicative)])
  | subtract => some (.additive, seqs [spelled subtract, part (.expression .multiplicative)])
  | multiply => some (.multiplicative, seqs [spelled multiply, part (.expression .unary)])
  | divide => some (.multiplicative, seqs [spelled divide, part (.expression .unary)])
  | listOpen => some (.postfixed, arguments)
  | _ => none

/-! ## Patterns -/

def composite (opener closer : Reserved) (head : Head) : Phrase :=
  node (fun _ => head) (seqs [mark opener, list (items closer (part pattern))])

/-- The phrase of a composite pattern by its first token. -/
def pattern? (r : Reserved) : Option Phrase :=
  (Nonterminals.compositePattern? r).map fun (closer, head) => composite r closer head

/-! ## Statements -/

def assignment : Phrase :=
  node (fun a => .assignment a.name)
    (seqs [mark assignOpen, name "assignment target", mark assignOp, expression,
      mark assignClose])

def modulePath : Phrase :=
  gather (seq (name "module name") (star pathSep (seq (mark pathSep) (name "module name"))))

def importAlias : Phrase := either arrow (seq (mark arrow) (name "import alias")) (give .nothing)

def importDecl : Phrase :=
  node (fun a => .importDecl a.names a.texts.head?)
    (seqs [mark importOpen, modulePath, importAlias, mark importClose])

def returnStmt : Phrase :=
  node (fun _ => .returnStmt) (seqs [mark returnOpen, optionalValue returnClose])

def yieldStmt : Phrase :=
  node (fun _ => .yieldStmt) (seqs [mark yieldOpen, optionalValue yieldClose])

def breakStmt : Phrase := node (fun _ => .breakStmt) (mark breakMark)

def continueStmt : Phrase := node (fun _ => .continueStmt) (mark continueMark)

def memoryStmt : Phrase :=
  node (fun a => .memoryStmt a.name)
    (seqs [mark memoryOpen, name "memory action", arguments, mark memoryClose])

def deviceStmt : Phrase :=
  node (fun _ => .deviceStmt) (construct .device (seqs [expression, part body]))

def blockStmt : Phrase := node (fun _ => .blockStmt) (construct .block (part body))

def exceptClause : Phrase :=
  node (fun _ => .exceptClause) (seqs [mark exceptArm, part binding, part body])

def tryStmt : Phrase :=
  node (fun _ => .tryStmt)
    (construct .guarded (seqs [part body,
      demand (seq (manyOf exceptArm exceptClause) (optionalNode finallyArm (part body)))
        "'!:' or '!^'"]))

def caseClause : Phrase :=
  node (fun _ => .caseClause) (seqs [mark caseArm, part binding, part body])

def matchStmt : Phrase :=
  node (fun _ => .matchStmt)
    (construct .matching (seqs [expression, someOf caseArm caseClause]))

def functionDef : Phrase :=
  node (fun a => .functionDef a.name a.names)
    (construct .function (seqs [name "function name", parameters, part body]))

def asyncFunctionDef : Phrase :=
  node (fun a => .asyncFunctionDef a.name a.names)
    (construct .asyncFunction (seqs [name "function name", parameters, part body]))

def classDef : Phrase :=
  node (fun a => .classDef a.name)
    (construct .classDef (seqs [name "class name", optionalArguments, part body]))

def arm : Phrase := seqs [place, mark elifArm, expression, part body]

def ifStmt : Phrase :=
  chain (construct .conditional
    (seqs [expression, part body, star elifArm arm, optionalNode elseArm (part body)]))

def loopHeader : Phrase :=
  either listOpen
    (seqs [mark listOpen,
      ahead (seqs [name "loop target", mark bindArrow, expression]) expression, mark listClose])
    (give (.ofOption none))

def loopStmt : Phrase :=
  node (fun a => .loopStmt a.texts.head?) (construct .loop (seqs [loopHeader, part body]))

def parallelStmt : Phrase :=
  node (fun _ => .parallelStmt) (construct .parallel (seqs [optionalArguments, part body]))

def gpuStmt : Phrase :=
  node (fun _ => .gpuStmt) (construct .gpu (seqs [optionalArguments, part body]))

def tensorDecl : Phrase :=
  node (fun a => .tensorDecl a.name)
    (construct .tensor (seqs [name "tensor name", optionalArguments, part body]))

def neuralNet : Phrase :=
  node (fun a => .neuralNet a.name) (construct .network (seqs [name "network name", part body]))

def streamStmt : Phrase :=
  node (fun _ => .streamStmt) (construct .stream (seqs [expression, part body]))

/-! ## Macro definitions -/

/-- One of the marks, or nothing. -/
def oneOf : List Reserved → Phrase
  | [] => give .nothing
  | r :: rs => either r (kept r) (oneOf rs)

def phaseMark : Phrase := oneOf [phaseParse, phaseExpand, phaseCompile]

def hygieneMark : Phrase := oneOf [hygieneCapture, hygieneIsolate, hygieneInject]

/-- A template is a body behind the one arrow and an expression behind the other. -/
def ruleTemplate : Phrase :=
  either transformArrow (seqs [kept transformArrow, part body])
    (either ruleArrow (seqs [mark ruleArrow, expression]) (fail "'=>>' or '==>'"))

def macroRule : Phrase :=
  node (fun a => .macroRule (a.marks.contains transformArrow))
    (seqs [mark ruleOpen, part binding, ruleTemplate, mark ruleClose])

def macroBody : Phrase :=
  either quoteOpen (seqs [give (.ofNodes []), quote])
    (seqs [demand (manyOf ruleOpen macroRule) "macro rule '\x7b@' or quoted template",
      give (.ofOption none)])

/-- The head of a macro definition; what it does not say the settings say. -/
def macroHead (settings : Settings) (a : Attributes) : Head :=
  .macroDef a.name a.names ((a.marks.findSome? Nonterminals.phaseOf).getD settings.phase)
    ((a.marks.findSome? Nonterminals.hygieneOf).getD settings.hygiene)

def macroDef (settings : Settings) : Phrase :=
  node (macroHead settings)
    (construct .macroDef (seqs [name "macro name", parameters, phaseMark, hygieneMark,
      construct .body macroBody]))

def expressionStmt : Phrase := node (fun _ => .expressionStmt) expression

/-- The phrase of a statement that starts with a reserved token. -/
def statement? (settings : Settings) : Reserved → Option Phrase
  | assignOpen => some assignment
  | importOpen => some importDecl
  | returnOpen => some returnStmt
  | yieldOpen => some yieldStmt
  | breakMark => some breakStmt
  | continueMark => some continueStmt
  | macroOpen => some (macroDef settings)
  | memoryOpen => some memoryStmt
  | deviceOpen => some deviceStmt
  | tryOpen => some tryStmt
  | matchOpen => some matchStmt
  | funcOpen => some functionDef
  | asyncFuncOpen => some asyncFunctionDef
  | classOpen => some classDef
  | ifOpen => some ifStmt
  | loopOpen => some loopStmt
  | parallelOpen => some parallelStmt
  | gpuOpen => some gpuStmt
  | tensorOpen => some tensorDecl
  | nnOpen => some neuralNet
  | streamOpen => some streamStmt
  | blockOpen => some blockStmt
  | _ => none

/-! ## Productions by their first tokens -/

/-- What `operand?` finds. -/
inductive IsOperand : Reserved → Phrase → Prop where
  | macroInvoke : IsOperand .macroInvoke markedCall
  | quoteOpen : IsOperand .quoteOpen quote
  | unquoteOpen : IsOperand .unquoteOpen unquote
  | listOpen : IsOperand .listOpen tupleLiteral
  | groupOpen : IsOperand .groupOpen group
  | negate : IsOperand .negate negation
  | await : IsOperand .await awaiting
  | tensorLitOpen : IsOperand .tensorLitOpen tensorLiteral
  | compOpen : IsOperand .compOpen comprehension
  | lambdaOpen : IsOperand .lambdaOpen lambda

theorem IsOperand.of {r : Reserved} {a : Phrase} (h : operand? r = some a) : IsOperand r a := by
  cases r <;> cases h <;> constructor

/-- What `tail?` finds. -/
inductive IsTail : Reserved → Level → Phrase → Prop where
  | listOpen : IsTail .listOpen .postfixed arguments
  | add : IsTail .add .additive (seqs [spelled .add, part (.expression .multiplicative)])
  | subtract : IsTail .subtract .additive
      (seqs [spelled .subtract, part (.expression .multiplicative)])
  | multiply : IsTail .multiply .multiplicative
      (seqs [spelled .multiply, part (.expression .unary)])
  | divide : IsTail .divide .multiplicative (seqs [spelled .divide, part (.expression .unary)])
  | condThen : IsTail .condThen .conditional
      (seqs [mark .condThen, expression, mark .condElse, part (.expression .additive)])

theorem IsTail.of {r : Reserved} {m : Level} {a : Phrase} (h : tail? r = some (m, a)) :
    IsTail r m a := by
  cases r <;> cases h <;> constructor

/-- What `pattern?` finds. -/
inductive IsComposite : Reserved → Phrase → Prop where
  | nnOpen : IsComposite .nnOpen (composite .nnOpen .nnClose .graphPattern)
  | streamOpen : IsComposite .streamOpen (composite .streamOpen .streamClose .streamPattern)
  | listOpen : IsComposite .listOpen (composite .listOpen .listClose .tuplePattern)
  | tensorLitOpen :
    IsComposite .tensorLitOpen (composite .tensorLitOpen .tensorLitClose .tensorShapePattern)

theorem IsComposite.of {r : Reserved} {a : Phrase} (h : pattern? r = some a) : IsComposite r a := by
  cases r <;> cases h <;> constructor

/-- What `statement?` finds. -/
inductive IsStatement (settings : Settings) : Reserved → Phrase → Prop where
  | assignOpen : IsStatement settings .assignOpen assignment
  | importOpen : IsStatement settings .importOpen importDecl
  | returnOpen : IsStatement settings .returnOpen returnStmt
  | yieldOpen : IsStatement settings .yieldOpen yieldStmt
  | breakMark : IsStatement settings .breakMark breakStmt
  | continueMark : IsStatement settings .continueMark continueStmt
  | memoryOpen : IsStatement settings .memoryOpen memoryStmt
  | deviceOpen : IsStatement settings .deviceOpen deviceStmt
  | blockOpen : IsStatement settings .blockOpen blockStmt
  | ifOpen : IsStatement settings .ifOpen ifStmt
  | loopOpen : IsStatement settings .loopOpen loopStmt
  | parallelOpen : IsStatement settings .parallelOpen parallelStmt
  | gpuOpen : IsStatement settings .gpuOpen gpuStmt
  | tensorOpen : IsStatement settings .tensorOpen tensorDecl
  | nnOpen : IsStatement settings .nnOpen neuralNet
  | streamOpen : IsStatement settings .streamOpen streamStmt
  | tryOpen : IsStatement settings .tryOpen tryStmt
  | matchOpen : IsStatement settings .matchOpen matchStmt
  | funcOpen : IsStatement settings .funcOpen functionDef
  | asyncFuncOpen : IsStatement settings .asyncFuncOpen asyncFunctionDef
  | classOpen : IsStatement settings .classOpen classDef
  | macroOpen : IsStatement settings .macroOpen (macroDef settings)

theorem IsStatement.of {settings : Settings} {r : Reserved} {a : Phrase}
    (h : statement? settings r = some a) : IsStatement settings r a := by
  cases r <;> cases h <;> constructor

end Phrase

end GlyphScript
