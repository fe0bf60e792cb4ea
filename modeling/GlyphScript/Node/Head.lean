import GlyphScript.Node.Level
import GlyphScript.Node.Literal
import GlyphScript.Settings

/-!
# Heads of syntax trees

A head says what a node is and holds its attributes: everything about the node
but its place and its children.
-/

namespace GlyphScript

/-- The kinds of node, each with its attributes. -/
inductive Head where
  /-- `injected` lists the names that expansions have installed in this scope. -/
  | program (injected : List String)
  /-- The statements between `[[` and `]]`. -/
  | block (injected : List String)
  -- Statements
  | blockStmt
  | assignment (target : String)
  | importDecl (path : List String) (alias? : Option String)
  | returnStmt
  | yieldStmt
  | breakStmt
  | continueStmt
  | expressionStmt
  | memoryStmt (action : String)
  | deviceStmt
  | tryStmt
  | matchStmt
  | functionDef (name : String) (params : List String)
  | asyncFunctionDef (name : String) (params : List String)
  | classDef (name : String)
  | ifStmt
  /-- With a target the header is what is iterated over, without one it is the condition. -/
  | loopStmt (target : Option String)
  | parallelStmt
  | gpuStmt
  | tensorDecl (name : String)
  | neuralNet (name : String)
  | streamStmt
  | macroDef (name : String) (params : List String) (phase : Phase) (hygiene : Hygiene)
  -- Clauses
  /-- A transforming rule expands to statements, any other rule to an expression. -/
  | macroRule (isTransform : Bool)
  | exceptClause
  | caseClause
  | comprehensionClause (target : String)
  -- Expressions
  | literal (value : Scalar) (kind : LiteralKind)
  | identifier (name : String)
  | tupleLiteral
  | tensorLiteral
  | comprehension
  | call
  /-- A deferred call is left to the back end. -/
  | macroCall (name : String) (deferred : Bool)
  | lambda (params : List String)
  | awaitExpr
  | binaryOp (operator : String)
  | unaryOp (operator : String)
  | conditional
  | quote
  | unquote
  -- Patterns
  | literalPattern (value : Scalar) (kind : LiteralKind)
  | bindPattern (name : String)
  | tuplePattern
  | tensorShapePattern
  | graphPattern
  | streamPattern
  deriving DecidableEq, Repr

namespace Head

/-- The name of a kind of node in listings and messages. -/
def className : Head → String
  | .program _ => "Program"
  | .block _ => "Block"
  | .blockStmt => "BlockStmt"
  | .assignment _ => "Assignment"
  | .importDecl .. => "Import"
  | .returnStmt => "Return"
  | .yieldStmt => "Yield"
  | .breakStmt => "Break"
  | .continueStmt => "Continue"
  | .expressionStmt => "ExpressionStatement"
  | .memoryStmt _ => "MemoryStmt"
  | .deviceStmt => "DeviceStmt"
  | .tryStmt => "TryStmt"
  | .matchStmt => "MatchStmt"
  | .functionDef .. => "FunctionDef"
  | .asyncFunctionDef .. => "AsyncFunctionDef"
  | .classDef _ => "ClassDef"
  | .ifStmt => "IfStmt"
  | .loopStmt _ => "LoopStmt"
  | .parallelStmt => "ParallelStmt"
  | .gpuStmt => "GpuStmt"
  | .tensorDecl _ => "TensorDecl"
  | .neuralNet _ => "NeuralNet"
  | .streamStmt => "StreamStmt"
  | .macroDef .. => "MacroDef"
  | .macroRule _ => "MacroRule"
  | .exceptClause => "ExceptClause"
  | .caseClause => "CaseClause"
  | .comprehensionClause _ => "ComprehensionClause"
  | .literal .. => "Literal"
  | .identifier _ => "Identifier"
  | .tupleLiteral => "TupleLiteral"
  | .tensorLiteral => "TensorLiteral"
  | .comprehension => "Comprehension"
  | .call => "Call"
  | .macroCall .. => "MacroCall"
  | .lambda _ => "Lambda"
  | .awaitExpr => "Await"
  | .binaryOp _ => "BinaryOp"
  | .unaryOp _ => "UnaryOp"
  | .conditional => "Conditional"
  | .quote => "Quote"
  | .unquote => "Unquote"
  | .literalPattern .. => "LiteralPattern"
  | .bindPattern _ => "BindPattern"
  | .tuplePattern => "TuplePattern"
  | .tensorShapePattern => "TensorShapePattern"
  | .graphPattern => "GraphPattern"
  | .streamPattern => "StreamPattern"

/-- Patterns are what match cases, handlers and macro rules start with. -/
def isPattern : Head → Bool
  | .literalPattern .. | .bindPattern _ | .tuplePattern | .tensorShapePattern | .graphPattern
  | .streamPattern => true
  | _ => false

/-! ## Binding strength -/

/-- How tightly an expression with this head holds together. -/
def level : Head → Level
  | .conditional => .conditional
  | .binaryOp operator => .ofOperator operator
  | .unaryOp _ | .awaitExpr => .unary
  | .call | .macroCall .. => .postfixed
  | _ => .primary

/-! ## Attributes -/

/-- An attribute seen from outside. -/
inductive Attribute where
  | absent
  | text (s : String)
  | flag (b : Bool)
  | number (n : Int)
  | names (ns : List String)
  deriving DecidableEq, Repr

def Attribute.ofOption (name : Option String) : Attribute := name.elim .absent .text

def Attribute.ofScalar : Scalar → Attribute
  | .integer n => .number n
  | .text s => .text s
  | .flag b => .flag b
  | .nothing => .absent

/-- The attributes of a node with their names, in the order in which they are listed. -/
def attributes : Head → List (String × Attribute)
  | .program injected | .block injected => [("injected", .names injected)]
  | .assignment target | .comprehensionClause target => [("target", .text target)]
  | .importDecl path alias? => [("path", .names path), ("alias", .ofOption alias?)]
  | .memoryStmt action => [("action", .text action)]
  | .functionDef name params | .asyncFunctionDef name params =>
    [("name", .text name), ("params", .names params)]
  | .classDef name | .tensorDecl name | .neuralNet name | .identifier name
  | .bindPattern name => [("name", .text name)]
  | .loopStmt target => [("target", .ofOption target)]
  | .macroDef name params phase hygiene =>
    [("name", .text name), ("params", .names params), ("phase", .text phase.name),
     ("hygiene", .text hygiene.name)]
  | .macroRule isTransform => [("is_transform", .flag isTransform)]
  | .literal value kind | .literalPattern value kind =>
    [("value", .ofScalar value), ("kind", .text kind.name)]
  | .macroCall name deferred => [("name", .text name), ("deferred", .flag deferred)]
  | .lambda params => [("params", .names params)]
  | .binaryOp operator | .unaryOp operator => [("operator", .text operator)]
  | _ => []

/-- The names of a node's slots, in order. -/
def slotNames : Head → List String
  | .program _ | .block _ => ["statements"]
  | .assignment _ | .returnStmt | .yieldStmt | .awaitExpr => ["value"]
  | .blockStmt | .functionDef .. | .asyncFunctionDef .. | .neuralNet _ | .lambda _
  | .quote => ["body"]
  | .expressionStmt | .unquote => ["expression"]
  | .memoryStmt _ | .macroCall .. => ["args"]
  | .deviceStmt => ["device", "body"]
  | .tryStmt => ["body", "handlers", "finally_body"]
  | .matchStmt => ["subject", "cases"]
  | .classDef _ => ["bases", "body"]
  | .ifStmt => ["condition", "body", "orelse"]
  | .loopStmt _ => ["header", "body"]
  | .parallelStmt | .gpuStmt => ["args", "body"]
  | .tensorDecl _ => ["shape", "body"]
  | .streamStmt => ["source", "body"]
  | .macroDef .. => ["rules", "template"]
  | .macroRule _ => ["pattern", "template"]
  | .exceptClause | .caseClause => ["pattern", "body"]
  | .comprehensionClause _ => ["iterable", "conditions"]
  | .tupleLiteral | .tensorLiteral | .tuplePattern | .tensorShapePattern | .graphPattern
  | .streamPattern => ["elements"]
  | .comprehension => ["element", "clauses"]
  | .call => ["callee", "args"]
  | .binaryOp _ => ["left", "right"]
  | .unaryOp _ => ["operand"]
  | .conditional => ["condition", "consequent", "alternative"]
  | _ => []

/-! ## Names that a node binds -/

/-- The attributes that bind names. -/
inductive BinderPosition where
  | target
  | importAlias
  | name
  | params
  deriving DecidableEq, Repr

def BinderPosition.label : BinderPosition → String
  | .target => "target"
  | .importAlias => "alias"
  | .name => "name"
  | .params => "params"

/-- Acts on the names that the node itself binds, from left to right. -/
def mapBindersM {m : Type → Type} [Monad m] (f : BinderPosition → String → m String) :
    Head → m Head
  | .assignment target => return .assignment (← f .target target)
  | .importDecl path (some name) => return .importDecl path (some (← f .importAlias name))
  | .functionDef name params => do
    let name ← f .name name
    return .functionDef name (← params.mapM (f .params))
  | .asyncFunctionDef name params => do
    let name ← f .name name
    return .asyncFunctionDef name (← params.mapM (f .params))
  | .classDef name => return .classDef (← f .name name)
  | .loopStmt (some target) => return .loopStmt (some (← f .target target))
  | .tensorDecl name => return .tensorDecl (← f .name name)
  | .neuralNet name => return .neuralNet (← f .name name)
  | .comprehensionClause target => return .comprehensionClause (← f .target target)
  | .lambda params => return .lambda (← params.mapM (f .params))
  | .bindPattern name => return .bindPattern (← f .name name)
  | head => return head

/-- The names that the node itself binds, from left to right. -/
def boundNames : Head → List String
  | .assignment target | .comprehensionClause target => [target]
  | .importDecl _ alias? => alias?.toList
  | .functionDef name params | .asyncFunctionDef name params => name :: params
  | .classDef name | .tensorDecl name | .neuralNet name | .bindPattern name => [name]
  | .loopStmt target => target.toList
  | .lambda params => params
  | _ => []

end Head

end GlyphScript
