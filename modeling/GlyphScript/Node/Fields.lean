import GlyphScript.Node.Basic
import GlyphScript.Text.Quoted

/-!
# Nodes as named fields

A node seen from outside: the name of its kind, and its attributes and slots
by name.
-/

namespace GlyphScript

/-- What a field holds. -/
inductive FieldValue where
  | absent
  | flag (b : Bool)
  | number (n : Int)
  | text (s : String)
  | node (n : Node)
  | list (vs : List FieldValue)
  deriving Inhabited

abbrev Fields := List (String × FieldValue)

namespace FieldValue

def ofAttribute : Head.Attribute → FieldValue
  | .absent => .absent
  | .text s => .text s
  | .flag b => .flag b
  | .number n => .number n
  | .names ns => .list (ns.map .text)

def ofSlot : Slot Node → FieldValue
  | .absent => .absent
  | .one n => .node n
  | .many ns => .list (ns.map .node)

def text? : FieldValue → Option String
  | .text s => some s
  | _ => none

def node? : FieldValue → Option Node
  | .node n => some n
  | _ => none

def list? {α : Type} (item : FieldValue → Option α) : FieldValue → Option (List α)
  | .list vs => vs.mapM item
  | _ => none

def slot? : FieldValue → Option (Slot Node)
  | .absent => some .absent
  | .node n => some (.one n)
  | .list vs => .many <$> vs.mapM node?
  | _ => none

def scalar? : FieldValue → Option Scalar
  | .absent => some .nothing
  | .flag b => some (.flag b)
  | .number n => some (.integer n)
  | .text s => some (.text s)
  | _ => none

end FieldValue

/-! ## Reading fields -/

namespace Fields

def text? (fields : Fields) (field : String) : Option String :=
  (fields.lookup field).bind FieldValue.text?

def names? (fields : Fields) (field : String) : Option (List String) :=
  (fields.lookup field).bind (FieldValue.list? FieldValue.text?)

/-- A text that may be missing. -/
def optionalText? (fields : Fields) (field : String) : Option (Option String) :=
  match fields.lookup field with
  | none | some .absent => some none
  | some v => some <$> v.text?

/-- A list of texts, empty if it is missing. -/
def namesOrNone? (fields : Fields) (field : String) : Option (List String) :=
  match fields.lookup field with
  | none | some .absent => some []
  | some v => v.list? FieldValue.text?

/-- A flag, unset if it is missing. -/
def flagOrUnset? (fields : Fields) (field : String) : Option Bool :=
  match fields.lookup field with
  | none => some false
  | some (.flag b) => some b
  | _ => none

def scalar? (fields : Fields) (field : String) : Option Scalar :=
  (fields.lookup field).bind FieldValue.scalar?

def phase? (fields : Fields) : Option Phase :=
  match fields.lookup "phase" with
  | none => some .expand
  | some (.text s) => [Phase.parse, .expand, .compile].find? (·.name = s)
  | _ => none

def hygiene? (fields : Fields) : Option Hygiene :=
  match fields.lookup "hygiene" with
  | none => some .isolate
  | some (.text s) => [Hygiene.capture, .isolate, .inject].find? (·.name = s)
  | _ => none

/-- A slot, empty if it is missing. -/
def slot? (fields : Fields) (field : String) : Option (Slot Node) :=
  match fields.lookup field with
  | none => some .absent
  | some v => v.slot?

end Fields

/-! ## Building nodes -/

namespace Head

/-- The head of the named kind with the attributes of the fields. -/
def ofFields? (className : String) (fields : Fields) : Option Head :=
  match className with
  | "Program" => .program <$> fields.namesOrNone? "injected"
  | "Block" => .block <$> fields.namesOrNone? "injected"
  | "BlockStmt" => some .blockStmt
  | "Assignment" => .assignment <$> fields.text? "target"
  | "Import" => .importDecl <$> fields.names? "path" <*> fields.optionalText? "alias"
  | "Return" => some .returnStmt
  | "Yield" => some .yieldStmt
  | "Break" => some .breakStmt
  | "Continue" => some .continueStmt
  | "ExpressionStatement" => some .expressionStmt
  | "MemoryStmt" => .memoryStmt <$> fields.text? "action"
  | "DeviceStmt" => some .deviceStmt
  | "TryStmt" => some .tryStmt
  | "MatchStmt" => some .matchStmt
  | "FunctionDef" => .functionDef <$> fields.text? "name" <*> fields.names? "params"
  | "AsyncFunctionDef" => .asyncFunctionDef <$> fields.text? "name" <*> fields.names? "params"
  | "ClassDef" => .classDef <$> fields.text? "name"
  | "IfStmt" => some .ifStmt
  | "LoopStmt" => .loopStmt <$> fields.optionalText? "target"
  | "ParallelStmt" => some .parallelStmt
  | "GpuStmt" => some .gpuStmt
  | "TensorDecl" => .tensorDecl <$> fields.text? "name"
  | "NeuralNet" => .neuralNet <$> fields.text? "name"
  | "StreamStmt" => some .streamStmt
  | "MacroDef" =>
    .macroDef <$> fields.text? "name" <*> fields.names? "params" <*> fields.phase?
      <*> fields.hygiene?
  | "MacroRule" => .macroRule <$> fields.flagOrUnset? "is_transform"
  | "ExceptClause" => some .exceptClause
  | "CaseClause" => some .caseClause
  | "ComprehensionClause" => .comprehensionClause <$> fields.text? "target"
  | "Literal" =>
    .literal <$> fields.scalar? "value" <*> LiteralKind.ofName <$> fields.text? "kind"
  | "Identifier" => .identifier <$> fields.text? "name"
  | "TupleLiteral" => some .tupleLiteral
  | "TensorLiteral" => some .tensorLiteral
  | "Comprehension" => some .comprehension
  | "Call" => some .call
  | "MacroCall" => .macroCall <$> fields.text? "name" <*> fields.flagOrUnset? "deferred"
  | "Lambda" => .lambda <$> fields.names? "params"
  | "Await" => some .awaitExpr
  | "BinaryOp" => .binaryOp <$> fields.text? "operator"
  | "UnaryOp" => .unaryOp <$> fields.text? "operator"
  | "Conditional" => some .conditional
  | "Quote" => some .quote
  | "Unquote" => some .unquote
  | "LiteralPattern" =>
    .literalPattern <$> fields.scalar? "value" <*> LiteralKind.ofName <$> fields.text? "kind"
  | "BindPattern" => .bindPattern <$> fields.text? "name"
  | "TuplePattern" => some .tuplePattern
  | "TensorShapePattern" => some .tensorShapePattern
  | "GraphPattern" => some .graphPattern
  | "StreamPattern" => some .streamPattern
  | _ => none

end Head

/-- The names of fields that a node of the kind does not have, in order. -/
structure UnknownFields where
  className : String
  names : List String
  deriving DecidableEq, Repr

def UnknownFields.message (u : UnknownFields) : String :=
  u.className ++ " has no fields [" ++ ", ".intercalate (u.names.map quoted) ++ "]"

namespace Node

/-- The node of the named kind with the attributes and slots of the fields. -/
def ofFields? (span : Span) (className : String) (fields : Fields) : Option Node := do
  let head ← Head.ofFields? className fields
  return mk span head (← head.slotNames.mapM fields.slot?)

/-- The attributes and slots of a node. -/
def fields (n : Node) : Fields :=
  n.head.attributes.map (fun (name, a) => (name, FieldValue.ofAttribute a)) ++
    n.head.slotNames.zip (n.slots.map FieldValue.ofSlot)

/-- The names among the changes that are no fields of the node. Its place can always be
given. -/
def unknownFields (n : Node) (changes : Fields) : List String :=
  let known := n.fields.map (·.1)
  ((changes.map (·.1)).filter fun name => name ≠ "span" && !known.contains name).mergeSort
    fun a b => a < b || a = b

/-- The node with some of its fields changed, if the changes fit. -/
def replace (n : Node) (changes : Fields) : Except UnknownFields (Option Node) :=
  match n.unknownFields changes with
  | [] => .ok (ofFields? n.span n.className (changes ++ n.fields))
  | names => .error ⟨n.className, names⟩

end Node

end GlyphScript
