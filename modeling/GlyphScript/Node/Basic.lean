import GlyphScript.Location
import GlyphScript.Node.Head

/-!
# Syntax trees

A node is its place in the source, its head and its slots. A slot is empty,
holds one child, or holds a list of children; which slots a node has depends
on its head.
-/

namespace GlyphScript

/-- A place for children. -/
inductive Slot (α : Type) where
  | absent
  | one (a : α)
  | many (as : List α)
  deriving Repr

namespace Slot

variable {α β : Type}

def ofOption : Option α → Slot α
  | none => .absent
  | some a => .one a

def toList : Slot α → List α
  | .absent => []
  | .one a => [a]
  | .many as => as

def map (f : α → β) : Slot α → Slot β
  | .absent => .absent
  | .one a => .one (f a)
  | .many as => .many (as.map f)

end Slot

inductive Node where
  | mk (span : Span) (head : Head) (slots : List (Slot Node))

namespace Node

def span : Node → Span
  | mk span _ _ => span

def head : Node → Head
  | mk _ head _ => head

def slots : Node → List (Slot Node)
  | mk _ _ slots => slots

def className (n : Node) : String := n.head.className

def level (n : Node) : Level := n.head.level

/-- The children, from left to right. -/
def children (n : Node) : List Node := n.slots.flatMap Slot.toList

/-! ## Folding -/

mutual

/-- Computes a value for every node from the values of its children. -/
def fold {α : Type} (f : Span → Head → List (Slot α) → α) : Node → α
  | mk span head slots => f span head (foldSlots f slots)

def foldSlots {α : Type} (f : Span → Head → List (Slot α) → α) :
    List (Slot Node) → List (Slot α)
  | [] => []
  | .absent :: slots => .absent :: foldSlots f slots
  | .one n :: slots => .one (fold f n) :: foldSlots f slots
  | .many ns :: slots => .many (foldList f ns) :: foldSlots f slots

def foldList {α : Type} (f : Span → Head → List (Slot α) → α) : List Node → List α
  | [] => []
  | n :: ns => fold f n :: foldList f ns

end

/-! ## Walking -/

mutual

/-- The node and all nodes below it with their depths, parents before children and from left
to right. -/
def walkAt (depth : Nat) : Node → List (Nat × Node)
  | mk span head slots => (depth, mk span head slots) :: walkSlots (depth + 1) slots

def walkSlots (depth : Nat) : List (Slot Node) → List (Nat × Node)
  | [] => []
  | .absent :: slots => walkSlots depth slots
  | .one n :: slots => walkAt depth n ++ walkSlots depth slots
  | .many ns :: slots => walkList depth ns ++ walkSlots depth slots

def walkList (depth : Nat) : List Node → List (Nat × Node)
  | [] => []
  | n :: ns => walkAt depth n ++ walkList depth ns

end

/-- The node and all nodes below it, parents before children and from left to right. -/
def walk (n : Node) : List Node := (n.walkAt 0).map (·.2)

/-- For each node of `walk` the index of its parent there. Given the depths of a walk, the
parent of a node is the last node before it that is one level up. -/
def parentIndices (n : Node) : List (Option Nat) :=
  indices ((n.walkAt 0).map (·.1)) 0 []
where
  /-- `path` holds the indices of the ancestors of the next node, innermost first. -/
  indices : List Nat → (index : Nat) → (path : List Nat) → List (Option Nat)
    | [], _, _ => []
    | depth :: depths, index, path =>
      let path := path.drop (path.length - depth)
      path.head? :: indices depths (index + 1) (index :: path)

/-- The names that the node itself binds. -/
def boundNames (n : Node) : List String := n.head.boundNames

/-- A node as one line: its kind and its place. -/
def render (n : Node) : String := s!"{n.className}@{n.span.render}"

/-! ## Forms -/

section
variable (span : Span)

def program (statements : List Node) (injected : List String) : Node :=
  mk span (.program injected) [.many statements]

def block (statements : List Node) (injected : List String) : Node :=
  mk span (.block injected) [.many statements]

def blockStmt (body : Node) : Node := mk span .blockStmt [.one body]

def assignment (target : String) (value : Node) : Node := mk span (.assignment target) [.one value]

def importDecl (path : List String) (alias? : Option String) : Node :=
  mk span (.importDecl path alias?) []

def returnStmt (value : Option Node) : Node := mk span .returnStmt [.ofOption value]

def yieldStmt (value : Option Node) : Node := mk span .yieldStmt [.ofOption value]

def breakStmt : Node := mk span .breakStmt []

def continueStmt : Node := mk span .continueStmt []

def expressionStmt (expression : Node) : Node := mk span .expressionStmt [.one expression]

def memoryStmt (action : String) (args : List Node) : Node :=
  mk span (.memoryStmt action) [.many args]

def deviceStmt (device body : Node) : Node := mk span .deviceStmt [.one device, .one body]

def tryStmt (body : Node) (handlers : List Node) (finallyBody : Option Node) : Node :=
  mk span .tryStmt [.one body, .many handlers, .ofOption finallyBody]

def matchStmt (subject : Node) (cases : List Node) : Node :=
  mk span .matchStmt [.one subject, .many cases]

def functionDef (name : String) (params : List String) (body : Node) : Node :=
  mk span (.functionDef name params) [.one body]

def asyncFunctionDef (name : String) (params : List String) (body : Node) : Node :=
  mk span (.asyncFunctionDef name params) [.one body]

def classDef (name : String) (bases : List Node) (body : Node) : Node :=
  mk span (.classDef name) [.many bases, .one body]

def ifStmt (condition body : Node) (orelse : Option Node) : Node :=
  mk span .ifStmt [.one condition, .one body, .ofOption orelse]

def loopStmt (target : Option String) (header : Option Node) (body : Node) : Node :=
  mk span (.loopStmt target) [.ofOption header, .one body]

def parallelStmt (args : List Node) (body : Node) : Node :=
  mk span .parallelStmt [.many args, .one body]

def gpuStmt (args : List Node) (body : Node) : Node := mk span .gpuStmt [.many args, .one body]

def tensorDecl (name : String) (shape : List Node) (body : Node) : Node :=
  mk span (.tensorDecl name) [.many shape, .one body]

def neuralNet (name : String) (body : Node) : Node := mk span (.neuralNet name) [.one body]

def streamStmt (source body : Node) : Node := mk span .streamStmt [.one source, .one body]

def macroDef (name : String) (params : List String) (phase : Phase) (hygiene : Hygiene)
    (rules : List Node) (template : Option Node) : Node :=
  mk span (.macroDef name params phase hygiene) [.many rules, .ofOption template]

def macroRule (isTransform : Bool) (pattern template : Node) : Node :=
  mk span (.macroRule isTransform) [.one pattern, .one template]

def exceptClause (pattern body : Node) : Node := mk span .exceptClause [.one pattern, .one body]

def caseClause (pattern body : Node) : Node := mk span .caseClause [.one pattern, .one body]

def comprehensionClause (target : String) (iterable : Node) (conditions : List Node) : Node :=
  mk span (.comprehensionClause target) [.one iterable, .many conditions]

def literal (value : Scalar) (kind : LiteralKind) : Node := mk span (.literal value kind) []

def identifier (name : String) : Node := mk span (.identifier name) []

def tupleLiteral (elements : List Node) : Node := mk span .tupleLiteral [.many elements]

def tensorLiteral (elements : List Node) : Node := mk span .tensorLiteral [.many elements]

def comprehension (element : Node) (clauses : List Node) : Node :=
  mk span .comprehension [.one element, .many clauses]

def call (callee : Node) (args : List Node) : Node := mk span .call [.one callee, .many args]

def macroCall (name : String) (args : List Node) (deferred : Bool) : Node :=
  mk span (.macroCall name deferred) [.many args]

def lambda (params : List String) (body : Node) : Node := mk span (.lambda params) [.one body]

def awaitExpr (value : Node) : Node := mk span .awaitExpr [.one value]

def binaryOp (operator : String) (left right : Node) : Node :=
  mk span (.binaryOp operator) [.one left, .one right]

def unaryOp (operator : String) (operand : Node) : Node := mk span (.unaryOp operator) [.one operand]

def conditional (condition consequent alternative : Node) : Node :=
  mk span .conditional [.one condition, .one consequent, .one alternative]

def quote (body : Node) : Node := mk span .quote [.one body]

def unquote (expression : Node) : Node := mk span .unquote [.one expression]

def literalPattern (value : Scalar) (kind : LiteralKind) : Node :=
  mk span (.literalPattern value kind) []

def bindPattern (name : String) : Node := mk span (.bindPattern name) []

/-- A pattern that is matched element by element; `head` is that of a composite pattern. -/
def compositePattern (head : Head) (elements : List Node) : Node := mk span head [.many elements]

end

end Node

end GlyphScript
