import GlyphScript.Proofs.Fidelity.Essence
import GlyphScript.Proofs.Layout.Trees
import GlyphScript.Proofs.Printing.Nodes

/-!
# Outlines of trees

The tokens that a tree cannot do without: what a text that is read as the tree
says, in the same order.
-/

namespace GlyphScript

open Reserved

/-- What is said by a text that is read as a node. -/
structure Outline where
  own : List Meaning
  /-- The same for the node as what follows the body of a conditional. -/
  otherwise : List Meaning

namespace Slot

def own (s : Slot Outline) : List Meaning := s.toList.flatMap (·.own)

/-- The children behind `r`, if there are any. -/
def ownBehind (r : Reserved) (s : Slot Outline) : List Meaning :=
  s.toList.flatMap fun o => r :: o.own

def otherwise (s : Slot Outline) : List Meaning := s.toList.flatMap (·.otherwise)

end Slot

/-- Items with separators between them, and brackets around. -/
def listed (opener closer : Reserved) (items : List (List Meaning)) : List Meaning :=
  List.flatten [[opener], List.intercalate [separator] items, [closer]]

namespace Outline

def arguments (s : Slot Outline) : List Meaning :=
  listed listOpen listClose (s.toList.map (·.own))

/-- As `arguments`, and nothing if there are none. -/
def optionalArguments (s : Slot Outline) : List Meaning :=
  if s.toList.isEmpty then [] else arguments s

def parameters (names : List String) : List Meaning :=
  listed listOpen listClose (names.map ([.name ·]))

def ofScalar : Scalar → LiteralKind → List Meaning
  | .integer n, .number => [.number n.toNat]
  | .text s, .string => [.text s]
  | .flag true, .boolean => [trueMark]
  | .flag false, .boolean => [falseMark]
  | .nothing, .null => [nullMark]
  | _, _ => []

def operator (name : String) : List Meaning :=
  ([add, subtract, multiply, divide, negate].filter (·.spelling = name)).map .mark

/-- The arms of a conditional, without the outer delimiters. -/
def arms (condition body orelse : Slot Outline) : List Meaning :=
  condition.own ++ body.own ++ orelse.otherwise

/-- What the node says on its own, and a clause behind its introducer. -/
def ownOf : Head → List (Slot Outline) → List Meaning
  | .program _, [statements] => statements.own
  | .block _, [statements] => List.flatten [[bodyOpen], statements.own, [bodyClose]]
  | .blockStmt, [body] => List.flatten [[blockOpen], body.own, [blockClose]]
  | .assignment target, [value] =>
    List.flatten [[assignOpen, .name target, assignOp], value.own, [assignClose]]
  | .importDecl path alias?, _ =>
    List.flatten [[importOpen], List.intercalate [pathSep] (path.map ([.name ·])),
      alias?.toList.flatMap ([arrow, .name ·]), [importClose]]
  | .returnStmt, [value] => List.flatten [[returnOpen], value.own, [returnClose]]
  | .yieldStmt, [value] => List.flatten [[yieldOpen], value.own, [yieldClose]]
  | .breakStmt, _ => [breakMark]
  | .continueStmt, _ => [continueMark]
  | .expressionStmt, [expression] => expression.own
  | .memoryStmt action, [args] =>
    List.flatten [[memoryOpen, .name action], arguments args, [memoryClose]]
  | .deviceStmt, [device, body] =>
    List.flatten [[deviceOpen], device.own, body.own, [deviceClose]]
  | .tryStmt, [body, handlers, finallyBody] =>
    List.flatten [[tryOpen], body.own, handlers.own, finallyBody.ownBehind finallyArm, [tryClose]]
  | .matchStmt, [subject, cases] =>
    List.flatten [[matchOpen], subject.own, cases.own, [matchClose]]
  | .functionDef name params, [body] =>
    List.flatten [[funcOpen, .name name], parameters params, body.own, [funcClose]]
  | .asyncFunctionDef name params, [body] =>
    List.flatten [[asyncFuncOpen, .name name], parameters params, body.own, [asyncFuncClose]]
  | .classDef name, [bases, body] =>
    List.flatten [[classOpen, .name name], optionalArguments bases, body.own, [classClose]]
  | .ifStmt, [condition, body, orelse] =>
    List.flatten [[ifOpen], arms condition body orelse, [ifClose]]
  | .loopStmt (some target), [header, body] =>
    List.flatten [[loopOpen, listOpen, .name target, bindArrow], header.own, [listClose],
      body.own, [loopClose]]
  | .loopStmt none, [.absent, body] => List.flatten [[loopOpen], body.own, [loopClose]]
  | .loopStmt none, [header, body] =>
    List.flatten [[loopOpen, listOpen], header.own, [listClose], body.own, [loopClose]]
  | .parallelStmt, [args, body] =>
    List.flatten [[parallelOpen], optionalArguments args, body.own, [parallelClose]]
  | .gpuStmt, [args, body] =>
    List.flatten [[gpuOpen], optionalArguments args, body.own, [gpuClose]]
  | .tensorDecl name, [shape, body] =>
    List.flatten [[tensorOpen, .name name], optionalArguments shape, body.own, [tensorClose]]
  | .neuralNet name, [body] => List.flatten [[nnOpen, .name name], body.own, [nnClose]]
  | .streamStmt, [source, body] =>
    List.flatten [[streamOpen], source.own, body.own, [streamClose]]
  | .macroDef name params _ _, [rules, template] =>
    List.flatten [[macroOpen, .name name], parameters params, [bodyOpen], rules.own, template.own,
      [bodyClose, macroClose]]
  | .macroRule isTransform, [pattern, template] =>
    List.flatten [[ruleOpen], pattern.own, [if isTransform then transformArrow else ruleArrow],
      template.own, [ruleClose]]
  | .exceptClause, [pattern, body] => List.flatten [[exceptArm], pattern.own, body.own]
  | .caseClause, [pattern, body] => List.flatten [[caseArm], pattern.own, body.own]
  | .comprehensionClause target, [iterable, conditions] =>
    List.flatten [[pathSep, .name target, bindArrow], iterable.own, conditions.ownBehind compIf]
  | .literal value kind, _ | .literalPattern value kind, _ => ofScalar value kind
  | .identifier name, _ | .bindPattern name, _ => [.name name]
  | .tupleLiteral, [elements] | .tuplePattern, [elements] => arguments elements
  | .tensorLiteral, [elements] | .tensorShapePattern, [elements] =>
    listed tensorLitOpen tensorLitClose (elements.toList.map (·.own))
  | .graphPattern, [elements] => listed nnOpen nnClose (elements.toList.map (·.own))
  | .streamPattern, [elements] => listed streamOpen streamClose (elements.toList.map (·.own))
  | .comprehension, [element, clauses] =>
    List.flatten [[compOpen], element.own, clauses.own, [compClose]]
  | .call, [callee, args] => callee.own ++ arguments args
  | .macroCall name _, [args] => .name name :: arguments args
  | .lambda params, [body] =>
    List.flatten [[lambdaOpen], List.intercalate [separator] (params.map ([.name ·])), [arrow],
      body.own, [lambdaClose]]
  | .awaitExpr, [value] => .mark await :: value.own
  | .unaryOp name, [operand] => operator name ++ operand.own
  | .binaryOp name, [left, right] => List.flatten [left.own, operator name, right.own]
  | .conditional, [condition, consequent, alternative] =>
    List.flatten [condition.own, [condThen], consequent.own, [condElse], alternative.own]
  | .quote, [body] => List.flatten [[quoteOpen], body.own, [quoteClose]]
  | .unquote, [expression] => List.flatten [[unquoteOpen], expression.own, [unquoteClose]]
  | _, _ => []

def ofParts (head : Head) (slots : List (Slot Outline)) : Outline where
  own := ownOf head slots
  otherwise :=
    match head, slots with
    | .ifStmt, [condition, body, orelse] => elifArm :: arms condition body orelse
    | _, _ => elseArm :: ownOf head slots

end Outline

namespace Node

def outlined : Node → Outline := fold fun _ => Outline.ofParts

/-- The meanings of the tokens that a text has to have that is read as the tree. -/
def outline (n : Node) : List Meaning := n.outlined.own

theorem outlined_mk (span : Span) (head : Head) (slots : List (Slot Node)) :
    (mk span head slots).outlined = Outline.ofParts head (slots.map (Slot.map outlined)) :=
  fold_mk ..

theorem outline_mk (span : Span) (head : Head) (slots : List (Slot Node)) :
    (mk span head slots).outline = Outline.ownOf head (slots.map (Slot.map outlined)) := by
  rw [outline, outlined_mk]
  rfl

/-! ## Places -/

@[simp] theorem outlined_unplaced (n : Node) : n.unplaced.outlined = n.outlined :=
  fold_unplaced (fun _ => rfl) n

@[simp] theorem outline_unplaced (n : Node) : n.unplaced.outline = n.outline := by
  rw [outline, outlined_unplaced, outline]

theorem printed_unplaced (n : Node) : n.unplaced.printed = n.printed :=
  fold_unplaced (fun _ => rfl) n

end Node

/-! ## Slots -/

namespace Slot

variable (n : Node) (ns : List Node) (r : Reserved)

@[simp] theorem own_one : ((Slot.one n).map Node.outlined).own = n.outline := List.append_nil _

@[simp] theorem own_many : ((Slot.many ns).map Node.outlined).own = ns.flatMap Node.outline :=
  List.flatMap_map ..

@[simp] theorem own_absent : (Slot.absent : Slot Outline).own = [] := rfl

@[simp] theorem ownBehind_one :
    ((Slot.one n).map Node.outlined).ownBehind r = Meaning.mark r :: n.outline :=
  List.append_nil _

@[simp] theorem ownBehind_many : ((Slot.many ns).map Node.outlined).ownBehind r =
    ns.flatMap fun n => Meaning.mark r :: n.outline :=
  List.flatMap_map ..

@[simp] theorem ownBehind_absent : (Slot.absent : Slot Outline).ownBehind r = [] := rfl

@[simp] theorem otherwise_one :
    ((Slot.one n).map Node.outlined).otherwise = n.outlined.otherwise := List.append_nil _

@[simp] theorem otherwise_absent : (Slot.absent : Slot Outline).otherwise = [] := rfl

end Slot

end GlyphScript
