import GlyphScript.Node.Basic

/-!
# Trees as source text

The words that spell a tree. Words are separated by single spaces, so that
neighbours such as `)` and `)` never fuse into `))`, and parentheses stand
where an operand holds together less tightly than its operator demands.
-/

namespace GlyphScript

/-- What was to be printed and has no spelling of its own. -/
structure Unprintable where
  what : String
  deriving DecidableEq, Repr

def Unprintable.message (u : Unprintable) : String := s!"cannot print {u.what}"

abbrev Words := Except Unprintable (List String)

instance : Coe Reserved String := ⟨Reserved.spelling⟩

def Phase.mark : Phase → Reserved
  | .parse => .phaseParse
  | .expand => .phaseExpand
  | .compile => .phaseCompile

def Hygiene.mark : Hygiene → Reserved
  | .capture => .hygieneCapture
  | .isolate => .hygieneIsolate
  | .inject => .hygieneInject

def spaced (words : List String) : String := " ".intercalate words

/-! ## Printed nodes -/

/-- A printed node, in the three places where it may be wanted. -/
structure Printed where
  level : Level
  /-- The node on its own. -/
  words : Words
  /-- The node as a clause of its parent, behind the clause's introducer. -/
  clause : Words
  /-- The node as what follows the body of a conditional. -/
  alternative : Words

namespace Printed

open Reserved

/-- A node that is no clause and no conditional. -/
def plain (level : Level) (words : Words) : Printed :=
  ⟨level, words, words, do return elseArm :: (← words)⟩

/-- A node that cannot be printed. -/
def failed (what : String) : Printed := plain .primary (.error ⟨what⟩)

/-- An operand goes into parentheses if it is looser than `level`. -/
def operand (p : Printed) (level : Level) : Words := do
  let words ← p.words
  return if p.level.rank < level.rank then List.flatten [[groupOpen], words, [groupClose]]
    else words

/-- A statement that starts with `((` goes into parentheses, since it would be read as the
arguments of a call of the statement before it. -/
def statement (p : Printed) : Words := do
  let words ← p.words
  let first := (words.headD "").toList.takeWhile (· ≠ ' ')
  return if first = listOpen.chars then List.flatten [[groupOpen], words, [groupClose]] else words

end Printed

namespace Slot

/-- The only child of a slot; an empty slot and a list cannot be printed as a node. -/
def child : Slot Printed → Printed
  | .one p => p
  | .absent => .failed "NoneType"
  | .many _ => .failed "list"

def words (slot : Slot Printed) : Words := slot.child.words

/-- What `print` makes of the child, and nothing if there is none. -/
def wordsOrNone (slot : Slot Printed) (print : Printed → Words) : Words :=
  match slot with
  | .absent => return []
  | slot => print slot.child

/-- What `print` makes of each child. -/
def eachWords (slot : Slot Printed) (print : Printed → Words) :
    Except Unprintable (List (List String)) := slot.toList.mapM print

end Slot

/-! ## Lists -/

section
open Reserved

/-- The items with `mark` between each two; no item at all is one empty word. -/
def separatedBy (mark : Reserved) (items : List (List String)) : List String :=
  if items.isEmpty then [""] else List.intercalate [mark.spelling] items

/-- `open item ,, item close` -/
def enclosed (opener closer : Reserved) (items : List (List String)) : List String :=
  if items.isEmpty then [opener, closer]
  else List.flatten [[opener], separatedBy separator items, [closer]]

/-- `(( arg ,, arg ))` -/
def argumentWords (args : Slot Printed) : Words := do
  return enclosed listOpen listClose (← args.eachWords (·.words))

/-- As `argumentWords`, and nothing if there is no argument. -/
def optionalArgumentWords (args : Slot Printed) : Words :=
  if args.toList.isEmpty then return [] else argumentWords args

/-- `(( name ,, name ))` -/
def parameterWords (names : List String) : List String :=
  enclosed listOpen listClose (names.map ([·]))

/-- Each item behind `introducer`. -/
def clauseWords (introducer : Reserved) (items : Slot Printed) (print : Printed → Words) :
    Words := do
  return (← items.eachWords print).flatMap (introducer.spelling :: ·)

end

/-! ## Nodes -/

namespace Node

open Reserved

/-- The arms of a conditional, without the outer delimiters. -/
def armWords (condition body orelse : Slot Printed) : Words := do
  return List.flatten
    [← condition.words, ← body.words, ← orelse.wordsOrNone Printed.alternative]

/-- A clause behind its introducer. -/
def clausePartWords : Head → List (Slot Printed) → Words
  | .exceptClause, [pattern, body] | .caseClause, [pattern, body] => do
    return List.flatten [← pattern.words, ← body.words]
  | .comprehensionClause target, [iterable, conditions] => do
    return List.flatten [[target, bindArrow], ← iterable.words,
      ← clauseWords compIf conditions (·.words)]
  | head, _ => .error ⟨head.className⟩

/-- The words of a node on its own. -/
def wordsWith : Head → List (Slot Printed) → Words
  | .program _, [statements] => do
    return ["\n".intercalate ((← statements.eachWords Printed.statement).map spaced)]
  | .block _, [statements] => do
    return List.flatten
      [[bodyOpen], (← statements.eachWords Printed.statement).flatten, [bodyClose]]
  | .blockStmt, [body] => do
    return List.flatten [[blockOpen], ← body.words, [blockClose]]
  | .assignment target, [value] => do
    return List.flatten [[assignOpen, target, assignOp], ← value.words, [assignClose]]
  | .importDecl path alias?, _ =>
    return List.flatten [[importOpen], separatedBy pathSep (path.map ([·])),
      (alias?.filter (· ≠ "")).elim [] ([arrow, ·]), [importClose]]
  | .returnStmt, [value] => do
    return List.flatten [[returnOpen], ← value.wordsOrNone (·.words), [returnClose]]
  | .yieldStmt, [value] => do
    return List.flatten [[yieldOpen], ← value.wordsOrNone (·.words), [yieldClose]]
  | .breakStmt, _ => return [breakMark]
  | .continueStmt, _ => return [continueMark]
  | .expressionStmt, [expression] => expression.words
  | .memoryStmt action, [args] => do
    return List.flatten [[memoryOpen, action], ← argumentWords args, [memoryClose]]
  | .deviceStmt, [device, body] => do
    return List.flatten [[deviceOpen], ← device.words, ← body.words, [deviceClose]]
  | .tryStmt, [body, handlers, finallyBody] => do
    return List.flatten [[tryOpen], ← body.words, ← clauseWords exceptArm handlers (·.clause),
      ← finallyBody.wordsOrNone fun p => return finallyArm :: (← p.words), [tryClose]]
  | .matchStmt, [subject, cases] => do
    return List.flatten [[matchOpen], ← subject.words, ← clauseWords caseArm cases (·.clause),
      [matchClose]]
  | .functionDef name params, [body] => do
    return List.flatten [[funcOpen, name], parameterWords params, ← body.words, [funcClose]]
  | .asyncFunctionDef name params, [body] => do
    return List.flatten
      [[asyncFuncOpen, name], parameterWords params, ← body.words, [asyncFuncClose]]
  | .classDef name, [bases, body] => do
    return List.flatten
      [[classOpen, name], ← optionalArgumentWords bases, ← body.words, [classClose]]
  | .ifStmt, [condition, body, orelse] => do
    return List.flatten [[ifOpen], ← armWords condition body orelse, [ifClose]]
  | .loopStmt (some target), [header, body] => do
    return List.flatten [[loopOpen, listOpen, target, bindArrow], ← header.words, [listClose],
      ← body.words, [loopClose]]
  | .loopStmt none, [.absent, body] => do
    return List.flatten [[loopOpen], ← body.words, [loopClose]]
  | .loopStmt none, [header, body] => do
    return List.flatten
      [[loopOpen, listOpen], ← header.words, [listClose], ← body.words, [loopClose]]
  | .parallelStmt, [args, body] => do
    return List.flatten
      [[parallelOpen], ← optionalArgumentWords args, ← body.words, [parallelClose]]
  | .gpuStmt, [args, body] => do
    return List.flatten [[gpuOpen], ← optionalArgumentWords args, ← body.words, [gpuClose]]
  | .tensorDecl name, [shape, body] => do
    return List.flatten
      [[tensorOpen, name], ← optionalArgumentWords shape, ← body.words, [tensorClose]]
  | .neuralNet name, [body] => do
    return List.flatten [[nnOpen, name], ← body.words, [nnClose]]
  | .streamStmt, [source, body] => do
    return List.flatten [[streamOpen], ← source.words, ← body.words, [streamClose]]
  | .macroDef name params phase hygiene, [rules, template] => do
    let body ← match template with
      | .absent => do
        let rules ← rules.eachWords (·.words)
        pure (if rules.isEmpty then [""] else rules.flatten)
      | template => template.words
    return List.flatten [[macroOpen, name], parameterWords params, [phase.mark, hygiene.mark],
      [bodyOpen], body, [bodyClose, macroClose]]
  | .macroRule isTransform, [pattern, template] => do
    let mark := if isTransform then transformArrow else ruleArrow
    return List.flatten [[ruleOpen], ← pattern.words, [mark], ← template.words, [ruleClose]]
  | .literal value kind, _ | .literalPattern value kind, _ =>
    return [literalSpelling value kind]
  | .identifier name, _ | .bindPattern name, _ => return [name]
  | .tupleLiteral, [elements] => argumentWords elements
  | .tensorLiteral, [elements] | .tensorShapePattern, [elements] => do
    return enclosed tensorLitOpen tensorLitClose (← elements.eachWords (·.words))
  | .comprehension, [element, clauses] => do
    return List.flatten [[compOpen], ← element.words, ← clauseWords pathSep clauses (·.clause),
      [compClose]]
  | .call, [callee, args] => do
    return List.flatten [← callee.child.operand .postfixed, ← argumentWords args]
  | .macroCall name _, [args] => do
    return List.flatten [[macroInvoke, name], ← argumentWords args]
  | .lambda params, [body] => do
    let names := separatedBy separator (params.map ([·]))
    return List.flatten [[lambdaOpen], if names = [""] then [] else names, [arrow],
      ← body.words, [lambdaClose]]
  | .awaitExpr, [value] => do return await :: (← value.child.operand .unary)
  | .unaryOp operator, [operand] => do return operator :: (← operand.child.operand .unary)
  | .binaryOp operator, [left, right] => do
    let level := Level.ofOperator operator
    return List.flatten
      [← left.child.operand level, [operator], ← right.child.operand level.tighter]
  | .conditional, [condition, consequent, alternative] => do
    return List.flatten [← condition.child.operand .additive, [condThen], ← consequent.words,
      [condElse], ← alternative.child.operand .additive]
  | .quote, [body] => do return List.flatten [[quoteOpen], ← body.words, [quoteClose]]
  | .unquote, [expression] => do
    return List.flatten [[unquoteOpen], ← expression.words, [unquoteClose]]
  | .tuplePattern, [elements] => argumentWords elements
  | .graphPattern, [elements] => do
    return enclosed nnOpen nnClose (← elements.eachWords (·.words))
  | .streamPattern, [elements] => do
    return enclosed streamOpen streamClose (← elements.eachWords (·.words))
  | head, _ => .error ⟨head.className⟩

/-- Prints a node whose children have been printed. -/
def printWith (head : Head) (slots : List (Slot Printed)) : Printed :=
  match head, slots with
  | .ifStmt, [condition, body, orelse] =>
    { Printed.plain .primary (wordsWith head slots) with
      alternative := do return elifArm :: (← armWords condition body orelse) }
  | .exceptClause, _ | .caseClause, _ | .comprehensionClause _, _ =>
    { Printed.failed head.className with clause := clausePartWords head slots }
  | _, _ => Printed.plain head.level (wordsWith head slots)

def printed : Node → Printed := fold fun _ => printWith

/-- The words that spell a tree. -/
def words (n : Node) : Words := n.printed.words

/-- The text that spells a tree. -/
def source (n : Node) : Except Unprintable String := spaced <$> n.words

end Node

end GlyphScript
