import GlyphScript.Grammar.Basic

/-!
# Reading expressions

An expression starts with an operand or a unary operator. It goes on for as
long as an operator follows that holds together tightly enough.
-/

namespace GlyphScript

namespace Nonterminals

open GlyphScript.Parser

/-! ## Operands -/

/-- An expression that is a single token. -/
def atom? (token : Token) : Option Node :=
  match token.kind with
  | .number n => some (Node.literal token.span (.integer n) .number)
  | .text s => some (Node.literal token.span (.text s) .string)
  | .identifier => some (Node.identifier token.span token.lexeme)
  | .reserved .trueMark => some (Node.literal token.span (.flag true) .boolean)
  | .reserved .falseMark => some (Node.literal token.span (.flag false) .boolean)
  | .reserved .nullMark => some (Node.literal token.span .nothing .null)
  | _ => none

/-- `( expression )` is no node of its own. -/
def group (g : Nonterminals) : Parser Node := do
  discard (consume .groupOpen)
  let inner ← g.anyExpression
  discard (consume .groupClose)
  return inner

/-- `(( expression ,, expression ))` -/
def tupleLiteral (g : Nonterminals) : Parser Node := do
  let start ← consume .listOpen
  let elements ← g.argumentsUntil .listClose
  return Node.tupleLiteral (← spanFrom start) elements

/-- `[: expression ,, expression :]` -/
def tensorLiteral (g : Nonterminals) : Parser Node := do
  let start ← consume .tensorLitOpen
  let elements ← g.argumentsUntil .tensorLitClose
  return Node.tensorLiteral (← spanFrom start) elements

/-- `:: name <- expression ?? expression …`, from behind the `::` that `start` is. -/
def comprehensionClause (g : Nonterminals) (start : Token) : Parser Node := do
  let target ← consumeName "comprehension variable"
  discard (consume .bindArrow)
  let iterable ← g.anyExpression
  let conditions ← repeatWhile (accept .compIf) g.anyExpression
  return Node.comprehensionClause (← spanFrom start) target iterable conditions

/-- `[| expression clause … |]`, with one clause at least. -/
def comprehension (g : Nonterminals) : Parser Node := do
  let start ← consume .compOpen
  let element ← g.anyExpression
  let first ← g.comprehensionClause (← consume .pathSep)
  let others ← repeatWhile (check .pathSep) do g.comprehensionClause (← advance)
  discard (consume .compClose)
  return Node.comprehension (← spanFrom start) element (first :: others)

/-- `(\ name ,, name => expression \)` -/
def lambda (g : Nonterminals) : Parser Node := do
  let start ← consume .lambdaOpen
  let params ← listUntil .arrow (consumeName "parameter name")
  let inner ← g.anyExpression
  discard (consume .lambdaClose)
  return Node.lambda (← spanFrom start) params inner

/-- `'( expression )'` -/
def unquote (g : Nonterminals) : Parser Node := do
  let start ← consume .unquoteOpen
  let inner ← g.anyExpression
  discard (consume .unquoteClose)
  return Node.unquote (← spanFrom start) inner

/-- `%% name (( expression ,, expression ))` -/
def markedCall (g : Nonterminals) : Parser Node := do
  let start ← consume .macroInvoke
  let name ← consumeName "macro name"
  let args ← g.arguments
  macroCall (← spanFrom start) name args

/-- `:-: expression` -/
def negation (g : Nonterminals) : Parser Node := do
  let start ← consume .negate
  let operand ← g.expression .unary
  return Node.unaryOp (← spanFrom start) start.lexeme operand

/-- `~~ expression` -/
def awaiting (g : Nonterminals) : Parser Node := do
  let start ← consume .await
  let value ← g.expression .unary
  return Node.awaitExpr (← spanFrom start) value

/-- The production for an operand that starts with a reserved token. -/
def operandWith? (g : Nonterminals) : Reserved → Option (Parser Node)
  | .groupOpen => some g.group
  | .listOpen => some g.tupleLiteral
  | .tensorLitOpen => some g.tensorLiteral
  | .compOpen => some g.comprehension
  | .lambdaOpen => some g.lambda
  | .quoteOpen => some g.quote
  | .unquoteOpen => some g.unquote
  | .macroInvoke => some g.markedCall
  | .negate => some g.negation
  | .await => some g.awaiting
  | _ => none

def operand (g : Nonterminals) : Parser Node := do
  let token ← peek
  match atom? token, token.reserved?.bind g.operandWith? with
  | some node, _ =>
    discard advance
    return node
  | none, some production => production
  | none, none => failExpecting (.phrase "expression")

/-! ## Operators -/

/-- How tightly the operator holds together that a token is. -/
def operatorLevel? (token : Token) : Option Level :=
  match token.reserved? with
  | some .condThen => some .conditional
  | some .add | some .subtract => some .additive
  | some .multiply | some .divide => some .multiplicative
  | some .listOpen => some .postfixed
  | _ => none

/-- `left operator expression`; the right operand holds together more tightly. -/
def binary (g : Nonterminals) (level : Level) (left : Node) : Parser Node := do
  let operator ← advance
  let right ← g.expression level.tighter
  return Node.binaryOp ⟨left.span.start, right.span.stop⟩ operator.lexeme left right

/-- `condition ?> expression !> expression` -/
def conditional (g : Nonterminals) (condition : Node) : Parser Node := do
  discard (consume .condThen)
  let consequent ← g.anyExpression
  discard (consume .condElse)
  let alternative ← g.expression .additive
  return Node.conditional ⟨condition.span.start, alternative.span.stop⟩ condition consequent
    alternative

/-- `callee (( expression ,, expression ))`. It calls a macro if the callee is the name of one. -/
def callOf (g : Nonterminals) (callee : Node) : Parser Node := do
  let start ← peek
  let args ← g.arguments
  let span : Span := ⟨callee.span.start, (← spanFrom start).stop⟩
  match callee.head with
  | .identifier name =>
    if (← get).unit.registry.contains name then macroCall span name args
    else return Node.call span callee args
  | _ => return Node.call span callee args

/-- Goes on behind `left` with an operator of the level. -/
def extension (g : Nonterminals) (level : Level) (left : Node) : Parser Node :=
  match level with
  | .conditional => g.conditional left
  | .postfixed => g.callOf left
  | level => g.binary level left

/-- Goes on behind `left` with all operators that hold together at least as tightly as
`level`. -/
def extendUpTo (g : Nonterminals) (level : Level) : (fuel : Nat) → (left : Node) → Parser Node
  | 0, _ => throw .outOfReach
  | fuel + 1, left => do
    match operatorLevel? (← peek) with
    | some found =>
      if level.rank ≤ found.rank then
        let left ← g.extension found left
        extendUpTo g level fuel left
      else return left
    | none => return left

/-- An expression that holds together at least as tightly as `level`. Each operator is a token,
so there are no more of them than tokens. -/
def readExpression (g : Nonterminals) (level : Level) : Parser Node := do
  let left ← g.operand
  g.extendUpTo level ((← get).rest.length + 1) left

end Nonterminals

end GlyphScript
