import GlyphScript.Grammar.Pattern

/-!
# Reading statements

A statement is known by its first token. What starts with no such token is an
expression.
-/

namespace GlyphScript

namespace Nonterminals

open GlyphScript.Parser

/-! ## Simple statements -/

/-- `name [=] expression` between its delimiters. -/
def assignment (g : Nonterminals) : Parser Node := do
  let start ← consume .assignOpen
  let target ← consumeName "assignment target"
  discard (consume .assignOp)
  let value ← g.anyExpression
  discard (consume .assignClose)
  return Node.assignment (← spanFrom start) target value

/-- `#< name :: name => alias >#` -/
def importDecl : Parser Node := do
  let start ← consume .importOpen
  let first ← consumeName "module name"
  let others ← repeatWhile (accept .pathSep) (consumeName "module name")
  let alias? ← if ← accept .arrow then some <$> consumeName "import alias" else pure none
  discard (consume .importClose)
  return Node.importDecl (← spanFrom start) (first :: others) alias?

/-- An expression up to and including `closer`, or `closer` alone. -/
def optionalValue (g : Nonterminals) (closer : Reserved) : Parser (Option Node) := do
  let value ← if ← check closer then pure none else some <$> g.anyExpression
  discard (consume closer)
  return value

/-- `)- expression -(` -/
def returnStmt (g : Nonterminals) : Parser Node := do
  let start ← consume .returnOpen
  let value ← g.optionalValue .returnClose
  return Node.returnStmt (← spanFrom start) value

/-- `)+ expression +(` -/
def yieldStmt (g : Nonterminals) : Parser Node := do
  let start ← consume .yieldOpen
  let value ← g.optionalValue .yieldClose
  return Node.yieldStmt (← spanFrom start) value

def breakStmt : Parser Node := do return Node.breakStmt (← consume .breakMark).span

def continueStmt : Parser Node := do return Node.continueStmt (← consume .continueMark).span

/-- `name (( expression ,, expression ))` between its delimiters. -/
def memoryStmt (g : Nonterminals) : Parser Node := do
  let start ← consume .memoryOpen
  let action ← consumeName "memory action"
  let args ← g.arguments
  discard (consume .memoryClose)
  return Node.memoryStmt (← spanFrom start) action args

/-! ## Statements with a body -/

def deviceStmt (g : Nonterminals) : Parser Node := do
  let start ← openConstruct .device
  let device ← g.anyExpression
  let body ← g.body
  closeConstruct
  return Node.deviceStmt (← spanFrom start) device body

def blockStmt (g : Nonterminals) : Parser Node := do
  let start ← openConstruct .block
  let body ← g.body
  closeConstruct
  return Node.blockStmt (← spanFrom start) body

/-- A handler, from behind the mark that `start` is. -/
def exceptClause (g : Nonterminals) (start : Token) : Parser Node := do
  let pattern ← g.wellFormedPattern
  let body ← g.body
  return Node.exceptClause (← spanFrom start) pattern body

/-- A body with handlers and a final body, not both of them missing. -/
def tryStmt (g : Nonterminals) : Parser Node := do
  let start ← openConstruct .guarded
  let body ← g.body
  let handlers ← repeatWhile (check .exceptArm) do g.exceptClause (← advance)
  let finallyBody ← if ← accept .finallyArm then some <$> g.body else pure none
  if handlers.isEmpty && finallyBody.isNone then failExpecting (.phrase "'!:' or '!^'")
  closeConstruct
  return Node.tryStmt (← spanFrom start) body handlers finallyBody

/-- A case, from behind the mark that `start` is. -/
def caseClause (g : Nonterminals) (start : Token) : Parser Node := do
  let pattern ← g.wellFormedPattern
  let body ← g.body
  return Node.caseClause (← spanFrom start) pattern body

/-- A subject and one case at least. -/
def matchStmt (g : Nonterminals) : Parser Node := do
  let start ← openConstruct .matching
  let subject ← g.anyExpression
  let first ← g.caseClause (← consume .caseArm)
  let others ← repeatWhile (check .caseArm) do g.caseClause (← advance)
  closeConstruct
  return Node.matchStmt (← spanFrom start) subject (first :: others)

def functionDef (g : Nonterminals) : Parser Node := do
  let start ← openConstruct .function
  let name ← consumeName "function name"
  let params ← parameterNames
  let body ← g.body
  closeConstruct
  return Node.functionDef (← spanFrom start) name params body

def asyncFunctionDef (g : Nonterminals) : Parser Node := do
  let start ← openConstruct .asyncFunction
  let name ← consumeName "function name"
  let params ← parameterNames
  let body ← g.body
  closeConstruct
  return Node.asyncFunctionDef (← spanFrom start) name params body

def classDef (g : Nonterminals) : Parser Node := do
  let start ← openConstruct .classDef
  let name ← consumeName "class name"
  let bases ← g.optionalArguments
  let body ← g.body
  closeConstruct
  return Node.classDef (← spanFrom start) name bases body

/-- The start, condition and body of one arm of a conditional statement. -/
def arm (g : Nonterminals) (start : Token) : Parser (Token × Node × Node) := do
  let condition ← g.anyExpression
  let body ← g.body
  return (start, condition, body)

/-- A conditional statement is what its first arm starts, and the further arms are nested in
what happens otherwise. Every arm ends where the whole ends. -/
def nestArms (stop : Location) (otherwise : Option Node) :
    List (Token × Node × Node) → Option Node
  | [] => otherwise
  | (start, condition, body) :: arms =>
    some (Node.ifStmt ⟨start.location, stop⟩ condition body (nestArms stop otherwise arms))

def ifStmt (g : Nonterminals) : Parser Node := do
  let start ← openConstruct .conditional
  let (_, condition, body) ← g.arm start
  let arms ← repeatWhile (check .elifArm) do g.arm (← advance)
  let otherwise ← if ← accept .elseArm then some <$> g.body else pure none
  closeConstruct
  let span ← spanFrom start
  return Node.ifStmt span condition body (nestArms span.stop otherwise arms)

/-- The header of a loop: `(( name <- expression ))` or `(( expression ))`, or nothing. -/
def loopHeader (g : Nonterminals) : Parser (Option String × Option Node) := do
  if ← accept .listOpen then
    let target ←
      match (← get).rest with
      | name :: mark :: _ =>
        if name.kind = .identifier && mark.isReserved .bindArrow then
          discard advance
          discard advance
          pure (some name.lexeme)
        else pure none
      | _ => pure none
    let header ← g.anyExpression
    discard (consume .listClose)
    return (target, some header)
  else return (none, none)

def loopStmt (g : Nonterminals) : Parser Node := do
  let start ← openConstruct .loop
  let (target, header) ← g.loopHeader
  let body ← g.body
  closeConstruct
  return Node.loopStmt (← spanFrom start) target header body

def parallelStmt (g : Nonterminals) : Parser Node := do
  let start ← openConstruct .parallel
  let args ← g.optionalArguments
  let body ← g.body
  closeConstruct
  return Node.parallelStmt (← spanFrom start) args body

def gpuStmt (g : Nonterminals) : Parser Node := do
  let start ← openConstruct .gpu
  let args ← g.optionalArguments
  let body ← g.body
  closeConstruct
  return Node.gpuStmt (← spanFrom start) args body

def tensorDecl (g : Nonterminals) : Parser Node := do
  let start ← openConstruct .tensor
  let name ← consumeName "tensor name"
  let shape ← g.optionalArguments
  let body ← g.body
  closeConstruct
  return Node.tensorDecl (← spanFrom start) name shape body

def neuralNet (g : Nonterminals) : Parser Node := do
  let start ← openConstruct .network
  let name ← consumeName "network name"
  let body ← g.body
  closeConstruct
  return Node.neuralNet (← spanFrom start) name body

def streamStmt (g : Nonterminals) : Parser Node := do
  let start ← openConstruct .stream
  let source ← g.anyExpression
  let body ← g.body
  closeConstruct
  return Node.streamStmt (← spanFrom start) source body

/-! ## Macro definitions -/

def phaseOf : Reserved → Option Phase
  | .phaseParse => some .parse
  | .phaseExpand => some .expand
  | .phaseCompile => some .compile
  | _ => none

def hygieneOf : Reserved → Option Hygiene
  | .hygieneCapture => some .capture
  | .hygieneIsolate => some .isolate
  | .hygieneInject => some .inject
  | _ => none

/-- What the next token stands for, or `fallback` if it stands for nothing. -/
def markOr {α : Type} (meaning : Reserved → Option α) (fallback : α) : Parser α := do
  match (← peek).reserved?.bind meaning with
  | some a =>
    discard advance
    return a
  | none => return fallback

/-- The arrow of a rule: whether the rule expands to statements. -/
def ruleArrow : Parser Bool := do
  if ← accept .transformArrow then return true
  else if ← accept .ruleArrow then return false
  else failExpecting (.phrase "'=>>' or '==>'")

def macroRule (g : Nonterminals) : Parser Node := do
  let start ← consume .ruleOpen
  let pattern ← g.wellFormedPattern
  let isTransform ← ruleArrow
  let template ← if isTransform then g.body else g.anyExpression
  discard (consume .ruleClose)
  return Node.macroRule (← spanFrom start) isTransform pattern template

/-- The body of a macro: a template, or one rule at least. -/
def macroBody (g : Nonterminals) : Parser (List Node × Option Node) := do
  if ← check .quoteOpen then
    let template ← g.quote
    return ([], some template)
  else
    let rules ← repeatWhile (check .ruleOpen) g.macroRule
    if rules.isEmpty then failExpecting (.phrase "macro rule '\x7b@' or quoted template")
    return (rules, none)

/-- A macro is known from the end of its definition on. -/
def macroDef (g : Nonterminals) (settings : Settings) : Parser Node := do
  let start ← openConstruct .macroDef
  let name ← consumeName "macro name"
  let params ← parameterNames
  let phase ← markOr phaseOf settings.phase
  let hygiene ← markOr hygieneOf settings.hygiene
  discard (openConstruct .body)
  let (rules, template) ← g.macroBody
  closeConstruct
  closeConstruct
  let span ← spanFrom start
  ofWork (Work.register { name, params, span, phase, hygiene, rules, template })
  return Node.macroDef span name params phase hygiene rules template

/-! ## Any statement -/

def expressionStmt (g : Nonterminals) : Parser Node := do
  let start ← peek
  let expression ← g.anyExpression
  return Node.expressionStmt (← spanFrom start) expression

/-- The production for a statement that starts with a reserved token. -/
def statementWith? (g : Nonterminals) (settings : Settings) : Reserved → Option (Parser Node)
  | .assignOpen => some g.assignment
  | .importOpen => some importDecl
  | .returnOpen => some g.returnStmt
  | .yieldOpen => some g.yieldStmt
  | .breakMark => some breakStmt
  | .continueMark => some continueStmt
  | .macroOpen => some (g.macroDef settings)
  | .memoryOpen => some g.memoryStmt
  | .deviceOpen => some g.deviceStmt
  | .tryOpen => some g.tryStmt
  | .matchOpen => some g.matchStmt
  | .funcOpen => some g.functionDef
  | .asyncFuncOpen => some g.asyncFunctionDef
  | .classOpen => some g.classDef
  | .ifOpen => some g.ifStmt
  | .loopOpen => some g.loopStmt
  | .parallelOpen => some g.parallelStmt
  | .gpuOpen => some g.gpuStmt
  | .tensorOpen => some g.tensorDecl
  | .nnOpen => some g.neuralNet
  | .streamOpen => some g.streamStmt
  | .blockOpen => some g.blockStmt
  | _ => none

/-- A statement as it is written, its macro calls not yet expanded. -/
def plainStatement (g : Nonterminals) (settings : Settings) : Parser Node := do
  match (← peek).reserved?.bind (g.statementWith? settings) with
  | some production => production
  | none => g.expressionStmt

end Nonterminals

end GlyphScript
