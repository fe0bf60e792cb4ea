import GlyphScript.Construct
import GlyphScript.Node.Binders
import GlyphScript.UnitState

/-!
# Reading tokens

The parser works on the tokens not yet read and goes forward only. Every
production is a function of the parsers for the nonterminals it mentions.
-/

namespace GlyphScript

structure ParserState where
  unit : UnitState
  /-- The token read last, if any has been read. -/
  previous : Option Token
  rest : List Token
  /-- Where the input ends if it has no token for its end. -/
  endLocation : Location
  frames : Frames
  /-- The names injected so far into each scope around the place of work, innermost first. -/
  scopes : List (List String)
  /-- The calls in the current statement that are to be expanded when it is complete. -/
  pending : Nat

namespace ParserState

/-- About to read `tokens`. -/
def start (unit : UnitState) (tokens : List Token) : ParserState where
  unit
  previous := none
  rest := tokens
  endLocation := (tokens.getLast?.map (·.location)).getD (Location.atStart "<eof>")
  frames := []
  scopes := []
  pending := 0

/-- The token to be read next. -/
def next (s : ParserState) : Token := s.rest.headD (Token.endAt s.endLocation)

end ParserState

abbrev Parser := ExceptT Fault (StateM ParserState)

namespace Parser

def ofWork {α : Type} (work : Work α) : Parser α := fun s =>
  let (result, unit) := work.run s.unit
  (result, { s with unit })

/-! ## Tokens -/

def peek : Parser Token := return (← get).next

/-- Reads a token; the end of the input is never passed. -/
def advance : Parser Token := do
  let s ← get
  let token := s.next
  unless token.isEnd do set { s with previous := some token, rest := s.rest.tail }
  return token

def atEnd : Parser Bool := return (← peek).isEnd

def check (r : Reserved) : Parser Bool := return (← peek).isReserved r

/-- Reads the next token if it is `r`. -/
def accept (r : Reserved) : Parser Bool := do
  if ← check r then
    discard advance
    return true
  else return false

/-- The next token is none that the grammar allows. -/
def failExpecting {α : Type} (expected : Expected) : Parser α := do
  let token ← peek
  if token.isEnd then throw (.parse (.unexpectedEnd expected token))
  else throw (.parse (.expectedToken expected token))

def consume (r : Reserved) : Parser Token := do
  if ← check r then advance else failExpecting (.mark r)

/-- Reads an identifier that is wanted as `what`. -/
def consumeName (what : String) : Parser String := do
  if (← peek).kind = .identifier then return (← advance).lexeme
  else failExpecting (.phrase what)

/-- From `start` to the end of the token read last. -/
def spanFrom (start : Token) : Parser Span := do
  return ⟨start.location, ((← get).previous.getD start).stopOrStart⟩

/-! ## Repetition -/

def repeatUpTo {α : Type} (test : Parser Bool) (item : Parser α) : (fuel : Nat) → Parser (List α)
  | 0 => throw .outOfReach
  | fuel + 1 => do
    if ← test then
      let a ← item
      return a :: (← repeatUpTo test item fuel)
    else return []

/-- Repeats `item` for as long as `test` holds. Each turn reads a token, so there are no more
turns than tokens. -/
def repeatWhile {α : Type} (test : Parser Bool) (item : Parser α) : Parser (List α) := do
  repeatUpTo test item ((← get).rest.length + 1)

/-- `item ,, item` up to and including `closer`. There may be no item at all. -/
def listUntil {α : Type} (closer : Reserved) (item : Parser α) : Parser (List α) := do
  if ← accept closer then return []
  let first ← item
  let others ← repeatWhile (accept .separator) item
  discard (consume closer)
  return first :: others

/-- `(( name ,, name ))` -/
def parameterNames : Parser (List String) := do
  discard (consume .listOpen)
  listUntil .listClose (consumeName "parameter name")

/-! ## Constructs and scopes -/

/-- Reads the opener of a construct. -/
def openConstruct (c : Construct) : Parser Token := do
  let token ← consume c.opener
  modify fun s => { s with frames := ⟨c, token⟩ :: s.frames }
  return token

/-- Reads the closer of the innermost construct. -/
def closeConstruct : Parser Unit := do
  let s ← get
  match s.frames.close s.next with
  | .ok (_, frames) =>
    set { s with frames }
    discard advance
  | .error fault => throw fault

def openScope : Parser Unit := modify fun s => { s with scopes := [] :: s.scopes }

/-- Leaves the innermost scope and gives the names injected into it. -/
def closeScope : Parser (List String) := do
  let s ← get
  match s.scopes with
  | scope :: scopes =>
    set { s with scopes }
    return scope
  | [] => throw .outOfReach

/-- Records names in the innermost scope. -/
def inject (names : List String) : Parser Unit :=
  modify fun s =>
    match s.scopes with
    | scope :: outer => { s with scopes := addNames scope names :: outer }
    | [] => s

/-! ## Macro calls -/

/-- Whether `name` is a macro whose calls are expanded while parsing. -/
def isExpandedHere (registry : Registry) (name : String) : Bool :=
  (registry.find? name).any (·.phase = .parse)

/-- A macro call, counted if it is to be expanded when its statement is complete. -/
def macroCall (span : Span) (name : String) (args : List Node) : Parser Node := do
  if isExpandedHere (← get).unit.registry name then
    modify fun s => { s with pending := s.pending + 1 }
  return Node.macroCall span name args false

end Parser

/-- Parsers for the parts of the language that contain each other. -/
structure Nonterminals where
  /-- An expression that holds together at least as tightly as the level. -/
  expression : Level → Parser Node
  /-- A statement; an expansion in its place may be any number of statements. -/
  statement : Parser (List Node)
  pattern : Parser Node

namespace Nonterminals

/-- An expression of any level. -/
def anyExpression (g : Nonterminals) : Parser Node := g.expression .conditional

/-- `expression ,, expression` up to and including `closer`. -/
def argumentsUntil (g : Nonterminals) (closer : Reserved) : Parser (List Node) :=
  Parser.listUntil closer g.anyExpression

/-- `(( expression ,, expression ))` -/
def arguments (g : Nonterminals) : Parser (List Node) := do
  discard (Parser.consume .listOpen)
  g.argumentsUntil .listClose

/-- As `arguments`, or nothing. -/
def optionalArguments (g : Nonterminals) : Parser (List Node) := do
  if ← Parser.accept .listOpen then g.argumentsUntil .listClose else return []

/-- The marks that start a further arm of a construct and so end a body. -/
def armMarks : List Reserved := [.elifArm, .elseArm, .exceptArm, .finallyArm, .caseArm]

/-- Whether the next token cannot belong to the statements of a body. -/
def atBodyEnd : Parser Bool := do
  let token ← Parser.peek
  return token.isEnd || token.reserved?.any fun r => Construct.isCloser r || armMarks.contains r

/-- `[[ statement … ]]` -/
def body (g : Nonterminals) : Parser Node := do
  let start ← Parser.openConstruct .body
  Parser.openScope
  let statements ← Parser.repeatWhile (not <$> atBodyEnd) g.statement
  Parser.closeConstruct
  let injected ← Parser.closeScope
  return Node.block (← Parser.spanFrom start) statements.flatten injected

/-- `'[ body ]'` or `'[ expression ]'` -/
def quote (g : Nonterminals) : Parser Node := do
  let start ← Parser.consume .quoteOpen
  let inner ← if ← Parser.check .bodyOpen then g.body else g.anyExpression
  discard (Parser.consume .quoteClose)
  return Node.quote (← Parser.spanFrom start) inner

end Nonterminals

end GlyphScript
