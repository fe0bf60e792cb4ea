import GlyphScript.Grammar.Expression
import GlyphScript.Grammar.Inline
import GlyphScript.Grammar.Statement

/-!
# Reading programs

Ties the productions together. Nonterminals nest no deeper than twice the
number of tokens, since of two nested ones at least one has read a token
before it comes to the next; and the text of an expansion may hold calls whose
expansions are read in turn, down to the limit of the settings.
-/

namespace GlyphScript

namespace Nonterminals

/-- A statement, its calls expanded. -/
def readStatement (g : Nonterminals) (settings : Settings) (r : Rereading) :
    Parser (List Node) :=
  Slot.toList <$> r.completed (g.plainStatement settings)

/-- The nonterminals down to some depth of nesting. -/
def upTo (settings : Settings) (r : Rereading) : (depth : Nat) → Nonterminals
  | 0 => ⟨fun _ => throw .outOfReach, throw .outOfReach, throw .outOfReach⟩
  | depth + 1 =>
    { expression := fun level => (upTo settings r depth).readExpression level
      statement := fun s => ((upTo settings r depth).readStatement settings r).run s
      pattern := fun s => (upTo settings r depth).readPattern.run s }

/-- The nonterminals as deep as the tokens not yet read can lead. -/
def here (settings : Settings) (r : Rereading) : Parser Nonterminals :=
  return upTo settings r (2 * (← get).rest.length + 2)

end Nonterminals

namespace Parser

/-! ## Whole texts -/

/-- Statements up to the end of the input, with a check for cancellation before each, as a
program. It stands between the places of its first and last token. -/
def programWith (settings : Settings) (r : Rereading) : Parser Node := do
  let g ← Nonterminals.here settings r
  let s ← get
  let start := (s.rest.head?.map (·.location)).getD (Location.atStart "<empty>")
  let stop := (s.rest.getLast?.map (·.location)).getD start
  openScope
  let statements ← repeatWhile (not <$> atEnd) do
    ofWork Work.checkpoint
    g.statement
  let injected ← closeScope
  let statements := statements.flatten
  ofWork (Work.report (.programParsed statements.length))
  return Node.program ⟨start, stop⟩ statements injected

/-- Statements up to the end of the input, and the names injected among them. -/
def statementsWith (settings : Settings) (r : Rereading) : Parser (List Node × List String) := do
  let g ← Nonterminals.here settings r
  openScope
  let statements ← repeatWhile (not <$> atEnd) g.statement
  return (statements.flatten, ← closeScope)

/-- One expression that is the whole input, and the names injected in it. -/
def expressionWith (settings : Settings) (r : Rereading) : Parser (Node × List String) := do
  let g ← Nonterminals.here settings r
  openScope
  let slot ← r.completed do
    let node ← g.anyExpression
    unless ← atEnd do throw (.parse (.expectedToken (.phrase "end of input") (← peek)))
    return node
  match slot with
  | .one node => return (node, ← closeScope)
  | _ => throw .outOfReach

/-! ## Texts of expansions -/

/-- Works on other tokens, and then on where it was. -/
def within {α : Type} (tokens : List Token) (p : Parser α) : Parser α := fun s =>
  let (result, inner) := p.run (ParserState.start s.unit tokens)
  (result, { s with unit := inner.unit })

/-- Reads the text of an expansion, and records the names injected in it. -/
def reread {α : Type} (c : MacroCall) (depth : Nat) (text : String)
    (p : Parser (α × List String)) : Parser α := do
  let tokens ← ofWork do
    let tokens ← Work.tokens text s!"<expansion of {c.name}>"
    modify fun s => { s with gensym := s.gensym.reserve (identifierNames tokens).toList }
    Work.report (.rereading c.name depth)
    return tokens
  let (a, injected) ← within tokens p
  inject injected
  return a

end Parser

namespace Rereading

/-- Reads the texts of expansions, nested at most `remaining` deep. -/
def upTo (settings : Settings) : (remaining : Nat) → Rereading
  | 0 => { expression := fun c _ => tooMany c, statements := fun c _ => tooMany c }
  | remaining + 1 =>
    { expression := fun c text =>
        Parser.reread c (settings.maxParseDepth - remaining) text
          (Parser.expressionWith settings (upTo settings remaining))
      statements := fun c text =>
        Parser.reread c (settings.maxParseDepth - remaining) text
          (Parser.statementsWith settings (upTo settings remaining)) }
where
  tooMany {α : Type} (c : MacroCall) : Parser α :=
    throw (.expansion (.nonTermination c.name c.span settings.maxParseDepth .nesting))

/-- Reads the texts of expansions as deep as the settings allow. -/
def within (settings : Settings) : Rereading := upTo settings settings.maxParseDepth

end Rereading

/-! ## Parsing -/

namespace Parser

def program (settings : Settings) : Parser Node :=
  programWith settings (Rereading.within settings)

def expression (settings : Settings) : Parser Node :=
  Prod.fst <$> expressionWith settings (Rereading.within settings)

end Parser

namespace Work

/-- Runs a parser on tokens. -/
def parse {α : Type} (p : Parser α) (tokens : List Token) : Work α := fun unit =>
  let (result, s) := p.run (ParserState.start unit tokens)
  (result, s.unit)

end Work

end GlyphScript
