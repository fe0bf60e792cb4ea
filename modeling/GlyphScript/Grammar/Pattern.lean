import GlyphScript.Grammar.Basic

/-!
# Reading patterns
-/

namespace GlyphScript

namespace Nonterminals

open GlyphScript.Parser

/-- The closer of a composite pattern, and its kind. -/
def compositePattern? : Reserved → Option (Reserved × Head)
  | .listOpen => some (.listClose, .tuplePattern)
  | .tensorLitOpen => some (.tensorLitClose, .tensorShapePattern)
  | .nnOpen => some (.nnClose, .graphPattern)
  | .streamOpen => some (.streamClose, .streamPattern)
  | _ => none

/-- A pattern that is a single token. -/
def atomicPattern? (token : Token) : Option Node :=
  match token.kind with
  | .number n => some (Node.literalPattern token.span (.integer n) .number)
  | .text s => some (Node.literalPattern token.span (.text s) .string)
  | .identifier => some (Node.bindPattern token.span token.lexeme)
  | .reserved .trueMark => some (Node.literalPattern token.span (.flag true) .boolean)
  | .reserved .falseMark => some (Node.literalPattern token.span (.flag false) .boolean)
  | .reserved .nullMark => some (Node.literalPattern token.span .nothing .null)
  | _ => none

/-- A pattern, not yet known to be well formed. -/
def readPattern (g : Nonterminals) : Parser Node := do
  let token ← peek
  match atomicPattern? token, token.reserved?.bind compositePattern? with
  | some pattern, _ =>
    discard advance
    return pattern
  | none, some (closer, head) => do
    discard advance
    let elements ← listUntil closer g.pattern
    return Node.compositePattern (← spanFrom token) head elements
  | none, none =>
    if token.isEnd then throw (.parse (.unexpectedEnd (.phrase "pattern") token))
    else throw (.parse (.invalidPattern (.cannotStart token.lexeme) token.span))

/-- A pattern that binds each name once. -/
def wellFormedPattern (g : Nonterminals) : Parser Node := do
  let pattern ← g.pattern
  match pattern.patternFlaw? with
  | some (flaw, span) => throw (.parse (.invalidPattern flaw span))
  | none => return pattern

end Nonterminals

end GlyphScript
