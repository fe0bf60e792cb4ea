import GlyphScript.Diagnostic
import GlyphScript.Node.Source
import GlyphScript.Pattern
import GlyphScript.Text.EditDistance
import GlyphScript.Token.Scan

/-!
# What can go wrong

Each fault is a cause with what is needed to report it; the wording is in
`diagnostic` and `message`.
-/

namespace GlyphScript

/-- What the grammar asks for at some place. -/
inductive Expected where
  | mark (r : Reserved)
  | phrase (s : String)
  deriving DecidableEq, Repr

namespace Expected

def describe : Expected → String
  | .mark r => s!"'{r.spelling}'"
  | .phrase s => s

def label : Expected → String
  | .mark r => r.name
  | .phrase s => s

end Expected

/-- Why tokens are not a program. -/
inductive ParseFault where
  | expectedToken (expected : Expected) (found : Token)
  /-- A closer that belongs to another construct than the innermost open one. -/
  | unbalancedDelimiter (opener found : Token)
  | unexpectedEnd (expected : Expected) (found : Token)
  | invalidPattern (flaw : PatternFlaw) (span : Span)
  deriving DecidableEq, Repr

/-- Why no rule of a macro applies. -/
inductive RuleMismatch where
  | noRule
  | argumentCount (expected got : Nat)
  /-- The rule gives statements where an expression is wanted. -/
  | statementsAsExpression
  deriving DecidableEq, Repr

/-- What an expansion that does not end has too much of. -/
inductive Excess where
  | iterations
  | replacements
  | nesting
  deriving DecidableEq, Repr

def Excess.phrase : Excess → String
  | .iterations => "expansion iterations"
  | .replacements => "rewrites"
  | .nesting => "nested parse-phase expansions"

/-- Why a macro call cannot be expanded. -/
inductive ExpansionFault where
  | undefinedMacro (name : String) (span : Span) (known : List String)
  | noMatchingRule (name : String) (span : Span) (mismatch : RuleMismatch)
  | nonTermination (name : String) (span : Span) (limit : Nat) (excess : Excess)
  /-- The macro puts a node of kind `given` where the node of kind `receiver` binds `binder`. -/
  | hygieneConflict (name : String) (binder : String) (position : Head.BinderPosition)
      (given receiver : String) (span : Span)
  deriving DecidableEq, Repr

namespace ExpansionFault

def macroName : ExpansionFault → String
  | .undefinedMacro name .. | .noMatchingRule name .. | .nonTermination name ..
  | .hygieneConflict name .. => name

end ExpansionFault

/-- Everything that can stop the work on a unit. -/
inductive Fault where
  | lex (fault : LexFault)
  | parse (fault : ParseFault)
  | expansion (fault : ExpansionFault)
  | unprintable (node : Unprintable)
  | cancelled
  /-- The innermost open construct was asked for where none is open. -/
  | nothingOpen
  /-- The parser came to a point to which no input leads, or a scope was to be left where none is
  open. -/
  | outOfReach

/-! ## Wording -/

def PatternFlaw.message : PatternFlaw → String
  | .cannotStart lexeme => s!"'{lexeme}' cannot start a pattern"
  | .notAPattern className => s!"{className} cannot appear in a pattern"
  | .boundTwice name => s!"'{name}' is bound more than once"

/-- The diagnostic of a character that starts no token. -/
def unexpectedCharacterDiagnostic (c : Char) (following : String) (location : Location) :
    Diagnostic where
  kind := .unexpectedCharacter
  message := s!"Unexpected character: '{c}'"
  span := Span.point location
  help :=
    if isPrintable c then
      s!"The character '{c}' does not start a reserved token, number, string or identifier."
    else
      let code := (Nat.toDigits 16 c.toNat).map Char.toUpper
      let code := List.replicate (4 - code.length) '0' ++ code
      s!"Non-printable character (Unicode: U+{String.ofList code}) is not allowed."
  suggestions := suggestionsFor following Reserved.spellings

/-- A numeral that is too long is not reported as a diagnostic. -/
def LexFault.diagnostic? : LexFault → Option Diagnostic
  | .unexpectedCharacter c following location =>
    some (unexpectedCharacterDiagnostic c following location)
  | .unterminatedString span => some {
      kind := .unterminatedString
      message := "Unterminated string literal"
      span
      help := "String literals must be closed with a matching \" quote."
      suggestions := ["Add a closing \" quote", "Check for unescaped quotes in the string"] }
  | .numeralTooLong _ => none

def ParseFault.diagnostic : ParseFault → Diagnostic
  | .expectedToken expected found => {
      kind := .expectedToken
      message :=
        s!"Expected {expected.describe}, found '{found.lexeme}' at {found.location.render}"
      span := found.span
      help := s!"The parser expected to see {expected.describe} at this position."
      suggestions := [] }
  | .unbalancedDelimiter opener found => {
      kind := .unbalancedDelimiter
      message := s!"Unbalanced delimiter: '{opener.lexeme}' closed by '{found.lexeme}'"
      span := ⟨opener.location, found.stopOrStart⟩
      help := s!"The '{opener.lexeme}' opened at {opener.location.render} needs its own closer."
      suggestions := [] }
  | .unexpectedEnd expected found => {
      kind := .unexpectedEndOfInput
      message := s!"Unexpected end of input, expected {expected.describe}"
      span := found.span
      help :=
        s!"The parser reached the end of the input while expecting {expected.describe}."
      suggestions := [s!"Add the missing {expected.describe}"] }
  | .invalidPattern flaw span => {
      kind := .invalidPattern
      message := s!"Invalid pattern: {flaw.message}"
      span
      help := flaw.message
      suggestions := [] }

def RuleMismatch.message (name : String) : RuleMismatch → String
  | .noRule => s!"No rule of macro '{name}' matches the call"
  | .argumentCount expected got =>
    s!"No rule of macro '{name}' matches the call: expected {expected} argument(s), got {got}"
  | .statementsAsExpression =>
    s!"No rule of macro '{name}' matches the call: " ++
      "the matching rule expands to statements but the call is used as an expression"

def ExpansionFault.diagnostic : ExpansionFault → Diagnostic
  | .undefinedMacro name span known => {
      kind := .undefinedMacro
      message := s!"Undefined macro '{name}'"
      span
      help := "Macros must be defined with <%| ... |%> somewhere in the unit."
      suggestions := suggestionsFor name known }
  | .noMatchingRule name span mismatch => {
      kind := .noMatchingRule
      message := mismatch.message name
      span
      help := "Rules are tried in declaration order; add a rule covering this argument shape."
      suggestions := [] }
  | .nonTermination name span limit excess => {
      kind := .nonTermination
      message :=
        let subject := if name = "" then "macro expansion" else s!"macro '{name}'"
        s!"Expansion of {subject} exceeded {limit} {excess.phrase}"
      span
      help := "A macro that keeps producing calls to itself never reaches a fixpoint."
      suggestions := ["Add a base-case rule that produces no further macro calls"] }
  | .hygieneConflict name binder position given receiver span => {
      kind := .hygieneConflict
      message :=
        s!"Macro '{name}' substitutes a {given} into the {position.label} position " ++
          s!"'{binder}' of {receiver}"
      span
      help := "Only an identifier can be bound by an assignment, parameter list or loop."
      suggestions := [] }

namespace Fault

/-- The diagnostic of a fault that lies in the source text. -/
def diagnostic? : Fault → Option Diagnostic
  | .lex fault => fault.diagnostic?
  | .parse fault => some fault.diagnostic
  | .expansion fault => some fault.diagnostic
  | _ => none

/-- What is said of a fault in one line. -/
def message : Fault → String
  | .lex (.numeralTooLong digits) =>
    s!"Exceeds the limit ({maxNumeralLength} digits) for integer string conversion: " ++
      s!"value has {digits} digits; use sys.set_int_max_str_digits() to increase the limit"
  | .lex fault => fault.diagnostic?.elim "" (·.message)
  | .parse fault => fault.diagnostic.message
  | .expansion fault => fault.diagnostic.message
  | .unprintable node => node.message
  | .cancelled => "compilation cancelled"
  | .nothingOpen => "list index out of range"
  | .outOfReach => "no input leads here"

end Fault

end GlyphScript
