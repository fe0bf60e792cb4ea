import GlyphScript.Location

/-!
# Diagnostics

The report of an error: its kind, a message, the place it refers to, a help
text and suggestions.
-/

namespace GlyphScript

/-- The kinds of error in a source text. -/
inductive DiagnosticKind where
  | unexpectedCharacter
  | unterminatedString
  | expectedToken
  | unbalancedDelimiter
  | unexpectedEndOfInput
  | invalidPattern
  | undefinedMacro
  | noMatchingRule
  | nonTermination
  | hygieneConflict
  deriving DecidableEq, Repr

namespace DiagnosticKind

def name : DiagnosticKind → String
  | .unexpectedCharacter => "UnexpectedCharacter"
  | .unterminatedString => "UnterminatedString"
  | .expectedToken => "ExpectedToken"
  | .unbalancedDelimiter => "UnbalancedDelimiter"
  | .unexpectedEndOfInput => "UnexpectedEndOfInput"
  | .invalidPattern => "InvalidPattern"
  | .undefinedMacro => "UndefinedMacro"
  | .noMatchingRule => "NoMatchingRule"
  | .nonTermination => "NonTermination"
  | .hygieneConflict => "HygieneConflict"

/-- The kind as the heading of a report. -/
def heading : DiagnosticKind → String
  | .unexpectedCharacter => "UNEXPECTED_CHARACTER"
  | .unterminatedString => "UNTERMINATED_STRING"
  | .expectedToken => "EXPECTED_TOKEN"
  | .unbalancedDelimiter => "UNBALANCED_DELIMITER"
  | .unexpectedEndOfInput => "UNEXPECTED_END_OF_INPUT"
  | .invalidPattern => "INVALID_PATTERN"
  | .undefinedMacro => "UNDEFINED_MACRO"
  | .noMatchingRule => "NO_MATCHING_RULE"
  | .nonTermination => "NON_TERMINATION"
  | .hygieneConflict => "HYGIENE_CONFLICT"

def code : DiagnosticKind → String
  | .unexpectedCharacter => "L001"
  | .unterminatedString => "L002"
  | .expectedToken => "P001"
  | .unbalancedDelimiter => "P002"
  | .unexpectedEndOfInput => "P003"
  | .invalidPattern => "P004"
  | .undefinedMacro => "E001"
  | .noMatchingRule => "E002"
  | .nonTermination => "E003"
  | .hygieneConflict => "E004"

end DiagnosticKind

structure Diagnostic where
  kind : DiagnosticKind
  message : String
  span : Span
  help : String
  suggestions : List String
  deriving DecidableEq, Repr

/-- The report, each line with its line feed. An empty help text and an empty list of
suggestions are left out. -/
def Diagnostic.render (d : Diagnostic) : String :=
  let help := if d.help = "" then "" else s!"  help: {d.help}\n"
  let suggestions :=
    if d.suggestions.isEmpty then ""
    else "  suggestions:\n" ++ String.join (d.suggestions.map fun s => s!"    - {s}\n")
  s!"ERROR[{d.kind.code}] {d.kind.heading}: {d.message}\n  --> {d.span.render}\n" ++
    help ++ suggestions

end GlyphScript
