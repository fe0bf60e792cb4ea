import GlyphScript.Location
import GlyphScript.Settings

/-!
# The log

What a compilation reports about its work, and how a report is written.
-/

namespace GlyphScript

inductive Event where
  /-- A text has been divided into tokens. -/
  | tokenized (file : String) (tokens : Nat)
  | macroRegistered (name : String) (phase : Phase) (hygiene : Hygiene)
  /-- A macro defined before, at another place, is defined again. -/
  | macroRedefined (name : String) (span previous : Span)
  | programParsed (statements : Nat)
  /-- The text of an expansion is about to be parsed. -/
  | rereading (name : String) (depth : Nat)
  /-- The names that a template introduces have been renamed apart. -/
  | isolated (name : String) (names : Nat)
  | callExpanded (name : String) (span : Span)
  | passDone (number replacements : Nat)
  | unitParsed (file : String) (macros : Nat)
  | unitExpanded (file : String) (passes : Nat)
  deriving DecidableEq, Repr

namespace Event

/-- The part of the compiler that reports. -/
def component : Event → String
  | .tokenized .. => "glyphc.lexer.lexer"
  | .macroRegistered .. | .macroRedefined .. => "glyphc.macros.registry"
  | .programParsed _ | .rereading .. => "glyphc.parser.parser"
  | .isolated .. | .callExpanded .. | .passDone .. => "glyphc.macros.expander"
  | .unitParsed .. | .unitExpanded .. => "glyphc.frontend"

/-- Warnings are shown always, all else only on request. -/
def isWarning : Event → Bool
  | .macroRedefined .. => true
  | _ => false

def message : Event → String
  | .tokenized file tokens => s!"{file}: {tokens} tokens"
  | .macroRegistered name phase hygiene =>
    s!"registered macro '{name}' (phase={phase.name}, hygiene={hygiene.name})"
  | .macroRedefined name span previous =>
    s!"macro '{name}' redefined at {span.render} (previously defined at {previous.render})"
  | .programParsed statements => s!"parsed {statements} top-level statement(s)"
  | .rereading name depth => s!"re-feeding expansion of '{name}' at depth {depth}"
  | .isolated name names => s!"isolated {names} name(s) in expansion of '{name}'"
  | .callExpanded name span => s!"expanded '{name}' at {span.render}"
  | .passDone number replacements =>
    s!"expansion pass {number} rewrote {replacements} call(s)"
  | .unitParsed file macros => s!"{file}: parsed, {macros} macro(s) registered"
  | .unitExpanded file passes => s!"{file}: expanded in {passes} pass(es)"

def render (e : Event) : String :=
  let severity := if e.isWarning then "WARNING" else "DEBUG"
  s!"{e.component} - {severity} - {e.message}"

end Event

end GlyphScript
