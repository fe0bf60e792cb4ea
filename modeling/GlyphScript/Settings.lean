/-!
# Settings of a compilation
-/

namespace GlyphScript

/-- When a macro call is expanded. -/
inductive Phase where
  /-- While parsing, as soon as the statement around the call is complete. -/
  | parse
  /-- After parsing, by repeated passes over the tree. -/
  | expand
  /-- Not here: the call is marked and left to the back end. -/
  | compile
  deriving DecidableEq, Repr

def Phase.name : Phase → String
  | .parse => "PARSE"
  | .expand => "EXPAND"
  | .compile => "COMPILE"

/-- How the names of a template relate to the names at the call. -/
inductive Hygiene where
  /-- The template's names mean what they mean at the call. -/
  | capture
  /-- The template's names are renamed apart. -/
  | isolate
  /-- As `capture`, and the names the expansion binds are recorded in the enclosing scope. -/
  | inject
  deriving DecidableEq, Repr

def Hygiene.name : Hygiene → String
  | .capture => "CAPTURE"
  | .isolate => "ISOLATE"
  | .inject => "INJECT"

/-- The name that binds nothing. -/
def wildcard : String := "_"

/-- The limits a compilation runs under. -/
inductive Limit where
  | iterations
  | replacements
  | parseDepth
  deriving DecidableEq, Repr

def Limit.name : Limit → String
  | .iterations => "max_expansion_iterations"
  | .replacements => "max_expansion_rewrites"
  | .parseDepth => "max_parse_expansion_depth"

/-- What is said of a limit below one. -/
def Limit.message (l : Limit) : String := s!"{l.name} must be at least 1"

structure Settings where
  file : String := "<input>"
  /-- Passes that may replace something. -/
  maxIterations : Nat := 64
  /-- Calls that may be replaced, over all passes. -/
  maxReplacements : Nat := 10000
  /-- How deep expansions may be parsed inside the text of other expansions. -/
  maxParseDepth : Nat := 32
  /-- The phase of macros that name none. -/
  phase : Phase := .expand
  /-- The hygiene of macros that name none. -/
  hygiene : Hygiene := .isolate
  /-- Stands between the base and the number of a generated symbol. -/
  separator : String := "%"
  /-- Whether calls left over by the parser are expanded. -/
  expand : Bool := true
  iterations_pos : 0 < maxIterations := by decide
  replacements_pos : 0 < maxReplacements := by decide
  parseDepth_pos : 0 < maxParseDepth := by decide

/-- Sets the three limits, or names the first that is below one. -/
def Settings.withLimits (s : Settings) (iterations replacements parseDepth : Int) :
    Except Limit Settings :=
  if h₁ : iterations < 1 then .error .iterations
  else if h₂ : replacements < 1 then .error .replacements
  else if h₃ : parseDepth < 1 then .error .parseDepth
  else .ok
    { s with
      maxIterations := iterations.toNat, maxReplacements := replacements.toNat,
      maxParseDepth := parseDepth.toNat,
      iterations_pos := by omega, replacements_pos := by omega, parseDepth_pos := by omega }

end GlyphScript
