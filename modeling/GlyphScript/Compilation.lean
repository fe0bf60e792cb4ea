import GlyphScript.Grammar.Program
import GlyphScript.Macro.Fixpoint

/-!
# Compiling units

A unit is divided into tokens, parsed and expanded. It has a registry and a
gensym of its own, in which all identifiers of the unit are in use from the
start.
-/

namespace GlyphScript

/-- How a compilation ended. -/
structure Compilation where
  result : Except Fault Node
  /-- The tokens of the unit; none if it could not be divided. -/
  tokens : List Token
  state : UnitState

namespace Compilation

def macros (c : Compilation) : List String := c.state.names

/-- The passes of a completed expansion. -/
def iterations (c : Compilation) : Nat :=
  match c.result with
  | .ok _ => c.state.progress.iterations
  | .error _ => 0

end Compilation

namespace Work

/-- Sets up the gensym of a unit that has these tokens. -/
def startNames (settings : Settings) (tokens : List Token) : Work Unit :=
  modify fun s =>
    { s with gensym := Gensym.ofNames settings.separator (identifierNames tokens) }

/-- Divides the source of a unit into tokens. -/
def unitTokens (settings : Settings) (source : String) : Work (List Token) := do
  checkpoint
  let tokens ← tokens source settings.file
  startNames settings tokens
  return tokens

/-- Parses the tokens of a unit and expands the program. -/
def unitProgram (settings : Settings) (tokens : List Token) : Work Node := do
  let program ← parse (Parser.program settings) tokens
  report (.unitParsed settings.file (← get).registry.size)
  if settings.expand then
    let program ← expand settings program
    report (.unitExpanded settings.file (← get).progress.iterations)
    return program
  else return program

end Work

/-- The state of a unit before anything is known of it. -/
def UnitState.ofSettings (settings : Settings) (checks : Option Nat) : UnitState :=
  UnitState.start (Gensym.ofNames settings.separator Std.TreeSet.empty) checks

/-- Compiles a source text. The compilation is found cancelled after `checks` checks, if a
number is given. -/
def compile (settings : Settings) (source : String) (checks : Option Nat) : Compilation :=
  match (Work.unitTokens settings source).run (UnitState.ofSettings settings checks) with
  | (.error fault, state) => ⟨.error fault, [], state⟩
  | (.ok tokens, state) =>
    let (result, state) := (Work.unitProgram settings tokens).run state
    ⟨result, tokens, state⟩

/-- Parses a source text without expanding the calls left over by the parser. -/
def parse (settings : Settings) (source : String) : Except Fault Node :=
  let work : Work Node := do
    let tokens ← Work.tokens source settings.file
    Work.startNames settings tokens
    Work.parse (Parser.program settings) tokens
  (work.run (UnitState.ofSettings settings none)).1

/-! ## Several units -/

/-- Why no unit can be reported on. -/
inductive UnitsFault where
  | noWorker
  /-- A fault that is not recorded as the outcome of its unit. -/
  | unit (fault : Fault)

def UnitsFault.message : UnitsFault → String
  | .noWorker => "max_workers must be greater than 0"
  | .unit fault => fault.message

/-- Faults in the source text and cancellation are recorded as the outcome of a unit. -/
def Fault.isOutcome (fault : Fault) : Bool :=
  match fault with
  | .cancelled => true
  | fault => fault.diagnostic?.isSome

/-- Compiles one unit under its own file name. -/
def compileUnit (settings : Settings) (checks : Option Nat) (file source : String) :
    Except UnitsFault (String × Compilation) :=
  let c := compile { settings with file } source checks
  match c.result with
  | .error fault => if fault.isOutcome then .ok (file, c) else .error (.unit fault)
  | .ok _ => .ok (file, c)

/-- Compiles units, each under its own file name, and lists the outcomes in the same order. -/
def compileUnits (settings : Settings) (workers : Int) (checks : Option Nat)
    (units : List (String × String)) : Except UnitsFault (List (String × Compilation)) :=
  if workers ≤ 0 then .error .noWorker
  else units.mapM fun (file, source) => compileUnit settings checks file source

/-- Units of which no two have one file name: the last source of a file counts, and stands
where the file was first named. -/
def distinctUnits (units : List (String × String)) : List (String × String) :=
  units.foldl (fun listed (file, source) => put file source listed) []
where
  put (file source : String) : List (String × String) → List (String × String)
    | [] => [(file, source)]
    | (other, text) :: rest =>
      if other = file then (file, source) :: rest else (other, text) :: put file source rest

end GlyphScript
