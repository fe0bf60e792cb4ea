import GlyphScript.Event
import GlyphScript.Fault
import GlyphScript.Macro.Definition
import GlyphScript.Macro.Gensym

/-!
# The state of a compilation

What the parser and the expander of one unit share. It outlives a fault:
macros registered, names given out and reports made before a fault remain.
-/

namespace GlyphScript

/-- How far the repeated expansion of a program has come. -/
structure Progress where
  /-- Passes that expanded at least one call. -/
  iterations : Nat
  /-- Calls replaced in those passes. -/
  replacements : Nat
  deriving DecidableEq, Repr

structure UnitState where
  registry : Registry
  gensym : Gensym
  /-- Reports, the latest first. -/
  log : List Event
  /-- How many more checks find the compilation not cancelled; without a number all do. -/
  checks : Option Nat
  progress : Progress

namespace UnitState

/-- The state in which a unit starts. -/
def start (gensym : Gensym) (checks : Option Nat) : UnitState :=
  ⟨Registry.empty, gensym, [], checks, ⟨0, 0⟩⟩

def names (s : UnitState) : List String := s.registry.names

/-- The reports in the order in which they were made. -/
def events (s : UnitState) : List Event := s.log.reverse

end UnitState

/-- Work on a unit. -/
abbrev Work := ExceptT Fault (StateM UnitState)

namespace Work

def report (e : Event) : Work Unit := modify fun s => { s with log := e :: s.log }

/-- Stops if the compilation has been cancelled. -/
def checkpoint : Work Unit := do
  match (← get).checks with
  | none => return ()
  | some 0 => throw .cancelled
  | some (n + 1) => modify fun s => { s with checks := some n }

/-- Registers a macro, with a warning if it replaces one defined elsewhere. -/
def register (d : MacroDefinition) : Work Unit := do
  match (← get).registry.find? d.name with
  | some previous =>
    if previous.span ≠ d.span then report (.macroRedefined d.name d.span previous.span)
  | none => pure ()
  modify fun s => { s with registry := s.registry.insert d }
  report (.macroRegistered d.name d.phase d.hygiene)

/-- Registers every macro defined anywhere in a tree that is not registered yet. -/
def registerMissing (n : Node) : Work Unit :=
  (n.walk.filterMap MacroDefinition.ofNode?).forM fun d => do
    unless (← get).registry.contains d.name do register d

/-- Divides a text into tokens. -/
def tokens (source file : String) : Work (List Token) := do
  match tokenize source file with
  | .ok tokens =>
    report (.tokenized file tokens.length)
    return tokens
  | .error fault => throw (.lex fault)

/-- Goes on with a result or fails with its fault. -/
def ofExpansion {α : Type} : Except ExpansionFault α → Work α
  | .ok a => return a
  | .error fault => throw (.expansion fault)

end Work

end GlyphScript
