import GlyphScript.Macro.Expansion

/-!
# Expanding a program

A pass replaces every pending call by its one-level expansion, and passes
follow one another until one replaces nothing. Macro definitions and quotes are
left alone: a template is expanded where it is used. Calls of macros that
belong to the back end are marked and not touched again.
-/

namespace GlyphScript

/-- How far a pass has come. -/
structure PassState where
  replacements : Nat
  last : Option MacroCall
  /-- The names injected so far into each scope around the place of work, innermost first. -/
  scopes : List (List String)

abbrev PassM := StateT PassState Work

namespace PassM

/-- Records names in the innermost scope. -/
def inject (names : List String) : PassM Unit :=
  modify fun p =>
    match p.scopes with
    | scope :: outer => { p with scopes := addNames scope names :: outer }
    | [] => p

def openScope : PassM Unit := modify fun p => { p with scopes := [] :: p.scopes }

/-- Leaves the innermost scope and gives the names injected into it. -/
def closeScope : PassM (List String) := do
  let p ← get
  match p.scopes with
  | scope :: scopes =>
    set { p with scopes }
    return scope
  | [] => throw .outOfReach

/-- Counts a call about to be replaced, within the budget of the whole expansion. -/
def countReplacement (settings : Settings) (c : MacroCall) : PassM Unit := do
  let p ← get
  set { p with replacements := p.replacements + 1, last := some c }
  let done := (← getThe UnitState).progress.replacements
  if settings.maxReplacements < done + p.replacements + 1 then
    throw (.expansion (.nonTermination c.name c.span settings.maxReplacements .replacements))

/-- What a call is replaced by. -/
inductive Outcome where
  | deferred
  | expanded (e : Expansion)

def replaceCall (settings : Settings) (c : MacroCall) : PassM Outcome := do
  let definition ← Work.calledMacro c
  countReplacement settings c
  if definition.phase = .compile then return .deferred
  let expansion ← Work.expandCall c
  inject expansion.injected
  return .expanded expansion

/-- A call that is a statement may become several statements. -/
def replaceStatement (settings : Settings) (span : Span) (c : MacroCall) : PassM (Slot Node) := do
  match ← replaceCall settings c with
  | .deferred => return .one (Node.expressionStmt span c.deferredNode)
  | .expanded e => return .many (e.asStatements span)

def replaceExpression (settings : Settings) (c : MacroCall) : PassM (Slot Node) := do
  match ← replaceCall settings c with
  | .deferred => return .one c.deferredNode
  | .expanded e => return .one (← Work.ofExpansion (e.asExpression c))

/-- A statement that is nothing but a pending call. -/
def pendingStatement? (registry : Registry) (n : Node) : Option MacroCall :=
  match n.head, n.slots with
  | .expressionStmt, [.one e] => MacroCall.pending? registry e
  | _, _ => none

def enter (settings : Settings) (n : Node) : PassM (Step Unit (Slot Node)) := do
  let registry := (← getThe UnitState).registry
  match n.head with
  | .macroDef .. | .quote | .macroCall _ true => return .done (.one n)
  | .program _ | .block _ =>
    openScope
    return .inside ()
  | _ =>
    match pendingStatement? registry n, MacroCall.pending? registry n with
    | some c, _ => return .done (← replaceStatement settings n.span c)
    | none, some c => return .done (← replaceExpression settings c)
    | none, none => return .inside ()

def leave (n : Node) : PassM (Slot Node) := do
  match n.head with
  | .program injected =>
    let names ← closeScope
    return .one (Node.mk n.span (.program (addNames injected names)) n.slots)
  | .block injected =>
    let names ← closeScope
    return .one (Node.mk n.span (.block (addNames injected names)) n.slots)
  | _ => return .one n

def transform (settings : Settings) : Transform PassM Unit (Slot Node) where
  enter _ n := enter settings n
  leave _ n := leave n
  toSlot := id

end PassM

namespace Work

/-- Runs one pass: the program after it, and the last call replaced if there was any. -/
def pass (settings : Settings) (program : Node) : Work (Node × Option MacroCall) := do
  let (slot, p) ← (program.transformM (PassM.transform settings) ()).run ⟨0, none, []⟩
  report (.passDone ((← get).progress.iterations + 1) p.replacements)
  if p.replacements ≠ 0 then
    modify fun s => { s with
      progress := ⟨s.progress.iterations + 1, s.progress.replacements + p.replacements⟩ }
  return (slot.toList.headD program, p.last)

/-- Runs passes until one replaces nothing, at most `remaining` of them having replaced
something. -/
def settle (settings : Settings) : (remaining : Nat) → Node → Work Node
  | remaining, program => do
    checkpoint
    match ← pass settings program with
    | (program, none) => return program
    | (program, some c) =>
      match remaining with
      | 0 =>
        throw (.expansion (.nonTermination c.name c.span settings.maxIterations .iterations))
      | remaining + 1 => settle settings remaining program

/-- Expands a program with the macros registered and those that it defines itself. -/
def expand (settings : Settings) (program : Node) : Work Node := do
  registerMissing program
  modify fun s => { s with progress := ⟨0, 0⟩ }
  settle settings settings.maxIterations program

end Work

end GlyphScript
