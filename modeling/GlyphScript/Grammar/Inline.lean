import GlyphScript.Grammar.Basic
import GlyphScript.Macro.Expansion
import GlyphScript.Node.Source

/-!
# Expanding calls while parsing

A call of a parse-phase macro is expanded as soon as its statement is complete:
the expansion is written out as source text, and what that text reads as takes
the place of the call. Macro definitions and quotes are left alone.
-/

namespace GlyphScript

/-- How the text of an expansion is read. -/
structure Rereading where
  expression : MacroCall → (text : String) → Parser Node
  statements : MacroCall → (text : String) → Parser (List Node)

namespace Rereading

open GlyphScript.Parser

/-- The source text of a tree. -/
def textOf (n : Node) : Parser String :=
  match n.source with
  | .ok text => return text
  | .error what => throw (.unprintable what)

/-- Expands a call and records the names that it injects. -/
def expandHere (c : MacroCall) : Parser Expansion := do
  let expansion ← ofWork (Work.expandCall c)
  inject expansion.injected
  return expansion

/-- What an expression that is a call becomes. -/
def replaceExpression (r : Rereading) (c : MacroCall) : Parser Node := do
  let expansion ← expandHere c
  let node ← ofWork (Work.ofExpansion (expansion.asExpression c))
  r.expression c (← textOf node)

/-- What a statement at `span` that is a call becomes. -/
def replaceStatement (r : Rereading) (c : MacroCall) (span : Span) : Parser (List Node) := do
  let expansion ← expandHere c
  r.statements c (← textOf (Node.program span (expansion.asStatements span) []))

/-- The call to be expanded that a node is, if it is one. -/
def callHere? (registry : Registry) (n : Node) : Option MacroCall :=
  (MacroCall.ofNode? n).filter fun c => isExpandedHere registry c.name

/-- The call to be expanded that a statement consists of. -/
def callStatement? (registry : Registry) (n : Node) : Option MacroCall :=
  match n.head, n.slots with
  | .expressionStmt, [.one e] => callHere? registry e
  | _, _ => none

def enter (r : Rereading) (n : Node) : Parser (Step Unit (Slot Node)) := do
  let registry := (← get).unit.registry
  match n.head with
  | .macroDef .. | .quote => return .done (.one n)
  | _ =>
    match callStatement? registry n, callHere? registry n with
    | some c, _ => return .done (.many (← r.replaceStatement c n.span))
    | none, some c => return .done (.one (← r.replaceExpression c))
    | none, none => return .inside ()

def transform (r : Rereading) : Transform Parser Unit (Slot Node) where
  enter _ n := r.enter n
  leave _ n := return .one n
  toSlot := id

/-- Runs `read` and then replaces the calls that it has left to be expanded. -/
def completed (r : Rereading) (read : Parser Node) : Parser (Slot Node) := do
  let outer := (← get).pending
  modify fun s => { s with pending := 0 }
  let node ← read
  let slot ← if (← get).pending = 0 then pure (.one node) else node.transformM r.transform ()
  modify fun s => { s with pending := outer }
  return slot

end Rereading

end GlyphScript
