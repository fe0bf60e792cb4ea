import GlyphScript.Pattern
import GlyphScript.Proofs.Shape
import GlyphScript.Token.Scan

/-!
# Well-formed trees

The programs that the grammar allows, whether or not a parser has made them:
what every node has to be on its own and with its children, and that no call
has as its callee the name of a macro that is defined before the call ends.
-/

namespace GlyphScript

/-! ## Categories -/

namespace Head

/-- What a node is to its parent; a program has none. -/
def category? : Head → Option Category
  | .program _ => none
  | .block _ => some .block
  | .macroRule _ => some .rule
  | .exceptClause => some .handler
  | .caseClause => some .case
  | .comprehensionClause _ => some .clause
  | .literal .. | .identifier _ | .tupleLiteral | .tensorLiteral | .comprehension | .call
  | .macroCall .. | .lambda _ | .awaitExpr | .binaryOp _ | .unaryOp _ | .conditional | .quote
  | .unquote => some .expression
  | .literalPattern .. | .bindPattern _ | .tuplePattern | .tensorShapePattern | .graphPattern
  | .streamPattern => some .pattern
  | _ => some .statement

end Head

/-- Whether a node may stand where the category is asked for. -/
def Category.admits : Category → Head → Bool
  | .quoted, head => head.category? = some .block || head.category? = some .expression
  | .alternative, head => head.category? = some .block || head = .ifStmt
  | .template, head => head = .quote
  | c, head => head.category? = some c

/-! ## Attributes -/

/-- A value that the language has a literal of the kind for. -/
def Scalar.isSpelled : Scalar → LiteralKind → Bool
  | .integer n, .number => 0 ≤ n && (Nat.toDigits 10 n.toNat).length ≤ maxNumeralLength
  | .text _, .string | .flag _, .boolean | .nothing, .null => true
  | _, _ => false

namespace Head

/-- The names that are written where the node is written. -/
def names : Head → List String
  | .assignment target | .comprehensionClause target => [target]
  | .importDecl path alias? => path ++ alias?.toList
  | .memoryStmt name | .classDef name | .tensorDecl name | .neuralNet name | .identifier name
  | .bindPattern name | .macroCall name _ => [name]
  | .functionDef name params | .asyncFunctionDef name params | .macroDef name params _ _ =>
    name :: params
  | .loopStmt target => target.toList
  | .lambda params => params
  | _ => []

/-- The attributes have a spelling, and the parser gives no others where no macro is expanded
while it parses. -/
def isSpelled : Head → Bool
  | .program injected | .block injected => injected.isEmpty
  | .importDecl path _ => !path.isEmpty
  | .macroDef _ _ phase _ => phase ≠ .parse
  | .literal value kind | .literalPattern value kind => value.isSpelled kind
  | .macroCall _ deferred => !deferred
  | .binaryOp operator =>
    [Reserved.add, .subtract, .multiply, .divide].any (·.spelling = operator)
  | .unaryOp operator => operator = Reserved.negate.spelling
  | _ => true

end Head

namespace Node

/-! ## Nodes -/

/-- The children that have to be there are there, and patterns bind no name twice. -/
def isComplete : Head → List (Slot Node) → Bool
  | .matchStmt, [_, cases] => !cases.toList.isEmpty
  | .comprehension, [_, clauses] => !clauses.toList.isEmpty
  | .tryStmt, [_, handlers, finallyBody] =>
    !(handlers.toList.isEmpty && finallyBody.toList.isEmpty)
  | .macroDef .., [rules, template] => rules.toList.isEmpty != template.toList.isEmpty
  | .loopStmt (some _), [header, _] => !header.toList.isEmpty
  | .exceptClause, [pattern, _] | .caseClause, [pattern, _] | .macroRule _, [pattern, _] =>
    pattern.toList.all (·.patternFlaw?.isNone)
  | _, _ => true

/-- The node is well formed, whatever stands below its children. -/
structure WellFormedAt (n : Node) : Prop where
  fields : List.Forall₂ (fun f s => f.1.Fits s ∧ ∀ m ∈ s.toList, f.2.admits m.head = true)
    n.head.fields n.slots
  names : ∀ x ∈ n.head.names, lexesAsIdentifier x = true
  spelled : n.head.isSpelled = true
  complete : isComplete n.head n.slots = true

instance (n : Node) : Decidable n.WellFormedAt :=
  decidable_of_iff (_ ∧ _ ∧ _ ∧ _)
    (Iff.intro (fun h => WellFormedAt.mk h.1 h.2.1 h.2.2.1 h.2.2.2)
      fun h => And.intro h.fields (And.intro h.names (And.intro h.spelled h.complete)))

/-! ## Calls and definitions -/

mutual

/-- All nodes in the order in which their texts end: children before parents, from left to
right. -/
def finished : Node → List Node
  | mk span head slots => finishedSlots slots ++ [mk span head slots]

def finishedSlots : List (Slot Node) → List Node
  | [] => []
  | .absent :: slots => finishedSlots slots
  | .one n :: slots => finished n ++ finishedSlots slots
  | .many ns :: slots => finishedList ns ++ finishedSlots slots

def finishedList : List Node → List Node
  | [] => []
  | n :: ns => finished n ++ finishedList ns

end

theorem finishedList_eq (ns : List Node) : finishedList ns = ns.flatMap finished := by
  induction ns with
  | nil => rfl
  | cons n ns ih => rw [finishedList, ih, List.flatMap_cons]

theorem finishedSlots_eq (slots : List (Slot Node)) :
    finishedSlots slots = slots.flatMap fun s => s.toList.flatMap finished := by
  induction slots with
  | nil => rfl
  | cons s slots ih =>
    rw [List.flatMap_cons, ← ih]
    cases s with
    | absent => rfl
    | one n => rw [finishedSlots, Slot.toList, List.flatMap_singleton]
    | many ns => rw [finishedSlots, finishedList_eq, Slot.toList]

theorem finished_mk (span : Span) (head : Head) (slots : List (Slot Node)) :
    (mk span head slots).finished =
      (slots.flatMap fun s => s.toList.flatMap finished) ++ [mk span head slots] := by
  rw [finished, finishedSlots_eq]

theorem mem_walk_of_mem_finished {n m : Node} (h : m ∈ n.finished) : m ∈ n.walk := by
  induction n using induction_on with
  | step span head slots ih =>
    rw [finished_mk, List.mem_append, List.mem_flatMap] at h
    rcases h with ⟨s, hs, h⟩ | h
    · obtain ⟨c, hc, h⟩ := List.mem_flatMap.mp h
      exact mem_walk_mk.mpr (.inr ⟨s, hs, c, hc, ih s hs c hc h⟩)
    · rw [List.mem_singleton.mp h]
      exact mem_walk_self _

/-- The macro that the node defines, and its phase. -/
def definition? (n : Node) : Option (String × Phase) :=
  match n.head with
  | .macroDef name _ phase _ => some (name, phase)
  | _ => none

/-- The name that is the callee, if the node is a call of a name. -/
def calledName? (n : Node) : Option String :=
  match n.head, n.slots with
  | .call, .one callee :: _ =>
    match callee.head with
    | .identifier x => some x
    | _ => none
  | _, _ => none

theorem calledName?_call {span : Span} {callee : Node} {args : List Node} {x : String}
    (h : callee.head = .identifier x) : (call span callee args).calledName? = some x := by
  obtain ⟨place, head, slots⟩ := callee
  obtain rfl : head = .identifier x := h
  rfl

/-- Whether `c` calls by its name the macro that `d` defines. -/
def isCalledBy (d c : Node) : Bool := d.definition?.any fun e => c.calledName? = some e.1

/-- A program that the grammar allows. -/
structure WellFormed (n : Node) : Prop where
  program : ∃ injected, n.head = .program injected
  nodes : ∀ m ∈ n.walk, m.WellFormedAt
  /-- No call has as its callee the name of a macro defined before the call ends. -/
  calls : n.finished.Pairwise fun d c => d.isCalledBy c = false

end Node

end GlyphScript
