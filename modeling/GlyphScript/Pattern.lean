import GlyphScript.Node.Basic

/-!
# Patterns

Patterns are trees. Matching goes down the pattern and binds names to
subtrees from left to right; statements that are mere expressions are seen
through.
-/

namespace GlyphScript

/-- Names with the subtrees they stand for, in order of binding. -/
abbrev Bindings := List (String × Node)

namespace Bindings

/-- Binds a name; a name bound before keeps its place and gets the new subtree. -/
def bind (name : String) (n : Node) : Bindings → Bindings
  | [] => [(name, n)]
  | (other, m) :: rest => if other = name then (name, n) :: rest else (other, m) :: bind name n rest

/-- Binds all names of `later`, in order. -/
def extend (bindings later : Bindings) : Bindings :=
  later.foldl (fun b (name, n) => b.bind name n) bindings

def names (bindings : Bindings) : List String := bindings.map (·.1)

end Bindings

/-- What is wrong with a pattern. -/
inductive PatternFlaw where
  /-- A token that no pattern starts with. -/
  | cannotStart (lexeme : String)
  /-- A node that is no pattern. -/
  | notAPattern (className : String)
  | boundTwice (name : String)
  deriving DecidableEq, Repr

namespace Node

/-- The expression inside any number of expression statements. -/
def unwrap : Node → Node
  | mk _ .expressionStmt [.one e] => e.unwrap
  | n => n

/-- The statements of a program or block. -/
def statements (n : Node) : List Node :=
  match n.slots with
  | [.many statements] => statements
  | _ => []

/-! ## Matching -/

/-- What the elements of a composite pattern are compared with, if the kinds fit. -/
def elementsFor (pattern : Head) (n : Node) : Option (List Node) :=
  match pattern, n.head, n.slots with
  | .tuplePattern, .tupleLiteral, [.many elements] => some elements
  | .tensorShapePattern, .tensorLiteral, [.many elements] => some elements
  | .tensorShapePattern, .tensorDecl _, [.many shape, _] => some shape
  | .graphPattern, .neuralNet _, [.one body] => some body.statements
  | .streamPattern, .streamStmt, [.one source, .one body] => some (source :: body.statements)
  | _, _, _ => none

mutual

/-- Matches `n` against a pattern and adds to the bindings made so far. -/
def matchInto : (pattern : Node) → (n : Node) → Bindings → Option Bindings
  | mk _ head slots, n, bindings =>
    let n := n.unwrap
    match head with
    | .bindPattern name => some (if name = wildcard then bindings else bindings.bind name n)
    | .literalPattern value kind =>
      match n.head with
      | .literal value' kind' => if kind' = kind && value'.agrees value then some bindings else none
      | _ => none
    | head =>
      match elementsFor head n with
      | some elements => matchSlots slots elements bindings
      | none => none

def matchSlots : (patterns : List (Slot Node)) → List Node → Bindings → Option Bindings
  | [.many patterns], elements, bindings => matchList patterns elements bindings
  | _, _, _ => none

def matchList : (patterns : List Node) → List Node → Bindings → Option Bindings
  | [], [], bindings => some bindings
  | p :: ps, n :: ns, bindings =>
    match matchInto p n bindings with
    | some bindings => matchList ps ns bindings
    | none => none
  | _, _, _ => none

end

/-- The bindings under which `n` is an instance of `pattern`. -/
def matchPattern (pattern n : Node) : Option Bindings := pattern.matchInto n []

/-- The index and bindings of the first pattern that matches. -/
def firstMatch (patterns : List Node) (n : Node) : Option (Nat × Bindings) :=
  (patterns.zipIdx).findSome? fun (pattern, i) => (pattern.matchPattern n).map (i, ·)

/-! ## Well-formed patterns -/

/-- The names a pattern binds, from left to right. -/
def patternVariables (pattern : Node) : List String :=
  pattern.walk.filterMap fun n =>
    match n.head with
    | .bindPattern name => if name = wildcard then none else some name
    | _ => none

/-- The first flaw among `nodes` and its place, when the names of `seen` are bound already. -/
def firstFlaw? (seen : List String) : List Node → Option (PatternFlaw × Span)
  | [] => none
  | n :: ns =>
    match n.head with
    | .bindPattern name =>
      if name = wildcard then firstFlaw? seen ns
      else if seen.contains name then some (.boundTwice name, n.span)
      else firstFlaw? (name :: seen) ns
    | head =>
      if head.isPattern then firstFlaw? seen ns else some (.notAPattern head.className, n.span)

/-- The first flaw of a pattern: a node that is no pattern, or a name bound twice. -/
def patternFlaw? (pattern : Node) : Option (PatternFlaw × Span) := firstFlaw? [] pattern.walk

end Node

end GlyphScript
