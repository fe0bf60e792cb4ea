import GlyphScript.Node.Basic

/-!
# S-expressions

A listing of a tree without its places: the kind of the node, its attributes
and its slots. Two trees are structurally equal when their listings are equal.
-/

namespace GlyphScript

def Head.Attribute.sexpr : Head.Attribute → String
  | .absent => "nil"
  | .text s => s
  | .flag b => flagSpelling b
  | .number n => toString n
  | .names ns => "[" ++ " ".intercalate ns ++ "]"

namespace Head

/-- An empty list of injected names and an unset deferral mark are not listed. -/
def isListed : String × Attribute → Bool
  | ("injected", .names []) => false
  | ("deferred", .flag false) => false
  | _ => true

def listedAttributes (head : Head) : List Attribute :=
  (head.attributes.filter isListed).map (·.2)

end Head

def Slot.sexpr : Slot String → String
  | .absent => "nil"
  | .one s => s
  | .many ss => "[" ++ " ".intercalate ss ++ "]"

namespace Node

/-- The listing of a node whose slots have been listed. A literal shows its spelling instead of
its attributes. -/
def listing (head : Head) (slots : List (Slot String)) : String :=
  match head with
  | .literal value kind | .literalPattern value kind =>
    "(" ++ head.className ++ " " ++ literalSpelling value kind ++ ")"
  | _ =>
    let attributes := head.listedAttributes.map Head.Attribute.sexpr
    "(" ++ " ".intercalate (head.className :: attributes ++ slots.map Slot.sexpr) ++ ")"

def sexpr : Node → String := fold fun _ => listing

def structurallyEqual (a b : Node) : Bool := a.sexpr == b.sexpr

end Node

end GlyphScript
