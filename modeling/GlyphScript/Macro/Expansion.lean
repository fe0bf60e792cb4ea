import GlyphScript.Macro.Substitution
import GlyphScript.Node.Binders
import GlyphScript.UnitState

/-!
# Expanding one call

A call selects a template of its macro and the bindings for it. The template
is prepared as the macro's hygiene wants it and then filled.
-/

namespace GlyphScript

structure MacroCall where
  name : String
  args : List Node
  span : Span

namespace MacroCall

def node (c : MacroCall) : Node := Node.macroCall c.span c.name c.args false

/-- The call marked as left to the back end. -/
def deferredNode (c : MacroCall) : Node := Node.macroCall c.span c.name c.args true

/-- The call that a node is, if it is a macro call not yet deferred. -/
def ofNode? (n : Node) : Option MacroCall :=
  match n.head, n.slots with
  | .macroCall name false, [args] => some ⟨name, args.toList, n.span⟩
  | _, _ => none

/-- As `ofNode?`, where a plain call of a registered name is a macro call too. -/
def pending? (registry : Registry) (n : Node) : Option MacroCall :=
  match n.head, n.slots with
  | .call, [.one callee, args] =>
    match callee.head with
    | .identifier name =>
      if registry.contains name then some ⟨name, args.toList, n.span⟩ else none
    | _ => none
  | _, _ => ofNode? n

/-- No rule of the macro fits the call. -/
def mismatch (c : MacroCall) (m : RuleMismatch) : ExpansionFault := .noMatchingRule c.name c.span m

end MacroCall

/-! ## Selecting a template -/

/-- What the pattern of a rule is matched against: the only argument, or the tuple of the
arguments if there are more or the pattern asks for a tuple. -/
def ruleSubject (pattern : Node) (args : List Node) (span : Span) : Node :=
  match args with
  | [arg] => if pattern.head = .tuplePattern then Node.tupleLiteral span [arg] else arg
  | args => Node.tupleLiteral span args

/-- A template with the bindings to fill it with. -/
structure Selection where
  template : Node
  /-- Whether the template is the inside of a quote. -/
  quoted : Bool
  bindings : Bindings

/-- The template of a rule that fits a call, with the bindings of the rule's pattern. -/
def MacroCall.tryRule (c : MacroCall) (rule : Node) : Option (Node × Bindings) :=
  match rule.slots with
  | [.one pattern, .one template] =>
    (pattern.matchPattern (ruleSubject pattern c.args c.span)).map (template, ·)
  | _ => none

namespace MacroDefinition

/-- The inside of the quote that is the macro's template. -/
def templateBody? (d : MacroDefinition) : Option Node :=
  d.template.bind fun quote => quote.children.head?

/-- Selects the template that a call expands to: the macro's only one, or that of the first
rule that fits. -/
def select (d : MacroDefinition) (c : MacroCall) : Except ExpansionFault Selection :=
  if d.arity.any (· ≠ c.args.length) then
    .error (c.mismatch (.argumentCount d.params.length c.args.length))
  else
    let bindings := Bindings.extend [] (d.params.zip c.args)
    match d.templateBody? with
    | some template => .ok ⟨template, true, bindings⟩
    | none =>
      match d.rules.findSome? c.tryRule with
      | some (template, matched) => .ok ⟨template, false, bindings.extend matched⟩
      | none => .error (c.mismatch .noRule)

end MacroDefinition

/-! ## Expansions -/

/-- What a call expands to. -/
structure Expansion where
  /-- An expression, or a block of statements. -/
  node : Node
  /-- The names that the expansion installs in the scope around the call. -/
  injected : List String

namespace Expansion

/-- Whether the expansion consists of statements. -/
def isTransform (e : Expansion) : Bool :=
  match e.node.head with
  | .block _ => true
  | _ => false

/-- The expansion as an expression. Statements will do if they are one expression. -/
def asExpression (e : Expansion) (c : MacroCall) : Except ExpansionFault Node :=
  if e.isTransform then
    match e.node.statements with
    | [Node.mk _ .expressionStmt [.one expression]] => .ok expression
    | _ => .error (c.mismatch .statementsAsExpression)
  else .ok e.node

/-- The expansion as statements that stand at `span`. -/
def asStatements (e : Expansion) (span : Span) : List Node :=
  if e.isTransform then e.node.statements else [Node.expressionStmt span e.node]

end Expansion

namespace Work

/-- The macro that is called. -/
def calledMacro (c : MacroCall) : Work MacroDefinition := do
  let registry := (← get).registry
  match registry.find? c.name with
  | some definition => return definition
  | none => throw (.expansion (.undefinedMacro c.name c.span registry.names))

/-- Prepares a template. The names bound for it and the names of macros are kept. -/
def prepare (s : Selection) (hygiene : Hygiene) : Work (Node × Option RenameTable) := do
  let state ← get
  let keep := s.bindings.names ++ state.registry.names
  let (prepared, table, gensym) := s.template.withHygiene hygiene keep state.gensym
  set { state with gensym }
  return (prepared, table)

/-- Expands a call by one level. -/
def expandCall (c : MacroCall) : Work Expansion := do
  let definition ← calledMacro c
  let selection ← ofExpansion (definition.select c)
  let (template, table) ← prepare selection definition.hygiene
  let filling := ⟨selection.bindings, c.name, if selection.quoted then 1 else 0⟩
  let node ← ofExpansion (template.substitute filling)
  let renamed := table.elim 0 RenameTable.size
  if renamed ≠ 0 then report (.isolated c.name renamed)
  let injected := if definition.hygiene = .inject then node.binderNames else []
  report (.callExpanded c.name c.span)
  return ⟨node, injected⟩

end Work

end GlyphScript
