import GlyphScript.Fault
import GlyphScript.Macro.Hygiene

/-!
# Putting arguments into a template

Bound names are replaced where they stand outside quotes: an identifier by
what it is bound to, a name that a node binds by the identifier it is bound to.
Substitution starts inside one quote for a quoted template, and there only the
unquoted parts are filled in.
-/

namespace GlyphScript

/-- What a substitution works with. -/
structure Filling where
  bindings : Bindings
  /-- The macro whose template is filled, for reports. -/
  name : String
  /-- The quote level at which the template stands. -/
  level : Nat

namespace Filling

/-- What a name that a node of kind `receiver` binds becomes. -/
def binder (f : Filling) (receiver : String) (position : Head.BinderPosition) (name : String) :
    Except ExpansionFault String :=
  match f.bindings.lookup name with
  | none => .ok name
  | some bound =>
    match bound.head with
    | .identifier new => .ok new
    | _ => .error (.hygieneConflict f.name name position bound.className receiver bound.span)

/-- The contexts are quote levels. An unquote at or below the level of the template itself
gives way to what it holds. -/
def transform (f : Filling) : Transform (Except ExpansionFault) Nat Node where
  enter depth n :=
    match n.head with
    | .identifier name =>
      return .done (if depth = 0 then (f.bindings.lookup name).getD n else n)
    | head => return .inside (head.innerDepth depth)
  leave depth n :=
    match n.head, n.slots with
    | .unquote, [.one expression] => return if depth ≤ f.level then expression else n
    | head, slots =>
      if depth = 0 then
        return Node.mk n.span (← head.mapBindersM (f.binder head.className)) slots
      else return n
  toSlot := .one

end Filling

/-- Fills a template. -/
def Node.substitute (template : Node) (f : Filling) : Except ExpansionFault Node :=
  template.transformM f.transform f.level

end GlyphScript
