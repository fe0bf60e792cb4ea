import GlyphScript.Token.Reserved

/-!
# Binding strength
-/

namespace GlyphScript

/-- How tightly expressions hold together, from loose to tight. -/
inductive Level where
  /-- `condition ?> consequent !> alternative` -/
  | conditional
  /-- `++` and `--` -/
  | additive
  /-- `**` and `//` -/
  | multiplicative
  /-- `:-:` and `~~` -/
  | unary
  /-- A call. -/
  | postfixed
  | primary
  deriving DecidableEq, Repr

namespace Level

def rank : Level → Nat
  | .conditional => 1
  | .additive => 2
  | .multiplicative => 3
  | .unary => 4
  | .postfixed => 5
  | .primary => 6

/-- The level one step tighter. -/
def tighter : Level → Level
  | .conditional => .additive
  | .additive => .multiplicative
  | .multiplicative => .unary
  | .unary => .postfixed
  | .postfixed | .primary => .primary

/-- The level of a binary operator; one that the language lacks counts as additive. -/
def ofOperator (operator : String) : Level :=
  if operator = Reserved.multiply.spelling || operator = Reserved.divide.spelling then
    .multiplicative
  else .additive

end Level

end GlyphScript
