/-!
# Literals
-/

namespace GlyphScript

/-- What a literal holds. -/
inductive Scalar where
  | integer (n : Int)
  | text (s : String)
  | flag (b : Bool)
  | nothing
  deriving DecidableEq, Repr

/-- How a literal is written. Trees not made by the parser may pair any kind with any value,
and may use kinds that the language lacks. -/
inductive LiteralKind where
  | number
  | string
  | boolean
  | null
  | other (name : String)
  deriving DecidableEq, Repr

namespace LiteralKind

def name : LiteralKind → String
  | .number => "number"
  | .string => "string"
  | .boolean => "boolean"
  | .null => "null"
  | .other name => name

def ofName : String → LiteralKind
  | "number" => .number
  | "string" => .string
  | "boolean" => .boolean
  | "null" => .null
  | name => .other name

end LiteralKind

namespace Scalar

/-- The value as a number, for those values that count as one. -/
def asInteger? : Scalar → Option Int
  | .integer n => some n
  | .flag b => some (if b then 1 else 0)
  | _ => none

/-- Equality of values, where a flag equals the number it counts as. -/
def agrees (a b : Scalar) : Bool :=
  match a.asInteger?, b.asInteger? with
  | some m, some n => m = n
  | _, _ => a = b

/-- Zero, the empty text, the false flag and nothing count as false. -/
def isTruthy : Scalar → Bool
  | .integer n => n ≠ 0
  | .text s => s ≠ ""
  | .flag b => b
  | .nothing => false

/-- The value without any decoration. -/
def plain : Scalar → String
  | .integer n => toString n
  | .text s => s
  | .flag true => "True"
  | .flag false => "False"
  | .nothing => "None"

end Scalar

/-! ## Spelling -/

def flagSpelling (b : Bool) : String := if b then "#+" else "#-"

/-- A character inside a string literal. -/
def escapeInString : Char → List Char
  | '\\' => ['\\', '\\']
  | '"' => ['\\', '"']
  | '\n' => ['\\', 'n']
  | '\t' => ['\\', 't']
  | c => [c]

def stringSpelling (s : String) : String :=
  String.ofList ('"' :: s.toList.flatMap escapeInString ++ ['"'])

/-- A literal as it is written in source. -/
def literalSpelling (value : Scalar) : LiteralKind → String
  | .boolean => flagSpelling value.isTruthy
  | .null => "#~"
  | .string =>
    match value with
    | .text s => stringSpelling s
    | value => value.plain
  | .number | .other _ => value.plain

end GlyphScript
