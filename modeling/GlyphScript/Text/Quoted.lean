import GlyphScript.Text.Printable

/-!
# Quoted text

A text between quotes, with escapes for the backslash, the quote, line breaks,
tabs and whatever cannot be printed. Single quotes are used unless the text
holds single quotes and no double ones.
-/

namespace GlyphScript

/-- The lowest `width` hexadecimal digits of `n`. -/
def hexDigits (n : Nat) : (width : Nat) → List Char
  | 0 => []
  | width + 1 => hexDigits (n / 16) width ++ [Nat.digitChar (n % 16)]

/-- A code point as `\x`, `\u` or `\U` and two, four or eight digits. -/
def escapeCode (c : Char) : List Char :=
  if c.toNat < 0x100 then '\\' :: 'x' :: hexDigits c.toNat 2
  else if c.toNat < 0x10000 then '\\' :: 'u' :: hexDigits c.toNat 4
  else '\\' :: 'U' :: hexDigits c.toNat 8

def quoteChar (quote c : Char) : List Char :=
  if c = quote || c = '\\' then ['\\', c]
  else if c = '\n' then ['\\', 'n']
  else if c = '\r' then ['\\', 'r']
  else if c = '\t' then ['\\', 't']
  else if isPrintable c then [c]
  else escapeCode c

/-- The quote that encloses a text. -/
def enclosingQuote (cs : List Char) : Char :=
  if cs.contains '\'' && !cs.contains '"' then '"' else '\''

def quoted (text : String) : String :=
  let cs := text.toList
  let quote := enclosingQuote cs
  String.ofList (quote :: cs.flatMap (quoteChar quote) ++ [quote])

end GlyphScript
