import GlyphScript.Text.Blank
import GlyphScript.Token.Basic
import Std.Data.TreeSet

/-!
# From text to tokens

At each place the longest reserved spelling wins, then numbers and strings,
and only then an identifier. An identifier grows by one character at a time
and ends where the rest of the text starts a reserved token, so `a[=]b` is
three tokens while `a+b` is one identifier.
-/

namespace GlyphScript

/-! ## Character classes -/

/-- Besides letters, digits and the underscore, identifiers may hold these. -/
def identifierSymbols : List Char := "!$%&*+-/:<=>?@^~".toList

def isAsciiLetter (c : Char) : Bool := ('a' ≤ c && c ≤ 'z') || ('A' ≤ c && c ≤ 'Z')

def isAsciiDigit (c : Char) : Bool := '0' ≤ c && c ≤ '9'

def isIdentifierStart (c : Char) : Bool :=
  isAsciiLetter c || c = '_' || identifierSymbols.contains c

def isIdentifierChar (c : Char) : Bool := isIdentifierStart c || isAsciiDigit c

/-! ## Single tokens -/

/-- Why a text cannot be divided into tokens. -/
inductive LexFault where
  /-- `following` is the unexpected character with the characters right after it. -/
  | unexpectedCharacter (c : Char) (following : String) (location : Location)
  | unterminatedString (span : Span)
  | numeralTooLong (digits : Nat)
  deriving DecidableEq, Repr

/-- The digits a numeral may have. -/
def maxNumeralLength : Nat := 4300

/-- A token's kind and characters, and the text after it. -/
structure Piece where
  kind : TokenKind
  lexeme : List Char
  rest : List Char
  deriving DecidableEq, Repr

def numeralValue (digits : List Char) : Nat :=
  digits.foldl (fun n d => 10 * n + (d.toNat - '0'.toNat)) 0

/-- What a character stands for after a backslash. -/
def unescape : Char → Char
  | 'n' => '\n'
  | 't' => '\t'
  | c => c

/-- Reads a string from behind its opening quote: its value, its characters as written with
the closing quote, and the text after it. -/
def stringBody : List Char → Option (List Char × List Char × List Char)
  | [] => none
  | '"' :: rest => some ([], ['"'], rest)
  | '\\' :: c :: rest =>
    (stringBody rest).map fun (value, raw, after) => (unescape c :: value, '\\' :: c :: raw, after)
  | c :: rest => (stringBody rest).map fun (value, raw, after) => (c :: value, c :: raw, after)

/-- The characters that continue an identifier, and the text after them. -/
def identifierTail : List Char → List Char × List Char
  | [] => ([], [])
  | c :: rest =>
    if isIdentifierChar c && (Reserved.longestMatch? (c :: rest)).isNone then
      let (tail, after) := identifierTail rest
      (c :: tail, after)
    else ([], c :: rest)

/-- The token that starts with `c`, which stands at `start` and is not blank. -/
def firstPiece (start : Location) (c : Char) (rest : List Char) : Except LexFault Piece :=
  let text := c :: rest
  match Reserved.longestMatch? text with
  | some r => .ok ⟨.reserved r, r.chars, text.drop r.chars.length⟩
  | none =>
    if isAsciiDigit c then
      let digits := text.takeWhile isAsciiDigit
      if maxNumeralLength < digits.length then .error (.numeralTooLong digits.length)
      else .ok ⟨.number (numeralValue digits), digits, text.dropWhile isAsciiDigit⟩
    else if c = '"' then
      match stringBody rest with
      | some (value, raw, after) => .ok ⟨.text (String.ofList value), '"' :: raw, after⟩
      | none => .error (.unterminatedString ⟨start, start.after text⟩)
    else if isIdentifierStart c then
      let (tail, after) := identifierTail rest
      .ok ⟨.identifier, c :: tail, after⟩
    else
      .error (.unexpectedCharacter c (String.ofList ((text.take 3).takeWhile (!isBlank ·))) start)

/-! ## Whole texts -/

/-- The tokens of a text of fewer than `fuel` characters that starts at `here`. -/
def scanFrom : (fuel : Nat) → (here : Location) → List Char → Except LexFault (List Token)
  | 0, here, _ => .ok [Token.endAt here]
  | fuel + 1, here, text =>
    let start := here.after (text.takeWhile isBlank)
    match text.dropWhile isBlank with
    | [] => .ok [Token.endAt start]
    | c :: rest => do
      let piece ← firstPiece start c rest
      let stop := start.after piece.lexeme
      let tokens ← scanFrom fuel stop piece.rest
      return ⟨piece.kind, String.ofList piece.lexeme, start, some stop⟩ :: tokens

/-- Divides a text into tokens; the last one is the end of the input. -/
def tokenize (source file : String) : Except LexFault (List Token) :=
  let text := source.toList
  scanFrom (text.length + 1) (Location.atStart file) text

/-- The tokens as text again, with a space between each two. -/
def joinLexemes (tokens : List Token) : String :=
  " ".intercalate ((tokens.filter (!·.isEnd)).map (·.lexeme))

/-- Every identifier among the tokens. -/
def identifierNames (tokens : List Token) : Std.TreeSet String :=
  Std.TreeSet.ofList ((tokens.filter (·.kind = .identifier)).map (·.lexeme))

/-- Whether `name` is one identifier and nothing else. -/
def lexesAsIdentifier (name : String) : Bool :=
  match name.toList with
  | [] => false
  | c :: rest => isIdentifierStart c && identifierRun (c :: rest)
where
  /-- Identifier characters only, with no reserved token starting at any of them. -/
  identifierRun : List Char → Bool
    | [] => true
    | c :: rest =>
      isIdentifierChar c && (Reserved.longestMatch? (c :: rest)).isNone && identifierRun rest

/-- The longest reserved token at each offset of `source`, the end included. -/
def reservedMatches (source : String) : List (Option Reserved) := atEachOffset source.toList
where
  atEachOffset : List Char → List (Option Reserved)
    | [] => [none]
    | c :: rest => Reserved.longestMatch? (c :: rest) :: atEachOffset rest

end GlyphScript
