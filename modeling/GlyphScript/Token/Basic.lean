import GlyphScript.Location
import GlyphScript.Text.Quoted
import GlyphScript.Token.Reserved

/-!
# Tokens
-/

namespace GlyphScript

/-- What a token is; the payload is what a literal stands for. -/
inductive TokenKind where
  | reserved (r : Reserved)
  | identifier
  | number (value : Nat)
  | text (value : String)
  | endOfInput
  deriving DecidableEq, Repr

namespace TokenKind

def name : TokenKind → String
  | .reserved r => r.name
  | .identifier => "IDENTIFIER"
  | .number _ => "NUMBER"
  | .text _ => "STRING"
  | .endOfInput => "EOF"

def reserved? : TokenKind → Option Reserved
  | .reserved r => some r
  | _ => none

end TokenKind

structure Token where
  kind : TokenKind
  /-- The token as written. -/
  lexeme : String
  location : Location
  /-- The place after the last character, if it is known. -/
  stop : Option Location
  deriving DecidableEq, Repr

namespace Token

/-- The end of the input, found at `l`. -/
def endAt (l : Location) : Token := ⟨.endOfInput, "", l, some l⟩

/-- The place after the token, or its own place where the end is not known. -/
def stopOrStart (t : Token) : Location := t.stop.getD t.location

def span (t : Token) : Span := ⟨t.location, t.stopOrStart⟩

def reserved? (t : Token) : Option Reserved := t.kind.reserved?

def isReserved (t : Token) (r : Reserved) : Bool := t.kind = .reserved r

def isEnd (t : Token) : Bool := t.kind = .endOfInput

/-- What the token stands for; reserved tokens and the end stand for nothing. -/
def value? (t : Token) : Option String :=
  match t.kind with
  | .reserved _ | .endOfInput => none
  | .identifier => some t.lexeme
  | .number n => some (toString n)
  | .text s => some s

/-- The same token, wherever it stands. -/
def sameKind (t u : Token) : Bool := t.kind = u.kind && t.lexeme = u.lexeme

def render (t : Token) : String := s!"{t.kind.name}({quoted t.lexeme})"

end Token

end GlyphScript
