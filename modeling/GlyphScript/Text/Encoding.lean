/-!
# Text files

Decoding the bytes of a file and its line ends.
-/

namespace GlyphScript

/-- How characters are stored in a file. -/
inductive Encoding where
  | utf8
  /-- As `utf8`, without the byte order mark that may stand at the start. -/
  | utf8Marked
  /-- One byte for each of the first 256 characters. -/
  | latin1
  deriving DecidableEq, Repr

namespace Encoding

/-- The byte order mark in UTF-8. -/
def byteOrderMark : List UInt8 := [0xEF, 0xBB, 0xBF]

/-- The bytes behind a byte order mark. A file that ends inside of the mark is empty. -/
def dropMark (bytes : ByteArray) : ByteArray :=
  let first := (bytes.extract 0 3).toList
  if first = byteOrderMark then bytes.extract 3 bytes.size
  else if first.isPrefixOf byteOrderMark then ByteArray.empty
  else bytes

/-- The text that is stored, if every part of it is well formed. -/
def decode? (e : Encoding) (bytes : ByteArray) : Option String :=
  match e with
  | .utf8 => String.fromUTF8? bytes
  | .utf8Marked => String.fromUTF8? (dropMark bytes)
  | .latin1 => some (String.ofList (bytes.toList.map fun b => Char.ofNat b.toNat))

end Encoding

/-- A carriage return, alone or before a line feed, counts as a line feed. -/
def unifyLineEnds : List Char → List Char
  | '\r' :: '\n' :: rest => '\n' :: unifyLineEnds rest
  | '\r' :: rest => '\n' :: unifyLineEnds rest
  | c :: rest => c :: unifyLineEnds rest
  | [] => []

/-- The text of a file. -/
def readText? (e : Encoding) (bytes : ByteArray) : Option String :=
  (e.decode? bytes).map fun text => String.ofList (unifyLineEnds text.toList)

end GlyphScript
