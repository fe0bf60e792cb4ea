/-!
# Places in the source

Lines and columns start at 1, offsets at 0, all counted in characters. Only a
line feed starts a new line.
-/

namespace GlyphScript

structure Location where
  file : String
  line : Nat
  column : Nat
  /-- Characters from the start of the source. -/
  offset : Nat
  deriving DecidableEq, Repr, Inhabited

namespace Location

/-- The first place of a file. -/
def atStart (file : String) : Location := ⟨file, 1, 1, 0⟩

/-- The place after reading `c`. -/
def next (l : Location) (c : Char) : Location :=
  if c = '\n' then { l with line := l.line + 1, column := 1, offset := l.offset + 1 }
  else { l with column := l.column + 1, offset := l.offset + 1 }

/-- The place after reading `cs`. -/
def after (l : Location) (cs : List Char) : Location := cs.foldl next l

def render (l : Location) : String := s!"{l.file}:{l.line}:{l.column}"

end Location

/-- A stretch of source, from `start` up to and excluding `stop`. -/
structure Span where
  start : Location
  stop : Location
  deriving DecidableEq, Repr, Inhabited

namespace Span

/-- The empty span at one place. -/
def point (l : Location) : Span := ⟨l, l⟩

/-- The file is named once unless the span runs from one file into another. -/
def render (s : Span) : String :=
  if s.start.file = s.stop.file then s!"{s.start.render}-{s.stop.line}:{s.stop.column}"
  else s!"{s.start.render}-{s.stop.render}"

end Span

end GlyphScript
