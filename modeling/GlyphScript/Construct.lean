import GlyphScript.Fault

/-!
# Open constructs

Most constructs hold a body between `[[` and `]]`. What is open is kept on a
stack, and a closer has to fit the innermost construct.
-/

namespace GlyphScript

/-- The constructs that have an opener and a closer of their own. -/
inductive Construct where
  | body | block | conditional | loop | parallel | gpu | tensor | network | stream | guarded
  | matching | function | asyncFunction | classDef | macroDef | device
  deriving DecidableEq, Repr

namespace Construct

def all : List Construct :=
  [.body, .block, .conditional, .loop, .parallel, .gpu, .tensor, .network, .stream, .guarded,
   .matching, .function, .asyncFunction, .classDef, .macroDef, .device]

def name : Construct → String
  | .body => "BODY"
  | .block => "BLOCK"
  | .conditional => "IF"
  | .loop => "LOOP"
  | .parallel => "PARALLEL"
  | .gpu => "GPU"
  | .tensor => "TENSOR"
  | .network => "NN"
  | .stream => "STREAM"
  | .guarded => "TRY"
  | .matching => "MATCH"
  | .function => "FUNC"
  | .asyncFunction => "ASYNC_FUNC"
  | .classDef => "CLASS"
  | .macroDef => "MACRO"
  | .device => "DEVICE"

def opener : Construct → Reserved
  | .body => .bodyOpen
  | .block => .blockOpen
  | .conditional => .ifOpen
  | .loop => .loopOpen
  | .parallel => .parallelOpen
  | .gpu => .gpuOpen
  | .tensor => .tensorOpen
  | .network => .nnOpen
  | .stream => .streamOpen
  | .guarded => .tryOpen
  | .matching => .matchOpen
  | .function => .funcOpen
  | .asyncFunction => .asyncFuncOpen
  | .classDef => .classOpen
  | .macroDef => .macroOpen
  | .device => .deviceOpen

def closer : Construct → Reserved
  | .body => .bodyClose
  | .block => .blockClose
  | .conditional => .ifClose
  | .loop => .loopClose
  | .parallel => .parallelClose
  | .gpu => .gpuClose
  | .tensor => .tensorClose
  | .network => .nnClose
  | .stream => .streamClose
  | .guarded => .tryClose
  | .matching => .matchClose
  | .function => .funcClose
  | .asyncFunction => .asyncFuncClose
  | .classDef => .classClose
  | .macroDef => .macroClose
  | .device => .deviceClose

/-- Whether `r` closes some construct. -/
def isCloser (r : Reserved) : Bool := all.any (·.closer = r)

end Construct

/-- An open construct with the token that opened it. -/
structure Frame where
  construct : Construct
  opener : Token
  deriving DecidableEq, Repr

/-- The open constructs, innermost first. -/
abbrev Frames := List Frame

namespace Frames

/-- The innermost open construct. -/
def top (frames : Frames) : Except Fault Frame :=
  match frames with
  | [] => .error .nothingOpen
  | frame :: _ => .ok frame

/-- The open constructs, outermost first. -/
def constructs (frames : Frames) : List Construct := (frames.map (·.construct)).reverse

def inside (frames : Frames) (c : Construct) : Bool := frames.any (·.construct = c)

/-- Why `found` does not close `frame`, if it does not. -/
def closingFault? (frame : Frame) (found : Token) : Option ParseFault :=
  let expected := frame.construct.closer
  if found.isReserved expected then none
  else if found.isEnd then some (.unexpectedEnd (.mark expected) found)
  else if found.reserved?.any Construct.isCloser then
    some (.unbalancedDelimiter frame.opener found)
  else some (.expectedToken (.mark expected) found)

/-- Closes the innermost construct with `found`: that construct, and what remains open. -/
def close (frames : Frames) (found : Token) : Except Fault (Frame × Frames) :=
  match frames with
  | [] => .error .nothingOpen
  | frame :: rest =>
    match closingFault? frame found with
    | none => .ok (frame, rest)
    | some fault => .error (.parse fault)

end Frames

end GlyphScript
