import GlyphScript.CommandLine.Path
import GlyphScript.Text.Integer
import GlyphScript.Text.Quoted

/-!
# Arguments

The command line names one file and may give options, in any order. A long
option may be cut short as long as it is unambiguous and may carry its value
behind an equals sign; short options may be written together. Behind `--` all
arguments are operands.
-/

namespace GlyphScript

namespace CommandLine

/-! ## Options -/

inductive Switch where
  | help
  | noExpand
  | maxIterations
  | tokens
  | source
  | verbose
  deriving DecidableEq, Repr

namespace Switch

def all : List Switch := [.help, .noExpand, .maxIterations, .tokens, .source, .verbose]

def spellings : Switch → List String
  | .help => ["-h", "--help"]
  | .noExpand => ["--no-expand"]
  | .maxIterations => ["--max-iterations"]
  | .tokens => ["--tokens"]
  | .source => ["--source"]
  | .verbose => ["--verbose", "-v"]

def label (s : Switch) : String := "/".intercalate s.spellings

/-- Whether the option is followed by a value. -/
def takesValue : Switch → Bool
  | .maxIterations => true
  | _ => false

/-- All spellings with their options. -/
def table : List (String × Switch) := all.flatMap fun s => s.spellings.map (·, s)

end Switch

/-- What is wrong with a command line. -/
inductive UsageFault where
  | ambiguous (arg : String) (spellings : List String)
  /-- A value for an option that takes none. -/
  | ignoredValue (s : Switch) (value : String)
  | missingValue (s : Switch)
  | invalidInteger (s : Switch) (value : String)
  | missingFile
  | unrecognized (args : List String)
  deriving DecidableEq, Repr

def UsageFault.message : UsageFault → String
  | .ambiguous arg spellings =>
    s!"ambiguous option: {arg} could match " ++ ", ".intercalate spellings
  | .ignoredValue s value => s!"argument {s.label}: ignored explicit argument {quoted value}"
  | .missingValue s => s!"argument {s.label}: expected one argument"
  | .invalidInteger s value => s!"argument {s.label}: invalid int value: {quoted value}"
  | .missingFile => "the following arguments are required: file"
  | .unrecognized args => "unrecognized arguments: " ++ " ".intercalate args

/-! ## Single arguments -/

/-- What an argument is taken for. -/
inductive Argument where
  | operand (s : String)
  /-- `--` -/
  | separator
  /-- An option with what is written behind it in the same argument. -/
  | switch (spelling : String) (s : Switch) (attached : Option String)
  /-- An option that does not exist. -/
  | unknown (s : String)
  deriving DecidableEq, Repr

/-- The text before the first equals sign and the text behind it, if there is one. -/
def splitValue : List Char → List Char × Option (List Char)
  | [] => ([], none)
  | '=' :: cs => ([], some cs)
  | c :: cs =>
    let (name, value) := splitValue cs
    (c :: name, value)

/-- Whether an argument is a negative number and so no option. -/
def isNegativeNumber : List Char → Bool
  | '-' :: cs =>
    isDigitRun cs ||
      match cs.dropWhile isDecimalDigit with
      | '.' :: fraction => isDigitRun fraction
      | _ => false
  | _ => false

/-- The ways to read an argument as an option that is not written out: a long option cut short,
or a short one with more written behind it. -/
def readings (arg : List Char) : List Argument :=
  match arg with
  | '-' :: '-' :: _ =>
    let (name, value) := splitValue arg
    (Switch.table.filter fun (spelling, _) => name.isPrefixOf spelling.toList).map
      fun (spelling, s) => .switch spelling s (value.map String.ofList)
  | dash :: letter :: more =>
    Switch.table.filterMap fun (spelling, s) =>
      if spelling.toList = [dash, letter] then
        some (.switch spelling s (some (String.ofList more)))
      else if arg.isPrefixOf spelling.toList then some (.switch spelling s none)
      else none
  | _ => []

/-- The option that is written out before an equals sign. -/
def writtenOut? (arg : List Char) : Option Argument :=
  match splitValue arg with
  | (name, some value) =>
    let name := String.ofList name
    (Switch.table.lookup name).map fun s => .switch name s (some (String.ofList value))
  | (_, none) => none

/-- What an argument before `--` is taken for. -/
def classify (arg : String) : Except UsageFault Argument :=
  let cs := arg.toList
  match Switch.table.lookup arg, cs with
  | some s, _ => .ok (.switch arg s none)
  | none, '-' :: _ :: _ =>
    match writtenOut? cs, readings cs with
    | some a, _ => .ok a
    | none, [a] => .ok a
    | none, [] =>
      if isNegativeNumber cs || cs.contains ' ' then .ok (.operand arg) else .ok (.unknown arg)
    | none, several =>
      .error (.ambiguous arg (several.filterMap fun
        | .switch spelling _ _ => some spelling
        | _ => none))
  | none, _ => .ok (.operand arg)

/-- What the arguments are taken for. -/
def classifyAll : List String → Except UsageFault (List Argument)
  | [] => .ok []
  | arg :: args =>
    if arg = "--" then .ok (.separator :: args.map .operand)
    else do return (← classify arg) :: (← classifyAll args)

/-- The options that one argument gives, the last one with its value: an option and what is
attached to it. Behind a short option without value come the letters of further ones. -/
def unpack (isShort : Bool) (s : Switch) :
    List Char → Except UsageFault (List (Switch × Option String))
  | [] => if s.takesValue then .ok [(s, some "")] else .error (.ignoredValue s "")
  | c :: cs =>
    let text := String.ofList (c :: cs)
    if s.takesValue then .ok [(s, some text)]
    else if isShort then
      match Switch.table.lookup (String.ofList ['-', c]), cs with
      | none, _ => .error (.ignoredValue s text)
      | some next, [] => .ok [(s, none), (next, none)]
      | some next, cs => ((s, none) :: ·) <$> unpack isShort next cs
    else .error (.ignoredValue s text)

/-! ## Whole command lines -/

structure Options where
  file : String
  /-- The bound on expansion passes; none if `--` is attached in its place. -/
  maxIterations : Option Int
  expand : Bool
  tokens : Bool
  source : Bool
  verbose : Bool
  deriving DecidableEq, Repr

/-- What is asked for. -/
inductive Request where
  | help
  | compile (options : Options)
  deriving DecidableEq, Repr

/-- What has been read of a command line. -/
structure Reading where
  file : Option String
  options : Options
  /-- Arguments that have no place, the latest first. -/
  extra : List String
  /-- Whether the file is the argument read last. -/
  afterFile : Bool

/-- Nothing has been read. -/
def Reading.start : Reading :=
  ⟨none, ⟨"", some 64, true, false, false, false⟩, [], false⟩

namespace Reading

/-- Sets an option that takes no value; help is nothing to set. -/
def set (r : Reading) : Switch → Reading
  | .noExpand => { r with options := { r.options with expand := false } }
  | .tokens => { r with options := { r.options with tokens := true } }
  | .source => { r with options := { r.options with source := true } }
  | .verbose => { r with options := { r.options with verbose := true } }
  | .help | .maxIterations => r

def setValue (r : Reading) (s : Switch) (value : String) : Except UsageFault Reading :=
  match integerOf? value with
  | some n => .ok { r with options := { r.options with maxIterations := some n } }
  | none => .error (.invalidInteger s value)

/-- The same for a value in the argument of its option, where `--` counts as no value at
all. -/
def setAttached (r : Reading) (s : Switch) (value : String) : Except UsageFault Reading :=
  if value = "--" then .ok { r with options := { r.options with maxIterations := none } }
  else r.setValue s value

/-- Sets options in order. The result is none as soon as help is asked for. -/
def setAll (r : Reading) :
    List (Switch × Option String) → Except UsageFault (Option Reading)
  | [] => .ok (some r)
  | (.help, _) :: _ => .ok none
  | (s, some value) :: rest => do setAll (← r.setAttached s value) rest
  | (s, none) :: rest => setAll (r.set s) rest

def addExtra (r : Reading) (s : String) : Reading :=
  { r with extra := s :: r.extra, afterFile := false }

/-- The first operand is the file. -/
def addOperand (r : Reading) (s : String) : Reading :=
  match r.file with
  | none => { r with file := some s, afterFile := true }
  | some _ => r.addExtra s

/-- `--` has its place right before the file and right behind it. -/
def addSeparator (r : Reading) : Reading :=
  if r.file.isNone || r.afterFile then { r with afterFile := false } else r.addExtra "--"

/-- Everything has been read. -/
def finish (r : Reading) : Except UsageFault Request :=
  match r.file, r.extra.reverse with
  | none, _ => .error .missingFile
  | some file, [] => .ok (.compile { r.options with file := normalPath file })
  | some _, extra => .error (.unrecognized extra)

end Reading

/-- Reads arguments from left to right. -/
def readFrom (r : Reading) : List Argument → Except UsageFault Request
  | [] => r.finish
  | .operand s :: rest => readFrom (r.addOperand s) rest
  | .separator :: rest => readFrom r.addSeparator rest
  | .unknown s :: rest => readFrom (r.addExtra s) rest
  | .switch spelling s (some attached) :: rest => do
    let isShort := ((spelling.toList.drop 1).head?).all (· ≠ '-')
    let options ← unpack isShort s attached.toList
    match ← { r with afterFile := false }.setAll options with
    | none => return .help
    | some r => readFrom r rest
  | .switch _ s none :: rest => do
    let r := { r with afterFile := false }
    if s.takesValue then
      match rest with
      | .operand value :: rest => readFrom (← r.setValue s value) rest
      | _ => throw (.missingValue s)
    else if s = .help then return .help
    else readFrom (r.set s) rest

/-- What a command line asks for. -/
def request (args : List String) : Except UsageFault Request := do
  readFrom Reading.start (← classifyAll args)

end CommandLine

end GlyphScript
