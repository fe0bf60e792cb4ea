import GlyphScript.CommandLine.Arguments
import GlyphScript.Compilation
import GlyphScript.Node.SExpr
import GlyphScript.Text.Encoding

/-!
# The command line

Compiles one file and writes its tokens, its statements as S-expressions or its
source text. Reports of the work go with the errors.
-/

namespace GlyphScript

namespace CommandLine

def programName : String := "glyphc"

/-- What ends the program without a message of its own. -/
inductive Crash where
  /-- The file is not encoded as it should be. -/
  | undecodable
  /-- The bound on expansion passes is no number. -/
  | noBound
  | fault (fault : Fault)

def Crash.message : Crash → String
  | .undecodable => "the file is not valid UTF-8"
  | .noBound => "'<' not supported between instances of 'list' and 'int'"
  | .fault f => f.message

structure Outcome where
  /-- The exit status, unless the program crashed. -/
  status : Except Crash Nat
  stdout : String
  stderr : String

namespace Outcome

/-- Ends with status 1 and a message. -/
def failed (message : String) : Outcome := ⟨.ok 1, "", s!"{programName}: error: {message}\n"⟩

/-- Ends with a fault, after what has been written to the error stream. -/
def ofFault (fault : Fault) (stderr : String) : Outcome :=
  match fault.diagnostic?, fault with
  | some d, _ => ⟨.ok 1, "", stderr ++ d.render⟩
  | none, .cancelled => ⟨.ok 1, "", s!"{stderr}{programName}: {fault.message}\n"⟩
  | none, _ => ⟨.error (.fault fault), "", stderr⟩

end Outcome

def lines (ls : List String) : String := String.join (ls.map (· ++ "\n"))

/-- The reports that are shown, one a line. -/
def shownLog (o : Options) (events : List Event) : String :=
  lines ((events.filter fun e => o.verbose || e.isWarning).map Event.render)

def tokenLine (t : Token) : String := s!"{t.location.render}\t{t.render}"

/-- Writes the tokens of a source text. -/
def showTokens (o : Options) (settings : Settings) (source : String) : Outcome :=
  match (Work.tokens source settings.file).run (UnitState.ofSettings settings none) with
  | (.ok tokens, s) => ⟨.ok 0, lines (tokens.map tokenLine), shownLog o s.events⟩
  | (.error fault, s) => .ofFault fault (shownLog o s.events)

/-- Compiles a source text and writes the program. -/
def showProgram (o : Options) (settings : Settings) (source : String) : Outcome :=
  let c := compile settings source none
  let stderr := shownLog o c.state.events
  match c.result with
  | .error fault => .ofFault fault stderr
  | .ok program =>
    if o.source then
      match program.source with
      | .ok text => ⟨.ok 0, lines [text], stderr⟩
      | .error what => .ofFault (.unprintable what) stderr
    else ⟨.ok 0, lines (program.statements.map Node.sexpr), stderr⟩

/-- Does what the options ask for with the bytes of the file, if there is such a file. -/
def run (o : Options) (content : Option ByteArray) : Outcome :=
  match content with
  | none => .failed s!"file not found: {o.file}"
  | some bytes =>
    match readText? .utf8 bytes with
    | none => ⟨.error .undecodable, "", ""⟩
    | some source =>
      match o.maxIterations with
      | none => ⟨.error .noBound, "", ""⟩
      | some bound =>
        let settings : Settings := { file := o.file, expand := o.expand }
        match settings.withLimits bound settings.maxReplacements settings.maxParseDepth with
        | .error limit => .failed limit.message
        | .ok settings =>
          if o.tokens then showTokens o settings source else showProgram o settings source

end CommandLine

end GlyphScript
