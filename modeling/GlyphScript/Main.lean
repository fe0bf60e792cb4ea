import GlyphScript.CommandLine

/-!
# The program
-/

namespace GlyphScript.CommandLine

/-- How the program is called. -/
def usage : String := lines [
  s!"usage: {programName} [-h] [--no-expand] [--max-iterations N] [--tokens] [--source]",
  "              [--verbose]",
  "              file"]

/-- What is shown on request. -/
def help : String := usage ++ lines [
  "",
  "Parse and macro-expand a GlyphScript source file.",
  "",
  "positional arguments:",
  "  file                Path to GlyphScript source file",
  "",
  "options:",
  "  -h, --help          show this help message and exit",
  "  --no-expand         Stop after parsing; leave EXPAND-phase macro calls in",
  "                      place",
  "  --max-iterations N  Bound on macro expansion passes (default: 64)",
  "  --tokens            Print the token stream instead of the AST",
  "  --source            Print the result as GlyphScript source instead of",
  "                      S-expressions",
  "  --verbose, -v       Log lexer, parser and expander activity to stderr",
  "",
  "Examples:",
  s!"  {programName} program.glyph                 # Print the expanded AST",
  s!"  {programName} program.glyph --no-expand     # Print the AST before macro expansion",
  s!"  {programName} program.glyph --source        # Print the expanded program as source",
  "        "]

/-- The bytes of a file, if it can be read. -/
def readFile? (path : String) : IO (Option ByteArray) := do
  try
    return some (← IO.FS.readBinFile path)
  catch _ => return none

end GlyphScript.CommandLine

open GlyphScript CommandLine

def main (args : List String) : IO UInt32 := do
  match request args with
  | .error fault =>
    IO.eprint s!"{usage}{programName}: error: {fault.message}\n"
    return 2
  | .ok .help =>
    IO.print help
    return 0
  | .ok (.compile options) =>
    let outcome := run options (← readFile? options.file)
    IO.print outcome.stdout
    IO.eprint outcome.stderr
    match outcome.status with
    | .ok status => return status.toUInt32
    | .error crash =>
      IO.eprint s!"{programName}: {crash.message}\n"
      return 1
