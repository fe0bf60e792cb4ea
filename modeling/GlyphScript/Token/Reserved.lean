/-!
# Reserved tokens

The language has no keywords: every construct is introduced and closed by a
sequence of punctuation. A spelling has one to three characters, and no two
tokens are spelled alike.
-/

namespace GlyphScript

inductive Reserved where
  | assignOpen | assignOp | assignClose | importOpen | importClose | pathSep | arrow
  | returnOpen | returnClose | yieldOpen | yieldClose | breakMark | continueMark | memoryOpen
  | memoryClose | deviceOpen | deviceClose
  | blockOpen | blockClose | ifOpen | elifArm | elseArm | ifClose | loopOpen | bindArrow
  | loopClose | parallelOpen | parallelClose | gpuOpen | gpuClose | tensorOpen | tensorClose
  | nnOpen | nnClose | streamOpen | streamClose | tryOpen | exceptArm | finallyArm | tryClose
  | matchOpen | caseArm | matchClose | funcOpen | funcClose | asyncFuncOpen | asyncFuncClose
  | classOpen | classClose | macroOpen | macroClose
  | ruleOpen | ruleClose | ruleArrow | transformArrow | phaseParse | phaseExpand | phaseCompile
  | hygieneCapture | hygieneIsolate | hygieneInject | macroInvoke | quoteOpen | quoteClose
  | unquoteOpen | unquoteClose
  | bodyOpen | bodyClose | listOpen | listClose | separator | groupOpen | groupClose
  | add | subtract | multiply | divide | negate | await | condThen | condElse | tensorLitOpen
  | tensorLitClose | compOpen | compClose | compIf | lambdaOpen | lambdaClose | trueMark
  | falseMark | nullMark
  deriving DecidableEq, Repr

namespace Reserved

/-- All reserved tokens. -/
def all : List Reserved :=
  [.assignOpen, .assignOp, .assignClose, .importOpen, .importClose, .pathSep, .arrow,
   .returnOpen, .returnClose, .yieldOpen, .yieldClose, .breakMark, .continueMark, .memoryOpen,
   .memoryClose, .deviceOpen, .deviceClose, .blockOpen, .blockClose, .ifOpen, .elifArm,
   .elseArm, .ifClose, .loopOpen, .bindArrow, .loopClose, .parallelOpen, .parallelClose,
   .gpuOpen, .gpuClose, .tensorOpen, .tensorClose, .nnOpen, .nnClose, .streamOpen,
   .streamClose, .tryOpen, .exceptArm, .finallyArm, .tryClose, .matchOpen, .caseArm,
   .matchClose, .funcOpen, .funcClose, .asyncFuncOpen, .asyncFuncClose, .classOpen,
   .classClose, .macroOpen, .macroClose, .ruleOpen, .ruleClose, .ruleArrow, .transformArrow,
   .phaseParse, .phaseExpand, .phaseCompile, .hygieneCapture, .hygieneIsolate, .hygieneInject,
   .macroInvoke, .quoteOpen, .quoteClose, .unquoteOpen, .unquoteClose, .bodyOpen, .bodyClose,
   .listOpen, .listClose, .separator, .groupOpen, .groupClose, .add, .subtract, .multiply,
   .divide, .negate, .await, .condThen, .condElse, .tensorLitOpen, .tensorLitClose, .compOpen,
   .compClose, .compIf, .lambdaOpen, .lambdaClose, .trueMark, .falseMark, .nullMark]

def spelling : Reserved → String
  | .assignOpen => "\x7b["
  | .assignOp => "[=]"
  | .assignClose => "]\x7d"
  | .importOpen => "#<"
  | .importClose => ">#"
  | .pathSep => "::"
  | .arrow => "=>"
  | .returnOpen => ")-"
  | .returnClose => "-("
  | .yieldOpen => ")+"
  | .yieldClose => "+("
  | .breakMark => "]-!"
  | .continueMark => "]+!"
  | .memoryOpen => "&["
  | .memoryClose => "]&"
  | .deviceOpen => "^["
  | .deviceClose => "]^"
  | .blockOpen => "\x7b|"
  | .blockClose => "|\x7d"
  | .ifOpen => "\x7b?"
  | .elifArm => "?|"
  | .elseArm => "?:"
  | .ifClose => "?\x7d"
  | .loopOpen => "<+"
  | .bindArrow => "<-"
  | .loopClose => "+>"
  | .parallelOpen => "<%"
  | .parallelClose => "%>"
  | .gpuOpen => "#["
  | .gpuClose => "#]"
  | .tensorOpen => "<:"
  | .tensorClose => ":>"
  | .nnOpen => "<|"
  | .nnClose => "|>"
  | .streamOpen => "<~"
  | .streamClose => "~>"
  | .tryOpen => "\x7b!"
  | .exceptArm => "!:"
  | .finallyArm => "!^"
  | .tryClose => "!\x7d"
  | .matchOpen => "\x7b$"
  | .caseArm => "$:"
  | .matchClose => "$\x7d"
  | .funcOpen => "(|"
  | .funcClose => "|)"
  | .asyncFuncOpen => "(~|"
  | .asyncFuncClose => "|~)"
  | .classOpen => "\x7b<"
  | .classClose => ">\x7d"
  | .macroOpen => "<%|"
  | .macroClose => "|%>"
  | .ruleOpen => "\x7b@"
  | .ruleClose => "@\x7d"
  | .ruleArrow => "=>>"
  | .transformArrow => "==>"
  | .phaseParse => "^<"
  | .phaseExpand => "^="
  | .phaseCompile => "^>"
  | .hygieneCapture => "$<"
  | .hygieneIsolate => "$="
  | .hygieneInject => "$>"
  | .macroInvoke => "%%"
  | .quoteOpen => "'["
  | .quoteClose => "]'"
  | .unquoteOpen => "'("
  | .unquoteClose => ")'"
  | .bodyOpen => "[["
  | .bodyClose => "]]"
  | .listOpen => "(("
  | .listClose => "))"
  | .separator => ",,"
  | .groupOpen => "("
  | .groupClose => ")"
  | .add => "++"
  | .subtract => "--"
  | .multiply => "**"
  | .divide => "//"
  | .negate => ":-:"
  | .await => "~~"
  | .condThen => "?>"
  | .condElse => "!>"
  | .tensorLitOpen => "[:"
  | .tensorLitClose => ":]"
  | .compOpen => "[|"
  | .compClose => "|]"
  | .compIf => "??"
  | .lambdaOpen => "(\\"
  | .lambdaClose => "\\)"
  | .trueMark => "#+"
  | .falseMark => "#-"
  | .nullMark => "#~"

/-- The name under which listings and messages mention the token. -/
def name : Reserved → String
  | .assignOpen => "ASSIGN_OPEN"
  | .assignOp => "ASSIGN_OP"
  | .assignClose => "ASSIGN_CLOSE"
  | .importOpen => "IMPORT_OPEN"
  | .importClose => "IMPORT_CLOSE"
  | .pathSep => "PATH_SEP"
  | .arrow => "ARROW"
  | .returnOpen => "RETURN_OPEN"
  | .returnClose => "RETURN_CLOSE"
  | .yieldOpen => "YIELD_OPEN"
  | .yieldClose => "YIELD_CLOSE"
  | .breakMark => "BREAK"
  | .continueMark => "CONTINUE"
  | .memoryOpen => "MEMORY_OPEN"
  | .memoryClose => "MEMORY_CLOSE"
  | .deviceOpen => "DEVICE_OPEN"
  | .deviceClose => "DEVICE_CLOSE"
  | .blockOpen => "BLOCK_OPEN"
  | .blockClose => "BLOCK_CLOSE"
  | .ifOpen => "IF_OPEN"
  | .elifArm => "ELIF"
  | .elseArm => "ELSE"
  | .ifClose => "IF_CLOSE"
  | .loopOpen => "LOOP_OPEN"
  | .bindArrow => "BIND_ARROW"
  | .loopClose => "LOOP_CLOSE"
  | .parallelOpen => "PARALLEL_OPEN"
  | .parallelClose => "PARALLEL_CLOSE"
  | .gpuOpen => "GPU_OPEN"
  | .gpuClose => "GPU_CLOSE"
  | .tensorOpen => "TENSOR_OPEN"
  | .tensorClose => "TENSOR_CLOSE"
  | .nnOpen => "NN_OPEN"
  | .nnClose => "NN_CLOSE"
  | .streamOpen => "STREAM_OPEN"
  | .streamClose => "STREAM_CLOSE"
  | .tryOpen => "TRY_OPEN"
  | .exceptArm => "EXCEPT"
  | .finallyArm => "FINALLY"
  | .tryClose => "TRY_CLOSE"
  | .matchOpen => "MATCH_OPEN"
  | .caseArm => "CASE"
  | .matchClose => "MATCH_CLOSE"
  | .funcOpen => "FUNC_OPEN"
  | .funcClose => "FUNC_CLOSE"
  | .asyncFuncOpen => "ASYNC_FUNC_OPEN"
  | .asyncFuncClose => "ASYNC_FUNC_CLOSE"
  | .classOpen => "CLASS_OPEN"
  | .classClose => "CLASS_CLOSE"
  | .macroOpen => "MACRO_OPEN"
  | .macroClose => "MACRO_CLOSE"
  | .ruleOpen => "RULE_OPEN"
  | .ruleClose => "RULE_CLOSE"
  | .ruleArrow => "RULE_ARROW"
  | .transformArrow => "TRANSFORM_ARROW"
  | .phaseParse => "PHASE_PARSE"
  | .phaseExpand => "PHASE_EXPAND"
  | .phaseCompile => "PHASE_COMPILE"
  | .hygieneCapture => "HYGIENE_CAPTURE"
  | .hygieneIsolate => "HYGIENE_ISOLATE"
  | .hygieneInject => "HYGIENE_INJECT"
  | .macroInvoke => "MACRO_INVOKE"
  | .quoteOpen => "QUOTE_OPEN"
  | .quoteClose => "QUOTE_CLOSE"
  | .unquoteOpen => "UNQUOTE_OPEN"
  | .unquoteClose => "UNQUOTE_CLOSE"
  | .bodyOpen => "BODY_OPEN"
  | .bodyClose => "BODY_CLOSE"
  | .listOpen => "LIST_OPEN"
  | .listClose => "LIST_CLOSE"
  | .separator => "SEPARATOR"
  | .groupOpen => "GROUP_OPEN"
  | .groupClose => "GROUP_CLOSE"
  | .add => "ADD"
  | .subtract => "SUBTRACT"
  | .multiply => "MULTIPLY"
  | .divide => "DIVIDE"
  | .negate => "NEGATE"
  | .await => "AWAIT"
  | .condThen => "COND_THEN"
  | .condElse => "COND_ELSE"
  | .tensorLitOpen => "TENSOR_LIT_OPEN"
  | .tensorLitClose => "TENSOR_LIT_CLOSE"
  | .compOpen => "COMP_OPEN"
  | .compClose => "COMP_CLOSE"
  | .compIf => "COMP_IF"
  | .lambdaOpen => "LAMBDA_OPEN"
  | .lambdaClose => "LAMBDA_CLOSE"
  | .trueMark => "TRUE"
  | .falseMark => "FALSE"
  | .nullMark => "NULL"

def chars (r : Reserved) : List Char := r.spelling.toList

/-- Longer spellings first. -/
def byLength : List Reserved :=
  all.filter (·.chars.length = 3) ++ all.filter (·.chars.length = 2) ++
    all.filter (·.chars.length = 1)

/-- `byLength` with the characters of each spelling at hand. -/
def lookupTable : List (List Char × Reserved) := byLength.map fun r => (r.chars, r)

/-- The longest reserved token that `cs` starts with. -/
def longestMatch? (cs : List Char) : Option Reserved :=
  (lookupTable.find? fun (spelling, _) => spelling.isPrefixOf cs).map (·.2)

/-- All spellings, in the order of the table. -/
def spellings : List String := all.map spelling

end Reserved

end GlyphScript
