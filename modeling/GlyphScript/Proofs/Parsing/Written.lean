import GlyphScript.Compilation
import GlyphScript.Proofs.Guarantee
import GlyphScript.Proofs.Run

/-!
# Code that is left as it is written

Calls of parse-phase macros are expanded when the statement around them is
complete. Quotes and macro definitions in the statement are left as they are
then. But a statement of a block inside of a quote or a template is complete
before the quote or the template is.
-/

namespace GlyphScript

/-- Quotes and macro definitions are written to be used elsewhere. -/
def Head.isTemplate : Head → Bool
  | .macroDef .. | .quote => true
  | _ => false

def Head.isMacroCall : Head → Bool
  | .macroCall .. => true
  | _ => false

namespace Node

mutual

/-- The quotes and macro definitions in a tree, those in arguments of macro calls left out. -/
def written : Node → List Node
  | mk span head slots =>
    if head.isMacroCall then []
    else (if head.isTemplate then [mk span head slots] else []) ++ writtenSlots slots

def writtenSlots : List (Slot Node) → List Node
  | [] => []
  | .absent :: slots => writtenSlots slots
  | .one n :: slots => written n ++ writtenSlots slots
  | .many ns :: slots => writtenList ns ++ writtenSlots slots

def writtenList : List Node → List Node
  | [] => []
  | n :: ns => written n ++ writtenList ns

end

end Node

/-! ## Complete statements -/

namespace Parser

/-- What results of parsers have in common. -/
def results : Guarantee Parser where
  holds x p := ∀ s a s', x s = (.ok a, s') → p a
  pure h _ _ _ e := by
    cases e
    exact h
  bind hx hf s b s'' e := by
    obtain ⟨a, s', ex, ef⟩ := bind_ok.mp e
    exact hf a (hx s a s' ex) s' b s'' ef

end Parser

namespace Rereading

open GlyphScript.Parser

variable (r : Rereading)

end Rereading

/-! ## Units -/

/-- The phase of calls that are expanded while parsing becomes that of calls expanded later. -/
def Phase.postponed : Phase → Phase
  | .parse => .expand
  | phase => phase

def Token.postponed (t : Token) : Token :=
  if t.isReserved .phaseParse then
    { t with kind := .reserved .phaseExpand, lexeme := Reserved.phaseExpand.spelling }
  else t

def Settings.postponed (s : Settings) : Settings := { s with phase := s.phase.postponed }

end GlyphScript
