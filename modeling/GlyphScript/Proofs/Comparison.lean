import GlyphScript.Macro.Expansion

/-!
# Comparing trees

Trees are compared node by node, and so what calls come to can be computed and
compared with what is expected.
-/

namespace GlyphScript

namespace Node

mutual

def decEq : (a b : Node) → Decidable (a = b)
  | .mk s h ss, .mk s' h' ss' =>
    if hs : s = s' then
      if hh : h = h' then
        match slotsDecEq ss ss' with
        | isTrue e => isTrue (by rw [hs, hh, e])
        | isFalse e => isFalse fun same => e (by cases same; rfl)
      else isFalse fun same => hh (by cases same; rfl)
    else isFalse fun same => hs (by cases same; rfl)

def slotsDecEq : (as bs : List (Slot Node)) → Decidable (as = bs)
  | [], [] => isTrue rfl
  | [], _ :: _ => isFalse nofun
  | _ :: _, [] => isFalse nofun
  | .absent :: as, .absent :: bs =>
    match slotsDecEq as bs with
    | isTrue e => isTrue (by rw [e])
    | isFalse e => isFalse fun same => e (by cases same; rfl)
  | .one a :: as, .one b :: bs =>
    match decEq a b, slotsDecEq as bs with
    | isTrue e, isTrue e' => isTrue (by rw [e, e'])
    | isFalse e, _ => isFalse fun same => e (by cases same; rfl)
    | _, isFalse e => isFalse fun same => e (by cases same; rfl)
  | .many ns :: as, .many ms :: bs =>
    match listDecEq ns ms, slotsDecEq as bs with
    | isTrue e, isTrue e' => isTrue (by rw [e, e'])
    | isFalse e, _ => isFalse fun same => e (by cases same; rfl)
    | _, isFalse e => isFalse fun same => e (by cases same; rfl)
  | .absent :: _, .one _ :: _ | .absent :: _, .many _ :: _ | .one _ :: _, .absent :: _
  | .one _ :: _, .many _ :: _ | .many _ :: _, .absent :: _ | .many _ :: _, .one _ :: _ =>
    isFalse nofun

def listDecEq : (as bs : List Node) → Decidable (as = bs)
  | [], [] => isTrue rfl
  | [], _ :: _ => isFalse nofun
  | _ :: _, [] => isFalse nofun
  | a :: as, b :: bs =>
    match decEq a b, listDecEq as bs with
    | isTrue e, isTrue e' => isTrue (by rw [e, e'])
    | isFalse e, _ => isFalse fun same => e (by cases same; rfl)
    | _, isFalse e => isFalse fun same => e (by cases same; rfl)

end

instance : DecidableEq Node := decEq

end Node

deriving instance DecidableEq for Expansion
deriving instance DecidableEq for MacroDefinition
deriving instance DecidableEq for Selection
deriving instance DecidableEq for Fault

end GlyphScript
