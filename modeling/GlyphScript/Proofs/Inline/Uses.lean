import GlyphScript.Grammar.Basic
import GlyphScript.Proofs.Macro.Registry
import GlyphScript.Proofs.Parsing.Written

/-!
# Definitions and calls in the order of a text

A call counts as one to be expanded while parsing only if its macro is known by
then. So what matters of a tree are the definitions and the calls outside of
definitions and quotes, one after another.
-/

namespace GlyphScript

/-! ## Uses of macros -/

/-- The definition or a call of a macro. -/
inductive MacroUse where
  | defined (name : String) (phase : Phase)
  | called (name : String)
  deriving DecidableEq

namespace MacroUse

/-- The second use is no call of a macro that the first defines to be expanded while parsing. -/
def Apart (a b : MacroUse) : Prop := ∀ name, a = .defined name .parse → b ≠ .called name

/-- The uses in `vs` are among those in `us`, in the same order but for calls that stand earlier. -/
structure Within (vs us : List MacroUse) : Prop where
  subset : ∀ u ∈ vs, u ∈ us
  apart : us.Pairwise Apart → vs.Pairwise Apart

namespace Within

variable {us us' vs vs' ws : List MacroUse}

theorem of_sublist (h : vs.Sublist us) : Within vs us := ⟨fun _ hu => h.subset hu, (·.sublist h)⟩

theorem refl (us : List MacroUse) : Within us us := of_sublist (List.Sublist.refl us)

theorem nil (us : List MacroUse) : Within [] us := of_sublist (List.nil_sublist us)

theorem trans (h : Within ws vs) (h' : Within vs us) : Within ws us :=
  ⟨fun u hu => h'.subset u (h.subset u hu), fun apart => h.apart (h'.apart apart)⟩

theorem append (h : Within vs us) (h' : Within vs' us') : Within (vs ++ vs') (us ++ us') where
  subset u hu := by
    rcases List.mem_append.mp hu with hu | hu
    · exact List.mem_append_left _ (h.subset u hu)
    · exact List.mem_append_right _ (h'.subset u hu)
  apart all := by
    obtain ⟨first, second, across⟩ := List.pairwise_append.mp all
    refine List.pairwise_append.mpr ⟨h.apart first, h'.apart second, fun u hu v hv => ?_⟩
    exact across u (h.subset u hu) v (h'.subset v hv)

/-- A call may be taken to stand where its arguments begin. -/
theorem called (h : Within vs us) (name : String) :
    Within (.called name :: vs) (us ++ [MacroUse.called name]) where
  subset u hu := by
    rcases List.mem_cons.mp hu with rfl | hu
    · exact List.mem_append_right _ (List.mem_singleton_self _)
    · exact List.mem_append_left _ (h.subset u hu)
  apart all := by
    refine List.pairwise_cons.mpr ⟨?_, h.apart (List.pairwise_append.mp all).1⟩
    rintro v - _ ⟨⟩

end Within

end MacroUse

open MacroUse (Within)

/-- What a node with so many slots is to macros. Calls that are put off are none. -/
def Head.use? : Head → (slots : Nat) → Option MacroUse
  | .macroDef name _ phase _, 2 => some (.defined name phase)
  | .macroCall name false, 1 => some (.called name)
  | _, _ => none

theorem Head.isTemplate_of_use? {h : Head} {slots : Nat} {name : String} {phase : Phase}
    (used : h.use? slots = some (.defined name phase)) : h.isTemplate = true := by
  unfold use? at used
  split at used <;> first | rfl | cases used

namespace Node

/-- The definitions and calls in a tree, one after another. What stands inside of a definition or
a quote is left out. -/
def uses : Node → List MacroUse := fold fun _ head slots =>
  (head.use? slots.length).toList ++
    if head.isTemplate then [] else slots.flatMap fun s => s.toList.flatten

/-- The uses in the children of a node. -/
def usesIn (slots : List (Slot Node)) : List MacroUse :=
  slots.flatMap fun s => s.toList.flatMap uses

theorem uses_mk (span : Span) (head : Head) (slots : List (Slot Node)) :
    (mk span head slots).uses =
      (head.use? slots.length).toList ++ if head.isTemplate then [] else usesIn slots := by
  rw [uses, fold_mk, ← uses, List.length_map, usesIn, List.flatMap_map]
  simp only [Slot.toList_map, List.flatMap_def]

/-- A node uses no more than its children and itself, which ends after them. -/
theorem uses_within {head : Head} {slots : List (Slot Node)} {us : List MacroUse} (span : Span)
    (h : Within (usesIn slots) us) :
    Within (mk span head slots).uses (us ++ (head.use? slots.length).toList) := by
  rw [uses_mk]
  cases used : head.use? slots.length with
  | none =>
    rw [Option.toList_none, List.nil_append, List.append_nil]
    split
    · exact .nil us
    · exact h
  | some use =>
    cases use with
    | defined name phase =>
      rw [if_pos (Head.isTemplate_of_use? used), List.append_nil]
      exact .of_sublist (List.sublist_append_right ..)
    | called name =>
      split
      · exact .of_sublist (List.sublist_append_right ..)
      · exact h.called name

theorem use?_eq_called (span : Span) {head : Head} {slots : List (Slot Node)} {name : String}
    (h : head.use? slots.length = some (.called name)) :
    head = .macroCall name false ∧ ∃ c, MacroCall.ofNode? (mk span head slots) = some c ∧
      c.name = name := by
  unfold Head.use? at h
  split at h <;> cases h
  rename_i length
  obtain ⟨args, rfl⟩ := List.length_eq_one_iff.mp length
  exact ⟨rfl, _, rfl, rfl⟩

end Node

/-! ## Registrations -/

namespace Event

/-- The macro that has been registered, if that is what is reported. -/
def registration? : Event → Option (String × Phase)
  | .macroRegistered name phase _ => some (name, phase)
  | _ => none

end Event

namespace UnitState

/-- The macros registered, the latest first. -/
def registrations (u : UnitState) : List (String × Phase) := u.log.filterMap Event.registration?

/-- A macro has been registered whose calls are to be expanded while parsing. -/
def Expands (u : UnitState) (name : String) : Prop := (name, Phase.parse) ∈ u.registrations

/-- No macro has been registered in two phases. -/
def SinglePhase (u : UnitState) : Prop :=
  ∀ name phase phase', (name, phase) ∈ u.registrations → (name, phase') ∈ u.registrations →
    phase = phase'

/-- If each macro has been registered in one phase, those registered to be expanded while parsing
are. -/
def Faithful (u : UnitState) : Prop :=
  u.SinglePhase → ∀ name, u.Expands name → Parser.isExpandedHere u.registry name = true

theorem SinglePhase.before {u u' : UnitState} (h : u'.SinglePhase)
    (grown : u.registrations <:+ u'.registrations) : u.SinglePhase :=
  fun name phase phase' first second =>
    h name phase phase' (grown.subset first) (grown.subset second)

end UnitState

namespace Work

variable {α β : Type}

/-- The work registers no macro. -/
def RegistersNothing (w : Work α) : Prop := ∀ u, (w u).2.registrations = u.registrations

namespace RegistersNothing

theorem pure (a : α) : RegistersNothing (Pure.pure a) := fun _ => rfl

theorem throw (f : Fault) : RegistersNothing (throw f : Work α) := fun _ => rfl

theorem bind {w : Work α} {f : α → Work β} (hw : RegistersNothing w)
    (hf : ∀ a, RegistersNothing (f a)) : RegistersNothing (w >>= f) := by
  intro u
  rw [run_bind]
  have first := hw u
  rcases h : w u with ⟨e | a, u'⟩ <;> rw [h] at first
  · exact first
  · exact (hf a u').trans first

theorem report {e : Event} (h : e.registration? = none) : RegistersNothing (report e) :=
  fun _ => List.filterMap_cons_none h

theorem checkpoint : RegistersNothing checkpoint := by
  intro u
  unfold Work.checkpoint
  rw [run_bind, run_get]
  dsimp only
  rcases u.checks with _ | _ | n <;> rfl

theorem ofExpansion (r : Except ExpansionFault α) : RegistersNothing (ofExpansion r) := by
  cases r with
  | ok a => exact .pure a
  | error f => exact .throw _

theorem tokens (source file : String) : RegistersNothing (tokens source file) := by
  unfold Work.tokens
  cases tokenize source file with
  | ok tokens => exact (report rfl).bind fun _ => .pure _
  | error f => exact .throw _

theorem expandCall (c : MacroCall) : RegistersNothing (expandCall c) := by
  have called : RegistersNothing (calledMacro c) := by
    intro u
    unfold calledMacro
    rw [run_bind, run_get]
    dsimp only
    cases u.registry.find? c.name <;> rfl
  refine called.bind fun d => (ofExpansion _).bind fun sel => ?_
  refine RegistersNothing.bind (fun _ => rfl) fun (template, table) => ?_
  refine (ofExpansion _).bind fun node => ?_
  dsimp only
  split
  · exact (report rfl).bind fun _ => (report rfl).bind fun _ => .pure _
  · exact (report rfl).bind fun _ => .pure _

end RegistersNothing

/-- A macro that is registered is registered last. -/
theorem registrations_register (d : MacroDefinition) (u : UnitState) :
    (register d u).2.registrations = (d.name, d.phase) :: u.registrations ∧
      (register d u).2.registry = u.registry.insert d := by
  unfold register
  rw [run_bind, run_get]
  dsimp only
  cases u.registry.find? d.name with
  | none => exact ⟨rfl, rfl⟩
  | some previous =>
    dsimp only
    split <;> exact ⟨rfl, rfl⟩

/-- A macro is known as it has been registered, if it is not registered again. -/
theorem faithful_register (d : MacroDefinition) {u : UnitState} (h : u.Faithful) :
    (register d u).2.Faithful := by
  obtain ⟨registrations, registry⟩ := registrations_register d u
  intro single name registered
  rw [registry, Parser.isExpandedHere, Registry.find?_insert]
  by_cases same : d.name = name
  · have phase : d.phase = .parse := by
      refine single name _ _ ?_ registered
      rw [registrations, ← same]
      exact List.mem_cons_self
    rw [if_pos same]
    exact decide_eq_true phase
  · rw [if_neg same]
    refine h (single.before (registrations ▸ List.suffix_cons ..)) name ?_
    unfold UnitState.Expands at registered
    rw [registrations] at registered
    exact List.mem_of_ne_of_mem (fun e => same (congrArg Prod.fst e).symm) registered

end Work

end GlyphScript
