import GlyphScript.Compilation
import GlyphScript.Proofs.Run
import GlyphScript.Proofs.Simulation

/-!
# Work that takes no heed of a cancellation

Whether the compilation has been cancelled is asked in few places. All that is
done between them is the same however many checks are left, and leaves their
number alone.
-/

namespace GlyphScript

/-- States in which a number of checks is left until the compilation is cancelled. -/
class Allowance (σ : Type) where
  /-- Leaves that number of checks, or any number of them. -/
  allow : Option Nat → σ → σ
  allow_allow : ∀ k k' s, allow k (allow k' s) = allow k s

open Allowance

instance : Allowance UnitState where
  allow k u := { u with checks := k }
  allow_allow _ _ _ := rfl

instance : Allowance ParserState where
  allow k s := { s with unit := allow k s.unit }
  allow_allow _ _ _ := rfl

/-- Computations that take the same steps whatever number of checks is left, and make none. -/
def heedless (σ : Type) [Allowance σ] : Simulation (ExceptT Fault (StateM σ)) where
  rel x y := ∀ s k, (x s).1 ≠ .error .cancelled ∧ y (allow k s) = ((x s).1, allow k (x s).2)
  pure _ _ _ := ⟨nofun, rfl⟩
  bind {_ _ x _ _ _} hx hf s k := by
    obtain ⟨lasting, same⟩ := hx s k
    rw [run_bind, run_bind, same]
    rcases h : x s with ⟨fault | a, s'⟩ <;> rw [h] at lasting
    · exact ⟨fun e => lasting (congrArg Except.error (Except.error.inj e)), rfl⟩
    · exact hf a s' k

/-- The computation makes no check. -/
def Heedless {σ α : Type} [Allowance σ] (x : ExceptT Fault (StateM σ) α) : Prop :=
  (heedless σ).rel x x

namespace Heedless

variable {σ α β : Type} [Allowance σ] {x : ExceptT Fault (StateM σ) α}

theorem pure (a : α) : Heedless (Pure.pure a : ExceptT Fault (StateM σ) α) := (heedless σ).pure a

theorem throw {f : Fault} (h : f ≠ .cancelled) :
    Heedless (throw f : ExceptT Fault (StateM σ) α) :=
  fun _ _ => ⟨fun e => h (Except.error.inj e), rfl⟩

theorem bind {f : α → ExceptT Fault (StateM σ) β} (hx : Heedless x) (hf : ∀ a, Heedless (f a)) :
    Heedless (x >>= f) :=
  (heedless σ).bind hx hf

theorem map {f : α → β} (hx : Heedless x) : Heedless (f <$> x) := (heedless σ).map hx f

theorem of_map {f : α → β} (injective : Function.Injective f) (h : Heedless (f <$> x)) :
    Heedless x := by
  intro s k
  obtain ⟨lasting, same⟩ := h s k
  rw [run_map, run_map] at same
  rw [run_map] at lasting
  rcases hx : x s with ⟨fault | a, s'⟩ <;> rw [hx] at same lasting <;>
    rcases hy : x (allow k s) with ⟨fault' | b, t'⟩ <;> rw [hy] at same <;>
    obtain ⟨result, state⟩ := Prod.mk.inj same <;> cases state
  · cases result
    exact ⟨fun e => lasting (congrArg Except.error (Except.error.inj e)), rfl⟩
  · nomatch result
  · nomatch result
  · rw [injective (Except.ok.inj result)]
    exact ⟨nofun, rfl⟩

theorem modify {f : σ → σ} (h : ∀ s k, f (allow k s) = allow k (f s)) :
    Heedless (modify f : ExceptT Fault (StateM σ) Unit) :=
  fun s k => ⟨nofun, congrArg (Prod.mk _) (h s k)⟩

/-- What is done in a state must not depend on the number of checks. -/
theorem of_get {f : σ → ExceptT Fault (StateM σ) β} (same : ∀ s k, f (allow k s) = f s)
    (h : ∀ s, Heedless (f s)) : Heedless (get >>= f) := by
  intro s k
  rw [run_bind, run_bind, run_get, run_get]
  dsimp only
  rw [same]
  exact h s s k

theorem ite {c : Prop} [Decidable c] {y : ExceptT Fault (StateM σ) α} (hx : Heedless x)
    (hy : Heedless y) : Heedless (if c then x else y) := by
  split
  · exact hx
  · exact hy

end Heedless

/-! ## Work on a unit -/

namespace Work

theorem heedless_report (e : Event) : Heedless (report e) := .modify fun _ _ => rfl

theorem heedless_register (d : MacroDefinition) : Heedless (register d) := by
  have insert : Heedless (do
      modify fun s => { s with registry := s.registry.insert d }
      report (.macroRegistered d.name d.phase d.hygiene)) :=
    (Heedless.modify fun _ _ => rfl).bind fun _ => heedless_report _
  refine .of_get (fun _ _ => rfl) fun s => ?_
  dsimp only
  split
  · split
    · exact (heedless_report _).bind fun _ => insert
    · exact insert
  · exact insert

theorem heedless_registerMissing (n : Node) : Heedless (registerMissing n) := by
  unfold registerMissing
  induction n.walk.filterMap MacroDefinition.ofNode? with
  | nil => exact .pure _
  | cons d ds ih =>
    rw [List.forM_eq_forM, List.forM_cons, ← List.forM_eq_forM]
    refine Heedless.bind (.of_get (fun _ _ => rfl) fun s => ?_) fun _ => ih
    exact .ite (.pure _) (heedless_register d)

theorem heedless_tokens (source file : String) : Heedless (tokens source file) := by
  unfold tokens
  cases tokenize source file with
  | ok tokens => exact (heedless_report _).bind fun _ => .pure _
  | error fault => exact .throw nofun

theorem heedless_startNames (settings : Settings) (tokens : List Token) :
    Heedless (startNames settings tokens) :=
  .modify fun _ _ => rfl

theorem heedless_ofExpansion {α : Type} (r : Except ExpansionFault α) :
    Heedless (ofExpansion r) := by
  cases r with
  | ok a => exact .pure a
  | error fault => exact .throw nofun

theorem heedless_calledMacro (c : MacroCall) : Heedless (calledMacro c) := by
  refine .of_get (fun _ _ => rfl) fun s => ?_
  dsimp only
  split
  · exact .pure _
  · exact .throw nofun

theorem heedless_prepare (s : Selection) (hygiene : Hygiene) : Heedless (prepare s hygiene) :=
  fun _ _ => ⟨nofun, rfl⟩

theorem heedless_expandCall (c : MacroCall) : Heedless (expandCall c) := by
  refine (heedless_calledMacro c).bind fun d => (heedless_ofExpansion _).bind fun sel => ?_
  refine (heedless_prepare _ _).bind fun (template, table) => ?_
  refine (heedless_ofExpansion _).bind fun node => ?_
  have expanded : Heedless (do
      report (.callExpanded c.name c.span)
      return (⟨node, if d.hygiene = .inject then node.binderNames else []⟩ : Expansion)) :=
    (heedless_report _).bind fun _ => .pure _
  dsimp only
  split
  · exact (heedless_report _).bind fun _ => expanded
  · exact expanded

end Work

/-! ## Passes of the expansion -/

namespace PassM

/-- Passes that make no check. -/
abbrev heedless : Simulation PassM := (GlyphScript.heedless UnitState).stateT PassState

variable {α : Type}

theorem heedless_of {x : PassM α} (h : ∀ q, Heedless (x q)) : heedless.rel x x := h

theorem heedless_get {f : UnitState → PassM α} (same : ∀ u k, f (allow k u) = f u)
    (h : ∀ u, heedless.rel (f u) (f u)) :
    heedless.rel (getThe UnitState >>= f) (getThe UnitState >>= f) :=
  heedless_of fun q => .of_get (f := fun u => f u q) (fun u k => by rw [same]) fun u => h u q

theorem heedless_work {w : Work α} (h : Heedless w) : heedless.rel (liftM w : PassM α) (liftM w) :=
  heedless_of fun _ => h.map

theorem heedless_modify (f : PassState → PassState) :
    heedless.rel (modify f : PassM Unit) (modify f) :=
  heedless_of fun _ => .pure _

theorem heedless_closeScope : heedless.rel closeScope closeScope := by
  refine heedless_of fun ⟨replacements, last, scopes⟩ => ?_
  cases scopes with
  | nil => exact .throw nofun
  | cons scope scopes => exact .pure _

variable (settings : Settings)

theorem heedless_countReplacement (c : MacroCall) :
    heedless.rel (countReplacement settings c) (countReplacement settings c) := by
  refine heedless.bind (heedless_of fun q => .pure (q, q)) fun p => ?_
  refine heedless.bind (heedless_of fun q => .pure _) fun _ => ?_
  refine heedless_get (fun _ _ => rfl) fun u => ?_
  dsimp only
  split
  · exact heedless_of fun q => .throw nofun
  · exact heedless.pure _

theorem heedless_replaceCall (c : MacroCall) :
    heedless.rel (replaceCall settings c) (replaceCall settings c) := by
  refine heedless.bind (heedless_work (Work.heedless_calledMacro c)) fun d => ?_
  refine heedless.bind (heedless_countReplacement settings c) fun _ => ?_
  split
  · exact heedless.pure _
  · refine heedless.bind (heedless_work (Work.heedless_expandCall c)) fun e => ?_
    exact heedless.bind (heedless_modify _) fun _ => heedless.pure _

theorem heedless_enter (n : Node) : heedless.rel (enter settings n) (enter settings n) := by
  have statement (span : Span) (c : MacroCall) :
      heedless.rel (replaceStatement settings span c) (replaceStatement settings span c) := by
    refine heedless.bind (heedless_replaceCall settings c) fun o => ?_
    cases o <;> exact heedless.pure _
  have expression (c : MacroCall) :
      heedless.rel (replaceExpression settings c) (replaceExpression settings c) := by
    refine heedless.bind (heedless_replaceCall settings c) fun o => ?_
    cases o with
    | deferred => exact heedless.pure _
    | expanded e =>
      exact heedless.bind (heedless_work (Work.heedless_ofExpansion _)) fun m => heedless.pure _
  refine heedless_get (fun _ _ => rfl) fun u => ?_
  dsimp only
  split
  iterate 3 exact heedless.pure _
  iterate 2 exact heedless.bind (heedless_modify _) fun _ => heedless.pure _
  split
  · exact heedless.bind (statement _ _) fun _ => heedless.pure _
  · exact heedless.bind (expression _) fun _ => heedless.pure _
  · exact heedless.pure _

theorem heedless_leave (n : Node) : heedless.rel (leave n) (leave n) := by
  unfold leave
  split
  iterate 2 exact heedless.bind heedless_closeScope fun _ => heedless.pure _
  exact heedless.pure _

theorem heedless_transform (n : Node) :
    heedless.rel (n.transformM (transform settings) ()) (n.transformM (transform settings) ()) := by
  refine heedless.transformM (fun _ n => ?_) (fun _ n => ?_) rfl n ()
  · exact heedless_enter settings n
  · exact heedless_leave n

end PassM

theorem Work.heedless_pass (settings : Settings) (n : Node) : Heedless (pass settings n) := by
  refine Heedless.bind (PassM.heedless_transform settings n _) fun (slot, p) => ?_
  refine .of_get (fun _ _ => rfl) fun u => (heedless_report _).bind fun _ => ?_
  dsimp only
  split
  · exact (Heedless.modify fun _ _ => rfl).bind fun _ => .pure _
  · exact .pure _

end GlyphScript
