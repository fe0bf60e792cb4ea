import GlyphScript.Proofs.Parsing.Advance

/-!
# Parsers that read nothing

Looking ahead, completing nodes and expanding calls touch neither the tokens nor
what is open, and do not ask for an open construct.
-/

namespace GlyphScript

open GlyphScript.Parser

/-! ## Work on the unit -/

/-- The work does not ask for an open construct. -/
def Work.Aside {α : Type} (w : Work α) : Prop := ∀ u, (w u).1 ≠ .error .nothingOpen

namespace Work.Aside

variable {α β : Type}

theorem pure (a : α) : Aside (Pure.pure a : Work α) := fun _ => by rintro ⟨⟩

theorem throw {f : Fault} (h : f ≠ .nothingOpen) : Aside (throw f : Work α) :=
  fun _ e => h (Except.error.inj e)

theorem bind {w : Work α} {f : α → Work β} (hw : Aside w) (hf : ∀ a, Aside (f a)) :
    Aside (w >>= f) := by
  intro u
  rw [run_bind]
  have first := hw u
  rcases h : w u with ⟨e | a, u'⟩ <;> rw [h] at first
  · exact fun e' => first (congrArg _ (Except.error.inj e'))
  · exact hf a u'

end Work.Aside

namespace Work

theorem aside_report (e : Event) : Aside (report e) := fun _ => by rintro ⟨⟩

theorem aside_checkpoint : Aside checkpoint := by
  intro u
  unfold checkpoint
  rw [run_bind, run_get]
  dsimp only
  rcases u.checks with _ | _ | n <;> rintro ⟨⟩

theorem aside_ofExpansion {α : Type} (r : Except ExpansionFault α) : Aside (ofExpansion r) := by
  cases r with
  | ok a => exact .pure a
  | error f => exact .throw (by rintro ⟨⟩)

theorem aside_tokens (source file : String) : Aside (tokens source file) := by
  unfold tokens
  cases tokenize source file with
  | ok tokens => exact (aside_report _).bind fun _ => .pure _
  | error f => exact .throw (by rintro ⟨⟩)

theorem aside_register (d : MacroDefinition) : Aside (register d) := by
  intro u
  obtain ⟨warnings, h⟩ := register_run d u
  rw [h]
  rintro ⟨⟩

theorem aside_expandCall (c : MacroCall) : Aside (expandCall c) := by
  have called : Aside (calledMacro c) := by
    intro u
    unfold calledMacro
    rw [run_bind, run_get]
    dsimp only
    cases u.registry.find? c.name <;> rintro ⟨⟩
  refine called.bind fun d => (aside_ofExpansion _).bind fun sel => ?_
  refine Aside.bind (fun _ => by rintro ⟨⟩) fun (template, table) => ?_
  refine (aside_ofExpansion _).bind fun node => ?_
  dsimp only
  split
  · exact (aside_report _).bind fun _ => (aside_report _).bind fun _ => .pure _
  · exact (aside_report _).bind fun _ => .pure _

end Work

/-! ## Parsers -/

/-- The parser reads nothing, leaves open what is open, and does not ask for it. -/
def still : Guarantee Parser where
  holds x p := ∀ s : ParserState, (x s).2.rest = s.rest ∧ (x s).2.frames = s.frames ∧
    (x s).1 ≠ .error .nothingOpen ∧ ∀ a, (x s).1 = .ok a → p a
  pure h _ := ⟨rfl, rfl, by rintro ⟨⟩, fun _ e => Except.ok.inj e ▸ h⟩
  bind {_ _ x f _ _} hx hf s := by
    rw [run_bind]
    obtain ⟨rest, frames, fault, made⟩ := hx s
    rcases h : x s with ⟨e | a, s'⟩ <;> rw [h] at rest frames fault made
    · exact ⟨rest, frames, fun e' => fault (congrArg _ (Except.error.inj e')), by rintro _ ⟨⟩⟩
    · obtain ⟨rest', frames', last⟩ := hf a (made a rfl) s'
      exact ⟨rest'.trans rest, frames'.trans frames, last⟩

def Still {α : Type} (x : Parser α) : Prop := still.holds x fun _ => True

namespace Still

variable {α β : Type} {x : Parser α}

theorem of_run (h : ∀ s, (x s).2.rest = s.rest ∧ (x s).2.frames = s.frames ∧
    (x s).1 ≠ .error .nothingOpen) : Still x :=
  fun s => ⟨(h s).1, (h s).2.1, (h s).2.2, fun _ _ => trivial⟩

theorem pure (a : α) : Still (Pure.pure a : Parser α) := still.pure trivial

theorem throw {f : Fault} (h : f ≠ .nothingOpen) : Still (throw f : Parser α) :=
  fun _ => ⟨rfl, rfl, fun e => h (Except.error.inj e), by rintro _ ⟨⟩⟩

theorem bind {f : α → Parser β} (hx : Still x) (hf : ∀ a, Still (f a)) : Still (x >>= f) :=
  still.bind hx fun a _ => hf a

theorem map {f : α → β} (hx : Still x) : Still (f <$> x) := still.map hx fun _ _ => trivial

theorem of_get {f : ParserState → Parser β} (h : ∀ s, Still (f s)) : Still (get >>= f) :=
  fun s => h s s

theorem ite {c : Prop} [Decidable c] {y : Parser α} (hx : Still x) (hy : Still y) :
    Still (if c then x else y) := by
  split
  · exact hx
  · exact hy

theorem work {w : Work α} (h : w.Aside) : Still (ofWork w) :=
  of_run fun s => ⟨rfl, rfl, h s.unit⟩

end Still

theorem still_peek : Still peek := .of_run fun _ => ⟨rfl, rfl, by rintro ⟨⟩⟩

theorem still_check (r : Reserved) : Still (check r) := .of_run fun _ => ⟨rfl, rfl, by rintro ⟨⟩⟩

theorem still_spanFrom (start : Token) : Still (spanFrom start) :=
  .of_run fun _ => ⟨rfl, rfl, by rintro ⟨⟩⟩

theorem still_openScope : Still openScope := .of_run fun _ => ⟨rfl, rfl, by rintro ⟨⟩⟩

theorem still_closeScope : Still closeScope := by
  refine .of_run fun s => ?_
  rw [closeScope_run]
  cases s.scopes <;> exact ⟨rfl, rfl, by rintro ⟨⟩⟩

theorem still_checkBinding : Still checkBinding := by
  refine .of_run fun s => ?_
  rw [checkBinding_run]
  exact ⟨rfl, rfl, by rintro ⟨⟩⟩

theorem unwanted_ne (e : Expected) (s : ParserState) : unwanted e s ≠ .nothingOpen := by
  obtain ⟨p, h⟩ := unwanted_parse e s
  rw [h]
  rintro ⟨⟩

theorem still_failExpecting {α : Type} (e : Expected) : Still (failExpecting e : Parser α) := by
  refine .of_run fun s => ?_
  rw [failExpecting_run]
  exact ⟨rfl, rfl, fun h => unwanted_ne e s (Except.error.inj h)⟩

theorem still_inject (names : List String) : Still (inject names) := by
  refine .of_run fun s => ?_
  rw [inject, run_modify]
  dsimp only
  split <;> exact ⟨rfl, rfl, by rintro ⟨⟩⟩

theorem still_announce (n : Node) : Still (announce n) := by
  unfold announce
  split
  · split
    · exact .work (Work.aside_register _)
    · exact .pure _
  · exact .of_get fun s => .ite (.of_run fun _ => ⟨rfl, rfl, by rintro ⟨⟩⟩) (.pure _)
  · exact .pure _

theorem still_extend (m : Level) (left : Node) (start : Token) (f : Found) :
    Still (extend m left start f) := by
  unfold Parser.extend tailStop
  refine Still.bind ?_ fun stop => .of_get fun s => (still_announce _).bind fun _ => .pure _
  exact .ite (still_spanFrom start).map (.pure _)

end GlyphScript
