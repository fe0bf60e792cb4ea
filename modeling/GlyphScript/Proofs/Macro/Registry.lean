import GlyphScript.Macro.Expansion
import GlyphScript.Proofs.Regular
import GlyphScript.Proofs.Run
import Mathlib.Order.Defs.PartialOrder

/-!
# Registering macros

What a registry knows after a macro is registered, and the order in which the
states of a unit come.
-/

namespace GlyphScript

/-- A registry is followed by those that know its macros. -/
instance : Preorder Registry where
  le r r' := ∀ x, r.contains x = true → r'.contains x = true
  le_refl _ _ h := h
  le_trans _ _ _ h h' x hx := h' x (h x hx)

/-- From the first state to the second reports and macros have only been added. -/
structure UnitState.Onward (u u' : UnitState) : Prop where
  log : u.log <:+ u'.log
  registry : u.registry ≤ u'.registry

theorem UnitState.Onward.refl (u : UnitState) : u.Onward u := ⟨List.suffix_rfl, le_refl _⟩

theorem UnitState.Onward.trans {u v w : UnitState} (h : u.Onward v) (h' : v.Onward w) :
    u.Onward w :=
  ⟨h.log.trans h'.log, le_trans h.registry h'.registry⟩

namespace Registry

variable {r : Registry} {d e : MacroDefinition}

theorem mem_insert (h : e ∈ (r.insert d).macros) : e = d ∨ e ∈ r.macros := by
  have : ∀ l : List MacroDefinition, e ∈ insert.insertInto d l → e = d ∨ e ∈ l := by
    intro l
    induction l with
    | nil =>
      intro h
      exact .inl (List.mem_singleton.mp h)
    | cons f l ih =>
      intro h
      rw [insert.insertInto] at h
      split at h
      · rcases List.mem_cons.mp h with h | h
        · exact .inl h
        · exact .inr (List.mem_cons_of_mem _ h)
      · rcases List.mem_cons.mp h with h | h
        · exact .inr (h ▸ List.mem_cons_self)
        · exact (ih h).imp_right (List.mem_cons_of_mem _)
  exact this _ h

theorem find?_insert (r : Registry) (d : MacroDefinition) (x : String) :
    (r.insert d).find? x = if d.name = x then some d else r.find? x := by
  have : ∀ l : List MacroDefinition, (insert.insertInto d l).find? (·.name = x) =
      if d.name = x then some d else l.find? (·.name = x) := by
    intro l
    induction l with
    | nil =>
      by_cases h : d.name = x <;> simp [insert.insertInto, h]
    | cons f l ih =>
      rw [insert.insertInto]
      by_cases hf : f.name = d.name
      · rw [if_pos hf]
        by_cases h : d.name = x
        · simp [h]
        · simp [hf, h]
      · rw [if_neg hf]
        by_cases h : d.name = x
        · have : f.name ≠ x := fun e => hf (e.trans h.symm)
          simp only [List.find?_cons, this, decide_false, ih, if_pos h]
        · simp only [List.find?_cons, ih, if_neg h]
  exact this _

theorem contains_insert (r : Registry) (d : MacroDefinition) (x : String) :
    (r.insert d).contains x = (decide (d.name = x) || r.contains x) := by
  rw [contains, contains, find?_insert]
  by_cases h : d.name = x <;> simp [h]

theorem le_insert (r : Registry) (d : MacroDefinition) : r ≤ r.insert d := by
  intro x hx
  rw [contains_insert, hx, Bool.or_true]

end Registry

/-! ## Regular definitions -/

/-- The rules and the template are regular. -/
structure MacroDefinition.Regular (S : Scope) (d : MacroDefinition) : Prop where
  rules : ∀ r ∈ d.rules, r.Holder S
  template : ∀ q, d.template = some q → q.Holder S

theorem MacroDefinition.Regular.mono {S S' : Scope} {d : MacroDefinition} (h : d.Regular S)
    (le : S ≤ S') : d.Regular S' :=
  ⟨fun r hr => (h.rules r hr).mono le, fun q hq => (h.template q hq).mono le⟩

namespace Registry

/-- What is read from a text: its macros are known, and no call is deferred. -/
def scope (r : Registry) : Scope := ⟨fun x => r.contains x = true, fun _ => False⟩

theorem scope_le {r r' : Registry} (le : r ≤ r') : r.scope ≤ r'.scope := ⟨le, fun _ h => h⟩

/-- Nothing but what has been read from texts is registered. -/
def Regular (r : Registry) : Prop := ∀ d ∈ r.macros, d.Regular r.scope

theorem Regular.insert {r : Registry} {d : MacroDefinition} (h : r.Regular)
    (hd : d.Regular r.scope) : (r.insert d).Regular := by
  intro e he
  rcases mem_insert he with rfl | he
  · exact hd.mono (scope_le (r.le_insert _))
  · exact (h e he).mono (scope_le (r.le_insert _))

end Registry

/-! ## Reports -/

namespace Work

variable {α β : Type}

/-- The work leaves the registry alone and adds to the log, if anything. -/
def OnlyReports (w : Work α) : Prop :=
  ∀ u : UnitState, (w u).2.registry = u.registry ∧ u.log <:+ (w u).2.log

theorem OnlyReports.pure (a : α) : OnlyReports (Pure.pure a) := fun _ => ⟨rfl, List.suffix_rfl⟩

theorem OnlyReports.throw (f : Fault) : OnlyReports (throw f : Work α) :=
  fun _ => ⟨rfl, List.suffix_rfl⟩

theorem OnlyReports.bind {w : Work α} {f : α → Work β} (hw : OnlyReports w)
    (hf : ∀ a, OnlyReports (f a)) : OnlyReports (w >>= f) := by
  intro u
  rw [run_bind]
  obtain ⟨registry, log⟩ := hw u
  rcases h : w u with ⟨_ | a, u'⟩ <;> rw [h] at registry log
  · exact ⟨registry, log⟩
  · exact ⟨(hf a u').1.trans registry, log.trans (hf a u').2⟩

theorem onlyReports_report (e : Event) : OnlyReports (report e) :=
  fun _ => ⟨rfl, List.suffix_cons ..⟩

theorem onlyReports_checkpoint : OnlyReports checkpoint := by
  intro u
  unfold checkpoint
  rw [run_bind, run_get]
  dsimp only
  rcases u.checks with _ | _ | n <;> exact ⟨rfl, List.suffix_rfl⟩

theorem onlyReports_ofExpansion (r : Except ExpansionFault α) : OnlyReports (ofExpansion r) := by
  cases r with
  | ok a => exact .pure a
  | error f => exact .throw _

theorem onlyReports_tokens (source file : String) : OnlyReports (tokens source file) := by
  unfold tokens
  cases tokenize source file with
  | ok tokens => exact (onlyReports_report _).bind fun _ => .pure _
  | error f => exact .throw _

theorem onlyReports_calledMacro (c : MacroCall) : OnlyReports (calledMacro c) := by
  intro u
  unfold calledMacro
  rw [run_bind, run_get]
  dsimp only
  cases u.registry.find? c.name <;> exact ⟨rfl, List.suffix_rfl⟩

theorem onlyReports_expandCall (c : MacroCall) : OnlyReports (expandCall c) := by
  refine (onlyReports_calledMacro c).bind fun d => ?_
  refine (onlyReports_ofExpansion _).bind fun sel => ?_
  refine OnlyReports.bind (fun _ => ⟨rfl, List.suffix_rfl⟩) fun (template, table) => ?_
  refine (onlyReports_ofExpansion _).bind fun node => ?_
  dsimp only
  split
  · exact (onlyReports_report _).bind fun _ => (onlyReports_report _).bind fun _ => .pure _
  · exact (onlyReports_report _).bind fun _ => .pure _

end Work

theorem Work.register_run (d : MacroDefinition) (u : UnitState) :
    ∃ warnings, register d u = (.ok (), { u with
      registry := u.registry.insert d
      log := .macroRegistered d.name d.phase d.hygiene :: (warnings ++ u.log) }) := by
  unfold register
  rw [run_bind, run_get]
  dsimp only
  cases u.registry.find? d.name with
  | none => exact ⟨[], rfl⟩
  | some previous =>
    dsimp only
    by_cases h : previous.span ≠ d.span
    · rw [if_pos h]
      exact ⟨[.macroRedefined d.name d.span previous.span], rfl⟩
    · rw [if_neg h]
      exact ⟨[], rfl⟩

end GlyphScript
