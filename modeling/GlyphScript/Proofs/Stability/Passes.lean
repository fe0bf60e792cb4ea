import GlyphScript.Proofs.Safety.Pass
import GlyphScript.Proofs.Stability.Orderly

/-!
# Passes over orderly programs

As long as macros inject nothing and none is left to the back end, a pass takes
orderly programs to orderly programs and leaves the macro definitions alone.
-/

namespace GlyphScript

open Node (Yields)

/-- The macro is expanded in passes and injects nothing, and its templates are sorted and clean. -/
structure MacroDefinition.Ordinary (d : MacroDefinition) : Prop where
  sorted : d.Sorted
  clean : d.Clean
  phase : d.phase = .expand
  hygiene : d.hygiene ≠ .inject

/-- The registry is as given, and symbols are separated by a percent sign. -/
structure UnitState.Ready (r : Registry) (u : UnitState) : Prop where
  registry : u.registry = r
  percent : u.gensym.separator = "%"

/-- No names have been injected. -/
def PassState.Uninjected (q : PassState) : Prop := ∀ scope ∈ q.scopes, scope = []

namespace PassM

variable {α β : Type} {r : Registry}

/-- What results of computations that inject nothing and only report to the unit. -/
def orderly (r : Registry) : Guarantee PassM where
  holds x p := ∀ q u a q' u', q.Uninjected → u.Ready r → Ends x q u a q' u' →
    q'.Uninjected ∧ u'.Ready r ∧ u.log <:+ u'.log ∧ p a
  pure h q u a q' u' hq hu run := by
    obtain ⟨rfl, rfl, rfl⟩ := ends_pure.mp run
    exact ⟨hq, hu, List.suffix_rfl, h⟩
  bind hx hf q u b q'' u'' hq hu run := by
    obtain ⟨a, q', u', first, second⟩ := ends_bind.mp run
    obtain ⟨hq', hu', log, ha⟩ := hx q u a q' u' hq hu first
    obtain ⟨hq'', hu'', log', hb⟩ := hf a ha q' u' b q'' u'' hq' hu' second
    exact ⟨hq'', hu'', log.trans log', hb⟩

theorem orderly_work {w : Work α} {p : α → Prop} (h : ∀ u a u', u.Ready r → w u = (.ok a, u') →
    u'.Ready r ∧ u.log <:+ u'.log ∧ p a) : (orderly r).holds (liftM w) p := by
  intro q u a q' u' hq hu ends
  obtain ⟨run, rfl⟩ := ends_work.mp ends
  obtain ⟨hu', log, ha⟩ := h u a u' hu run
  exact ⟨hq, hu', log, ha⟩

theorem orderly_modify {f : PassState → PassState} (h : ∀ q, q.Uninjected → (f q).Uninjected) :
    (orderly r).holds (modify f : PassM Unit) fun _ => True := by
  intro q u a q' u' hq hu run
  cases run
  exact ⟨h q hq, hu, List.suffix_rfl, trivial⟩

/-! ## Scopes -/

theorem orderly_openScope : (orderly r).holds openScope fun _ => True :=
  orderly_modify fun _ hq => List.forall_mem_cons.mpr ⟨rfl, hq⟩

theorem orderly_closeScope : (orderly r).holds closeScope (· = []) := by
  intro q u names q' u' hq hu run
  obtain ⟨scopes, opened, rfl, rfl⟩ := closeScope_ends.mp run
  unfold PassState.Uninjected at hq
  rw [opened] at hq
  obtain ⟨none, others⟩ := List.forall_mem_cons.mp hq
  exact ⟨others, hu, List.suffix_rfl, none⟩

theorem orderly_inject : (orderly r).holds (inject []) fun _ => True := by
  refine orderly_modify fun q hq => ?_
  split
  · rename_i scope outer opened
    unfold PassState.Uninjected at hq
    rw [opened] at hq
    obtain ⟨rfl, others⟩ := List.forall_mem_cons.mp hq
    exact List.forall_mem_cons.mpr ⟨rfl, others⟩
  · exact hq

theorem orderly_leave (n : Node) : (orderly r).holds (leave n) (· = .one n) := by
  have none (names : List String) : addNames names [] = names := List.append_nil names
  obtain ⟨span, head, slots⟩ := n
  cases head
  case program | block =>
    refine (orderly r).bind orderly_closeScope ?_
    rintro _ rfl
    exact (orderly r).pure (by rw [none]; rfl)
  all_goals exact (orderly r).pure rfl

/-! ## Replacing calls -/

theorem orderly_countReplacement (settings : Settings) (c : MacroCall) :
    (orderly r).holds (countReplacement settings c) fun _ => True := by
  intro q u a q' u' hq hu run
  obtain ⟨rfl, rfl⟩ := countReplacement_ends run
  exact ⟨hq, hu, List.suffix_rfl, trivial⟩

/-- A call is replaced by what it expands to. -/
def Outcome.Clean : Outcome → Prop
  | .deferred => False
  | .expanded e => e.node.OfSort .quoted ∧ e.node.Clean

variable (hr : ∀ d ∈ r.macros, d.Ordinary)

include hr

theorem orderly_replaceCall (settings : Settings) {c : MacroCall} (sorted : c.Sorted)
    (clean : ∀ a ∈ c.args, a.Clean) :
    (orderly r).holds (replaceCall settings c) Outcome.Clean := by
  have called : (orderly r).holds (liftM (Work.calledMacro c)) MacroDefinition.Ordinary := by
    refine orderly_work fun u d u' hu run => ?_
    obtain ⟨found, rfl⟩ := Work.calledMacro_ok.mp run
    rw [hu.registry] at found
    exact ⟨hu, List.suffix_rfl, hr d (List.mem_of_find?_eq_some found)⟩
  refine (orderly r).bind called fun d hd => ?_
  refine (orderly r).bind (orderly_countReplacement settings c) fun _ _ => ?_
  rw [if_neg (by rw [hd.phase]; decide)]
  have expanded : (orderly r).holds (liftM (Work.expandCall c)) fun e =>
      e.injected = [] ∧ e.node.OfSort .quoted ∧ e.node.Clean := by
    refine orderly_work fun u e u' hu run => ?_
    obtain ⟨registry, percent⟩ := hu
    obtain ⟨d, -, found, -, -, injected, kept, -⟩ := Work.expandCall_ok run
    have sorts : u.registry.Sorted := fun d hd => (hr d (registry ▸ hd)).sorted
    obtain ⟨made, percent'⟩ := expandCall_clean run percent
      (fun d hd => (hr d (registry ▸ hd)).clean) clean
    have log := ((Work.onlyReports_expandCall c) u).2
    rw [show Work.expandCall c u = _ from run] at log
    refine ⟨⟨kept.trans registry, percent'⟩, log, ?_, expandCall_sorted sorts sorted run, made⟩
    rw [injected, if_neg (hr d (registry ▸ List.mem_of_find?_eq_some found)).hygiene]
  refine (orderly r).bind expanded fun e he => ?_
  rw [he.1]
  exact (orderly r).bind orderly_inject fun _ _ => (orderly r).pure he.2

theorem orderly_replaceStatement (settings : Settings) {n : Node} (head : n.head = .expressionStmt)
    (none : n.macros = []) {c : MacroCall} (sorted : c.Sorted) (clean : ∀ a ∈ c.args, a.Clean) :
    (orderly r).holds (replaceStatement settings n.span c) n.Yields := by
  refine (orderly r).bind (orderly_replaceCall hr settings sorted clean) fun o ho => ?_
  cases o with
  | deferred => exact ho.elim
  | expanded e =>
    have sort := Expansion.asStatements_sorted ho.1 n.span
    exact (orderly r).pure (.of_clean (.statements head sort) none
      (fun m hm => (sort m hm).sorted) (Expansion.asStatements_clean ho.2 n.span))

theorem orderly_replaceExpression (settings : Settings) {n : Node} {c : MacroCall}
    (calls : n.Calls c) (none : n.macros = []) (sorted : c.Sorted) (clean : ∀ a ∈ c.args, a.Clean) :
    (orderly r).holds (replaceExpression settings c) n.Yields := by
  refine (orderly r).bind (orderly_replaceCall hr settings sorted clean) fun o ho => ?_
  cases o with
  | deferred => exact ho.elim
  | expanded e =>
    have made : (orderly r).holds (liftM (Work.ofExpansion (e.asExpression c)))
        fun m => m.OfSort .expression ∧ m.Clean := by
      refine orderly_work fun u m u' hu run => ?_
      obtain ⟨expression, rfl⟩ := Work.ofExpansion_ok.mp run
      exact ⟨hu, List.suffix_rfl, Expansion.asExpression_sorted ho.1 expression,
        Expansion.asExpression_clean ho.2 expression⟩
    refine (orderly r).bind made fun m hm => (orderly r).pure ?_
    exact .of_clean (.expression calls.expression calls.plain hm.1) none
      (List.forall_mem_singleton.mpr hm.1.sorted) (List.forall_mem_singleton.mpr hm.2)

/-! ## Whole trees -/

theorem orderly_enter (settings : Settings) {n : Node} (hn : n.Orderly) :
    (orderly r).holds (enter settings n)
      (Step.Meets n.Yields fun _ => n.head.isSealed = false) := by
  intro q u step q' u' hq hu run
  cases sealed : n.head.isSealed with
  | true =>
    cases (enter_sealed sealed q u).symm.trans run
    exact ⟨hq, hu, List.suffix_rfl, .self hn⟩
  | false =>
    cases scope : n.head.isScope with
    | true =>
      cases (enter_scope scope q u).symm.trans run
      exact ⟨List.forall_mem_cons.mpr ⟨rfl, hq⟩, hu, List.suffix_rfl, rfl⟩
    | false =>
      rw [Ends, enter_other sealed scope, hu.registry] at run
      refine (?_ : (orderly r).holds _ _) q u step q' u' hq hu run
      split
      · rename_i c statement
        obtain ⟨e, head, slots, pending⟩ := pendingStatement?_eq_some statement
        have calls := MacroCall.calls_of_pending pending
        have he : e.Orderly := hn.child sealed (by rw [Node.children, slots]; exact List.mem_cons_self)
        have clean := he.clean (.inl (of_decide_eq_true calls.expression))
        have none : n.macros = [] := by
          obtain ⟨span, head', slots'⟩ := n
          obtain rfl : head' = .expressionStmt := head
          obtain rfl : slots' = [.one e] := slots
          rw [Node.macros_mk]
          simp [Slot.toList, Head.isMacroDef, clean.macros]
        refine (orderly r).bind (orderly_replaceStatement hr settings head none
          (calls.sorted he.sorted) fun a ha => ?_) fun s hs => (orderly r).pure hs
        exact clean.of_mem_walk (calls.args a ha)
      · rename_i c statement pending
        have calls := MacroCall.calls_of_pending pending
        have clean := hn.clean (.inl (of_decide_eq_true calls.expression))
        refine (orderly r).bind (orderly_replaceExpression hr settings calls clean.macros
          (calls.sorted hn.sorted) fun a ha => ?_) fun s hs => (orderly r).pure hs
        exact clean.of_mem_walk (calls.args a ha)
      · exact (orderly r).pure rfl

/-- A pass puts orderly trees into the places of orderly trees. -/
theorem orderly_transform (settings : Settings) (n : Node) :
    n.Orderly → (orderly r).holds (n.transformM (transform settings) ()) n.Yields := by
  induction n using Node.induction_on with
  | step span head slots ih =>
    intro hn
    rw [Node.transformM]
    refine (orderly r).bind (orderly_enter hr settings hn) fun step hstep => ?_
    cases step with
    | done s => exact (orderly r).pure hstep
    | inside _ =>
      have unsealed : head.isSealed = false := hstep
      have below := (orderly r).transformSlotsM (t := transform settings) (R := Yields)
        fun s hs m hm => ih s hs m hm (hn.child unsealed (List.mem_flatMap.mpr ⟨s, hs, hm⟩))
      refine (orderly r).bind below fun slots' rel => ?_
      refine (orderly r).mono (orderly_leave _) ?_
      rintro _ rfl
      exact .node hn unsealed rel

end PassM

/-! ## Passes -/

namespace Work

variable {settings : Settings} {r : Registry} {n n' : Node} {u u' : UnitState}

theorem checkpoint_ready {a : Unit} (hu : u.Ready r) (h : checkpoint u = (.ok a, u')) :
    u'.Ready r ∧ u.log <:+ u'.log := by
  unfold checkpoint at h
  rw [run_bind, run_get] at h
  dsimp only at h
  rcases hc : u.checks with _ | _ | k <;> rw [hc] at h <;> cases h
  · exact ⟨hu, List.suffix_rfl⟩
  · exact ⟨⟨hu.registry, hu.percent⟩, List.suffix_rfl⟩

/-- A pass keeps a program orderly, and the definitions in it. -/
theorem pass_orderly (hr : ∀ d ∈ r.macros, d.Ordinary) (hn : n.Orderly)
    (program : n.head.isProgram = true) {c : Option MacroCall} (hu : u.Ready r)
    (run : pass settings n u = (.ok (n', c), u')) :
    n'.Orderly ∧ n'.head.isProgram = true ∧ n'.macros = n.macros ∧ u'.Ready r ∧
      u.log <:+ u'.log := by
  unfold pass at run
  obtain ⟨⟨s, q⟩, u₁, transformed, run⟩ := bind_ok.mp run
  obtain ⟨-, ⟨registry, percent⟩, log, yields⟩ := PassM.orderly_transform hr settings n hn
    ⟨0, none, []⟩ u s q u₁ (List.forall_mem_nil _) hu transformed
  obtain ⟨m, rfl, made⟩ : ∃ m, s = .one m ∧ m.head.isProgram = true := by
    cases yields.way with
    | one sorted stands => exact ⟨_, rfl, stands.program program⟩
    | statements head =>
      rw [head] at program
      cases program
  have orderly := yields.orderly m List.mem_cons_self
  have macros : m.macros = n.macros := by
    rw [← yields.macros, Slot.toList, List.flatMap_singleton]
  obtain ⟨state, u₂, got, run⟩ := bind_ok.mp run
  obtain ⟨_, u₃, reported, run⟩ := bind_ok.mp run
  cases got
  cases reported
  have log : u.log <:+ .passDone (u₁.progress.iterations + 1) q.replacements :: u₁.log :=
    log.trans (List.suffix_cons ..)
  dsimp only at run
  split at run
  · cases run
    exact ⟨orderly, made, macros, ⟨registry, percent⟩, log⟩
  · cases run
    exact ⟨orderly, made, macros, ⟨registry, percent⟩, log⟩

/-- So do all passes together. -/
theorem settle_orderly (hr : ∀ d ∈ r.macros, d.Ordinary) {k : Nat} (hn : n.Orderly)
    (program : n.head.isProgram = true) (hu : u.Ready r)
    (run : settle settings k n u = (.ok n', u')) :
    n'.Orderly ∧ n'.head.isProgram = true ∧ n'.macros = n.macros ∧ u.log <:+ u'.log := by
  induction k generalizing n u with
  | zero =>
    rw [settle] at run
    obtain ⟨_, u₁, checked, run⟩ := bind_ok.mp run
    obtain ⟨⟨m, c⟩, u₂, passed, run⟩ := bind_ok.mp run
    obtain ⟨hu₁, log₁⟩ := checkpoint_ready hu checked
    obtain ⟨orderly, made, macros, -, log₂⟩ := pass_orderly hr hn program hu₁ passed
    cases c with
    | none =>
      cases run
      exact ⟨orderly, made, macros, log₁.trans log₂⟩
    | some c => cases run
  | succ k ih =>
    rw [settle] at run
    obtain ⟨_, u₁, checked, run⟩ := bind_ok.mp run
    obtain ⟨⟨m, c⟩, u₂, passed, run⟩ := bind_ok.mp run
    obtain ⟨hu₁, log₁⟩ := checkpoint_ready hu checked
    obtain ⟨orderly, made, macros, hu₂, log₂⟩ := pass_orderly hr hn program hu₁ passed
    cases c with
    | none =>
      cases run
      exact ⟨orderly, made, macros, log₁.trans log₂⟩
    | some c =>
      obtain ⟨orderly', made', macros', log₃⟩ := ih orderly made hu₂ run
      exact ⟨orderly', made', macros'.trans macros, log₁.trans (log₂.trans log₃)⟩

end Work

end GlyphScript
