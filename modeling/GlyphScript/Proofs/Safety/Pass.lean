import GlyphScript.Proofs.Macro.Pass
import GlyphScript.Proofs.Safety.Faults

/-!
# Expanding sorted programs

A pass opens a scope where it goes into a body and leaves it where it comes out,
so the scope it leaves is there. It puts into every place what may stand there,
hence passes take sorted programs to sorted programs and end with documented
faults only.
-/

namespace GlyphScript

/-! ## Scopes -/

namespace PassM

variable {α β : Type} {k : Nat}

/-- What results of computations around which `k` scopes are open. -/
def proper (k : Nat) : Guarantee PassM where
  holds x p := ∀ q : PassState, q.scopes.length = k →
    Work.proper.holds (x q) fun (a, q') => q'.scopes.length = k ∧ p a
  pure h _ hq := Work.proper.pure ⟨hq, h⟩
  bind hx hf q hq := Work.proper.bind (hx q hq) fun (a, q') ⟨hq', ha⟩ => hf a ha q' hq'

theorem proper_work {w : Work α} {p : α → Prop} (h : Work.proper.holds w p) :
    (proper k).holds (liftM w) p := fun _ hq =>
  Work.proper.bind h fun _ ha => Work.proper.pure ⟨hq, ha⟩

theorem proper_modify {f : PassState → PassState}
    (h : ∀ q, (f q).scopes.length = q.scopes.length) :
    (proper k).holds (modify f : PassM Unit) fun _ => True := fun q hq =>
  Work.proper.pure ⟨(h q).trans hq, trivial⟩

theorem proper_inject (names : List String) : (proper k).holds (inject names) fun _ => True := by
  refine proper_modify fun q => ?_
  split
  · rename_i scope outer open'
    rw [open']
    rfl
  · rfl

/-- Between opening and leaving a scope one more is open. -/
theorem proper_scoped {x : PassM α} {f : α → List String → PassM β} {p : α → Prop} {p' : β → Prop}
    (hx : (proper (k + 1)).holds x p) (hf : ∀ a names, p a → (proper k).holds (f a names) p') :
    (proper k).holds (openScope >>= fun _ => x >>= fun a => closeScope >>= f a) p' := by
  intro q hq u hu
  refine (hx { q with scopes := [] :: q.scopes } (congrArg (· + 1) hq) u hu).bind ?_
  rintro ⟨a, ⟨replacements, last, scopes⟩⟩ u' hu' ⟨hs, ha⟩
  obtain ⟨names, scopes, rfl⟩ := List.exists_cons_of_length_eq_add_one hs
  exact hf a names ha ⟨replacements, last, scopes⟩ (Nat.succ.inj hs) u' hu'

/-! ## Replacing calls -/

theorem proper_countReplacement (settings : Settings) (c : MacroCall) :
    (proper k).holds (countReplacement settings c) fun _ => True := by
  intro q hq u hu
  unfold countReplacement
  show Proper _ _ ((if _ then _ else _ : PassM Unit) _ u)
  split
  · exact .fault (by trivial) hu
  · exact .ok hu ⟨hq, trivial⟩

/-- What a sorted call is replaced by. -/
def Outcome.Sorted : Outcome → Prop
  | .deferred => True
  | .expanded e => e.node.OfSort .quoted

theorem proper_replaceCall (settings : Settings) {c : MacroCall} (hc : c.Sorted) :
    (proper k).holds (replaceCall settings c) Outcome.Sorted := by
  refine (proper k).bind (proper_work (Work.proper_calledMacro c)) fun d _ => ?_
  refine (proper k).bind (proper_countReplacement settings c) fun _ _ => ?_
  split
  · exact (proper k).pure trivial
  · refine (proper k).bind (proper_work (Work.proper_expandCall hc)) fun e he => ?_
    exact (proper k).bind (proper_inject _) fun _ _ => (proper k).pure he

theorem deferredNode_ofSort {c : MacroCall} (hc : c.Sorted) : c.deferredNode.OfSort .expression :=
  ⟨Node.sorted_mk.mpr (.cons (.of_many hc) .nil), rfl⟩

theorem proper_replaceStatement (settings : Settings) {n : Node} (hn : n.head = .expressionStmt)
    {c : MacroCall} (hc : c.Sorted) :
    (proper k).holds (replaceStatement settings n.span c) n.GivesWay := by
  refine (proper k).bind (proper_replaceCall settings hc) fun o ho => ?_
  cases o with
  | deferred =>
    have stmt := Node.ofSort_expressionStmt n.span (deferredNode_ofSort hc)
    refine (proper k).pure (.one stmt.sorted ?_)
    rw [hn]
    exact .refl _
  | expanded e => exact (proper k).pure (.statements hn (Expansion.asStatements_sorted ho n.span))

theorem proper_replaceExpression (settings : Settings) {n : Node} {c : MacroCall}
    (calls : n.Calls c) (hc : c.Sorted) :
    (proper k).holds (replaceExpression settings c) n.GivesWay := by
  have gives {m : Node} (hm : m.OfSort .expression) : n.GivesWay (.one m) :=
    .expression calls.expression calls.plain hm
  refine (proper k).bind (proper_replaceCall settings hc) fun o ho => ?_
  cases o with
  | deferred => exact (proper k).pure (gives (deferredNode_ofSort hc))
  | expanded e =>
    refine (proper k).bind (proper_work (Work.proper_ofExpansion fun m hm =>
      Expansion.asExpression_sorted ho hm)) fun m hm => ?_
    exact (proper k).pure (gives hm)

/-! ## Whole trees -/

theorem proper_enter (settings : Settings) {n : Node} (hn : n.Sorted) (hh : n.head.isScope = false) :
    (proper k).holds (enter settings n) (Step.Meets n.GivesWay fun _ => True) := by
  intro q hq u hu
  cases hs : n.head.isSealed with
  | true =>
    rw [show enter settings n q u = _ from enter_sealed hs q u]
    exact .ok hu ⟨hq, .self hn⟩
  | false =>
    rw [enter_other hs hh]
    refine (?_ : (proper k).holds _ _) q hq u hu
    split
    · rename_i c statement
      obtain ⟨e, head, slots, pending⟩ := pendingStatement?_eq_some statement
      have he : e.Sorted := hn.of_mem_walk
        (Node.mem_walk_child (s := .one e) (slots ▸ List.mem_cons_self) List.mem_cons_self)
      have hc := (MacroCall.calls_of_pending pending).sorted he
      exact (proper k).bind (proper_replaceStatement settings head hc) fun s hs =>
        (proper k).pure hs
    · rename_i c statement pending
      have calls := MacroCall.calls_of_pending pending
      exact (proper k).bind (proper_replaceExpression settings calls (calls.sorted hn)) fun s hs =>
        (proper k).pure hs
    · exact (proper k).pure trivial

/-- A pass puts into the place of a tree what may stand there. -/
theorem proper_transform (settings : Settings) (n : Node) : ∀ k, n.Sorted →
    (proper k).holds (n.transformM (transform settings) ()) n.GivesWay := by
  induction n using Node.induction_on with
  | step span head slots ih =>
    intro k hn
    have below (k : Nat) : (proper k).holds (Node.transformSlotsM (transform settings) () slots)
        (List.Forall₂ (Guarantee.Filled id fun n s => n.Sorted → n.GivesWay s) slots) :=
      (proper k).transformSlotsM fun s hs n hm => by
        obtain ⟨f, -, sort⟩ := hn.child hs hm
        exact (proper k).mono (ih s hs n hm k sort.sorted) fun _ h _ => h
    cases hh : head.isScope with
    | true =>
      cases head
      case program | block =>
        refine proper_scoped (below (k + 1)) fun slots' names rel => ?_
        exact (proper k).pure (.node ⟨rfl, fun c => by cases c <;> exact id, id⟩ rel hn)
      all_goals cases hh
    | false =>
      rw [Node.transformM]
      refine (proper k).bind (proper_enter settings hn hh) fun step hstep => ?_
      cases step with
      | done s => exact (proper k).pure hstep
      | inside _ =>
        refine (proper k).bind (below k) fun slots' rel => ?_
        have same : (transform settings).leave () (.mk span head slots') =
            pure (.one (.mk span head slots')) := by
          cases head <;> first | rfl | cases hh
        rw [same]
        exact (proper k).pure (.node (.refl head) rel hn)

end PassM

/-! ## Passes -/

/-- A sorted tree that is a whole program. -/
structure Node.SortedProgram (n : Node) : Prop where
  sorted : n.Sorted
  program : n.head.isProgram = true

namespace Work

variable {n : Node}

theorem proper_pass (settings : Settings) (hn : n.SortedProgram) :
    proper.holds (pass settings n) fun (m, _) => m.SortedProgram := by
  refine proper.bind (PassM.proper_transform settings n 0 hn.sorted ⟨0, none, []⟩ rfl) ?_
  rintro ⟨slot, p⟩ ⟨-, gives⟩
  obtain ⟨m, rfl, hm⟩ : ∃ m, slot = .one m ∧ m.SortedProgram := by
    cases gives with
    | one sorted stands => exact ⟨_, rfl, sorted, stands.program hn.program⟩
    | statements head =>
      have := hn.program
      rw [head] at this
      cases this
  refine proper.bind proper_get fun u _ => proper.bind (proper_report _) fun _ _ => ?_
  dsimp only
  split
  · exact proper.bind (proper_modify fun _ hu => hu) fun _ _ => proper.pure hm
  · exact proper.pure hm

theorem proper_settle (settings : Settings) (remaining : Nat) (hn : n.SortedProgram) :
    proper.holds (settle settings remaining n) Node.SortedProgram := by
  induction remaining generalizing n with
  | zero =>
    rw [settle]
    refine proper.bind proper_checkpoint fun _ _ => proper.bind (proper_pass settings hn) ?_
    rintro ⟨m, _ | c⟩ hm
    · exact proper.pure hm
    · exact proper_throw (by trivial)
  | succ remaining ih =>
    rw [settle]
    refine proper.bind proper_checkpoint fun _ _ => proper.bind (proper_pass settings hn) ?_
    rintro ⟨m, _ | c⟩ hm
    · exact proper.pure hm
    · exact ih hm

/-- Expanding a sorted program gives a sorted program, or ends with a documented fault. -/
theorem proper_expand (settings : Settings) (hn : n.SortedProgram) :
    proper.holds (expand settings n) Node.SortedProgram :=
  proper.bind (proper_registerMissing hn.sorted) fun _ _ =>
    proper.bind (proper_modify fun _ hu => hu) fun _ _ => proper_settle settings _ hn

end Work

end GlyphScript
