import GlyphScript.Compilation
import GlyphScript.Proofs.Macro.Fixpoint
import GlyphScript.Proofs.Simulation

/-!
# The limits of the expansion

Without its two limits the expansion of a program is a loop that may go on for
ever. The limits cut it off, and do nothing else: an expansion that the loop
comes to within the limits is what expansion gives, and all that is beyond
them is reported as not coming to an end.
-/

namespace GlyphScript

/-! ## Passes without a budget -/

namespace PassM

/-- Counts a call about to be replaced, however many there have been. -/
def tally (c : MacroCall) : PassM Unit :=
  modify fun p => { p with replacements := p.replacements + 1, last := some c }

section
variable (count : MacroCall → PassM Unit)

/-- As `replaceCall`, with the calls counted in another way. -/
def replaceCallWith (c : MacroCall) : PassM Outcome := do
  let definition ← Work.calledMacro c
  count c
  if definition.phase = .compile then return .deferred
  let expansion ← Work.expandCall c
  inject expansion.injected
  return .expanded expansion

def replaceStatementWith (span : Span) (c : MacroCall) : PassM (Slot Node) := do
  match ← replaceCallWith count c with
  | .deferred => return .one (Node.expressionStmt span c.deferredNode)
  | .expanded e => return .many (e.asStatements span)

def replaceExpressionWith (c : MacroCall) : PassM (Slot Node) := do
  match ← replaceCallWith count c with
  | .deferred => return .one c.deferredNode
  | .expanded e => return .one (← Work.ofExpansion (e.asExpression c))

def enterWith (n : Node) : PassM (Step Unit (Slot Node)) := do
  let registry := (← getThe UnitState).registry
  match n.head with
  | .macroDef .. | .quote | .macroCall _ true => return .done (.one n)
  | .program _ | .block _ =>
    openScope
    return .inside ()
  | _ =>
    match pendingStatement? registry n, MacroCall.pending? registry n with
    | some c, _ => return .done (← replaceStatementWith count n.span c)
    | none, some c => return .done (← replaceExpressionWith count c)
    | none, none => return .inside ()

def transformWith : Transform PassM Unit (Slot Node) where
  enter _ n := enterWith count n
  leave _ n := leave n
  toSlot := id

end

/-- The budget of a pass is kept where its calls are counted, and nowhere else. -/
theorem transform_eq (settings : Settings) :
    transform settings = transformWith (countReplacement settings) := rfl

/-! ## What a budget changes -/

variable {α : Type} {B : Nat}

/-- The computation comes to more calls than the budget allows. -/
def OverBudget (B : Nat) (x : PassM α) (q : PassState) (u : UnitState) : Prop :=
  ∃ (c : MacroCall) (u' : UnitState),
    x q u = (.error (.expansion (.nonTermination c.name c.span B .replacements)), u')

/-- Where a computation ends that keeps no budget, the computation `x`, which keeps the budget
`B`, ends in the same way or is over the budget. -/
structure Within (B : Nat) (x : PassM α) (q : PassState) (u : UnitState) (a : α) (q' : PassState)
    (u' : UnitState) : Prop where
  progress : u'.progress = u.progress
  counted : q.replacements ≤ q'.replacements
  noted : (q.last = none ↔ q.replacements = 0) → (q'.last = none ↔ q'.replacements = 0)
  inside : u.progress.replacements + q'.replacements ≤ B → Ends x q u a q' u'
  beyond : u.progress.replacements + q.replacements ≤ B →
    B < u.progress.replacements + q'.replacements → OverBudget B x q u

/-- The same computation with the budget `B` and without any. -/
def budgeted (B : Nat) : Simulation PassM where
  rel x y := ∀ q u a q' u',
    (Ends x q u a q' u' → Ends y q u a q' u') ∧ (Ends y q u a q' u' → Within B x q u a q' u')
  pure a q u b q' u' := by
    refine ⟨id, fun e => ?_⟩
    obtain ⟨rfl, rfl, rfl⟩ := ends_pure.mp e
    exact ⟨rfl, Nat.le_refl _, id, fun _ => e, fun inside beyond => absurd inside (Nat.not_le.mpr beyond)⟩
  bind {_ _ x y f g} hx hf q u b q'' u'' := by
    refine ⟨fun e => ?_, fun e => ?_⟩
    · obtain ⟨a, q', u', ex, ef⟩ := ends_bind.mp e
      exact ends_bind.mpr ⟨a, q', u', (hx _ _ _ _ _).1 ex, (hf a _ _ _ _ _).1 ef⟩
    · obtain ⟨a, q', u', ey, eg⟩ := ends_bind.mp e
      have first := (hx _ _ _ _ _).2 ey
      have second := (hf a _ _ _ _ _).2 eg
      refine ⟨second.progress.trans first.progress, Nat.le_trans first.counted second.counted,
        second.noted ∘ first.noted, fun inside => ?_, fun inside beyond => ?_⟩
      · have enough := second.counted
        rw [← first.progress] at inside
        refine ends_bind.mpr ⟨a, q', u', first.inside ?_, second.inside inside⟩
        rw [← first.progress]
        omega
      · rcases Nat.lt_or_ge B (u.progress.replacements + q'.replacements) with excess | within
        · obtain ⟨c, u₁, fails⟩ := first.beyond inside excess
          refine ⟨c, u₁, ?_⟩
          show ((x q >>= fun r => f r.1 r.2) : Work _) u = _
          rw [run_bind, fails]
        · have ex := first.inside within
          rw [← first.progress] at within beyond
          obtain ⟨c, u₁, fails⟩ := second.beyond within beyond
          refine ⟨c, u₁, ?_⟩
          show ((x q >>= fun r => f r.1 r.2) : Work _) u = _
          rw [run_bind, show x q u = _ from ex]
          exact fails

/-- A computation that counts no call. -/
theorem budgeted_self {x : PassM α} (h : ∀ q u a q' u', Ends x q u a q' u' →
      u'.progress = u.progress ∧ q'.replacements = q.replacements ∧ q'.last = q.last) :
    (budgeted B).rel x x := by
  intro q u a q' u'
  refine ⟨id, fun e => ?_⟩
  obtain ⟨progress, counted, last⟩ := h q u a q' u' e
  refine ⟨progress, Nat.le_of_eq counted.symm, ?_, fun _ => e, fun inside beyond => ?_⟩
  · rw [last, counted]
    exact id
  · rw [counted] at beyond
    exact absurd inside (Nat.not_le.mpr beyond)

theorem budgeted_work {w : Work α} (h : ∀ u a u', w u = (.ok a, u') → u'.progress = u.progress) :
    (budgeted B).rel (liftM w : PassM α) (liftM w) := by
  refine budgeted_self fun q u a q' u' e => ?_
  obtain ⟨run, rfl⟩ := ends_work.mp e
  exact ⟨h u a u' run, rfl, rfl⟩

theorem budgeted_modify {f : PassState → PassState}
    (h : ∀ q, (f q).replacements = q.replacements ∧ (f q).last = q.last) :
    (budgeted B).rel (modify f : PassM Unit) (modify f) := by
  refine budgeted_self fun q u a q' u' e => ?_
  cases e
  exact ⟨rfl, h q⟩

variable (settings : Settings)

/-- This is where the budget is kept. -/
theorem budgeted_count (c : MacroCall) :
    (budgeted settings.maxReplacements).rel (countReplacement settings c) (tally c) := by
  intro q u a q' u'
  have kept : countReplacement settings c q u =
      (if settings.maxReplacements < u.progress.replacements + q.replacements + 1 then
        (.error (.expansion
          (.nonTermination c.name c.span settings.maxReplacements .replacements)), u)
      else (.ok ((), { q with replacements := q.replacements + 1, last := some c }), u)) := by
    show (if _ then _ else _ : PassM Unit) _ _ = _
    split <;> rfl
  refine ⟨fun e => ?_, fun e => ?_⟩
  · obtain ⟨rfl, rfl⟩ := countReplacement_ends e
    rfl
  · cases e
    refine ⟨rfl, Nat.le_succ _, fun _ => ?_, fun inside => ?_, fun _ beyond => ?_⟩
    · exact iff_of_false (Option.some_ne_none c) (Nat.succ_ne_zero _)
    · exact kept.trans (if_neg (Nat.not_lt.mpr inside))
    · exact ⟨c, u, kept.trans (if_pos beyond)⟩

theorem budgeted_replaceCall (c : MacroCall) : (budgeted settings.maxReplacements).rel
    (replaceCallWith (countReplacement settings) c) (replaceCallWith tally c) := by
  refine (budgeted _).bind (budgeted_work fun u a u' run => ?_) fun d => ?_
  · rw [(Work.calledMacro_ok.mp run).2]
  · refine (budgeted _).bind (budgeted_count settings c) fun _ => ?_
    split
    · exact (budgeted _).pure _
    · refine (budgeted _).bind (budgeted_work fun u a u' run => ?_) fun e => ?_
      · obtain ⟨-, -, -, -, -, -, -, -, progress, -⟩ := Work.expandCall_ok run
        exact progress
      · refine (budgeted _).bind (budgeted_modify fun q => ?_) fun _ => (budgeted _).pure _
        split <;> exact ⟨rfl, rfl⟩

theorem budgeted_enter (n : Node) : (budgeted settings.maxReplacements).rel
    (enterWith (countReplacement settings) n) (enterWith tally n) := by
  have statement (span : Span) (c : MacroCall) : (budgeted settings.maxReplacements).rel
      (replaceStatementWith (countReplacement settings) span c)
      (replaceStatementWith tally span c) := by
    refine (budgeted _).bind (budgeted_replaceCall settings c) fun o => ?_
    cases o <;> exact (budgeted _).pure _
  have expression (c : MacroCall) : (budgeted settings.maxReplacements).rel
      (replaceExpressionWith (countReplacement settings) c) (replaceExpressionWith tally c) := by
    refine (budgeted _).bind (budgeted_replaceCall settings c) fun o => ?_
    cases o with
    | deferred => exact (budgeted _).pure _
    | expanded e =>
      refine (budgeted _).bind (budgeted_work fun u a u' run => ?_) fun m => (budgeted _).pure _
      rw [(Work.ofExpansion_ok.mp run).2]
  refine (budgeted _).bind (budgeted_self fun q u a q' u' e => ?_) fun state => ?_
  · cases e
    exact ⟨rfl, rfl, rfl⟩
  · dsimp only
    split
    iterate 3 exact (budgeted _).pure _
    iterate 2
      exact (budgeted _).bind (budgeted_modify fun q => ⟨rfl, rfl⟩) fun _ => (budgeted _).pure _
    split
    · exact (budgeted _).bind (statement _ _) fun _ => (budgeted _).pure _
    · exact (budgeted _).bind (expression _) fun _ => (budgeted _).pure _
    · exact (budgeted _).pure _

theorem budgeted_leave (n : Node) : (budgeted B).rel (leave n) (leave n) := by
  have close : (budgeted B).rel closeScope closeScope := by
    refine budgeted_self fun q u a q' u' e => ?_
    obtain ⟨_, -, rfl, rfl⟩ := closeScope_ends.mp e
    exact ⟨rfl, rfl, rfl⟩
  unfold leave
  split
  iterate 2 exact (budgeted _).bind close fun _ => (budgeted _).pure _
  exact (budgeted _).pure _

/-- A pass with a budget is the pass without, or it is over the budget. -/
theorem budgeted_transform (n : Node) : (budgeted settings.maxReplacements).rel
    (n.transformM (transform settings) ()) (n.transformM (transformWith tally) ()) := by
  rw [transform_eq]
  apply Simulation.transformM
  · exact fun _ n => budgeted_enter settings n
  · exact fun _ n => budgeted_leave n
  · rfl

end PassM

/-! ## The loop without limits -/

/-- The state after a pass that replaced `m` calls. -/
def UnitState.afterPass (u : UnitState) (m : Nat) : UnitState :=
  { u with
    log := .passDone (u.progress.iterations + 1) m :: u.log
    progress := if m = 0 then u.progress
      else ⟨u.progress.iterations + 1, u.progress.replacements + m⟩ }

/-- The expansion has gone beyond one of the limits. -/
def Fault.ExceedsLimits (settings : Settings) (fault : Fault) : Prop :=
  ∃ name span,
    fault = .expansion (.nonTermination name span settings.maxIterations .iterations) ∨
    fault = .expansion (.nonTermination name span settings.maxReplacements .replacements)

namespace Work

/-- As `pass`, with the calls counted in another way. -/
def passWith (count : MacroCall → PassM Unit) (program : Node) : Work (Node × PassState) := do
  let (slot, p) ← (program.transformM (PassM.transformWith count) ()).run ⟨0, none, []⟩
  report (.passDone ((← get).progress.iterations + 1) p.replacements)
  if p.replacements ≠ 0 then
    modify fun s => { s with
      progress := ⟨s.progress.iterations + 1, s.progress.replacements + p.replacements⟩ }
  return (slot.toList.headD program, p)

/-- A turn of the loop without limits: a check for cancellation, and a pass that may replace any
number of calls. This number is given with the program after the pass. -/
def turn (program : Node) : Work (Node × Nat) := do
  checkpoint
  let (program, p) ← passWith PassM.tally program
  return (program, p.replacements)

/-- The loop without limits takes `k` turns that replace calls, `r` calls in all. -/
inductive Turns : (k r : Nat) → Node → UnitState → Node → UnitState → Prop where
  | none {n u} : Turns 0 0 n u n u
  | turn {k r m n n₁ n' u u₁ u'} : turn n u = (.ok (n₁, m + 1), u₁) → Turns k r n₁ u₁ n' u' →
      Turns (k + 1) (m + 1 + r) n u n' u'

/-- The state in which the loop starts: the program's macros are registered, and nothing is
counted yet. -/
def Started (n : Node) (u u₀ : UnitState) : Prop :=
  ∃ u₁, registerMissing n u = (.ok (), u₁) ∧ u₀ = { u₁ with progress := ⟨0, 0⟩ }

/-- Without limits the expansion of `n` stops with the program `n'`, after `k` passes that
replaced calls, `r` calls in all. -/
def StopsAfter (k r : Nat) (n : Node) (u : UnitState) (n' : Node) (u' : UnitState) : Prop :=
  ∃ u₀ n₁ u₁, Started n u u₀ ∧ Turns k r n u₀ n₁ u₁ ∧ turn n₁ u₁ = (.ok (n', 0), u')

/-- Without limits the expansion of `n` never stops, and no pass of it fails. -/
def NeverStops (n : Node) (u : UnitState) : Prop :=
  ∃ u₀, Started n u u₀ ∧ ∀ k, ∃ r n' u', Turns k r n u₀ n' u'

variable {settings : Settings} {n n' : Node} {u u' : UnitState} {k m r : Nat}

/-! ## Passes and turns -/

theorem passWith_run (count : MacroCall → PassM Unit) (n : Node) (u : UnitState) :
    passWith count n u =
      match n.transformM (PassM.transformWith count) () ⟨0, none, []⟩ u with
      | (.ok (s, p), u₁) => (.ok (s.toList.headD n, p), u₁.afterPass p.replacements)
      | (.error fault, u₁) => (.error fault, u₁) := by
  unfold passWith
  rw [run_bind, StateT.run]
  rcases n.transformM (PassM.transformWith count) () ⟨0, none, []⟩ u
    with ⟨fault | ⟨s, ⟨_ | m, last, scopes⟩⟩, u₁⟩ <;> rfl

theorem pass_run (settings : Settings) (n : Node) (u : UnitState) :
    pass settings n u =
      match passWith (PassM.countReplacement settings) n u with
      | (.ok (n', p), u') => (.ok (n', p.last), u')
      | (.error fault, u') => (.error fault, u') := by
  rw [passWith_run]
  unfold pass
  rw [run_bind, StateT.run, PassM.transform_eq]
  rcases n.transformM (PassM.transformWith (PassM.countReplacement settings)) () ⟨0, none, []⟩ u
    with ⟨fault | ⟨s, ⟨_ | m, last, scopes⟩⟩, u₁⟩ <;> rfl

theorem passWith_ok {count : MacroCall → PassM Unit} {p : PassState} :
    passWith count n u = (.ok (n', p), u') ↔ ∃ s u₁,
      PassM.Ends (n.transformM (PassM.transformWith count) ()) ⟨0, none, []⟩ u s p u₁ ∧
        n' = s.toList.headD n ∧ u' = u₁.afterPass p.replacements := by
  rw [passWith_run]
  unfold PassM.Ends
  constructor
  · intro h
    split at h
    · rename_i s p₁ u₁ transformed
      cases h
      exact ⟨s, u₁, transformed, rfl, rfl⟩
    · cases h
  · rintro ⟨s, u₁, transformed, rfl, rfl⟩
    rw [transformed]

/-- The work fails since a limit is exceeded. -/
def Exceeds {α : Type} (settings : Settings) (w : Work α) (u : UnitState) : Prop :=
  ∃ fault u', w u = (.error fault, u') ∧ fault.ExceedsLimits settings

/-- What the budget makes of a pass that ends without one. -/
theorem pass_of_tally {p : PassState} (h : passWith PassM.tally n u = (.ok (n', p), u'))
    (left : u.progress.replacements ≤ settings.maxReplacements) :
    (p.last = none ↔ p.replacements = 0) ∧
    (u.progress.replacements + p.replacements ≤ settings.maxReplacements →
      pass settings n u = (.ok (n', p.last), u')) ∧
    (settings.maxReplacements < u.progress.replacements + p.replacements →
      Exceeds settings (pass settings n) u) := by
  obtain ⟨s, u₁, transformed, rfl, rfl⟩ := passWith_ok.mp h
  have within := (PassM.budgeted_transform settings n _ _ _ _ _).2 transformed
  refine ⟨within.noted (iff_of_true rfl rfl), fun inside => ?_, fun beyond => ?_⟩
  · have ends := within.inside inside
    rw [PassM.transform_eq] at ends
    rw [pass_run, passWith_ok.mpr ⟨s, u₁, ends, rfl, rfl⟩]
  · obtain ⟨c, u₂, fails⟩ := within.beyond left beyond
    rw [PassM.transform_eq] at fails
    rw [Exceeds, pass_run, passWith_run, fails]
    exact ⟨_, u₂, rfl, c.name, c.span, .inr rfl⟩

theorem tally_of_pass {c : Option MacroCall} (h : pass settings n u = (.ok (n', c), u')) :
    ∃ p, passWith PassM.tally n u = (.ok (n', p), u') := by
  rw [pass_run] at h
  split at h
  · rename_i n₁ p u₁ passed
    cases h
    obtain ⟨s, u₁, transformed, hn, hu⟩ := passWith_ok.mp passed
    rw [← PassM.transform_eq] at transformed
    have free := (PassM.budgeted_transform settings n _ _ _ _ _).1 transformed
    exact ⟨p, passWith_ok.mpr ⟨s, u₁, free, hn, hu⟩⟩
  · cases h

theorem turn_ok : turn n u = (.ok (n', m), u') ↔ ∃ u₁ p, checkpoint u = (.ok (), u₁) ∧
    passWith PassM.tally n u₁ = (.ok (n', p), u') ∧ p.replacements = m := by
  unfold turn
  rw [bind_ok]
  constructor
  · rintro ⟨_, u₁, checked, h⟩
    obtain ⟨⟨n₁, p⟩, u₂, passed, h⟩ := bind_ok.mp h
    cases h
    exact ⟨u₁, p, checked, passed, rfl⟩
  · rintro ⟨u₁, p, checked, passed, rfl⟩
    exact ⟨(), u₁, checked, bind_ok.mpr ⟨_, _, passed, rfl⟩⟩

/-! ## The loop with limits -/

theorem settle_run (remaining : Nat) {u₁ : UnitState} (checked : checkpoint u = (.ok (), u₁)) :
    settle settings remaining n u =
      match pass settings n u₁ with
      | (.ok (n', none), u') => (.ok n', u')
      | (.ok (n', some c), u') =>
        match remaining with
        | 0 =>
          (.error (.expansion
            (.nonTermination c.name c.span settings.maxIterations .iterations)), u')
        | remaining + 1 => settle settings remaining n' u'
      | (.error fault, u') => (.error fault, u') := by
  rw [settle, run_bind, checked]
  dsimp only
  rw [run_bind]
  rcases pass settings n u₁ with ⟨fault | ⟨n', _ | c⟩, u'⟩
  · rfl
  · rfl
  · cases remaining <;> rfl

/-- What the limits make of one turn. -/
theorem settle_turn (settings : Settings) (h : turn n u = (.ok (n', m), u'))
    (left : u.progress.replacements ≤ settings.maxReplacements) :
    (settings.maxReplacements < u.progress.replacements + m →
      ∀ remaining, Exceeds settings (settle settings remaining n) u) ∧
    (u.progress.replacements + m ≤ settings.maxReplacements →
      if m = 0 then ∀ remaining, settle settings remaining n u = (.ok n', u')
      else Exceeds settings (settle settings 0 n) u ∧
        ∀ remaining, settle settings (remaining + 1) n u = settle settings remaining n' u') := by
  obtain ⟨u₁, p, checked, passed, rfl⟩ := turn_ok.mp h
  have same := (checkpoint_ok checked).2
  rw [← same] at left ⊢
  obtain ⟨noted, inside, beyond⟩ := pass_of_tally passed left
  refine ⟨fun excess remaining => ?_, fun enough => ?_⟩
  · obtain ⟨fault, u₂, fails, exceeds⟩ := beyond excess
    refine ⟨fault, u₂, ?_, exceeds⟩
    rw [settle_run remaining checked, fails]
  · have passed := inside enough
    split
    next quiet =>
      intro remaining
      rw [settle_run remaining checked, passed, noted.mpr quiet]
    next busy =>
      obtain ⟨c, last⟩ := Option.ne_none_iff_exists'.mp (mt noted.mp busy)
      rw [last] at passed
      refine ⟨⟨_, u', ?_, c.name, c.span, .inl rfl⟩, fun remaining => ?_⟩
      · rw [settle_run 0 checked, passed]
      · rw [settle_run (remaining + 1) checked, passed]

theorem turn_progress (settings : Settings) (h : turn n u = (.ok (n', m), u')) :
    u'.progress = (u.afterPass m).progress := by
  obtain ⟨u₁, p, checked, passed, rfl⟩ := turn_ok.mp h
  obtain ⟨s, u₂, transformed, -, rfl⟩ := passWith_ok.mp passed
  have within := (PassM.budgeted_transform settings n _ _ _ _ _).2 transformed
  rw [UnitState.afterPass, UnitState.afterPass, within.progress, (checkpoint_ok checked).2]

theorem turns_progress (settings : Settings) (h : Turns k r n u n' u') :
    u'.progress = ⟨u.progress.iterations + k, u.progress.replacements + r⟩ := by
  induction h with
  | none => rfl
  | turn first _ ih =>
    rw [ih, turn_progress settings first, UnitState.afterPass, if_neg (Nat.succ_ne_zero _)]
    simp only [Progress.mk.injEq]
    omega

/-- Turns within the limits are turns of the loop with limits, which fails in a turn beyond. -/
theorem settle_turns (settings : Settings) (h : Turns k r n u n' u') :
    u.progress.replacements ≤ settings.maxReplacements → ∀ remaining,
      (k ≤ remaining → u.progress.replacements + r ≤ settings.maxReplacements →
        settle settings remaining n u = settle settings (remaining - k) n' u') ∧
      (remaining < k ∨ settings.maxReplacements < u.progress.replacements + r →
        Exceeds settings (settle settings remaining n) u) := by
  induction h with
  | none =>
    intro left remaining
    exact ⟨fun _ _ => rfl, fun beyond => absurd beyond (by omega)⟩
  | @turn k r m n n₁ n' u u₁ u' first _ ih =>
    intro left remaining
    have progress := turn_progress settings first
    simp only [UnitState.afterPass, if_neg (Nat.succ_ne_zero m)] at progress
    rw [progress] at ih
    dsimp only at ih
    obtain ⟨beyond, inside⟩ := settle_turn settings first left
    rcases Nat.lt_or_ge settings.maxReplacements (u.progress.replacements + (m + 1))
      with excess | within
    · exact ⟨fun _ enough => absurd enough (by omega), fun _ => beyond excess remaining⟩
    · have next := inside within
      rw [if_neg (Nat.succ_ne_zero m)] at next
      cases remaining with
      | zero => exact ⟨fun few => absurd few (by omega), fun _ => next.1⟩
      | succ remaining =>
        obtain ⟨rest, rest'⟩ := ih within remaining
        rw [Exceeds, next.2 remaining]
        refine ⟨fun few enough => ?_, fun excess => rest' (by omega)⟩
        rw [rest (by omega) (by omega), Nat.add_sub_add_right]

theorem turn_of_pass {u₁ : UnitState} {c : Option MacroCall}
    (checked : checkpoint u = (.ok (), u₁)) (passed : pass settings n u₁ = (.ok (n', c), u'))
    (left : u.progress.replacements ≤ settings.maxReplacements) :
    ∃ m, turn n u = (.ok (n', m), u') ∧ (c = none ↔ m = 0) ∧
      u.progress.replacements + m ≤ settings.maxReplacements := by
  obtain ⟨p, free⟩ := tally_of_pass passed
  rw [← (checkpoint_ok checked).2] at left ⊢
  obtain ⟨noted, inside, beyond⟩ := pass_of_tally free left
  have within : u₁.progress.replacements + p.replacements ≤ settings.maxReplacements := by
    by_contra excess
    obtain ⟨fault, u₂, fails, -⟩ := beyond (Nat.lt_of_not_le excess)
    cases fails.symm.trans passed
  cases (inside within).symm.trans passed
  exact ⟨p.replacements, turn_ok.mpr ⟨u₁, p, checked, free, rfl⟩, noted, within⟩

/-- The loop with limits stops as the loop without, within its limits. -/
theorem turns_of_settle {n n' : Node} {u u' : UnitState} : ∀ {remaining : Nat},
    settle settings remaining n u = (.ok n', u') →
      u.progress.replacements ≤ settings.maxReplacements →
      ∃ k r n₁ u₁, Turns k r n u n₁ u₁ ∧ turn n₁ u₁ = (.ok (n', 0), u') ∧
        k ≤ remaining ∧ u.progress.replacements + r ≤ settings.maxReplacements := by
  intro remaining h left
  rw [settle] at h
  obtain ⟨_, u₁, checked, h⟩ := bind_ok.mp h
  obtain ⟨⟨n₁, c⟩, u₂, passed, h⟩ := bind_ok.mp h
  obtain ⟨m, turned, noted, within⟩ := turn_of_pass checked passed left
  cases c with
  | none =>
    cases h
    rw [noted.mp rfl] at turned
    exact ⟨0, 0, n, u, .none, turned, Nat.zero_le _, left⟩
  | some c =>
    cases remaining with
    | zero => cases h
    | succ remaining =>
      obtain ⟨m, rfl⟩ := Nat.exists_eq_succ_of_ne_zero (mt noted.mpr (Option.some_ne_none c))
      have progress := turn_progress settings turned
      simp only [UnitState.afterPass, if_neg (Nat.succ_ne_zero m)] at progress
      obtain ⟨k, r, n₃, u₃, turns, stopped, few, enough⟩ := turns_of_settle h (by
        rw [progress]
        exact within)
      rw [progress] at enough
      refine ⟨k + 1, m + 1 + r, n₃, u₃, .turn turned turns, stopped, Nat.succ_le_succ few, ?_⟩
      rw [← Nat.add_assoc]
      exact enough

/-! ## Expansion within limits -/

theorem expand_started {u₀ : UnitState} (h : Started n u u₀) :
    (expand settings n).run u = settle settings settings.maxIterations n u₀ := by
  obtain ⟨u₁, registered, rfl⟩ := h
  show expand settings n u = _
  unfold expand
  rw [run_bind, registered]
  dsimp only
  rw [run_bind, run_modify]

theorem registerMissing_run (n : Node) (u : UnitState) :
    ∃ u₁, registerMissing n u = (.ok (), u₁) := by
  unfold registerMissing
  generalize n.walk.filterMap MacroDefinition.ofNode? = ds
  induction ds generalizing u with
  | nil => exact ⟨u, rfl⟩
  | cons d ds ih =>
    rw [List.forM_eq_forM, List.forM_cons, run_bind, run_bind, run_get]
    dsimp only
    cases u.registry.contains d.name with
    | true => exact ih u
    | false =>
      obtain ⟨warnings, registered⟩ := register_run d u
      rw [if_neg Bool.false_ne_true, registered]
      exact ih _

theorem started (n : Node) (u : UnitState) : ∃ u₀, Started n u u₀ := by
  obtain ⟨u₁, registered⟩ := registerMissing_run n u
  exact ⟨_, u₁, registered, rfl⟩

theorem Started.progress {u₀ : UnitState} (h : Started n u u₀) : u₀.progress = ⟨0, 0⟩ := by
  obtain ⟨u₁, -, rfl⟩ := h
  rfl

/-- An expansion that stops without limits is that with limits which allow for it, and with other
limits it exceeds them. -/
theorem expand_of_stopsAfter (settings : Settings) (h : StopsAfter k r n u n' u') :
    (k ≤ settings.maxIterations → r ≤ settings.maxReplacements →
      (expand settings n).run u = (.ok n', u') ∧ u'.progress = ⟨k, r⟩) ∧
    (settings.maxIterations < k ∨ settings.maxReplacements < r →
      Exceeds settings (expand settings n) u) := by
  obtain ⟨u₀, n₁, u₁, started, turns, stopped⟩ := h
  have turned := settle_turns settings turns
  have progress := turns_progress settings turns
  simp only [started.progress, Nat.zero_add] at turned progress
  obtain ⟨within, beyond⟩ := turned (Nat.zero_le _) settings.maxIterations
  rw [← expand_started started] at within
  refine ⟨fun few enough => ?_, fun excess => ?_⟩
  · rw [within few enough]
    have left : u₁.progress.replacements ≤ settings.maxReplacements := by
      rw [progress]
      exact enough
    have last := (settle_turn settings stopped left).2 left
    rw [if_pos rfl] at last
    have same := turn_progress settings stopped
    rw [UnitState.afterPass, if_pos rfl, progress] at same
    exact ⟨last _, same⟩
  · obtain ⟨fault, u₂, fails, exceeds⟩ := beyond excess
    exact ⟨fault, u₂, (expand_started started).trans fails, exceeds⟩

theorem expand_of_neverStops (h : NeverStops n u) : Exceeds settings (expand settings n) u := by
  obtain ⟨u₀, started, endless⟩ := h
  obtain ⟨r, n', u', turns⟩ := endless (settings.maxIterations + 1)
  have fails := (settle_turns settings turns (by
    rw [started.progress]
    exact Nat.zero_le _) settings.maxIterations).2 (.inl (Nat.lt_succ_self _))
  obtain ⟨fault, u₂, fails, exceeds⟩ := fails
  exact ⟨fault, u₂, (expand_started started).trans fails, exceeds⟩

theorem stopsAfter_of_expand (h : (expand settings n).run u = (.ok n', u')) :
    ∃ k r, StopsAfter k r n u n' u' ∧ k ≤ settings.maxIterations ∧ r ≤ settings.maxReplacements := by
  obtain ⟨u₀, started⟩ := started n u
  rw [expand_started started] at h
  have none := started.progress
  obtain ⟨k, r, n₁, u₁, turns, stopped, few, enough⟩ := turns_of_settle h (by
    rw [none]
    exact Nat.zero_le _)
  rw [none, Nat.zero_add] at enough
  exact ⟨k, r, ⟨u₀, n₁, u₁, started, turns, stopped⟩, few, enough⟩

end Work

/-! ## Raising the limits -/

/-- The same settings with room for `i` more passes and `r` more calls. -/
def Settings.raised (s : Settings) (i r : Nat) : Settings :=
  { s with
    maxIterations := s.maxIterations + i
    maxReplacements := s.maxReplacements + r
    iterations_pos := Nat.add_pos_left s.iterations_pos i
    replacements_pos := Nat.add_pos_left s.replacements_pos r }

/-- Settings under which texts are read in the same way. -/
structure Settings.ReadAlike (s s' : Settings) : Prop where
  phase : s.phase = s'.phase
  hygiene : s.hygiene = s'.hygiene
  depth : s.maxParseDepth = s'.maxParseDepth

section

variable {s s' : Settings} (h : s.ReadAlike s')

include h

theorem Nonterminals.upTo_congr (rereading : Rereading) (depth : Nat) :
    upTo s rereading depth = upTo s' rereading depth := by
  have statements (g : Nonterminals) : g.plainStatement s = g.plainStatement s' := by
    have macroDef : g.macroDef s = g.macroDef s' := by
      unfold Nonterminals.macroDef
      rw [h.phase, h.hygiene]
    have production (r : Reserved) : g.statementWith? s r = g.statementWith? s' r := by
      cases r <;> simp only [statementWith?, macroDef]
    unfold plainStatement
    simp only [funext production]
  induction depth with
  | zero => rfl
  | succ depth ih =>
    rw [upTo, upTo, ih]
    unfold readStatement
    rw [statements]

theorem Nonterminals.here_congr (rereading : Rereading) :
    here s rereading = here s' rereading := by
  unfold here
  simp only [upTo_congr h]

theorem Rereading.upTo_congr (remaining : Nat) : upTo s remaining = upTo s' remaining := by
  induction remaining with
  | zero =>
    rw [upTo, upTo]
    unfold upTo.tooMany
    rw [h.depth]
  | succ remaining ih =>
    rw [upTo, upTo, ih, Parser.expressionWith, Parser.expressionWith, Parser.statementsWith,
      Parser.statementsWith, Nonterminals.here_congr h, h.depth]

/-- The parser looks at no other settings. -/
theorem Parser.program_congr : program s = program s' := by
  rw [program, program, programWith, programWith, Nonterminals.here_congr h, Rereading.within,
    Rereading.within, Rereading.upTo_congr h, h.depth]

end

namespace Work

variable {settings : Settings} {n n' : Node} {u u' : UnitState}

theorem expand_raised (h : (expand settings n).run u = (.ok n', u')) (i r : Nat) :
    (expand (settings.raised i r) n).run u = (.ok n', u') := by
  obtain ⟨k, r', stops, few, enough⟩ := stopsAfter_of_expand h
  exact ((expand_of_stopsAfter _ stops).1 (Nat.le_add_right_of_le few)
    (Nat.le_add_right_of_le enough)).1

theorem unitProgram_raised {tokens : List Token}
    (h : (unitProgram settings tokens).run u = (.ok n, u')) (i r : Nat) :
    (unitProgram (settings.raised i r) tokens).run u = (.ok n, u') := by
  obtain ⟨m, u₁, parsed, h⟩ := bind_ok.mp h
  obtain ⟨state, u₂, got, h⟩ := bind_ok.mp h
  obtain ⟨_, u₃, reported, h⟩ := bind_ok.mp h
  refine bind_ok.mpr ⟨m, u₁, ?_, bind_ok.mpr ⟨state, u₂, got, bind_ok.mpr ⟨(), u₃, reported, ?_⟩⟩⟩
  · have same : (settings.raised i r).ReadAlike settings := ⟨rfl, rfl, rfl⟩
    rw [Parser.program_congr same]
    exact parsed
  · show (if settings.expand = true then _ else _ : Work Node) u₃ = _
    split at h
    next on =>
      obtain ⟨m', u₄, expanded, h⟩ := bind_ok.mp h
      rw [if_pos on]
      exact bind_ok.mpr ⟨m', u₄, expand_raised expanded i r, h⟩
    next off =>
      rw [if_neg off]
      exact h

end Work

/-- To raise the limits changes nothing for a unit that compiles. -/
theorem compile_raised {settings : Settings} {source : String} {checks : Option Nat} {n : Node}
    (h : (compile settings source checks).result = .ok n) (i r : Nat) :
    compile (settings.raised i r) source checks = compile settings source checks := by
  unfold compile at h ⊢
  rw [show (Work.unitTokens (settings.raised i r) source).run
      (UnitState.ofSettings (settings.raised i r) checks) =
    (Work.unitTokens settings source).run (UnitState.ofSettings settings checks) from rfl]
  split at h
  · cases h
  · rename_i tokens u started
    have run : (Work.unitProgram settings tokens).run u =
        (.ok n, ((Work.unitProgram settings tokens).run u).2) := Prod.ext h rfl
    rw [Work.unitProgram_raised run i r, run]

/-! ## The limits are exact -/

namespace Work

/-- Let the loop without limits stop after `k` passes and `r` calls. Then expansion gives what it
gives, after `k` passes, if neither `k` nor `r` is beyond the limits, and fails since a limit is
exceeded if one is. If the loop never stops, expansion fails in this way under any limits. So
raising the limits changes nothing for a unit that compiles. -/
theorem expand_limits (settings : Settings) :
    (∀ k r n u n' u', StopsAfter k r n u n' u' →
      (k ≤ settings.maxIterations ∧ r ≤ settings.maxReplacements →
        (expand settings n).run u = (.ok n', u') ∧ u'.progress = ⟨k, r⟩) ∧
      (¬ (k ≤ settings.maxIterations ∧ r ≤ settings.maxReplacements) →
        Exceeds settings (expand settings n) u)) ∧
    (∀ n u, NeverStops n u → Exceeds settings (expand settings n) u) ∧
    ∀ source checks n i r, (compile settings source checks).result = .ok n →
      compile (settings.raised i r) source checks = compile settings source checks := by
  refine ⟨fun k r n u n' u' stops => ?_, fun n u endless => expand_of_neverStops endless,
    fun source checks n i r h => compile_raised h i r⟩
  obtain ⟨within, beyond⟩ := expand_of_stopsAfter settings stops
  exact ⟨fun limits => within limits.1 limits.2, fun excess => beyond (by omega)⟩

/-! ## A call that comes to an end, and one that does not -/

/-- A unit with the macro `m` that has the template `body`. -/
def unitWith (body : Node) (log : List Event) (progress : Progress) : UnitState :=
  let m : MacroDefinition :=
    ⟨"m", [], default, .expand, .capture, [], some (.mk default .quote [.one body])⟩
  ⟨⟨[m]⟩, Gensym.ofNames "%" Std.TreeSet.empty, log, none, progress⟩

def callNode : Node := Node.macroCall default "m" [] false

/-- A program of `count` calls of `m`. -/
def callProgram (count : Nat) : Node :=
  Node.program default (List.replicate count (Node.expressionStmt default callNode)) []

/-- A call that is expanded to itself is expanded for ever. -/
theorem neverStops_callProgram : NeverStops (callProgram 1) (unitWith callNode [] ⟨0, 0⟩) := by
  have again (log : List Event) (p : Progress) :
      turn (callProgram 1) (unitWith callNode log p) = (.ok (callProgram 1, 1),
        unitWith callNode (.passDone (p.iterations + 1) 1 :: .callExpanded "m" default :: log)
          ⟨p.iterations + 1, p.replacements + 1⟩) := rfl
  have turns (k : Nat) : ∀ log p, ∃ r n' u',
      Turns k r (callProgram 1) (unitWith callNode log p) n' u' := by
    induction k with
    | zero => exact fun _ _ => ⟨0, _, _, .none⟩
    | succ k ih =>
      intro log p
      obtain ⟨r, n', u', rest⟩ := ih _ _
      exact ⟨_, n', u', .turn (again log p) rest⟩
  exact ⟨unitWith callNode [] ⟨0, 0⟩, ⟨_, rfl, rfl⟩, fun k => turns k _ _⟩

/-- Two calls are within the limits or beyond, a call of itself is beyond any, and a unit without
calls compiles under limits raised. -/
theorem expand_limits_callProgram :
    (∃ n' u', StopsAfter 1 2 (callProgram 2) (unitWith (Node.identifier default "x") [] ⟨0, 0⟩)
        n' u' ∧
      (expand {} (callProgram 2)).run (unitWith (Node.identifier default "x") [] ⟨0, 0⟩) =
        (.ok n', u') ∧ u'.progress = ⟨1, 2⟩ ∧
      Exceeds { maxReplacements := 1 } (expand { maxReplacements := 1 } (callProgram 2))
        (unitWith (Node.identifier default "x") [] ⟨0, 0⟩)) ∧
    Exceeds {} (expand {} (callProgram 1)) (unitWith callNode [] ⟨0, 0⟩) ∧
    compile (Settings.raised {} 1 1) "x" none = compile {} "x" none := by
  have stops : ∃ n' u', StopsAfter 1 2 (callProgram 2)
      (unitWith (Node.identifier default "x") [] ⟨0, 0⟩) n' u' :=
    ⟨_, _, _, _, _, ⟨_, rfl, rfl⟩, .turn rfl .none, rfl⟩
  obtain ⟨n', u', stops⟩ := stops
  obtain ⟨ends, progress⟩ := ((expand_limits {}).1 1 2 _ _ _ _ stops).1 (by decide)
  refine ⟨⟨n', u', stops, ends, progress, ?_⟩, ?_, ?_⟩
  · exact ((expand_limits _).1 1 2 _ _ _ _ stops).2 (by decide)
  · exact (expand_limits {}).2.1 _ _ neverStops_callProgram
  · have compiles : (compile {} "x" none).result.toBool = true := by decide +kernel
    cases h : (compile {} "x" none).result with
    | error fault =>
      rw [h] at compiles
      cases compiles
    | ok n => exact (expand_limits {}).2.2 _ _ _ _ _ h

end Work

end GlyphScript
