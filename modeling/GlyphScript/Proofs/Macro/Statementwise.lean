import GlyphScript.Proofs.Macro.Uniform

/-!
# Expanding statement by statement

A pass over a program is a pass over each of its statements. So a program in
two parts is expanded as its parts are, each in its own number of passes: the
part that is finished first is left alone while the other is still expanded.
-/

namespace GlyphScript

/-! ## Passes over statements -/

namespace Work

open PassM (Does Fails transformWith)

variable {r : Registry} {k k' m m' : Nat} {a a' b b' c c' : List Node}

/-- In every unit with the macros of `r`, a pass puts the statements `a'` in the place of `a`, for
which it replaces `m` calls. -/
def Passes (r : Registry) (m : Nat) (a a' : List Node) : Prop :=
  ∃ e, Does r (Node.transformListM (transformWith PassM.tally) () a) a' e ∧ e.count = m

theorem Passes.unique (h : Passes r m a a') (h' : Passes r m' a c) : a' = c ∧ m = m' := by
  obtain ⟨e, does, rfl⟩ := h
  obtain ⟨e', does', rfl⟩ := h'
  exact PassM.does_unique does does'

theorem transformListM_append (a b : List Node) :
    Node.transformListM (transformWith PassM.tally) () (a ++ b) = (do
      let a' ← Node.transformListM (transformWith PassM.tally) () a
      let b' ← Node.transformListM (transformWith PassM.tally) () b
      return a' ++ b') := by
  simp [Node.transformListM_eq, List.mapM_append]

theorem Passes.append (h : Passes r m a a') (h' : Passes r m' b b') :
    Passes r (m + m') (a ++ b) (a' ++ b') := by
  obtain ⟨e, does, rfl⟩ := h
  obtain ⟨e', does', rfl⟩ := h'
  refine ⟨e.append (e'.append .none), ?_, rfl⟩
  rw [transformListM_append]
  exact PassM.does_bind does (PassM.does_bind does' (PassM.does_pure _))

theorem passes_or_fails (hr : r.Verbatim) (a : List Node) :
    (∃ m a', Passes r m a a' ∧ (m = 0 → a' = a)) ∨
      Fails r (Node.transformListM (transformWith PassM.tally) () a) := by
  refine (PassM.uniform_transformList fun n _ => PassM.uniform_transform hr n).imp_left ?_
  rintro ⟨a', e, does, quiet⟩
  exact ⟨e.count, a', ⟨e, does, rfl⟩, fun none => (quiet none).2⟩

/-- A pass that replaces no call changes nothing. -/
theorem Passes.eq_self (hr : r.Verbatim) (h : Passes r 0 a a') : a' = a := by
  rcases passes_or_fails hr a with ⟨m, a'', passes, quiet⟩ | fails
  · obtain ⟨rfl, rfl⟩ := h.unique passes
    exact quiet rfl
  · obtain ⟨e, does, -⟩ := h
    exact absurd fails (PassM.not_fails does)

/-- A pass over statements is a pass over the first and over the others. -/
theorem Passes.split (hr : r.Verbatim) (h : Passes r m (a ++ b) c) :
    ∃ m₁ m₂ a' b', Passes r m₁ a a' ∧ Passes r m₂ b b' ∧ m = m₁ + m₂ ∧ c = a' ++ b' := by
  have runs := h
  obtain ⟨e, does, -⟩ := runs
  rw [transformListM_append] at does
  rcases passes_or_fails hr a with ⟨m₁, a', first, -⟩ | fails
  · rcases passes_or_fails hr b with ⟨m₂, b', second, -⟩ | fails
    · obtain ⟨rfl, rfl⟩ := h.unique (first.append second)
      exact ⟨m₁, m₂, a', b', first, second, rfl, rfl⟩
    · obtain ⟨_, does', -⟩ := first
      have fails := PassM.fails_bind (f := fun b' => pure (a' ++ b')) fails
      exact absurd (PassM.fails_bind_of_does does' fails) (PassM.not_fails does)
  · exact absurd (PassM.fails_bind fails) (PassM.not_fails does)

/-- Statements that are settled are left as they are. -/
theorem passes_settled {s : Node} (h : s.Settled r) : Passes r 0 [s] [s] := by
  refine ⟨Effect.none.append (Effect.none.append .none), ?_, rfl⟩
  have one : Does r (s.transformM (transformWith PassM.tally) ()) (.one s) .none := by
    intro q u hu
    have ends : PassM.Ends (s.transformM (PassM.transform {}) ()) q u (.one s) q u :=
      PassM.transform_settled s h q u hu
    rw [Effect.on_none]
    exact ⟨u.log, (PassM.budgeted_transform {} s _ _ _ _ _).1 ends⟩
  rw [Node.transformListM]
  exact PassM.does_bind one (PassM.does_bind (PassM.does_pure _) (PassM.does_pure _))

/-! ## Passes to the end -/

/-- In a unit with the macros of `r`, passes over the statements `a` end with `a'`, after `k` passes
that replaced calls, `m` calls in all. -/
inductive Settles (r : Registry) : (k m : Nat) → List Node → List Node → Prop where
  | still {ns ns'} : Passes r 0 ns ns' → Settles r 0 0 ns ns'
  | pass {k m l ns ns₁ ns'} : Passes r (m + 1) ns ns₁ → Settles r k l ns₁ ns' →
      Settles r (k + 1) (m + 1 + l) ns ns'

theorem Settles.of_busy (first : Passes r m a b) (busy : m ≠ 0) (rest : Settles r k m' b b') :
    Settles r (k + 1) (m + m') a b' := by
  obtain ⟨m, rfl⟩ := Nat.exists_eq_succ_of_ne_zero busy
  exact .pass first rest

theorem Settles.unique (h : Settles r k m a a') (h' : Settles r k' m' a c) :
    k = k' ∧ m = m' ∧ a' = c := by
  induction h generalizing k' m' with
  | still still =>
    cases h' with
    | still still' => exact ⟨rfl, rfl, (still.unique still').1⟩
    | pass first' _ => exact absurd (still.unique first').2 (Nat.succ_ne_zero _).symm
  | pass first _ ih =>
    cases h' with
    | still still' => exact absurd (first.unique still').2 (Nat.succ_ne_zero _)
    | pass first' rest' =>
      obtain ⟨rfl, same⟩ := first.unique first'
      obtain ⟨rfl, rfl, rfl⟩ := ih rest'
      exact ⟨rfl, by rw [same], rfl⟩

/-- To be expanded after a pass is to be expanded. -/
theorem Settles.before (hr : r.Verbatim) (h : Settles r k m a a') (first : Passes r m' c a) :
    ∃ k m, Settles r k m c a' := by
  cases m' with
  | zero =>
    obtain rfl := first.eq_self hr
    exact ⟨k, m, h⟩
  | succ m' => exact ⟨_, _, .pass first h⟩

/-- The part that is finished first waits for the other. -/
theorem Settles.append (hr : r.Verbatim) (h : Settles r k m a a') (h' : Settles r k' m' b b') :
    Settles r (max k k') (m + m') (a ++ b) (a' ++ b') := by
  induction h generalizing k' m' b with
  | still still =>
    obtain rfl := still.eq_self hr
    induction h' with
    | still still' => exact .still (still.append still')
    | pass first' _ ih =>
      have first := still.append first'
      simp only [Nat.zero_add, Nat.zero_max] at first ih ⊢
      exact .of_busy first (Nat.succ_ne_zero _) ih
  | @pass k m m₁ a a₁ a' first rest ih =>
    cases h' with
    | still still' =>
      obtain rfl := still'.eq_self hr
      have both := Settles.of_busy (first.append still') (Nat.succ_ne_zero m) (ih (.still still'))
      simpa using both
    | @pass k' m' m₁' _ b₁ _ first' rest' =>
      have both := Settles.of_busy (first.append first') (Nat.succ_ne_zero _) (ih rest')
      rw [Nat.add_max_add_right, show m + 1 + m₁ + (m' + 1 + m₁') =
        m + 1 + (m' + 1) + (m₁ + m₁') by omega]
      exact both

/-- Statements that stand side by side are expanded side by side. -/
theorem Settles.split (hr : r.Verbatim) (h : Settles r k m c c') :
    ∀ a b, c = a ++ b → ∃ k₁ k₂ m₁ m₂ a' b', Settles r k₁ m₁ a a' ∧ Settles r k₂ m₂ b b' ∧
      c' = a' ++ b' := by
  induction h with
  | still still =>
    rintro a b rfl
    obtain ⟨m₁, m₂, a', b', first, second, none, rfl⟩ := still.split hr
    obtain ⟨rfl, rfl⟩ := Nat.add_eq_zero_iff.mp none.symm
    exact ⟨0, 0, 0, 0, a', b', .still first, .still second, rfl⟩
  | pass pass _ ih =>
    rintro a b rfl
    obtain ⟨m₁, m₂, a₁, b₁, first, second, -, rfl⟩ := pass.split hr
    obtain ⟨k₁, k₂, m₁', m₂', a', b', rest, rest', rfl⟩ := ih a₁ b₁ rfl
    obtain ⟨_, _, settles⟩ := rest.before hr first
    obtain ⟨_, _, settles'⟩ := rest'.before hr second
    exact ⟨_, _, _, _, a', b', settles, settles', rfl⟩

/-! ## Turns of the loop -/

variable {span : Span} {injected : List String} {n n' : Node} {u u' : UnitState}

theorem does_program (span : Span) (injected : List String) {e : Effect}
    (does : Does r (Node.transformListM (transformWith PassM.tally) () a) a' e) :
    Does r ((Node.program span a injected).transformM (transformWith PassM.tally) ())
      (.one (Node.program span a' (addNames injected (e.names.foldl addNames []))))
      ⟨e.count, e.last, []⟩ := by
  have inner := PassM.does_bind does (f := fun a' => pure [Slot.many a']) (PassM.does_pure _)
  have program : Does r ((Node.program span a injected).transformM (transformWith PassM.tally) ())
      _ _ := PassM.does_scope rfl (by rw [Node.transformSlotsM]; exact inner)
  simp only [Effect.append, Effect.none, Nat.add_zero, Option.none_or, List.append_nil] at program
  exact program

theorem fails_program (span : Span) (injected : List String)
    (fails : Fails r (Node.transformListM (transformWith PassM.tally) () a)) :
    Fails r ((Node.program span a injected).transformM (transformWith PassM.tally) ()) := by
  refine PassM.fails_scope rfl ?_
  rw [Node.transformSlotsM]
  exact PassM.fails_bind fails

/-- A pass over a program is a pass over its statements. -/
theorem turn_passes (hr : u.registry.Verbatim)
    (run : turn (Node.program span a injected) u = (.ok (n', m), u')) :
    u'.registry = u.registry ∧ ∃ a' injected', n' = Node.program span a' injected' ∧
      Passes u.registry m a a' := by
  obtain ⟨u₁, p, checked, passed, rfl⟩ := turn_ok.mp run
  obtain ⟨s, u₂, transformed, rfl, rfl⟩ := passWith_ok.mp passed
  have registry := (checkpoint_ok checked).1
  rcases passes_or_fails hr a with ⟨m, a', ⟨e, does, rfl⟩, -⟩ | fails
  · obtain ⟨log, ran⟩ := does_program span injected does ⟨0, none, []⟩ u₁
      registry
    cases ran.symm.trans transformed
    exact ⟨registry, a', _, rfl, e, does, (Nat.zero_add _).symm⟩
  · obtain ⟨fault, u₃, ran⟩ := fails_program span injected fails
      ⟨0, none, []⟩ u₁ registry
    cases ran.symm.trans transformed

theorem checkpoint_checks (checked : checkpoint u = (.ok (), u')) :
    u'.checks = u.checks.map (· - 1) := by
  unfold checkpoint at checked
  rw [run_bind, run_get] at checked
  dsimp only at checked
  rcases left : u.checks with _ | _ | c <;> rw [left] at checked <;> cases checked
  · exact left
  · rfl

/-- A pass over statements is a pass over the program that they make up. -/
theorem turn_of_passes (h : Passes r m a a') (hu : u.registry = r) (going : u.checks ≠ some 0) :
    ∃ injected' u', turn (Node.program span a injected) u =
      (.ok (Node.program span a' injected', m), u') ∧ u'.registry = r ∧
        u'.checks = u.checks.map (· - 1) := by
  obtain ⟨e, does, rfl⟩ := h
  obtain ⟨u₁, checked, registry, -⟩ := checkpoint_run going
  obtain ⟨log, ran⟩ := does_program span injected does ⟨0, none, []⟩ u₁
    (registry.trans hu)
  refine ⟨_, _, turn_ok.mpr ⟨u₁, _, checked, passWith_ok.mpr ⟨_, _, ran, rfl, rfl⟩,
    Nat.zero_add _⟩, registry.trans hu, ?_⟩
  exact (show u₁.checks = _ from checkpoint_checks checked)

/-- The loop over a program is a loop over its statements. -/
theorem settles_of_turns {p : Node} {k m : Nat} {n₁ : Node} {u₁ : UnitState}
    (turns : Turns k m p u n₁ u₁) (stopped : turn n₁ u₁ = (.ok (n', 0), u'))
    (hr : u.registry.Verbatim) : ∀ a injected, p = Node.program span a injected →
      ∃ a' injected', n' = Node.program span a' injected' ∧ Settles u.registry k m a a' := by
  induction turns with
  | none =>
    rintro a injected rfl
    obtain ⟨-, a', injected', rfl, passes⟩ := turn_passes hr stopped
    exact ⟨a', injected', rfl, .still passes⟩
  | turn first _ ih =>
    rintro a injected rfl
    obtain ⟨registry, a₁, injected₁, rfl, passes⟩ := turn_passes hr first
    rw [← registry] at hr passes ⊢
    obtain ⟨a', injected', rfl, settles⟩ := ih stopped hr a₁ injected₁ rfl
    exact ⟨a', injected', rfl, .pass passes settles⟩

/-- A loop over statements is the loop over the program that they make up, if it is not cancelled
before. -/
theorem turns_of_settles (span : Span) (h : Settles r k m a a') : ∀ injected u, u.registry = r →
    (∀ c, u.checks = some c → k < c) → ∃ n₁ u₁ injected' u',
      Turns k m (Node.program span a injected) u n₁ u₁ ∧
        turn n₁ u₁ = (.ok (Node.program span a' injected', 0), u') := by
  induction h with
  | still passes =>
    intro injected u hu going
    have left : u.checks ≠ some 0 := fun none => Nat.not_lt_zero _ (going 0 none)
    obtain ⟨injected', u', turned, -⟩ := turn_of_passes passes hu left
    exact ⟨_, u, injected', u', .none, turned⟩
  | pass passes _ ih =>
    intro injected u hu going
    have left : u.checks ≠ some 0 := fun none => Nat.not_lt_zero _ (going 0 none)
    obtain ⟨injected₁, u₁, turned, registry, checks⟩ := turn_of_passes passes hu left
    obtain ⟨n₂, u₂, injected', u', turns, stopped⟩ := ih injected₁ u₁ registry fun c hc => by
      rw [checks] at hc
      obtain ⟨c', hc', rfl⟩ := Option.map_eq_some_iff.mp hc
      have := going c' hc'
      omega
    exact ⟨n₂, u₂, injected', u', .turn turned turns, stopped⟩

/-! ## Expansion -/

variable {settings : Settings} {v w : UnitState}

/-- Every macro defined in the statements is known. -/
def Known (r : Registry) (a : List Node) : Prop :=
  ∀ s ∈ a, ∀ d ∈ s.walk.filterMap MacroDefinition.ofNode?, r.contains d.name = true

theorem known_iff (span : Span) (injected : List String) : Known r a ↔
    ∀ d ∈ (Node.program span a injected).walk.filterMap MacroDefinition.ofNode?,
      r.contains d.name = true := by
  have program : MacroDefinition.ofNode? (Node.program span a injected) = none := rfl
  have walk : (Node.program span a injected).walk =
      Node.program span a injected :: a.flatMap Node.walk := by
    rw [Node.program, Node.walk_mk]
    simp [Slot.toList]
  rw [walk, List.filterMap_cons_none program]
  constructor
  · intro known d hd
    obtain ⟨m, hm, made⟩ := List.mem_filterMap.mp hd
    obtain ⟨s, hs, hm⟩ := List.mem_flatMap.mp hm
    exact known s hs d (List.mem_filterMap.mpr ⟨m, hm, made⟩)
  · intro known s hs d hd
    obtain ⟨m, hm, made⟩ := List.mem_filterMap.mp hd
    exact known d (List.mem_filterMap.mpr ⟨m, List.mem_flatMap.mpr ⟨s, hs, hm⟩, made⟩)

/-- The expansion of a program expands its statements. -/
theorem settles_of_expand (hr : u.registry.Verbatim) (known : Known u.registry a)
    (run : (expand settings (Node.program span a injected)).run u = (.ok n', u')) :
    Settles u.registry u'.progress.iterations u'.progress.replacements a n'.statements ∧
      u'.progress.iterations ≤ settings.maxIterations := by
  obtain ⟨k, m, stops, few, enough⟩ := stopsAfter_of_expand run
  obtain ⟨run', progress⟩ := (expand_of_stopsAfter settings stops).1 few enough
  obtain ⟨u₀, n₁, u₁, ⟨w, registered, rfl⟩, turns, stopped⟩ := stops
  cases registered.symm.trans (registerMissing_self ((known_iff _ _).mp known))
  obtain ⟨a', injected', rfl, settles⟩ := settles_of_turns turns stopped hr a injected rfl
  rw [progress]
  exact ⟨settles, few⟩

/-- Statements are expanded by the expansion of the program that they make up. -/
theorem expand_of_settles (h : Settles w.registry k m a a')
    (registered : registerMissing (Node.program span a injected) u = (.ok (), w))
    (few : k ≤ settings.maxIterations) (enough : m ≤ settings.maxReplacements)
    (going : ∀ c, u.checks = some c → k < c) :
    ∃ n v, (expand settings (Node.program span a injected)).run u = (.ok n, v) ∧
      n.statements = a' ∧ v.progress = ⟨k, m⟩ := by
  obtain ⟨checks, -⟩ := registerMissing_ok registered
  obtain ⟨n₁, u₁, injected', v, turns, stopped⟩ := turns_of_settles span h injected
    { w with progress := ⟨0, 0⟩ } rfl fun c hc => going c (checks ▸ hc)
  obtain ⟨run, progress⟩ := (expand_of_stopsAfter settings
    ⟨_, n₁, u₁, ⟨w, registered, rfl⟩, turns, stopped⟩).1 few enough
  exact ⟨_, v, run, rfl, progress⟩

/-- In a unit with the macros of `r` that is not cancelled the program of the statements `a` is
expanded to the statements `a'`. -/
def ExpandsTo (settings : Settings) (r : Registry) (a a' : List Node) : Prop :=
  ∀ u span injected, u.registry = r → u.checks = none →
    ∃ n v, (expand settings (Node.program span a injected)).run u = (.ok n, v) ∧ n.statements = a'

theorem Settles.expandsTo (h : Settles r k m a a') (known : Known r a)
    (few : k ≤ settings.maxIterations) (enough : m ≤ settings.maxReplacements) :
    ExpandsTo settings r a a' := by
  rintro u span injected rfl going
  obtain ⟨n, v, run, statements, -⟩ := expand_of_settles h
    (registerMissing_self ((known_iff span injected).mp known)) few enough
    fun c hc => by
      rw [going] at hc
      cases hc
  exact ⟨n, v, run, statements⟩

/-- Let no macro rename its template apart in the registry `w` that is left once the macros of the
program with the statements `a ++ b` are registered. If with this registry the program of `a` and
that of `b` expand, and the limits leave room for the calls of both, then the program of `a ++ b`
expands. Its statements are those of the one expansion and after them those of the other; its
passes that replace calls are as many as the longer of the two takes, and its calls those of both.
A macro definition and a statement without a call to expand stand unchanged between what is before
them, expanded, and what is after them. -/
theorem expand_append {span₁ span₂ : Span} {injected₁ injected₂ : List String}
    {n₁ n₂ : Node} {u₁ u₂ v₁ v₂ : UnitState}
    (registered : registerMissing (Node.program span (a ++ b) injected) u = (.ok (), w))
    (verbatim : w.registry.Verbatim)
    (same₁ : u₁.registry = w.registry) (same₂ : u₂.registry = w.registry)
    (first : (expand settings (Node.program span₁ a injected₁)).run u₁ = (.ok n₁, v₁))
    (second : (expand settings (Node.program span₂ b injected₂)).run u₂ = (.ok n₂, v₂))
    (enough : v₁.progress.replacements + v₂.progress.replacements ≤ settings.maxReplacements)
    (going : ∀ c, u.checks = some c → max v₁.progress.iterations v₂.progress.iterations < c) :
    ∃ n v, (expand settings (Node.program span (a ++ b) injected)).run u = (.ok n, v) ∧
      n.statements = n₁.statements ++ n₂.statements ∧
      v.progress = ⟨max v₁.progress.iterations v₂.progress.iterations,
        v₁.progress.replacements + v₂.progress.replacements⟩ ∧
      ∀ before s after, a ++ b = before ++ s :: after →
        (∃ x params phase hygiene, s.head = .macroDef x params phase hygiene) ∨
          s.Settled w.registry →
        ∃ before' after', n.statements = before' ++ s :: after' ∧
          ExpandsTo settings w.registry before before' ∧
          ExpandsTo settings w.registry after after' := by
  obtain ⟨-, known⟩ := registerMissing_ok registered
  have known : Known w.registry (a ++ b) := (known_iff _ _).mpr known
  obtain ⟨knownA, knownB⟩ := List.forall_mem_append.mp known
  rw [← same₁] at knownA
  rw [← same₂] at knownB
  obtain ⟨settlesA, fewA⟩ := settles_of_expand (same₁ ▸ verbatim) knownA first
  obtain ⟨settlesB, fewB⟩ := settles_of_expand (same₂ ▸ verbatim) knownB second
  rw [same₁] at settlesA
  rw [same₂] at settlesB
  have both := settlesA.append verbatim settlesB
  have few := Nat.max_le.mpr ⟨fewA, fewB⟩
  obtain ⟨n, v, run, statements, progress⟩ := expand_of_settles both registered few enough going
  refine ⟨n, v, run, statements, progress, ?_⟩
  intro before s after split still
  rw [statements]
  have settled : s.Settled w.registry := by
    rcases still with ⟨x, params, phase, hygiene, head⟩ | settled
    · have closed : s.head.isSealed = true := by rw [head]; rfl
      exact Node.settled_iff.mpr ⟨Node.settledAt_of_sealed closed,
        fun opened => Bool.noConfusion (closed.symm.trans opened)⟩
    · exact settled
  rw [split] at both known
  obtain ⟨k₁, k', m₁, m', before', rest, fore, rest', same⟩ := both.split verbatim before _ rfl
  obtain ⟨k₂, k₃, m₂, m₃, here, after', one, aft, rfl⟩ := rest'.split verbatim [s] after rfl
  obtain ⟨rfl, rfl, rfl⟩ := (Settles.still (passes_settled settled)).unique one
  obtain ⟨rfl, rfl, -⟩ := (Settles.append verbatim one aft).unique rest'
  obtain ⟨passes, calls, -⟩ := (Settles.append verbatim fore rest').unique both
  obtain ⟨knownBefore, knownAfter⟩ := List.forall_mem_append.mp known
  refine ⟨before', after', same, fore.expandsTo knownBefore ?_ ?_,
    aft.expandsTo (List.forall_mem_cons.mp knownAfter).2 ?_ ?_⟩ <;> omega

theorem settled_name (x : String) :
    (Node.expressionStmt default (Node.identifier default x)).Settled r := by
  have identifier : (Node.identifier default x).Settled r := by
    refine Node.settled_iff.mpr ⟨⟨fun _ => Head.noConfusion, Head.noConfusion⟩, fun _ c hc => ?_⟩
    cases hc
  refine Node.settled_iff.mpr ⟨⟨fun _ => Head.noConfusion, Head.noConfusion⟩, fun _ c hc => ?_⟩
  rw [List.mem_singleton.mp hc]
  exact identifier

/-- A call and after it a name that is no call. The name stands where it stood. -/
theorem expand_append_callNode :
    let unit := unitWith (Node.identifier default "x") [] ⟨0, 0⟩
    let call := Node.expressionStmt default callNode
    let name (x : String) := Node.expressionStmt default (Node.identifier default x)
    ∃ n v, (expand {} (Node.program default ([call] ++ [name "y"]) [])).run unit = (.ok n, v) ∧
      n.statements = [name "x"] ++ [name "y"] ∧ v.progress = ⟨1, 1⟩ ∧
      ∃ before' after', n.statements = before' ++ name "y" :: after' ∧
        ExpandsTo {} unit.registry [call] before' ∧ ExpandsTo {} unit.registry [] after' := by
  intro unit call name
  have registered : registerMissing (Node.program default ([call] ++ [name "y"]) []) unit =
      (.ok (), unit) := rfl
  have once : ∃ n₁ v₁, StopsAfter 1 1 (Node.program default [call] []) unit n₁ v₁ ∧
      n₁.statements = [name "x"] := ⟨_, _, ⟨_, _, _, ⟨_, rfl, rfl⟩, .turn rfl .none, rfl⟩, rfl⟩
  have never : ∃ n₂ v₂, StopsAfter 0 0 (Node.program default [name "y"] []) unit n₂ v₂ ∧
      n₂.statements = [name "y"] := ⟨_, _, ⟨_, _, _, ⟨_, rfl, rfl⟩, .none, rfl⟩, rfl⟩
  obtain ⟨n₁, v₁, once, same₁⟩ := once
  obtain ⟨n₂, v₂, never, same₂⟩ := never
  obtain ⟨first, progress₁⟩ := (expand_of_stopsAfter {} once).1 (by decide) (by decide)
  obtain ⟨second, progress₂⟩ := (expand_of_stopsAfter {} never).1 (by decide) (by decide)
  obtain ⟨n, v, run, statements, progress, unchanged⟩ := expand_append registered (by decide) rfl rfl
    first second (by rw [progress₁, progress₂]; decide) (fun c hc => nomatch hc)
  rw [progress₁, progress₂] at progress
  rw [same₁, same₂] at statements
  refine ⟨n, v, run, statements, progress, unchanged [call] (name "y") [] rfl (.inr ?_)⟩
  exact settled_name "y"

end Work

end GlyphScript
