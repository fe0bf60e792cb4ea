import GlyphScript.Proofs.Macro.Limits

/-!
# Passes that do the same everywhere

Where no macro renames its template apart, nothing that a pass does depends on
the symbols given out or on the calls replaced before. So a pass does the same
with a tree wherever the tree stands, and a pass that replaces no call leaves
the tree as it is.
-/

namespace GlyphScript

/-- No macro renames its template apart. -/
def Registry.Verbatim (r : Registry) : Prop := ∀ d ∈ r.macros, d.hygiene ≠ .isolate

instance (r : Registry) : Decidable r.Verbatim :=
  inferInstanceAs (Decidable (∀ d ∈ r.macros, d.hygiene ≠ .isolate))

/-- What a part of a pass does to the state of the pass: how many calls it replaces, which one
last, and the names that these inject into the scope around, call by call. -/
structure Effect where
  count : Nat
  last : Option MacroCall
  names : List (List String)

namespace Effect

def none : Effect := ⟨0, .none, []⟩

/-- The one effect and after it the other. -/
def append (e e' : Effect) : Effect := ⟨e.count + e'.count, e'.last.or e.last, e.names ++ e'.names⟩

def on (e : Effect) (q : PassState) : PassState where
  replacements := q.replacements + e.count
  last := e.last.or q.last
  scopes :=
    match q.scopes with
    | [] => []
    | scope :: outer => e.names.foldl addNames scope :: outer

@[simp] theorem on_none (q : PassState) : none.on q = q := by
  obtain ⟨replacements, last, _ | ⟨scope, outer⟩⟩ := q <;> rfl

theorem on_append (e e' : Effect) (q : PassState) : (e.append e').on q = e'.on (e.on q) := by
  obtain ⟨replacements, last, scopes⟩ := q
  simp only [append, on, PassState.mk.injEq, Option.or_assoc, true_and]
  refine ⟨by omega, ?_⟩
  cases scopes with
  | nil => rfl
  | cons scope outer => simp only [List.foldl_append]

end Effect

namespace PassM

variable {α β : Type} {r : Registry}

/-- In every unit with the macros of `r` the computation has this result and this effect, and
otherwise only adds to the log. -/
def Does (r : Registry) (x : PassM α) (a : α) (e : Effect) : Prop :=
  ∀ q u, u.registry = r → ∃ log, x q u = (.ok (a, e.on q), { u with log })

/-- In every unit with the macros of `r` the computation fails. -/
def Fails (r : Registry) (x : PassM α) : Prop :=
  ∀ q u, u.registry = r → ∃ fault u', x q u = (.error fault, u')

/-- The computation fails everywhere, or does the same everywhere; and the result is as `Q` says if
no call is replaced. -/
def Uniform (r : Registry) (x : PassM α) (Q : α → Prop) : Prop :=
  (∃ a e, Does r x a e ∧ (e.count = 0 → e = .none ∧ Q a)) ∨ Fails r x

theorem does_unique {x : PassM α} {a a' : α} {e e' : Effect} (h : Does r x a e)
    (h' : Does r x a' e') : a = a' ∧ e.count = e'.count := by
  let u : UnitState :=
    { UnitState.start (Gensym.ofNames "" Std.TreeSet.empty) none with registry := r }
  obtain ⟨log, run⟩ := h ⟨0, none, []⟩ u rfl
  obtain ⟨log', run'⟩ := h' ⟨0, none, []⟩ u rfl
  have same := (Except.ok.inj (Prod.mk.inj (run.symm.trans run')).1)
  obtain ⟨rfl, state⟩ := Prod.mk.inj same
  refine ⟨rfl, ?_⟩
  simpa [Effect.on] using congrArg PassState.replacements state

theorem not_fails {x : PassM α} {a : α} {e : Effect} (h : Does r x a e) : ¬ Fails r x := by
  intro fails
  let u : UnitState :=
    { UnitState.start (Gensym.ofNames "" Std.TreeSet.empty) none with registry := r }
  obtain ⟨log, run⟩ := h ⟨0, none, []⟩ u rfl
  obtain ⟨fault, u', fault'⟩ := fails ⟨0, none, []⟩ u rfl
  cases run.symm.trans fault'

/-! ## Composition -/

theorem bind_run (x : PassM α) (f : α → PassM β) (q : PassState) (u : UnitState) :
    (x >>= f) q u = match x q u with
      | (.ok (a, q'), u') => f a q' u'
      | (.error fault, u') => (.error fault, u') := by
  show ((x q >>= fun r => f r.1 r.2) : Work _) u = _
  rw [run_bind]
  rcases x q u with ⟨fault | ⟨a, q'⟩, u'⟩ <;> rfl

theorem does_pure (a : α) : Does r (pure a) a .none := fun q u _ =>
  ⟨u.log, by rw [Effect.on_none]; rfl⟩

theorem does_bind {x : PassM α} {f : α → PassM β} {a : α} {b : β} {e e' : Effect}
    (hx : Does r x a e) (hf : Does r (f a) b e') : Does r (x >>= f) b (e.append e') := by
  intro q u hu
  obtain ⟨log, ran⟩ := hx q u hu
  obtain ⟨log', ran'⟩ := hf (e.on q) { u with log } hu
  refine ⟨log', ?_⟩
  rw [bind_run, ran, Effect.on_append]
  exact ran'

theorem fails_bind {x : PassM α} {f : α → PassM β} (hx : Fails r x) : Fails r (x >>= f) := by
  intro q u hu
  obtain ⟨fault, u', ran⟩ := hx q u hu
  exact ⟨fault, u', by rw [bind_run, ran]⟩

theorem fails_bind_of_does {x : PassM α} {f : α → PassM β} {a : α} {e : Effect}
    (hx : Does r x a e) (hf : Fails r (f a)) : Fails r (x >>= f) := by
  intro q u hu
  obtain ⟨log, ran⟩ := hx q u hu
  obtain ⟨fault, u', ran'⟩ := hf (e.on q) { u with log } hu
  refine ⟨fault, u', ?_⟩
  rw [bind_run, ran]
  exact ran'

namespace Uniform

variable {Q : α → Prop} {Q' : β → Prop}

theorem pure {a : α} (h : Q a) : Uniform r (Pure.pure a) Q :=
  .inl ⟨a, .none, does_pure a, fun _ => ⟨rfl, h⟩⟩

theorem bind {x : PassM α} {f : α → PassM β} (hx : Uniform r x Q)
    (hf : ∀ a, Uniform r (f a) fun b => Q a → Q' b) : Uniform r (x >>= f) Q' := by
  rcases hx with ⟨a, e, does, quiet⟩ | fails
  · rcases hf a with ⟨b, e', does', quiet'⟩ | fails
    · refine .inl ⟨b, e.append e', does_bind does does', fun none => ?_⟩
      obtain ⟨none, none'⟩ := Nat.add_eq_zero_iff.mp none
      obtain ⟨rfl, ha⟩ := quiet none
      obtain ⟨rfl, hb⟩ := quiet' none'
      exact ⟨rfl, hb ha⟩
    · exact .inr (fails_bind_of_does does fails)
  · exact .inr (fails_bind fails)

theorem map {x : PassM α} {f : α → β} (hx : Uniform r x Q) (h : ∀ a, Q a → Q' (f a)) :
    Uniform r (f <$> x) Q' := by
  rw [map_eq_pure_bind]
  exact hx.bind fun a => pure (h a)

theorem mono {x : PassM α} {Q' : α → Prop} (hx : Uniform r x Q) (h : ∀ a, Q a → Q' a) :
    Uniform r x Q' := by
  simpa using hx.map (f := id) h

theorem mapM {f : α → PassM β} {Q : α → β → Prop} :
    ∀ {l : List α}, (∀ a ∈ l, Uniform r (f a) (Q a)) → Uniform r (l.mapM f) (List.Forall₂ Q l)
  | [], _ => by
    rw [List.mapM_nil]
    exact pure .nil
  | a :: l, h => by
    obtain ⟨here, below⟩ := List.forall_mem_cons.mp h
    rw [List.mapM_cons]
    exact here.bind fun b => (mapM below).bind fun bs => pure fun hbs hb => .cons hb hbs

end Uniform

/-! ## Replacing a call -/

theorem expandCall_run {d : MacroDefinition} {c : MacroCall} {u : UnitState}
    (called : u.registry.find? c.name = some d) (verbatim : d.hygiene ≠ .isolate) :
    Work.expandCall c u =
      match d.select c with
      | .error fault => (.error (.expansion fault), u)
      | .ok sel =>
        match sel.template.substitute (sel.filling c.name) with
        | .error fault => (.error (.expansion fault), u)
        | .ok node =>
          (.ok ⟨node, if d.hygiene = .inject then node.binderNames else []⟩,
            { u with log := .callExpanded c.name c.span :: u.log }) := by
  have found : Work.calledMacro c u = (.ok d, u) := Work.calledMacro_ok.mpr ⟨called, rfl⟩
  unfold Work.expandCall
  rw [run_bind, found]
  dsimp only
  rw [run_bind]
  cases d.select c with
  | error fault => rfl
  | ok sel =>
    have prepared : Work.prepare sel d.hygiene u = (.ok (sel.template, none), u) := by
      unfold Work.prepare
      cases h : d.hygiene with
      | isolate => exact absurd h verbatim
      | capture | inject => rfl
    dsimp only [Work.ofExpansion, run_pure]
    rw [run_bind, prepared]
    dsimp only
    rw [show (⟨sel.bindings, c.name, if sel.quoted = true then 1 else 0⟩ : Filling) =
      sel.filling c.name from rfl]
    cases sel.template.substitute (sel.filling c.name) <;> rfl

theorem does_work {w : Work α} {a : α}
    (h : ∀ u, u.registry = r → ∃ log, w u = (.ok a, { u with log })) :
    Does r (liftM w) a .none := by
  intro q u hu
  obtain ⟨log, ran⟩ := h u hu
  exact ⟨log, by rw [Effect.on_none]; exact ends_work.mpr ⟨ran, rfl⟩⟩

theorem fails_work {w : Work α}
    (h : ∀ u, u.registry = r → ∃ fault u', w u = (.error fault, u')) : Fails r (liftM w) := by
  intro q u hu
  obtain ⟨fault, u', ran⟩ := h u hu
  refine ⟨fault, u', ?_⟩
  show ((w >>= fun a => pure (a, q)) : Work _) u = _
  rw [run_bind, ran]

theorem does_or_fails_expandCall {c : MacroCall} {d : MacroDefinition}
    (called : r.find? c.name = some d) (verbatim : d.hygiene ≠ .isolate) :
    (∃ e, Does r (liftM (Work.expandCall c)) e .none) ∨ Fails r (liftM (Work.expandCall c)) := by
  have run (u : UnitState) (hu : u.registry = r) :=
    expandCall_run (u := u) (hu ▸ called) verbatim
  cases selected : d.select c with
  | error fault =>
    refine .inr (fails_work fun u hu => ⟨.expansion fault, u, ?_⟩)
    rw [run u hu, selected]
  | ok sel =>
    cases filled : sel.template.substitute (sel.filling c.name) with
    | error fault =>
      refine .inr (fails_work fun u hu => ⟨.expansion fault, u, ?_⟩)
      rw [run u hu, selected]
      dsimp only
      rw [filled]
    | ok node =>
      refine .inl ⟨⟨node, if d.hygiene = .inject then node.binderNames else []⟩,
        does_work fun u hu => ⟨.callExpanded c.name c.span :: u.log, ?_⟩⟩
      rw [run u hu, selected]
      dsimp only
      rw [filled]

theorem does_tally (c : MacroCall) : Does r (tally c) () ⟨1, some c, []⟩ := by
  rintro ⟨replacements, last, _ | ⟨scope, outer⟩⟩ u - <;> exact ⟨u.log, rfl⟩

theorem does_inject (names : List String) : Does r (inject names) () ⟨0, none, [names]⟩ := by
  rintro ⟨replacements, last, _ | ⟨scope, outer⟩⟩ u - <;> exact ⟨u.log, rfl⟩

theorem Uniform.of_does {x : PassM α} {f : α → PassM β} {a : α} {Q : β → Prop}
    (hx : Does r x a .none) (hf : Uniform r (f a) Q) : Uniform r (x >>= f) Q := by
  rcases hf with ⟨b, e, does, quiet⟩ | fails
  · refine .inl ⟨b, _, does_bind hx does, fun none => ?_⟩
    obtain ⟨rfl, hb⟩ := quiet ((Nat.zero_add _).symm.trans none)
    exact ⟨rfl, hb⟩
  · exact .inr (fails_bind_of_does hx fails)

/-- Once a call has been counted it does not matter any more what names are injected. -/
theorem Uniform.tally_bind {f : Unit → PassM β} {Q : β → Prop} (c : MacroCall)
    (hf : (∃ b e, Does r (f ()) b e) ∨ Fails r (f ())) : Uniform r (tally c >>= f) Q := by
  rcases hf with ⟨b, e, does⟩ | fails
  · refine .inl ⟨b, _, does_bind (does_tally c) does, fun none => ?_⟩
    exact absurd (Nat.add_eq_zero_iff.mp none).1 Nat.one_ne_zero
  · exact .inr (fails_bind_of_does (does_tally c) fails)

/-- A call is replaced in the same way everywhere. -/
theorem uniform_replaceCall (hr : r.Verbatim) (c : MacroCall) :
    Uniform r (replaceCallWith tally c) fun _ => False := by
  cases called : r.find? c.name with
  | none =>
    refine .inr (fails_bind (fails_work fun u hu => ?_))
    refine ⟨.expansion (.undefinedMacro c.name c.span u.registry.names), u, ?_⟩
    unfold Work.calledMacro
    rw [run_bind, run_get]
    dsimp only
    rw [hu, called]
    rfl
  | some d =>
    have found : Does r (liftM (Work.calledMacro c)) d .none := by
      refine does_work fun u hu => ⟨u.log, Work.calledMacro_ok.mpr ⟨?_, rfl⟩⟩
      rw [hu]
      exact called
    have verbatim := hr d (List.mem_of_find?_eq_some called)
    by_cases compile : d.phase = .compile
    · refine .of_does found (.tally_bind c ?_)
      rw [if_pos compile]
      exact .inl ⟨_, _, does_pure _⟩
    · refine .of_does found (.tally_bind c ?_)
      rw [if_neg compile]
      rcases does_or_fails_expandCall called verbatim with ⟨e, does⟩ | fails
      · exact .inl ⟨_, _, does_bind does (does_bind (does_inject _) (does_pure _))⟩
      · exact .inr (fails_bind fails)

theorem uniform_replaceStatement (hr : r.Verbatim) (span : Span) (c : MacroCall) :
    Uniform r (replaceStatementWith tally span c) fun _ => False := by
  refine (uniform_replaceCall hr c).bind fun o => ?_
  cases o <;> exact .pure False.elim

theorem uniform_replaceExpression (hr : r.Verbatim) (c : MacroCall) :
    Uniform r (replaceExpressionWith tally c) fun _ => False := by
  refine (uniform_replaceCall hr c).bind fun o => ?_
  cases o with
  | deferred => exact .pure False.elim
  | expanded e =>
    cases made : e.asExpression c with
    | ok n => exact .of_does (does_work fun u _ => ⟨u.log, by rw [made]; rfl⟩) (.pure False.elim)
    | error fault =>
      exact .inr (fails_bind (fails_work fun u _ => ⟨.expansion fault, u, by rw [made]; rfl⟩))

/-! ## Whole trees -/

theorem does_enter_sealed {n : Node} (h : n.head.isSealed = true) :
    Does r (enterWith tally n) (.done (.one n)) .none := by
  obtain ⟨span, head, slots⟩ := n
  cases head
  case macroCall x d =>
    cases d
    · cases h
    · exact fun q u _ => ⟨u.log, by rw [Effect.on_none]; rfl⟩
  case macroDef | quote => exact fun q u _ => ⟨u.log, by rw [Effect.on_none]; rfl⟩
  all_goals cases h

/-- What becomes of a node, neither sealed nor a scope, where the macros are those of `r`. -/
def replaceWith (count : MacroCall → PassM Unit) (r : Registry) (n : Node) :
    PassM (Step Unit (Slot Node)) :=
  match pendingStatement? r n, MacroCall.pending? r n with
  | some c, _ => replaceStatementWith count n.span c >>= fun s => pure (.done s)
  | none, some c => replaceExpressionWith count c >>= fun s => pure (.done s)
  | none, none => pure (.inside ())

/-- Whether a node is entered that opens no scope does not depend on where it stands. -/
theorem uniform_enter (hr : r.Verbatim) {n : Node} (hs : n.head.isSealed = false)
    (hh : n.head.isScope = false) :
    Uniform r (enterWith tally n) (· = .inside ()) := by
  have chosen : Uniform r (replaceWith tally r n) (· = .inside ()) := by
    unfold replaceWith
    split
    · exact (uniform_replaceStatement hr _ _).bind fun _ => .pure False.elim
    · exact (uniform_replaceExpression hr _).bind fun _ => .pure False.elim
    · exact .pure rfl
  have same (q : PassState) (u : UnitState) (hu : u.registry = r) :
      enterWith tally n q u = replaceWith tally r n q u := by
    subst hu
    obtain ⟨span, head, slots⟩ := n
    cases head
    case macroCall x d =>
      cases d
      · rfl
      · cases hs
    case program | block => cases hh
    case macroDef | quote => cases hs
    all_goals rfl
  rcases chosen with ⟨step, e, does, quiet⟩ | fails
  · exact .inl ⟨step, e, fun q u hu => by rw [same q u hu]; exact does q u hu, quiet⟩
  · exact .inr fun q u hu => by rw [same q u hu]; exact fails q u hu

end PassM

/-- The head with names installed, if it is the head of a scope. -/
def Head.installing (names : List String) : Head → Head
  | .program injected => .program (addNames injected names)
  | .block injected => .block (addNames injected names)
  | head => head

@[simp] theorem Head.installing_nil (head : Head) : head.installing [] = head := by
  cases head
  case program names => exact congrArg Head.program (List.append_nil names)
  case block names => exact congrArg Head.block (List.append_nil names)
  all_goals rfl

namespace PassM

variable {r : Registry} {span : Span} {head : Head} {slots slots' : List (Slot Node)}

theorem transform_scope (h : head.isScope = true) (q : PassState) (u : UnitState) :
    (Node.mk span head slots).transformM (transformWith tally) () q u =
      match Node.transformSlotsM (transformWith tally) () slots
        { q with scopes := [] :: q.scopes } u with
      | (.ok (slots', q'), u') =>
        match q'.scopes with
        | scope :: scopes =>
          (.ok (.one (.mk span (head.installing scope) slots'), { q' with scopes }), u')
        | [] => (.error .outOfReach, u')
      | (.error fault, u') => (.error fault, u') := by
  cases head
  case program injected | block injected =>
    rw [Node.transformM, bind_run, show (transformWith tally).enter () _ q u =
      (.ok (.inside (), { q with scopes := [] :: q.scopes }), u) from rfl]
    dsimp only
    rw [bind_run]
    rcases Node.transformSlotsM (transformWith tally) () slots
      { q with scopes := [] :: q.scopes } u with
      ⟨fault | ⟨slots', replacements, last, _ | ⟨scope, scopes⟩⟩, u'⟩ <;> rfl
  all_goals cases h

theorem does_scope (h : head.isScope = true) {e : Effect}
    (inner : Does r (Node.transformSlotsM (transformWith tally) () slots) slots' e) :
    Does r ((Node.mk span head slots).transformM (transformWith tally) ())
      (.one (.mk span (head.installing (e.names.foldl addNames [])) slots'))
      ⟨e.count, e.last, []⟩ := by
  intro q u hu
  obtain ⟨log, ran⟩ := inner { q with scopes := [] :: q.scopes } u hu
  refine ⟨log, ?_⟩
  rw [transform_scope h, ran]
  obtain ⟨replacements, last, _ | ⟨scope, outer⟩⟩ := q <;> rfl

theorem fails_scope (h : head.isScope = true)
    (inner : Fails r (Node.transformSlotsM (transformWith tally) () slots)) :
    Fails r ((Node.mk span head slots).transformM (transformWith tally) ()) := by
  intro q u hu
  obtain ⟨fault, u', ran⟩ := inner { q with scopes := [] :: q.scopes } u hu
  exact ⟨fault, u', by rw [transform_scope h, ran]⟩

theorem uniform_transformList {ns : List Node} (h : ∀ n ∈ ns,
      Uniform r (n.transformM (transformWith tally) ()) (· = .one n)) :
    Uniform r (Node.transformListM (transformWith tally) () ns) (· = ns) := by
  rw [Node.transformListM_eq]
  refine (Uniform.mapM h).map fun ss each => ?_
  have same : ss = ns.map .one := by
    induction each with
    | nil => rfl
    | cons one _ ih => rw [one, ih fun n hn => h n (List.mem_cons_of_mem _ hn), List.map_cons]
  simp [same, transformWith, List.flatMap_map, Slot.toList]

/-- A pass does the same with a tree wherever it stands, and if it replaces no call it leaves the
tree as it is. -/
theorem uniform_transform (hr : r.Verbatim) (n : Node) :
    Uniform r (n.transformM (transformWith tally) ()) (· = .one n) := by
  induction n using Node.induction_on with
  | step span head slots ih =>
    have inner : Uniform r (Node.transformSlotsM (transformWith tally) () slots) (· = slots) := by
      rw [Node.transformSlotsM_eq]
      refine (Uniform.mapM (Q := fun s s' => s' = s) fun s hs => ?_).mono fun ss each => ?_
      · cases s with
        | absent => exact .pure rfl
        | one n => exact (ih _ hs n List.mem_cons_self).map fun _ h => h
        | many ns =>
          refine (uniform_transformList fun n hn => ih _ hs n hn).map fun ns' h => ?_
          rw [h, Slot.toList]
      · exact (List.forall₂_eq_eq_eq ▸ each.flip.imp fun _ _ h => h : ss = slots)
    cases hs : head.isSealed with
    | true =>
      rw [Node.transformM]
      exact .of_does (does_enter_sealed (n := .mk span head slots) hs) (.pure rfl)
    | false =>
      cases hh : head.isScope with
      | true =>
        rcases inner with ⟨slots', e, does, quiet⟩ | fails
        · refine .inl ⟨_, _, does_scope hh does, fun none => ?_⟩
          obtain ⟨rfl, rfl⟩ := quiet none
          refine ⟨rfl, ?_⟩
          show Slot.one (Node.mk span (head.installing []) slots') = _
          rw [Head.installing_nil]
        · exact .inr (fails_scope hh fails)
      | false =>
        rw [Node.transformM]
        refine (uniform_enter hr (n := .mk span head slots) hs hh).bind fun step => ?_
        cases step with
        | done s => exact .pure (by rintro ⟨⟩)
        | inside _ =>
          refine inner.bind fun slots' => ?_
          cases head
          case program | block => cases hh
          all_goals exact .pure fun same _ => by rw [same]

end PassM

end GlyphScript
