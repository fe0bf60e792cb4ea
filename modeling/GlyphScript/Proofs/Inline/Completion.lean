import GlyphScript.Proofs.Inline.Programs
import GlyphScript.Proofs.Macro.Scopes

/-!
# Names installed while parsing

A call is expanded when its statement is complete, and what it installs is listed
by the scope around that statement. That is the innermost scope around the call
unless the call stands in a body of the statement, where it has been left over
since its macro was not known by then.

A tree that has been read is described without a stack of scopes, from one state
of the unit to another. Between its parts no call is expanded, so that every
expansion that the log reports has its place in the tree.
-/

namespace GlyphScript

open GlyphScript.Parser

/-! ## Calls expanded between two states -/

/-- The call that has been expanded, if that is what is reported. -/
def Event.expansion? : Event → Option (String × Span)
  | .callExpanded name span => some (name, span)
  | _ => none

namespace UnitState

/-- The calls expanded, the latest first. -/
def expandedCalls (u : UnitState) : List (String × Span) := u.log.filterMap Event.expansion?

/-- Only further macros have been registered since, and only further calls expanded. -/
structure Before (u v : UnitState) : Prop where
  registrations : u.registrations <:+ v.registrations
  expandedCalls : u.expandedCalls <:+ v.expandedCalls

/-- Only further macros have been registered since, and no call has been expanded. -/
structure Idle (u v : UnitState) : Prop where
  registrations : u.registrations <:+ v.registrations
  expandedCalls : v.expandedCalls = u.expandedCalls

section

variable {u v w : UnitState}

theorem Before.refl (u : UnitState) : u.Before u := ⟨List.suffix_rfl, List.suffix_rfl⟩

theorem Before.trans (h : u.Before v) (h' : v.Before w) : u.Before w :=
  ⟨h.registrations.trans h'.registrations, h.expandedCalls.trans h'.expandedCalls⟩

theorem Before.expands (h : u.Before v) {x : String} (hx : u.Expands x) : v.Expands x :=
  h.registrations.subset hx

theorem Idle.before (h : u.Idle v) : u.Before v := ⟨h.registrations, h.expandedCalls ▸ List.suffix_rfl⟩

theorem Idle.refl (u : UnitState) : u.Idle u := ⟨List.suffix_rfl, rfl⟩

theorem Idle.trans (h : u.Idle v) (h' : v.Idle w) : u.Idle w :=
  ⟨h.registrations.trans h'.registrations, h'.expandedCalls.trans h.expandedCalls⟩

end

/-- No macro has become known since to be expanded while parsing. -/
structure Settled (base v : UnitState) : Prop where
  single : v.SinglePhase
  known : ∀ x, v.Expands x → base.Expands x

theorem Settled.before {base u v : UnitState} (h : base.Settled v) (before : u.Before v) :
    base.Settled u :=
  ⟨h.single.before before.registrations, fun x hx => h.known x (before.expands hx)⟩

/-- Only macros that have been registered to be expanded while parsing are, and the other way round
if each macro has been registered in one phase. -/
structure Recorded (u : UnitState) : Prop where
  faithful : u.Faithful
  registered : ∀ x, isExpandedHere u.registry x = true → u.Expands x

namespace Recorded

variable {u v : UnitState}

theorem of_same (h : u.Recorded) (registry : v.registry = u.registry)
    (registrations : v.registrations = u.registrations) : v.Recorded where
  faithful single x hx := by
    unfold UnitState.Expands at hx
    unfold UnitState.SinglePhase at single
    rw [registrations] at hx single
    rw [registry]
    exact h.faithful single x hx
  registered x hx := by
    rw [registry] at hx
    unfold UnitState.Expands
    rw [registrations]
    exact h.registered x hx

theorem register (h : u.Recorded) (d : MacroDefinition) : (Work.register d u).2.Recorded where
  faithful := Work.faithful_register d h.faithful
  registered x hx := by
    obtain ⟨registrations, registry⟩ := Work.registrations_register d u
    unfold UnitState.Expands
    rw [registrations]
    rw [registry, isExpandedHere, Registry.find?_insert] at hx
    split at hx
    · rename_i same
      have phase : d.phase = .parse := of_decide_eq_true hx
      rw [← same, ← phase]
      exact List.mem_cons_self
    · exact List.mem_cons_of_mem _ (h.registered x hx)

end Recorded

end UnitState

/-- A call of a macro to be expanded while parsing expands. It installs what its expansion binds if
the macro injects. -/
structure MacroCall.Replaced (c : MacroCall) (u : UnitState) (e : Expansion) (v : UnitState) :
    Prop where
  run : Work.expandCall c u = (.ok e, v)
  known : u.Expands c.name
  defined : ∃ d, u.registry.find? c.name = some d ∧ d.phase = .parse ∧
    e.injected = if d.hygiene = .inject then e.node.binderNames else []

namespace MacroCall.Replaced

variable {c : MacroCall} {e : Expansion} {u v : UnitState}

/-- An expansion is reported, and nothing else is that is one. -/
theorem expandedCalls (h : c.Replaced u e v) : v.expandedCalls = (c.name, c.span) :: u.expandedCalls := by
  obtain ⟨d, u₁, called, run₁⟩ := bind_ok.mp h.run
  obtain ⟨-, rfl⟩ := Work.calledMacro_ok.mp called
  obtain ⟨sel, u₂, selected, run₂⟩ := bind_ok.mp run₁
  obtain ⟨-, rfl⟩ := Work.ofExpansion_ok.mp selected
  obtain ⟨⟨template, table⟩, u₃, prepared, run₃⟩ := bind_ok.mp run₂
  obtain ⟨table', ready⟩ := Work.prepare_run sel d.hygiene u₂
  cases ready.symm.trans prepared
  obtain ⟨m, u₄, filled, run₄⟩ := bind_ok.mp run₃
  obtain ⟨-, rfl⟩ := Work.ofExpansion_ok.mp filled
  dsimp only at run₄
  split at run₄
  · cases run₄
    rfl
  · cases run₄
    rfl

theorem before (h : c.Replaced u e v) : u.Before v := by
  have nothing := Work.RegistersNothing.expandCall c u
  rw [h.run] at nothing
  refine ⟨nothing ▸ List.suffix_rfl, ?_⟩
  rw [h.expandedCalls]
  exact List.suffix_cons ..

theorem nodup (h : c.Replaced u e v) : e.injected.Nodup := by
  obtain ⟨d, -, -, injected⟩ := h.defined
  rw [injected]
  split
  · exact Node.nodup_binderNames _
  · exact List.nodup_nil

end MacroCall.Replaced

/-! ## What has been read -/

section

variable (settings : Settings)

mutual

/-- A tree that has been read. A body in it lists what the calls install that are expanded as its
statements are completed, and no macro is called in it any more that was known before. -/
inductive Node.Grown : UnitState → UnitState → Node → Prop where
  | node {u v span head slots} : head.isScope = false → (∀ x, head = .identifier x → slots = []) →
    GrownList u v (slots.flatMap Slot.toList) → Node.Grown u v (.mk span head slots)
  | block {u v w w' span ns names} : u.Idle w → Completed w w' ns names → w'.Idle v →
    (w'.SinglePhase → ∀ x, w.Expands x → .called x ∉ ns.flatMap Node.uses) →
    Node.Grown u v (.mk span (.block (listNames [] names)) [.many ns])

/-- Trees that have been read one after another. -/
inductive GrownList : UnitState → UnitState → List Node → Prop where
  | nil {u v} : u.Idle v → GrownList u v []
  | cons {u u' v w n ns} : u.Idle u' → Node.Grown u' w n → GrownList w v ns → GrownList u v (n :: ns)

/-- Statements that have been read one after another, the calls in them expanded, and all the names
that these install. -/
inductive Completed : UnitState → UnitState → List Node → List String → Prop where
  | nil {u v} : u.Idle v → Completed u v [] []
  | cons {u u' v v' w n s names ns rest} : u.Idle u' → GrownList u' v [n] →
    Node.Inlined u' v v' false n s names → Completed v' w ns rest →
    Completed u w (s.toList ++ ns) (names ++ rest)

/-- What takes the place of a tree when calls in it are expanded, and the names that are installed
around the tree. In a body inside the tree only calls are expanded whose macros were not known in
the unit `base` before the tree was read. -/
inductive Node.Inlined : (base : UnitState) →
    UnitState → UnitState → (inside : Bool) → Node → Slot Node → List String → Prop where
  | kept {base u inside n} : Node.Inlined base u u inside n (.one n) []
  | statement {base u inside span e c x text remaining z ns z' names} : MacroCall.ofNode? e = some c →
    c.Replaced u x z.unit → (inside = true → u.SinglePhase → ¬ base.Expands c.name) →
    (Node.program span (x.asStatements span) []).source = .ok text →
    (Rereading.upTo settings remaining).statements c text z = (.ok ns, z') →
    Completed z.unit z'.unit ns names →
    Node.Inlined base u z'.unit inside (.mk span .expressionStmt [.one e]) (.many ns)
      (x.injected ++ names)
  | expression {base base' u v inside n n' c x m text remaining z m' z' names} :
    MacroCall.ofNode? n = some c →
    c.Replaced u x z.unit → (inside = true → u.SinglePhase → ¬ base.Expands c.name) →
    x.asExpression c = .ok m → m.source = .ok text →
    (Rereading.upTo settings remaining).expression c text z = (.ok m', z') →
    z.unit.Idle base' → GrownList base' v [n'] →
    Node.Inlined base' v z'.unit false n' (.one m') names →
    Node.Inlined base u z'.unit inside n (.one m') (x.injected ++ names)
  | node {base u v inside span head slots slots' names} :
    InlinedSlots base u v (inside || head.isScope) slots slots' names →
    Node.Inlined base u v inside (.mk span head slots) (.one (.mk span head slots')) names

inductive InlinedSlots : (base : UnitState) → UnitState → UnitState → (inside : Bool) →
    List (Slot Node) → List (Slot Node) → List String → Prop where
  | nil {base u inside} : InlinedSlots base u u inside [] [] []
  | absent {base u v inside slots slots' names} : InlinedSlots base u v inside slots slots' names →
    InlinedSlots base u v inside (.absent :: slots) (.absent :: slots') names
  | one {base u v w inside n s names slots slots' rest} : Node.Inlined base u w inside n s names →
    InlinedSlots base w v inside slots slots' rest →
    InlinedSlots base u v inside (.one n :: slots) (s :: slots') (names ++ rest)
  | many {base u v w inside ns ns' names slots slots' rest} : InlinedList base u w inside ns ns' names →
    InlinedSlots base w v inside slots slots' rest →
    InlinedSlots base u v inside (.many ns :: slots) (.many ns' :: slots') (names ++ rest)

inductive InlinedList : (base : UnitState) → UnitState → UnitState → (inside : Bool) →
    List Node → List Node → List String → Prop where
  | nil {base u inside} : InlinedList base u u inside [] [] []
  | cons {base u v w inside n s names ns ns' rest} : Node.Inlined base u w inside n s names →
    InlinedList base w v inside ns ns' rest →
    InlinedList base u v inside (n :: ns) (s.toList ++ ns') (names ++ rest)

end

end

section

variable {settings : Settings}

mutual

theorem Node.Grown.before : ∀ {u v n}, Node.Grown settings u v n → u.Before v
  | _, _, _, .node _ _ below => below.before
  | _, _, _, .block start done stop _ => start.before.trans (done.before.trans stop.before)

theorem GrownList.before : ∀ {u v ns}, GrownList settings u v ns → u.Before v
  | _, _, _, .nil quiet => quiet.before
  | _, _, _, .cons start first rest => start.before.trans (first.before.trans rest.before)

theorem Completed.before : ∀ {u v ns names}, Completed settings u v ns names → u.Before v
  | _, _, _, _, .nil quiet => quiet.before
  | _, _, _, _, .cons start grown done rest =>
    start.before.trans (grown.before.trans (done.before.trans rest.before))

theorem Node.Inlined.before : ∀ {base u v inside n s names},
    Node.Inlined settings base u v inside n s names → u.Before v
  | _, _, _, _, _, _, _, .kept => .refl _
  | _, _, _, _, _, _, _, .statement _ replaced _ _ _ done => replaced.before.trans done.before
  | _, _, _, _, _, _, _, .expression _ replaced _ _ _ _ start grown done =>
    replaced.before.trans (start.before.trans (grown.before.trans done.before))
  | _, _, _, _, _, _, _, .node inner => inner.before

theorem InlinedSlots.before : ∀ {base u v inside slots slots' names},
    InlinedSlots settings base u v inside slots slots' names → u.Before v
  | _, _, _, _, _, _, _, .nil => .refl _
  | _, _, _, _, _, _, _, .absent rest => rest.before
  | _, _, _, _, _, _, _, .one first rest => first.before.trans rest.before
  | _, _, _, _, _, _, _, .many first rest => first.before.trans rest.before

theorem InlinedList.before : ∀ {base u v inside ns ns' names},
    InlinedList settings base u v inside ns ns' names → u.Before v
  | _, _, _, _, _, _, _, .nil => .refl _
  | _, _, _, _, _, _, _, .cons first rest => first.before.trans rest.before

end

/-! A body inside a statement is left alone unless a macro has become known in the meantime. -/

mutual

theorem Node.Inlined.kept_inside : ∀ {base u v inside n s names},
    Node.Inlined settings base u v inside n s names → inside = true → base.Settled v →
      s = .one n ∧ names = []
  | _, _, _, _, _, _, _, .kept, _, _ => ⟨rfl, rfl⟩
  | _, _, _, _, _, _, _, .statement _ replaced stray _ _ done, inside, settled =>
    have known := settled.before (replaced.before.trans done.before)
    absurd (known.known _ replaced.known) (stray inside known.single)
  | _, _, _, _, _, _, _, .expression _ replaced stray _ _ _ start grown done, inside, settled =>
    have known := settled.before
      (replaced.before.trans (start.before.trans (grown.before.trans done.before)))
    absurd (known.known _ replaced.known) (stray inside known.single)
  | _, _, _, _, _, _, _, .node inner, inside, settled => by
    obtain ⟨rfl, rfl⟩ := inner.kept_inside (Bool.or_eq_true_iff.mpr (.inl inside)) settled
    exact ⟨rfl, rfl⟩

theorem InlinedSlots.kept_inside : ∀ {base u v inside slots slots' names},
    InlinedSlots settings base u v inside slots slots' names → inside = true → base.Settled v →
      slots' = slots ∧ names = []
  | _, _, _, _, _, _, _, .nil, _, _ => ⟨rfl, rfl⟩
  | _, _, _, _, _, _, _, .absent rest, inside, settled => by
    obtain ⟨rfl, rfl⟩ := rest.kept_inside inside settled
    exact ⟨rfl, rfl⟩
  | _, _, _, _, _, _, _, .one first rest, inside, settled => by
    obtain ⟨rfl, rfl⟩ := rest.kept_inside inside settled
    obtain ⟨rfl, rfl⟩ := first.kept_inside inside (settled.before rest.before)
    exact ⟨rfl, rfl⟩
  | _, _, _, _, _, _, _, .many first rest, inside, settled => by
    obtain ⟨rfl, rfl⟩ := rest.kept_inside inside settled
    obtain ⟨rfl, rfl⟩ := first.kept_inside inside (settled.before rest.before)
    exact ⟨rfl, rfl⟩

theorem InlinedList.kept_inside : ∀ {base u v inside ns ns' names},
    InlinedList settings base u v inside ns ns' names → inside = true → base.Settled v →
      ns' = ns ∧ names = []
  | _, _, _, _, _, _, _, .nil, _, _ => ⟨rfl, rfl⟩
  | _, _, _, _, _, _, _, .cons first rest, inside, settled => by
    obtain ⟨rfl, rfl⟩ := rest.kept_inside inside settled
    obtain ⟨rfl, rfl⟩ := first.kept_inside inside (settled.before rest.before)
    exact ⟨rfl, rfl⟩

end

end

/-! ## Parsers that install names -/

/-- From the state `u` of the unit the parser lists names in the innermost scope and leaves the
other scopes alone; what it reads and the names are as `post` says. -/
def Installs {α : Type} (u : UnitState) (x : Parser α)
    (post : UnitState → List String → α → Prop) : Prop :=
  ∀ s a s', x s = (.ok a, s') → s.unit = u → u.Recorded →
    s'.unit.Recorded ∧ ∃ names, s'.scopes = charge names s.scopes ∧ post s'.unit names a

/-- No name is listed, and no call expanded. -/
def Unlisting {α : Type} (x : Parser α) : Prop :=
  ∀ u, Installs u x fun v names _ => names = [] ∧ u.Idle v

namespace Installs

variable {α β : Type} {u : UnitState} {x : Parser α} {post : UnitState → List String → α → Prop}
variable {post' : UnitState → List String → β → Prop}

theorem mono {post' : UnitState → List String → α → Prop} (hx : Installs u x post)
    (h : ∀ v names a, post v names a → post' v names a) : Installs u x post' := by
  intro s a s' run start recorded
  obtain ⟨kept, names, charged, ha⟩ := hx s a s' run start recorded
  exact ⟨kept, names, charged, h _ _ _ ha⟩

theorem bind {f : α → Parser β} (hx : Installs u x post)
    (hf : ∀ a v names, post v names a →
      Installs v (f a) fun w more b => post' w (names ++ more) b) : Installs u (x >>= f) post' := by
  intro s b s'' run start recorded
  obtain ⟨a, s', first, second⟩ := bind_ok.mp run
  obtain ⟨kept, names, charged, ha⟩ := hx s a s' first start recorded
  obtain ⟨kept', more, charged', hb⟩ := hf a _ names ha s' b s'' second rfl kept
  refine ⟨kept', names ++ more, ?_, hb⟩
  rw [charge_append, ← charged, charged']

theorem pure {a : α} (h : post u [] a) : Installs u (Pure.pure a) post := by
  intro s b s' run start recorded
  cases run
  subst start
  exact ⟨recorded, [], (charge_nil _).symm, h⟩

theorem throw (fault : Fault) : Installs u (throw fault : Parser α) post := by
  intro s a s' run
  cases run

theorem of_get {f : ParserState → Parser β} (h : ∀ s, Installs u (f s) post') :
    Installs u (get >>= f) post' :=
  fun s => h s s

theorem map {f : α → β} (hx : Installs u x post)
    (h : ∀ v names a, post v names a → post' v names (f a)) : Installs u (f <$> x) post' := by
  rw [map_eq_pure_bind]
  refine hx.bind fun a v names ha => .pure ?_
  rw [List.append_nil]
  exact h v names a ha

theorem of_map {f : α → β} (h : Installs u (f <$> x) post') :
    Installs u x fun v names a => post' v names (f a) := by
  intro s a s' run
  refine h s (f a) s' ?_
  rw [run_map, run]

end Installs

namespace Unlisting

variable {α β : Type} {x y : Parser α}

/-- What follows begins after no call has been expanded. -/
theorem bind {u : UnitState} {f : α → Parser β} {post : UnitState → List String → β → Prop}
    (hx : Unlisting x) (hf : ∀ a v, u.Idle v → Installs v (f a) post) :
    Installs u (x >>= f) post := by
  refine Installs.bind (hx u) fun a v names none => ?_
  rw [none.1]
  exact hf a v none.2

theorem seq {f : α → Parser β} (hx : Unlisting x) (hf : ∀ a, Unlisting (f a)) :
    Unlisting (x >>= f) :=
  fun _ => hx.bind fun a v idle => (hf a v).mono fun _ _ _ none => ⟨none.1, idle.trans none.2⟩

theorem pure (a : α) : Unlisting (Pure.pure a) := fun u => .pure ⟨rfl, .refl u⟩

theorem map {f : α → β} (hx : Unlisting x) : Unlisting (f <$> x) :=
  fun u => (hx u).map fun _ _ _ none => none

theorem ite {b : Prop} [Decidable b] (hx : Unlisting x) (hy : Unlisting y) :
    Unlisting (if b then x else y) := by
  split
  · exact hx
  · exact hy

/-- A parser that leaves the unit and the scopes alone. -/
theorem calm (unit : ∀ s, (x s).2.unit = s.unit) (scopes : ∀ s, (x s).2.scopes = s.scopes) :
    Unlisting x := by
  intro u s a s' run start recorded
  have unit := unit s
  have scopes := scopes s
  rw [run] at unit scopes
  dsimp only at unit scopes
  rw [unit, start]
  exact ⟨recorded, [], scopes.trans (charge_nil _).symm, rfl, .refl u⟩

theorem work {w : Work α} (reports : w.OnlyReports) (nothing : w.RegistersNothing)
    (none : ∀ u, (w u).2.expandedCalls = u.expandedCalls) : Unlisting (ofWork w) := by
  intro u s a s' run start recorded
  subst start
  have registry := (reports s.unit).1
  have registrations := nothing s.unit
  obtain rfl : { s with unit := (w s.unit).2 } = s' := congrArg Prod.snd run
  refine ⟨recorded.of_same registry registrations, [], (charge_nil _).symm, rfl, ?_, none s.unit⟩
  show s.unit.registrations <:+ (w s.unit).2.registrations
  rw [registrations]

end Unlisting

/-! ## Tokens, constructs and scopes -/

theorem unlisting_peek : Unlisting peek := .calm (fun _ => rfl) fun _ => rfl

theorem unlisting_check (r : Reserved) : Unlisting (check r) := .calm (fun _ => rfl) fun _ => rfl

theorem unlisting_checkBinding : Unlisting checkBinding :=
  .calm (fun s => by rw [checkBinding_run]) fun s => by rw [checkBinding_run]

theorem unlisting_spanFrom (start : Token) : Unlisting (spanFrom start) :=
  .calm (fun _ => rfl) fun _ => rfl

theorem unlisting_advance : Unlisting advance := by
  refine .calm (fun s => ?_) fun s => ?_ <;>
  · rw [advance_run]
    split <;> rfl

theorem unlisting_accept (r : Reserved) : Unlisting (accept r) :=
  (unlisting_check r).seq fun _ => .ite ((unlisting_advance.map).seq fun _ => .pure _) (.pure _)

theorem unlisting_consume (r : Reserved) : Unlisting (consume r) := by
  refine .calm (fun s => ?_) fun s => ?_ <;>
  · rw [consume_run]
    split <;> rfl

theorem unlisting_consumeName (what : String) : Unlisting (consumeName what) := by
  refine .calm (fun s => ?_) fun s => ?_ <;>
  · rw [consumeName_run]
    split <;> rfl

theorem unlisting_openConstruct (c : Construct) : Unlisting (openConstruct c) :=
  (unlisting_consume _).seq fun _ => Unlisting.seq (.calm (fun _ => rfl) fun _ => rfl) fun _ =>
    .pure _

theorem unlisting_closeConstruct : Unlisting closeConstruct := by
  refine .calm (fun s => ?_) fun s => ?_ <;>
  · rw [closeConstruct_run]
    split
    · rfl
    · split <;> rfl

theorem unlisting_atBodyEnd : Unlisting (not <$> Nonterminals.atBodyEnd) :=
  .calm (fun _ => rfl) fun _ => rfl

theorem unlisting_atEnd : Unlisting atEnd := .calm (fun _ => rfl) fun _ => rfl

theorem unlisting_notAtEnd : Unlisting (not <$> atEnd) := .calm (fun _ => rfl) fun _ => rfl

theorem expandedCalls_register (d : MacroDefinition) (u : UnitState) :
    (Work.register d u).2.expandedCalls = u.expandedCalls := by
  unfold Work.register
  rw [run_bind, run_get]
  dsimp only
  cases u.registry.find? d.name with
  | none => rfl
  | some previous =>
    dsimp only
    split <;> rfl

theorem unlisting_announce (n : Node) : Unlisting (announce n) := by
  unfold announce
  split
  · split
    · rename_i d made
      intro u s a s' run start recorded
      subst start
      obtain rfl : { s with unit := (Work.register d s.unit).2 } = s' := congrArg Prod.snd run
      refine ⟨recorded.register d, [], (charge_nil _).symm, rfl, ?_, expandedCalls_register d _⟩
      show s.unit.registrations <:+ (Work.register d s.unit).2.registrations
      rw [(Work.registrations_register d s.unit).1]
      exact List.suffix_cons ..
    · exact .pure _
  · exact fun u => .of_get fun s => Unlisting.ite (.calm (fun _ => rfl) fun _ => rfl) (.pure _) u
  · exact .pure _

/-- Between opening and leaving a scope names are listed in it, and none in the scope around. -/
theorem installs_scope {α β : Type} {u : UnitState} {x : Parser α}
    {k : α → List String → Parser β} {p : UnitState → List String → α → Prop}
    {q : UnitState → List String → β → Prop} (hx : Installs u x p)
    (hk : ∀ a v names, p v names a → Installs v (k a (listNames [] names)) q) :
    Installs u (openScope >>= fun _ => x >>= fun a => closeScope >>= k a) q := by
  intro s b s' run start recorded
  obtain ⟨_, s₁, opened, run₁⟩ := bind_ok.mp run
  cases opened
  obtain ⟨a, s₂, made, run₂⟩ := bind_ok.mp run₁
  obtain ⟨kept, names, charged, ha⟩ := hx _ a s₂ made start recorded
  obtain ⟨l, s₃, closed, run₃⟩ := bind_ok.mp run₂
  rw [closeScope_run, charged] at closed
  cases closed
  have left := hk a s₂.unit names ha _ b s' run₃ rfl kept
  exact left

end GlyphScript
