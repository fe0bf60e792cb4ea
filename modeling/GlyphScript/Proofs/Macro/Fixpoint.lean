import GlyphScript.Proofs.Macro.Pass
import GlyphScript.Proofs.Parsing.Conduct.Program

/-!
# Expansion reaches a fixpoint

A pass that notes no call has come to every place where one could stand, and
found none. Such a program is left as it is by every further pass.
-/

namespace GlyphScript

namespace Node

/-- What expansion gets to see of a tree: all but the insides of macro definitions, of quotes and of
deferred calls. -/
inductive Exposes : Node → Node → Prop where
  | self {n} : Exposes n n
  | child {n c m} : n.head.isSealed = false → c ∈ n.children → Exposes c m → Exposes n m

/-- The node is no call left to expand. -/
structure SettledAt (r : Registry) (n : Node) : Prop where
  expanded : ∀ x, n.head ≠ .macroCall x false
  uncalled : n.head = .call → ∀ callee x, .one callee ∈ n.slots → callee.head = .identifier x →
    r.contains x = false

def Settled (r : Registry) (n : Node) : Prop := ∀ m, n.Exposes m → m.SettledAt r

variable {r : Registry} {n : Node}

theorem exposes_iff {m : Node} :
    n.Exposes m ↔ m = n ∨ n.head.isSealed = false ∧ ∃ c ∈ n.children, c.Exposes m := by
  constructor
  · intro h
    cases h with
    | self => exact .inl rfl
    | child hs hc h => exact .inr ⟨hs, _, hc, h⟩
  · rintro (rfl | ⟨hs, c, hc, h⟩)
    · exact .self
    · exact .child hs hc h

theorem settled_iff :
    n.Settled r ↔ n.SettledAt r ∧ (n.head.isSealed = false → ∀ c ∈ n.children, c.Settled r) := by
  constructor
  · intro h
    exact ⟨h n .self, fun hs c hc m hm => h m (.child hs hc hm)⟩
  · rintro ⟨own, below⟩ m hm
    rcases exposes_iff.mp hm with rfl | ⟨hs, c, hc, hm⟩
    · exact own
    · exact below hs c hc m hm

theorem Exposes.mem_walk {m : Node} (h : n.Exposes m) : m ∈ n.walk := by
  induction h with
  | self => exact mem_walk_self _
  | child _ hc _ ih => exact mem_walk_trans (mem_walk_of_mem_children hc) ih

/-- A settled node is no pending call. -/
theorem SettledAt.pending?_eq_none (h : n.SettledAt r) : MacroCall.pending? r n = none := by
  unfold MacroCall.pending?
  split
  · rename_i callee args head slots
    split
    · rename_i x hx
      rw [h.uncalled head callee x (by rw [slots]; exact List.mem_cons_self) hx]
      rfl
    · rfl
  · unfold MacroCall.ofNode?
    split
    · rename_i x args head slots
      exact absurd head (h.expanded x)
    · rfl

/-- A regular node that is no pending call is settled. -/
theorem settledAt_of_pending? {S : Scope} (h : MacroCall.pending? r n = none)
    (hn : n.RegularAt S) : n.SettledAt r := by
  obtain ⟨span, head, slots⟩ := n
  refine ⟨?_, ?_⟩
  · rintro x (rfl : head = _)
    obtain ⟨⟩ | ⟨⟩ | ⟨⟩ | ⟨⟩ | ⟨plain⟩ := hn.fits
    · cases h
    · cases plain
  · rintro (rfl : head = _) callee x hc hx
    obtain ⟨⟩ | ⟨⟩ | ⟨⟩ | ⟨⟩ | ⟨plain⟩ := hn.fits
    · rename_i callee' args
      rcases List.mem_cons.mp hc with e | hc
      · cases e
        cases known : r.contains x with
        | false => rfl
        | true =>
          obtain ⟨span', head', slots'⟩ := callee
          obtain rfl : head' = _ := hx
          simp [MacroCall.pending?, Node.head, Node.slots, known] at h
      · cases List.mem_singleton.mp hc
    · cases plain

theorem settledAt_of_scope (h : n.head.isScope = true) : n.SettledAt r := by
  refine ⟨fun x e => ?_, fun e => ?_⟩
  · rw [e] at h
    nomatch h
  · rw [e] at h
    nomatch h

theorem settledAt_of_sealed (h : n.head.isSealed = true) : n.SettledAt r := by
  refine ⟨fun x e => ?_, fun e => ?_⟩
  · rw [e] at h
    nomatch h
  · rw [e] at h
    nomatch h

end Node

namespace PassM

variable {α β : Type} {r : Registry} {settings : Settings}

/-! ## A pass over a settled tree -/

theorem ends_map {x : PassM α} {f : α → β} {q q' : PassState} {u u' : UnitState} {b : β} :
    Ends (f <$> x) q u b q' u' ↔ ∃ a, Ends x q u a q' u' ∧ b = f a := by
  rw [map_eq_pure_bind, ends_bind]
  constructor
  · rintro ⟨a, q₁, u₁, h, e⟩
    obtain ⟨rfl, rfl, rfl⟩ := ends_pure.mp e
    exact ⟨a, h, rfl⟩
  · rintro ⟨a, h, rfl⟩
    exact ⟨a, q', u', h, ends_pure.mpr ⟨rfl, rfl, rfl⟩⟩

theorem ends_mapM {f : α → PassM β} {g : α → β} {q : PassState} {u : UnitState} :
    ∀ {l : List α}, (∀ a ∈ l, Ends (f a) q u (g a) q u) → Ends (l.mapM f) q u (l.map g) q u
  | [], _ => by
    rw [List.mapM_nil]
    exact ends_pure.mpr ⟨rfl, rfl, rfl⟩
  | a :: l, h => by
    rw [List.mapM_cons]
    refine ends_bind.mpr ⟨_, _, _, h a List.mem_cons_self, ?_⟩
    refine ends_bind.mpr ⟨_, _, _, ends_mapM fun a ha => h a (List.mem_cons_of_mem _ ha), ?_⟩
    exact ends_pure.mpr ⟨rfl, rfl, rfl⟩

theorem leave_scope {n : Node} (h : n.head.isScope = true) (q : PassState) (u : UnitState) :
    Ends (leave n) { q with scopes := [] :: q.scopes } u (.one n) q u := by
  have none (names : List String) : addNames names [] = names := List.append_nil names
  obtain ⟨span, head, slots⟩ := n
  cases head
  case program injected | block injected =>
    refine ends_bind.mpr ⟨[], q, u, rfl, ends_pure.mpr ⟨?_, rfl, rfl⟩⟩
    rw [none]
    rfl
  all_goals nomatch h

theorem leave_other {n : Node} (h : n.head.isScope = false) (q : PassState) (u : UnitState) :
    Ends (leave n) q u (.one n) q u := by
  obtain ⟨span, head, slots⟩ := n
  cases head
  case program | block => nomatch h
  all_goals exact ends_pure.mpr ⟨rfl, rfl, rfl⟩

theorem pendingStatement?_eq_none {n : Node} (h : ∀ c ∈ n.children, c.SettledAt r) :
    pendingStatement? r n = none := by
  unfold pendingStatement?
  split
  · rename_i e head slots
    refine (h e ?_).pending?_eq_none
    rw [Node.children, slots]
    exact List.mem_cons_self
  · rfl

/-- A pass leaves a settled tree as it is. -/
theorem transform_settled (n : Node) (h : n.Settled r) : ∀ q u, u.registry = r →
    Ends (n.transformM (transform settings) ()) q u (.one n) q u := by
  induction n using Node.induction_on with
  | step span head slots ih =>
    intro q u hu
    obtain ⟨own, below⟩ := Node.settled_iff.mp h
    rw [Node.transformM]
    cases hs : head.isSealed with
    | true =>
      exact ends_bind.mpr ⟨_, _, _, enter_sealed (n := .mk span head slots) hs q u, ends_pure.mpr ⟨rfl, rfl, rfl⟩⟩
    | false =>
      have slot (q : PassState) : ∀ s ∈ slots,
          Ends (Node.transformSlotM (transform settings) () s) q u s q u := by
        intro s hs'
        have inner : ∀ n ∈ s.toList, Ends (n.transformM (transform settings) ()) q u (.one n) q u :=
          fun n hn => ih s hs' n hn (below hs n (List.mem_flatMap.mpr ⟨s, hs', hn⟩)) q u hu
        cases s with
        | absent => exact ends_pure.mpr ⟨rfl, rfl, rfl⟩
        | one n => exact ends_map.mpr ⟨_, inner n List.mem_cons_self, rfl⟩
        | many ns =>
          rw [Node.transformSlotM, Node.transformListM_eq]
          refine ends_map.mpr ⟨_, ends_map.mpr ⟨_, ends_mapM inner, rfl⟩, ?_⟩
          simp [transform, List.flatMap_map, Slot.toList]
      have slotsEnd (q : PassState) :
          Ends (Node.transformSlotsM (transform settings) () slots) q u slots q u := by
        rw [Node.transformSlotsM_eq]
        simpa using ends_mapM (g := id) (slot q)
      cases hh : head.isScope with
      | true =>
        refine ends_bind.mpr ⟨_, _, _, enter_scope (n := .mk span head slots) hh q u, ?_⟩
        exact ends_bind.mpr ⟨_, _, _, slotsEnd _, leave_scope (n := .mk span head slots) hh q u⟩
      | false =>
        have call := own.pending?_eq_none
        have statement : pendingStatement? r (.mk span head slots) = none :=
          pendingStatement?_eq_none fun c hc => (Node.settled_iff.mp (below hs c hc)).1
        have entered : Ends (enter settings (.mk span head slots)) q u (.inside ()) q u := by
          rw [Ends, enter_other (n := .mk span head slots) hs hh, hu, statement, call]
          rfl
        refine ends_bind.mpr ⟨_, _, _, entered, ?_⟩
        exact ends_bind.mpr ⟨_, _, _, slotsEnd q, leave_other (n := .mk span head slots) hh q u⟩

/-! ## A pass that notes no call -/

theorem forall_of_ends_mapM {f : α → PassM β} {P : α → Prop} :
    ∀ {l : List α}, (∀ a ∈ l, (steady r).holds (f a) fun _ => True) →
      (∀ a ∈ l, ∀ q u b q' u', u.registry = r → Ends (f a) q u b q' u' → q'.last = none → P a) →
      ∀ {q u bs q' u'}, u.registry = r → Ends (l.mapM f) q u bs q' u' → q'.last = none →
        ∀ a ∈ l, P a
  | [], _, _, _, _, _, _, _, _, _, _ => List.forall_mem_nil _
  | a :: l, hf, h, q, u, bs, q', u', hu, run, quiet => by
    obtain ⟨hfa, hfl⟩ := List.forall_mem_cons.mp hf
    obtain ⟨ha, hl⟩ := List.forall_mem_cons.mp h
    rw [List.mapM_cons] at run
    obtain ⟨b, q₁, u₁, first, run⟩ := ends_bind.mp run
    obtain ⟨bs', q₂, u₂, rest, run⟩ := ends_bind.mp run
    obtain ⟨-, rfl, rfl⟩ := ends_pure.mp run
    have hu₁ := (hfa q u b q₁ u₁ hu first).1
    have last := ((steady r).mapM hfl _ _ _ _ _ hu₁ rest).2.1 quiet
    exact List.forall_mem_cons.mpr
      ⟨ha q u b q₁ u₁ hu first last, forall_of_ends_mapM hfl hl hu₁ rest quiet⟩

theorem steady_transformSlot (settings : Settings) (hr : r.Regular) (s : Slot Node) :
    (steady r).holds (Node.transformSlotM (transform settings) () s) fun _ => True := by
  cases s with
  | absent => exact (steady r).pure trivial
  | one n => exact (steady r).map (steady_transform settings hr n) fun _ _ => trivial
  | many ns =>
    rw [Node.transformSlotM, Node.transformListM_eq]
    have list := (steady r).mapM (l := ns) fun n _ => steady_transform settings hr n
    exact (steady r).map (p := fun _ => True) ((steady r).map list fun _ _ => trivial)
      fun _ _ => trivial

/-- A pass that notes no call finds the tree settled. -/
theorem settled_of_transform (hr : r.Regular) (n : Node) (hn : n.Regular r.expanded) :
    ∀ q u s q' u', u.registry = r → Ends (n.transformM (transform settings) ()) q u s q' u' →
      q'.last = none → n.Settled r := by
  induction n using Node.induction_on with
  | step span head slots ih =>
    intro q u s q' u' hu run quiet
    rw [Node.transformM] at run
    obtain ⟨step, q₁, u₁, entered, run⟩ := ends_bind.mp run
    obtain ⟨registry, state⟩ := enter_ends entered
    rw [hu] at registry state
    rw [Node.settled_iff]
    cases step with
    | done s =>
      obtain ⟨-, rfl, rfl⟩ := ends_pure.mp run
      obtain ⟨closed, -⟩ := state.1.resolve_left (not_not.mpr quiet)
      exact ⟨Node.settledAt_of_sealed closed, fun h => Bool.noConfusion (closed.symm.trans h)⟩
    | inside _ =>
      obtain ⟨-, hs, calls⟩ := state
      obtain ⟨slots', q₂, u₂, inner, run⟩ := ends_bind.mp run
      rw [Node.transformSlotsM_eq] at inner
      have hu₂ := ((steady r).mapM (fun s _ => steady_transformSlot settings hr s) _ _ _ _ _
        registry inner).1
      have last := (steady_leave (r := r) _ _ _ _ _ _ hu₂ run).2.1 quiet
      obtain ⟨own, below⟩ := Node.regular_mk.mp hn
      refine ⟨?_, fun _ c hc => ?_⟩
      · cases hh : head.isScope with
        | true => exact Node.settledAt_of_scope hh
        | false => exact Node.settledAt_of_pending? (calls hh).2 own
      · obtain ⟨s, hs', hc⟩ := List.mem_flatMap.mp hc
        refine forall_of_ends_mapM (P := fun s => ∀ c ∈ s.toList, c.Settled r)
          (fun s _ => steady_transformSlot settings hr s) ?_ registry inner last s hs' c hc
        intro s hs' q u s' q' u' hu run quiet
        cases s with
        | absent => exact List.forall_mem_nil _
        | one n =>
          obtain ⟨_, run, -⟩ := ends_map.mp run
          refine List.forall_mem_singleton.mpr ?_
          exact ih _ hs' n List.mem_cons_self (below _ hs' n List.mem_cons_self) _ _ _ _ _ hu run quiet
        | many ns =>
          rw [Node.transformSlotM, Node.transformListM_eq] at run
          obtain ⟨_, run, -⟩ := ends_map.mp run
          obtain ⟨_, run, -⟩ := ends_map.mp run
          exact forall_of_ends_mapM
            (fun n _ => (steady r).mono (steady_transform settings hr n) fun _ _ => trivial)
            (fun n hn => ih _ hs' n hn (below _ hs' n hn)) hu run quiet

end PassM

namespace Work

variable {settings : Settings}

/-! ## Passes -/

theorem pass_ok {n n' : Node} {c : Option MacroCall} {u u' : UnitState}
    (run : pass settings n u = (.ok (n', c), u')) (hr : u.registry.Regular)
    (hn : n.Part u.registry.expanded) :
    u'.registry = u.registry ∧ n'.Part u.registry.expanded ∧
      (c = none → n' = n ∧ n.Settled u.registry) := by
  unfold pass at run
  obtain ⟨⟨s, q⟩, u₁, transformed, run⟩ := bind_ok.mp run
  obtain ⟨registry, -, replaced⟩ :=
    PassM.steady_transform settings hr n _ _ _ _ _ rfl transformed
  obtain ⟨m, rfl, hm⟩ := (replaced hn.regular).part hn.bare
  have settled : q.last = none → m = n ∧ n.Settled u.registry := by
    intro quiet
    have settled := PassM.settled_of_transform hr n hn.regular _ _ _ _ _ rfl transformed quiet
    have same : PassM.Ends (n.transformM (PassM.transform settings) ()) ⟨0, none, []⟩ u (.one n)
        ⟨0, none, []⟩ u := PassM.transform_settled n settled _ _ rfl
    cases same.symm.trans transformed
    exact ⟨rfl, settled⟩
  obtain ⟨state, u₂, got, run⟩ := bind_ok.mp run
  obtain ⟨_, u₃, reported, run⟩ := bind_ok.mp run
  cases got
  cases reported
  dsimp only at run
  split at run
  · cases run
    exact ⟨registry, hm, settled⟩
  · cases run
    exact ⟨registry, hm, settled⟩

theorem pass_settled {n : Node} {u : UnitState} (h : n.Settled u.registry) :
    ∃ u', pass settings n u = (.ok (n, none), u') ∧ u'.registry = u.registry ∧
      u'.progress = u.progress := by
  have same : PassM.Ends (n.transformM (PassM.transform settings) ()) ⟨0, none, []⟩ u (.one n)
      ⟨0, none, []⟩ u := PassM.transform_settled n h _ _ rfl
  refine ⟨_, bind_ok.mpr ⟨_, u, same, rfl⟩, rfl, rfl⟩

theorem checkpoint_ok {u u' : UnitState} {a : Unit} (h : checkpoint u = (.ok a, u')) :
    u'.registry = u.registry ∧ u'.progress = u.progress := by
  unfold checkpoint at h
  rw [run_bind, run_get] at h
  dsimp only at h
  cases hc : u.checks with
  | none =>
    rw [hc] at h
    cases h
    exact ⟨rfl, rfl⟩
  | some k =>
    rw [hc] at h
    cases k with
    | zero => nomatch h
    | succ k =>
      cases h
      exact ⟨rfl, rfl⟩

theorem checkpoint_run {u : UnitState} (h : u.checks ≠ some 0) :
    ∃ u', checkpoint u = (.ok (), u') ∧ u'.registry = u.registry ∧ u'.progress = u.progress := by
  unfold checkpoint
  rw [run_bind, run_get]
  dsimp only
  rcases hc : u.checks with _ | _ | k
  · exact ⟨u, rfl, rfl, rfl⟩
  · exact absurd hc h
  · exact ⟨_, rfl, rfl, rfl⟩

/-! ## Passes to the end -/

/-- Passes end with a settled program. -/
theorem settle_ok {n n' : Node} {u u' : UnitState} :
    ∀ {k : Nat}, settle settings k n u = (.ok n', u') → u.registry.Regular →
      n.Part u.registry.expanded →
        u'.registry = u.registry ∧ n'.Part u.registry.expanded ∧ n'.Settled u.registry := by
  intro k run hr hn
  rw [settle] at run
  obtain ⟨_, u₁, checked, run₁⟩ := bind_ok.mp run
  obtain ⟨⟨m, c⟩, u₂, passed, run₂⟩ := bind_ok.mp run₁
  have hu₁ := (checkpoint_ok checked).1
  rw [← hu₁] at hr hn ⊢
  obtain ⟨hu₂, hm, settled⟩ := pass_ok passed hr hn
  cases c with
  | none =>
    obtain ⟨same, done⟩ := settled rfl
    cases run₂
    exact ⟨hu₂, hm, same ▸ done⟩
  | some c =>
    rw [← hu₂] at hr hm ⊢
    cases k with
    | zero => nomatch run₂
    | succ k => exact settle_ok run₂ hr hm

/-- A settled program is left as it is, unless the compilation has been cancelled. -/
theorem settle_settled {k : Nat} {n : Node} {u : UnitState} (h : n.Settled u.registry)
    (going : u.checks ≠ some 0) :
    ∃ u', settle settings k n u = (.ok n, u') ∧ u'.registry = u.registry ∧
      u'.progress = u.progress := by
  obtain ⟨u₁, checked, registry₁, progress₁⟩ := checkpoint_run going
  rw [← registry₁] at h
  obtain ⟨u₂, passed, registry₂, progress₂⟩ : ∃ u₂, pass settings n u₁ = (.ok (n, none), u₂) ∧
      u₂.registry = u₁.registry ∧ u₂.progress = u₁.progress := pass_settled h
  refine ⟨u₂, ?_, registry₂.trans registry₁, progress₂.trans progress₁⟩
  rw [settle]
  exact bind_ok.mpr ⟨_, _, checked, bind_ok.mpr ⟨_, _, passed, rfl⟩⟩

/-! ## Whole expansions -/

/-- Nothing is registered where every macro of the tree is known. -/
theorem registerMissing_self {n : Node} {u : UnitState}
    (known : ∀ d ∈ n.walk.filterMap MacroDefinition.ofNode?, u.registry.contains d.name = true) :
    registerMissing n u = (.ok (), u) := by
  unfold registerMissing
  generalize n.walk.filterMap MacroDefinition.ofNode? = ds at known
  induction ds with
  | nil => rfl
  | cons d ds ih =>
    obtain ⟨hd, hds⟩ := List.forall_mem_cons.mp known
    rw [List.forM_eq_forM, List.forM_cons]
    refine bind_ok.mpr ⟨(), u, ?_, ih hds⟩
    rw [run_bind, run_get]
    dsimp only
    rw [if_pos hd]
    rfl

/-- Afterwards every macro of the tree is known. -/
theorem registerMissing_ok {n : Node} {u u' : UnitState} {a : Unit}
    (h : registerMissing n u = (.ok a, u')) : u'.checks = u.checks ∧
      ∀ d ∈ n.walk.filterMap MacroDefinition.ofNode?, u'.registry.contains d.name = true := by
  have known : u'.checks = u.checks ∧ u.registry ≤ u'.registry ∧
      ∀ d ∈ n.walk.filterMap MacroDefinition.ofNode?, u'.registry.contains d.name = true := by
    unfold registerMissing at h
    generalize n.walk.filterMap MacroDefinition.ofNode? = ds at h
    induction ds generalizing u with
    | nil =>
      cases h
      exact ⟨rfl, le_refl _, List.forall_mem_nil _⟩
    | cons d ds ih =>
      rw [List.forM_eq_forM, List.forM_cons] at h
      obtain ⟨_, u₁, registered, h⟩ := bind_ok.mp h
      obtain ⟨checks, le, known⟩ := ih h
      obtain ⟨checks', le', here⟩ : u₁.checks = u.checks ∧ u.registry ≤ u₁.registry ∧
          u₁.registry.contains d.name = true := by
        rw [run_bind, run_get] at registered
        dsimp only at registered
        split at registered
        · rename_i contained
          cases registered
          exact ⟨rfl, le_refl _, contained⟩
        · obtain ⟨warnings, run⟩ := register_run d u
          cases run.symm.trans registered
          refine ⟨rfl, Registry.le_insert _ d, ?_⟩
          rw [Registry.contains_insert, decide_eq_true rfl, Bool.true_or]
      exact ⟨checks.trans checks', le_trans le' le, List.forall_mem_cons.mpr ⟨le _ here, known⟩⟩
  exact ⟨known.1, known.2.2⟩

/-- Nothing is registered for a program whose macros are known. -/
theorem registerMissing_known {S : Scope} {n : Node} {u : UnitState} (hn : n.Regular S)
    (known : ∀ x, S.defined x → u.registry.contains x = true) :
    registerMissing n u = (.ok (), u) := by
  refine registerMissing_self fun d hd => ?_
  obtain ⟨m, hm, made⟩ := List.mem_filterMap.mp hd
  unfold MacroDefinition.ofNode? at made
  split at made
  · rename_i x params p h rules template head slots
    cases made
    exact known x ((hn m hm).defined x params p h head)
  · nomatch made

theorem parse_ok {α : Type} {p : Parser α} {tokens : List Token} {u u' : UnitState} {a : α}
    (h : (parse p tokens).run u = (.ok a, u')) :
    ∃ s, p (ParserState.start u tokens) = (.ok a, s) ∧ s.unit = u' := by
  obtain ⟨result, unit⟩ := Prod.mk.inj (show
    ((p (ParserState.start u tokens)).1, (p (ParserState.start u tokens)).2.unit) = _ from h)
  exact ⟨_, Prod.ext result rfl, unit⟩

/-- As `Work.expand`, once the macros are known. -/
theorem expand_eq {n : Node} {u : UnitState} (known : registerMissing n u = (.ok (), u)) :
    (expand settings n).run u =
      settle settings settings.maxIterations n { u with progress := ⟨0, 0⟩ } := by
  show expand settings n u = _
  unfold expand
  rw [run_bind, known]
  dsimp only
  rw [run_bind, run_modify]

/-- A program that has been read from tokens expands, if at all, to one in which nothing is left
that could be expanded. The calls that are deferred in it are calls of macros of the back end, and
to expand it again changes nothing and takes no pass that replaces a call. -/
theorem expand_fixpoint {settings settings' : Settings} {g : Gensym} {checks : Option Nat}
    {tokens : List Token} {n n' : Node} {u s s' : UnitState}
    (parsed : (parse (Parser.program settings) tokens).run (UnitState.start g checks) = (.ok n, u))
    (registry : s.registry = u.registry)
    (expanded : (expand settings' n).run s = (.ok n', s')) :
    s'.registry = u.registry ∧ n'.Settled u.registry ∧
    (∀ m, n'.Exposes m → ∀ x, m.head = .macroCall x true →
      ∃ d, u.registry.find? x = some d ∧ d.phase = .compile) ∧
    ∀ t : UnitState, t.registry = u.registry → t.checks ≠ some 0 →
      ∃ t', (expand settings' n').run t = (.ok n', t') ∧ t'.registry = u.registry ∧
        t'.progress = ⟨0, 0⟩ := by
  have empty : Registry.empty.Regular := fun _ h => (List.not_mem_nil h).elim
  obtain ⟨done, run, rfl⟩ := parse_ok parsed
  obtain ⟨-, regular, read⟩ := conducts_program settings Registry.empty
    (ParserState.start (UnitState.start g checks) tokens) empty (le_refl _)
  rw [run] at regular read
  have hn := (read n rfl).mono (Registry.scope_le_expanded _)
  rw [← registry] at regular hn ⊢
  rw [expand_eq (registerMissing_known hn.regular fun _ h => h)] at expanded
  obtain ⟨kept, hn', settled⟩ := settle_ok expanded regular hn
  refine ⟨kept, settled, fun m hm x hx => ?_, fun t ht going => ?_⟩
  · exact (hn'.regular m hm.mem_walk).deferred x hx
  · rw [← ht] at hn' settled ⊢
    rw [expand_eq (registerMissing_known hn'.regular fun _ h => h)]
    exact settle_settled settled going

/-! ## A call that is expanded -/

/-- `<%| m (( x )) [[ '[ '( x )' ]' ]] |%> m (( y ))` -/
def callTokens : List Token :=
  let mark (r : Reserved) : Token := ⟨.reserved r, r.spelling, default, none⟩
  let name (x : String) : Token := ⟨.identifier, x, default, none⟩
  [mark .macroOpen, name "m", mark .listOpen, name "x", mark .listClose, mark .bodyOpen,
   mark .quoteOpen, mark .unquoteOpen, name "x", mark .unquoteClose, mark .quoteClose,
   mark .bodyClose, mark .macroClose, name "m", mark .listOpen, name "y", mark .listClose,
   .endAt default]

/-- The program of `callTokens` and the state of the unit it is in, and what it expands to. -/
def callExpansion : Option ((Node × UnitState) × (Node × UnitState)) :=
  let names := Gensym.ofNames "%" (.ofList ["m", "x", "y"])
  let settings : Settings :=
    { iterations_pos := Nat.zero_lt_succ 63, replacements_pos := Nat.zero_lt_succ 9999,
      parseDepth_pos := Nat.zero_lt_succ 31 }
  match (parse (Parser.program settings) callTokens).run (UnitState.start names none) with
  | (.ok n, u) =>
    match (expand settings n).run u with
    | (.ok n', s') => some ((n, u), (n', s'))
    | (.error _, _) => none
  | (.error _, _) => none

/-- The case of `callTokens`. -/
theorem callTokens_fixpoint : ∃ n u n' s', callExpansion = some ((n, u), (n', s')) ∧
    (s'.registry = u.registry ∧ n'.Settled u.registry ∧
    (∀ m, n'.Exposes m → ∀ x, m.head = .macroCall x true →
      ∃ d, u.registry.find? x = some d ∧ d.phase = .compile) ∧
    ∀ t : UnitState, t.registry = u.registry → t.checks ≠ some 0 →
      ∃ t', (expand {} n').run t = (.ok n', t') ∧ t'.registry = u.registry ∧
        t'.progress = ⟨0, 0⟩) := by
  have ends : callExpansion.isSome = true := by decide +kernel
  obtain ⟨⟨⟨n, u⟩, ⟨n', s'⟩⟩, h⟩ := Option.isSome_iff_exists.mp ends
  refine ⟨n, u, n', s', h, ?_⟩
  unfold callExpansion at h
  dsimp only at h
  split at h
  · rename_i n₁ u₁ parsed
    split at h
    · rename_i n₂ s₂ expanded
      cases h
      exact expand_fixpoint parsed rfl expanded
    · nomatch h
  · nomatch h

end Work

end GlyphScript
