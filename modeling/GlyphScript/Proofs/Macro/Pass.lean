import GlyphScript.Macro.Fixpoint
import GlyphScript.Proofs.Macro.Regularity

/-!
# Passes of the expansion

A pass leaves the registry alone and keeps trees regular, and it notes a call
whenever it replaces one.
-/

namespace GlyphScript

/-- What is left of a unit's macros when calls of some of them are deferred to the back end. -/
def Registry.expanded (r : Registry) : Scope where
  defined x := r.contains x = true
  deferred x := ∃ d, r.find? x = some d ∧ d.phase = .compile

theorem Registry.scope_le_expanded (r : Registry) : r.scope ≤ r.expanded :=
  ⟨fun _ h => h, fun _ h => h.elim⟩

theorem Registry.regular_of_find? {r : Registry} (hr : r.Regular) {x : String}
    {d : MacroDefinition} (h : r.find? x = some d) : d.Regular r.expanded :=
  (hr d (List.mem_of_find?_eq_some h)).mono r.scope_le_expanded

namespace PassM

variable {α β : Type} {r : Registry}

/-- The computation ends with a result. -/
def Ends (x : PassM α) (q : PassState) (u : UnitState) (a : α) (q' : PassState)
    (u' : UnitState) : Prop :=
  x q u = (.ok (a, q'), u')

theorem ends_bind {x : PassM α} {f : α → PassM β} {q q'' : PassState} {u u'' : UnitState} {b : β} :
    Ends (x >>= f) q u b q'' u'' ↔ ∃ a q' u', Ends x q u a q' u' ∧ Ends (f a) q' u' b q'' u'' := by
  refine (bind_ok (p := x q) (f := fun r => f r.1 r.2)).trans ?_
  simp only [Ends, Prod.exists]

theorem ends_pure {a b : α} {q q' : PassState} {u u' : UnitState} :
    Ends (pure a) q u b q' u' ↔ b = a ∧ q' = q ∧ u' = u := by
  constructor
  · intro h
    cases h
    exact ⟨rfl, rfl, rfl⟩
  · rintro ⟨rfl, rfl, rfl⟩
    rfl

theorem ends_work {w : Work α} {a : α} {q q' : PassState} {u u' : UnitState} :
    Ends (liftM w) q u a q' u' ↔ w u = (.ok a, u') ∧ q' = q := by
  refine (bind_ok (p := w) (f := fun a => pure (a, q))).trans ⟨?_, ?_⟩
  · rintro ⟨b, u₁, h, e⟩
    cases e
    exact ⟨h, rfl⟩
  · rintro ⟨h, rfl⟩
    exact ⟨a, u', h, rfl⟩

/-- What results of computations in which the registry stays `r`, and in which a call stays noted
once there is one. -/
def steady (r : Registry) : Guarantee PassM where
  holds x p := ∀ q u a q' u', u.registry = r → Ends x q u a q' u' →
    u'.registry = r ∧ (q'.last = none → q.last = none) ∧ p a
  pure h _ _ _ _ _ hu e := by
    obtain ⟨rfl, rfl, rfl⟩ := ends_pure.mp e
    exact ⟨hu, id, h⟩
  bind hx hf q u b q'' u'' hu e := by
    obtain ⟨a, q', u', ex, ef⟩ := ends_bind.mp e
    obtain ⟨hu', last, ha⟩ := hx q u a q' u' hu ex
    obtain ⟨hu'', last', hb⟩ := hf a ha q' u' b q'' u'' hu' ef
    exact ⟨hu'', last ∘ last', hb⟩

theorem steady_work {w : Work α} {p : α → Prop}
    (h : ∀ u a u', u.registry = r → w u = (.ok a, u') → u'.registry = r ∧ p a) :
    (steady r).holds (liftM w) p := by
  intro q u a q' u' hu e
  obtain ⟨run, rfl⟩ := ends_work.mp e
  obtain ⟨hu', ha⟩ := h u a u' hu run
  exact ⟨hu', id, ha⟩

theorem steady_modify {f : PassState → PassState} (h : ∀ q, (f q).last = none → q.last = none) :
    (steady r).holds (modify f : PassM Unit) fun _ => True := by
  intro q u a q' u' hu e
  cases e
  exact ⟨hu, h q, trivial⟩

theorem steady_inject (names : List String) : (steady r).holds (inject names) fun _ => True := by
  refine steady_modify fun q h => ?_
  split at h <;> exact h

/-- The innermost scope is left, so there has to be one. -/
theorem closeScope_ends {q q' : PassState} {u u' : UnitState} {names : List String} :
    Ends closeScope q u names q' u' ↔
      ∃ scopes, q.scopes = names :: scopes ∧ q' = { q with scopes } ∧ u' = u := by
  obtain ⟨replacements, last, scopes⟩ := q
  cases scopes with
  | nil =>
    constructor
    · intro h
      nomatch h
    · rintro ⟨_, h, -⟩
      nomatch h
  | cons scope scopes =>
    constructor
    · intro h
      cases h
      exact ⟨scopes, rfl, rfl, rfl⟩
    · rintro ⟨_, h, rfl, rfl⟩
      cases h
      rfl

theorem steady_closeScope : (steady r).holds closeScope fun _ => True := by
  intro q u a q' u' hu e
  obtain ⟨_, -, rfl, rfl⟩ := closeScope_ends.mp e
  exact ⟨hu, id, trivial⟩

/-! ## Replacing a call -/

theorem countReplacement_ends {settings : Settings} {c : MacroCall} {q q' : PassState}
    {u u' : UnitState} {a : Unit} (h : Ends (countReplacement settings c) q u a q' u') :
    q' = { q with replacements := q.replacements + 1, last := some c } ∧ u' = u := by
  unfold countReplacement at h
  obtain ⟨_, _, _, e, h⟩ := ends_bind.mp h
  cases e
  obtain ⟨_, _, _, e, h⟩ := ends_bind.mp h
  cases e
  obtain ⟨_, _, _, e, h⟩ := ends_bind.mp h
  cases e
  dsimp only at h
  split at h
  · nomatch h
  · cases h
    exact ⟨rfl, rfl⟩

/-- What a call of parts is replaced by. -/
def Outcome.Fits (r : Registry) (c : MacroCall) : Outcome → Prop
  | .deferred => r.expanded.deferred c.name
  | .expanded e => e.node.Part r.expanded

theorem replaceCall_ends {settings : Settings} {c : MacroCall} {o : Outcome} {q q' : PassState}
    {u u' : UnitState} (h : Ends (replaceCall settings c) q u o q' u') :
    q'.last = some c ∧ u'.registry = u.registry ∧
      (u.registry.Regular → (∀ a ∈ c.args, a.Part u.registry.expanded) →
        o.Fits u.registry c) := by
  unfold replaceCall at h
  obtain ⟨d, q₁, u₁, called, h₁⟩ := ends_bind.mp h
  obtain ⟨find, rfl⟩ := ends_work.mp called
  obtain ⟨found, rfl⟩ := Work.calledMacro_ok.mp find
  obtain ⟨_, q₂, u₂, count, h₂⟩ := ends_bind.mp h₁
  obtain ⟨rfl, rfl⟩ := countReplacement_ends count
  split at h₂
  · rename_i compile
    cases h₂
    exact ⟨rfl, rfl, fun _ _ => ⟨d, found, compile⟩⟩
  · obtain ⟨e, q₃, u₃, expand, h₃⟩ := ends_bind.mp h₂
    obtain ⟨run, rfl⟩ := ends_work.mp expand
    obtain ⟨_, q₄, u₄, inject, h₄⟩ := ends_bind.mp h₃
    obtain ⟨-, -, -, -, -, -, registry, -⟩ := Work.expandCall_ok run
    cases inject
    cases h₄
    refine ⟨?_, registry, fun regular args => expandCall_part run ?_ args⟩
    · dsimp only
      split <;> rfl
    · exact fun d hd => Registry.regular_of_find? regular hd

/-- A statement gives way to statements. -/
theorem replaceStatement_ends {settings : Settings} {c : MacroCall} {span : Span} {s : Slot Node}
    {q q' : PassState} {u u' : UnitState}
    (h : Ends (replaceStatement settings span c) q u s q' u') :
    q'.last = some c ∧ u'.registry = u.registry ∧
      (u.registry.Regular → (∀ a ∈ c.args, a.Part u.registry.expanded) →
        ∀ m ∈ s.toList, m.Regular u.registry.expanded) := by
  unfold replaceStatement at h
  obtain ⟨o, q₁, u₁, replaced, h₁⟩ := ends_bind.mp h
  obtain ⟨last, registry, fits⟩ := replaceCall_ends replaced
  cases o with
  | deferred =>
    cases h₁
    refine ⟨last, registry, fun regular args m hm => ?_⟩
    rw [List.mem_singleton.mp hm]
    exact Node.regular_expressionStmt (Node.part_macroCall (fun _ => fits regular args) args)
  | expanded e =>
    cases h₁
    exact ⟨last, registry, fun regular args =>
      Expansion.asStatements_regular (fits regular args) span⟩

/-- An expression gives way to an expression. -/
theorem replaceExpression_ends {settings : Settings} {c : MacroCall} {s : Slot Node}
    {q q' : PassState} {u u' : UnitState} (h : Ends (replaceExpression settings c) q u s q' u') :
    q'.last = some c ∧ u'.registry = u.registry ∧
      (u.registry.Regular → (∀ a ∈ c.args, a.Part u.registry.expanded) →
        ∃ m, s = .one m ∧ m.Part u.registry.expanded) := by
  unfold replaceExpression at h
  obtain ⟨o, q₁, u₁, replaced, h₁⟩ := ends_bind.mp h
  obtain ⟨last, registry, fits⟩ := replaceCall_ends replaced
  cases o with
  | deferred =>
    cases h₁
    exact ⟨last, registry, fun regular args =>
      ⟨_, rfl, Node.part_macroCall (fun _ => fits regular args) args⟩⟩
  | expanded e =>
    obtain ⟨n, q₂, u₂, made, h₂⟩ := ends_bind.mp h₁
    obtain ⟨run, rfl⟩ := ends_work.mp made
    obtain ⟨expression, rfl⟩ := Work.ofExpansion_ok.mp run
    cases h₂
    exact ⟨last, registry, fun regular args =>
      ⟨n, rfl, Expansion.asExpression_part (fits regular args) expression⟩⟩

end PassM

/-! ## Entering and leaving a node -/

/-- Expansion leaves the inside alone. -/
def Head.isSealed : Head → Bool
  | .macroDef .. | .quote | .macroCall _ true => true
  | _ => false

namespace PassM

theorem enter_sealed {settings : Settings} {n : Node} (h : n.head.isSealed = true)
    (q : PassState) (u : UnitState) : Ends (enter settings n) q u (.done (.one n)) q u := by
  obtain ⟨span, head, slots⟩ := n
  cases head
  case macroCall x d =>
    cases d
    · nomatch h
    · rfl
  case macroDef | quote => rfl
  all_goals nomatch h

theorem enter_scope {settings : Settings} {n : Node} (h : n.head.isScope = true)
    (q : PassState) (u : UnitState) :
    Ends (enter settings n) q u (.inside ()) { q with scopes := [] :: q.scopes } u := by
  obtain ⟨span, head, slots⟩ := n
  cases head
  case program | block => rfl
  all_goals nomatch h

theorem enter_other {settings : Settings} {n : Node} (hs : n.head.isSealed = false)
    (hh : n.head.isScope = false) (q : PassState) (u : UnitState) :
    enter settings n q u =
      (match pendingStatement? u.registry n, MacroCall.pending? u.registry n with
      | some c, _ => replaceStatement settings n.span c >>= fun s => pure (Step.done s)
      | none, some c => replaceExpression settings c >>= fun s => pure (Step.done s)
      | none, none => pure (Step.inside ()) : PassM (Step Unit (Slot Node))) q u := by
  obtain ⟨span, head, slots⟩ := n
  cases head
  case macroCall x d =>
    cases d
    · rfl
    · nomatch hs
  case program | block => nomatch hh
  case macroDef | quote => nomatch hs
  all_goals rfl

theorem pending?_args {S : Scope} {n : Node} {c : MacroCall}
    (h : MacroCall.pending? r n = some c) (hn : n.Regular S) : ∀ a ∈ c.args, a.Part S := by
  obtain ⟨span, head, slots⟩ := n
  unfold MacroCall.pending? at h
  dsimp only [Node.head, Node.slots] at h
  split at h
  · split at h
    · split at h
      · cases h
        exact fun a ha => hn.part rfl (List.mem_cons_of_mem _ List.mem_cons_self) ha
      · nomatch h
    · nomatch h
  · unfold MacroCall.ofNode? at h
    dsimp only [Node.head, Node.slots] at h
    split at h
    · cases h
      exact fun a ha => hn.part rfl List.mem_cons_self ha
    · nomatch h

theorem pendingStatement?_eq_some {n : Node} {c : MacroCall}
    (h : pendingStatement? r n = some c) :
    ∃ e, n.head = .expressionStmt ∧ n.slots = [.one e] ∧ MacroCall.pending? r e = some c := by
  unfold pendingStatement? at h
  split at h
  · rename_i e head slots
    exact ⟨e, head, slots, h⟩
  · nomatch h

/-- What is entered is replaced, which is noted, or it is left as it is for now. -/
theorem enter_ends {settings : Settings} {n : Node} {step : Step Unit (Slot Node)}
    {q q' : PassState} {u u' : UnitState} (h : Ends (enter settings n) q u step q' u') :
    u'.registry = u.registry ∧
    match step with
    | .done s =>
      (q'.last ≠ none ∨ n.head.isSealed = true ∧ q' = q) ∧
        (u.registry.Regular → n.Regular u.registry.expanded → n.Replaced u.registry.expanded s)
    | .inside _ =>
      q'.last = q.last ∧ n.head.isSealed = false ∧ (n.head.isScope = false →
        pendingStatement? u.registry n = none ∧ MacroCall.pending? u.registry n = none) := by
  cases hs : n.head.isSealed with
  | true =>
    cases (enter_sealed hs q u).symm.trans h
    exact ⟨rfl, .inr ⟨rfl, rfl⟩, fun _ hn => Node.replaced_self hn⟩
  | false =>
    cases hh : n.head.isScope with
    | true =>
      cases (enter_scope hh q u).symm.trans h
      exact ⟨rfl, rfl, rfl, fun h => nomatch h⟩
    | false =>
      rw [Ends, enter_other hs hh] at h
      cases statement : pendingStatement? u.registry n with
      | some c =>
        rw [statement] at h
        obtain ⟨e, head, slots, pending⟩ := pendingStatement?_eq_some statement
        obtain ⟨s, q₁, u₁, replaced, h⟩ := ends_bind.mp h
        obtain ⟨last, registry, statements⟩ := replaceStatement_ends replaced
        cases h
        refine ⟨registry, .inl ?_, fun regular hn => ?_⟩
        · rw [last]
          exact Option.some_ne_none c
        · have he : e.Regular u.registry.expanded := by
            refine hn.of_mem_walk (Node.mem_walk_child (s := .one e) ?_ List.mem_cons_self)
            rw [slots]
            exact List.mem_cons_self
          exact ⟨statements regular (pending?_args pending he), fun bare => absurd head bare⟩
      | none =>
        cases expression : MacroCall.pending? u.registry n with
        | some c =>
          rw [statement, expression] at h
          obtain ⟨s, q₁, u₁, replaced, h⟩ := ends_bind.mp h
          obtain ⟨last, registry, made⟩ := replaceExpression_ends replaced
          cases h
          refine ⟨registry, .inl ?_, fun regular hn => ?_⟩
          · rw [last]
            exact Option.some_ne_none c
          · obtain ⟨m, rfl, hm⟩ := made regular (pending?_args expression hn)
            exact Node.replaced_one hm
        | none =>
          rw [statement, expression] at h
          cases h
          exact ⟨rfl, rfl, rfl, fun _ => ⟨rfl, rfl⟩⟩

theorem steady_leave (n : Node) : (steady r).holds (leave n) fun s =>
    ∃ head, s = .one (.mk n.span head n.slots) ∧
      (head = n.head ∨ head.isScope = true) := by
  obtain ⟨span, head, slots⟩ := n
  cases head
  case program | block =>
    exact (steady r).bind steady_closeScope fun names _ =>
      (steady r).pure ⟨_, rfl, .inr rfl⟩
  all_goals exact (steady r).pure ⟨_, rfl, .inl rfl⟩

/-! ## Whole trees -/

/-- Names installed in a scope make no difference. -/
theorem regular_scope {S : Scope} {span : Span} {h h' : Head} {slots : List (Slot Node)}
    (hn : (Node.mk span h slots).Regular S) (hh' : h'.isScope = true) :
    (Node.mk span h' slots).Regular S := by
  refine Node.regular_mk.mpr ⟨?_, (Node.regular_mk.mp hn).2⟩
  cases h'
  case program | block =>
    refine ⟨.plain rfl, fun h => ?_, fun _ _ _ _ h => ?_, fun _ h => ?_⟩
    · nomatch h
    · nomatch h
    · nomatch h
  all_goals nomatch hh'

theorem replacedIn_of_filled {S : Scope} {s s' : Slot Node}
    (h : Guarantee.Filled id (fun n s => n.Regular S → n.Replaced S s) s s')
    (hs : ∀ n ∈ s.toList, n.Regular S) : Node.ReplacedIn S s s' := by
  cases h with
  | absent => exact Node.replacedIn_absent
  | one h => exact Node.replacedIn_one (h (hs _ List.mem_cons_self))
  | many h =>
    exact Node.replaced_many (forall₂_imp_of_mem h fun n hn _ h => h (hs n hn))

/-- A pass puts regular trees in the place of regular trees. -/
theorem steady_transform (settings : Settings) (hr : r.Regular) (n : Node) :
    (steady r).holds (n.transformM (transform settings) ()) fun s =>
      n.Regular r.expanded → n.Replaced r.expanded s := by
  refine (steady r).transformM
    (R := fun _ n s => n.Regular r.expanded → n.Replaced r.expanded s) (E := fun _ _ _ => True)
    ?_ ?_ n ()
  · intro _ n q u step q' u' hu h
    obtain ⟨registry, entered⟩ := enter_ends h
    subst hu
    cases step with
    | done s =>
      refine ⟨registry, fun none => ?_, entered.2 hr⟩
      rcases entered.1 with last | ⟨-, rfl⟩
      · exact absurd none last
      · exact none
    | inside _ => exact ⟨registry, entered.1 ▸ id, trivial⟩
  · intro _ span head slots _ slots' _ rel
    refine (steady r).mono (steady_leave _) fun s ⟨head', hs, same⟩ hn => ?_
    have replaced := Node.replaced_node hn (forall₂_imp_of_mem rel fun s hs _ h =>
      replacedIn_of_filled h ((Node.regular_mk.mp hn).2 s hs))
    rw [hs]
    rcases same with rfl | scope
    · exact replaced
    · have regular := regular_scope (replaced.regular _ (List.mem_singleton_self _)) scope
      refine Node.replaced_one ⟨regular, fun h => ?_⟩
      rw [show head' = _ from h] at scope
      nomatch scope

end PassM

end GlyphScript
