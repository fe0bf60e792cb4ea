import GlyphScript.Proofs.Layout.Expansion
import GlyphScript.Proofs.Macro.Matching
import GlyphScript.Proofs.Order.Units
import GlyphScript.Proofs.Safety.Pass
import GlyphScript.Proofs.Stability.Definitions

/-!
# Expanding with macros in another order

Two units that know the same macros, one like the other, expand twins to twins
step by step: the same calls are replaced in the same passes, with the same
symbols, wherever macro definitions stand among the statements.
-/

namespace GlyphScript

/-- Units that know the same macros, which are sorted, and have come as far. -/
structure UnitState.Twin (K : String → Prop) (u u' : UnitState) : Prop where
  registry : u.registry.Twin K u'.registry
  sorted : u.Sorted
  gensym : u.gensym.Same u'.gensym
  checks : u.checks = u'.checks
  progress : u.progress = u'.progress

/-- The same template filled with twins. -/
structure Expansion.Twin (K : String → Prop) (e e' : Expansion) : Prop where
  node : e.node.Twin K Head.Opens e'.node
  injected : e.injected = e'.injected

namespace Work

/-- Work that comes to the same in units that know the same macros, or fails in both. -/
def abreast (K : String → Prop) : Correspondence Work := .run (fun _ _ => True) (UnitState.Twin K)

variable {K : String → Prop} {α β : Type} {R : α → β → Prop} {w : Work α} {w' : Work β}

theorem abreast_modify {f f' : UnitState → UnitState}
    (h : ∀ u u', u.Twin K u' → (f u).Twin K (f' u')) :
    (abreast K).rel (fun _ _ => True) (modify f : Work Unit) (modify f') :=
  fun u u' hu => ⟨.ok trivial, h u u' hu⟩

theorem abreast_report (e e' : Event) : (abreast K).rel (fun _ _ => True) (report e) (report e') :=
  abreast_modify fun _ _ h => ⟨h.registry, h.sorted, h.gensym, h.checks, h.progress⟩

theorem abreast_throw (f f' : Fault) : (abreast K).rel R (throw f : Work α) (throw f' : Work β) :=
  fun _ _ h => ⟨.error trivial, h⟩

theorem abreast_get : (abreast K).rel (UnitState.Twin K) (get : Work UnitState) get :=
  fun _ _ h => ⟨.ok h, h⟩

theorem abreast_ofExpansion {x : Except ExpansionFault α} {y : Except ExpansionFault β}
    (h : outcome.rel R x y) : (abreast K).rel R (ofExpansion x) (ofExpansion y) := by
  cases h with
  | ok h => exact (abreast K).pure h
  | error h => exact abreast_throw _ _

/-- What is known of the results of the one carries over to the pair. -/
theorem abreast_proper {p : α → Prop} (h : (abreast K).rel R w w') (hp : proper.holds w p) :
    (abreast K).rel (fun a b => p a ∧ R a b) w w' := by
  intro u u' hu
  have both := h u u' hu
  have one := hp u hu.sorted
  refine ⟨?_, both.2⟩
  generalize w u = res, w' u' = res' at both one
  obtain ⟨result, -⟩ := both
  cases one with
  | fault =>
    obtain ⟨res', s'⟩ := res'
    cases result with
    | error => exact .error trivial
  | ok _ made =>
    obtain ⟨res', s'⟩ := res'
    cases result with
    | ok r => exact .ok ⟨made, r⟩

theorem abreast_checkpoint : (abreast K).rel (fun _ _ => True) checkpoint checkpoint := by
  refine (abreast K).bind abreast_get fun u u' h => ?_
  rw [h.checks]
  split
  · exact (abreast K).pure trivial
  · exact abreast_throw _ _
  · exact abreast_modify fun u u' h => ⟨h.registry, h.sorted, h.gensym, rfl, h.progress⟩

/-! ## Expanding a call -/

variable {c c' : MacroCall}

theorem abreast_calledMacro (h : c.Twin K c') :
    (abreast K).rel (MacroDefinition.Twin K) (calledMacro c) (calledMacro c') := by
  refine (abreast K).bind abreast_get fun u u' hu => ?_
  have found := hu.registry.found c.name
  rw [← h.name]
  dsimp only
  generalize u.registry.find? c.name = o, u'.registry.find? c.name = o' at found
  cases found with
  | none => exact abreast_throw _ _
  | some d => exact (abreast K).pure d

theorem abreast_prepare {s s' : Selection} (h : s.Twin K s') (hygiene : Hygiene) :
    (abreast K).rel (fun p p' =>
        p.1.Twin (fun x => K x ∧ x ∉ s.bindings.names) Head.Opens p'.1 ∧ p.2 = p'.2)
      (prepare s hygiene) (prepare s' hygiene) := by
  intro u u' hu
  have same : ∀ x, x ∈ s.bindings.names ++ u.registry.names ↔
      x ∈ s'.bindings.names ++ u'.registry.names := by
    intro x
    rw [h.bindings.names, List.mem_append, List.mem_append, hu.registry.mem_names]
  have kept : ∀ x, K x ∧ x ∉ s.bindings.names → x ∈ s.bindings.names ++ u.registry.names := by
    intro x hx
    apply List.mem_append_right
    rw [← contains_iff_mem_names]
    exact (hu.registry.known x).mp hx.1
  obtain ⟨trees, tables, states⟩ := withHygiene_twin same kept h.template hygiene hu.gensym
  exact ⟨.ok ⟨trees, tables⟩, ⟨hu.registry, hu.sorted, states, hu.checks, hu.progress⟩⟩

theorem abreast_expandCall (h : c.Twin K c') (sorted : c.Sorted) :
    (abreast K).rel (Expansion.Twin K) (expandCall c) (expandCall c') := by
  refine (abreast K).bind (abreast_calledMacro h) fun d d' hd => ?_
  refine (abreast K).bind (abreast_ofExpansion (select_twin hd h sorted)) fun s s' hs => ?_
  rw [hd.hygiene]
  refine (abreast K).bind (abreast_prepare hs _) fun (t, table) (t', table') ⟨ht, same⟩ => ?_
  dsimp only at ht same ⊢
  subst same
  have filling : Filling.Twin K ⟨s.bindings, c.name, if s.quoted then 1 else 0⟩
      ⟨s'.bindings, c'.name, if s'.quoted then 1 else 0⟩ := ⟨hs.bindings, by rw [hs.quoted]⟩
  have filled := substitute_twin (fun x hx => hx.1)
    (fun x hx => Bindings.lookup_eq_none.mpr hx.2) filling ht
  refine (abreast K).bind (abreast_ofExpansion filled) fun n n' hn => ?_
  have made : Expansion.Twin K ⟨n, if d'.hygiene = .inject then n.binderNames else []⟩
      ⟨n', if d'.hygiene = .inject then n'.binderNames else []⟩ := ⟨hn, by rw [hn.binderNames]⟩
  have last := (abreast K).bind (abreast_report (.callExpanded c.name c.span)
    (.callExpanded c'.name c'.span)) fun _ _ _ => (abreast K).pure made
  split
  · exact (abreast K).bind (abreast_report _ _) fun _ _ _ => last
  · exact last

end Work

/-! ## What takes the place of a call -/

namespace Expansion

variable {K : String → Prop} {c c' : MacroCall} {e e' : Expansion}

theorem Twin.isTransform (h : e.Twin K e') : e.isTransform = e'.isTransform := by
  have block (names : List String) := h.node.head_iff (k := .block names) rfl
  unfold Expansion.isTransform
  split
  · rename_i names is
    rw [(block names).mp is]
  · rename_i other
    split
    · rename_i names is
      exact absurd ((block names).mpr is) (other names)
    · rfl

theorem Twin.statements (h : e.Twin K e') (is : e.isTransform = true) :
    List.Forall₂ (Node.Twin K Head.Opens) e.node.statements e'.node.statements := by
  refine h.node.statements ?_
  unfold Expansion.isTransform at is
  split at is
  · rename_i names block
    rw [block]
    rfl
  · cases is

theorem Twin.asExpression (h : e.Twin K e') :
    outcome.rel (Node.Twin K Head.Opens) (e.asExpression c) (e'.asExpression c') := by
  have same := h.isTransform
  have statements := h.statements
  unfold Expansion.asExpression
  rw [← same]
  split
  · rename_i is
    have statements := statements is
    generalize e.node.statements = ns, e'.node.statements = ns' at statements
    split
    · cases statements with
      | cons first rest =>
        cases rest
        obtain ⟨span, e', rfl, he⟩ := first.expressionStmt
        exact .ok he
    · rename_i other
      split
      · cases statements with
        | cons first rest =>
          cases rest
          obtain ⟨span, e, rfl, -⟩ := (Node.Twin.symm _ first).expressionStmt
          exact absurd rfl (other span e)
      · exact .error trivial
  · exact .ok h.node

theorem Twin.asStatements (h : e.Twin K e') (span span' : Span) :
    List.Forall₂ (Node.Twin K Head.Opens) (e.asStatements span) (e'.asStatements span') := by
  have same := h.isTransform
  have statements := h.statements
  unfold Expansion.asStatements
  rw [← same]
  split
  · rename_i is
    exact statements is
  · exact .cons (.same rfl (.cons (.one h.node) .nil)) .nil

end Expansion

/-! ## Pending calls -/

section

variable {K : String → Prop} {r r' : Registry} {n n' : Node}

theorem MacroCall.pending?_call (r : Registry) (span : Span) (callee : Node) (args : Slot Node) :
    pending? r (.mk span .call [.one callee, args]) =
      match callee.head with
      | .identifier x => if r.contains x then some ⟨x, args.toList, span⟩ else none
      | _ => none := rfl

/-- What is a call of a macro is one in both trees, marked or not. -/
theorem MacroCall.pending?_twin (hr : r.Twin K r') (h : n.Twin K Head.Opens n') :
    Option.Rel (MacroCall.Twin K) (pending? r n) (pending? r' n') := by
  cases h with
  | marked hx args =>
    rename_i x _ _
    have known : r'.contains x = true := by
      rw [← hr.contains]
      exact (hr.known x).mp hx
    simp only [pending?, ofNode?, Node.head, Node.slots, known, if_true]
    exact .some ⟨rfl, args.toList⟩
  | unmarked hx args =>
    rename_i x _ _
    have known : r.contains x = true := (hr.known x).mp hx
    simp only [pending?, ofNode?, Node.head, Node.slots, known, if_true]
    exact .some ⟨rfl, args.toList⟩
  | @same span span' head slots slots' opened rel =>
    cases head
    case call =>
      rcases rel with _ | ⟨⟨⟩ | @⟨f, f', hf⟩ | ⟨_⟩, _ | ⟨args, _ | ⟨_, _⟩⟩⟩
      case cons.one.cons.nil =>
        rw [pending?_call, pending?_call]
        by_cases name : ∃ x, f.head = .identifier x
        · obtain ⟨x, is⟩ := name
          rw [is, (hf.head_iff rfl).mp is]
          dsimp only
          rw [← hr.contains]
          split
          · exact .some ⟨rfl, args.toList⟩
          · exact .none
        · have other : ¬ ∃ x, f'.head = .identifier x := by
            rintro ⟨x, is⟩
            exact name ⟨x, (hf.head_iff rfl).mpr is⟩
          split
          · exact absurd ⟨_, ‹_›⟩ name
          · split
            · exact absurd ⟨_, ‹_›⟩ other
            · exact .none
      all_goals exact .none
    case macroCall name deferred =>
      cases deferred with
      | true => exact .none
      | false =>
        rcases rel with _ | ⟨args, _ | ⟨_, _⟩⟩
        · exact .none
        · exact .some ⟨rfl, args.toList⟩
        · exact .none
    all_goals exact .none

/-- A pending call with sorted arguments, and its twin. -/
def MacroCall.SortedTwin (K : String → Prop) (c c' : MacroCall) : Prop := c.Sorted ∧ c.Twin K c'

theorem MacroCall.pending?_sortedTwin (hr : r.Twin K r') (hn : n.Sorted)
    (h : n.Twin K Head.Opens n') :
    Option.Rel (SortedTwin K) (pending? r n) (pending? r' n') := by
  have calls := MacroCall.pending?_twin hr h
  have sorted : ∀ c, pending? r n = some c → c.Sorted := fun c hc => (calls_of_pending hc).sorted hn
  generalize pending? r n = o, pending? r' n' = o' at calls sorted
  cases calls with
  | none => exact .none
  | some twin => exact .some ⟨sorted _ rfl, twin⟩

theorem PassM.pendingStatement?_twin (hr : r.Twin K r') (hn : n.Sorted)
    (h : n.Twin K Head.Opens n') :
    Option.Rel (MacroCall.SortedTwin K) (pendingStatement? r n) (pendingStatement? r' n') := by
  by_cases statement : n.head = .expressionStmt
  · obtain ⟨e, slots, he⟩ := hn.expression statement
    obtain ⟨span, head, slots'⟩ := n
    obtain rfl : head = .expressionStmt := statement
    obtain rfl : slots' = [.one e] := slots
    obtain ⟨span', e', rfl, twin⟩ := h.expressionStmt
    exact MacroCall.pending?_sortedTwin hr he.sorted twin
  · have other : n'.head ≠ .expressionStmt := fun is => statement ((h.head_iff rfl).mpr is)
    have none {s : Registry} {m : Node} (hm : m.head ≠ .expressionStmt) :
        pendingStatement? s m = none := by
      unfold pendingStatement?
      split
      · exact absurd ‹_› hm
      · rfl
    rw [none statement, none other]
    exact .none

end

/-! ## Passes -/

/-- Passes that have replaced as many calls and are in the same scopes. -/
structure PassState.Same (p p' : PassState) : Prop where
  replacements : p.replacements = p'.replacements
  last : Option.Rel (fun _ _ => True) p.last p'.last
  scopes : p.scopes = p'.scopes

namespace PassM

variable {K : String → Prop} {settings : Settings} {n n' : Node}

/-- Steps of passes that come to the same in units that know the same macros. -/
def abreast (K : String → Prop) : Correspondence PassM := (Work.abreast K).stateT PassState.Same

section

variable {α β : Type} {R : α → β → Prop}

theorem abreast_work {w : Work α} {w' : Work β} (h : (Work.abreast K).rel R w w') :
    (abreast K).rel R (liftM w : PassM α) (liftM w') :=
  fun _ _ hp => (Work.abreast K).bind h fun _ _ hab => (Work.abreast K).pure ⟨hab, hp⟩

theorem abreast_modify {f f' : PassState → PassState}
    (h : ∀ p p', p.Same p' → (f p).Same (f' p')) :
    (abreast K).rel (fun _ _ => True) (modify f : PassM Unit) (modify f') :=
  fun p p' hp => (Work.abreast K).pure ⟨trivial, h p p' hp⟩

end

theorem abreast_inject (names : List String) :
    (abreast K).rel (fun _ _ => True) (inject names) (inject names) := by
  refine abreast_modify fun p p' h => ?_
  rw [← h.scopes]
  split
  · exact ⟨h.replacements, h.last, rfl⟩
  · exact h

theorem abreast_openScope : (abreast K).rel (fun _ _ => True) openScope openScope :=
  abreast_modify fun _ _ h => ⟨h.replacements, h.last, by rw [h.scopes]⟩

theorem abreast_closeScope : (abreast K).rel Eq closeScope closeScope := by
  refine (abreast K).bind (R := PassState.Same) (fun p p' hp => (Work.abreast K).pure ⟨hp, hp⟩)
    fun p p' hp => ?_
  rw [hp.scopes]
  split
  · have left (q q' : PassState) (h : q.Same q') :
        (abreast K).rel (fun _ _ => True) (set q : PassM PUnit) (set q') :=
      fun _ _ _ => (Work.abreast K).pure ⟨trivial, h⟩
    exact (abreast K).bind (left _ _ ⟨hp.replacements, hp.last, rfl⟩) fun _ _ _ =>
      (abreast K).pure rfl
  · exact abreast_work (Work.abreast_throw _ _)

theorem abreast_countReplacement (c c' : MacroCall) :
    (abreast K).rel (fun _ _ => True) (countReplacement settings c) (countReplacement settings c') := by
  refine (abreast K).bind (R := PassState.Same) (fun p p' hp => (Work.abreast K).pure ⟨hp, hp⟩)
    fun p p' hp => ?_
  have counted : PassState.Same { p with replacements := p.replacements + 1, last := some c }
      { p' with replacements := p'.replacements + 1, last := some c' } :=
    ⟨by rw [hp.replacements], .some trivial, hp.scopes⟩
  refine (abreast K).bind (R := fun _ _ => True)
    (fun _ _ _ => (Work.abreast K).pure ⟨trivial, counted⟩) fun _ _ _ => ?_
  refine (abreast K).bind (abreast_work Work.abreast_get) fun u u' hu => ?_
  dsimp only
  rw [hu.progress, hp.replacements]
  split
  · exact abreast_work (Work.abreast_throw _ _)
  · exact (abreast K).pure trivial

/-- Calls that are replaced by expansions that are twins. -/
def Outcome.Twin (K : String → Prop) (o o' : Outcome) : Prop :=
  ∃ e e', o = .expanded e ∧ o' = .expanded e' ∧ e.Twin K e'

variable {c c' : MacroCall}

theorem abreast_replaceCall (h : c.SortedTwin K c') :
    (abreast K).rel (Outcome.Twin K) (replaceCall settings c) (replaceCall settings c') := by
  refine (abreast K).bind (abreast_work (Work.abreast_calledMacro h.2)) fun d d' hd => ?_
  refine (abreast K).bind (abreast_countReplacement c c') fun _ _ _ => ?_
  rw [← hd.phase, if_neg hd.kept, if_neg hd.kept]
  refine (abreast K).bind (abreast_work (Work.abreast_expandCall h.2 h.1)) fun e e' he => ?_
  rw [he.injected]
  exact (abreast K).bind (abreast_inject _) fun _ _ _ => (abreast K).pure ⟨e, e', rfl, rfl, he⟩

theorem abreast_replaceStatement (h : c.SortedTwin K c') (span span' : Span) :
    (abreast K).rel (Slot.Rel (Node.Twin K Head.Opens)) (replaceStatement settings span c)
      (replaceStatement settings span' c') := by
  refine (abreast K).bind (abreast_replaceCall h) fun o o' ho => ?_
  obtain ⟨e, e', rfl, rfl, he⟩ := ho
  exact (abreast K).pure (.many (he.asStatements span span'))

theorem abreast_replaceExpression (h : c.SortedTwin K c') :
    (abreast K).rel (Slot.Rel (Node.Twin K Head.Opens)) (replaceExpression settings c)
      (replaceExpression settings c') := by
  refine (abreast K).bind (abreast_replaceCall h) fun o o' ho => ?_
  obtain ⟨e, e', rfl, rfl, he⟩ := ho
  exact (abreast K).bind (abreast_work (Work.abreast_ofExpansion he.asExpression)) fun n n' hn =>
    (abreast K).pure (.one hn)

theorem abreast_replaceAt {o o' p p' : Option MacroCall}
    (statement : Option.Rel (MacroCall.SortedTwin K) o o')
    (expression : Option.Rel (MacroCall.SortedTwin K) p p') (span span' : Span) :
    (abreast K).rel (Step.Corresponds (Slot.Rel (Node.Twin K Head.Opens)))
      (replaceAt settings span o p) (replaceAt settings span' o' p') := by
  cases statement with
  | some h =>
    exact (abreast K).bind (abreast_replaceStatement h span span') fun s s' hs =>
      (abreast K).pure (.done hs)
  | none =>
    cases expression with
    | some h =>
      exact (abreast K).bind (abreast_replaceExpression h) fun s s' hs => (abreast K).pure (.done hs)
    | none => exact (abreast K).pure .inside

theorem abreast_enter {span span' : Span} {head : Head} {slots slots' : List (Slot Node)}
    (opened : head.Opens) (hn : (Node.mk span head slots).Sorted)
    (rel : List.Forall₂ (Slot.Rel (Node.Twin K Head.Opens)) slots slots') :
    (abreast K).rel (Step.Corresponds (Slot.Rel (Node.Twin K Head.Opens)))
      (enter settings (.mk span head slots)) (enter settings (.mk span' head slots')) := by
  have h : (Node.mk span head slots).Twin K Head.Opens (.mk span' head slots') := .same opened rel
  refine (abreast K).bind (abreast_work Work.abreast_get) fun u u' hu => ?_
  have other : (abreast K).rel _ (replaceAt settings span _ _) (replaceAt settings span' _ _) :=
    abreast_replaceAt (pendingStatement?_twin hu.registry hn h)
      (MacroCall.pending?_sortedTwin hu.registry hn h) span span'
  have scope : (abreast K).rel (Step.Corresponds (Slot.Rel (Node.Twin K Head.Opens)))
      (openScope >>= fun _ => pure (.inside ())) (openScope >>= fun _ => pure (.inside ())) :=
    (abreast K).bind abreast_openScope fun _ _ _ => (abreast K).pure .inside
  cases head
  case macroCall name deferred =>
    cases deferred with
    | true => cases opened
    | false => exact other
  case macroDef | quote => cases opened
  case program | block => exact scope
  all_goals exact other

theorem abreast_leave {span span' : Span} {head : Head} {slots slots' : List (Slot Node)}
    (opened : head.Opens) (rel : List.Forall₂ (Slot.Rel (Node.Twin K Head.Opens)) slots slots') :
    (abreast K).rel (Slot.Rel (Node.Twin K Head.Opens)) (leave (.mk span head slots))
      (leave (.mk span' head slots')) := by
  have h : (Node.mk span head slots).Twin K Head.Opens (.mk span' head slots') := .same opened rel
  cases head
  case program | block =>
    exact (abreast K).bind abreast_closeScope fun names names' same =>
      (abreast K).pure (.one (same ▸ .same rfl rel))
  all_goals exact (abreast K).pure (.one h)

/-- The node is entered as a call: it is replaced if it is pending. -/
def EntersAsCall (settings : Settings) (n : Node) : Prop :=
  enter settings n = (getThe UnitState >>= fun u =>
    replaceAt settings n.span none (MacroCall.pending? u.registry n))

/-- A call that is pending is replaced as its twin is. -/
theorem abreast_pending (left : EntersAsCall settings n) (right : EntersAsCall settings n')
    (hn : n.Sorted) (h : n.Twin K Head.Opens n')
    (pending : ∀ r r', Registry.Twin K r r' → (MacroCall.pending? r n).isSome = true) :
    (abreast K).rel (Slot.Rel (Node.Twin K Head.Opens)) (n.transformM (transform settings) ())
      (n'.transformM (transform settings) ()) := by
  have entered : (abreast K).rel (fun s s' => ∃ t t', s = Step.done t ∧ s' = Step.done t' ∧
      Slot.Rel (Node.Twin K Head.Opens) t t') (enter settings n) (enter settings n') := by
    rw [left, right]
    refine (abreast K).bind (abreast_work Work.abreast_get) fun u u' hu => ?_
    have calls := MacroCall.pending?_sortedTwin hu.registry hn h
    have some := pending _ _ hu.registry
    generalize MacroCall.pending? u.registry n = o, MacroCall.pending? u'.registry n' = o' at calls some
    cases calls with
    | none => cases some
    | some twin =>
      exact (abreast K).bind (abreast_replaceExpression twin) fun t t' ht =>
        (abreast K).pure ⟨t, t', rfl, rfl, ht⟩
  obtain ⟨span, head, slots⟩ := n
  obtain ⟨span', head', slots'⟩ := n'
  rw [Node.transformM, Node.transformM]
  refine (abreast K).bind entered fun s s' hs => ?_
  obtain ⟨t, t', rfl, rfl, ht⟩ := hs
  exact (abreast K).pure ht

theorem abreast_transform (hn : n.Sorted) (h : n.Twin K Head.Opens n') :
    (abreast K).rel (Slot.Rel (Node.Twin K Head.Opens)) (n.transformM (transform settings) ())
      (n'.transformM (transform settings) ()) := by
  refine (abreast K).transformM_twin (P := Node.Sorted) (K := K) (H := Head.Opens)
    (R := Slot.Rel (Node.Twin K Head.Opens)) (fun n hn s hs m hm => ?_) ?_ ?_
    (fun _ _ h => h) ?_ ?_ n () n' hn h
  · exact hn.of_mem_walk (Node.mem_walk_child hs hm)
  · exact fun _ span span' head slots slots' opened hn rel => abreast_enter opened hn rel
  · exact fun _ span span' head slots slots' opened rel => abreast_leave opened rel
  · intro _ span span' place x args args' hx hn r _
    exact abreast_pending rfl rfl hn (.marked hx r) fun _ _ _ => rfl
  · intro _ span span' place x args args' hx hn r _
    refine abreast_pending rfl rfl hn (.unmarked hx r) fun r r' hr => ?_
    have known : r.contains x = true := (hr.known x).mp hx
    simp [MacroCall.pending?, Node.head, Node.slots, known]

end PassM

/-! ## Programs -/

/-- The same statements but for definitions of macros, which may stand anywhere among them. -/
inductive Arranged (K : String → Prop) : List Node → List Node → Prop where
  | nil : Arranged K [] []
  | both {n n' ns ns'} : n.Twin K Head.Opens n' → Arranged K ns ns' →
    Arranged K (n :: ns) (n' :: ns')
  | left {d ns ns'} : d.head.isMacroDef = true → Arranged K ns ns' → Arranged K (d :: ns) ns'
  | right {d ns ns'} : d.head.isMacroDef = true → Arranged K ns ns' → Arranged K ns (d :: ns')

namespace Arranged

variable {K : String → Prop} {ns ns' ms ms' : List Node}

theorem of_forall₂ (h : List.Forall₂ (Node.Twin K Head.Opens) ns ns') : Arranged K ns ns' := by
  induction h with
  | nil => exact .nil
  | cons h _ ih => exact .both h ih

theorem append (h : Arranged K ns ns') (h' : Arranged K ms ms') :
    Arranged K (ns ++ ms) (ns' ++ ms') := by
  induction h with
  | nil => exact h'
  | both h _ ih => exact .both h ih
  | left hd _ ih => exact .left hd ih
  | right hd _ ih => exact .right hd ih

/-- Without the definitions they are twins one by one. -/
theorem others (h : Arranged K ns ns') : List.Forall₂ (Node.Twin K Head.Opens)
    (ns.filter (!·.head.isMacroDef)) (ns'.filter (!·.head.isMacroDef)) := by
  induction h with
  | nil => exact .nil
  | @both n n' _ _ h _ ih =>
    have kind : n.head.isMacroDef = n'.head.isMacroDef := by
      cases h <;> rfl
    rw [List.filter_cons, List.filter_cons, kind]
    split
    · exact .cons h ih
    · exact ih
  | left hd _ ih => simpa [List.filter_cons, hd] using ih
  | right hd _ ih => simpa [List.filter_cons, hd] using ih

end Arranged

/-- Programs of statements that differ in where the definitions stand. -/
inductive ProgramTwin (K : String → Prop) : Node → Node → Prop where
  | intro {span span' ns ns' injected} : Arranged K ns ns' →
    ProgramTwin K (.program span ns injected) (.program span' ns' injected)

namespace PassM

variable {K : String → Prop} {settings : Settings}

theorem transform_sealed {n : Node} (h : n.head.isSealed = true) :
    n.transformM (transform settings) () = pure (.one n) := by
  funext q u
  obtain ⟨span, head, slots⟩ := n
  rw [Node.transformM]
  exact ends_bind.mpr ⟨_, _, _, enter_sealed (n := .mk span head slots) h q u,
    ends_pure.mpr ⟨rfl, rfl, rfl⟩⟩

theorem transformListM_sealed {d : Node} (h : d.head.isSealed = true) (ns : List Node) :
    Node.transformListM (transform settings) () (d :: ns) =
      (d :: ·) <$> Node.transformListM (transform settings) () ns := by
  rw [Node.transformListM, transform_sealed h, pure_bind, map_eq_pure_bind]
  rfl

theorem abreast_transformList {ns ns' : List Node} (h : Arranged K ns ns')
    (sorted : ∀ n ∈ ns, n.Sorted) :
    (abreast K).rel (Arranged K) (Node.transformListM (transform settings) () ns)
      (Node.transformListM (transform settings) () ns') := by
  induction h with
  | nil => exact (abreast K).pure .nil
  | both h _ ih =>
    obtain ⟨first, rest⟩ := List.forall_mem_cons.mp sorted
    rw [Node.transformListM, Node.transformListM]
    refine (abreast K).bind (abreast_transform first h) fun s s' hs => ?_
    exact (abreast K).bind (ih rest) fun ms ms' hms =>
      (abreast K).pure ((Arranged.of_forall₂ hs.toList).append hms)
  | @left d _ _ hd _ ih =>
    have rest := (abreast K).map (ih (List.forall_mem_cons.mp sorted).2) (f := (d :: ·)) (g := id)
      fun _ _ h => Arranged.left hd h
    rw [transformListM_sealed (Head.isSealed_of_isMacroDef hd)]
    rwa [id_map] at rest
  | @right d _ _ hd _ ih =>
    have rest := (abreast K).map (ih sorted) (f := id) (g := (d :: ·))
      fun _ _ h => Arranged.right hd h
    rw [transformListM_sealed (Head.isSealed_of_isMacroDef hd)]
    rwa [id_map] at rest

/-- A pass over a whole program. -/
theorem abreast_program {p p' : Node} (h : ProgramTwin K p p') (sorted : p.Sorted) :
    (abreast K).rel (fun s s' => ∃ m m', s = .one m ∧ s' = .one m' ∧ ProgramTwin K m m')
      (p.transformM (transform settings) ()) (p'.transformM (transform settings) ()) := by
  obtain @⟨span, span', ns, ns', injected, arranged⟩ := h
  have below : ∀ n ∈ ns, n.Sorted := fun n hn =>
    sorted.of_mem_walk (Node.mem_walk_child (s := .many ns) List.mem_cons_self hn)
  have run (span : Span) (ns : List Node) :
      (Node.program span ns injected).transformM (transform settings) () =
        (openScope >>= fun _ => Node.transformListM (transform settings) () ns >>= fun ms =>
          closeScope >>= fun names =>
            pure (.one (Node.program span ms (addNames injected names)))) := by
    rw [Node.program, Node.transformM]
    have entered : (transform settings).enter () (.mk span (.program injected) [.many ns]) =
        (openScope >>= fun _ => pure (.inside ())) := rfl
    rw [entered, bind_assoc]
    simp only [pure_bind, Node.transformSlotsM, bind_assoc]
    rfl
  rw [run, run]
  refine (abreast K).bind abreast_openScope fun _ _ _ => ?_
  refine (abreast K).bind (abreast_transformList arranged below) fun ms ms' made => ?_
  refine (abreast K).bind abreast_closeScope fun names names' same => ?_
  exact (abreast K).pure ⟨_, _, rfl, rfl, same ▸ .intro made⟩

end PassM

namespace Work

variable {K : String → Prop} {settings : Settings} {p p' : Node}

theorem abreast_pass (h : ProgramTwin K p p') (sorted : p.SortedProgram) :
    (abreast K).rel
      (fun x x' => ProgramTwin K x.1 x'.1 ∧ Option.Rel (fun _ _ => True) x.2 x'.2)
      (pass settings p) (pass settings p') := by
  have start : PassState.Same ⟨0, none, []⟩ ⟨0, none, []⟩ := ⟨rfl, .none, rfl⟩
  have transformed := @PassM.abreast_program K settings _ _ h sorted.sorted _ _ start
  refine (abreast K).bind transformed fun (s, q) (s', q') ⟨⟨m, m', hs, hs', hm⟩, hq⟩ => ?_
  dsimp only at hs hs' hq ⊢
  subst hs hs'
  have last : (abreast K).rel
      (fun x x' => ProgramTwin K x.1 x'.1 ∧ Option.Rel (fun _ _ => True) x.2 x'.2)
      (pure (m, q.last)) (pure (m', q'.last)) := (abreast K).pure ⟨hm, hq.last⟩
  refine (abreast K).bind abreast_get fun u u' hu => ?_
  refine (abreast K).bind (abreast_report _ _) fun _ _ _ => ?_
  rw [hq.replacements]
  split
  · refine (abreast K).bind (abreast_modify fun u u' h => ?_) fun _ _ _ => last
    exact ⟨h.registry, h.sorted, h.gensym, h.checks, by rw [h.progress]⟩
  · exact last

theorem abreast_settle (remaining : Nat) : ∀ {p p' : Node}, ProgramTwin K p p' → p.SortedProgram →
    (abreast K).rel (fun m m' => m.SortedProgram ∧ ProgramTwin K m m') (settle settings remaining p)
      (settle settings remaining p') := by
  induction remaining with
  | zero =>
    intro p p' h sorted
    rw [settle, settle]
    refine (abreast K).bind abreast_checkpoint fun _ _ _ => ?_
    have passed := abreast_proper (abreast_pass h sorted) (proper_pass settings sorted)
    refine (abreast K).bind passed fun r r' results => ?_
    obtain ⟨m, c⟩ := r
    obtain ⟨m', c'⟩ := r'
    obtain ⟨hs, hm, hc⟩ := results
    cases hc with
    | none => exact (abreast K).pure ⟨hs, hm⟩
    | some => exact abreast_throw _ _
  | succ remaining ih =>
    intro p p' h sorted
    rw [settle, settle]
    refine (abreast K).bind abreast_checkpoint fun _ _ _ => ?_
    have passed := abreast_proper (abreast_pass h sorted) (proper_pass settings sorted)
    refine (abreast K).bind passed fun r r' results => ?_
    obtain ⟨m, c⟩ := r
    obtain ⟨m', c'⟩ := r'
    obtain ⟨hs, hm, hc⟩ := results
    cases hc with
    | none => exact (abreast K).pure ⟨hs, hm⟩
    | some => exact ih hm hs

end Work

end GlyphScript
