import GlyphScript.Proofs.Layout.Units

/-!
# Expanding what stands elsewhere

The expansion of calls and of whole programs does not look at places: what is
alike is expanded alike, with the same symbols and in as many passes.
-/

namespace GlyphScript

/-- Work that comes to the same in units that have come to the same. -/
def working : Correspondence Work := .run Fault.Alike UnitState.Alike

/-- Expansions that differ in nothing but places. -/
structure Expansion.Alike (e e' : Expansion) : Prop where
  node : e.node.Alike e'.node
  injected : e.injected = e'.injected

namespace Work

variable {α β : Type} {R : α → β → Prop}

theorem report_alike (e e' : Event) : working.rel (fun _ _ => True) (report e) (report e') :=
  fun _ _ h => ⟨.ok trivial, ⟨h.registry, h.gensym, h.checks, h.progress⟩⟩

theorem throw_alike {f f' : Fault} (h : f.Alike f') :
    working.rel R (throw f : Work α) (throw f' : Work β) := fun _ _ hu => ⟨.error h, hu⟩

theorem get_alike : working.rel UnitState.Alike (get : Work UnitState) get :=
  fun _ _ h => ⟨.ok h, h⟩

theorem modify_alike {f f' : UnitState → UnitState} (h : ∀ u u', u.Alike u' → (f u).Alike (f' u')) :
    working.rel (fun _ _ => True) (modify f : Work Unit) (modify f') :=
  fun u u' hu => ⟨.ok trivial, h u u' hu⟩

theorem ofExpansion_alike {x : Except ExpansionFault α} {y : Except ExpansionFault β}
    (h : expanding.rel R x y) : working.rel R (ofExpansion x) (ofExpansion y) := by
  cases h with
  | ok h => exact working.pure h
  | error h => exact throw_alike (.expansion h)

theorem checkpoint_alike : working.rel (fun _ _ => True) checkpoint checkpoint := by
  refine working.bind get_alike fun u u' h => ?_
  rw [h.checks]
  split
  · exact working.pure trivial
  · exact throw_alike (.refl _)
  · exact modify_alike fun u u' h => ⟨h.registry, h.gensym, rfl, h.progress⟩

/-! ## Expanding a call -/

variable {c c' : MacroCall}

theorem calledMacro_alike (h : c.Alike c') :
    working.rel MacroDefinition.Alike (calledMacro c) (calledMacro c') := by
  refine working.bind get_alike fun u u' hu => ?_
  have found := hu.registry.find? c.name
  rw [← h.name]
  dsimp only
  generalize u.registry.find? c.name = o, u'.registry.find? c.name = o' at found
  cases found with
  | none =>
    refine throw_alike (.expansion ?_)
    simp [ExpansionFault.unplaced, hu.registry.names]
  | some d => exact working.pure d

theorem withHygiene_alike {n n' : Node} (h : n.Alike n') (hygiene : Hygiene) (keep : List String)
    (g : Gensym) : (n.withHygiene hygiene keep g).1.Alike (n'.withHygiene hygiene keep g).1 ∧
      (n.withHygiene hygiene keep g).2 = (n'.withHygiene hygiene keep g).2 := by
  cases hygiene with
  | capture | inject => exact ⟨h, rfl⟩
  | isolate =>
    obtain ⟨trees, state⟩ := isolate_alike h keep (RenameTable.empty, g) _ rfl
    exact ⟨trees, congrArg (fun s : RenameTable × Gensym => (some s.1, s.2)) state⟩

theorem prepare_alike {s s' : Selection} (h : s.Alike s') (hygiene : Hygiene) :
    working.rel (fun p p' => p.1.Alike p'.1 ∧ p.2 = p'.2) (prepare s hygiene)
      (prepare s' hygiene) := by
  refine working.bind get_alike fun u u' hu => ?_
  obtain ⟨trees, same⟩ := withHygiene_alike h.template hygiene
    (s'.bindings.names ++ u'.registry.names) u'.gensym
  dsimp only
  rw [h.bindings.names, hu.registry.names, hu.gensym]
  have state : UnitState.Alike
      { u with gensym := (s.template.withHygiene hygiene
        (s'.bindings.names ++ u'.registry.names) u'.gensym).2.2 }
      { u' with gensym := (s'.template.withHygiene hygiene
        (s'.bindings.names ++ u'.registry.names) u'.gensym).2.2 } :=
    ⟨hu.registry, congrArg Prod.snd same, hu.checks, hu.progress⟩
  refine working.bind (R := fun _ _ => True) (fun _ _ _ => ⟨.ok trivial, state⟩) fun _ _ _ => ?_
  exact working.pure ⟨trees, congrArg Prod.fst same⟩

theorem expandCall_alike (h : c.Alike c') :
    working.rel Expansion.Alike (expandCall c) (expandCall c') := by
  refine working.bind (calledMacro_alike h) fun d d' hd => ?_
  refine working.bind (ofExpansion_alike (select_alike hd h)) fun s s' hs => ?_
  rw [hd.hygiene]
  refine working.bind (prepare_alike hs _) fun (t, table) (t', table') ⟨ht, same⟩ => ?_
  dsimp only at ht same ⊢
  subst same
  have filling : Filling.Alike ⟨s.bindings, c.name, if s.quoted then 1 else 0⟩
      ⟨s'.bindings, c'.name, if s'.quoted then 1 else 0⟩ :=
    ⟨hs.bindings, h.name, by rw [hs.quoted]⟩
  refine working.bind (ofExpansion_alike (substitute_alike ht filling)) fun n n' hn => ?_
  have made : Expansion.Alike ⟨n, if d'.hygiene = .inject then n.binderNames else []⟩
      ⟨n', if d'.hygiene = .inject then n'.binderNames else []⟩ :=
    ⟨hn, by rw [hn.binderNames]⟩
  have last := working.bind (report_alike (.callExpanded c.name c.span)
    (.callExpanded c'.name c'.span)) fun _ _ _ => working.pure made
  split
  · exact working.bind (report_alike _ _) fun _ _ _ => last
  · exact last

end Work

/-! ## What takes the place of a call -/

namespace Expansion

variable {c c' : MacroCall} {e e' : Expansion}

theorem Alike.asExpression (h : e.Alike e') (hc : c.Alike c') :
    expanding.rel Node.Alike (e.asExpression c) (e'.asExpression c') := by
  have statements := h.node.statements
  unfold Expansion.asExpression
  rw [show e.isTransform = e'.isTransform by rw [isTransform, isTransform, h.node.head]]
  split
  · generalize e.node.statements = ns, e'.node.statements = ns' at statements
    split
    · cases statements with
      | cons first rest =>
        cases rest
        obtain ⟨span', e', rfl, he⟩ := first.expressionStmt
        exact .ok he
    · rename_i other
      split
      · cases statements with
        | cons first rest =>
          cases rest
          obtain ⟨span, e, rfl, -⟩ := first.symm.expressionStmt
          exact absurd rfl (other span e)
      · exact .error (hc.mismatch _)
  · exact .ok h.node

theorem Alike.asStatements (h : e.Alike e') (span span' : Span) :
    List.Forall₂ Node.Alike (e.asStatements span) (e'.asStatements span') := by
  unfold Expansion.asStatements
  rw [show e.isTransform = e'.isTransform by rw [isTransform, isTransform, h.node.head]]
  split
  · exact h.node.statements
  · exact .cons (.mk (.cons (.one h.node) .nil)) .nil

end Expansion

theorem MacroCall.ofNode?_alike {n n' : Node} (h : n.Alike n') :
    Option.Rel MacroCall.Alike (ofNode? n) (ofNode? n') := by
  obtain ⟨span, head, slots⟩ := n
  obtain ⟨span', head', slots'⟩ := n'
  obtain rfl : head = head' := h.head
  have rel : List.Forall₂ (Slot.Rel Node.Alike) slots slots' := h.slots
  cases head
  case macroCall name deferred =>
    cases deferred with
    | true => exact .none
    | false =>
      rcases rel with _ | ⟨args, _ | ⟨_, _⟩⟩
      · exact .none
      · exact .some ⟨rfl, args.toList⟩
      · exact .none
  all_goals exact .none

theorem MacroCall.pending?_alike {r r' : Registry} (hr : r.Alike r') {n n' : Node}
    (h : n.Alike n') : Option.Rel MacroCall.Alike (pending? r n) (pending? r' n') := by
  have call := ofNode?_alike h
  obtain ⟨span, head, slots⟩ := n
  obtain ⟨span', head', slots'⟩ := n'
  obtain rfl : head = head' := h.head
  have rel : List.Forall₂ (Slot.Rel Node.Alike) slots slots' := h.slots
  cases head
  case call =>
    rcases rel with _ | ⟨⟨⟩ | ⟨hf⟩ | ⟨_⟩, _ | ⟨args, _ | ⟨_, _⟩⟩⟩
    case cons.one.cons.nil =>
      rename_i f f' _ _
      obtain ⟨_, callee, _⟩ := f
      obtain ⟨_, callee', _⟩ := f'
      obtain rfl : callee = callee' := hf.head
      dsimp only [pending?, Node.head, Node.slots]
      rw [← hr.contains]
      split
      · split
        · exact .some ⟨rfl, args.toList⟩
        · exact .none
      · exact .none
    all_goals exact .none
  all_goals exact call

/-! ## Passes -/

/-- Passes that have come as far. -/
structure PassState.Alike (p p' : PassState) : Prop where
  replacements : p.replacements = p'.replacements
  last : Option.Rel MacroCall.Alike p.last p'.last
  scopes : p.scopes = p'.scopes

namespace PassM

def passing : Correspondence PassM := working.stateT PassState.Alike

variable {α β : Type} {R : α → β → Prop} {settings : Settings} {n n' : Node}

theorem passing_work {w : Work α} {w' : Work β} (h : working.rel R w w') :
    passing.rel R (liftM w : PassM α) (liftM w') :=
  fun _ _ hp => working.bind h fun _ _ hab => working.pure ⟨hab, hp⟩

theorem passing_modify {f f' : PassState → PassState} (h : ∀ p p', p.Alike p' → (f p).Alike (f' p')) :
    passing.rel (fun _ _ => True) (modify f : PassM Unit) (modify f') :=
  fun p p' hp => working.pure ⟨trivial, h p p' hp⟩

theorem inject_alike (names : List String) :
    passing.rel (fun _ _ => True) (inject names) (inject names) := by
  refine passing_modify fun p p' h => ?_
  rw [← h.scopes]
  split
  · exact ⟨h.replacements, h.last, rfl⟩
  · exact h

theorem closeScope_alike : passing.rel Eq closeScope closeScope := by
  refine passing.bind (R := PassState.Alike) (fun p p' hp => working.pure ⟨hp, hp⟩)
    fun p p' hp => ?_
  rw [hp.scopes]
  split
  · have left (q q' : PassState) (h : q.Alike q') :
        passing.rel (fun _ _ => True) (set q : PassM PUnit) (set q') :=
      fun _ _ _ => working.pure ⟨trivial, h⟩
    exact passing.bind (left _ _ ⟨hp.replacements, hp.last, rfl⟩) fun _ _ _ => passing.pure rfl
  · exact passing_work (Work.throw_alike (.refl _))

theorem countReplacement_alike {c c' : MacroCall} (h : c.Alike c') :
    passing.rel (fun _ _ => True) (countReplacement settings c) (countReplacement settings c') := by
  refine passing.bind (R := PassState.Alike) (fun p p' hp => working.pure ⟨hp, hp⟩)
    fun p p' hp => ?_
  have counted : PassState.Alike { p with replacements := p.replacements + 1, last := some c }
      { p' with replacements := p'.replacements + 1, last := some c' } :=
    ⟨by rw [hp.replacements], .some h, hp.scopes⟩
  refine passing.bind (R := fun _ _ => True) (fun _ _ _ => working.pure ⟨trivial, counted⟩)
    fun _ _ _ => ?_
  refine passing.bind (passing_work Work.get_alike) fun u u' hu => ?_
  dsimp only
  rw [hu.progress, hp.replacements]
  split
  · refine passing_work (Work.throw_alike (.expansion ?_))
    simp [ExpansionFault.unplaced, h.name]
  · exact passing.pure trivial

/-- The same outcome, but for places. -/
inductive Outcome.Alike : Outcome → Outcome → Prop where
  | deferred : Outcome.Alike .deferred .deferred
  | expanded {e e'} : e.Alike e' → Outcome.Alike (.expanded e) (.expanded e')

theorem replaceCall_alike {c c' : MacroCall} (h : c.Alike c') :
    passing.rel Outcome.Alike (replaceCall settings c) (replaceCall settings c') := by
  refine passing.bind (passing_work (Work.calledMacro_alike h)) fun d d' hd => ?_
  refine passing.bind (countReplacement_alike h) fun _ _ _ => ?_
  rw [hd.phase]
  split
  · exact passing.pure .deferred
  · refine passing.bind (passing_work (Work.expandCall_alike h)) fun e e' he => ?_
    rw [he.injected]
    exact passing.bind (inject_alike _) fun _ _ _ => passing.pure (.expanded he)

theorem replaceStatement_alike {c c' : MacroCall} (h : c.Alike c') (span span' : Span) :
    passing.rel (Slot.Rel Node.Alike) (replaceStatement settings span c)
      (replaceStatement settings span' c') := by
  refine passing.bind (replaceCall_alike h) fun o o' ho => ?_
  cases ho with
  | deferred => exact passing.pure (.one (.mk (.cons (.one h.deferredNode) .nil)))
  | expanded he => exact passing.pure (.many (he.asStatements span span'))

theorem replaceExpression_alike {c c' : MacroCall} (h : c.Alike c') :
    passing.rel (Slot.Rel Node.Alike) (replaceExpression settings c)
      (replaceExpression settings c') := by
  refine passing.bind (replaceCall_alike h) fun o o' ho => ?_
  cases ho with
  | deferred => exact passing.pure (.one h.deferredNode)
  | expanded he =>
    exact passing.bind (passing_work (Work.ofExpansion_alike (he.asExpression h)))
      fun n n' hn => passing.pure (.one hn)

theorem pendingStatement?_alike {r r' : Registry} (hr : r.Alike r') (h : n.Alike n') :
    Option.Rel MacroCall.Alike (pendingStatement? r n) (pendingStatement? r' n') := by
  obtain ⟨span, head, slots⟩ := n
  obtain ⟨span', head', slots'⟩ := n'
  obtain rfl : head = head' := h.head
  have rel : List.Forall₂ (Slot.Rel Node.Alike) slots slots' := h.slots
  cases head
  case expressionStmt =>
    rcases rel with _ | ⟨⟨⟩ | ⟨e⟩ | ⟨_⟩, _ | ⟨_, _⟩⟩
    case cons.one.nil => exact MacroCall.pending?_alike hr e
    all_goals exact .none
  all_goals exact .none

/-- What a node at `span` is replaced by that is a statement made of the one call or is the other. -/
def replaceAt (settings : Settings) (span : Span) (statement expression : Option MacroCall) :
    PassM (Step Unit (Slot Node)) :=
  match statement, expression with
  | some c, _ => return .done (← replaceStatement settings span c)
  | none, some c => return .done (← replaceExpression settings c)
  | none, none => return .inside ()

theorem replaceAt_alike {o o' p p' : Option MacroCall} (statement : Option.Rel MacroCall.Alike o o')
    (expression : Option.Rel MacroCall.Alike p p') (span span' : Span) :
    passing.rel (Step.Corresponds (Slot.Rel Node.Alike)) (replaceAt settings span o p)
      (replaceAt settings span' o' p') := by
  cases statement with
  | some hc =>
    exact passing.bind (replaceStatement_alike hc _ _) fun s s' hs => passing.pure (.done hs)
  | none =>
    cases expression with
    | some hc =>
      exact passing.bind (replaceExpression_alike hc) fun s s' hs => passing.pure (.done hs)
    | none => exact passing.pure .inside

theorem enter_alike (h : n.Alike n') :
    passing.rel (Step.Corresponds (Slot.Rel Node.Alike)) (enter settings n) (enter settings n') := by
  refine passing.bind (passing_work Work.get_alike) fun u u' hu => ?_
  have other : passing.rel _ (replaceAt settings n.span _ _) (replaceAt settings n'.span _ _) :=
    replaceAt_alike (pendingStatement?_alike hu.registry h) (MacroCall.pending?_alike hu.registry h)
      n.span n'.span
  have scope : passing.rel (Step.Corresponds (Slot.Rel Node.Alike))
      (openScope >>= fun _ => pure (.inside ())) (openScope >>= fun _ => pure (.inside ())) :=
    passing.bind (passing_modify fun p p' h => ⟨h.replacements, h.last, by rw [h.scopes]⟩)
      fun _ _ _ => passing.pure .inside
  obtain ⟨span, head, slots⟩ := n
  obtain ⟨span', head', slots'⟩ := n'
  obtain rfl : head = head' := h.head
  cases head
  case macroCall name deferred =>
    cases deferred with
    | true => exact passing.pure (.done (.one h))
    | false => exact other
  case macroDef | quote => exact passing.pure (.done (.one h))
  case program | block => exact scope
  all_goals exact other

theorem leave_alike (h : n.Alike n') :
    passing.rel (Slot.Rel Node.Alike) (leave n) (leave n') := by
  obtain ⟨span, head, slots⟩ := n
  obtain ⟨span', head', slots'⟩ := n'
  obtain rfl : head = head' := h.head
  cases head
  case program | block =>
    exact passing.bind closeScope_alike fun names names' same =>
      passing.pure (.one (same ▸ .mk h.slots))
  all_goals exact passing.pure (.one h)

theorem transform_alike (h : n.Alike n') :
    passing.rel (Slot.Rel Node.Alike) (n.transformM (transform settings) ())
      (n'.transformM (transform settings) ()) := by
  refine passing.transformM (N := Node.Alike) (R := Slot.Rel Node.Alike)
    (fun _ _ h => ⟨h.head, h.slots⟩) (fun _ _ _ _ _ h => .mk h)
    (fun _ _ _ h => ?_) (fun _ _ _ h => ?_) (fun _ _ h => h) n () n' h
  · exact enter_alike h
  · exact leave_alike h

end PassM

namespace Work

variable {settings : Settings} {n n' : Node}

theorem pass_alike (h : n.Alike n') :
    working.rel (fun r r' => r.1.Alike r'.1 ∧ Option.Rel MacroCall.Alike r.2 r'.2)
      (pass settings n) (pass settings n') := by
  have start : PassState.Alike ⟨0, none, []⟩ ⟨0, none, []⟩ := ⟨rfl, .none, rfl⟩
  refine working.bind (PassM.transform_alike h _ _ start) fun (s, p) (s', p') ⟨hs, hp⟩ => ?_
  refine working.bind get_alike fun u u' hu => ?_
  refine working.bind (report_alike _ _) fun _ _ _ => ?_
  have result : Node.Alike (s.toList.headD n) (s'.toList.headD n') := by
    have nodes := hs.toList
    generalize s.toList = ns, s'.toList = ns' at nodes
    cases nodes with
    | nil => exact h
    | cons first _ => exact first
  dsimp only at hp ⊢
  rw [hp.replacements]
  have last : working.rel (fun r r' : Node × Option MacroCall =>
      r.1.Alike r'.1 ∧ Option.Rel MacroCall.Alike r.2 r'.2)
      (pure (s.toList.headD n, p.last)) (pure (s'.toList.headD n', p'.last)) :=
    working.pure ⟨result, hp.last⟩
  split
  · refine working.bind (modify_alike fun u u' h => ?_) fun _ _ _ => last
    exact ⟨h.registry, h.gensym, h.checks, by rw [h.progress]⟩
  · exact last

theorem settle_alike (remaining : Nat) (h : n.Alike n') :
    working.rel Node.Alike (settle settings remaining n) (settle settings remaining n') := by
  induction remaining generalizing n n' with
  | zero =>
    unfold settle
    refine working.bind checkpoint_alike fun _ _ _ => ?_
    refine working.bind (pass_alike h) fun ⟨n, o⟩ ⟨n', o'⟩ ⟨hn, ho⟩ => ?_
    dsimp only at hn ho ⊢
    cases ho with
    | none => exact working.pure hn
    | some hc =>
      refine throw_alike (.expansion ?_)
      simp [ExpansionFault.unplaced, hc.name]
  | succ remaining ih =>
    unfold settle
    refine working.bind checkpoint_alike fun _ _ _ => ?_
    refine working.bind (pass_alike h) fun ⟨n, o⟩ ⟨n', o'⟩ ⟨hn, ho⟩ => ?_
    dsimp only at hn ho ⊢
    cases ho with
    | none => exact working.pure hn
    | some _ => exact ih hn

theorem ofNode?_alike (h : n.Alike n') :
    Option.Rel MacroDefinition.Alike (MacroDefinition.ofNode? n) (MacroDefinition.ofNode? n') := by
  obtain ⟨span, head, slots⟩ := n
  obtain ⟨span', head', slots'⟩ := n'
  obtain rfl : head = head' := h.head
  have rel : List.Forall₂ (Slot.Rel Node.Alike) slots slots' := h.slots
  cases head
  case macroDef name params phase hygiene =>
    rcases rel with _ | ⟨rules, _ | ⟨template, _ | ⟨_, _⟩⟩⟩
    case cons.cons.nil =>
      exact .some ⟨rfl, rfl, rfl, rfl, rules.toList, optionRel_head? template.toList⟩
    all_goals exact .none
  all_goals exact .none

/-- Only a warning depends on where a macro of the same name stands. -/
theorem register_alike {d d' : MacroDefinition} (h : d.Alike d') :
    working.rel (fun _ _ => True) (register d) (register d') := by
  have last : working.rel (fun _ _ => True)
      (do modify fun s => { s with registry := s.registry.insert d }
          report (.macroRegistered d.name d.phase d.hygiene) : Work Unit)
      (do modify fun s => { s with registry := s.registry.insert d' }
          report (.macroRegistered d'.name d'.phase d'.hygiene)) := by
    refine working.bind (modify_alike fun u u' hu => ?_) fun _ _ _ => report_alike _ _
    exact ⟨hu.registry.insert h, hu.gensym, hu.checks, hu.progress⟩
  refine working.bind get_alike fun u u' hu => ?_
  have found := hu.registry.find? d.name
  rw [← h.name]
  dsimp only
  generalize u.registry.find? d.name = o, u'.registry.find? d.name = o' at found
  cases found with
  | none => exact h.name ▸ last
  | some _ =>
    rw [← h.name] at last
    dsimp only
    split <;> split
    · exact working.bind (report_alike _ _) fun _ _ _ => last
    · exact fun u u' hu => last { u with log := _ :: u.log } u'
        ⟨hu.registry, hu.gensym, hu.checks, hu.progress⟩
    · exact fun u u' hu => last u { u' with log := _ :: u'.log }
        ⟨hu.registry, hu.gensym, hu.checks, hu.progress⟩
    · exact last

theorem registerMissing_alike (h : n.Alike n') :
    working.rel (fun _ _ => True) (registerMissing n) (registerMissing n') := by
  have definitions {ns ns' : List Node} (h : List.Forall₂ Node.Alike ns ns') :
      List.Forall₂ MacroDefinition.Alike (ns.filterMap MacroDefinition.ofNode?)
        (ns'.filterMap MacroDefinition.ofNode?) := by
    induction h with
    | nil => exact .nil
    | cons first _ ih =>
      have here := ofNode?_alike first
      rw [List.filterMap_cons, List.filterMap_cons]
      revert here
      rcases MacroDefinition.ofNode? _ with _ | d <;>
        rcases MacroDefinition.ofNode? _ with _ | d' <;> rintro ⟨⟩
      · exact ih
      · rename_i hd
        exact .cons hd ih
  refine working.forM (definitions h.walk) fun d d' hd => ?_
  refine working.bind get_alike fun u u' hu => ?_
  rw [hu.registry.contains, hd.name]
  split
  · exact working.pure trivial
  · exact register_alike hd

theorem expand_alike (h : n.Alike n') :
    working.rel Node.Alike (expand settings n) (expand settings n') := by
  refine working.bind (registerMissing_alike h) fun _ _ _ => ?_
  refine working.bind (modify_alike fun u u' h => ?_) fun _ _ _ => settle_alike _ h
  exact ⟨h.registry, h.gensym, h.checks, rfl⟩

end Work

end GlyphScript
