import GlyphScript.Proofs.Macro.Expansion
import GlyphScript.Proofs.Macro.Registry
import GlyphScript.Proofs.Safety.Sorts

/-!
# Expansions of sorted calls

A pattern binds its names to expressions when it is matched against one, so a
template stays sorted when it is prepared and filled. An expansion is a body or
an expression, and either is what it is asked for.
-/

namespace GlyphScript

/-! ## Macros and calls -/

/-- The rules and the template of the macro are sorted. -/
structure MacroDefinition.Sorted (d : MacroDefinition) : Prop where
  rules : ∀ r ∈ d.rules, r.OfSort .rule
  template : ∀ q, d.template = some q → q.OfSort .template

/-- All macros of the registry are sorted. -/
def Registry.Sorted (r : Registry) : Prop := ∀ d ∈ r.macros, d.Sorted

theorem Registry.Sorted.insert {r : Registry} {d : MacroDefinition} (h : r.Sorted)
    (hd : d.Sorted) : (r.insert d).Sorted := by
  intro e he
  rcases mem_insert he with rfl | he
  · exact hd
  · exact h e he

theorem Registry.Sorted.of_find? {r : Registry} {d : MacroDefinition} {x : String} (h : r.Sorted)
    (hd : r.find? x = some d) : d.Sorted := h d (List.mem_of_find?_eq_some hd)

theorem MacroDefinition.sorted_of_node {n : Node} {d : MacroDefinition} (h : n.Sorted)
    (hd : ofNode? n = some d) : d.Sorted := by
  obtain ⟨span, head, slots⟩ := n
  unfold ofNode? at hd
  split at hd
  · rename_i name params phase hygiene rules template isMacro made
    cases hd
    obtain rfl : head = .macroDef name params phase hygiene := isMacro
    obtain rfl : slots = [rules, template] := made
    obtain _ | ⟨rules, _ | ⟨template, ⟨⟩⟩⟩ := Node.sorted_mk.mp h
    exact ⟨rules.children, fun q hq => template.children q (List.mem_of_head? hq)⟩
  · cases hd

/-- The arguments are expressions. -/
def MacroCall.Sorted (c : MacroCall) : Prop := ∀ a ∈ c.args, a.OfSort .expression

/-- What a node is that is a call of a macro, whether or not it is marked as one. -/
structure Node.Calls (n : Node) (c : MacroCall) : Prop where
  args : ∀ a ∈ c.args, a ∈ n.walk
  sorted : n.Sorted → c.Sorted
  expression : Category.expression.admits n.head = true
  plain : n.head ≠ .quote

theorem MacroCall.calls_of_node {n : Node} {c : MacroCall} (h : ofNode? n = some c) : n.Calls c := by
  obtain ⟨span, head, slots⟩ := n
  unfold ofNode? at h
  split at h
  · rename_i name args isCall made
    cases h
    obtain rfl : head = .macroCall name false := isCall
    obtain rfl : slots = [args] := made
    refine ⟨fun a ha => Node.mem_walk_child List.mem_cons_self ha, fun hn => ?_, rfl,
      by rintro ⟨⟩⟩
    obtain _ | ⟨args, ⟨⟩⟩ := Node.sorted_mk.mp hn
    exact args.children
  · cases h

theorem MacroCall.calls_of_pending {r : Registry} {n : Node} {c : MacroCall}
    (h : pending? r n = some c) : n.Calls c := by
  obtain ⟨span, head, slots⟩ := n
  unfold pending? at h
  split at h
  · rename_i callee args isCall made
    obtain rfl : head = .call := isCall
    obtain rfl : slots = [.one callee, args] := made
    split at h
    · split at h
      · cases h
        refine ⟨fun a ha => Node.mem_walk_child (List.mem_cons_of_mem _ List.mem_cons_self) ha,
          fun hn => ?_, rfl, by rintro ⟨⟩⟩
        obtain _ | ⟨-, _ | ⟨args, ⟨⟩⟩⟩ := Node.sorted_mk.mp hn
        exact args.children
      · cases h
    · cases h
  · exact calls_of_node h

/-! ## Matching -/

namespace Node

theorem OfSort.unwrap {n : Node} (h : n.OfSort .expression) : n.unwrap = n := by
  unfold Node.unwrap
  split
  · cases h.admitted
  · rfl

/-- Only tuples and tensors among the expressions have elements. -/
theorem OfSort.elementsFor {n : Node} {pattern : Head} {elements : List Node}
    (h : n.OfSort .expression) (he : elementsFor pattern n = some elements) :
    ∀ e ∈ elements, e.OfSort .expression := by
  obtain ⟨span, head, slots⟩ := n
  unfold Node.elementsFor at he
  dsimp only [Node.head, Node.slots] at he
  split at he
  case h_1 | h_2 =>
    cases he
    obtain _ | ⟨field, ⟨⟩⟩ := sorted_mk.mp h.sorted
    exact field.children
  case h_3 | h_4 | h_5 => cases h.admitted
  case h_6 => cases he

/-- The names are bound to expressions. -/
def Expressions (b : Bindings) : Prop := ∀ x ∈ b, x.2.OfSort .expression

theorem Expressions.bind {b : Bindings} {n : Node} (hb : Expressions b) (h : n.OfSort .expression)
    (name : String) : Expressions (b.bind name n) := by
  intro x hx
  rcases Bindings.mem_bind hx with hx | rfl
  · exact hb x hx
  · exact h

theorem Expressions.extend {b later : Bindings} (hb : Expressions b) (hl : Expressions later) :
    Expressions (b.extend later) := fun x hx => (Bindings.mem_extend hx).elim (hb x) (hl x)

theorem matchList_expressions {ps es : List Node} {b b' : Bindings}
    (step : ∀ p ∈ ps, ∀ {n : Node} {b b' : Bindings}, n.OfSort .expression → Expressions b →
      p.matchInto n b = some b' → Expressions b')
    (hes : ∀ e ∈ es, e.OfSort .expression) (hb : Expressions b)
    (h : matchList ps es b = some b') : Expressions b' := by
  induction ps generalizing es b with
  | nil =>
    cases es with
    | nil =>
      cases h
      exact hb
    | cons e es => cases h
  | cons p ps ih =>
    cases es with
    | nil => cases h
    | cons e es =>
      obtain ⟨he, hes⟩ := List.forall_mem_cons.mp hes
      rw [matchList] at h
      split at h
      · rename_i b₁ first
        exact ih (fun p hp => step p (List.mem_cons_of_mem _ hp)) hes
          (step p List.mem_cons_self he hb first) h
      · cases h

/-- Matching an expression binds names to expressions. -/
theorem matchInto_expressions (pattern : Node) : ∀ {n : Node} {b b' : Bindings},
    n.OfSort .expression → Expressions b → pattern.matchInto n b = some b' → Expressions b' := by
  induction pattern using induction_on with
  | step span head slots ih =>
    intro n b b' hn hb h
    unfold matchInto at h
    dsimp only at h
    rw [hn.unwrap] at h
    split at h
    case h_1 name =>
      split at h <;> cases h
      · exact hb
      · exact hb.bind hn name
    case h_2 value kind =>
      split at h
      · split at h <;> cases h
        exact hb
      · cases h
    case h_3 =>
      split at h
      case h_2 => cases h
      case h_1 elements found =>
        unfold matchSlots at h
        split at h
        case h_2 => cases h
        case h_1 ps =>
          exact matchList_expressions (ih _ List.mem_cons_self) (hn.elementsFor found) hb h

end Node

/-! ## Selecting -/

section

variable {c : MacroCall} {d : MacroDefinition} {sel : Selection}

theorem ruleSubject_expression (hc : c.Sorted) (pattern : Node) :
    (ruleSubject pattern c.args c.span).OfSort .expression := by
  have tuple : (Node.tupleLiteral c.span c.args).OfSort .expression :=
    ⟨Node.sorted_mk.mpr (.cons (.of_many hc) .nil), rfl⟩
  unfold ruleSubject
  split
  · rename_i arg made
    split
    · exact made ▸ tuple
    · exact hc arg (made ▸ List.mem_singleton_self arg)
  · exact tuple

/-- What a call selects is a body or an expression, with bindings to expressions. -/
theorem select_sorted (hd : d.Sorted) (hc : c.Sorted) (h : d.select c = .ok sel) :
    sel.template.OfSort .quoted ∧ Node.Expressions sel.bindings := by
  have params : Node.Expressions (Bindings.extend [] (d.params.zip c.args)) := by
    refine Node.Expressions.extend (List.forall_mem_nil _) fun x hx => ?_
    exact hc _ (List.of_mem_zip hx).2
  rcases d.select_cases h with ⟨-, body, bindings⟩ |
    ⟨-, r, hr, pattern, matched, slots, hb, bindings⟩
  · refine ⟨?_, bindings ▸ params⟩
    obtain ⟨q, hq, first⟩ := Option.bind_eq_some_iff.mp body
    obtain ⟨sorted, admitted⟩ := hd.template q hq
    obtain ⟨span, head, slots⟩ := q
    obtain rfl : head = .quote := of_decide_eq_true admitted
    obtain _ | ⟨inner, ⟨⟩⟩ := Node.sorted_mk.mp sorted
    obtain ⟨n, rfl, hn⟩ := inner.one
    obtain rfl : n = sel.template := Option.some.inj first
    exact hn
  · have bound := Node.matchInto_expressions pattern (ruleSubject_expression hc pattern)
      (List.forall_mem_nil _) hb
    refine ⟨?_, bindings ▸ params.extend bound⟩
    obtain ⟨sorted, admitted⟩ := hd.rules r hr
    obtain ⟨span, head, slots'⟩ := r
    obtain rfl : slots' = [.one pattern, .one sel.template] := slots
    cases head
    case macroRule isTransform =>
      cases isTransform <;>
      · obtain _ | ⟨-, _ | ⟨template, ⟨⟩⟩⟩ := Node.sorted_mk.mp sorted
        have ht := template.children _ List.mem_cons_self
        refine ⟨ht.sorted, ?_⟩
        have is := of_decide_eq_true ht.admitted
        simp [Category.admits, is]
    all_goals cases admitted

end

/-! ## Preparing and filling -/

namespace Node

variable {ρ : Type} {toSlot : ρ → Slot Node} {span span' : Span} {head head' : Head}
  {slots slots' : List (Slot Node)}

/-- A node whose children have given way stands where it stood, whatever its names are now. -/
theorem GivesWay.node (same : head.SameSort head')
    (rel : List.Forall₂
      (Guarantee.Filled toSlot fun n r => n.Sorted → n.GivesWay (toSlot r)) slots slots')
    (h : (mk span head slots).Sorted) :
    (mk span head slots).GivesWay (.one (mk span' head' slots')) :=
  .one (h.filled same.sorts rel) same.stands

theorem isolate_givesWay (keep : List String) (n : Node) (depth : Nat) :
    (Guarantee.state (fun _ : RenameTable × Gensym => True)).holds
      (n.transformM (isolating keep) depth) fun m => n.Sorted → n.GivesWay (.one m) := by
  let G := Guarantee.state (fun _ : RenameTable × Gensym => True)
  have head (h : Head) : G.holds (isolatedHead keep h) h.SameSort := by
    cases h
    case identifier =>
      refine G.bind (p := fun _ => True) (fun _ _ => ⟨trivial, trivial⟩) fun _ _ => ?_
      exact G.pure ⟨rfl, fun c => by cases c <;> exact id, id⟩
    all_goals
      exact G.mapBindersM_sameSort (f := fun _ => isolatedName keep)
        (fun _ _ _ _ => ⟨trivial, trivial⟩) _
  refine G.transformM (R := fun _ n m => n.Sorted → n.GivesWay (.one m)) (E := fun _ _ _ => True)
    (fun _ _ => G.pure trivial) ?_ n depth
  intro d span h slots _ slots' _ rel
  by_cases hd : d = 0
  · simp only [isolating, if_pos hd]
    exact G.bind (head h) fun h' same => G.pure (.node same rel)
  · simp only [isolating, if_neg hd]
    exact G.pure (.node (.refl h) rel)

theorem substitute_givesWay {f : Filling} (hf : Expressions f.bindings) (n : Node) (depth : Nat) :
    (Guarantee.except ExpansionFault).holds (n.transformM f.transform depth)
      fun m => n.Sorted → n.GivesWay (.one m) := by
  let G := Guarantee.except ExpansionFault
  refine G.transformM (R := fun _ n m => n.Sorted → n.GivesWay (.one m)) (E := fun _ _ _ => True)
    ?_ ?_ n depth
  · intro d n
    obtain ⟨span, head, slots⟩ := n
    cases head
    case identifier x =>
      refine G.pure fun hn => ?_
      by_cases hd : d = 0
      · rw [if_pos hd]
        cases bound : f.bindings.lookup x with
        | none => exact .self hn
        | some m => exact .expression rfl (by rintro ⟨⟩) (hf _ (mem_of_lookup bound))
      · rw [if_neg hd]
        exact .self hn
    all_goals exact G.pure trivial
  · intro d span head slots _ slots' _ rel
    unfold Filling.transform
    dsimp only
    split
    · rename_i e' isUnquote made
      obtain rfl : head = .unquote := isUnquote
      obtain rfl : slots' = [.one e'] := made
      split
      · refine G.pure fun hn => ?_
        have made : (mk span .unquote [.one e']).Sorted := hn.filled rfl rel
        obtain _ | ⟨inner, ⟨⟩⟩ := sorted_mk.mp made
        exact .expression rfl (by rintro ⟨⟩) (inner.children _ List.mem_cons_self)
      · exact G.pure (.node (.refl _) rel)
    · split
      · exact G.bind (G.mapBindersM_sameSort (fun _ _ _ _ => trivial) head) fun head' same =>
          G.pure (.node same rel)
      · exact G.pure (.node (.refl head) rel)

end Node

theorem Selection.prepared_sorted {sel : Selection} (h : sel.template.OfSort .quoted)
    (hygiene : Hygiene) (s : UnitState) : (sel.prepared hygiene s).OfSort .quoted := by
  cases hygiene with
  | isolate =>
    have gives := (Node.isolate_givesWay (sel.bindings.names ++ s.registry.names) sel.template 0
      (RenameTable.empty, s.gensym) trivial).1
    exact (gives h.sorted).ofSort h.admitted _ (List.mem_singleton_self _)
  | capture | inject => exact h

/-! ## Expanding -/

variable {c : MacroCall} {s s' : UnitState} {e : Expansion}

/-- A call expands to a body or an expression. -/
theorem expandCall_sorted (hs : s.registry.Sorted) (hc : c.Sorted)
    (run : (Work.expandCall c).run s = (.ok e, s')) : e.node.OfSort .quoted := by
  obtain ⟨d, sel, called, selected, filled, -⟩ := Work.expandCall_ok run
  obtain ⟨template, bound⟩ := select_sorted (hs.of_find? called) hc selected
  have prepared := sel.prepared_sorted template d.hygiene s
  have gives := Node.substitute_givesWay (f := sel.filling c.name) bound _ _ _ filled
  exact (gives prepared.sorted).ofSort prepared.admitted _ (List.mem_singleton_self _)

namespace Expansion

theorem statements_sorted (h : e.node.OfSort .quoted) (is : e.isTransform = true) :
    ∀ n ∈ e.node.statements, n.OfSort .statement := by
  obtain ⟨⟨span, head, slots⟩, injected⟩ := e
  cases head
  case block names =>
    obtain _ | ⟨field, ⟨⟩⟩ := Node.sorted_mk.mp h.sorted
    obtain ⟨ns, rfl, hns⟩ := field.many
    exact hns
  all_goals cases is

theorem expression_sorted (h : e.node.OfSort .quoted) (is : e.isTransform = false) :
    e.node.OfSort .expression := by
  refine ⟨h.sorted, ?_⟩
  have admitted := h.admitted
  obtain ⟨⟨span, head, slots⟩, injected⟩ := e
  cases head
  case block => cases is
  all_goals first | rfl | simp [Category.admits, Node.head, Head.category?] at admitted

theorem asStatements_sorted (h : e.node.OfSort .quoted) (span : Span) :
    ∀ n ∈ e.asStatements span, n.OfSort .statement := by
  intro n hn
  unfold asStatements at hn
  split at hn
  · rename_i is
    exact statements_sorted h is n hn
  · rename_i is
    rw [List.mem_singleton.mp hn]
    exact Node.ofSort_expressionStmt span (expression_sorted h (Bool.eq_false_iff.mpr is))

theorem asExpression_sorted (h : e.node.OfSort .quoted) {n : Node}
    (hn : e.asExpression c = .ok n) : n.OfSort .expression := by
  unfold asExpression at hn
  split at hn
  · rename_i is
    split at hn
    · rename_i span expression statements
      cases hn
      have stmt := statements_sorted h is (.mk span .expressionStmt [.one n])
        (statements ▸ List.mem_cons_self)
      obtain _ | ⟨field, ⟨⟩⟩ := Node.sorted_mk.mp stmt.sorted
      exact field.children n List.mem_cons_self
    · cases hn
  · rename_i is
    cases hn
    exact expression_sorted h (Bool.eq_false_iff.mpr is)

end Expansion

end GlyphScript
