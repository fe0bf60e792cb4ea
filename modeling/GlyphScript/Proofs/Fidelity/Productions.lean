import GlyphScript.Proofs.Fidelity.Phrases

/-!
# What nodes say

Every production of the grammar is read from what its node says. The cases
follow the productions, and in each the phrase is taken apart token by token.
-/

namespace GlyphScript

open Reserved

namespace Phrase

/-- As `Tells`, where lists that may be left out do not matter. -/
def Conveys (c : Category) (a : Phrase) : Prop :=
  ∀ ms f, a.Bears ms f → ∃ n : Node, n.Upright c ∧ Alike ms n.outline ∧ f = .ofNode n

theorem Tells.conveys {c : Category} {a : Phrase} (h : a.Tells c) : a.Conveys c := by
  intro ms f made
  obtain ⟨n, upright, rfl, found⟩ := h ms f made
  exact ⟨n, upright, .refl _, found⟩

/-! ## Operands -/

theorem tells_group : group.Tells .expression := by
  intro ms f made
  obtain ⟨_, _, _, _, rfl, ⟨rfl, rfl⟩, made, rfl⟩ := made
  obtain ⟨_, _, _, _, rfl, ⟨n, rfl, hn, rfl⟩, ⟨rfl, rfl⟩, rfl⟩ := made
  exact ⟨n, hn, List.append_nil _, rfl⟩

theorem tells_tupleLiteral : tupleLiteral.Tells .expression := by
  intro ms f made
  obtain ⟨_, ⟨_, _, _, _, rfl, ⟨rfl, rfl⟩, made, rfl⟩, -, rfl⟩ := made
  obtain ⟨ns, hns, rfl, rfl⟩ := made.listItems tells_expression
  refine ⟨.tupleLiteral default ns, Node.upright_mk (.cons (.many hns) .nil) ?_ rfl rfl rfl, ?_, rfl⟩
  · exact List.forall_mem_nil _
  · rw [Node.tupleLiteral, Node.outline_mk]
    unfold Outline.ownOf
    simp [Outline.arguments, listed]
    rfl

theorem tells_tensorLiteral : tensorLiteral.Tells .expression := by
  intro ms f made
  obtain ⟨_, ⟨_, _, _, _, rfl, ⟨rfl, rfl⟩, made, rfl⟩, -, rfl⟩ := made
  obtain ⟨ns, hns, rfl, rfl⟩ := made.listItems tells_expression
  refine ⟨.tensorLiteral default ns, Node.upright_mk (.cons (.many hns) .nil) ?_ rfl rfl rfl, ?_, rfl⟩
  · exact List.forall_mem_nil _
  · rw [Node.tensorLiteral, Node.outline_mk]
    unfold Outline.ownOf
    simp [listed]
    rfl

/-- The conditions of a clause are expressions, each behind its mark. -/
theorem bears_condition (ms : List Meaning) (f : Found)
    (made : (seq (mark compIf) expression).Bears ms f) : ∃ n : Node, n.Upright .expression ∧
      ms = Meaning.mark compIf :: n.outline ∧ f = .ofNode n := by
  obtain ⟨_, _, _, _, rfl, ⟨rfl, rfl⟩, ⟨n, rfl, hn, rfl⟩, rfl⟩ := made
  exact ⟨n, hn, rfl, rfl⟩

theorem tells_comprehensionClause : comprehensionClause.Tells .clause := by
  intro ms f made
  obtain ⟨_, ⟨_, _, _, _, rfl, ⟨rfl, rfl⟩, made, rfl⟩, -, rfl⟩ := made
  obtain ⟨_, _, _, _, rfl, ⟨x, hx, rfl, rfl⟩, made, rfl⟩ := made
  obtain ⟨_, _, _, _, rfl, ⟨rfl, rfl⟩, made, rfl⟩ := made
  obtain ⟨_, _, _, _, rfl, ⟨n, rfl, hn, rfl⟩, ⟨_, made, rfl⟩, rfl⟩ := made
  obtain ⟨ns, hns, rfl, rfl⟩ := Bears.star bears_condition made
  rw [listed_join_ofNode]
  refine ⟨.comprehensionClause default x n ns,
    Node.upright_mk (.cons (.one hn) (.cons (.many hns) .nil)) ?_ rfl rfl rfl, ?_, rfl⟩
  · exact List.forall_mem_singleton.mpr hx
  · rw [Node.comprehensionClause, Node.outline_mk]
    unfold Outline.ownOf
    simp
    rfl

theorem tells_comprehension : comprehension.Tells .expression := by
  intro ms f made
  obtain ⟨_, ⟨_, _, _, _, rfl, ⟨rfl, rfl⟩, made, rfl⟩, -, rfl⟩ := made
  obtain ⟨_, _, _, _, rfl, ⟨n, rfl, hn, rfl⟩, made, rfl⟩ := made
  obtain ⟨_, _, _, _, rfl, clauses, ⟨rfl, rfl⟩, rfl⟩ := made
  obtain ⟨ns, hns, inhabited, rfl, rfl⟩ := clauses.someOf tells_comprehensionClause
  refine ⟨.comprehension default n ns,
    Node.upright_mk (.cons (.one hn) (.cons (.many hns) .nil)) ?_ rfl ?_ rfl, ?_, rfl⟩
  · exact List.forall_mem_nil _
  · simpa [Node.isComplete, Slot.toList] using inhabited
  · rw [Node.comprehension, Node.outline_mk]
    unfold Outline.ownOf
    simp
    rfl

theorem tells_lambda : lambda.Tells .expression := by
  intro ms f made
  obtain ⟨_, ⟨_, _, _, _, rfl, ⟨rfl, rfl⟩, made, rfl⟩, -, rfl⟩ := made
  obtain ⟨_, _, _, _, rfl, names, made, rfl⟩ := made
  obtain ⟨xs, hxs, rfl, rfl⟩ := names.names
  obtain ⟨_, _, _, _, rfl, ⟨n, rfl, hn, rfl⟩, ⟨rfl, rfl⟩, rfl⟩ := made
  refine ⟨.lambda default xs n, Node.upright_mk (.cons (.one hn) .nil) ?_ rfl rfl rfl, ?_, rfl⟩
  · exact hxs
  · rw [Node.lambda, Node.outline_mk]
    unfold Outline.ownOf
    simp
    rfl

theorem tells_quoted : (either bodyOpen (part .body) expression).Tells .quoted := by
  intro ms f made
  rcases made with ⟨n, rfl, hn, rfl, -⟩ | ⟨n, rfl, hn, rfl⟩
  · refine ⟨n, hn.admits ?_, rfl, rfl⟩
    simp [Category.admits, of_decide_eq_true hn.admitted]
  · refine ⟨n, hn.admits ?_, rfl, rfl⟩
    simp [Category.admits, of_decide_eq_true hn.admitted]

/-- A quote may stand where a template is asked for. -/
theorem tells_template : quote.Tells .template := by
  intro ms f made
  obtain ⟨_, ⟨_, _, _, _, rfl, ⟨rfl, rfl⟩, made, rfl⟩, -, rfl⟩ := made
  obtain ⟨_, _, _, _, rfl, quoted, ⟨rfl, rfl⟩, rfl⟩ := made
  obtain ⟨n, hn, rfl, rfl⟩ := tells_quoted _ _ quoted
  refine ⟨.quote default n, Node.upright_mk (.cons (.one hn) .nil) ?_ rfl rfl rfl, ?_, rfl⟩
  · exact List.forall_mem_nil _
  · rw [Node.quote, Node.outline_mk]
    unfold Outline.ownOf
    simp
    rfl

theorem tells_quote : quote.Tells .expression := by
  intro ms f made
  obtain ⟨n, hn, rfl, rfl⟩ := tells_template _ _ made
  have is : n.head = .quote := of_decide_eq_true hn.admitted
  exact ⟨n, hn.admits (by rw [is]; rfl), rfl, rfl⟩

theorem tells_unquote : unquote.Tells .expression := by
  intro ms f made
  obtain ⟨_, ⟨_, _, _, _, rfl, ⟨rfl, rfl⟩, made, rfl⟩, -, rfl⟩ := made
  obtain ⟨_, _, _, _, rfl, ⟨n, rfl, hn, rfl⟩, ⟨rfl, rfl⟩, rfl⟩ := made
  refine ⟨.unquote default n, Node.upright_mk (.cons (.one hn) .nil) ?_ rfl rfl rfl, ?_, rfl⟩
  · exact List.forall_mem_nil _
  · rw [Node.unquote, Node.outline_mk]
    unfold Outline.ownOf
    simp
    rfl

theorem tells_markedCall : markedCall.Tells .expression := by
  intro ms f made
  obtain ⟨_, ⟨_, _, _, _, rfl, ⟨rfl, rfl⟩, made, rfl⟩, -, rfl⟩ := made
  obtain ⟨_, _, _, _, rfl, ⟨x, hx, rfl, rfl⟩, made, rfl⟩ := made
  obtain ⟨ns, hns, rfl, rfl⟩ := made.arguments
  refine ⟨.macroCall default x ns false,
    Node.upright_mk (.cons (.many hns) .nil) ?_ rfl rfl rfl, ?_, rfl⟩
  · exact List.forall_mem_singleton.mpr hx
  · rw [Node.macroCall, Node.outline_mk]
    unfold Outline.ownOf
    simp [Outline.arguments]
    rfl

theorem tells_negation : negation.Tells .expression := by
  intro ms f made
  obtain ⟨_, ⟨_, _, _, _, rfl, ⟨rfl, rfl⟩, ⟨n, rfl, hn, rfl⟩, rfl⟩, -, rfl⟩ := made
  refine ⟨.unaryOp default negate.spelling n,
    Node.upright_mk (.cons (.one hn) .nil) ?_ rfl rfl rfl, ?_, rfl⟩
  · exact List.forall_mem_nil _
  · rw [Node.unaryOp, Node.outline_mk]
    unfold Outline.ownOf
    simp
    rfl

theorem tells_awaiting : awaiting.Tells .expression := by
  intro ms f made
  obtain ⟨_, ⟨_, _, _, _, rfl, ⟨rfl, rfl⟩, ⟨n, rfl, hn, rfl⟩, rfl⟩, -, rfl⟩ := made
  refine ⟨.awaitExpr default n, Node.upright_mk (.cons (.one hn) .nil) ?_ rfl rfl rfl, ?_, rfl⟩
  · exact List.forall_mem_nil _
  · rw [Node.awaitExpr, Node.outline_mk]
    unfold Outline.ownOf
    simp
    rfl

theorem tells_operand {r : Reserved} {a : Phrase} (h : operand? r = some a) :
    a.Tells .expression := by
  cases IsOperand.of h
  · exact tells_markedCall
  · exact tells_quote
  · exact tells_unquote
  · exact tells_tupleLiteral
  · exact tells_group
  · exact tells_negation
  · exact tells_awaiting
  · exact tells_tensorLiteral
  · exact tells_comprehension
  · exact tells_lambda

/-! ## Operators and calls -/

theorem upright_extended {r : Reserved} {m : Level} {a : Phrase} {n : Node} {ms : List Meaning}
    {f : Found} (h : tail? r = some (m, a)) (hn : n.Upright .expression) (made : a.Bears ms f)
    (known : String → Bool) : (Node.extended known default m n f).Upright .expression ∧
      (Node.extended known default m n f).outline = n.outline ++ ms := by
  cases IsTail.of h
  case condThen =>
    obtain ⟨_, _, _, _, rfl, ⟨rfl, rfl⟩, made, rfl⟩ := made
    obtain ⟨_, _, _, _, rfl, ⟨yes, rfl, hy, rfl⟩, made, rfl⟩ := made
    obtain ⟨_, _, _, _, rfl, ⟨rfl, rfl⟩, ⟨no, rfl, hno, rfl⟩, rfl⟩ := made
    have fields : List.Forall₂ (fun f s => Slot.Upright f s) Head.conditional.fields
      [.one n, .one yes, .one no] := .cons (.one hn) (.cons (.one hy) (.cons (.one hno) .nil))
    refine ⟨Node.upright_mk fields (List.forall_mem_nil _) rfl rfl rfl, ?_⟩
    refine (Node.outline_mk default .conditional [.one n, .one yes, .one no]).trans ?_
    unfold Outline.ownOf
    simp
    rfl
  case listOpen =>
    obtain ⟨ns, hns, rfl, rfl⟩ := made.arguments
    have call : (Node.call default n ns).Upright .expression ∧
        (Node.call default n ns).outline =
          n.outline ++ listed listOpen listClose (ns.map Node.outline) := by
      refine ⟨Node.upright_mk (.cons (.one hn) (.cons (.many hns) .nil)) ?_ rfl rfl rfl, ?_⟩
      · exact List.forall_mem_nil _
      · rw [Node.call, Node.outline_mk]
        unfold Outline.ownOf
        simp [Outline.arguments]
        rfl
    unfold Node.extended
    dsimp only
    split
    · rename_i x is
      split
      · obtain ⟨span, head, slots⟩ := n
        obtain rfl : head = .identifier x := is
        have named := (hn.wellFormed _ (Node.mem_walk_self _)).names
        refine ⟨Node.upright_mk (.cons (.many hns) .nil) ?_ rfl rfl rfl, ?_⟩
        · exact named
        · refine (Node.outline_mk default (.macroCall x false) [.many ns]).trans ?_
          rw [Node.outline_mk]
          unfold Outline.ownOf
          simp [Outline.arguments]
          rfl
      · exact call
    · exact call
  all_goals
    obtain ⟨_, _, _, _, rfl, ⟨rfl, rfl⟩, ⟨right, rfl, hr, rfl⟩, rfl⟩ := made
    refine ⟨Node.upright_mk (.cons (.one hn) (.cons (.one hr) .nil)) ?_ rfl rfl rfl, ?_⟩
    · exact List.forall_mem_nil _
    · refine (Node.outline_mk default (.binaryOp _) [.one n, .one right]).trans ?_
      unfold Outline.ownOf
      simp
      rfl

/-! ## Patterns -/

theorem tells_pattern? {r : Reserved} {a : Phrase} (h : pattern? r = some a) : a.Tells .pattern := by
  intro ms f made
  cases IsComposite.of h
  all_goals
    obtain ⟨_, ⟨_, _, _, _, rfl, ⟨rfl, rfl⟩, made, rfl⟩, -, rfl⟩ := made
    obtain ⟨ns, hns, rfl, rfl⟩ := made.listItems tells_pattern
    refine ⟨.mk default _ [.many ns], Node.upright_mk (.cons (.many hns) .nil) ?_ rfl rfl rfl, ?_, rfl⟩
    · exact List.forall_mem_nil _
    · rw [Node.outline_mk]
      unfold Outline.ownOf
      simp [Outline.arguments, listed]
      rfl

end Phrase

end GlyphScript
