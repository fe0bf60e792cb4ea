import GlyphScript.Proofs.Fidelity.Productions

/-!
# What statements say

Statements, their clauses and the definitions of macros are read from what their
nodes say, where in some of them a list without an item may be left out.
-/

namespace GlyphScript

open Reserved

/-- A body may stand where the rest of a conditional is asked for. -/
theorem Slot.Upright.alternative {s : Slot Node} (h : s.Upright (.optional, .block)) :
    s.Upright (.optional, .alternative) ∧ (s.map Node.outlined).otherwise =
      s.toList.flatMap fun n => elseArm.saying ++ n.outline := by
  obtain ⟨fits, children⟩ := h
  refine ⟨⟨fits, fun n hn => (children n hn).admits ?_⟩, ?_⟩
  · simp [Category.admits, of_decide_eq_true (children n hn).admitted]
  · rw [Slot.otherwise, Slot.toList_map, List.flatMap_map]
    refine List.flatMap_congr fun n hn => ?_
    have is : n.head.category? = some .block := of_decide_eq_true (children n hn).admitted
    obtain ⟨span, head, slots⟩ := n
    rw [Node.outline, Node.outlined_mk]
    cases head
    case block => rfl
    all_goals cases is

namespace Phrase

variable {ms : List Meaning} {f : Found}

/-! ## Parts that may be missing -/

theorem bears_optionalValue {closer : Reserved} (made : (optionalValue closer).Bears ms f) :
    ∃ s : Slot Node, s.Upright (.optional, .expression) ∧
      ms = (s.map Node.outlined).own ++ closer.saying ∧ f = { slots := [s] } := by
  rcases made with made | made
  · obtain ⟨_, _, _, _, rfl, ⟨rfl, rfl⟩, ⟨rfl, rfl⟩, rfl⟩ := made
    exact ⟨.absent, .absent, rfl, rfl⟩
  · obtain ⟨_, _, _, _, rfl, ⟨n, rfl, hn, rfl⟩, ⟨rfl, rfl⟩, rfl⟩ := made
    exact ⟨.one n, .present hn, by rw [Slot.own_one], rfl⟩

theorem bears_optionalBody {r : Reserved} (made : (optionalNode r (part .body)).Bears ms f) :
    ∃ s : Slot Node, s.Upright (.optional, .block) ∧
      ms = s.toList.flatMap (fun n => r.saying ++ n.outline) ∧ f = { slots := [s] } := by
  rcases made with made | ⟨rfl, rfl⟩
  · obtain ⟨_, _, _, _, rfl, ⟨rfl, rfl⟩, ⟨n, rfl, hn, rfl, -⟩, rfl⟩ := made
    exact ⟨.one n, .present hn, (List.append_nil _).symm, rfl⟩
  · exact ⟨.absent, .absent, rfl, rfl⟩

/-- In front of a body a list without an item says nothing where it may be left out. -/
theorem alike_optionalArguments (front : List Meaning) {args body rest : List Meaning}
    {ns : List Node}
    (dispensable : Alike (front ++ [Meaning.mark listOpen, .mark listClose, .mark bodyOpen])
      (front ++ [Meaning.mark bodyOpen]))
    (said : args = listed listOpen listClose (ns.map Node.outline) ∨ args = [] ∧ ns = [])
    (begins : body = Meaning.mark bodyOpen :: rest) (behind : List Meaning) :
    Alike (front ++ (args ++ (body ++ behind)))
      (front ++ (Outline.optionalArguments ((Slot.many ns).map Node.outlined) ++
        (body ++ behind))) := by
  rcases said with rfl | ⟨rfl, rfl⟩
  · cases ns with
    | nil =>
      rw [begins]
      have all := dispensable.append (.refl (rest ++ behind))
      simp only [List.append_assoc] at all
      exact all
    | cons n ns =>
      have same : Outline.optionalArguments ((Slot.many (n :: ns)).map Node.outlined) =
          listed listOpen listClose ((n :: ns).map Node.outline) := by
        show listed listOpen listClose (((n :: ns).map Node.outlined).map (·.own)) = _
        rw [List.map_map]
        rfl
      rw [same]
      exact .refl _
  · exact .refl _

/-! ## Simple statements -/

theorem tells_assignment : assignment.Tells .statement := by
  intro ms f made
  obtain ⟨_, ⟨_, _, _, _, rfl, ⟨rfl, rfl⟩, made, rfl⟩, -, rfl⟩ := made
  obtain ⟨_, _, _, _, rfl, ⟨x, hx, rfl, rfl⟩, made, rfl⟩ := made
  obtain ⟨_, _, _, _, rfl, ⟨rfl, rfl⟩, made, rfl⟩ := made
  obtain ⟨_, _, _, _, rfl, ⟨n, rfl, hn, rfl⟩, ⟨rfl, rfl⟩, rfl⟩ := made
  refine ⟨.assignment default x n, Node.upright_mk (.cons (.one hn) .nil) ?_ rfl rfl rfl, ?_, rfl⟩
  · exact List.forall_mem_singleton.mpr hx
  · rw [Node.assignment, Node.outline_mk]
    unfold Outline.ownOf
    simp
    rfl

theorem bears_modulePath (made : modulePath.Bears ms f) : ∃ path, path ≠ [] ∧
    (∀ x ∈ path, lexesAsIdentifier x = true) ∧
      ms = List.intercalate [Meaning.mark pathSep] (path.map ([.name ·])) ∧
        f = { attributes := { lists := [path] } } := by
  obtain ⟨_, ⟨_, _, _, _, rfl, ⟨x, hx, rfl, rfl⟩, more, rfl⟩, rfl⟩ := made
  have each : ∀ ms f, (seq (mark pathSep) (name "module name")).Bears ms f →
      ∃ x, lexesAsIdentifier x = true ∧ ms = [.mark pathSep, .name x] ∧ f = Found.ofText x := by
    rintro _ _ ⟨_, _, _, _, rfl, ⟨rfl, rfl⟩, ⟨x, hx, rfl, rfl⟩, rfl⟩
    exact ⟨x, hx, rfl, rfl⟩
  obtain ⟨xs, hxs, rfl, rfl⟩ := Bears.star each more
  refine ⟨x :: xs, List.cons_ne_nil _ _, List.forall_mem_cons.mpr ⟨hx, hxs⟩, ?_, ?_⟩
  · rw [intercalate_cons_flatMap]
  · exact gathered_join_ofText (x :: xs)

theorem bears_importAlias (made : importAlias.Bears ms f) : ∃ alias? : Option String,
    (∀ x ∈ alias?.toList, lexesAsIdentifier x = true) ∧
      ms = alias?.toList.flatMap (fun x => [.mark arrow, .name x]) ∧
        f = { attributes := { texts := alias?.toList } } := by
  rcases made with made | ⟨rfl, rfl⟩
  · obtain ⟨_, _, _, _, rfl, ⟨rfl, rfl⟩, ⟨x, hx, rfl, rfl⟩, rfl⟩ := made
    exact ⟨some x, List.forall_mem_singleton.mpr hx, rfl, rfl⟩
  · exact ⟨none, List.forall_mem_nil _, rfl, rfl⟩

theorem tells_importDecl : importDecl.Tells .statement := by
  intro ms f made
  obtain ⟨_, ⟨_, _, _, _, rfl, ⟨rfl, rfl⟩, made, rfl⟩, -, rfl⟩ := made
  obtain ⟨_, _, _, _, rfl, front, made, rfl⟩ := made
  obtain ⟨_, _, _, _, rfl, back, ⟨rfl, rfl⟩, rfl⟩ := made
  obtain ⟨path, inhabited, named, rfl, rfl⟩ := bears_modulePath front
  obtain ⟨alias?, named', rfl, rfl⟩ := bears_importAlias back
  have own : alias?.toList.head? = alias? := by cases alias? <;> rfl
  refine ⟨.importDecl default path alias?, Node.upright_mk .nil ?_ ?_ rfl rfl, ?_, ?_⟩
  · exact fun x hx => (List.mem_append.mp hx).elim (named x) (named' x)
  · simpa [Head.isSpelled] using inhabited
  · rw [Node.importDecl, Node.outline_mk]
    unfold Outline.ownOf
    simp
    rfl
  · show Found.ofNode (.mk default (.importDecl path (alias?.toList ++ []).head?) []) = _
    rw [List.append_nil, own]
    rfl

theorem tells_returnStmt : returnStmt.Tells .statement := by
  intro ms f made
  obtain ⟨_, ⟨_, _, _, _, rfl, ⟨rfl, rfl⟩, made, rfl⟩, -, rfl⟩ := made
  obtain ⟨s, hs, rfl, rfl⟩ := bears_optionalValue made
  refine ⟨.mk default .returnStmt [s], Node.upright_mk ?_ ?_ rfl rfl rfl, ?_, rfl⟩
  · exact .cons hs .nil
  · exact List.forall_mem_nil _
  · rw [Node.outline_mk]
    unfold Outline.ownOf
    simp
    rfl

theorem tells_yieldStmt : yieldStmt.Tells .statement := by
  intro ms f made
  obtain ⟨_, ⟨_, _, _, _, rfl, ⟨rfl, rfl⟩, made, rfl⟩, -, rfl⟩ := made
  obtain ⟨s, hs, rfl, rfl⟩ := bears_optionalValue made
  refine ⟨.mk default .yieldStmt [s], Node.upright_mk ?_ ?_ rfl rfl rfl, ?_, rfl⟩
  · exact .cons hs .nil
  · exact List.forall_mem_nil _
  · rw [Node.outline_mk]
    unfold Outline.ownOf
    simp
    rfl

theorem tells_breakStmt : breakStmt.Tells .statement := by
  intro ms f made
  obtain ⟨_, ⟨rfl, rfl⟩, -, rfl⟩ := made
  refine ⟨.breakStmt default, Node.upright_mk .nil (List.forall_mem_nil _) rfl rfl rfl, ?_, rfl⟩
  rw [Node.breakStmt, Node.outline_mk]
  rfl

theorem tells_continueStmt : continueStmt.Tells .statement := by
  intro ms f made
  obtain ⟨_, ⟨rfl, rfl⟩, -, rfl⟩ := made
  refine ⟨.continueStmt default, Node.upright_mk .nil (List.forall_mem_nil _) rfl rfl rfl, ?_, rfl⟩
  rw [Node.continueStmt, Node.outline_mk]
  rfl

theorem tells_memoryStmt : memoryStmt.Tells .statement := by
  intro ms f made
  obtain ⟨_, ⟨_, _, _, _, rfl, ⟨rfl, rfl⟩, made, rfl⟩, -, rfl⟩ := made
  obtain ⟨_, _, _, _, rfl, ⟨x, hx, rfl, rfl⟩, made, rfl⟩ := made
  obtain ⟨_, _, _, _, rfl, args, ⟨rfl, rfl⟩, rfl⟩ := made
  obtain ⟨ns, hns, rfl, rfl⟩ := args.arguments
  refine ⟨.memoryStmt default x ns, Node.upright_mk (.cons (.many hns) .nil) ?_ rfl rfl rfl, ?_, rfl⟩
  · exact List.forall_mem_singleton.mpr hx
  · rw [Node.memoryStmt, Node.outline_mk]
    unfold Outline.ownOf
    simp [Outline.arguments]
    rfl

theorem tells_expressionStmt : expressionStmt.Tells .statement := by
  intro ms f made
  obtain ⟨_, ⟨n, rfl, hn, rfl⟩, -, rfl⟩ := made
  refine ⟨.expressionStmt default n, Node.upright_mk (.cons (.one hn) .nil) ?_ rfl rfl rfl, ?_, rfl⟩
  · exact List.forall_mem_nil _
  · rw [Node.expressionStmt, Node.outline_mk]
    unfold Outline.ownOf
    simp

/-! ## Statements with bodies -/

attribute [local simp] Construct.opener Construct.closer

theorem tells_deviceStmt : deviceStmt.Tells .statement := by
  intro ms f made
  obtain ⟨_, ⟨_, rfl, made⟩, -, rfl⟩ := made
  obtain ⟨_, _, _, _, rfl, ⟨n, rfl, hn, rfl⟩, ⟨b, rfl, hb, rfl, -⟩, rfl⟩ := made
  refine ⟨.deviceStmt default n b, Node.upright_mk (.cons (.one hn) (.cons (.one hb) .nil)) ?_ rfl rfl
    rfl, ?_, rfl⟩
  · exact List.forall_mem_nil _
  · rw [Node.deviceStmt, Node.outline_mk]
    unfold Outline.ownOf
    simp

theorem tells_streamStmt : streamStmt.Tells .statement := by
  intro ms f made
  obtain ⟨_, ⟨_, rfl, made⟩, -, rfl⟩ := made
  obtain ⟨_, _, _, _, rfl, ⟨n, rfl, hn, rfl⟩, ⟨b, rfl, hb, rfl, -⟩, rfl⟩ := made
  refine ⟨.streamStmt default n b, Node.upright_mk (.cons (.one hn) (.cons (.one hb) .nil)) ?_ rfl rfl
    rfl, ?_, rfl⟩
  · exact List.forall_mem_nil _
  · rw [Node.streamStmt, Node.outline_mk]
    unfold Outline.ownOf
    simp

theorem tells_blockStmt : blockStmt.Tells .statement := by
  intro ms f made
  obtain ⟨_, ⟨_, rfl, ⟨b, rfl, hb, rfl, -⟩⟩, -, rfl⟩ := made
  refine ⟨.blockStmt default b, Node.upright_mk (.cons (.one hb) .nil) ?_ rfl rfl rfl, ?_, rfl⟩
  · exact List.forall_mem_nil _
  · rw [Node.blockStmt, Node.outline_mk]
    unfold Outline.ownOf
    simp

theorem tells_neuralNet : neuralNet.Tells .statement := by
  intro ms f made
  obtain ⟨_, ⟨_, rfl, made⟩, -, rfl⟩ := made
  obtain ⟨_, _, _, _, rfl, ⟨x, hx, rfl, rfl⟩, ⟨b, rfl, hb, rfl, -⟩, rfl⟩ := made
  refine ⟨.neuralNet default x b, Node.upright_mk (.cons (.one hb) .nil) ?_ rfl rfl rfl, ?_, rfl⟩
  · exact List.forall_mem_singleton.mpr hx
  · rw [Node.neuralNet, Node.outline_mk]
    unfold Outline.ownOf
    simp

theorem tells_functionDef : functionDef.Tells .statement := by
  intro ms f made
  obtain ⟨_, ⟨_, rfl, made⟩, -, rfl⟩ := made
  obtain ⟨_, _, _, _, rfl, ⟨x, hx, rfl, rfl⟩, made, rfl⟩ := made
  obtain ⟨_, _, _, _, rfl, params, ⟨b, rfl, hb, rfl, -⟩, rfl⟩ := made
  obtain ⟨xs, hxs, rfl, rfl⟩ := params.parameters
  refine ⟨.functionDef default x xs b, Node.upright_mk (.cons (.one hb) .nil) ?_ rfl rfl rfl, ?_, rfl⟩
  · exact List.forall_mem_cons.mpr ⟨hx, hxs⟩
  · rw [Node.functionDef, Node.outline_mk]
    unfold Outline.ownOf
    simp

theorem tells_asyncFunctionDef : asyncFunctionDef.Tells .statement := by
  intro ms f made
  obtain ⟨_, ⟨_, rfl, made⟩, -, rfl⟩ := made
  obtain ⟨_, _, _, _, rfl, ⟨x, hx, rfl, rfl⟩, made, rfl⟩ := made
  obtain ⟨_, _, _, _, rfl, params, ⟨b, rfl, hb, rfl, -⟩, rfl⟩ := made
  obtain ⟨xs, hxs, rfl, rfl⟩ := params.parameters
  refine ⟨.asyncFunctionDef default x xs b,
    Node.upright_mk (.cons (.one hb) .nil) ?_ rfl rfl rfl, ?_, rfl⟩
  · exact List.forall_mem_cons.mpr ⟨hx, hxs⟩
  · rw [Node.asyncFunctionDef, Node.outline_mk]
    unfold Outline.ownOf
    simp

/-! ## Statements with lists that may be left out -/

theorem conveys_classDef : classDef.Conveys .statement := by
  intro ms f made
  obtain ⟨_, ⟨_, rfl, made⟩, -, rfl⟩ := made
  obtain ⟨_, _, _, _, rfl, ⟨x, hx, rfl, rfl⟩, made, rfl⟩ := made
  obtain ⟨_, _, _, _, rfl, args, ⟨b, rfl, hb, rfl, rest, begins⟩, rfl⟩ := made
  obtain ⟨ns, hns, said, rfl⟩ := args.optionalArguments
  refine ⟨.classDef default x ns b, Node.upright_mk (.cons (.many hns) (.cons (.one hb) .nil)) ?_ rfl
    rfl rfl, ?_, rfl⟩
  · exact List.forall_mem_singleton.mpr hx
  · have alike := alike_optionalArguments [.mark classOpen, .name x]
      (alike_emptyListBehind (.inr rfl) x) said begins [.mark classClose]
    rw [Node.classDef, Node.outline_mk]
    unfold Outline.ownOf
    simpa using alike

theorem conveys_tensorDecl : tensorDecl.Conveys .statement := by
  intro ms f made
  obtain ⟨_, ⟨_, rfl, made⟩, -, rfl⟩ := made
  obtain ⟨_, _, _, _, rfl, ⟨x, hx, rfl, rfl⟩, made, rfl⟩ := made
  obtain ⟨_, _, _, _, rfl, args, ⟨b, rfl, hb, rfl, rest, begins⟩, rfl⟩ := made
  obtain ⟨ns, hns, said, rfl⟩ := args.optionalArguments
  refine ⟨.tensorDecl default x ns b, Node.upright_mk (.cons (.many hns) (.cons (.one hb) .nil)) ?_ rfl
    rfl rfl, ?_, rfl⟩
  · exact List.forall_mem_singleton.mpr hx
  · have alike := alike_optionalArguments [.mark tensorOpen, .name x]
      (alike_emptyListBehind (.inl rfl) x) said begins [.mark tensorClose]
    rw [Node.tensorDecl, Node.outline_mk]
    unfold Outline.ownOf
    simpa using alike

theorem conveys_parallelStmt : parallelStmt.Conveys .statement := by
  intro ms f made
  obtain ⟨_, ⟨_, rfl, made⟩, -, rfl⟩ := made
  obtain ⟨_, _, _, _, rfl, args, ⟨b, rfl, hb, rfl, rest, begins⟩, rfl⟩ := made
  obtain ⟨ns, hns, said, rfl⟩ := args.optionalArguments
  refine ⟨.parallelStmt default ns b, Node.upright_mk (.cons (.many hns) (.cons (.one hb) .nil)) ?_ rfl
    rfl rfl, ?_, rfl⟩
  · exact List.forall_mem_nil _
  · have alike := alike_optionalArguments [.mark parallelOpen] (alike_emptyList (.inl rfl)) said begins
      [.mark parallelClose]
    rw [Node.parallelStmt, Node.outline_mk]
    unfold Outline.ownOf
    simpa using alike

theorem conveys_gpuStmt : gpuStmt.Conveys .statement := by
  intro ms f made
  obtain ⟨_, ⟨_, rfl, made⟩, -, rfl⟩ := made
  obtain ⟨_, _, _, _, rfl, args, ⟨b, rfl, hb, rfl, rest, begins⟩, rfl⟩ := made
  obtain ⟨ns, hns, said, rfl⟩ := args.optionalArguments
  refine ⟨.gpuStmt default ns b, Node.upright_mk (.cons (.many hns) (.cons (.one hb) .nil)) ?_ rfl
    rfl rfl, ?_, rfl⟩
  · exact List.forall_mem_nil _
  · have alike := alike_optionalArguments [.mark gpuOpen] (alike_emptyList (.inr rfl)) said begins
      [.mark gpuClose]
    rw [Node.gpuStmt, Node.outline_mk]
    unfold Outline.ownOf
    simpa using alike

/-! ## Clauses -/

theorem tells_exceptClause : exceptClause.Tells .handler := by
  intro ms f made
  obtain ⟨_, ⟨_, _, _, _, rfl, ⟨rfl, rfl⟩, made, rfl⟩, -, rfl⟩ := made
  obtain ⟨_, _, _, _, rfl, ⟨p, rfl, hp, flawless, rfl⟩, ⟨b, rfl, hb, rfl, -⟩, rfl⟩ := made
  refine ⟨.exceptClause default p b, Node.upright_mk (.cons (.one hp) (.cons (.one hb) .nil)) ?_ rfl ?_
    rfl, ?_, rfl⟩
  · exact List.forall_mem_nil _
  · simp [Node.isComplete, Slot.toList, flawless]
  · rw [Node.exceptClause, Node.outline_mk]
    unfold Outline.ownOf
    simp
    rfl

theorem tells_caseClause : caseClause.Tells .case := by
  intro ms f made
  obtain ⟨_, ⟨_, _, _, _, rfl, ⟨rfl, rfl⟩, made, rfl⟩, -, rfl⟩ := made
  obtain ⟨_, _, _, _, rfl, ⟨p, rfl, hp, flawless, rfl⟩, ⟨b, rfl, hb, rfl, -⟩, rfl⟩ := made
  refine ⟨.caseClause default p b, Node.upright_mk (.cons (.one hp) (.cons (.one hb) .nil)) ?_ rfl ?_
    rfl, ?_, rfl⟩
  · exact List.forall_mem_nil _
  · simp [Node.isComplete, Slot.toList, flawless]
  · rw [Node.caseClause, Node.outline_mk]
    unfold Outline.ownOf
    simp
    rfl

theorem tells_tryStmt : tryStmt.Tells .statement := by
  intro ms f made
  obtain ⟨_, ⟨_, rfl, made⟩, -, rfl⟩ := made
  obtain ⟨_, _, _, _, rfl, ⟨b, rfl, hb, rfl, -⟩, ⟨made, some⟩, rfl⟩ := made
  obtain ⟨_, _, _, _, rfl, handlers, last, rfl⟩ := made
  obtain ⟨ns, hns, rfl, rfl⟩ := handlers.manyOf tells_exceptClause
  obtain ⟨s, hs, rfl, rfl⟩ := bears_optionalBody last
  refine ⟨.mk default .tryStmt [.one b, .many ns, s], Node.upright_mk ?_ ?_ rfl ?_ rfl, ?_, rfl⟩
  · exact .cons (.one hb) (.cons (.many hns) (.cons hs .nil))
  · exact List.forall_mem_nil _
  · have some : ns ++ s.toList ≠ [] := by simpa [Found.nodes, Found.ofNodes, Slot.toList] using some
    simp only [Node.isComplete, Bool.not_eq_true', Bool.and_eq_false_iff]
    simpa [Slot.toList.eq_3, imp_iff_not_or] using some
  · have last : (s.map Node.outlined).ownBehind finallyArm =
        s.toList.flatMap fun n => finallyArm.saying ++ n.outline := by
      rw [Slot.ownBehind, Slot.toList_map, List.flatMap_map]
      rfl
    rw [Node.outline_mk]
    unfold Outline.ownOf
    simp [last]

theorem tells_matchStmt : matchStmt.Tells .statement := by
  intro ms f made
  obtain ⟨_, ⟨_, rfl, made⟩, -, rfl⟩ := made
  obtain ⟨_, _, _, _, rfl, ⟨n, rfl, hn, rfl⟩, cases', rfl⟩ := made
  obtain ⟨ns, hns, inhabited, rfl, rfl⟩ := cases'.someOf tells_caseClause
  refine ⟨.matchStmt default n ns, Node.upright_mk (.cons (.one hn) (.cons (.many hns) .nil)) ?_ rfl ?_
    rfl, ?_, rfl⟩
  · exact List.forall_mem_nil _
  · simpa [Node.isComplete, Slot.toList] using inhabited
  · rw [Node.matchStmt, Node.outline_mk]
    unfold Outline.ownOf
    simp

/-! ## Conditionals -/

/-- A further arm of a conditional is a condition and a body. -/
theorem bears_arm (ms : List Meaning) (f : Found) (made : arm.Bears ms f) :
    ∃ p : Node × Node, (p.1.Upright .expression ∧ p.2.Upright .block) ∧
      ms = Meaning.mark elifArm :: (p.1.outline ++ p.2.outline) ∧
        f = { places := [default], slots := [.one p.1, .one p.2] } := by
  obtain ⟨_, _, _, _, rfl, ⟨rfl, rfl⟩, made, rfl⟩ := made
  obtain ⟨_, _, _, _, rfl, ⟨rfl, rfl⟩, made, rfl⟩ := made
  obtain ⟨_, _, _, _, rfl, ⟨n, rfl, hn, rfl⟩, ⟨b, rfl, hb, rfl, -⟩, rfl⟩ := made
  exact ⟨(n, b), ⟨hn, hb⟩, rfl, rfl⟩

/-- Further arms stand inside each other, in the order in which they are read. -/
theorem upright_nestSlots {arms : List (Node × Node)} {s : Slot Node}
    (h : ∀ p ∈ arms, p.1.Upright .expression ∧ p.2.Upright .block)
    (hs : s.Upright (.optional, .alternative)) {found : Found}
    (made : found = .join (arms.map fun p =>
      { places := [default], slots := [.one p.1, .one p.2] })) :
    (Node.nestSlots default found.places (found.slots ++ [s])).Upright (.optional, .alternative) ∧
      ((Node.nestSlots default found.places (found.slots ++ [s])).map Node.outlined).otherwise =
        arms.flatMap (fun p => Meaning.mark elifArm :: (p.1.outline ++ p.2.outline)) ++
          (s.map Node.outlined).otherwise := by
  subst made
  induction arms with
  | nil => exact ⟨hs, rfl⟩
  | cons p arms ih =>
    obtain ⟨⟨hc, hb⟩, below⟩ := List.forall_mem_cons.mp h
    obtain ⟨upright, said⟩ := ih below
    refine ⟨.present (Node.upright_mk ?_ ?_ rfl rfl rfl), ?_⟩
    · exact .cons (.one hc) (.cons (.one hb) (.cons upright .nil))
    · exact List.forall_mem_nil _
    · rw [List.flatMap_cons, List.append_assoc, ← said]
      show (Slot.map Node.outlined (.one (.mk default .ifStmt [_, _, _]))).otherwise = _
      rw [Slot.otherwise_one, Node.outlined_mk]
      show Meaning.mark elifArm :: Outline.arms _ _ _ = _
      simp [Outline.arms]
      rfl

theorem tells_ifStmt : ifStmt.Tells .statement := by
  intro ms f made
  obtain ⟨_, ⟨_, rfl, made⟩, rfl⟩ := made
  obtain ⟨_, _, _, _, rfl, ⟨n, rfl, hn, rfl⟩, made, rfl⟩ := made
  obtain ⟨_, _, _, _, rfl, ⟨b, rfl, hb, rfl, -⟩, made, rfl⟩ := made
  obtain ⟨_, _, found, _, rfl, arms, last, rfl⟩ := made
  obtain ⟨ps, hps, rfl, joined⟩ := Bears.star bears_arm arms
  obtain ⟨s, hs, rfl, rfl⟩ := bears_optionalBody last
  obtain ⟨stands, otherwise⟩ := hs.alternative
  obtain ⟨upright, said⟩ := upright_nestSlots hps stands joined
  refine ⟨.mk default .ifStmt [.one n, .one b, Node.nestSlots default found.places (found.slots ++ [s])],
    Node.upright_mk ?_ ?_ rfl rfl rfl, ?_, ?_⟩
  · exact .cons (.one hn) (.cons (.one hb) (.cons upright .nil))
  · exact List.forall_mem_nil _
  · rw [Node.outline_mk]
    unfold Outline.ownOf
    simp [Outline.arms, said, otherwise]
  · show Found.ofNode (Node.ofArms default ([] ++ ([] ++ (found.places ++ [])))
      ([Slot.one n] ++ ([Slot.one b] ++ (found.slots ++ [s])))) = _
    rw [List.append_nil]
    rfl

/-! ## Loops -/

theorem tells_loopStmt : loopStmt.Tells .statement := by
  intro ms f made
  obtain ⟨_, ⟨_, rfl, made⟩, -, rfl⟩ := made
  obtain ⟨_, _, _, _, rfl, header, ⟨b, rfl, hb, rfl, -⟩, rfl⟩ := made
  rcases header with made | ⟨rfl, rfl⟩
  · obtain ⟨_, _, _, _, rfl, ⟨rfl, rfl⟩, made, rfl⟩ := made
    obtain ⟨_, _, _, _, rfl, header, ⟨rfl, rfl⟩, rfl⟩ := made
    rcases header with made | ⟨n, rfl, hn, rfl⟩
    · obtain ⟨_, _, _, _, rfl, ⟨x, hx, rfl, rfl⟩, made, rfl⟩ := made
      obtain ⟨_, _, _, _, rfl, ⟨rfl, rfl⟩, ⟨n, rfl, hn, rfl⟩, rfl⟩ := made
      refine ⟨.loopStmt default (some x) (some n) b,
        Node.upright_mk (.cons (.present hn) (.cons (.one hb) .nil)) ?_ rfl rfl rfl, ?_, rfl⟩
      · exact List.forall_mem_singleton.mpr hx
      · rw [Node.loopStmt, Node.outline_mk]
        unfold Outline.ownOf
        simp [Slot.ofOption]
        rfl
    · refine ⟨.loopStmt default none (some n) b,
        Node.upright_mk (.cons (.present hn) (.cons (.one hb) .nil)) ?_ rfl rfl rfl, ?_, rfl⟩
      · exact List.forall_mem_nil _
      · rw [Node.loopStmt, Node.outline_mk]
        show _ = List.flatten [_, ((Slot.one n).map Node.outlined).own, _, _, _]
        simp
        rfl
  · refine ⟨.loopStmt default none none b,
      Node.upright_mk (.cons .absent (.cons (.one hb) .nil)) ?_ rfl rfl rfl, ?_, rfl⟩
    · exact List.forall_mem_nil _
    · rw [Node.loopStmt, Node.outline_mk]
      show _ = List.flatten [_, ((Slot.one b).map Node.outlined).own, _]
      simp

/-! ## Macros -/

theorem tells_macroRule : macroRule.Tells .rule := by
  intro ms f made
  obtain ⟨_, ⟨_, _, _, _, rfl, ⟨rfl, rfl⟩, made, rfl⟩, -, rfl⟩ := made
  obtain ⟨_, _, _, _, rfl, ⟨p, rfl, hp, flawless, rfl⟩, made, rfl⟩ := made
  obtain ⟨_, _, _, _, rfl, template, ⟨rfl, rfl⟩, rfl⟩ := made
  rcases template with made | made | ⟨⟨⟩⟩
  · obtain ⟨_, _, _, _, rfl, ⟨rfl, rfl⟩, ⟨b, rfl, hb, rfl, -⟩, rfl⟩ := made
    refine ⟨.macroRule default true p b, Node.upright_mk (.cons (.one hp) (.cons (.one hb) .nil)) ?_ rfl
      ?_ rfl, ?_, rfl⟩
    · exact List.forall_mem_nil _
    · simp [Node.isComplete, Slot.toList, flawless]
    · rw [Node.macroRule, Node.outline_mk]
      unfold Outline.ownOf
      simp
      rfl
  · obtain ⟨_, _, _, _, rfl, ⟨rfl, rfl⟩, ⟨n, rfl, hn, rfl⟩, rfl⟩ := made
    refine ⟨.macroRule default false p n, Node.upright_mk (.cons (.one hp) (.cons (.one hn) .nil)) ?_ rfl
      ?_ rfl, ?_, rfl⟩
    · exact List.forall_mem_nil _
    · simp [Node.isComplete, Slot.toList, flawless]
    · rw [Node.macroRule, Node.outline_mk]
      unfold Outline.ownOf
      simp
      rfl

/-- Marks that may be left out say nothing. -/
theorem bears_oneOf {rs : List Reserved} (h : ∀ r ∈ rs, r.saying = [])
    (made : (oneOf rs).Bears ms f) :
    ms = [] ∧ ∃ marks, f = { attributes := { marks := marks } } := by
  induction rs with
  | nil =>
    obtain ⟨rfl, rfl⟩ := made
    exact ⟨rfl, [], rfl⟩
  | cons r rs ih =>
    obtain ⟨here, below⟩ := List.forall_mem_cons.mp h
    rcases made with ⟨rfl, rfl⟩ | made
    · exact ⟨here, [r], rfl⟩
    · exact ih below made

/-- The rules of a macro, or its template. -/
theorem bears_macroBody (made : macroBody.Bears ms f) : ∃ (ns : List Node) (s : Slot Node),
    (∀ n ∈ ns, n.Upright .rule) ∧ s.Upright (.optional, .template) ∧
      (ns.isEmpty != s.toList.isEmpty) = true ∧
        ms = ns.flatMap Node.outline ++ (s.map Node.outlined).own ∧ f = { slots := [.many ns, s] } := by
  rcases made with made | made
  · obtain ⟨_, _, _, _, rfl, ⟨rfl, rfl⟩, made, rfl⟩ := made
    obtain ⟨n, hn, rfl, rfl⟩ := tells_template _ _ made
    exact ⟨[], .one n, List.forall_mem_nil _, .present hn, rfl, by rw [Slot.own_one]; rfl, rfl⟩
  · obtain ⟨_, _, _, _, rfl, ⟨made, some⟩, ⟨rfl, rfl⟩, rfl⟩ := made
    obtain ⟨ns, hns, rfl, rfl⟩ := made.manyOf tells_macroRule
    have inhabited : ns ≠ [] := by simpa [Found.nodes, Found.ofNodes, Slot.toList] using some
    refine ⟨ns, .absent, hns, .absent, ?_, rfl, rfl⟩
    simpa [Slot.toList] using inhabited

theorem tells_macroDef (settings : Settings) : (macroDef settings).Tells .statement := by
  intro ms f made
  obtain ⟨_, ⟨_, rfl, made⟩, later, rfl⟩ := made
  obtain ⟨_, _, _, _, rfl, ⟨x, hx, rfl, rfl⟩, made, rfl⟩ := made
  obtain ⟨_, _, _, _, rfl, params, made, rfl⟩ := made
  obtain ⟨_, _, _, _, rfl, phase, made, rfl⟩ := made
  obtain ⟨_, _, _, _, rfl, hygiene, ⟨_, rfl, made⟩, rfl⟩ := made
  obtain ⟨xs, hxs, rfl, rfl⟩ := params.parameters
  obtain ⟨rfl, phases, rfl⟩ := bears_oneOf (by decide) phase
  obtain ⟨rfl, hygienes, rfl⟩ := bears_oneOf (by decide) hygiene
  obtain ⟨ns, s, hns, hs, complete, rfl, rfl⟩ := bears_macroBody made
  refine ⟨_, Node.upright_mk ?_ ?_ ?_ ?_ rfl, ?_, rfl⟩
  · exact .cons (.many hns) (.cons hs .nil)
  · exact List.forall_mem_cons.mpr ⟨hx, hxs⟩
  · exact decide_eq_true (later _ rfl)
  · exact complete
  · refine Eq.trans ?_ (Node.outline_mk ..).symm
    show _ = Outline.ownOf (.macroDef x xs _ _) ([.many ns, s].map (Slot.map Node.outlined))
    unfold Outline.ownOf
    simp

/-! ## All statements -/

theorem conveys_statement {settings : Settings} {r : Reserved} {a : Phrase}
    (h : statement? settings r = some a) : a.Conveys .statement := by
  cases IsStatement.of h
  case assignOpen => exact Tells.conveys tells_assignment
  case importOpen => exact Tells.conveys tells_importDecl
  case returnOpen => exact Tells.conveys tells_returnStmt
  case yieldOpen => exact Tells.conveys tells_yieldStmt
  case breakMark => exact Tells.conveys tells_breakStmt
  case continueMark => exact Tells.conveys tells_continueStmt
  case macroOpen => exact Tells.conveys (tells_macroDef settings)
  case memoryOpen => exact Tells.conveys tells_memoryStmt
  case deviceOpen => exact Tells.conveys tells_deviceStmt
  case tryOpen => exact Tells.conveys tells_tryStmt
  case matchOpen => exact Tells.conveys tells_matchStmt
  case funcOpen => exact Tells.conveys tells_functionDef
  case asyncFuncOpen => exact Tells.conveys tells_asyncFunctionDef
  case classOpen => exact conveys_classDef
  case ifOpen => exact Tells.conveys tells_ifStmt
  case loopOpen => exact Tells.conveys tells_loopStmt
  case parallelOpen => exact conveys_parallelStmt
  case gpuOpen => exact conveys_gpuStmt
  case tensorOpen => exact conveys_tensorDecl
  case nnOpen => exact Tells.conveys tells_neuralNet
  case streamOpen => exact Tells.conveys tells_streamStmt
  case blockOpen => exact Tells.conveys tells_blockStmt

end Phrase

end GlyphScript
