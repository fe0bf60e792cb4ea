import GlyphScript.Proofs.Printing.Statements

/-!
# Printing trees

What is printed for a well-formed node is read as what its parent asks for. It
is so for macro definitions, hence for every node whose children are printed so,
and by induction for every node of a well-formed tree.
-/

namespace GlyphScript

open Reserved Words

section

variable {settings : Settings} {span : Span}

/-! ## Macro definitions -/

theorem prints_oneOf {r : Reserved} {rs : List Reserved} (h : r ∈ rs) :
    Prints settings (Phrase.oneOf rs) [] (word r.spelling) (.ofMark r) := by
  induction rs with
  | nil => cases h
  | cons r' rs ih =>
    cases h with
    | head => exact Prints.kept.left
    | tail _ h => exact (ih h).right

namespace Node

variable {n pattern : Node} {ns : List Node} {x : String}

theorem prints_transformRule
    (hp : pattern.PrintsAs settings (.part .binding) pattern.printed.words)
    (hn : n.PrintsAs settings (.part .body) n.printed.words) :
    (macroRule span true pattern n).PrintsAs settings Phrase.macroRule
      (macroRule span true pattern n).printed.words := by
  have template : Prints settings Phrase.ruleTemplate _ _ _ :=
    ((Prints.kept (r := transformArrow)).seq hn).left
  refine printsAs_node (Prints.mark.seq (hp.seq (template.seq Prints.mark))) ?_ ?_ rfl
  · simp [Slot.toList]
  · rw [macroRule, printed_mk, append_assoc]
    show (do return List.flatten [_, ← pattern.printed.words, _, ← n.printed.words, _]) = _
    cases pattern.printed.words <;> cases n.printed.words <;> rfl

theorem prints_expressionRule
    (hp : pattern.PrintsAs settings (.part .binding) pattern.printed.words)
    (hn : n.PrintsAs settings Phrase.expression n.printed.words) :
    (macroRule span false pattern n).PrintsAs settings Phrase.macroRule
      (macroRule span false pattern n).printed.words := by
  have template : Prints settings Phrase.ruleTemplate _ _ _ :=
    ((Prints.mark (r := ruleArrow)).seq hn).left.right
  refine printsAs_node (Prints.mark.seq (hp.seq (template.seq Prints.mark))) ?_ ?_ rfl
  · simp [Slot.toList]
  · rw [macroRule, printed_mk, append_assoc]
    show (do return List.flatten [_, ← pattern.printed.words, _, ← n.printed.words, _]) = _
    cases pattern.printed.words <;> cases n.printed.words <;> rfl

/-- Whatever the body is, a macro definition is its head and its body. -/
theorem prints_macroDef {params : List String} {phase : Phase} {hygiene : Hygiene}
    {slots : List (Slot Node)} {p : Words}
    (names : ∀ y ∈ x :: params, lexesAsIdentifier y = true)
    (body : Prints settings Phrase.macroBody (slots.flatMap fun s => s.toList.flatMap finished) p
      { slots := slots.map (Slot.map unplaced) })
    (words : (mk span (.macroDef x params phase hygiene) slots).printed.words =
      (do return List.flatten [[macroOpen.spelling, x], parameterWords params,
        [phase.mark.spelling, hygiene.mark.spelling], [bodyOpen.spelling], ← p,
        [bodyClose.spelling, macroClose.spelling]])) :
    (mk span (.macroDef x params phase hygiene) slots).PrintsAs settings (Phrase.macroDef settings)
      (mk span (.macroDef x params phase hygiene) slots).printed.words := by
  obtain ⟨hx, hp⟩ := List.forall_mem_cons.mp names
  have phased : Prints settings Phrase.phaseMark [] _ (.ofMark phase.mark) :=
    prints_oneOf (by cases phase <;> decide)
  have hygienic : Prints settings Phrase.hygieneMark [] _ (.ofMark hygiene.mark) :=
    prints_oneOf (by cases hygiene <;> decide)
  refine printsAs_node (Prints.construct (c := .macroDef) ((Prints.name hx).seq
    ((prints_parameters hp).seq (phased.seq (hygienic.seq (Prints.construct (c := .body) body))))))
    ?_ ?_ ?_
  · rfl
  · simp only [words, append_assoc]
    cases p <;> rfl
  · cases phase <;> cases hygiene <;> rfl

theorem prints_ruleMacro {params : List String} {phase : Phase} {hygiene : Hygiene}
    (names : ∀ y ∈ x :: params, lexesAsIdentifier y = true)
    (hns : ∀ n ∈ ns, n.PrintsAs settings Phrase.macroRule n.printed.words) (inhabited : ns ≠ []) :
    (macroDef span x params phase hygiene ns none).PrintsAs settings (Phrase.macroDef settings)
      (macroDef span x params phase hygiene ns none).printed.words := by
  have found : (Found.ofNodes (ns.map unplaced)).nodes ≠ [] := by
    simpa [Found.nodes, Found.ofNodes, Slot.toList] using inhabited
  have none : Prints settings (.give (.ofOption none)) [] (.ok []) (.ofOption none) := Prints.give
  have body : Prints settings Phrase.macroBody _ _ _ :=
    (((prints_many (r := ruleOpen) hns).demand found).seq none).right
  rw [append_nil] at body
  have ends : (([.many ns, .ofOption Option.none] : List (Slot Node)).flatMap
      fun s => s.toList.flatMap finished) = ns.flatMap finished ++ [] := by
    simp [Slot.toList, Slot.ofOption]
  refine prints_macroDef names (ends ▸ body) ?_
  have rules : (do
      let wss ← (ns.map printed).mapM (·.words)
      pure (if wss.isEmpty then [""] else wss.flatten)) = join (ns.map fun n => n.printed.words) := by
    have each := @join_map _ (fun n : Node => n.printed.words) id ns
    simp only [id_map] at each
    rw [each, List.mapM_map]
    obtain ⟨n, ns, rfl⟩ := List.exists_cons_of_ne_nil inhabited
    show (do let wss ← (n :: ns).mapM fun n : Node => n.printed.words; _) = _
    rw [List.mapM_cons]
    cases n.printed.words with
    | error e => rfl
    | ok ws =>
      cases ns.mapM fun n => n.printed.words with
      | error e => rfl
      | ok wss =>
        show Except.ok (ws :: wss).flatten = Except.ok ((ws :: wss).flatMap id)
        rw [List.flatMap_id]
  rw [← rules]
  show (mk span (.macroDef x params phase hygiene) [.many ns, .absent]).printed.words = _
  rw [printed_mk]
  show wordsWith (.macroDef x params phase hygiene) [.many (ns.map printed), .absent] = _
  unfold wordsWith
  dsimp only [Slot.eachWords, Slot.toList]
  cases (ns.map printed).mapM (·.words) <;> rfl

theorem prints_quotedMacro {params : List String} {phase : Phase} {hygiene : Hygiene}
    (names : ∀ y ∈ x :: params, lexesAsIdentifier y = true)
    (hn : n.PrintsAs settings Phrase.quote n.printed.words) :
    (macroDef span x params phase hygiene [] (some n)).PrintsAs settings (Phrase.macroDef settings)
      (macroDef span x params phase hygiene [] (some n)).printed.words := by
  have none : Prints settings (.give (.ofNodes [])) [] (.ok []) (.ofNodes []) := Prints.give
  have body : Prints settings Phrase.macroBody _ _ _ := (none.seq hn).left
  rw [nil_append] at body
  have ends : (([.many [], .ofOption (some n)] : List (Slot Node)).flatMap
      fun s => s.toList.flatMap finished) = [] ++ n.finished := by
    simp [Slot.toList, Slot.ofOption]
  refine prints_macroDef names (ends ▸ body) ?_
  show (mk span (.macroDef x params phase hygiene) [.many [], .one n]).printed.words = _
  rw [printed_mk]
  rfl

/-! ## All statements -/

theorem prints_statement {head : Head} {slots : List (Slot Node)}
    (is : head.category? = some .statement)
    (names : ∀ x ∈ head.names, lexesAsIdentifier x = true) (spelled : head.isSpelled = true)
    (complete : isComplete head slots = true)
    (fields : List.Forall₂ (Printable settings) head.fields slots) :
    Category.statement.Prints settings (mk span head slots) := by
  have marked : ∀ {a : Phrase} (r : Reserved), Phrase.statement? settings r = some a →
      (mk span head slots).PrintsAs settings a (mk span head slots).printed.words →
      Category.statement.Prints settings (mk span head slots) :=
    fun r h made => ⟨_, Prints.statement h made, .inl ⟨r, h⟩⟩
  cases head
  case blockStmt =>
    obtain _ | ⟨body, ⟨⟩⟩ := fields
    obtain ⟨b, rfl, hb⟩ := body.one
    exact marked blockOpen rfl (prints_blockStmt hb)
  case assignment x =>
    obtain _ | ⟨value, ⟨⟩⟩ := fields
    obtain ⟨n, rfl, hn⟩ := value.one
    exact marked assignOpen rfl
      (prints_assignment (names x List.mem_cons_self) (printsAs_expression hn))
  case importDecl path alias? =>
    obtain ⟨⟩ := fields
    have inhabited : path ≠ [] := by simpa [Head.isSpelled] using spelled
    exact marked importOpen rfl (prints_importDecl names inhabited)
  case returnStmt =>
    obtain _ | ⟨value, ⟨⟩⟩ := fields
    exact marked returnOpen rfl (prints_returnStmt value)
  case yieldStmt =>
    obtain _ | ⟨value, ⟨⟩⟩ := fields
    exact marked yieldOpen rfl (prints_yieldStmt value)
  case breakStmt =>
    obtain ⟨⟩ := fields
    exact marked breakMark rfl prints_breakStmt
  case continueStmt =>
    obtain ⟨⟩ := fields
    exact marked continueMark rfl prints_continueStmt
  case expressionStmt =>
    obtain _ | ⟨expression, ⟨⟩⟩ := fields
    obtain ⟨n, rfl, hn⟩ := expression.one
    exact ⟨_, prints_expressionStmt (printsAs_expression hn), .inr rfl⟩
  case memoryStmt x =>
    obtain _ | ⟨args, ⟨⟩⟩ := fields
    obtain ⟨ns, rfl, hns⟩ := args.many
    exact marked memoryOpen rfl
      (prints_memoryStmt (names x List.mem_cons_self) fun n h => printsAs_expression (hns n h))
  case deviceStmt =>
    obtain _ | ⟨device, _ | ⟨body, ⟨⟩⟩⟩ := fields
    obtain ⟨n, rfl, hn⟩ := device.one
    obtain ⟨b, rfl, hb⟩ := body.one
    exact marked deviceOpen rfl (prints_deviceStmt (printsAs_expression hn) hb)
  case tryStmt =>
    obtain _ | ⟨body, _ | ⟨handlers, _ | ⟨last, ⟨⟩⟩⟩⟩ := fields
    obtain ⟨b, rfl, hb⟩ := body.one
    obtain ⟨ns, rfl, hns⟩ := handlers.many
    rename_i s
    have some : ns ++ s.toList ≠ [] := by
      intro none
      obtain ⟨rfl, absent⟩ := List.append_eq_nil_iff.mp none
      simp [isComplete, absent, Slot.toList.eq_3] at complete
    exact marked tryOpen rfl (prints_tryStmt hb hns last some)
  case matchStmt =>
    obtain _ | ⟨subject, _ | ⟨cases', ⟨⟩⟩⟩ := fields
    obtain ⟨n, rfl, hn⟩ := subject.one
    obtain ⟨ns, rfl, hns⟩ := cases'.many
    have inhabited : ns ≠ [] := by simpa [isComplete, Slot.toList] using complete
    exact marked matchOpen rfl (prints_matchStmt (printsAs_expression hn) hns inhabited)
  case functionDef x params =>
    obtain _ | ⟨body, ⟨⟩⟩ := fields
    obtain ⟨b, rfl, hb⟩ := body.one
    exact marked funcOpen rfl (prints_functionDef names hb)
  case asyncFunctionDef x params =>
    obtain _ | ⟨body, ⟨⟩⟩ := fields
    obtain ⟨b, rfl, hb⟩ := body.one
    exact marked asyncFuncOpen rfl (prints_asyncFunctionDef names hb)
  case classDef x =>
    obtain _ | ⟨bases, _ | ⟨body, ⟨⟩⟩⟩ := fields
    obtain ⟨ns, rfl, hns⟩ := bases.many
    obtain ⟨b, rfl, hb⟩ := body.one
    exact marked classOpen rfl
      (prints_classDef (names x List.mem_cons_self) (fun n h => printsAs_expression (hns n h)) hb)
  case ifStmt =>
    obtain _ | ⟨condition, _ | ⟨body, _ | ⟨orelse, ⟨⟩⟩⟩⟩ := fields
    obtain ⟨n, rfl, hn⟩ := condition.one
    obtain ⟨b, rfl, hb⟩ := body.one
    exact marked ifOpen rfl (prints_ifStmt (printsAs_expression hn) hb orelse)
  case loopStmt target =>
    obtain _ | ⟨header, _ | ⟨body, ⟨⟩⟩⟩ := fields
    obtain ⟨b, rfl, hb⟩ := body.one
    rcases header.optional with rfl | ⟨n, rfl, hn⟩
    · obtain rfl : target = none := by
        cases target with
        | none => rfl
        | some x => simp [isComplete, Slot.toList] at complete
      exact marked loopOpen rfl (prints_loopForever hb)
    · cases target with
      | none => exact marked loopOpen rfl (prints_loopWhile (printsAs_expression hn) hb)
      | some x =>
        exact marked loopOpen rfl
          (prints_loopOver (names x List.mem_cons_self) (printsAs_expression hn) hb)
  case parallelStmt =>
    obtain _ | ⟨args, _ | ⟨body, ⟨⟩⟩⟩ := fields
    obtain ⟨ns, rfl, hns⟩ := args.many
    obtain ⟨b, rfl, hb⟩ := body.one
    exact marked parallelOpen rfl
      (prints_parallelStmt (fun n h => printsAs_expression (hns n h)) hb)
  case gpuStmt =>
    obtain _ | ⟨args, _ | ⟨body, ⟨⟩⟩⟩ := fields
    obtain ⟨ns, rfl, hns⟩ := args.many
    obtain ⟨b, rfl, hb⟩ := body.one
    exact marked gpuOpen rfl (prints_gpuStmt (fun n h => printsAs_expression (hns n h)) hb)
  case tensorDecl x =>
    obtain _ | ⟨shape, _ | ⟨body, ⟨⟩⟩⟩ := fields
    obtain ⟨ns, rfl, hns⟩ := shape.many
    obtain ⟨b, rfl, hb⟩ := body.one
    exact marked tensorOpen rfl
      (prints_tensorDecl (names x List.mem_cons_self) (fun n h => printsAs_expression (hns n h)) hb)
  case neuralNet x =>
    obtain _ | ⟨body, ⟨⟩⟩ := fields
    obtain ⟨b, rfl, hb⟩ := body.one
    exact marked nnOpen rfl (prints_neuralNet (names x List.mem_cons_self) hb)
  case streamStmt =>
    obtain _ | ⟨source, _ | ⟨body, ⟨⟩⟩⟩ := fields
    obtain ⟨n, rfl, hn⟩ := source.one
    obtain ⟨b, rfl, hb⟩ := body.one
    exact marked streamOpen rfl (prints_streamStmt (printsAs_expression hn) hb)
  case macroDef x params phase hygiene =>
    obtain _ | ⟨rules, _ | ⟨template, ⟨⟩⟩⟩ := fields
    obtain ⟨ns, rfl, hns⟩ := rules.many
    rcases template.optional with rfl | ⟨n, rfl, hn⟩
    · have inhabited : ns ≠ [] := by simpa [isComplete, Slot.toList] using complete
      exact marked macroOpen rfl (prints_ruleMacro names hns inhabited)
    · obtain rfl : ns = [] := by simpa [isComplete, Slot.toList] using complete
      exact marked macroOpen rfl (prints_quotedMacro names hn)
  all_goals cases is

/-! ## All nodes -/

section

variable {head : Head} {slots : List (Slot Node)}

theorem prints_body (is : head.category? = some .block) (spelled : head.isSpelled = true)
    (fields : List.Forall₂ (Printable settings) head.fields slots) :
    Category.block.Prints settings (mk span head slots) := by
  cases head
  case block injected =>
    obtain _ | ⟨statements, ⟨⟩⟩ := fields
    obtain ⟨ns, rfl, hns⟩ := statements.many
    obtain rfl : injected = [] := by simpa [Head.isSpelled] using spelled
    exact prints_block hns
  all_goals cases is

theorem prints_alternative (admits : Category.alternative.admits head = true)
    (spelled : head.isSpelled = true)
    (fields : List.Forall₂ (Printable settings) head.fields slots) :
    Category.alternative.Prints settings (mk span head slots) := by
  cases head
  case block injected =>
    refine alternative_block (prints_body rfl spelled fields) ?_
    rw [printed_mk, word_append]
    rfl
  case ifStmt =>
    obtain _ | ⟨condition, _ | ⟨body, _ | ⟨orelse, ⟨⟩⟩⟩⟩ := fields
    obtain ⟨n, rfl, hn⟩ := condition.one
    obtain ⟨b, rfl, hb⟩ := body.one
    exact alternative_ifStmt (printsAs_expression hn) hb orelse
  all_goals cases admits

/-- The pattern that a node starts with. -/
theorem prints_first {pattern : Slot Node} (h : Printable settings (.one, .pattern) pattern)
    (flawless : pattern.toList.all (·.patternFlaw?.isNone) = true) :
    ∃ n, pattern = .one n ∧ n.PrintsAs settings (.part .binding) n.printed.words := by
  obtain ⟨n, rfl, hn⟩ := h.one
  have flawless : n.patternFlaw? = none := by simpa [Slot.toList] using flawless
  exact ⟨n, rfl, printsAs_binding hn flawless⟩

theorem prints_handler (is : head.category? = some .handler)
    (complete : isComplete head slots = true)
    (fields : List.Forall₂ (Printable settings) head.fields slots) :
    Category.handler.Prints settings (mk span head slots) := by
  cases head
  case exceptClause =>
    obtain _ | ⟨pattern, _ | ⟨body, ⟨⟩⟩⟩ := fields
    obtain ⟨n, rfl, hn⟩ := prints_first pattern complete
    obtain ⟨b, rfl, hb⟩ := body.one
    exact prints_exceptClause hn hb
  all_goals cases is

theorem prints_case (is : head.category? = some .case) (complete : isComplete head slots = true)
    (fields : List.Forall₂ (Printable settings) head.fields slots) :
    Category.case.Prints settings (mk span head slots) := by
  cases head
  case caseClause =>
    obtain _ | ⟨pattern, _ | ⟨body, ⟨⟩⟩⟩ := fields
    obtain ⟨n, rfl, hn⟩ := prints_first pattern complete
    obtain ⟨b, rfl, hb⟩ := body.one
    exact prints_caseClause hn hb
  all_goals cases is

theorem prints_clause (is : head.category? = some .clause)
    (names : ∀ x ∈ head.names, lexesAsIdentifier x = true)
    (fields : List.Forall₂ (Printable settings) head.fields slots) :
    Category.clause.Prints settings (mk span head slots) := by
  cases head
  case comprehensionClause x =>
    obtain _ | ⟨iterable, _ | ⟨conditions, ⟨⟩⟩⟩ := fields
    obtain ⟨n, rfl, hn⟩ := iterable.one
    obtain ⟨ns, rfl, hns⟩ := conditions.many
    exact prints_comprehensionClause (names x List.mem_cons_self) (printsAs_expression hn)
      fun n h => printsAs_expression (hns n h)
  all_goals cases is

theorem prints_rule (is : head.category? = some .rule) (complete : isComplete head slots = true)
    (fields : List.Forall₂ (Printable settings) head.fields slots) :
    Category.rule.Prints settings (mk span head slots) := by
  cases head
  case macroRule isTransform =>
    cases isTransform with
    | true =>
      obtain _ | ⟨pattern, _ | ⟨template, ⟨⟩⟩⟩ := fields
      obtain ⟨n, rfl, hn⟩ := prints_first pattern complete
      obtain ⟨b, rfl, hb⟩ := template.one
      exact prints_transformRule hn hb
    | false =>
      obtain _ | ⟨pattern, _ | ⟨template, ⟨⟩⟩⟩ := fields
      obtain ⟨n, rfl, hn⟩ := prints_first pattern complete
      obtain ⟨b, rfl, hb⟩ := template.one
      exact prints_expressionRule hn (printsAs_expression hb)
  all_goals cases is

theorem prints_template (is : head = .quote)
    (fields : List.Forall₂ (Printable settings) head.fields slots) :
    Category.template.Prints settings (mk span head slots) := by
  subst is
  obtain _ | ⟨body, ⟨⟩⟩ := fields
  obtain ⟨n, rfl, hn⟩ := body.one
  exact prints_quote hn

/-- A node is printed as its parent asks if its children are printed as it asks itself. -/
theorem prints_of_fields (names : ∀ x ∈ head.names, lexesAsIdentifier x = true)
    (spelled : head.isSpelled = true) (complete : isComplete head slots = true)
    (fields : List.Forall₂ (Printable settings) head.fields slots) {c : Category}
    (admits : c.admits head = true) : c.Prints settings (mk span head slots) := by
  cases c with
  | alternative => exact prints_alternative admits spelled fields
  | template => exact prints_template (of_decide_eq_true admits) fields
  | quoted =>
    simp only [Category.admits, Bool.or_eq_true, decide_eq_true_eq] at admits
    rcases admits with is | is
    · exact Prints.left (prints_body is spelled fields)
    · exact Prints.right
        (printsAs_expression (prints_expression is names spelled complete fields))
  | statement => exact prints_statement (of_decide_eq_true admits) names spelled complete fields
  | expression => exact prints_expression (of_decide_eq_true admits) names spelled complete fields
  | pattern => exact prints_pattern (of_decide_eq_true admits) names spelled fields
  | block => exact prints_body (of_decide_eq_true admits) spelled fields
  | handler => exact prints_handler (of_decide_eq_true admits) complete fields
  | case => exact prints_case (of_decide_eq_true admits) complete fields
  | clause => exact prints_clause (of_decide_eq_true admits) names fields
  | rule => exact prints_rule (of_decide_eq_true admits) complete fields

end

/-- Every node of a well-formed tree is printed as its parent asks. -/
theorem prints_of_wellFormed {n : Node} (h : ∀ m ∈ n.walk, m.WellFormedAt) {c : Category}
    (admits : c.admits n.head = true) : c.Prints settings n := by
  induction n using induction_on generalizing c with
  | step span head slots ih =>
    have own := h _ (mem_walk_self _)
    refine prints_of_fields own.names own.spelled own.complete ?_ admits
    refine (forall₂_imp_of_mem own.fields.flip fun s hs f fits => ⟨fits.1, fun n hn => ?_⟩).flip
    exact ih s hs n hn (fun m hm => h m (mem_walk_mk.mpr (.inr ⟨s, hs, n, hn, hm⟩))) (fits.2 n hn)

end Node

end

end GlyphScript
