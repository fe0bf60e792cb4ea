import GlyphScript.Proofs.Printing.Bodies

/-!
# Printing statements

The words printed for a statement derive from its phrase, as soon as this holds
of its parts.
-/

namespace GlyphScript

open Reserved Words

section

variable {settings : Settings} {span : Span}

/-! ## Optional parts -/

theorem prints_optionalValue {closer : Reserved} {s : Slot Node}
    (h : Printable settings (.optional, .expression) s) :
    Prints settings (Phrase.optionalValue closer) (s.toList.flatMap Node.finished)
      ((s.map Node.printed).wordsOrNone (·.words) ++ word closer.spelling)
      { slots := [s.map Node.unplaced] } := by
  rcases h.optional with rfl | ⟨n, rfl, hn⟩
  · have none : Prints settings (.give (.ofOption none)) [] (.ok []) (.ofOption none) := Prints.give
    exact (none.seq Prints.mark).left
  · have value := (Node.printsAs_expression hn).seq (Prints.mark (r := closer))
    rw [List.append_nil] at value
    rw [Slot.toList, List.flatMap_singleton]
    exact value.right

theorem prints_optionalNode {r : Reserved} {s : Slot Node}
    (h : Printable settings (.optional, .block) s) :
    Prints settings (Phrase.optionalNode r (.part .body)) (s.toList.flatMap Node.finished)
      ((s.map Node.printed).wordsOrNone fun p => word r.spelling ++ p.words)
      { slots := [s.map Node.unplaced] } := by
  rcases h.optional with rfl | ⟨n, rfl, hn⟩
  · have none : Prints settings (.give (.ofOption none)) [] (.ok []) (.ofOption none) := Prints.give
    exact none.right
  · rw [Slot.toList, List.flatMap_singleton]
    exact ((Prints.mark (r := r)).seq hn).left

theorem prints_optionalArguments {ns : List Node}
    (h : ∀ n ∈ ns, n.PrintsAs settings Phrase.expression n.printed.words) :
    Prints settings Phrase.optionalArguments (ns.flatMap Node.finished)
      (optionalArgumentWords (.many (ns.map Node.printed))) (.ofNodes (ns.map Node.unplaced)) := by
  cases ns with
  | nil =>
    have none : Prints settings (.give .nothing) [] (.ok []) .nothing := Prints.give
    exact none.right.list
  | cons n ns =>
    have found : ((n :: ns).map fun n => Found.ofNode n.unplaced) =
        ((n :: ns).map Node.unplaced).map .ofNode := by
      rw [List.map_map]
      rfl
    have some := (Prints.left (r := listOpen) (b := .give .nothing)
      ((Prints.mark (r := listOpen)).seq (Prints.items listClose h))).list
    rw [found, Found.nothing_append, Phrase.listed_join_ofNode, itemWords_map, List.nil_append,
      ← argumentWords_many] at some
    exact some

namespace Node

/-! ## Simple statements -/

variable {n body : Node} {ns : List Node} {x : String}

theorem prints_assignment (hx : lexesAsIdentifier x = true)
    (hn : n.PrintsAs settings Phrase.expression n.printed.words) :
    (assignment span x n).PrintsAs settings Phrase.assignment
      (assignment span x n).printed.words := by
  refine printsAs_node (Prints.mark.seq ((Prints.name hx).seq
    (Prints.mark.seq (hn.seq Prints.mark)))) ?_ ?_ rfl
  · simp [Slot.toList]
  · rw [assignment, printed_mk]
    show (do return List.flatten [_, ← n.printed.words, _]) = _
    cases n.printed.words <;> rfl

theorem prints_returnStmt {s : Slot Node} (h : Printable settings (.optional, .expression) s) :
    (mk span .returnStmt [s]).PrintsAs settings Phrase.returnStmt
      (mk span .returnStmt [s]).printed.words := by
  refine printsAs_node (Prints.mark.seq (prints_optionalValue h)) ?_ ?_ rfl
  · simp
  · rw [printed_mk]
    show (do return List.flatten [_, ← (s.map printed).wordsOrNone (·.words), _]) = _
    cases (s.map printed).wordsOrNone (·.words) <;> rfl

theorem prints_yieldStmt {s : Slot Node} (h : Printable settings (.optional, .expression) s) :
    (mk span .yieldStmt [s]).PrintsAs settings Phrase.yieldStmt
      (mk span .yieldStmt [s]).printed.words := by
  refine printsAs_node (Prints.mark.seq (prints_optionalValue h)) ?_ ?_ rfl
  · simp
  · rw [printed_mk]
    show (do return List.flatten [_, ← (s.map printed).wordsOrNone (·.words), _]) = _
    cases (s.map printed).wordsOrNone (·.words) <;> rfl

theorem prints_breakStmt :
    (breakStmt span).PrintsAs settings Phrase.breakStmt (breakStmt span).printed.words := by
  refine printsAs_node Prints.mark ?_ ?_ rfl
  · rfl
  · rw [breakStmt, printed_mk]
    rfl

theorem prints_continueStmt :
    (continueStmt span).PrintsAs settings Phrase.continueStmt
      (continueStmt span).printed.words := by
  refine printsAs_node Prints.mark ?_ ?_ rfl
  · rfl
  · rw [continueStmt, printed_mk]
    rfl

theorem prints_memoryStmt (hx : lexesAsIdentifier x = true)
    (hn : ∀ n ∈ ns, n.PrintsAs settings Phrase.expression n.printed.words) :
    (memoryStmt span x ns).PrintsAs settings Phrase.memoryStmt
      (memoryStmt span x ns).printed.words := by
  refine printsAs_node (Prints.mark.seq ((Prints.name hx).seq
    ((prints_arguments hn).seq Prints.mark))) ?_ ?_ rfl
  · simp [Slot.toList]
  · rw [memoryStmt, printed_mk]
    show (do return List.flatten [_, ← argumentWords (.many (ns.map printed)), _]) = _
    cases argumentWords (.many (ns.map printed)) <;> rfl

/-- The path of an import, and the alias behind it. -/
theorem prints_path {path : List String} (names : ∀ x ∈ path, lexesAsIdentifier x = true)
    (inhabited : path ≠ []) :
    Prints settings Phrase.modulePath [] (.ok (separatedBy pathSep (path.map ([·]))))
      { attributes := { lists := [path] } } := by
  obtain ⟨x, path, rfl⟩ := List.exists_cons_of_ne_nil inhabited
  obtain ⟨here, below⟩ := List.forall_mem_cons.mp names
  have steps : Prints settings (.star pathSep (.seq (.mark pathSep) (.name "module name")))
      (path.flatMap fun _ => []) (join (path.map fun x => word pathSep.spelling ++ word x))
      (Found.join (path.map fun x => .nothing ++ .ofText x)) :=
    Prints.star fun x hx => Prints.mark.seq (Prints.name (below x hx))
  have none : (path.flatMap fun _ => ([] : List Node)) = [] := by simp
  have words : word x ++ join (path.map fun x => word pathSep.spelling ++ word x) =
      .ok (separatedBy pathSep ((x :: path).map ([·]))) := by
    have more : (path.map fun x => word pathSep.spelling ++ word x) =
        path.map fun x => (pathSep.spelling :: ·) <$> word x := by
      simp only [word_append]
    rw [more, join_map, mapM_word, List.map_cons, separatedBy_cons]
    rfl
  have all := ((@Prints.name settings "module name" x here).seq steps).gather
  rw [none, words] at all
  have found := Phrase.gathered_join_ofText (x :: path)
  rw [List.map_cons, Found.join, List.foldr_cons, ← Found.join] at found
  simp only [Found.nothing_append, found] at all
  exact all

theorem prints_alias {alias? : Option String}
    (names : ∀ x ∈ alias?.toList, lexesAsIdentifier x = true) :
    Prints settings Phrase.importAlias []
      (.ok ((alias?.filter (· ≠ "")).elim [] ([arrow.spelling, ·])))
      { attributes := { texts := alias?.toList } } := by
  cases alias? with
  | none =>
    have none : Prints settings (.give .nothing) [] (.ok []) .nothing := Prints.give
    exact none.right
  | some x =>
    have hx : lexesAsIdentifier x = true := names x List.mem_cons_self
    have named : x ≠ "" := by
      rintro rfl
      exact absurd hx (by decide)
    have kept : (some x).filter (· ≠ "") = some x := by simp [named]
    rw [kept]
    exact ((Prints.mark (r := arrow)).seq (Prints.name hx)).left

theorem prints_importDecl {path : List String} {alias? : Option String}
    (names : ∀ x ∈ path ++ alias?.toList, lexesAsIdentifier x = true) (inhabited : path ≠ []) :
    (importDecl span path alias?).PrintsAs settings Phrase.importDecl
      (importDecl span path alias?).printed.words := by
  have path' := @prints_path settings _
    (fun x hx => names x (List.mem_append_left _ hx)) inhabited
  have alias' := @prints_alias settings _ fun x hx => names x (List.mem_append_right _ hx)
  refine printsAs_node (Prints.mark.seq (path'.seq (alias'.seq Prints.mark))) ?_ ?_ ?_
  · rfl
  · rw [importDecl, printed_mk]
    rfl
  · cases alias? <;> rfl

/-! ## Statements with bodies -/

theorem prints_blockStmt (hb : body.PrintsAs settings (.part .body) body.printed.words) :
    (blockStmt span body).PrintsAs settings Phrase.blockStmt
      (blockStmt span body).printed.words := by
  refine printsAs_node (Prints.construct (c := .block) hb) ?_ ?_ rfl
  · simp [Slot.toList]
  · rw [blockStmt, printed_mk]
    show (do return List.flatten [_, ← body.printed.words, _]) = _
    cases body.printed.words <;> rfl

theorem prints_deviceStmt (hn : n.PrintsAs settings Phrase.expression n.printed.words)
    (hb : body.PrintsAs settings (.part .body) body.printed.words) :
    (deviceStmt span n body).PrintsAs settings Phrase.deviceStmt
      (deviceStmt span n body).printed.words := by
  refine printsAs_node (Prints.construct (c := .device) (hn.seq hb)) ?_ ?_ rfl
  · simp [Slot.toList]
  · rw [deviceStmt, printed_mk, append_assoc]
    show (do return List.flatten [_, ← n.printed.words, ← body.printed.words, _]) = _
    cases n.printed.words <;> cases body.printed.words <;> rfl

theorem prints_streamStmt (hn : n.PrintsAs settings Phrase.expression n.printed.words)
    (hb : body.PrintsAs settings (.part .body) body.printed.words) :
    (streamStmt span n body).PrintsAs settings Phrase.streamStmt
      (streamStmt span n body).printed.words := by
  refine printsAs_node (Prints.construct (c := .stream) (hn.seq hb)) ?_ ?_ rfl
  · simp [Slot.toList]
  · rw [streamStmt, printed_mk, append_assoc]
    show (do return List.flatten [_, ← n.printed.words, ← body.printed.words, _]) = _
    cases n.printed.words <;> cases body.printed.words <;> rfl

theorem prints_functionDef {params : List String}
    (names : ∀ y ∈ x :: params, lexesAsIdentifier y = true)
    (hb : body.PrintsAs settings (.part .body) body.printed.words) :
    (functionDef span x params body).PrintsAs settings Phrase.functionDef
      (functionDef span x params body).printed.words := by
  obtain ⟨hx, hp⟩ := List.forall_mem_cons.mp names
  refine printsAs_node (Prints.construct (c := .function)
    ((Prints.name hx).seq ((prints_parameters hp).seq hb))) ?_ ?_ rfl
  · simp [Slot.toList]
  · rw [functionDef, printed_mk, append_assoc, append_assoc]
    show (do return List.flatten [_, parameterWords params, ← body.printed.words, _]) = _
    cases body.printed.words <;> rfl

theorem prints_asyncFunctionDef {params : List String}
    (names : ∀ y ∈ x :: params, lexesAsIdentifier y = true)
    (hb : body.PrintsAs settings (.part .body) body.printed.words) :
    (asyncFunctionDef span x params body).PrintsAs settings Phrase.asyncFunctionDef
      (asyncFunctionDef span x params body).printed.words := by
  obtain ⟨hx, hp⟩ := List.forall_mem_cons.mp names
  refine printsAs_node (Prints.construct (c := .asyncFunction)
    ((Prints.name hx).seq ((prints_parameters hp).seq hb))) ?_ ?_ rfl
  · simp [Slot.toList]
  · rw [asyncFunctionDef, printed_mk, append_assoc, append_assoc]
    show (do return List.flatten [_, parameterWords params, ← body.printed.words, _]) = _
    cases body.printed.words <;> rfl

theorem prints_classDef (hx : lexesAsIdentifier x = true)
    (hn : ∀ n ∈ ns, n.PrintsAs settings Phrase.expression n.printed.words)
    (hb : body.PrintsAs settings (.part .body) body.printed.words) :
    (classDef span x ns body).PrintsAs settings Phrase.classDef
      (classDef span x ns body).printed.words := by
  refine printsAs_node (Prints.construct (c := .classDef)
    ((Prints.name hx).seq ((prints_optionalArguments hn).seq hb))) ?_ ?_ rfl
  · simp [Slot.toList]
  · rw [classDef, printed_mk, append_assoc, append_assoc]
    show (do return List.flatten [_, ← optionalArgumentWords (.many (ns.map printed)),
      ← body.printed.words, _]) = _
    cases optionalArgumentWords (.many (ns.map printed)) <;> cases body.printed.words <;> rfl

theorem prints_parallelStmt
    (hn : ∀ n ∈ ns, n.PrintsAs settings Phrase.expression n.printed.words)
    (hb : body.PrintsAs settings (.part .body) body.printed.words) :
    (parallelStmt span ns body).PrintsAs settings Phrase.parallelStmt
      (parallelStmt span ns body).printed.words := by
  refine printsAs_node (Prints.construct (c := .parallel)
    ((prints_optionalArguments hn).seq hb)) ?_ ?_ rfl
  · simp [Slot.toList]
  · rw [parallelStmt, printed_mk, append_assoc]
    show (do return List.flatten [_, ← optionalArgumentWords (.many (ns.map printed)),
      ← body.printed.words, _]) = _
    cases optionalArgumentWords (.many (ns.map printed)) <;> cases body.printed.words <;> rfl

theorem prints_gpuStmt (hn : ∀ n ∈ ns, n.PrintsAs settings Phrase.expression n.printed.words)
    (hb : body.PrintsAs settings (.part .body) body.printed.words) :
    (gpuStmt span ns body).PrintsAs settings Phrase.gpuStmt
      (gpuStmt span ns body).printed.words := by
  refine printsAs_node (Prints.construct (c := .gpu)
    ((prints_optionalArguments hn).seq hb)) ?_ ?_ rfl
  · simp [Slot.toList]
  · rw [gpuStmt, printed_mk, append_assoc]
    show (do return List.flatten [_, ← optionalArgumentWords (.many (ns.map printed)),
      ← body.printed.words, _]) = _
    cases optionalArgumentWords (.many (ns.map printed)) <;> cases body.printed.words <;> rfl

theorem prints_tensorDecl (hx : lexesAsIdentifier x = true)
    (hn : ∀ n ∈ ns, n.PrintsAs settings Phrase.expression n.printed.words)
    (hb : body.PrintsAs settings (.part .body) body.printed.words) :
    (tensorDecl span x ns body).PrintsAs settings Phrase.tensorDecl
      (tensorDecl span x ns body).printed.words := by
  refine printsAs_node (Prints.construct (c := .tensor)
    ((Prints.name hx).seq ((prints_optionalArguments hn).seq hb))) ?_ ?_ rfl
  · simp [Slot.toList]
  · rw [tensorDecl, printed_mk, append_assoc, append_assoc]
    show (do return List.flatten [_, ← optionalArgumentWords (.many (ns.map printed)),
      ← body.printed.words, _]) = _
    cases optionalArgumentWords (.many (ns.map printed)) <;> cases body.printed.words <;> rfl

theorem prints_neuralNet (hx : lexesAsIdentifier x = true)
    (hb : body.PrintsAs settings (.part .body) body.printed.words) :
    (neuralNet span x body).PrintsAs settings Phrase.neuralNet
      (neuralNet span x body).printed.words := by
  refine printsAs_node (Prints.construct (c := .network) ((Prints.name hx).seq hb)) ?_ ?_ rfl
  · simp [Slot.toList]
  · rw [neuralNet, printed_mk, append_assoc]
    show (do return List.flatten [_, ← body.printed.words, _]) = _
    cases body.printed.words <;> rfl

/-! ## Loops -/

theorem prints_loopOver (hx : lexesAsIdentifier x = true)
    (hn : n.PrintsAs settings Phrase.expression n.printed.words)
    (hb : body.PrintsAs settings (.part .body) body.printed.words) :
    (loopStmt span (some x) (some n) body).PrintsAs settings Phrase.loopStmt
      (loopStmt span (some x) (some n) body).printed.words := by
  have header : Prints settings Phrase.loopHeader _ _ _ :=
    (Prints.mark.seq (((Prints.name hx).seq (Prints.mark.seq hn)).bound.seq Prints.mark)).left
  refine printsAs_node (Prints.construct (c := .loop) (header.seq hb)) ?_ ?_ rfl
  · simp [Slot.toList, Slot.ofOption]
  · rw [loopStmt, printed_mk, append_assoc, append_assoc, append_assoc, append_assoc, append_assoc]
    show (do return List.flatten [_, ← n.printed.words, _, ← body.printed.words, _]) = _
    cases n.printed.words <;> cases body.printed.words <;> rfl

theorem prints_loopWhile (hn : n.PrintsAs settings Phrase.expression n.printed.words)
    (hb : body.PrintsAs settings (.part .body) body.printed.words) :
    (loopStmt span none (some n) body).PrintsAs settings Phrase.loopStmt
      (loopStmt span none (some n) body).printed.words := by
  have header : Prints settings Phrase.loopHeader _ _ _ :=
    (Prints.mark.seq (hn.unbound.seq Prints.mark)).left
  refine printsAs_node (Prints.construct (c := .loop) (header.seq hb)) ?_ ?_ rfl
  · simp [Slot.toList, Slot.ofOption]
  · rw [loopStmt, printed_mk, append_assoc, append_assoc, append_assoc]
    show (do return List.flatten [_, ← n.printed.words, _, ← body.printed.words, _]) = _
    cases n.printed.words <;> cases body.printed.words <;> rfl

theorem prints_loopForever (hb : body.PrintsAs settings (.part .body) body.printed.words) :
    (loopStmt span none none body).PrintsAs settings Phrase.loopStmt
      (loopStmt span none none body).printed.words := by
  have none : Prints settings (.give (.ofOption none)) [] (.ok []) (.ofOption none) := Prints.give
  have header : Prints settings Phrase.loopHeader _ _ _ := none.right
  refine printsAs_node (Prints.construct (c := .loop) (header.seq hb)) ?_ ?_ rfl
  · simp [Slot.toList, Slot.ofOption]
  · rw [loopStmt, printed_mk]
    show (do return List.flatten [_, ← body.printed.words, _]) = _
    cases body.printed.words <;> rfl

/-! ## Arms -/

variable {pattern : Node}

theorem prints_exceptClause (hp : pattern.PrintsAs settings (.part .binding) pattern.printed.words)
    (hb : body.PrintsAs settings (.part .body) body.printed.words) :
    (exceptClause span pattern body).PrintsAs settings Phrase.exceptClause
      (word exceptArm.spelling ++ (exceptClause span pattern body).printed.clause) := by
  refine printsAs_node (Prints.mark.seq (hp.seq hb)) ?_ ?_ rfl
  · simp [Slot.toList]
  · rw [exceptClause, printed_mk]
    show word _ ++ (do return List.flatten [← pattern.printed.words, ← body.printed.words]) = _
    cases pattern.printed.words with
    | error e => rfl
    | ok ws =>
      cases body.printed.words with
      | error e => rfl
      | ok vs =>
        show Except.ok (_ ++ (ws ++ (vs ++ []))) = _
        rw [List.append_nil]
        rfl

theorem prints_caseClause (hp : pattern.PrintsAs settings (.part .binding) pattern.printed.words)
    (hb : body.PrintsAs settings (.part .body) body.printed.words) :
    (caseClause span pattern body).PrintsAs settings Phrase.caseClause
      (word caseArm.spelling ++ (caseClause span pattern body).printed.clause) := by
  refine printsAs_node (Prints.mark.seq (hp.seq hb)) ?_ ?_ rfl
  · simp [Slot.toList]
  · rw [caseClause, printed_mk]
    show word _ ++ (do return List.flatten [← pattern.printed.words, ← body.printed.words]) = _
    cases pattern.printed.words with
    | error e => rfl
    | ok ws =>
      cases body.printed.words with
      | error e => rfl
      | ok vs =>
        show Except.ok (_ ++ (ws ++ (vs ++ []))) = _
        rw [List.append_nil]
        rfl

theorem clauseWords_clause (r : Reserved) (ns : List Node) :
    clauseWords r (.many (ns.map printed)) (·.clause) =
      join (ns.map fun n => word r.spelling ++ n.printed.clause) := by
  rw [clauseWords_eq, List.map_map]
  rfl

theorem prints_matchStmt (hn : n.PrintsAs settings Phrase.expression n.printed.words)
    (hns : ∀ n ∈ ns, n.PrintsAs settings Phrase.caseClause
      (word caseArm.spelling ++ n.printed.clause)) (inhabited : ns ≠ []) :
    (matchStmt span n ns).PrintsAs settings Phrase.matchStmt
      (matchStmt span n ns).printed.words := by
  refine printsAs_node (Prints.construct (c := .matching)
    (hn.seq (prints_some hns inhabited))) ?_ ?_ rfl
  · simp [Slot.toList]
  · rw [matchStmt, printed_mk, append_assoc, ← clauseWords_clause]
    show (do return List.flatten [_, ← n.printed.words,
      ← clauseWords caseArm (.many (ns.map printed)) (·.clause), _]) = _
    cases n.printed.words <;>
      cases clauseWords caseArm (.many (ns.map printed)) (·.clause) <;> rfl

theorem prints_tryStmt {s : Slot Node} (hb : body.PrintsAs settings (.part .body) body.printed.words)
    (hns : ∀ n ∈ ns, n.PrintsAs settings Phrase.exceptClause
      (word exceptArm.spelling ++ n.printed.clause))
    (hs : Printable settings (.optional, .block) s) (some : ns ++ s.toList ≠ []) :
    (mk span .tryStmt [.one body, .many ns, s]).PrintsAs settings Phrase.tryStmt
      (mk span .tryStmt [.one body, .many ns, s]).printed.words := by
  have arms := (prints_many (r := exceptArm) hns).seq (prints_optionalNode (r := finallyArm) hs)
  have nodes : (Found.ofNodes (ns.map unplaced) ++ { slots := [s.map unplaced] }).nodes =
      (ns ++ s.toList).map unplaced := by
    show ([.many (ns.map unplaced), s.map unplaced] : List (Slot Node)).flatMap Slot.toList = _
    simp only [List.flatMap_cons, List.flatMap_nil, Slot.toList_map, List.map_append,
      List.append_nil]
    rfl
  have found : (Found.ofNodes (ns.map unplaced) ++ { slots := [s.map unplaced] }).nodes ≠ [] := by
    rw [nodes]
    exact fun none => some (List.map_eq_nil_iff.mp none)
  refine printsAs_node (Prints.construct (c := .guarded) (hb.seq (arms.demand found))) ?_ ?_ rfl
  · simp [Slot.toList]
  · have last : ((s.map printed).wordsOrNone fun p => do return finallyArm.spelling :: (← p.words)) =
        (s.map printed).wordsOrNone fun p => word finallyArm.spelling ++ p.words := by
      simp only [word_append]
      rfl
    rw [printed_mk, append_assoc, append_assoc, ← clauseWords_clause, ← last]
    show (do return List.flatten [_, ← body.printed.words,
      ← clauseWords exceptArm (.many (ns.map printed)) (·.clause),
      ← (s.map printed).wordsOrNone fun p => do return finallyArm.spelling :: (← p.words), _]) = _
    cases body.printed.words <;>
      cases clauseWords exceptArm (.many (ns.map printed)) (·.clause) <;>
      cases ((s.map printed).wordsOrNone fun p => do return finallyArm.spelling :: (← p.words)) <;>
      rfl

/-! ## Conditionals -/

theorem prints_arm (hn : n.PrintsAs settings Phrase.expression n.printed.words)
    (hb : body.PrintsAs settings (.part .body) body.printed.words) :
    Prints settings Phrase.arm (n.finished ++ body.finished)
      (word elifArm.spelling ++ (n.printed.words ++ body.printed.words))
      { places := [default], slots := [.one n.unplaced, .one body.unplaced] } := by
  have place : Prints settings .place [] (.ok []) (.ofPlace default) :=
    Prints.nothing fun _ => .place
  have arm := place.seq ((Prints.mark (r := elifArm)).seq (hn.seq hb))
  rw [Words.nil_append] at arm
  exact arm

variable {s : Slot Node}

theorem prints_alternatives (h : Printable settings (.optional, .alternative) s) :
    ∃ f, Prints settings
      (.seq (.star elifArm Phrase.arm) (Phrase.optionalNode elseArm (.part .body)))
      (s.toList.flatMap finished) ((s.map printed).wordsOrNone Printed.alternative) f ∧
      nestSlots default f.places f.slots = s.map unplaced := by
  rcases h.optional with rfl | ⟨n, rfl, f, hn, made⟩
  · have arms : Prints settings (.star elifArm Phrase.arm) [] (.ok []) .nothing :=
      Prints.nothing fun _ => .starNil
    have none : Prints settings (.give (.ofOption none)) [] (.ok []) (.ofOption none) := Prints.give
    exact ⟨_, arms.seq none.right, rfl⟩
  · rw [Slot.toList, List.flatMap_singleton]
    exact ⟨f, hn, made⟩

theorem alternative_block (hb : body.PrintsAs settings (.part .body) body.printed.words)
    (plain : body.printed.alternative = word elseArm.spelling ++ body.printed.words) :
    Category.alternative.Prints settings body := by
  have arms : Prints settings (.star elifArm Phrase.arm) [] (.ok []) .nothing :=
    Prints.nothing fun _ => .starNil
  have last : Prints settings (Phrase.optionalNode elseArm (.part .body)) _ _ _ :=
    ((Prints.mark (r := elseArm)).seq hb).left
  have whole := arms.seq last
  rw [Words.nil_append, ← plain] at whole
  exact ⟨_, whole, rfl⟩

theorem armWords_eq (s : Slot Node) :
    armWords (.one n.printed) (.one body.printed) (s.map printed) =
      n.printed.words ++ (body.printed.words ++ (s.map printed).wordsOrNone Printed.alternative) := by
  show (do return List.flatten [← n.printed.words, ← body.printed.words,
    ← (s.map printed).wordsOrNone Printed.alternative]) = _
  cases n.printed.words with
  | error e => rfl
  | ok us =>
    cases body.printed.words with
    | error e => rfl
    | ok vs =>
      cases (s.map printed).wordsOrNone Printed.alternative with
      | error e => rfl
      | ok ws =>
        show Except.ok (us ++ (vs ++ (ws ++ []))) = _
        rw [List.append_nil]
        rfl

theorem alternative_ifStmt (hn : n.PrintsAs settings Phrase.expression n.printed.words)
    (hb : body.PrintsAs settings (.part .body) body.printed.words)
    (hs : Printable settings (.optional, .alternative) s) :
    Category.alternative.Prints settings (mk span .ifStmt [.one n, .one body, s]) := by
  obtain ⟨f, rest, nested⟩ := prints_alternatives hs
  have whole := (prints_arm hn hb).starCons rest
  have words : (mk span .ifStmt [.one n, .one body, s]).printed.alternative =
      word elifArm.spelling ++ (n.printed.words ++ body.printed.words) ++
        (s.map printed).wordsOrNone Printed.alternative := by
    rw [append_assoc, append_assoc, ← armWords_eq, printed_mk, word_append]
    rfl
  have ends : (mk span .ifStmt [.one n, .one body, s]).finished =
      n.finished ++ body.finished ++ s.toList.flatMap finished ++
        [mk span .ifStmt [.one n, .one body, s]] := by
    rw [finished_mk]
    simp [Slot.toList]
  refine ⟨{ places := [default], slots := [.one n.unplaced, .one body.unplaced] } ++ f, ?_, ?_⟩
  · rw [words, ends]
    exact whole.weaken
  · show Slot.one (mk _ .ifStmt [_, _, nestSlots default f.places f.slots]) = _
    rw [nested, unplaced_mk]
    rfl

theorem prints_ifStmt (hn : n.PrintsAs settings Phrase.expression n.printed.words)
    (hb : body.PrintsAs settings (.part .body) body.printed.words)
    (hs : Printable settings (.optional, .alternative) s) :
    (mk span .ifStmt [.one n, .one body, s]).PrintsAs settings Phrase.ifStmt
      (mk span .ifStmt [.one n, .one body, s]).printed.words := by
  obtain ⟨f, rest, nested⟩ := prints_alternatives hs
  have whole := Prints.construct (c := .conditional) (hn.seq (hb.seq rest))
  have words : (mk span .ifStmt [.one n, .one body, s]).printed.words =
      word ifOpen.spelling ++ (n.printed.words ++ (body.printed.words ++
        (s.map printed).wordsOrNone Printed.alternative) ++ word ifClose.spelling) := by
    rw [← armWords_eq, printed_mk]
    show (do return List.flatten [_,
      ← armWords (.one n.printed) (.one body.printed) (s.map printed), _]) = _
    cases armWords (.one n.printed) (.one body.printed) (s.map printed) <;> rfl
  have ends : (mk span .ifStmt [.one n, .one body, s]).finished =
      n.finished ++ (body.finished ++ s.toList.flatMap finished) ++
        [mk span .ifStmt [.one n, .one body, s]] := by
    rw [finished_mk]
    simp [Slot.toList]
  have made : (mk span .ifStmt [.one n, .one body, s]).unplaced =
      ofArms default f.places (.one n.unplaced :: .one body.unplaced :: f.slots) := by
    show _ = mk _ .ifStmt [_, _, nestSlots default f.places f.slots]
    rw [nested, unplaced_mk]
    rfl
  rw [PrintsAs, words, ends, made]
  exact (whole.of_derives fun _ _ _ => .chain).weaken

end Node

end

end GlyphScript
