import GlyphScript.Proofs.Parsing.Lookahead
import GlyphScript.Proofs.Printing.Phrases

/-!
# Printing nodes

How the lists of a node are printed, and what is printed for a node where its
parent asks for a category.
-/

namespace GlyphScript

open Reserved

/-! ## Lists of words -/

namespace Words

variable {α : Type} {print : α → Words}

theorem join_map (g : List String → List String) (xs : List α) :
    join (xs.map fun x => g <$> print x) = List.flatMap g <$> xs.mapM print := by
  induction xs with
  | nil => rfl
  | cons x xs ih =>
    rw [List.map_cons, join_cons, ih, List.mapM_cons]
    cases print x with
    | error e => rfl
    | ok ws => cases xs.mapM print <;> rfl

/-- All words of a list are there when those of each item are. -/
theorem join_ok {xs : List α} {ws : List String} (h : join (xs.map print) = .ok ws) :
    ∃ wss, xs.mapM print = .ok wss ∧ wss.flatten = ws := by
  have each := @join_map _ print id xs
  simp only [id_map] at each
  rw [each] at h
  cases hw : xs.mapM print with
  | error e =>
    rw [hw] at h
    cases h
  | ok wss =>
    rw [hw] at h
    have made : wss.flatMap id = ws := Except.ok.inj h
    rw [List.flatMap_id] at made
    exact ⟨wss, rfl, made⟩

theorem word_append (w : String) (p : Words) : word w ++ p = (w :: ·) <$> p := by
  cases p <;> rfl

theorem separatedBy_cons (r : Reserved) (ws : List String) (wss : List (List String)) :
    separatedBy r (ws :: wss) = ws ++ wss.flatMap (r.spelling :: ·) := by
  induction wss generalizing ws with
  | nil => simp [separatedBy, List.intercalate]
  | cons us wss ih =>
    have ih := ih us
    simp only [separatedBy, List.isEmpty_cons, Bool.false_eq_true, if_false] at ih ⊢
    rw [List.intercalate, List.intersperse_cons_cons, List.flatten_cons, List.flatten_cons,
      ← List.intercalate, ih]
    simp

theorem enclosed_eq (opener closer : Reserved) (xs : List α) :
    (do return enclosed opener closer (← xs.mapM print)) =
      word opener.spelling ++ itemWords closer print xs := by
  cases xs with
  | nil => rfl
  | cons x xs =>
    have more : (xs.map fun x => word separator.spelling ++ print x) =
        xs.map fun x => (separator.spelling :: ·) <$> print x := by
      simp only [word_append]
    rw [itemWords, more, join_map, List.mapM_cons]
    cases print x with
    | error e => rfl
    | ok ws =>
      cases xs.mapM print with
      | error e => rfl
      | ok wss =>
        show Except.ok (enclosed opener closer (ws :: wss)) = Except.ok (_ ++ (_ ++ (_ ++ _)))
        rw [enclosed, separatedBy_cons]
        simp

theorem mapM_word (names : List String) :
    names.mapM (fun x => (word x : Words)) = .ok (names.map ([·])) := by
  induction names with
  | nil => rfl
  | cons x names ih =>
    rw [List.mapM_cons, ih]
    rfl

theorem itemWords_word (closer : Reserved) (names : List String) :
    itemWords closer word names =
      .ok ((if names.isEmpty then [] else separatedBy separator (names.map ([·]))) ++
        [closer.spelling]) := by
  cases names with
  | nil => rfl
  | cons x names =>
    have more : (names.map fun x => word separator.spelling ++ word x) =
        names.map fun x => (separator.spelling :: ·) <$> word x := by
      simp only [word_append]
    rw [itemWords, more, join_map, mapM_word, List.map_cons, separatedBy_cons]
    show Except.ok ([x] ++ (_ ++ [closer.spelling])) = Except.ok _
    simp

theorem parameterWords_eq (names : List String) :
    (.ok (parameterWords names) : Words) =
      word listOpen.spelling ++ itemWords listClose word names := by
  rw [itemWords_word]
  cases names <;> rfl

theorem clauseWords_eq (r : Reserved) (ns : List Printed) (print : Printed → Words) :
    clauseWords r (.many ns) print = join (ns.map fun n => word r.spelling ++ print n) := by
  have more : (ns.map fun n => word r.spelling ++ print n) =
      ns.map fun n => (r.spelling :: ·) <$> print n := by
    simp only [word_append]
  rw [more, join_map]
  rfl

end Words

open Words

/-! ## Printed nodes -/

namespace Node

theorem printed_mk (span : Span) (head : Head) (slots : List (Slot Node)) :
    (mk span head slots).printed = printWith head (slots.map (Slot.map printed)) :=
  fold_mk ..

theorem level_printed (n : Node) : n.printed.level = n.level := by
  obtain ⟨span, head, slots⟩ := n
  rw [printed_mk]
  unfold printWith
  split <;> rfl

end Node

section

variable (settings : Settings)

/-- What is printed are the words of the node, read as the phrase. -/
def Node.PrintsAs (a : Phrase) (n : Node) (p : Words) : Prop :=
  Prints settings a n.finished p (.ofNode n.unplaced)

/-- What is printed for a node where its parent asks for the category. A statement may start with
no `((`, and an alternative is the rest of a conditional. -/
def Category.Prints (n : Node) : Category → Prop
  | .statement => ∃ a, n.PrintsAs settings a n.printed.statement ∧
    ((∃ r, Phrase.statement? settings r = some a) ∨ a = Phrase.expressionStmt)
  | .expression => n.PrintsAs settings (.part (.expression n.level)) n.printed.words
  | .pattern => n.PrintsAs settings (.part .pattern) n.printed.words
  | .block => n.PrintsAs settings (.part .body) n.printed.words
  | .quoted => n.PrintsAs settings (.either bodyOpen (.part .body) Phrase.expression) n.printed.words
  | .alternative => ∃ f, GlyphScript.Prints settings
      (.seq (.star elifArm Phrase.arm) (Phrase.optionalNode elseArm (.part .body)))
      n.finished n.printed.alternative f ∧ Node.nestSlots default f.places f.slots = .one n.unplaced
  | .handler =>
    n.PrintsAs settings Phrase.exceptClause (word exceptArm.spelling ++ n.printed.clause)
  | .case => n.PrintsAs settings Phrase.caseClause (word caseArm.spelling ++ n.printed.clause)
  | .clause =>
    n.PrintsAs settings Phrase.comprehensionClause (word pathSep.spelling ++ n.printed.clause)
  | .rule => n.PrintsAs settings Phrase.macroRule n.printed.words
  | .template => n.PrintsAs settings Phrase.quote n.printed.words

/-- A slot of so many children, for each of which is printed what the category asks for. -/
def Printable (f : Arity × Category) (s : Slot Node) : Prop :=
  f.1.Fits s ∧ ∀ n ∈ s.toList, f.2.Prints settings n

end

section

variable {settings : Settings} {a : Phrase} {ns : List Node}

namespace Printable

variable {c : Category} {s : Slot Node}

theorem one (h : Printable settings (.one, c) s) : ∃ n, s = .one n ∧ c.Prints settings n := by
  obtain ⟨⟨⟩, prints⟩ := h
  exact ⟨_, rfl, prints _ List.mem_cons_self⟩

theorem many (h : Printable settings (.many, c) s) :
    ∃ ns, s = .many ns ∧ ∀ n ∈ ns, c.Prints settings n := by
  obtain ⟨⟨⟩, prints⟩ := h
  exact ⟨_, rfl, prints⟩

theorem optional (h : Printable settings (.optional, c) s) :
    s = .absent ∨ ∃ n, s = .one n ∧ c.Prints settings n := by
  obtain ⟨⟨⟩, prints⟩ := h
  · exact .inl rfl
  · exact .inr ⟨_, rfl, prints _ List.mem_cons_self⟩

end Printable

namespace Node

/-- A node is printed as the phrase that it is made of. -/
theorem printsAs_node {head' : Attributes → Head} {span : Span} {head : Head}
    {slots : List (Slot Node)} {t : List Node} {p q : Words} {f : Found}
    (inner : Prints settings a t p f)
    (ends : (slots.flatMap fun s => s.toList.flatMap finished) = t) (words : q = p)
    (made : mk default head (slots.map (Slot.map unplaced)) = mk default (head' f.attributes) f.slots) :
    (mk span head slots).PrintsAs settings (.node head' a) q := by
  rw [PrintsAs, finished_mk, ends, words]
  exact inner.node ((unplaced_mk ..).trans made)

theorem printsAs_operand {n : Node} {l : Level}
    (h : n.PrintsAs settings (.part (.expression n.level)) n.printed.words) :
    n.PrintsAs settings (.part (.expression l)) (n.printed.operand l) := by
  have words : n.printed.operand l =
      if n.level.rank < l.rank then
        word groupOpen.spelling ++ (n.printed.words ++ word groupClose.spelling)
      else n.printed.words := by
    unfold Printed.operand
    rw [level_printed]
    cases n.printed.words with
    | error e => split <;> rfl
    | ok ws => split <;> rfl
  rw [PrintsAs, words]
  split
  · have inner : Prints settings Phrase.expression n.finished n.printed.words (.ofNode n.unplaced) :=
      h.of_derives fun _ _ _ => .tighter (by cases n.level <;> decide)
    exact inner.group.of_derives fun _ _ _ => .tighter (by cases l <;> decide)
  · rename_i tight
    exact h.of_derives fun _ _ _ => .tighter (Nat.le_of_not_lt tight)

theorem printsAs_expression {n : Node}
    (h : n.PrintsAs settings (.part (.expression n.level)) n.printed.words) :
    n.PrintsAs settings Phrase.expression n.printed.words :=
  h.of_derives fun _ _ _ => .tighter (by cases n.level <;> decide)

end Node

/-! ## Lists of nodes -/

theorem itemWords_map (closer : Reserved) (ns : List Node) :
    itemWords closer (fun n => n.printed.words) ns = itemWords closer (·.words) (ns.map Node.printed) := by
  cases ns with
  | nil => rfl
  | cons n ns => simp [itemWords, Function.comp_def]

theorem prints_items (closer : Reserved)
    (h : ∀ n ∈ ns, n.PrintsAs settings a n.printed.words) :
    Prints settings (.list (Phrase.items closer a)) (ns.flatMap Node.finished)
      (itemWords closer (·.words) (ns.map Node.printed)) (.ofNodes (ns.map Node.unplaced)) := by
  have found : (ns.map fun n => Found.ofNode n.unplaced) = (ns.map Node.unplaced).map .ofNode := by
    rw [List.map_map]
    rfl
  have items := (Prints.items closer h).list
  rwa [found, Phrase.listed_join_ofNode, itemWords_map] at items

theorem argumentWords_many (ps : List Printed) :
    argumentWords (.many ps) = word listOpen.spelling ++ itemWords listClose (·.words) ps :=
  enclosed_eq ..

theorem prints_arguments (h : ∀ n ∈ ns, n.PrintsAs settings Phrase.expression n.printed.words) :
    Prints settings Phrase.arguments (ns.flatMap Node.finished)
      (argumentWords (.many (ns.map Node.printed))) (.ofNodes (ns.map Node.unplaced)) := by
  rw [argumentWords_many]
  exact Prints.mark.seq (prints_items listClose h)

section

variable {r : Reserved} {print : Node → Words}

theorem prints_many (h : ∀ n ∈ ns, n.PrintsAs settings a (print n)) :
    Prints settings (Phrase.manyOf r a) (ns.flatMap Node.finished) (join (ns.map print))
      (.ofNodes (ns.map Node.unplaced)) := by
  have found : (ns.map fun n => Found.ofNode n.unplaced) = (ns.map Node.unplaced).map .ofNode := by
    rw [List.map_map]
    rfl
  have many := (Prints.star (r := r) h).list
  rwa [found, Phrase.listed_join_ofNode] at many

theorem prints_some (h : ∀ n ∈ ns, n.PrintsAs settings a (print n)) (inhabited : ns ≠ []) :
    Prints settings (Phrase.someOf r a) (ns.flatMap Node.finished) (join (ns.map print))
      (.ofNodes (ns.map Node.unplaced)) := by
  obtain ⟨n, ns, rfl⟩ := List.exists_cons_of_ne_nil inhabited
  obtain ⟨here, below⟩ := List.forall_mem_cons.mp h
  have found : Found.ofNode n.unplaced ++ Found.join (ns.map fun n => .ofNode n.unplaced) =
      Found.join (((n :: ns).map Node.unplaced).map .ofNode) := by
    rw [List.map_map]
    rfl
  have all := (Prints.seq here (Prints.star (r := r) below)).list
  rwa [found, Phrase.listed_join_ofNode] at all

end

theorem prints_names {what : String} {names : List String}
    (h : ∀ x ∈ names, lexesAsIdentifier x = true) (closer : Reserved) :
    Prints settings (.gather (Phrase.items closer (.name what))) [] (itemWords closer word names)
      { attributes := { lists := [names] } } := by
  have items : Prints settings (Phrase.items closer (.name what)) (names.flatMap fun _ => [])
      (itemWords closer word names) (Found.join (names.map .ofText)) :=
    Prints.items closer fun x hx => Prints.name (h x hx)
  have none : (names.flatMap fun _ => ([] : List Node)) = [] := by simp
  rw [none] at items
  have gathered := items.gather
  rwa [Phrase.gathered_join_ofText] at gathered

theorem prints_parameters {names : List String} (h : ∀ x ∈ names, lexesAsIdentifier x = true) :
    Prints settings Phrase.parameters [] (.ok (parameterWords names))
      { attributes := { lists := [names] } } := by
  rw [parameterWords_eq]
  exact Prints.mark.seq (prints_names h listClose)

end

end GlyphScript
