import GlyphScript.Proofs.Printing.Nodes
import GlyphScript.Proofs.Safety.Sorts

/-!
# Sorted trees can be printed

A node is printed if all its children are printed as it asks, and in a sorted
tree a node asks of each child what nodes of the child's category are printed
as. So sorted programs have a text.
-/

namespace GlyphScript

/-! ## Computations without errors -/

/-- There is something to print. -/
def Made {α : Type} (p : Except Unprintable α) : Prop := ∃ a, p = .ok a

namespace Made

variable {α β : Type}

theorem pure (a : α) : Made (Pure.pure a) := ⟨a, rfl⟩

theorem bind {p : Except Unprintable α} {f : α → Except Unprintable β} (hp : Made p)
    (hf : ∀ a, Made (f a)) : Made (p >>= f) := by
  obtain ⟨a, rfl⟩ := hp
  exact hf a

theorem mapM {f : α → Except Unprintable β} : ∀ {as : List α}, (∀ a ∈ as, Made (f a)) →
    Made (as.mapM f)
  | [], _ => ⟨[], rfl⟩
  | a :: as, h => by
    rw [List.mapM_cons]
    exact (h a List.mem_cons_self).bind fun _ =>
      (mapM fun b hb => h b (List.mem_cons_of_mem a hb)).bind fun _ => .pure _

end Made

/-! ## Slots -/

/-- What is printed of a node where the category is asked for. -/
def Category.wordsOf : Category → Printed → Words
  | .handler | .case | .clause => Printed.clause
  | .alternative => Printed.alternative
  | _ => Printed.words

/-- The slot of a node whose children are printed as they are to be. -/
structure Slot.Ready (f : Arity × Category) (s : Slot Printed) : Prop where
  fits : f.1.Fits s
  children : ∀ p ∈ s.toList, Made (f.2.wordsOf p)

theorem Arity.Fits.map {α β : Type} {a : Arity} {s : Slot α} (h : a.Fits s) (f : α → β) :
    a.Fits (s.map f) := by
  cases h <;> constructor

namespace Slot.Ready

variable {c : Category} {s : Slot Printed}

theorem one (h : s.Ready (.one, c)) : Made (c.wordsOf s.child) := by
  obtain ⟨⟨⟩, children⟩ := h
  exact children _ List.mem_cons_self

theorem optional (h : s.Ready (.optional, c)) {print : Printed → Words}
    (made : ∀ p, Made (c.wordsOf p) → Made (print p)) : Made (s.wordsOrNone print) := by
  obtain ⟨⟨⟩, children⟩ := h
  · exact .pure _
  · exact made _ (children _ List.mem_cons_self)

theorem many (h : s.Ready (.many, c)) {print : Printed → Words}
    (made : ∀ p, Made (c.wordsOf p) → Made (print p)) : Made (s.eachWords print) :=
  .mapM fun p hp => made p (h.children p hp)

end Slot.Ready

theorem Printed.made_operand {p : Printed} (h : Made p.words) (l : Level) : Made (p.operand l) :=
  h.bind fun _ => .pure _

theorem Printed.made_statement {p : Printed} (h : Made p.words) : Made p.statement :=
  h.bind fun _ => by dsimp only; exact .pure _

section

variable {s : Slot Printed}

theorem made_argumentWords (h : s.Ready (.many, .expression)) : Made (argumentWords s) :=
  (h.many fun _ => id).bind fun _ => .pure _

theorem made_optionalArgumentWords (h : s.Ready (.many, .expression)) :
    Made (optionalArgumentWords s) := by
  unfold optionalArgumentWords
  split
  · exact .pure _
  · exact made_argumentWords h

theorem made_clauseWords {c : Category} (h : s.Ready (.many, c)) (r : Reserved)
    (clause : ∀ p, Made (c.wordsOf p) → Made p.clause) : Made (clauseWords r s (·.clause)) :=
  (h.many clause).bind fun _ => .pure _

end

/-- Clauses are printed behind an introducer and not on their own. -/
def Head.isArm : Head → Bool
  | .exceptClause | .caseClause | .comprehensionClause _ => true
  | _ => false

namespace Node

variable {head : Head} {slots : List (Slot Printed)}

theorem made_armWords {condition body orelse : Slot Printed}
    (hc : condition.Ready (.one, .expression)) (hb : body.Ready (.one, .block))
    (ho : orelse.Ready (.optional, .alternative)) : Made (armWords condition body orelse) :=
  hc.one.bind fun _ => hb.one.bind fun _ => (ho.optional fun _ => id).bind fun _ => .pure _

/-- A node that is no clause of another is printed when its children are. -/
theorem made_wordsWith (h : List.Forall₂ (fun f s => Slot.Ready f s) head.sorts slots)
    (whole : head.isArm = false) : Made (wordsWith head slots) := by
  cases head
  case exceptClause | caseClause | comprehensionClause => cases whole
  case importDecl | breakStmt | continueStmt | literal | identifier | literalPattern
    | bindPattern => exact .pure _
  case program | block =>
    obtain _ | ⟨statements, ⟨⟩⟩ := h
    exact (statements.many fun _ => Printed.made_statement).bind fun _ => .pure _
  case blockStmt | functionDef | asyncFunctionDef | neuralNet | assignment | lambda | unquote
    | quote =>
    obtain _ | ⟨inner, ⟨⟩⟩ := h
    exact inner.one.bind fun _ => .pure _
  case expressionStmt =>
    obtain _ | ⟨inner, ⟨⟩⟩ := h
    exact inner.one
  case awaitExpr | unaryOp =>
    obtain _ | ⟨inner, ⟨⟩⟩ := h
    exact (Printed.made_operand inner.one _).bind fun _ => .pure _
  case returnStmt | yieldStmt =>
    obtain _ | ⟨value, ⟨⟩⟩ := h
    exact (value.optional fun _ => id).bind fun _ => .pure _
  case tupleLiteral =>
    obtain _ | ⟨elements, ⟨⟩⟩ := h
    exact made_argumentWords elements
  case memoryStmt | macroCall =>
    obtain _ | ⟨args, ⟨⟩⟩ := h
    exact (made_argumentWords args).bind fun _ => .pure _
  case tuplePattern | tensorLiteral | tensorShapePattern | graphPattern | streamPattern =>
    obtain _ | ⟨elements, ⟨⟩⟩ := h
    exact (elements.many fun _ => id).bind fun _ => .pure _
  case deviceStmt | streamStmt =>
    obtain _ | ⟨first, _ | ⟨body, ⟨⟩⟩⟩ := h
    exact first.one.bind fun _ => body.one.bind fun _ => .pure _
  case classDef | parallelStmt | gpuStmt | tensorDecl =>
    obtain _ | ⟨args, _ | ⟨body, ⟨⟩⟩⟩ := h
    exact (made_optionalArgumentWords args).bind fun _ => body.one.bind fun _ => .pure _
  case matchStmt =>
    obtain _ | ⟨subject, _ | ⟨cases', ⟨⟩⟩⟩ := h
    exact subject.one.bind fun _ => (made_clauseWords cases' _ fun _ => id).bind fun _ => .pure _
  case comprehension =>
    obtain _ | ⟨element, _ | ⟨clauses, ⟨⟩⟩⟩ := h
    exact element.one.bind fun _ => (made_clauseWords clauses _ fun _ => id).bind fun _ => .pure _
  case tryStmt =>
    obtain _ | ⟨body, _ | ⟨handlers, _ | ⟨last, ⟨⟩⟩⟩⟩ := h
    exact body.one.bind fun _ => (made_clauseWords handlers _ fun _ => id).bind fun _ =>
      (last.optional fun _ made => made.bind fun _ => .pure _).bind fun _ => .pure _
  case ifStmt =>
    obtain _ | ⟨condition, _ | ⟨body, _ | ⟨orelse, ⟨⟩⟩⟩⟩ := h
    exact (made_armWords condition body orelse).bind fun _ => .pure _
  case call =>
    obtain _ | ⟨callee, _ | ⟨args, ⟨⟩⟩⟩ := h
    exact (Printed.made_operand callee.one _).bind fun _ =>
      (made_argumentWords args).bind fun _ => .pure _
  case binaryOp =>
    obtain _ | ⟨left, _ | ⟨right, ⟨⟩⟩⟩ := h
    exact (Printed.made_operand left.one _).bind fun _ =>
      (Printed.made_operand right.one _).bind fun _ => .pure _
  case conditional =>
    obtain _ | ⟨condition, _ | ⟨consequent, _ | ⟨alternative, ⟨⟩⟩⟩⟩ := h
    exact (Printed.made_operand condition.one _).bind fun _ => consequent.one.bind fun _ =>
      (Printed.made_operand alternative.one _).bind fun _ => .pure _
  case loopStmt target =>
    cases target with
    | some x =>
      obtain _ | ⟨header, _ | ⟨body, ⟨⟩⟩⟩ := h
      exact header.one.bind fun _ => body.one.bind fun _ => .pure _
    | none =>
      obtain _ | ⟨⟨header, ready⟩, _ | ⟨body, ⟨⟩⟩⟩ := h
      cases header with
      | absent => exact body.one.bind fun _ => .pure _
      | present => exact (ready _ List.mem_cons_self).bind fun _ => body.one.bind fun _ => .pure _
  case macroRule isTransform =>
    cases isTransform <;>
    · obtain _ | ⟨pattern, _ | ⟨template, ⟨⟩⟩⟩ := h
      exact pattern.one.bind fun _ => template.one.bind fun _ => .pure _
  case macroDef =>
    obtain _ | ⟨rules, _ | ⟨⟨template, ready⟩, ⟨⟩⟩⟩ := h
    cases template with
    | absent =>
      unfold wordsWith
      exact (rules.many fun _ => id).bind fun _ => (Made.pure _).bind fun _ => .pure _
    | present => exact (ready _ List.mem_cons_self).bind fun _ => .pure _

theorem words_printWith (whole : head.isArm = false) :
    (printWith head slots).words = wordsWith head slots := by
  unfold printWith
  split
  · rfl
  · cases whole
  · cases whole
  · cases whole
  · rfl

theorem made_clausePart (h : List.Forall₂ (fun f s => Slot.Ready f s) head.sorts slots)
    (arm : head.isArm = true) : Made (printWith head slots).clause := by
  cases head
  case exceptClause | caseClause =>
    obtain _ | ⟨pattern, _ | ⟨body, ⟨⟩⟩⟩ := h
    exact pattern.one.bind fun _ => body.one.bind fun _ => .pure _
  case comprehensionClause =>
    obtain _ | ⟨iterable, _ | ⟨conditions, ⟨⟩⟩⟩ := h
    exact iterable.one.bind fun _ =>
      ((conditions.many fun _ => id).bind fun _ => .pure _).bind fun _ => .pure _
  all_goals cases arm

theorem made_alternative (h : List.Forall₂ (fun f s => Slot.Ready f s) head.sorts slots)
    (admits : Category.alternative.admits head = true) :
    Made (printWith head slots).alternative := by
  cases head
  case block => exact (made_wordsWith h rfl).bind fun _ => .pure _
  case ifStmt =>
    obtain _ | ⟨condition, _ | ⟨body, _ | ⟨orelse, ⟨⟩⟩⟩⟩ := h
    exact (made_armWords condition body orelse).bind fun _ => .pure _
  all_goals cases admits

/-- A node whose children are printed is printed as its parent asks. -/
theorem made_printWith (h : List.Forall₂ (fun f s => Slot.Ready f s) head.sorts slots)
    {c : Category} (admits : c.admits head = true) : Made (c.wordsOf (printWith head slots)) := by
  have words (whole : head.isArm = false) : Made (printWith head slots).words := by
    rw [words_printWith whole]
    exact made_wordsWith h whole
  cases c with
  | alternative => exact made_alternative h admits
  | handler | case | clause =>
    exact made_clausePart h (by cases head <;> first | rfl | cases admits)
  | _ => exact words (by cases head <;> first | rfl | cases admits)

/-- A sorted tree is printed as the category asks where it may stand. -/
theorem made_printed {n : Node} {c : Category} (h : n.OfSort c) : Made (c.wordsOf n.printed) := by
  induction n using induction_on generalizing c with
  | step span head slots ih =>
    rw [printed_mk]
    refine made_printWith ?_ h.admitted
    rw [List.forall₂_map_right_iff]
    refine (forall₂_imp_of_mem (sorted_mk.mp h.sorted).flip fun s hs f field => ?_).flip
    refine ⟨field.fits.map _, fun p hp => ?_⟩
    obtain ⟨n, hn, rfl⟩ := List.mem_map.mp (s.toList_map printed ▸ hp)
    exact ih s hs n hn (field.children n hn)

theorem made_source {n : Node} (h : Made n.words) : Made n.source := by
  obtain ⟨ws, hw⟩ := h
  exact ⟨spaced ws, by rw [source, hw]; rfl⟩

/-- The text of a sorted expression. -/
theorem OfSort.source {n : Node} (h : n.OfSort .expression) : Made n.source :=
  made_source (made_printed h)

/-- The text of a sorted program. -/
theorem made_program {span : Span} {injected : List String} {slots : List (Slot Node)}
    (h : (mk span (.program injected) slots).Sorted) :
    Made (mk span (.program injected) slots).source := by
  obtain _ | ⟨statements, ⟨⟩⟩ := sorted_mk.mp h
  obtain ⟨ns, rfl, hns⟩ := statements.many
  refine made_source ?_
  rw [words, printed_mk]
  refine (Made.mapM fun p hp => ?_).bind fun _ => .pure _
  obtain ⟨n, hn, rfl⟩ := List.mem_map.mp hp
  exact Printed.made_statement (made_printed (hns n hn))

end Node

end GlyphScript
