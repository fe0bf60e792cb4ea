import GlyphScript.Proofs.Tree

/-!
# Shapes of trees

Which slots a node has and what may stand in them, for every head. A tree is
shaped if every node has the slots of its head.
-/

namespace GlyphScript

/-- How many children a slot takes. -/
inductive Arity where
  | one
  | optional
  | many
  deriving DecidableEq, Repr

/-- What the grammar allows at a place. -/
inductive Category where
  | statement
  | expression
  | pattern
  | block
  /-- What a quote holds: a block or an expression. -/
  | quoted
  /-- What follows the body of a conditional: a block or a further conditional. -/
  | alternative
  | handler
  | case
  | clause
  | rule
  | template
  deriving DecidableEq, Repr

namespace Head

/-- The slots of a node, in order. -/
def fields : Head → List (Arity × Category)
  | .program _ | .block _ => [(.many, .statement)]
  | .blockStmt | .functionDef .. | .asyncFunctionDef .. | .neuralNet _ => [(.one, .block)]
  | .assignment _ | .expressionStmt | .lambda _ | .awaitExpr | .unaryOp _ | .unquote =>
    [(.one, .expression)]
  | .returnStmt | .yieldStmt => [(.optional, .expression)]
  | .memoryStmt _ | .tupleLiteral | .tensorLiteral | .macroCall .. => [(.many, .expression)]
  | .deviceStmt | .streamStmt => [(.one, .expression), (.one, .block)]
  | .tryStmt => [(.one, .block), (.many, .handler), (.optional, .block)]
  | .matchStmt => [(.one, .expression), (.many, .case)]
  | .classDef _ | .parallelStmt | .gpuStmt | .tensorDecl _ =>
    [(.many, .expression), (.one, .block)]
  | .ifStmt => [(.one, .expression), (.one, .block), (.optional, .alternative)]
  | .loopStmt _ => [(.optional, .expression), (.one, .block)]
  | .macroDef .. => [(.many, .rule), (.optional, .template)]
  | .macroRule true => [(.one, .pattern), (.one, .block)]
  | .macroRule false => [(.one, .pattern), (.one, .expression)]
  | .exceptClause | .caseClause => [(.one, .pattern), (.one, .block)]
  | .comprehensionClause _ | .call => [(.one, .expression), (.many, .expression)]
  | .comprehension => [(.one, .expression), (.many, .clause)]
  | .binaryOp _ => [(.one, .expression), (.one, .expression)]
  | .conditional => [(.one, .expression), (.one, .expression), (.one, .expression)]
  | .quote => [(.one, .quoted)]
  | .tuplePattern | .tensorShapePattern | .graphPattern | .streamPattern => [(.many, .pattern)]
  | .importDecl .. | .breakStmt | .continueStmt | .literal .. | .identifier _
  | .literalPattern .. | .bindPattern _ => []

end Head

/-- A slot that takes as many children as it may hold. -/
inductive Arity.Fits {α : Type} : Arity → Slot α → Prop where
  | one {a} : Fits .one (.one a)
  | absent : Fits .optional .absent
  | present {a} : Fits .optional (.one a)
  | many {as} : Fits .many (.many as)

instance {α : Type} : (a : Arity) → (s : Slot α) → Decidable (a.Fits s)
  | .one, .one _ => isTrue .one
  | .one, .absent | .one, .many _ => isFalse fun h => nomatch h
  | .optional, .absent => isTrue .absent
  | .optional, .one _ => isTrue .present
  | .optional, .many _ => isFalse fun h => nomatch h
  | .many, .many _ => isTrue .many
  | .many, .absent | .many, .one _ => isFalse fun h => nomatch h

theorem Arity.Fits.of_rel {α β : Type} {R : α → β → Prop} {a : Arity} {s : Slot α} {t : Slot β}
    (h : a.Fits s) (r : s.Rel R t) : a.Fits t := by
  cases r <;> cases h <;> constructor

namespace Node

/-- The node has the slots of its head. -/
def HasFields (n : Node) : Prop := List.Forall₂ (fun f s => f.1.Fits s) n.head.fields n.slots

theorem HasFields.of_rel {n n' : Node} {R : Node → Node → Prop} (h : n.HasFields)
    (head : n'.head.fields = n.head.fields) (slots : List.Forall₂ (Slot.Rel R) n.slots n'.slots) :
    n'.HasFields := by
  rw [HasFields, head]
  rw [HasFields] at h
  generalize n.head.fields = fields at h
  generalize n.slots = s, n'.slots = s' at h slots
  induction h generalizing s' with
  | nil => cases slots; exact .nil
  | cons fits _ ih =>
    cases slots with
    | cons r slots =>
      exact .cons (fits.of_rel r) (ih _ slots)

instance (n : Node) : Decidable n.HasFields :=
  inferInstanceAs (Decidable (List.Forall₂ _ _ _))

/-- Every node of the tree has the slots of its head. -/
def Shaped (n : Node) : Prop := ∀ m ∈ n.walk, m.HasFields

instance (n : Node) : Decidable n.Shaped := inferInstanceAs (Decidable (∀ m ∈ n.walk, m.HasFields))

theorem shaped_mk {span : Span} {head : Head} {slots : List (Slot Node)} :
    (mk span head slots).Shaped ↔
      (mk span head slots).HasFields ∧ ∀ s ∈ slots, ∀ n ∈ s.toList, n.Shaped := by
  simp only [Shaped, mem_walk_mk, forall_eq_or_imp, forall_exists_index, and_imp]
  exact and_congr_right fun _ =>
    ⟨fun h s hs n hn m hm => h m s hs n hn hm, fun h m s hs n hn hm => h s hs n hn m hm⟩

theorem Shaped.of_rel {span span' : Span} {head head' : Head} {slots slots' : List (Slot Node)}
    {R : Node → Node → Prop} (h : (mk span head slots).Shaped) (fields : head'.fields = head.fields)
    (rel : List.Forall₂ (Slot.Rel R) slots slots')
    (inner : ∀ n n', R n n' → n.Shaped → n'.Shaped) : (mk span' head' slots').Shaped := by
  obtain ⟨own, below⟩ := shaped_mk.mp h
  refine shaped_mk.mpr ⟨own.of_rel fields rel, fun s' hs' n' hn' => ?_⟩
  obtain ⟨s, hs, n, hn, r⟩ := Slot.exists_of_mem_rel rel hs' hn'
  exact inner n n' r (below s hs n hn)

theorem Shaped.of_mem_walk {n m : Node} (h : n.Shaped) (hm : m ∈ n.walk) : m.Shaped :=
  fun k hk => h k (mem_walk_trans hm hk)

theorem HasFields.identifier {span : Span} {name : String} {slots : List (Slot Node)}
    (h : (mk span (.identifier name) slots).HasFields) : slots = [] := by
  cases h; rfl

theorem HasFields.unquote {span : Span} {slots : List (Slot Node)}
    (h : (mk span .unquote slots).HasFields) : ∃ e, slots = [.one e] := by
  rcases h with _ | ⟨⟨⟩, ⟨⟩⟩
  exact ⟨_, rfl⟩

end Node

end GlyphScript
