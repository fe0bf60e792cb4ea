import GlyphScript.Proofs.Parsing.Productions
import GlyphScript.Proofs.Token.Spelling

/-!
# Derivations

The grammar as a relation of words and trees. A phrase derives words if they can
be made by its alternatives and repetitions, whichever token a parser would look
at. Expressions are layered by how tightly they hold together, so every layer is
left-associative. Two things are known from the words around: which macros have
been defined so far, and that a statement made of an expression goes on as long
as `((` follows.
-/

namespace GlyphScript

/-! ## Trees without their places -/

namespace Node

theorem walk_unplaced (n : Node) : n.unplaced.walk = n.walk.map unplaced := by
  induction n using induction_on with
  | step span head slots ih =>
    rw [unplaced_mk, walk_mk, walk_mk, List.map_cons, unplaced_mk, List.flatMap_map,
      List.map_flatMap]
    congr 1
    refine List.flatMap_congr fun s hs => ?_
    rw [Slot.toList_map, List.flatMap_map, List.map_flatMap]
    exact List.flatMap_congr fun n hn => ih s hs n hn

theorem firstFlaw?_unplaced (seen : List String) (ns : List Node) :
    firstFlaw? seen (ns.map unplaced) = none ↔ firstFlaw? seen ns = none := by
  induction ns generalizing seen with
  | nil => rfl
  | cons n ns ih =>
    simp only [List.map_cons, firstFlaw?, head_unplaced]
    split
    · split
      · exact ih _
      · split
        · simp
        · exact ih _
    · split
      · exact ih _
      · simp

theorem patternFlaw?_unplaced (n : Node) :
    n.unplaced.patternFlaw? = none ↔ n.patternFlaw? = none := by
  rw [patternFlaw?, walk_unplaced, firstFlaw?_unplaced, patternFlaw?]

theorem nestSlots_unplaced {stop : Location} (places : List Location)
    (slots : List (Slot Node)) : (nestSlots stop places slots).map unplaced =
      nestSlots default (places.map fun _ => default) (slots.map (Slot.map unplaced)) := by
  induction places generalizing slots with
  | nil => cases slots <;> rfl
  | cons start places ih =>
    rcases slots with _ | ⟨condition, _ | ⟨body, slots⟩⟩
    · rfl
    · rfl
    · rw [List.map_cons, List.map_cons, List.map_cons, nestSlots, nestSlots, ← ih]
      simp [Slot.map]
      rfl

theorem ofArms_unplaced (span : Span) (places : List Location) (slots : List (Slot Node)) :
    (ofArms span places slots).unplaced =
      ofArms default (places.map fun _ => default) (slots.map (Slot.map unplaced)) := by
  rcases slots with _ | ⟨condition, _ | ⟨body, slots⟩⟩
  · simp [ofArms]
  · simp [ofArms]
  · simp [ofArms, nestSlots_unplaced]
    rfl

end Node

namespace Found

/-- What is found, put at one and the same place. -/
def unplaced (f : Found) : Found where
  attributes := f.attributes
  places := f.places.map fun _ => default
  slots := f.slots.map (Slot.map Node.unplaced)

@[simp] theorem unplaced_append (f h : Found) : (f ++ h).unplaced = f.unplaced ++ h.unplaced := by
  show Found.mk _ _ _ = Found.mk _ _ _
  simp only [append_places, append_slots, List.map_append]
  rfl

@[simp] theorem unplaced_nothing : nothing.unplaced = nothing := rfl

theorem unplaced_join (fs : List Found) : (join fs).unplaced = join (fs.map unplaced) := by
  induction fs with
  | nil => rfl
  | cons f fs ih => rw [join, List.foldr_cons, ← join, unplaced_append, ih]; rfl

theorem nodes_unplaced (f : Found) : f.unplaced.nodes = f.nodes.map Node.unplaced := by
  simp only [nodes, unplaced, List.flatMap_map, List.map_flatMap, Slot.toList_map]

theorem unplaced_listed (f : Found) : f.listed.unplaced = f.unplaced.listed := by
  show Found.mk _ _ [.many _] = Found.mk _ _ [.many _]
  rw [nodes_unplaced]
  rfl

@[simp] theorem unplaced_ofNode (n : Node) : (ofNode n).unplaced = ofNode n.unplaced := rfl

@[simp] theorem unplaced_ofNodes (ns : List Node) :
    (ofNodes ns).unplaced = ofNodes (ns.map Node.unplaced) := rfl

/-- A left operand and the tail behind it, put at one and the same place. -/
theorem unplaced_extended (known : String → Bool) (span : Span) (m : Level) (left : Node)
    (f : Found) : (Node.extended known span m left f).unplaced =
      Node.extended known default m left.unplaced f.unplaced := by
  unfold Node.extended
  split
  · simp [Slot.map, unplaced]
  · rw [Node.head_unplaced]
    split
    · split <;> simp [Slot.map, unplaced]
    · simp [Slot.map, unplaced]
  · simp [Slot.map, unplaced]

theorem ofNode_inj {n m : Node} (h : ofNode n = ofNode m) : n = m := by
  injection h with _ _ h
  injection h with h
  injection h

theorem ofNodes_inj {ns ms : List Node} (h : ofNodes ns = ofNodes ms) : ns = ms := by
  injection h with _ _ h
  injection h with h
  injection h

end Found

/-! ## Macros defined so far -/

/-- The names and phases of macros, the one defined last first. -/
abbrev Macros := List (String × Phase)

namespace Macros

/-- Whether a macro of that name is among them. -/
def defines (k : Macros) (x : String) : Bool := k.any (·.1 = x)

/-- The macros after a node is complete. -/
def after (k : Macros) (n : Node) : Macros :=
  match MacroDefinition.ofNode? n with
  | some d => (d.name, d.phase) :: k
  | none => k

/-- None of them is expanded while parsing. -/
def Later (k : Macros) : Prop := ∀ e ∈ k, e.2 ≠ .parse

end Macros

/-! ## The grammar -/

/-- The reserved token that words start with. -/
def leading (words : List Word) : Option Reserved := words.head?.bind fun w => w.1.reserved?

namespace Phrase

open Reserved

/-- How tightly an operand holds together that starts with a reserved token. -/
def operandLevel : Reserved → Level
  | negate | await => .unary
  | _ => .primary

end Phrase

/-- The words can be read as the phrase, in which `f` is found. The macros of `k` are defined in
front of the words, those of `k'` behind them. -/
inductive Derives (settings : Settings) :
    Phrase → (k : Macros) → List Word → (k' : Macros) → (f : Found) → Prop where
  | give {f k} : Derives settings (.give f) k [] k f.unplaced
  | place {k} : Derives settings .place k [] k (.ofPlace default)
  | mark {r k x} : Derives settings (.mark r) k [(.reserved r, x)] k .nothing
  | kept {r k x} : Derives settings (.kept r) k [(.reserved r, x)] k (.ofMark r)
  | spelled {r k x} : Derives settings (.spelled r) k [(.reserved r, x)] k (.ofText x)
  | name {what k x} : Derives settings (.name what) k [(.identifier, x)] k (.ofText x)
  | seq {a b k₁ k₂ k₃ us vs f h} : Derives settings a k₁ us k₂ f → Derives settings b k₂ vs k₃ h →
    Derives settings (.seq a b) k₁ (us ++ vs) k₃ (f ++ h)
  | left {r a b k k' us f} : Derives settings a k us k' f →
    Derives settings (.either r a b) k us k' f
  | right {r a b k k' us f} : Derives settings b k us k' f →
    Derives settings (.either r a b) k us k' f
  | bound {a b k k' us f} : Derives settings a k us k' f → Derives settings (.ahead a b) k us k' f
  | unbound {a b k k' us f} : Derives settings b k us k' f → Derives settings (.ahead a b) k us k' f
  | starNil {r a k} : Derives settings (.star r a) k [] k .nothing
  | starCons {r a k₁ k₂ k₃ us vs f h} : Derives settings a k₁ us k₂ f →
    Derives settings (.star r a) k₂ vs k₃ h → Derives settings (.star r a) k₁ (us ++ vs) k₃ (f ++ h)
  | gather {a k k' us f} : Derives settings a k us k' f →
    Derives settings (.gather a) k us k' f.gathered
  | list {a k k' us f} : Derives settings a k us k' f → Derives settings (.list a) k us k' f.listed
  | demand {a what k k' us f} : Derives settings a k us k' f → f.nodes ≠ [] →
    Derives settings (.demand a what) k us k' f
  | node {head a k k' us f} : Derives settings a k us k' f →
    Derives settings (.node head a) k us (k'.after (.mk default (head f.attributes) f.slots))
      (.ofNode (.mk default (head f.attributes) f.slots))
  | chain {a k k' us f} : Derives settings a k us k' f →
    Derives settings (.chain a) k us k' (.ofNode (Node.ofArms default f.places f.slots))
  | construct {c a k k' us f x y} : Derives settings a k us k' f →
    Derives settings (.construct c a) k
      ((.reserved c.opener, x) :: us ++ [(.reserved c.closer, y)]) k' f
  -- Expressions
  | atom {t n k} : Nonterminals.atom? t = some n →
    Derives settings (.part (.expression .primary)) k [t.word] k (.ofNode n.unplaced)
  | operand {r a k k' us f} : Phrase.operand? r = some a → Derives settings a k us k' f →
    Derives settings (.part (.expression (Phrase.operandLevel r))) k us k' f
  | tighter {l m k k' us f} : l.rank ≤ m.rank → Derives settings (.part (.expression m)) k us k' f →
    Derives settings (.part (.expression l)) k us k' f
  | tail {r m a k₁ k₂ k₃ us vs n f} : Phrase.tail? r = some (m, a) →
    Derives settings (.part (.expression m)) k₁ us k₂ (.ofNode n) → Derives settings a k₂ vs k₃ f →
    Derives settings (.part (.expression m)) k₁ (us ++ vs) k₃
      (.ofNode (Node.extended k₃.defines default m n f))
  -- Patterns
  | atomicPattern {t n k} : Nonterminals.atomicPattern? t = some n →
    Derives settings (.part .pattern) k [t.word] k (.ofNode n.unplaced)
  | compositePattern {r a k k' us f} : Phrase.pattern? r = some a → Derives settings a k us k' f →
    Derives settings (.part .pattern) k us k' f
  | binding {n k k' us} : Derives settings (.part .pattern) k us k' (.ofNode n) →
    n.patternFlaw? = none → Derives settings (.part .binding) k us k' (.ofNode n)
  -- Statements
  | body {ns k k' us x y} : Derives settings (.part .statements) k us k' (.ofNodes ns) →
    Derives settings (.part .body) k
      ((.reserved .bodyOpen, x) :: us ++ [(.reserved .bodyClose, y)]) k'
      (.ofNode (.block default ns []))
  | noStatement {k} : Derives settings (.part .statements) k [] k (.ofNodes [])
  | statement {r a k₁ k₂ k₃ us vs n ns} : Phrase.statement? settings r = some a →
    Derives settings a k₁ us k₂ (.ofNode n) →
    Derives settings (.part .statements) k₂ vs k₃ (.ofNodes ns) →
    Derives settings (.part .statements) k₁ (us ++ vs) k₃ (.ofNodes (n :: ns))
  | expressionStmt {k₁ k₂ k₃ us vs n ns} : Derives settings .expressionStmt k₁ us k₂ (.ofNode n) →
    Derives settings (.part .statements) k₂ vs k₃ (.ofNodes ns) → leading vs ≠ some .listOpen →
    Derives settings (.part .statements) k₁ (us ++ vs) k₃ (.ofNodes (n :: ns))

/-- The words are those of the program, wherever its nodes stand. -/
def Derivable (settings : Settings) (words : List Word) (program : Node) : Prop :=
  ∃ k ns, Derives settings (.part .statements) [] words k (.ofNodes ns) ∧
    program = .program default ns []

end GlyphScript
