import GlyphScript.Proofs.Parsing.Steps
import GlyphScript.Proofs.Tree

/-!
# Phrases

The productions of the grammar as data. A phrase says what is read and what is
found in it, and reading a phrase is a parser; the productions of the parser
are phrases, so what is proved of reading phrases is proved of all of them.
-/

namespace GlyphScript

/-! ## What is found -/

/-- The words and marks found in a phrase. -/
structure Attributes where
  texts : List String := []
  lists : List (List String) := []
  marks : List Reserved := []
  deriving DecidableEq, Repr

namespace Attributes

def name (a : Attributes) : String := a.texts.headD ""

def names (a : Attributes) : List String := a.lists.headD []

end Attributes

/-- What is found in a phrase: its words and marks, where its arms start, and slots. -/
structure Found where
  attributes : Attributes := {}
  places : List Location := []
  slots : List (Slot Node) := []

namespace Found

def nothing : Found := {}

def ofText (s : String) : Found := { attributes := { texts := [s] } }

def ofMark (r : Reserved) : Found := { attributes := { marks := [r] } }

def ofPlace (l : Location) : Found := { places := [l] }

def ofNode (n : Node) : Found := { slots := [.one n] }

def ofNodes (ns : List Node) : Found := { slots := [.many ns] }

def ofOption (o : Option Node) : Found := { slots := [.ofOption o] }

instance : Append Found where
  append f h :=
    { attributes :=
        { texts := f.attributes.texts ++ h.attributes.texts
          lists := f.attributes.lists ++ h.attributes.lists
          marks := f.attributes.marks ++ h.attributes.marks }
      places := f.places ++ h.places
      slots := f.slots ++ h.slots }

def join (fs : List Found) : Found := fs.foldr (· ++ ·) nothing

/-- All nodes in the slots. -/
def nodes (f : Found) : List Node := f.slots.flatMap Slot.toList

/-- The words found as one list. -/
def gathered (f : Found) : Found :=
  { f with attributes := { f.attributes with texts := [], lists := [f.attributes.texts] } }

/-- The nodes found as one slot. -/
def listed (f : Found) : Found := { f with slots := [.many f.nodes] }

@[simp] theorem append_texts (f h : Found) :
    (f ++ h).attributes.texts = f.attributes.texts ++ h.attributes.texts := rfl

@[simp] theorem append_lists (f h : Found) :
    (f ++ h).attributes.lists = f.attributes.lists ++ h.attributes.lists := rfl

@[simp] theorem append_marks (f h : Found) :
    (f ++ h).attributes.marks = f.attributes.marks ++ h.attributes.marks := rfl

@[simp] theorem append_places (f h : Found) : (f ++ h).places = f.places ++ h.places := rfl

@[simp] theorem append_slots (f h : Found) : (f ++ h).slots = f.slots ++ h.slots := rfl

@[simp] theorem nothing_append (f : Found) : nothing ++ f = f := rfl

@[simp] theorem append_nothing (f : Found) : f ++ nothing = f := by
  obtain ⟨⟨texts, lists, marks⟩, places, slots⟩ := f
  show Found.mk ⟨texts ++ [], lists ++ [], marks ++ []⟩ (places ++ []) (slots ++ []) = _
  simp only [List.append_nil]

theorem append_assoc (f h k : Found) : f ++ h ++ k = f ++ (h ++ k) := by
  show Found.mk ⟨_, _, _⟩ _ _ = Found.mk ⟨_, _, _⟩ _ _
  simp only [append_texts, append_lists, append_marks, append_places, append_slots,
    List.append_assoc]

theorem mem_nodes {f : Found} {n : Node} : n ∈ f.nodes ↔ ∃ s ∈ f.slots, n ∈ s.toList :=
  List.mem_flatMap

theorem nodes_append (f h : Found) : (f ++ h).nodes = f.nodes ++ h.nodes :=
  List.flatMap_append

theorem nodes_join (fs : List Found) : (join fs).nodes = fs.flatMap nodes := by
  induction fs with
  | nil => rfl
  | cons f fs ih => rw [join, List.foldr_cons, ← join, nodes_append, ih, List.flatMap_cons]

theorem nodes_listed (f : Found) : f.listed.nodes = f.nodes := by
  simp [listed, nodes, Slot.toList]

end Found

/-! ## Phrases -/

/-- The parts of the language that are defined by each other. -/
inductive Nonterminal where
  /-- An expression that holds together at least as tightly as the level. -/
  | expression (l : Level)
  | pattern
  /-- A pattern that binds each name once. -/
  | binding
  | body
  | statement
  | statements
  deriving DecidableEq, Repr

inductive Phrase where
  /-- Nothing, in which something is found all the same. -/
  | give (f : Found)
  /-- Where the next token stands. -/
  | place
  | mark (r : Reserved)
  /-- A reserved token that is to be remembered. -/
  | kept (r : Reserved)
  /-- A reserved token whose spelling is wanted. -/
  | spelled (r : Reserved)
  | name (what : String)
  | part (n : Nonterminal)
  | fail (what : String)
  | seq (a b : Phrase)
  /-- The one phrase starts with `r`, the other does not. -/
  | either (r : Reserved) (a b : Phrase)
  /-- The one phrase starts with a name and an arrow, the other does not. -/
  | ahead (a b : Phrase)
  /-- Any number of phrases that start with `r`. -/
  | star (r : Reserved) (a : Phrase)
  | gather (a : Phrase)
  | list (a : Phrase)
  /-- Some node has to be found. -/
  | demand (a : Phrase) (what : String)
  | node (head : Attributes → Head) (a : Phrase)
  /-- The arms of a conditional as one node. -/
  | chain (a : Phrase)
  | construct (c : Construct) (a : Phrase)

namespace Node

/-- Further arms of a conditional, which are the slots but the last. -/
def nestSlots (stop : Location) : List Location → List (Slot Node) → Slot Node
  | start :: starts, condition :: body :: slots =>
    .one (mk ⟨start, stop⟩ .ifStmt [condition, body, nestSlots stop starts slots])
  | _, slots => slots.headD .absent

/-- A conditional with the places of its further arms. -/
def ofArms (span : Span) (places : List Location) : List (Slot Node) → Node
  | condition :: body :: slots =>
    mk span .ifStmt [condition, body, nestSlots span.stop places slots]
  | slots => mk span .ifStmt slots

/-- A left operand with the tail found behind it. A call whose callee is the name of a macro is
a macro call. -/
def extended (known : String → Bool) (span : Span) (m : Level) (left : Node) (f : Found) : Node :=
  match m with
  | .conditional => mk span .conditional (.one left :: f.slots)
  | .postfixed =>
    match left.head with
    | .identifier x =>
      if known x then mk span (.macroCall x false) f.slots
      else mk span .call (.one left :: f.slots)
    | _ => mk span .call (.one left :: f.slots)
  | _ => mk span (.binaryOp f.attributes.name) (.one left :: f.slots)

end Node

/-! ## Reading -/

namespace Parser

/-- What is done when a node is complete: a macro is registered, a call that is to be expanded
when its statement is complete is counted. -/
def announce (n : Node) : Parser Unit :=
  match n.head with
  | .macroDef .. =>
    match MacroDefinition.ofNode? n with
    | some d => ofWork (Work.register d)
    | none => return ()
  | .macroCall name false => do
    if isExpandedHere (← get).unit.registry name then
      modify fun s => { s with pending := s.pending + 1 }
  | _ => return ()

theorem announce_macroCall (span : Span) (x : String) (slots : List (Slot Node))
    (s : ParserState) : announce (.mk span (.macroCall x false) slots) s =
      (.ok (), if isExpandedHere s.unit.registry x then { s with pending := s.pending + 1 }
        else s) := by
  show ((get >>= fun s : ParserState => if isExpandedHere s.unit.registry x then
    modify fun s => { s with pending := s.pending + 1 } else pure ()) : Parser Unit) s = _
  rw [run_bind, run_get]
  dsimp only
  split <;> rfl

/-- Where a tail that starts with `start` ends. -/
def tailStop (m : Level) (start : Token) (f : Found) : Parser Location :=
  if m = .postfixed then Span.stop <$> spanFrom start
  else return (f.nodes.getLast?.map (·.span.stop)).getD start.stopOrStart

/-- Puts a left operand and the tail behind it together. -/
def extend (m : Level) (left : Node) (start : Token) (f : Found) : Parser Node := do
  let stop ← tailStop m start f
  let registry := (← get).unit.registry
  let n := Node.extended registry.contains ⟨left.span.start, stop⟩ m left f
  announce n
  return n

/-- Whether a name and an arrow follow. -/
def checkBinding : Parser Bool := do
  match (← get).rest with
  | name :: mark :: _ => return name.kind = .identifier && mark.isReserved .bindArrow
  | _ => return false

section

variable {α : Type}

theorem checkBinding_run (s : ParserState) :
    checkBinding s = (.ok (match s.rest with
      | name :: mark :: _ => name.kind = .identifier && mark.isReserved .bindArrow
      | _ => false), s) := by
  obtain ⟨unit, previous, rest, endLocation, frames, scopes, pending⟩ := s
  rcases rest with _ | ⟨name, _ | ⟨mark, rest⟩⟩ <;> rfl

/-- Whether or not a name and an arrow follow, looking at the tokens is as good as reading
them. -/
theorem checkBinding_bind (what : String) (f : Option String → Parser α) :
    (checkBinding >>= fun c =>
      if c then consumeName what >>= fun x => consume .bindArrow >>= fun _ => f (some x)
      else f none) =
    get >>= fun s => match s.rest with
      | name :: mark :: _ =>
        if name.kind = .identifier && mark.isReserved .bindArrow then
          discard advance >>= fun _ => discard advance >>= fun _ => f (some name.lexeme)
        else f none
      | _ => f none := by
  funext s
  rw [run_bind, run_bind, checkBinding_run, run_get]
  dsimp only
  rcases h : s.rest with _ | ⟨name, _ | ⟨mark, rest⟩⟩
  · simp
  · simp
  have hn : s.next = name := by simp [ParserState.next, h]
  have hm : (passed s).next = mark := by simp [ParserState.next, passed, h]
  by_cases hc : name.kind = .identifier ∧ mark.isReserved .bindArrow
  · obtain ⟨kind, arrow⟩ := hc
    have first : s.next.isEnd = false := hn ▸ isEnd_of_identifier kind
    have second : (passed s).next.isEnd = false := hm ▸ isEnd_of_isReserved arrow
    simp [kind, arrow, run_bind, consumeName_run, consume_run, hn, hm, discard_advance_run first,
      discard_advance_run second]
  · have hc : (decide (name.kind = .identifier) && mark.isReserved .bindArrow) = false := by
      simpa using hc
    simp [hc]

end

end Parser

open GlyphScript.Parser

namespace Nonterminal

def read (g : Nonterminals) : Nonterminal → Parser Found
  | expression l => Found.ofNode <$> g.expression l
  | pattern => Found.ofNode <$> g.pattern
  | binding => Found.ofNode <$> g.wellFormedPattern
  | body => Found.ofNode <$> g.body
  | statement => Found.ofNodes <$> g.statement
  | statements => (fun nss => Found.ofNodes nss.flatten) <$>
    repeatWhile (not <$> Nonterminals.atBodyEnd) g.statement

end Nonterminal

namespace Phrase

@[grind =]
def read (g : Nonterminals) : Phrase → Parser Found
  | give f => return f
  | place => return .ofPlace (← peek).location
  | mark r => do
    discard (consume r)
    return .nothing
  | kept r => do
    discard (consume r)
    return .ofMark r
  | spelled r => return .ofText (← consume r).lexeme
  | name what => return .ofText (← consumeName what)
  | part n => n.read g
  | fail what => failExpecting (.phrase what)
  | seq a b => do
    let f ← a.read g
    return f ++ (← b.read g)
  | either r a b => do if ← check r then a.read g else b.read g
  | ahead a b => do if ← checkBinding then a.read g else b.read g
  | star r a => Found.join <$> repeatWhile (check r) (a.read g)
  | gather a => Found.gathered <$> a.read g
  | list a => Found.listed <$> a.read g
  | demand a what => do
    let f ← a.read g
    if f.nodes.isEmpty then failExpecting (.phrase what)
    return f
  | node head a => do
    let start ← peek
    let f ← a.read g
    let n := Node.mk (← spanFrom start) (head f.attributes) f.slots
    announce n
    return .ofNode n
  | chain a => do
    let start ← peek
    let f ← a.read g
    return .ofNode (Node.ofArms (← spanFrom start) f.places f.slots)
  | construct c a => do
    discard (openConstruct c)
    let f ← a.read g
    closeConstruct
    return f

section

variable {α : Type} (g : Nonterminals) (r : Reserved) (a b : Phrase) (k : Found → Parser α)

/-! What follows a phrase goes on with what was found in it. -/

theorem give_bind (f : Found) : ((give f).read g >>= k) = k f := pure_bind f k

theorem mark_bind : ((mark r).read g >>= k) = consume r >>= fun _ => k .nothing := by
  simp only [read, discard_bind, bind_assoc, pure_bind]

theorem kept_bind : ((kept r).read g >>= k) = consume r >>= fun _ => k (.ofMark r) := by
  simp only [read, discard_bind, bind_assoc, pure_bind]

theorem spelled_bind :
    ((spelled r).read g >>= k) = consume r >>= fun t => k (.ofText t.lexeme) := by
  simp only [read, bind_assoc, pure_bind]

theorem name_bind (what : String) :
    ((name what).read g >>= k) = consumeName what >>= fun x => k (.ofText x) := by
  simp only [read, bind_assoc, pure_bind]

theorem place_bind : (place.read g >>= k) = peek >>= fun t => k (.ofPlace t.location) := by
  simp only [read, bind_assoc, pure_bind]

theorem seq_bind :
    ((seq a b).read g >>= k) = a.read g >>= fun f => b.read g >>= fun h => k (f ++ h) := by
  simp only [read, bind_assoc, pure_bind]

theorem either_bind : ((either r a b).read g >>= k) =
    check r >>= fun c => if c then a.read g >>= k else b.read g >>= k := by
  simp only [read, bind_assoc]
  exact bind_congr fun c => by cases c <;> rfl

theorem construct_bind (c : Construct) : ((construct c a).read g >>= k) =
    openConstruct c >>= fun _ => a.read g >>= fun f => closeConstruct >>= fun _ => k f := by
  simp only [read, discard_bind, bind_assoc, pure_bind]

theorem read_node (head : Attributes → Head) : (node head a).read g =
    peek >>= fun start => a.read g >>= fun f => spanFrom start >>= fun span =>
      announce (.mk span (head f.attributes) f.slots) >>= fun _ =>
        pure (.ofNode (.mk span (head f.attributes) f.slots)) := rfl

theorem read_chain : (chain a).read g =
    peek >>= fun start => a.read g >>= fun f => spanFrom start >>= fun span =>
      pure (.ofNode (Node.ofArms span f.places f.slots)) := rfl

end

end Phrase

end GlyphScript
