import GlyphScript.Proofs.Fidelity.Outline

/-!
# What productions say

The meanings of the words that a phrase is read from, as far as they cannot be
left out, with what is found in it. A production is read from what its node
says, up to lists that may be left out, and its node is well formed.
-/

namespace GlyphScript

open Reserved

/-! ## Upright trees -/

namespace Node

/-- The tree is well formed and may stand where the category is asked for. -/
structure Upright (c : Category) (n : Node) : Prop where
  wellFormed : ∀ m ∈ n.walk, m.WellFormedAt
  admitted : c.admits n.head = true

end Node

/-- What may fill the slot of an upright tree. -/
structure Slot.Upright (f : Arity × Category) (s : Slot Node) : Prop where
  fits : f.1.Fits s
  children : ∀ n ∈ s.toList, n.Upright f.2

namespace Slot.Upright

variable {c : Category} {n : Node} {ns : List Node}

theorem one (h : n.Upright c) : (Slot.one n).Upright (.one, c) :=
  ⟨.one, List.forall_mem_singleton.mpr h⟩

theorem present (h : n.Upright c) : (Slot.one n).Upright (.optional, c) :=
  ⟨.present, List.forall_mem_singleton.mpr h⟩

theorem absent : (Slot.absent : Slot Node).Upright (.optional, c) :=
  ⟨.absent, List.forall_mem_nil _⟩

theorem many (h : ∀ n ∈ ns, n.Upright c) : (Slot.many ns).Upright (.many, c) := ⟨.many, h⟩

end Slot.Upright

namespace Node

variable {c : Category} {head : Head} {slots : List (Slot Node)}

section

variable (fields : List.Forall₂ (fun f s => Slot.Upright f s) head.fields slots)
  (names : ∀ x ∈ head.names, lexesAsIdentifier x = true) (spelled : head.isSpelled = true)
  (complete : isComplete head slots = true)

include fields names spelled complete

theorem wellFormed_mk {span : Span} : ∀ m ∈ (mk span head slots).walk, m.WellFormedAt := by
  intro m hm
  rcases mem_walk_mk.mp hm with rfl | ⟨s, hs, n, hn, hm⟩
  · exact ⟨fields.imp fun f s h => ⟨h.fits, fun n hn => (h.children n hn).admitted⟩, names, spelled,
      complete⟩
  · obtain ⟨f, -, h⟩ := exists_of_mem_right fields hs
    exact (h.children n hn).wellFormed m hm

theorem upright_mk (admits : c.admits head = true) {span : Span} : (mk span head slots).Upright c :=
  ⟨wellFormed_mk fields names spelled complete, admits⟩

end

theorem Upright.admits {c' : Category} {n : Node} (h : n.Upright c) (hc : c'.admits n.head = true) :
    n.Upright c' :=
  ⟨h.wellFormed, hc⟩

end Node

/-! ## Phrases -/

/-- What a reserved token says. -/
def Reserved.saying (r : Reserved) : List Meaning :=
  if (TokenKind.reserved r).isDispensable then [] else [r]

/-- What is found in a nonterminal and said by its words. -/
def Nonterminal.Bears : Nonterminal → List Meaning → Found → Prop
  | expression _, ms, f => ∃ n, f = .ofNode n ∧ n.Upright .expression ∧ ms = n.outline
  | pattern, ms, f => ∃ n, f = .ofNode n ∧ n.Upright .pattern ∧ ms = n.outline
  | binding, ms, f =>
    ∃ n, f = .ofNode n ∧ n.Upright .pattern ∧ n.patternFlaw? = none ∧ ms = n.outline
  | body, ms, f => ∃ n, f = .ofNode n ∧ n.Upright .block ∧ ms = n.outline ∧
    ∃ rest, n.outline = Meaning.mark bodyOpen :: rest
  | statements, ms, f =>
    ∃ ns, f = .ofNodes ns ∧ (∀ n ∈ ns, n.Upright .statement) ∧ ms = ns.flatMap Node.outline
  | statement, _, _ => False

namespace Phrase

/-- What is found in a phrase and said by its words, if its parts are as they should be. No macro
of the parse phase is found. -/
def Bears : Phrase → List Meaning → Found → Prop
  | give g, ms, f => ms = [] ∧ f = g.unplaced
  | place, ms, f => ms = [] ∧ f = .ofPlace default
  | mark r, ms, f => ms = r.saying ∧ f = .nothing
  | kept r, ms, f => ms = r.saying ∧ f = .ofMark r
  | spelled r, ms, f => ms = r.saying ∧ f = .ofText r.spelling
  | name _, ms, f => ∃ x, lexesAsIdentifier x = true ∧ ms = [.name x] ∧ f = .ofText x
  | part n, ms, f => n.Bears ms f
  | fail _, _, _ => False
  | seq a b, ms, f => ∃ us vs g h, ms = us ++ vs ∧ a.Bears us g ∧ b.Bears vs h ∧ f = g ++ h
  | either _ a b, ms, f | ahead a b, ms, f => a.Bears ms f ∨ b.Bears ms f
  | star _ a, ms, f => ∃ parts : List (List Meaning × Found),
    ms = parts.flatMap (·.1) ∧ (∀ p ∈ parts, a.Bears p.1 p.2) ∧ f = .join (parts.map (·.2))
  | gather a, ms, f => ∃ g, a.Bears ms g ∧ f = g.gathered
  | list a, ms, f => ∃ g, a.Bears ms g ∧ f = g.listed
  | demand a _, ms, f => a.Bears ms f ∧ f.nodes ≠ []
  | node head a, ms, f => ∃ g, a.Bears ms g ∧
    (∀ d, MacroDefinition.ofNode? (.mk default (head g.attributes) g.slots) = some d →
      d.phase ≠ .parse) ∧ f = .ofNode (.mk default (head g.attributes) g.slots)
  | chain a, ms, f => ∃ g, a.Bears ms g ∧ f = .ofNode (Node.ofArms default g.places g.slots)
  | construct c a, ms, f =>
    ∃ us, ms = Meaning.mark c.opener :: us ++ [Meaning.mark c.closer] ∧ a.Bears us f

/-! ## Repetitions -/

section

variable {α : Type} {P : α → Prop} {print : α → List Meaning} {found : α → Found} {a : Phrase}
  {r closer : Reserved} {ms : List Meaning} {f : Found}

/-- A repetition of the same, if each time one of many things is found. -/
theorem Bears.star (each : ∀ ms f, a.Bears ms f → ∃ x, P x ∧ ms = print x ∧ f = found x)
    (h : (star r a).Bears ms f) :
    ∃ xs : List α, (∀ x ∈ xs, P x) ∧ ms = xs.flatMap print ∧ f = .join (xs.map found) := by
  obtain ⟨parts, rfl, made, rfl⟩ := h
  induction parts with
  | nil => exact ⟨[], List.forall_mem_nil _, rfl, rfl⟩
  | cons p parts ih =>
    obtain ⟨here, below⟩ := List.forall_mem_cons.mp made
    obtain ⟨x, hx, first, firstFound⟩ := each _ _ here
    obtain ⟨xs, hxs, rest, restFound⟩ := ih below
    refine ⟨x :: xs, List.forall_mem_cons.mpr ⟨hx, hxs⟩, ?_, ?_⟩
    · rw [List.flatMap_cons, List.flatMap_cons, first, rest]
    · rw [List.map_cons, List.map_cons, Found.join, List.foldr_cons, ← Found.join, firstFound,
        restFound]
      rfl

theorem intercalate_cons_flatMap (separator : Meaning) (x : α) (xs : List α) :
    List.intercalate [separator] ((x :: xs).map print) =
      print x ++ xs.flatMap fun x => separator :: print x := by
  induction xs generalizing x with
  | nil => simp [List.intercalate]
  | cons y xs ih =>
    have ih := ih y
    simp only [List.map_cons] at ih ⊢
    rw [List.intercalate, List.intersperse_cons_cons, List.flatten_cons, List.flatten_cons,
      ← List.intercalate, ih]
    simp

/-- Items with separators between them. -/
theorem Bears.items (each : ∀ ms f, a.Bears ms f → ∃ x, P x ∧ ms = print x ∧ f = found x)
    (h : (items closer a).Bears ms f) : ∃ xs : List α, (∀ x ∈ xs, P x) ∧
      ms = List.intercalate [Meaning.mark separator] (xs.map print) ++ closer.saying ∧
        f = .join (xs.map found) := by
  rcases h with ⟨rfl, rfl⟩ | ⟨_, _, _, _, rfl, first, ⟨_, _, _, _, rfl, others, ⟨rfl, rfl⟩, rfl⟩, rfl⟩
  · exact ⟨[], List.forall_mem_nil _, rfl, rfl⟩
  obtain ⟨x, hx, rfl, rfl⟩ := each _ _ first
  have more : ∀ ms f, (seqs [mark separator, a]).Bears ms f →
      ∃ x, P x ∧ ms = Meaning.mark separator :: print x ∧ f = found x := by
    rintro _ _ ⟨_, _, _, _, rfl, ⟨rfl, rfl⟩, item, rfl⟩
    obtain ⟨x, hx, rfl, rfl⟩ := each _ _ item
    exact ⟨x, hx, rfl, rfl⟩
  obtain ⟨xs, hxs, rfl, rfl⟩ := Bears.star more others
  refine ⟨x :: xs, List.forall_mem_cons.mpr ⟨hx, hxs⟩, ?_, ?_⟩
  · rw [intercalate_cons_flatMap, List.append_assoc]
  · rw [Found.append_nothing]
    rfl

end

/-! ## Lists of nodes and names -/

section

variable {c : Category} {a : Phrase} {r closer : Reserved} {ms : List Meaning} {f : Found}

/-- The phrase is read as one node of the category, from what the node says. -/
def Tells (c : Category) (a : Phrase) : Prop :=
  ∀ ms f, a.Bears ms f → ∃ n : Node, n.Upright c ∧ ms = n.outline ∧ f = .ofNode n

theorem tells_expression : expression.Tells .expression := by
  rintro _ _ ⟨n, rfl, upright, rfl⟩
  exact ⟨n, upright, rfl, rfl⟩

theorem tells_pattern : (part .pattern).Tells .pattern := by
  rintro _ _ ⟨n, rfl, upright, rfl⟩
  exact ⟨n, upright, rfl, rfl⟩

theorem Bears.listItems (each : a.Tells c) (h : (list (Phrase.items closer a)).Bears ms f) :
    ∃ ns, (∀ n ∈ ns, Node.Upright c n) ∧
      ms = List.intercalate [Meaning.mark separator] (ns.map Node.outline) ++ closer.saying ∧
        f = .ofNodes ns := by
  obtain ⟨g, made, rfl⟩ := h
  obtain ⟨ns, upright, rfl, rfl⟩ := Bears.items each made
  exact ⟨ns, upright, rfl, listed_join_ofNode ns⟩

theorem Bears.manyOf (each : a.Tells c) (h : (Phrase.manyOf r a).Bears ms f) :
    ∃ ns, (∀ n ∈ ns, Node.Upright c n) ∧ ms = ns.flatMap Node.outline ∧ f = .ofNodes ns := by
  obtain ⟨g, made, rfl⟩ := h
  obtain ⟨ns, upright, rfl, rfl⟩ := Bears.star each made
  exact ⟨ns, upright, rfl, listed_join_ofNode ns⟩

theorem Bears.someOf (each : a.Tells c) (h : (Phrase.someOf r a).Bears ms f) :
    ∃ ns, (∀ n ∈ ns, Node.Upright c n) ∧ ns ≠ [] ∧ ms = ns.flatMap Node.outline ∧
      f = .ofNodes ns := by
  obtain ⟨_, ⟨_, _, _, _, rfl, first, others, rfl⟩, rfl⟩ := h
  obtain ⟨n, hn, rfl, rfl⟩ := each _ _ first
  obtain ⟨ns, hns, rfl, rfl⟩ := Bears.star each others
  refine ⟨n :: ns, List.forall_mem_cons.mpr ⟨hn, hns⟩, List.cons_ne_nil _ _, rfl, ?_⟩
  exact listed_join_ofNode (n :: ns)

theorem Bears.arguments (h : Phrase.arguments.Bears ms f) :
    ∃ ns, (∀ n ∈ ns, Node.Upright .expression n) ∧
      ms = listed listOpen listClose (ns.map Node.outline) ∧ f = .ofNodes ns := by
  obtain ⟨_, _, _, _, rfl, ⟨rfl, rfl⟩, args, rfl⟩ := h
  obtain ⟨ns, upright, rfl, rfl⟩ := args.listItems tells_expression
  refine ⟨ns, upright, ?_, rfl⟩
  simp [listed]
  rfl

/-- What a list says that may be left out. -/
theorem Bears.optionalArguments (h : Phrase.optionalArguments.Bears ms f) :
    ∃ ns, (∀ n ∈ ns, Node.Upright .expression n) ∧
      (ms = listed listOpen listClose (ns.map Node.outline) ∨ ms = [] ∧ ns = []) ∧
        f = .ofNodes ns := by
  obtain ⟨_, made | ⟨rfl, rfl⟩, rfl⟩ := h
  · obtain ⟨_, _, _, _, rfl, ⟨rfl, rfl⟩, args, rfl⟩ := made
    obtain ⟨ns, upright, rfl, found⟩ := Bears.listItems tells_expression ⟨_, args, rfl⟩
    refine ⟨ns, upright, .inl ?_, found⟩
    simp [listed]
    rfl
  · exact ⟨[], List.forall_mem_nil _, .inr ⟨rfl, rfl⟩, rfl⟩

theorem bears_name {what : String} (ms : List Meaning) (f : Found) (h : (name what).Bears ms f) :
    ∃ x, lexesAsIdentifier x = true ∧ ms = [.name x] ∧ f = .ofText x := h

theorem Bears.names {what : String} (h : (gather (Phrase.items closer (name what))).Bears ms f) :
    ∃ xs, (∀ x ∈ xs, lexesAsIdentifier x = true) ∧
      ms = List.intercalate [Meaning.mark separator] (xs.map ([.name ·])) ++ closer.saying ∧
        f = { attributes := { lists := [xs] } } := by
  obtain ⟨_, made, rfl⟩ := h
  obtain ⟨xs, named, rfl, rfl⟩ := Bears.items bears_name made
  exact ⟨xs, named, rfl, gathered_join_ofText xs⟩

theorem Bears.parameters (h : Phrase.parameters.Bears ms f) :
    ∃ xs, (∀ x ∈ xs, lexesAsIdentifier x = true) ∧ ms = Outline.parameters xs ∧
      f = { attributes := { lists := [xs] } } := by
  obtain ⟨_, _, _, _, rfl, ⟨rfl, rfl⟩, names, rfl⟩ := h
  obtain ⟨xs, named, rfl, rfl⟩ := Bears.names names
  refine ⟨xs, named, ?_, rfl⟩
  simp [Outline.parameters, listed]
  rfl

end

end Phrase

end GlyphScript
