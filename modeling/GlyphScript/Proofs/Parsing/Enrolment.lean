import GlyphScript.Proofs.Fidelity.Calls
import GlyphScript.Proofs.Inline.Reading
import GlyphScript.Proofs.Spans.Reading

/-!
# Registering what is read

As long as no macro is expanded while parsing, the macros that a parser
registers are those defined in what it reads, in the order in which their
definitions end.
-/

namespace GlyphScript

open GlyphScript.Parser

/-! ## Definitions in a tree -/

namespace Node

/-- The macros defined in a tree, in the order in which their definitions end. -/
def definitions (n : Node) : List MacroDefinition := n.finished.filterMap MacroDefinition.ofNode?

/-- The macros defined in what stands in slots. -/
def definitionsIn (slots : List (Slot Node)) : List MacroDefinition :=
  slots.flatMap fun s => s.toList.flatMap definitions

theorem definitions_mk (span : Span) (head : Head) (slots : List (Slot Node)) :
    (mk span head slots).definitions =
      definitionsIn slots ++ (MacroDefinition.ofNode? (mk span head slots)).toList := by
  unfold definitions definitionsIn
  rw [finished_mk, List.filterMap_append]
  congr 1
  simp only [List.filterMap_flatMap]
  rfl

theorem definitions_plain {span : Span} {head : Head} {slots : List (Slot Node)}
    (h : MacroDefinition.ofNode? (mk span head slots) = none) :
    (mk span head slots).definitions = definitionsIn slots := by
  simp [definitions_mk, h]

theorem nestSlots_definitions (stop : Location) (places : List Location) (slots : List (Slot Node))
    (h : slots.length = 2 * places.length + 1) :
    (nestSlots stop places slots).toList.flatMap definitions = definitionsIn slots := by
  induction places generalizing slots with
  | nil =>
    obtain ⟨s, rfl⟩ := List.length_eq_one_iff.mp h
    simp [nestSlots, definitionsIn]
  | cons start places ih =>
    rcases slots with _ | ⟨condition, _ | ⟨body, slots⟩⟩
    · simp at h
    · simp at h
    · have rest : slots.length = 2 * places.length + 1 := by
        simp at h
        omega
      rw [nestSlots, Slot.toList, List.flatMap_singleton, definitions_plain rfl]
      unfold definitionsIn at ih ⊢
      simp [ih slots rest]

/-- No definition is lost in the arms of a conditional. -/
theorem ofArms_definitions (span : Span) (places : List Location) (slots : List (Slot Node))
    (h : slots.length = 2 * places.length + 3) :
    (ofArms span places slots).definitions = definitionsIn slots := by
  rcases slots with _ | ⟨condition, _ | ⟨body, slots⟩⟩
  · simp at h
  · simp at h
  · have rest : slots.length = 2 * places.length + 1 := by
      simp at h
      omega
    have arms := nestSlots_definitions span.stop places slots rest
    rw [ofArms, definitions_plain rfl]
    unfold definitionsIn at arms ⊢
    simp [arms]

/-- The macros are those that are defined in the tree, and nothing stands below a name. -/
structure Has (n : Node) (ds : List MacroDefinition) : Prop where
  definitions : ds = n.definitions
  name : ∀ x, n.head = .identifier x → n.slots = []

end Node

namespace Found

def definitions (f : Found) : List MacroDefinition := Node.definitionsIn f.slots

theorem definitions_append (f h : Found) :
    (f ++ h).definitions = f.definitions ++ h.definitions := by
  simp [definitions, Node.definitionsIn]

theorem definitions_join (fs : List Found) : (join fs).definitions = fs.flatMap definitions := by
  induction fs with
  | nil => rfl
  | cons f fs ih => rw [join, List.foldr_cons, ← join, definitions_append, ih, List.flatMap_cons]

theorem definitions_eq (f : Found) : f.definitions = f.nodes.flatMap Node.definitions := by
  simp [definitions, Node.definitionsIn, nodes, List.flatMap_assoc]

theorem definitions_ofNode (n : Node) : (ofNode n).definitions = n.definitions := by
  simp [definitions, Node.definitionsIn, ofNode, Slot.toList]

theorem definitions_ofNodes (ns : List Node) :
    (ofNodes ns).definitions = ns.flatMap Node.definitions := by
  simp [definitions, Node.definitionsIn, ofNodes, Slot.toList]

/-- The macros are those that are defined in what is found. -/
structure Has (f : Found) (ds : List MacroDefinition) : Prop where
  definitions : ds = f.definitions
  names : ∀ n ∈ f.nodes, ∀ x, n.head = .identifier x → n.slots = []

theorem has_ofNode {n : Node} {ds : List MacroDefinition} : (ofNode n).Has ds ↔ n.Has ds := by
  constructor
  · intro h
    exact ⟨h.definitions.trans (definitions_ofNode n), h.names n List.mem_cons_self⟩
  · intro h
    refine ⟨h.definitions.trans (definitions_ofNode n).symm, fun m hm => ?_⟩
    rw [List.mem_singleton.mp hm]
    exact h.name

end Found

/-! ## Parsers that register -/

/-- The registry after some definitions, one after the other. -/
def Registry.enrol (r : Registry) (ds : List MacroDefinition) : Registry := ds.foldl insert r

/-- No macro known is expanded while parsing. -/
def Registry.Late (r : Registry) : Prop := ∀ x, isExpandedHere r x = false

theorem Registry.Late.insert {r : Registry} {d : MacroDefinition} (h : r.Late)
    (hd : d.phase ≠ .parse) : (r.insert d).Late := by
  intro x
  have before := h x
  unfold isExpandedHere at before ⊢
  rw [find?_insert]
  by_cases same : d.name = x
  · simp [same, hd]
  · simpa [same] using before

/-- No call has come to wait for its expansion, expansion has neither named nor counted anything,
and no cancellation has come into sight. -/
structure ParserState.Unspent (s s' : ParserState) : Prop where
  expansions : s'.unit.expansions = s.unit.expansions
  pending : s'.pending = s.pending
  gensym : s'.unit.gensym = s.unit.gensym
  progress : s'.unit.progress = s.unit.progress
  checks : s.unit.checks = none → s'.unit.checks = none

theorem ParserState.Unspent.of_unit {s s' : ParserState} (pending : s'.pending = s.pending)
    (unit : s'.unit = s.unit) : s.Unspent s' :=
  ⟨by rw [unit], pending, by rw [unit], by rw [unit], by rw [unit]; exact id⟩

theorem ParserState.Unspent.trans {s s' s'' : ParserState} (h : s.Unspent s') (h' : s'.Unspent s'') :
    s.Unspent s'' :=
  ⟨h'.expansions.trans h.expansions, h'.pending.trans h.pending, h'.gensym.trans h.gensym,
    h'.progress.trans h.progress, h'.checks ∘ h.checks⟩

/-- If no call is expanded, the parser registers macros that are as `P` says of its result. None is
expanded if no macro is known, nor becomes known, whose calls are expanded while parsing. -/
def Enrols {α : Type} (x : Parser α) (P : List MacroDefinition → α → Prop) : Prop :=
  ∀ s a s', x s = (.ok a, s') → s.unit.log <:+ s'.unit.log ∧
    (s'.unit.expansions = s.unit.expansions →
      ∃ ds, s'.unit.registry = s.unit.registry.enrol ds ∧ P ds a) ∧
    (s.unit.registry.Late → s'.unit.Quiet → s.Unspent s' ∧ s'.unit.registry.Late)

namespace Enrols

variable {α β : Type} {x : Parser α} {P : List MacroDefinition → α → Prop}
  {Q : List MacroDefinition → β → Prop}

theorem mono {P' : List MacroDefinition → α → Prop} (h : Enrols x P) (hP : ∀ ds a, P ds a → P' ds a) :
    Enrols x P' := by
  intro s a s' run
  obtain ⟨log, registers, unspent⟩ := h s a s' run
  refine ⟨log, fun same => ?_, unspent⟩
  obtain ⟨ds, registry, made⟩ := registers same
  exact ⟨ds, registry, hP ds a made⟩

theorem bind {f : α → Parser β} (hx : Enrols x P)
    (hf : ∀ a ds, Enrols (f a) fun es b => P ds a → Q (ds ++ es) b) : Enrols (x >>= f) Q := by
  intro s b s'' run
  obtain ⟨a, s', first, second⟩ := bind_ok.mp run
  obtain ⟨log, registers, unspent⟩ := hx s a s' first
  obtain ⟨log', -, unspent'⟩ := hf a [] s' b s'' second
  refine ⟨log.trans log', fun same => ?_, fun late quiet => ?_⟩
  · have := UnitState.expansions_mono log
    have := UnitState.expansions_mono log'
    obtain ⟨ds, registry, made⟩ := registers (by omega)
    obtain ⟨es, registry', made'⟩ := (hf a ds s' b s'' second).2.1 (by omega)
    refine ⟨ds ++ es, ?_, made' made⟩
    rw [registry', registry, Registry.enrol, Registry.enrol, Registry.enrol, List.foldl_append]
  · have before : s'.unit.Quiet := fun name hygiene h => quiet name hygiene (log'.mem h)
    obtain ⟨first, late'⟩ := unspent late before
    obtain ⟨second, late''⟩ := unspent' late' quiet
    exact ⟨first.trans second, late''⟩

theorem pure (a : α) : Enrols (Pure.pure a) fun ds b => ds = [] ∧ b = a := by
  intro s b s' run
  cases run
  exact ⟨List.suffix_rfl, fun _ => ⟨[], rfl, rfl, rfl⟩, fun late _ => ⟨.of_unit rfl rfl, late⟩⟩

theorem throw (fault : Fault) : Enrols (throw fault : Parser α) P := by
  intro s a s' run
  cases run

/-- A parser that leaves the unit alone. -/
theorem calm (unit : ∀ s, (x s).2.unit = s.unit) (pending : ∀ s, (x s).2.pending = s.pending) :
    Enrols x fun ds _ => ds = [] := by
  intro s a s' run
  have unit := unit s
  have pending := pending s
  rw [run] at unit pending
  have unspent : s.Unspent s' := .of_unit pending unit
  dsimp only at unit
  rw [unit]
  exact ⟨List.suffix_rfl, fun _ => ⟨[], rfl, rfl⟩, fun late _ => ⟨unspent, late⟩⟩

theorem calm_bind {f : α → Parser β} (hx : Enrols x fun ds _ => ds = [])
    (hf : ∀ a, Enrols (f a) Q) : Enrols (x >>= f) Q := by
  refine hx.bind fun a ds => (hf a).mono fun es b h none => ?_
  rwa [none]

/-- In front of what registers nothing. -/
theorem bind_calm {f : α → Parser β} (hx : Enrols x P)
    (hf : ∀ a, Enrols (f a) fun es b => es = [] ∧ ∀ ds, P ds a → Q ds b) : Enrols (x >>= f) Q := by
  refine hx.bind fun a ds => (hf a).mono fun es b h made => ?_
  rw [h.1, List.append_nil]
  exact h.2 ds made

theorem map {f : α → β} (hx : Enrols x P) (h : ∀ ds a, P ds a → Q ds (f a)) :
    Enrols (f <$> x) Q := by
  rw [map_eq_pure_bind]
  refine hx.bind_calm fun a => (pure (f a)).mono fun es b made => ?_
  rw [made.2]
  exact ⟨made.1, fun ds => h ds a⟩

theorem of_map {f : α → β} (h : Enrols (f <$> x) Q) : Enrols x fun ds a => Q ds (f a) := by
  intro s a s' run
  refine h s (f a) s' ?_
  rw [run_map, run]

/-- What is known of the result alone. -/
theorem of_run {x : Parser α} (h : Enrols x fun ds _ => ds = [])
    {P : List MacroDefinition → α → Prop} (made : ∀ s a s', x s = (.ok a, s') → P [] a) :
    Enrols x P := by
  intro s a s' run
  obtain ⟨log, registers, unspent⟩ := h s a s' run
  refine ⟨log, fun same => ?_, unspent⟩
  obtain ⟨ds, registry, rfl⟩ := registers same
  exact ⟨[], registry, made s a s' run⟩

theorem of_get {f : ParserState → Parser β} (h : ∀ s, Enrols (f s) Q) : Enrols (get >>= f) Q :=
  fun s => h s s

theorem ite {b : Prop} [Decidable b] {y : Parser α} (hx : Enrols x P) (hy : Enrols y P) :
    Enrols (if b then x else y) P := by
  split
  · exact hx
  · exact hy

theorem repeatUpTo {test : Parser Bool} {f : α → List MacroDefinition}
    (ht : Enrols test fun ds _ => ds = []) (hx : Enrols x fun ds a => ds = f a ∧ P ds a) (fuel : Nat) :
    Enrols (repeatUpTo test x fuel) fun ds as => ds = as.flatMap f ∧ ∀ a ∈ as, P (f a) a := by
  induction fuel with
  | zero => exact .throw _
  | succ fuel ih =>
    rw [Parser.repeatUpTo_succ]
    refine ht.calm_bind fun b => ?_
    cases b with
    | false =>
      refine (pure []).mono fun ds as made => ?_
      rw [made.1, made.2]
      exact ⟨rfl, List.forall_mem_nil _⟩
    | true =>
      refine hx.bind fun a ds => ih.bind_calm fun as => (pure (a :: as)).mono fun es bs made => ?_
      obtain ⟨rfl, rfl⟩ := made
      refine ⟨rfl, fun es others first => ?_⟩
      obtain ⟨rfl, first⟩ := first
      exact ⟨by rw [others.1, List.flatMap_cons], List.forall_mem_cons.mpr ⟨first, others.2⟩⟩

theorem repeatWhile {test : Parser Bool} {f : α → List MacroDefinition}
    (ht : Enrols test fun ds _ => ds = []) (hx : Enrols x fun ds a => ds = f a ∧ P ds a) :
    Enrols (repeatWhile test x) fun ds as => ds = as.flatMap f ∧ ∀ a ∈ as, P (f a) a :=
  .of_get fun _ => repeatUpTo ht hx _

end Enrols

/-! ## Tokens, constructs and scopes -/

section

theorem enrols_peek : Enrols peek fun ds _ => ds = [] := .calm (fun _ => rfl) fun _ => rfl

theorem enrols_check (r : Reserved) : Enrols (check r) fun ds _ => ds = [] :=
  .calm (fun _ => rfl) fun _ => rfl

theorem enrols_checkBinding : Enrols checkBinding fun ds _ => ds = [] :=
  .calm (fun s => by rw [checkBinding_run]) fun s => by rw [checkBinding_run]

theorem enrols_spanFrom (start : Token) : Enrols (spanFrom start) fun ds _ => ds = [] :=
  .calm (fun _ => rfl) fun _ => rfl

theorem enrols_failExpecting {α : Type} {P : List MacroDefinition → α → Prop} (e : Expected) :
    Enrols (failExpecting e : Parser α) P := by
  intro s a s' run
  rw [failExpecting_run] at run
  cases run

theorem enrols_consume (r : Reserved) : Enrols (consume r) fun ds _ => ds = [] := by
  refine .calm (fun s => ?_) fun s => ?_ <;>
  · rw [consume_run]
    split <;> rfl

theorem enrols_consumeName (what : String) : Enrols (consumeName what) fun ds _ => ds = [] := by
  refine .calm (fun s => ?_) fun s => ?_ <;>
  · rw [consumeName_run]
    split <;> rfl

theorem enrols_openConstruct (c : Construct) : Enrols (openConstruct c) fun ds _ => ds = [] :=
  (enrols_consume _).calm_bind fun t => .calm_bind (.calm (fun _ => rfl) fun _ => rfl) fun _ =>
    (Enrols.pure t).mono fun _ _ h => h.1

theorem enrols_closeConstruct : Enrols closeConstruct fun ds _ => ds = [] := by
  refine .calm (fun s => ?_) fun s => ?_ <;>
  · rw [closeConstruct_run]
    split
    · rfl
    · split <;> rfl

theorem enrols_openScope : Enrols openScope fun ds _ => ds = [] := .calm (fun _ => rfl) fun _ => rfl

theorem enrols_closeScope : Enrols closeScope fun ds _ => ds = [] := by
  refine .calm (fun s => ?_) fun s => ?_ <;>
  · rw [closeScope_run]
    split <;> rfl

/-- Work that only reports registers nothing. -/
theorem enrols_work {α : Type} {w : Work α} (h : w.OnlyReports)
    (unspent : ∀ u, (w u).2.expansions = u.expansions ∧ (w u).2.gensym = u.gensym ∧
      (w u).2.progress = u.progress ∧ (u.checks = none → (w u).2.checks = none)) :
    Enrols (ofWork w) fun ds _ => ds = [] := by
  intro s a s' run
  obtain ⟨registry, log⟩ := h s.unit
  obtain rfl : { s with unit := (w s.unit).2 } = s' := congrArg Prod.snd run
  obtain ⟨expansions, gensym, progress, checks⟩ := unspent s.unit
  refine ⟨log, fun _ => ⟨[], registry, rfl⟩, fun late _ => ?_⟩
  refine ⟨⟨expansions, rfl, gensym, progress, checks⟩, ?_⟩
  show Registry.Late (w s.unit).2.registry
  rwa [registry]

theorem register_expansions (d : MacroDefinition) (u : UnitState) :
    (Work.register d u).2.expansions = u.expansions := by
  unfold Work.register
  rw [run_bind, run_get]
  dsimp only
  cases u.registry.find? d.name with
  | none => rfl
  | some previous =>
    by_cases moved : previous.span = d.span
    · simp only [moved, ne_eq, not_true_eq_false, if_false]
      rfl
    · simp only [moved, ne_eq, not_false_eq_true, if_true]
      rfl

theorem announce_unit {n : Node} (none : MacroDefinition.ofNode? n = none) (s : ParserState) :
    (announce n s).2.unit = s.unit := by
  obtain ⟨span, head, slots⟩ := n
  cases head
  case macroDef name params phase hygiene =>
    unfold announce
    simp only [Node.head, none]
    rfl
  case macroCall x deferred =>
    cases deferred
    · rw [announce_macroCall]
      split <;> rfl
    · rfl
  all_goals rfl

/-- When a node is complete, the macro that it defines is registered. -/
theorem enrols_announce (n : Node) :
    Enrols (announce n) fun ds _ => ds = (MacroDefinition.ofNode? n).toList := by
  intro s a s' run
  have log := (grows_announce n).log s
  rw [run] at log
  cases hn : MacroDefinition.ofNode? n with
  | none =>
    refine ⟨log, fun _ => ⟨[], ?_, rfl⟩, fun late _ => ?_⟩
    · have unit := announce_unit hn s
      rw [run] at unit
      dsimp only at unit
      rw [unit]
      rfl
    · rw [announce_other (funext late) hn] at run
      cases run
      exact ⟨.of_unit rfl rfl, late⟩
  | some d =>
    have registers : announce n = ofWork (Work.register d) := by
      obtain ⟨span, head, slots⟩ := n
      cases head
      case macroDef => unfold announce; simp only [Node.head, hn]
      all_goals cases hn
    obtain ⟨warnings, made⟩ := Work.register_run d s.unit
    rw [registers] at run
    obtain rfl : { s with unit := (Work.register d s.unit).2 } = s' := congrArg Prod.snd run
    have expansions := register_expansions d s.unit
    rw [made] at log expansions ⊢
    refine ⟨log, fun _ => ⟨[d], rfl, rfl⟩, fun late quiet => ?_⟩
    have later : d.phase ≠ .parse := by
      intro parse
      rw [parse] at quiet
      exact quiet _ _ List.mem_cons_self
    exact ⟨⟨expansions, rfl, rfl, rfl, id⟩, late.insert later⟩

/-- A program may be cancelled between two statements. -/
theorem enrols_checkpoint : Enrols (ofWork Work.checkpoint) fun ds _ => ds = [] := by
  refine enrols_work Work.onlyReports_checkpoint fun u => ?_
  unfold Work.checkpoint
  rw [run_bind, run_get]
  dsimp only
  rcases hc : u.checks with _ | _ | n
  · exact ⟨rfl, rfl, rfl, fun _ => hc⟩
  · exact ⟨rfl, rfl, rfl, nofun⟩
  · exact ⟨rfl, rfl, rfl, nofun⟩

end

/-! ## Phrases -/

namespace Phrase

/-- How many more slots are found in the phrase than two for each place, if that is known. -/
def surplus : Phrase → Option Int
  | give f => some (f.slots.length - 2 * f.places.length)
  | place => some (-2)
  | mark _ | kept _ | spelled _ | name _ => some 0
  | part _ | node .. | chain _ => some 1
  | fail _ | list _ => none
  | seq a b => a.surplus.bind fun v => b.surplus.map (v + ·)
  | either _ a b | ahead a b => if a.surplus = b.surplus then a.surplus else none
  | star _ a => if a.surplus = some 0 then some 0 else none
  | gather a | demand a _ | construct _ a => a.surplus

/-- Nodes are found only where they are read, and all of them stay in what is made of them. -/
def keeping : Phrase → Bool
  | give f => f.nodes.isEmpty
  | seq a b | either _ a b | ahead a b => a.keeping && b.keeping
  | star _ a | gather a | list a | demand a _ | construct _ a | node _ a => a.keeping
  | chain a => a.keeping && a.surplus = some 3
  | _ => true

theorem keeping_operand {r : Reserved} {a : Phrase} (h : operand? r = some a) :
    a.keeping = true := by
  cases IsOperand.of h <;> rfl

theorem keeping_pattern {r : Reserved} {a : Phrase} (h : pattern? r = some a) :
    a.keeping = true := by
  cases IsComposite.of h <;> rfl

theorem keeping_tail {r : Reserved} {m : Level} {a : Phrase} (h : tail? r = some (m, a)) :
    a.keeping = true := by
  cases IsTail.of h <;> rfl

theorem keeping_statement {settings : Settings} {r : Reserved} {a : Phrase}
    (h : statement? settings r = some a) : a.keeping = true := by
  cases IsStatement.of h <;> rfl

/-- No node of the phrase is a name. -/
def Nameless : Phrase → Prop
  | node head a => (∀ t x, head t ≠ .identifier x) ∧ a.Nameless
  | seq a b | either _ a b | ahead a b => a.Nameless ∧ b.Nameless
  | star _ a | gather a | list a | demand a _ | construct _ a | chain a => a.Nameless
  | _ => True

theorem nameless_operand {r : Reserved} {a : Phrase} (h : operand? r = some a) : a.Nameless := by
  cases IsOperand.of h <;> repeat' first | exact trivial | (intro t x h; cases h) | apply And.intro

theorem nameless_pattern {r : Reserved} {a : Phrase} (h : pattern? r = some a) : a.Nameless := by
  cases IsComposite.of h <;> repeat' first | exact trivial | apply And.intro
  all_goals nofun

theorem nameless_tail {r : Reserved} {m : Level} {a : Phrase} (h : tail? r = some (m, a)) :
    a.Nameless := by
  cases IsTail.of h <;> repeat' first | exact trivial | apply And.intro

theorem nameless_statement {settings : Settings} {r : Reserved} {a : Phrase}
    (h : statement? settings r = some a) : a.Nameless := by
  cases IsStatement.of h <;> repeat' first | exact trivial | (intro t x h; cases h) | apply And.intro

/-- The macros are those that are defined in what is found, and there are as many slots as the
phrase says. -/
structure Defines (a : Phrase) (ds : List MacroDefinition) (f : Found) : Prop extends f.Has ds where
  surplus : ∀ w, a.surplus = some w → (f.slots.length : Int) = 2 * f.places.length + w

theorem Defines.seq {a b : Phrase} {ds es : List MacroDefinition} {f h : Found} (ha : a.Defines ds f)
    (hb : b.Defines es h) : (Phrase.seq a b).Defines (ds ++ es) (f ++ h) where
  definitions := by rw [Found.definitions_append, ha.definitions, hb.definitions]
  names n hn := by
    rw [Found.nodes_append] at hn
    exact (List.mem_append.mp hn).elim (ha.names n) (hb.names n)
  surplus w hw := by
    obtain ⟨v, hv, hw⟩ := Option.bind_eq_some_iff.mp hw
    obtain ⟨u, hu, rfl⟩ := Option.map_eq_some_iff.mp hw
    have := ha.surplus v hv
    have := hb.surplus u hu
    simp
    omega

theorem Defines.star {r : Reserved} {a : Phrase} {fs : List Found}
    (h : ∀ f ∈ fs, a.Defines f.definitions f) :
    (Phrase.star r a).Defines (fs.flatMap Found.definitions) (Found.join fs) where
  definitions := (Found.definitions_join fs).symm
  names n hn := by
    rw [Found.nodes_join] at hn
    obtain ⟨f, hf, hn⟩ := List.mem_flatMap.mp hn
    exact (h f hf).names n hn
  surplus w hw := by
    unfold Phrase.surplus at hw
    split at hw
    · rename_i even
      cases hw
      induction fs with
      | nil => rfl
      | cons f fs ih =>
        obtain ⟨first, others⟩ := List.forall_mem_cons.mp h
        have here := first.surplus 0 even
        have below := ih others
        rw [Found.join, List.foldr_cons, ← Found.join]
        simp
        omega
    · cases hw

theorem Defines.branch {a b : Phrase} {ds : List MacroDefinition} {f : Found} (h : a.Defines ds f)
    (branch : ∀ w, b.surplus = some w → a.surplus = some w) : b.Defines ds f :=
  ⟨h.toHas, fun w hw => h.surplus w (branch w hw)⟩

/-- Two phrases one of which is read have a surplus if it is the same for both. -/
theorem surplus_ite {o p : Option Int} {w : Int} (h : (if o = p then o else none) = some w) :
    o = some w ∧ p = some w := by
  split at h
  · rename_i same
    exact ⟨h, same ▸ h⟩
  · cases h

end Phrase

/-- The parsers for the nonterminals register the macros that are defined in what they read. -/
structure Nonterminals.Enrolling (g : Nonterminals) : Prop where
  expression : ∀ l, Enrols (g.expression l) fun ds n => n.Has ds
  statement : Enrols g.statement fun ds ns => (Phrase.part .statement).Defines ds (.ofNodes ns)
  pattern : Enrols g.pattern fun ds n => n.Has ds

namespace Nonterminals.Enrolling

open Phrase (Defines)

variable {g : Nonterminals} (hg : g.Enrolling)

include hg

theorem wellFormedPattern : Enrols g.wellFormedPattern fun ds n => n.Has ds := by
  refine hg.pattern.bind_calm fun n => ?_
  split
  · exact .throw _
  · refine (Enrols.pure n).mono fun ds m h => ?_
    obtain ⟨rfl, rfl⟩ := h
    exact ⟨rfl, fun _ h => h⟩

omit hg in
/-- What is one slot of nodes that are no names with something below. -/
theorem defines_part {n : Nonterminal} {f : Found} (one : f.slots.length = 1) (bare : f.places = [])
    (names : ∀ m ∈ f.nodes, ∀ x, m.head = .identifier x → m.slots = []) :
    (Phrase.part n).Defines f.definitions f := by
  refine ⟨⟨rfl, names⟩, fun w hw => ?_⟩
  cases hw
  simp [one, bare]

omit hg in
theorem defines_ofNode {p : Nonterminal} {n : Node} {ds : List MacroDefinition} (h : n.Has ds) :
    (Phrase.part p).Defines ds (.ofNode n) := by
  have has := Found.has_ofNode.mpr h
  rw [has.definitions]
  exact defines_part rfl rfl has.names

omit hg in
theorem defines_singleton {p : Nonterminal} {n : Node} {ds : List MacroDefinition} (h : n.Has ds) :
    (Phrase.part p).Defines ds (.ofNodes [n]) := by
  have same : (Found.ofNodes [n]).definitions = ds := by
    rw [h.definitions, Found.definitions_ofNodes, List.flatMap_singleton]
  rw [← same]
  refine defines_part rfl rfl fun m hm => ?_
  rw [List.mem_singleton.mp hm]
  exact h.name

omit hg in
theorem defines_flatten {nss : List (List Node)}
    (h : ∀ ns ∈ nss, (Phrase.part .statement).Defines (ns.flatMap Node.definitions) (.ofNodes ns)) :
    (Phrase.part .statements).Defines (nss.flatten.flatMap Node.definitions) (.ofNodes nss.flatten) := by
  rw [← Found.definitions_ofNodes]
  refine defines_part rfl rfl fun m hm => ?_
  rw [Found.nodes, Found.ofNodes, List.flatMap_singleton, Slot.toList] at hm
  obtain ⟨ns, hns, hm⟩ := List.mem_flatten.mp hm
  refine (h ns hns).names m ?_
  rwa [Found.nodes, Found.ofNodes, List.flatMap_singleton, Slot.toList]

omit hg in
theorem statements {test : Parser Bool} {item : Parser (List Node)}
    (ht : Enrols test fun ds _ => ds = [])
    (h : Enrols item fun ds ns => (Phrase.part .statement).Defines ds (.ofNodes ns)) :
    Enrols (repeatWhile test item) fun ds nss =>
      (Phrase.part .statements).Defines ds (.ofNodes nss.flatten) := by
  refine (Enrols.repeatWhile (f := List.flatMap Node.definitions)
    (P := fun ds ns => (Phrase.part .statement).Defines ds (.ofNodes ns)) ht
    (h.mono fun ds ns h => ?_)).mono fun ds nss h => ?_
  · have own := h.definitions
    rw [Found.definitions_ofNodes] at own
    exact ⟨own, h⟩
  · rw [h.1, show nss.flatMap (List.flatMap Node.definitions) =
      nss.flatten.flatMap Node.definitions by rw [← List.flatMap_id, List.flatMap_assoc]; rfl]
    exact defines_flatten h.2

omit hg in
theorem enrols_atBodyEnd : Enrols (not <$> Nonterminals.atBodyEnd) fun ds _ => ds = [] :=
  .calm (fun _ => rfl) fun _ => rfl

omit hg in
theorem definitions_scope {span : Span} {head : Head} {ns : List Node} {ds : List MacroDefinition}
    (plain : MacroDefinition.ofNode? (.mk span head [.many ns]) = none)
    (h : (Phrase.part .statements).Defines ds (.ofNodes ns)) :
    ds = (Node.mk span head [.many ns]).definitions := by
  rw [h.definitions, Node.definitions_plain plain]
  rfl

theorem body : Enrols g.body fun ds n => n.Has ds := by
  refine (enrols_openConstruct _).calm_bind fun start => enrols_openScope.calm_bind fun _ => ?_
  refine (statements enrols_atBodyEnd hg.statement).bind_calm fun nss => ?_
  refine enrols_closeConstruct.calm_bind fun _ => enrols_closeScope.calm_bind fun injected => ?_
  refine (enrols_spanFrom start).calm_bind fun span => (Enrols.pure _).mono fun ds n h => ?_
  obtain ⟨rfl, rfl⟩ := h
  exact ⟨rfl, fun es made => ⟨definitions_scope rfl made, fun x h => by cases h⟩⟩

theorem part (n : Nonterminal) : Enrols (n.read g) (Defines (.part n)) := by
  have one {x : Parser Node} (h : Enrols x fun ds n => n.Has ds) :
      Enrols (Found.ofNode <$> x) (Defines (.part n)) := h.map fun ds m hm => defines_ofNode hm
  cases n with
  | expression l => exact one (hg.expression l)
  | pattern => exact one hg.pattern
  | binding => exact one hg.wellFormedPattern
  | body => exact one hg.body
  | statement => exact hg.statement.map fun ds ns h => h
  | statements => exact (statements enrols_atBodyEnd hg.statement).map fun ds nss h => h

omit hg in
/-- Something is read in which nothing is defined. -/
theorem enrols_bare {α : Type} {a : Phrase} {x : Parser α} {f : α → Found}
    (hx : Enrols x fun ds _ => ds = []) (bare : ∀ t, a.Defines [] (f t)) :
    Enrols (x >>= fun t => pure (f t)) (Defines a) :=
  hx.calm_bind fun t => (Enrols.pure (f t)).mono fun ds h made => by
    rw [made.1, made.2]
    exact bare t

omit hg in
/-- What has no slots and starts no arm. -/
theorem defines_bare {a : Phrase} {f : Found} (even : a.surplus = some 0) (bare : f.slots = [])
    (none : f.places = []) : a.Defines [] f := by
  refine ⟨⟨?_, ?_⟩, fun w hw => ?_⟩
  · rw [Found.definitions, bare]
    rfl
  · rw [Found.nodes, bare]
    exact List.forall_mem_nil _
  · rw [even] at hw
    cases hw
    simp [bare, none]

theorem read {a : Phrase} (h : a.keeping = true) (named : a.Nameless) :
    Enrols (a.read g) (Defines a) := by
  induction a with
  | give f =>
    refine (Enrols.pure f).mono fun ds f' made => ?_
    obtain ⟨rfl, rfl⟩ := made
    refine ⟨⟨?_, ?_⟩, fun w hw => ?_⟩
    · rw [Found.definitions_eq, List.isEmpty_iff.mp h]
      rfl
    · rw [List.isEmpty_iff.mp h]
      exact List.forall_mem_nil _
    · cases hw
      omega
  | place =>
    refine enrols_bare enrols_peek fun _ => ⟨⟨rfl, List.forall_mem_nil _⟩, fun w hw => ?_⟩
    cases hw
    rfl
  | mark r =>
    rw [Phrase.read, discard_bind]
    exact enrols_bare (enrols_consume r) fun _ => defines_bare rfl rfl rfl
  | kept r =>
    rw [Phrase.read, discard_bind]
    exact enrols_bare (enrols_consume r) fun _ => defines_bare rfl rfl rfl
  | spelled r => exact enrols_bare (enrols_consume r) fun _ => defines_bare rfl rfl rfl
  | name what => exact enrols_bare (enrols_consumeName what) fun _ => defines_bare rfl rfl rfl
  | part n => exact hg.part n
  | fail what => exact enrols_failExpecting _
  | seq a b iha ihb =>
    obtain ⟨ha, hb⟩ := Bool.and_eq_true_iff.mp h
    refine (iha ha named.1).bind fun f ds => (ihb hb named.2).bind_calm fun f' => ?_
    refine (Enrols.pure (f ++ f')).mono fun es f'' made => ?_
    obtain ⟨rfl, rfl⟩ := made
    exact ⟨rfl, fun es second first => first.seq second⟩
  | either r a b iha ihb =>
    obtain ⟨ha, hb⟩ := Bool.and_eq_true_iff.mp h
    refine (enrols_check r).calm_bind fun c => .ite ?_ ?_
    · exact (iha ha named.1).mono fun _ _ made => made.branch fun _ hw => (Phrase.surplus_ite hw).1
    · exact (ihb hb named.2).mono fun _ _ made => made.branch fun _ hw => (Phrase.surplus_ite hw).2
  | ahead a b iha ihb =>
    obtain ⟨ha, hb⟩ := Bool.and_eq_true_iff.mp h
    refine enrols_checkBinding.calm_bind fun c => .ite ?_ ?_
    · exact (iha ha named.1).mono fun _ _ made => made.branch fun _ hw => (Phrase.surplus_ite hw).1
    · exact (ihb hb named.2).mono fun _ _ made => made.branch fun _ hw => (Phrase.surplus_ite hw).2
  | star r a ih =>
    refine (Enrols.repeatWhile (f := Found.definitions) (P := Defines a) (enrols_check r) ?_).map
      fun ds fs made => ?_
    · exact (ih h named).mono fun ds f made => ⟨made.definitions, made⟩
    · rw [made.1]
      exact .star made.2
  | gather a ih =>
    exact (ih h named).map fun ds f made => ⟨⟨made.definitions, made.names⟩, made.surplus⟩
  | list a ih =>
    refine (ih h named).map fun ds f made => ⟨⟨?_, ?_⟩, fun w hw => by cases hw⟩
    · rw [made.definitions, Found.definitions_eq, Found.definitions_eq, Found.nodes_listed]
    · rw [Found.nodes_listed]
      exact made.names
  | demand a what ih =>
    refine (ih h named).bind_calm fun f => ?_
    split
    · exact (enrols_failExpecting _ (P := fun _ _ => False)).bind fun _ _ =>
        (Enrols.pure f).mono fun _ _ _ failed => failed.elim
    · refine (Enrols.pure f).mono fun ds f' made => ?_
      obtain ⟨rfl, rfl⟩ := made
      exact ⟨rfl, fun ds made => ⟨made.toHas, made.surplus⟩⟩
  | node head a ih =>
    rw [Phrase.read_node]
    refine enrols_peek.calm_bind fun start => (ih h named.2).bind fun f ds => ?_
    refine (enrols_spanFrom start).calm_bind fun span => (enrols_announce _).bind_calm fun _ => ?_
    refine (Enrols.pure _).mono fun es f' made => ?_
    obtain ⟨rfl, rfl⟩ := made
    refine ⟨rfl, fun es own found => ?_⟩
    rw [own, found.definitions, Found.definitions, ← Node.definitions_mk, ← Found.definitions_ofNode]
    refine ⟨⟨rfl, fun n hn x name => ?_⟩, fun w hw => ?_⟩
    · rw [List.mem_singleton.mp hn] at name
      exact absurd name (named.1 _ x)
    · cases hw
      rfl
  | chain a ih =>
    obtain ⟨ha, arms⟩ := Bool.and_eq_true_iff.mp h
    rw [Phrase.read_chain]
    refine enrols_peek.calm_bind fun start => (ih ha named).bind_calm fun f => ?_
    refine (enrols_spanFrom start).calm_bind fun span => (Enrols.pure _).mono fun ds f' made => ?_
    obtain ⟨rfl, rfl⟩ := made
    refine ⟨rfl, fun ds found => ?_⟩
    have count := found.surplus 3 (of_decide_eq_true arms)
    rw [found.definitions, Found.definitions, ← Node.ofArms_definitions span f.places f.slots (by omega),
      ← Found.definitions_ofNode]
    refine ⟨⟨rfl, fun n hn x name => ?_⟩, fun w hw => ?_⟩
    · rw [List.mem_singleton.mp hn] at name
      unfold Node.ofArms at name
      split at name <;> cases name
    · cases hw
      rfl
  | construct c a ih =>
    rw [Phrase.read, discard_bind]
    refine (enrols_openConstruct c).calm_bind fun t => (ih h named).bind_calm fun f => ?_
    refine enrols_closeConstruct.calm_bind fun _ => (Enrols.pure f).mono fun ds f' made => ?_
    obtain ⟨rfl, rfl⟩ := made
    exact ⟨rfl, fun ds made => ⟨made.toHas, made.surplus⟩⟩

/-! ## Expressions, patterns and statements -/

omit hg in
/-- A name that becomes the name of a call defines nothing. -/
theorem has_extended (known : String → Bool) (span : Span) (m : Level) {left : Node} {f : Found}
    {ds : List MacroDefinition} (hl : left.Has ds) :
    (Node.extended known span m left f).Has (ds ++ f.definitions) := by
  have all (head : Head) (plain : ∀ slots, MacroDefinition.ofNode? (.mk span head slots) = none)
      (none : ∀ x, head ≠ .identifier x) :
      (Node.mk span head (.one left :: f.slots)).Has (ds ++ f.definitions) := by
    refine ⟨?_, fun x h => absurd h (none x)⟩
    rw [Node.definitions_plain (plain _), hl.definitions]
    simp [Node.definitionsIn, Found.definitions, Slot.toList]
  unfold Node.extended
  split
  · exact all _ (fun _ => rfl) fun _ h => by cases h
  · split
    · rename_i x name
      split
      · obtain ⟨place, head, slots⟩ := left
        obtain rfl : slots = [] := hl.name x name
        obtain rfl : head = .identifier x := name
        refine ⟨?_, fun _ h => by cases h⟩
        rw [hl.definitions, Node.definitions_plain rfl, Node.definitions_plain rfl]
        rfl
      · exact all _ (fun _ => rfl) fun _ h => by cases h
    · exact all _ (fun _ => rfl) fun _ h => by cases h
  · exact all _ (fun _ => rfl) fun _ h => by cases h

theorem tail {r : Reserved} {m : Level} {a : Phrase} (h : Phrase.tail? r = some (m, a))
    (left : Node) (ds : List MacroDefinition) :
    Enrols (peek >>= fun start => a.read g >>= extend m left start) fun es n =>
      left.Has ds → n.Has (ds ++ es) := by
  refine enrols_peek.calm_bind fun start =>
    (hg.read (Phrase.keeping_tail h) (Phrase.nameless_tail h)).bind_calm fun f => ?_
  have stop : Enrols (tailStop m start f) fun ds _ => ds = [] :=
    .ite ((enrols_spanFrom start).map fun _ _ none => none)
      ((Enrols.pure _).mono fun _ _ none => none.1)
  refine stop.calm_bind fun stop => .of_get fun s => ?_
  have plain := ofNode?_extended s.unit.registry.contains ⟨left.span.start, stop⟩ m left f
  refine ((enrols_announce _).mono fun es _ own => ?_).calm_bind fun _ =>
    (Enrols.pure _).mono fun es n made => ?_
  · rw [own, plain]
    rfl
  · obtain ⟨rfl, rfl⟩ := made
    exact ⟨rfl, fun es found known => found.definitions ▸ has_extended _ _ _ known⟩

theorem extendUpTo (l : Level) (fuel : Nat) (left : Node) (ds : List MacroDefinition) :
    Enrols (g.extendUpTo l fuel left) fun es n => left.Has ds → n.Has (ds ++ es) := by
  induction fuel generalizing left ds with
  | zero => exact .throw _
  | succ fuel ih =>
    intro s n s' run
    have stay : Enrols (pure left) fun es n => left.Has ds → n.Has (ds ++ es) := by
      refine (Enrols.pure left).mono fun es n made known => ?_
      rwa [made.1, made.2, List.append_nil]
    rw [Phrase.extendUpTo_run] at run
    split at run
    · rename_i m a h
      obtain ⟨r, -, ha⟩ := Option.bind_eq_some_iff.mp h
      split at run
      · have all : Enrols ((peek >>= fun start => a.read g >>= extend m left start) >>=
            g.extendUpTo l fuel) fun es n => left.Has ds → n.Has (ds ++ es) := by
          refine (hg.tail ha left ds).bind fun n es => (ih n (ds ++ es)).mono ?_
          intro es' n' further first known
          rw [← List.append_assoc]
          exact further (first known)
        exact all s n s' run
      · exact stay s n s' run
    · exact stay s n s' run

omit hg in
/-- A token that is a node defines nothing. -/
theorem enrols_passed {n : Node} (none : n.Has []) :
    Enrols (fun s => (.ok (Found.ofNode n), passed s) : Parser Found) fun ds f => f.Has ds :=
  (Enrols.calm (fun _ => rfl) fun _ => rfl).of_run fun s f s' run => by
    cases run
    exact Found.has_ofNode.mpr none

omit hg in
theorem of_ofNode {x : Parser Node} (h : Enrols (Found.ofNode <$> x) fun ds f => f.Has ds) :
    Enrols x fun ds n => n.Has ds :=
  h.of_map.mono fun _ _ made => Found.has_ofNode.mp made

omit hg in
theorem has_atom {t : Token} {n : Node} (h : atom? t = some n) : n.Has [] := by
  unfold atom? at h
  split at h <;> cases h <;> exact ⟨rfl, fun _ _ => rfl⟩

omit hg in
theorem has_atomicPattern {t : Token} {n : Node} (h : atomicPattern? t = some n) : n.Has [] := by
  unfold atomicPattern? at h
  split at h <;> cases h <;> exact ⟨rfl, fun _ _ => rfl⟩

theorem operand : Enrols g.operand fun ds n => n.Has ds := by
  refine of_ofNode fun s f s' run => ?_
  rw [Phrase.operand_run] at run
  split at run
  · rename_i n _ h
    exact enrols_passed (has_atom h) s f s' run
  · rename_i a h
    obtain ⟨r, -, ha⟩ := Option.bind_eq_some_iff.mp h
    exact (hg.read (Phrase.keeping_operand ha) (Phrase.nameless_operand ha)).mono
      (fun _ _ made => made.toHas) s f s' run
  · cases run

theorem readExpression (l : Level) : Enrols (g.readExpression l) fun ds n => n.Has ds :=
  hg.operand.bind fun left ds => .of_get fun _ => hg.extendUpTo l _ left ds

theorem readPattern : Enrols g.readPattern fun ds n => n.Has ds := by
  refine of_ofNode fun s f s' run => ?_
  rw [Phrase.pattern_run] at run
  split at run
  · rename_i n _ h
    exact enrols_passed (has_atomicPattern h) s f s' run
  · rename_i a h
    obtain ⟨r, -, ha⟩ := Option.bind_eq_some_iff.mp h
    exact (hg.read (Phrase.keeping_pattern ha) (Phrase.nameless_pattern ha)).mono
      (fun _ _ made => made.toHas) s f s' run
  · cases run

theorem plainStatement (settings : Settings) :
    Enrols (g.plainStatement settings) fun ds n => n.Has ds := by
  refine of_ofNode ?_
  rw [Phrase.plainStatement_eq]
  refine enrols_peek.calm_bind fun t => ?_
  split
  · rename_i a h
    obtain ⟨r, -, ha⟩ := Option.bind_eq_some_iff.mp h
    exact (hg.read (Phrase.keeping_statement ha) (Phrase.nameless_statement ha)).mono
      fun _ _ made => made.toHas
  · exact (hg.read (a := .expressionStmt) rfl ⟨nofun, trivial⟩).mono fun _ _ made => made.toHas

end Nonterminals.Enrolling

/-! ## Programs -/

namespace Rereading

open Nonterminals.Enrolling

variable {t : Rereading}

/-- Where no call is expanded, completing a tree leaves it as it is. -/
theorem unexpanded_completion (ht : t.Growing) (outer : Nat) (n : Node) :
    unexpanded.rel (t.completion outer n)
      (modify (fun s => { s with pending := outer }) >>= fun _ => pure (.one n)) := by
  have put {y : Slot Node} : unexpanded.rel
      (modify (fun s : ParserState => { s with pending := outer }) >>= fun _ => pure y)
      (modify (fun s : ParserState => { s with pending := outer }) >>= fun _ => pure y) :=
    ⟨(Grows.calm fun _ => rfl).bind fun _ => .pure _, fun _ _ _ run _ => run⟩
  have kept : unexpanded.rel (t.completion outer n) (pure (Slot.one n) >>= fun slot =>
      modify (fun s => { s with pending := outer }) >>= fun _ => pure slot) := by
    refine ⟨grows_completion ht outer n, fun s slot s' run same => ?_⟩
    unfold completion at run
    rw [run_bind, run_get] at run
    dsimp only at run
    split at run
    · exact run
    · exact (unexpanded.bind (unexpanded_transform ht n) fun slot => put).2 s slot s' run same
  rwa [pure_bind] at kept

/-- As long as no call is expanded, a completed tree defines what it defined when it was read. -/
theorem enrols_completed (ht : t.Growing) {read : Parser Node}
    (h : Enrols read fun ds n => n.Has ds) :
    Enrols (t.completed read) fun ds slot =>
      (Phrase.part .statement).Defines ds (.ofNodes slot.toList) := by
  intro s slot s'' run
  rw [completed_run] at run
  obtain ⟨n, s', first, second⟩ := bind_ok.mp run
  obtain ⟨log, registers, unspent⟩ := h _ n s' first
  have log' := (grows_completion ht s.pending n).log s'
  rw [second] at log'
  refine ⟨log.trans log', fun same => ?_, fun late quiet => ?_⟩
  · have := UnitState.expansions_mono log
    have := UnitState.expansions_mono log'
    obtain ⟨ds, registry, made⟩ := registers (by dsimp only at *; omega)
    have kept := (unexpanded_completion ht s.pending n).2 s' slot s'' second (by dsimp only at *; omega)
    cases kept
    exact ⟨ds, registry, defines_singleton made⟩
  · have before : s'.unit.Quiet := fun name hygiene h => quiet name hygiene (log'.mem h)
    obtain ⟨unspent, late'⟩ := unspent late before
    rw [completion_run unspent.pending] at second
    cases second
    exact ⟨⟨unspent.expansions, rfl, unspent.gensym, unspent.progress, unspent.checks⟩, late'⟩

theorem enrolling_upTo (ht : t.Growing) (settings : Settings) (depth : Nat) :
    (Nonterminals.upTo settings t depth).Enrolling := by
  induction depth with
  | zero => exact ⟨fun _ => .throw _, .throw _, .throw _⟩
  | succ depth ih =>
    exact ⟨fun l => ih.readExpression l,
      (enrols_completed ht (ih.plainStatement settings)).map fun _ _ => id, ih.readPattern⟩

theorem enrols_programWith (ht : t.Growing) (settings : Settings) :
    Enrols (programWith settings t) fun ds n => ds = n.definitions := by
  unfold programWith Nonterminals.here
  rw [bind_assoc]
  refine .of_get fun s => ?_
  rw [pure_bind]
  have hg := enrolling_upTo ht settings (2 * s.rest.length + 2)
  have ended : Enrols (not <$> atEnd) fun ds _ => ds = [] := .calm (fun _ => rfl) fun _ => rfl
  refine .of_get fun s => enrols_openScope.calm_bind fun _ => ?_
  refine (Nonterminals.Enrolling.statements ended (enrols_checkpoint.calm_bind fun _ =>
    hg.statement)).bind_calm fun nss => ?_
  refine enrols_closeScope.calm_bind fun injected => ?_
  refine (enrols_work (Work.onlyReports_report _) fun _ => ⟨rfl, rfl, rfl, id⟩).calm_bind fun _ => ?_
  refine (Enrols.pure _).mono fun ds n made => ?_
  obtain ⟨rfl, rfl⟩ := made
  exact ⟨rfl, fun ds found => definitions_scope rfl found⟩

end Rereading

/-- A program that is parsed without expanding macros has the macros registered that are defined in
it. -/
theorem registry_of_parse {settings : Settings} {tokens : List Token} {unit u : UnitState} {n : Node}
    (late : unit.registry.Late) (quiet : u.Quiet)
    (read : Work.parse (Parser.program settings) tokens unit = (.ok n, u)) :
    u.registry = unit.registry.enrol n.definitions ∧ u.gensym = unit.gensym ∧
      u.progress = unit.progress ∧ (unit.checks = none → u.checks = none) := by
  have run : (programWith settings (Rereading.within settings) (ParserState.start unit tokens)).1 =
    .ok n := congrArg Prod.fst read
  have growing := Rereading.growing_upTo settings settings.maxParseDepth
  obtain rfl := congrArg Prod.snd read
  obtain ⟨-, registers, unspent⟩ :=
    Rereading.enrols_programWith growing settings _ n _ (Prod.ext run rfl)
  obtain ⟨unspent, -⟩ := unspent late quiet
  obtain ⟨ds, registry, rfl⟩ := registers unspent.expansions
  exact ⟨registry, unspent.gensym, unspent.progress, unspent.checks⟩

/-- As `registry_of_parse`, whatever macros are known, if no call is expanded. -/
theorem registry_of_unexpanded {settings : Settings} {tokens : List Token} {unit u : UnitState}
    {n : Node} (read : Work.parse (Parser.program settings) tokens unit = (.ok n, u))
    (unexpanded : u.expansions = unit.expansions) :
    u.registry = unit.registry.enrol n.definitions := by
  have run : (programWith settings (Rereading.within settings) (ParserState.start unit tokens)).1 =
    .ok n := congrArg Prod.fst read
  have growing := Rereading.growing_upTo settings settings.maxParseDepth
  obtain rfl := congrArg Prod.snd read
  obtain ⟨-, registers, -⟩ :=
    Rereading.enrols_programWith growing settings _ n _ (Prod.ext run rfl)
  obtain ⟨ds, registry, rfl⟩ := registers unexpanded
  exact registry

end GlyphScript
