import GlyphScript.Proofs.Compilation
import GlyphScript.Proofs.Listing.Words
import GlyphScript.Proofs.Parsing.Reading
import GlyphScript.Proofs.Safety.Compilation

/-!
# Listings of parsed programs

The names in a program that the parser gives are words of its source or of the
text of an expansion, so two such programs have the same listing only if they
are the same but for their places and for what is absent.
-/

namespace GlyphScript

open GlyphScript.Parser

/-! ## What is found -/

namespace Attributes

/-- What is found are words. -/
structure Legible (a : Attributes) : Prop where
  texts : ∀ x ∈ a.texts, IsBare x
  lists : ∀ xs ∈ a.lists, ∀ x ∈ xs, IsBare x

variable {a : Attributes}

theorem Legible.name (h : a.Legible) (some : a.texts ≠ []) : IsBare a.name := by
  obtain ⟨x, xs, made⟩ := List.exists_cons_of_ne_nil some
  rw [Attributes.name, made]
  exact h.texts x (made ▸ List.mem_cons_self)

theorem Legible.names (h : a.Legible) : ∀ x ∈ a.names, IsBare x := by
  rw [Attributes.names]
  cases made : a.lists with
  | nil => exact List.forall_mem_nil _
  | cons xs lists => exact h.lists xs (made ▸ List.mem_cons_self)

end Attributes

/-- The words and the trees that are found are legible. -/
structure Found.Legible (f : Found) : Prop where
  attributes : f.attributes.Legible
  nodes : ∀ n ∈ f.nodes, n.Legible

namespace Found

theorem Legible.append {f h : Found} (hf : f.Legible) (hh : h.Legible) : (f ++ h).Legible := by
  refine ⟨⟨?_, ?_⟩, ?_⟩
  · exact List.forall_mem_append.mpr ⟨hf.attributes.texts, hh.attributes.texts⟩
  · exact List.forall_mem_append.mpr ⟨hf.attributes.lists, hh.attributes.lists⟩
  · rw [nodes_append]
    exact List.forall_mem_append.mpr ⟨hf.nodes, hh.nodes⟩

theorem legible_bare {f : Found} (texts : f.attributes.texts = []) (lists : f.attributes.lists = [])
    (nodes : ∀ n ∈ f.nodes, n.Legible) : f.Legible :=
  ⟨⟨texts ▸ List.forall_mem_nil _, lists ▸ List.forall_mem_nil _⟩, nodes⟩

theorem legible_ofNode {n : Node} (h : n.Legible) : (ofNode n).Legible :=
  legible_bare rfl rfl (List.forall_mem_singleton.mpr h)

theorem legible_ofNodes {ns : List Node} (h : ∀ n ∈ ns, n.Legible) : (ofNodes ns).Legible :=
  legible_bare rfl rfl (by rwa [nodes, ofNodes, List.flatMap_singleton])

theorem legible_ofText {x : String} (h : IsBare x) : (ofText x).Legible :=
  ⟨⟨List.forall_mem_singleton.mpr h, List.forall_mem_nil _⟩, List.forall_mem_nil _⟩

theorem legible_nothing : nothing.Legible := legible_bare rfl rfl (List.forall_mem_nil _)

theorem legible_join {fs : List Found} (h : ∀ f ∈ fs, f.Legible) : (join fs).Legible := by
  induction fs with
  | nil => exact legible_nothing
  | cons f fs ih =>
    obtain ⟨first, others⟩ := List.forall_mem_cons.mp h
    exact first.append (ih others)

theorem Legible.node {f : Found} (h : f.Legible) (span : Span) {head : Head} (own : head.Legible) :
    (Node.mk span head f.slots).Legible :=
  Node.legible_mk.mpr ⟨own, fun _ hs n hn => h.nodes n (mem_nodes.mpr ⟨_, hs, hn⟩)⟩

end Found

namespace Node

theorem legible_bare {span : Span} {head : Head} {slots : List (Slot Node)} (words : head.words = [])
    (scalar : head.isLegibleScalar = true) (h : ∀ s ∈ slots, ∀ n ∈ s.toList, n.Legible) :
    (mk span head slots).Legible :=
  legible_mk.mpr ⟨⟨words ▸ List.forall_mem_nil _, scalar⟩, h⟩

theorem legible_nestSlots (stop : Location) (places : List Location) (slots : List (Slot Node))
    (h : ∀ s ∈ slots, ∀ n ∈ s.toList, n.Legible) :
    ∀ n ∈ (nestSlots stop places slots).toList, n.Legible := by
  fun_induction nestSlots stop places slots with
  | case1 start starts condition body slots ih =>
    refine List.forall_mem_singleton.mpr (legible_bare rfl rfl ?_)
    obtain ⟨first, h⟩ := List.forall_mem_cons.mp h
    obtain ⟨second, others⟩ := List.forall_mem_cons.mp h
    exact List.forall_mem_cons.mpr ⟨first, List.forall_mem_cons.mpr ⟨second,
      List.forall_mem_singleton.mpr (ih others)⟩⟩
  | case2 places slots =>
    cases slots with
    | nil => exact List.forall_mem_nil _
    | cons s slots => exact h s List.mem_cons_self

theorem legible_ofArms (span : Span) (places : List Location) (slots : List (Slot Node))
    (h : ∀ s ∈ slots, ∀ n ∈ s.toList, n.Legible) : (ofArms span places slots).Legible := by
  unfold ofArms
  split
  · obtain ⟨first, h⟩ := List.forall_mem_cons.mp h
    obtain ⟨second, others⟩ := List.forall_mem_cons.mp h
    exact legible_bare rfl rfl (List.forall_mem_cons.mpr ⟨first, List.forall_mem_cons.mpr ⟨second,
      List.forall_mem_singleton.mpr (legible_nestSlots _ _ _ others)⟩⟩)
  · exact legible_bare rfl rfl h

end Node

/-! ## Phrases -/

namespace Phrase

/-- Whether some word is found in the phrase whatever is read. -/
def isNaming : Phrase → Bool
  | spelled _ | name _ => true
  | seq a b => a.isNaming || b.isNaming
  | either _ a b | ahead a b => a.isNaming && b.isNaming
  | list a | demand a _ | construct _ a => a.isNaming
  | _ => false

/-- Of words that are found legible heads are made. -/
def Wording : Phrase → Prop
  | give f => f.Legible
  | spelled r => IsBare r.spelling
  | node head a => a.Wording ∧
    ∀ x : Attributes, x.Legible → (a.isNaming = true → x.texts ≠ []) → (head x).Legible
  | chain a | star _ a | gather a | list a | demand a _ | construct _ a => a.Wording
  | seq a b | either _ a b | ahead a b => a.Wording ∧ b.Wording
  | _ => True

/-- Whether no node is put together in the phrase and its own words are words. -/
def isWorded : Phrase → Bool
  | give f => f.attributes.texts.isEmpty && f.attributes.lists.isEmpty && f.nodes.isEmpty
  | spelled r => decide (IsBare r.spelling)
  | seq a b | either _ a b | ahead a b => a.isWorded && b.isWorded
  | star _ a | gather a | list a | demand a _ | construct _ a => a.isWorded
  | node _ _ | chain _ => false
  | _ => true

section

variable {a : Phrase}

theorem wording_of_isWorded (h : a.isWorded = true) : a.Wording := by
  induction a with
  | give f =>
    simp only [isWorded, Bool.and_eq_true, List.isEmpty_iff] at h
    obtain ⟨⟨texts, lists⟩, nodes⟩ := h
    exact Found.legible_bare texts lists (nodes ▸ List.forall_mem_nil _)
  | spelled r => exact (of_decide_eq_true h : IsBare r.spelling)
  | seq a b iha ihb | either r a b iha ihb | ahead a b iha ihb =>
    obtain ⟨ha, hb⟩ := Bool.and_eq_true_iff.mp h
    exact ⟨iha ha, ihb hb⟩
  | star r a ih | gather a ih | list a ih | demand a what ih | construct c a ih => exact ih h
  | node | chain => cases h
  | place | mark | kept | name | part | fail => trivial

/-- The head of the node has no words. -/
theorem wording_wordless {head : Attributes → Head} (inner : a.Wording)
    (words : ∀ x, (head x).words = []) (scalar : ∀ x, (head x).isLegibleScalar = true) :
    (node head a).Wording :=
  ⟨inner, fun x _ _ => ⟨words x ▸ List.forall_mem_nil _, scalar x⟩⟩

/-- The head of the node has one word. -/
theorem wording_named {head : Attributes → Head} (inner : a.Wording) (naming : a.isNaming = true)
    (words : ∀ x, (head x).words = [x.name]) (scalar : ∀ x, (head x).isLegibleScalar = true) :
    (node head a).Wording :=
  ⟨inner, fun x hx some =>
    ⟨words x ▸ List.forall_mem_singleton.mpr (hx.name (some naming)), scalar x⟩⟩

/-- The head of the node has one word and a list of words. -/
theorem wording_function {head : Attributes → Head} (inner : a.Wording) (naming : a.isNaming = true)
    (words : ∀ x, (head x).words = x.name :: x.names)
    (scalar : ∀ x, (head x).isLegibleScalar = true) : (node head a).Wording :=
  ⟨inner, fun x hx some =>
    ⟨words x ▸ List.forall_mem_cons.mpr ⟨hx.name (some naming), hx.names⟩, scalar x⟩⟩

theorem wording_comprehensionClause : comprehensionClause.Wording :=
  wording_named (wording_of_isWorded rfl) rfl (fun _ => rfl) fun _ => rfl

theorem wording_operand {r : Reserved} (h : operand? r = some a) : a.Wording := by
  cases IsOperand.of h
  case groupOpen => exact wording_of_isWorded rfl
  case macroInvoke => exact wording_named (wording_of_isWorded rfl) rfl (fun _ => rfl) fun _ => rfl
  case negate => exact wording_named (wording_of_isWorded (by decide)) rfl (fun _ => rfl) fun _ => rfl
  case lambdaOpen =>
    refine ⟨wording_of_isWorded rfl, fun x hx _ => ⟨?_, rfl⟩⟩
    rw [show (Head.lambda x.names).words = x.names from List.append_nil _]
    exact hx.names
  case compOpen =>
    have clause := wording_comprehensionClause
    exact wording_wordless ⟨trivial, trivial, ⟨clause, clause⟩, trivial⟩ (fun _ => rfl) fun _ => rfl
  all_goals exact wording_wordless (wording_of_isWorded rfl) (fun _ => rfl) fun _ => rfl

theorem wording_pattern {r : Reserved} (h : pattern? r = some a) : a.Wording := by
  cases IsComposite.of h <;>
    exact wording_wordless (wording_of_isWorded rfl) (fun _ => rfl) fun _ => rfl

theorem wording_tail {r : Reserved} {m : Level} (h : tail? r = some (m, a)) : a.Wording := by
  cases IsTail.of h <;> exact wording_of_isWorded (by decide)

theorem naming_tail {r : Reserved} {m : Level} (h : tail? r = some (m, a)) :
    a.isNaming = true ∨ m = .conditional ∨ m = .postfixed := by
  cases IsTail.of h <;> first | exact .inl rfl | exact .inr (.inl rfl) | exact .inr (.inr rfl)

theorem wording_quote : quote.Wording :=
  wording_wordless (wording_of_isWorded rfl) (fun _ => rfl) fun _ => rfl

theorem wording_macroRule : macroRule.Wording :=
  wording_wordless (wording_of_isWorded rfl) (fun _ => rfl) fun _ => rfl

theorem wording_macroDef (settings : Settings) : (macroDef settings).Wording := by
  have found : (demand (manyOf .ruleOpen macroRule) "macro rule '\x7b@' or quoted template").Wording :=
    wording_macroRule
  have empty : (give (.ofNodes [])).Wording := wording_of_isWorded rfl
  have none : (give (.ofOption none)).Wording := wording_of_isWorded rfl
  have marks : phaseMark.Wording ∧ hygieneMark.Wording :=
    ⟨wording_of_isWorded rfl, wording_of_isWorded rfl⟩
  refine ⟨⟨trivial, wording_of_isWorded (a := parameters) rfl, marks.1, marks.2,
    ⟨empty, wording_quote⟩, found, none⟩, fun x hx some => ⟨?_, rfl⟩⟩
  have phases (p : Phase) : IsBare p.name := by cases p <;> decide
  have hygienes (h : Hygiene) : IsBare h.name := by cases h <;> decide
  show ∀ y ∈ x.name :: (x.names ++ [Phase.name _, Hygiene.name _]), IsBare y
  refine List.forall_mem_cons.mpr ⟨hx.name (some rfl), List.forall_mem_append.mpr ⟨hx.names, ?_⟩⟩
  exact List.forall_mem_cons.mpr ⟨phases _, List.forall_mem_singleton.mpr (hygienes _)⟩

/-- A word that is not always there. -/
theorem isBare_option {x : Attributes} (hx : x.Legible) :
    ∀ y ∈ (Head.Attribute.ofOption x.texts.head?).texts, IsBare y := by
  cases found : x.texts.head? with
  | none => exact List.forall_mem_nil _
  | some y => exact List.forall_mem_singleton.mpr (hx.texts y (List.mem_of_head? found))

theorem wording_importDecl : importDecl.Wording := by
  refine ⟨wording_of_isWorded rfl, fun x hx _ => ⟨?_, rfl⟩⟩
  show ∀ y ∈ x.names ++ ((Head.Attribute.ofOption x.texts.head?).texts ++ []), IsBare y
  rw [List.append_nil]
  exact List.forall_mem_append.mpr ⟨hx.names, isBare_option hx⟩

theorem wording_loopStmt : loopStmt.Wording := by
  refine ⟨wording_of_isWorded rfl, fun x hx _ => ⟨?_, rfl⟩⟩
  show ∀ y ∈ (Head.Attribute.ofOption x.texts.head?).texts ++ [], IsBare y
  rw [List.append_nil]
  exact isBare_option hx

theorem wording_exceptClause : exceptClause.Wording :=
  wording_wordless (wording_of_isWorded rfl) (fun _ => rfl) fun _ => rfl

theorem wording_caseClause : caseClause.Wording :=
  wording_wordless (wording_of_isWorded rfl) (fun _ => rfl) fun _ => rfl

theorem wording_statement {settings : Settings} {r : Reserved} (h : statement? settings r = some a) :
    a.Wording := by
  cases IsStatement.of h
  case importOpen => exact wording_importDecl
  case macroOpen => exact wording_macroDef settings
  case ifOpen => exact wording_of_isWorded (a := construct .conditional _) rfl
  case loopOpen => exact wording_loopStmt
  case tryOpen =>
    exact wording_wordless ⟨trivial, wording_exceptClause, wording_of_isWorded
      (a := optionalNode .finallyArm (part .body)) rfl⟩ (fun _ => rfl) fun _ => rfl
  case matchOpen =>
    exact wording_wordless ⟨trivial, wording_caseClause, wording_caseClause⟩ (fun _ => rfl)
      fun _ => rfl
  case funcOpen | asyncFuncOpen =>
    exact wording_function (wording_of_isWorded rfl) rfl
      (fun x => congrArg (x.name :: ·) (List.append_nil _)) fun _ => rfl
  case assignOpen | memoryOpen | classOpen | tensorOpen | nnOpen =>
    exact wording_named (wording_of_isWorded rfl) rfl (fun _ => rfl) fun _ => rfl
  all_goals exact wording_wordless (wording_of_isWorded rfl) (fun _ => rfl) fun _ => rfl

theorem wording_expressionStmt : expressionStmt.Wording :=
  wording_wordless trivial (fun _ => rfl) fun _ => rfl

end

end Phrase

/-! ## Reading tokens -/

section

variable {α : Type} {P : α → Prop}

theorem ParserState.Legible.passed {s : ParserState} (h : s.Legible) :
    (Parser.passed s).Legible := ⟨h.unit, fun t ht => h.tokens t (List.mem_of_mem_tail ht), h.scopes⟩

theorem ParserState.Legible.next {s : ParserState} (h : s.Legible) (inner : s.next.isEnd = false) :
    s.next.Worded := by
  obtain ⟨unit, previous, rest, stop, frames, scopes, pending⟩ := s
  cases rest with
  | nil => cases inner
  | cons t rest => exact h.tokens t List.mem_cons_self

theorem legible_throw (fault : Fault) : legible.holds (throw fault : Parser α) P :=
  fun _ hs => ⟨hs, fun _ e => nomatch e⟩

theorem legible_get : legible.holds (get : Parser ParserState) ParserState.Legible :=
  fun _ hs => ⟨hs, fun _ e => Except.ok.inj e ▸ hs⟩

/-- Parsers that change nothing that is read or known. -/
theorem legible_still {x : Parser α} (unit : ∀ s, (x s).2.unit = s.unit)
    (rest : ∀ s, (x s).2.rest = s.rest) (scopes : ∀ s, (x s).2.scopes = s.scopes) :
    legible.holds x fun _ => True := by
  intro s hs
  refine ⟨⟨?_, ?_, ?_⟩, fun _ _ => trivial⟩
  · rw [unit]
    exact hs.unit
  · rw [rest]
    exact hs.tokens
  · rw [scopes]
    exact hs.scopes

theorem legible_ofWork {w : Work α} (h : legibleWork.holds w P) : legible.holds (ofWork w) P := by
  intro s hs
  obtain ⟨kept, made⟩ := h s.unit hs.unit
  exact ⟨⟨kept, hs.tokens, hs.scopes⟩, made⟩

theorem legible_onlyReports {w : Work α} (h : w.OnlyReports) :
    legibleWork.holds w fun _ => True := by
  intro u hu
  refine ⟨fun d hd => hu d ?_, fun _ _ => trivial⟩
  rwa [← (h u).1]

theorem legible_check (r : Reserved) : legible.holds (check r) fun _ => True :=
  legible_still (fun _ => rfl) (fun _ => rfl) fun _ => rfl

theorem legible_checkBinding : legible.holds checkBinding fun _ => True :=
  legible_still (fun s => by rw [checkBinding_run]) (fun s => by rw [checkBinding_run])
    fun s => by rw [checkBinding_run]

theorem legible_failExpecting (e : Expected) : legible.holds (failExpecting e : Parser α) P := by
  intro s hs
  rw [failExpecting_run]
  exact ⟨hs, fun _ e => nomatch e⟩

theorem legible_consume (r : Reserved) :
    legible.holds (consume r) fun t => t.lexeme = r.spelling := by
  intro s hs
  rw [consume_run]
  split
  · rename_i is
    refine ⟨hs.passed, fun t e => Except.ok.inj e ▸ ?_⟩
    exact (hs.next (isEnd_of_isReserved is)).mark r (of_decide_eq_true is)
  · exact ⟨hs, fun _ e => nomatch e⟩

theorem legible_consumeName (what : String) : legible.holds (consumeName what) IsBare := by
  intro s hs
  rw [consumeName_run]
  split
  · rename_i is
    exact ⟨hs.passed, fun t e => Except.ok.inj e ▸ (hs.next (isEnd_of_identifier is)).name is⟩
  · exact ⟨hs, fun _ e => nomatch e⟩

theorem legible_openConstruct (c : Construct) : legible.holds (openConstruct c) fun _ => True := by
  refine legible.bind (legible_consume _) fun t _ => ?_
  exact legible.bind (legible_still (fun _ => rfl) (fun _ => rfl) fun _ => rfl) fun _ _ =>
    legible.pure trivial

theorem legible_closeConstruct : legible.holds closeConstruct fun _ => True := by
  intro s hs
  rw [closeConstruct_run]
  split
  · exact ⟨hs, fun _ e => nomatch e⟩
  · split
    · exact ⟨⟨hs.passed.unit, hs.passed.tokens, hs.passed.scopes⟩, fun _ _ => trivial⟩
    · exact ⟨hs, fun _ e => nomatch e⟩

theorem legible_openScope : legible.holds openScope fun _ => True :=
  fun _ hs => ⟨⟨hs.unit, hs.tokens, List.forall_mem_cons.mpr ⟨List.forall_mem_nil _, hs.scopes⟩⟩,
    fun _ _ => trivial⟩

theorem legible_closeScope : legible.holds closeScope fun names => ∀ x ∈ names, IsBare x := by
  intro s hs
  rw [closeScope_run]
  obtain ⟨unit, tokens, scopes⟩ := hs
  cases made : s.scopes with
  | nil =>
    exact ⟨⟨unit, tokens, scopes⟩, fun _ e => nomatch e⟩
  | cons names outer =>
    rw [made] at scopes
    obtain ⟨first, others⟩ := List.forall_mem_cons.mp scopes
    exact ⟨⟨unit, tokens, others⟩, fun _ e => Except.ok.inj e ▸ first⟩

theorem legible_inject {names : List String} (h : ∀ x ∈ names, IsBare x) :
    legible.holds (inject names) fun _ => True := by
  intro s hs
  refine ⟨?_, fun _ _ => trivial⟩
  obtain ⟨unit, tokens, scopes⟩ := hs
  rw [inject, run_modify]
  cases made : s.scopes with
  | nil => exact ⟨unit, tokens, scopes⟩
  | cons scope outer =>
    rw [made] at scopes
    obtain ⟨first, others⟩ := List.forall_mem_cons.mp scopes
    refine ⟨unit, tokens, List.forall_mem_cons.mpr ⟨List.forall_mem_append.mpr ⟨first, ?_⟩, others⟩⟩
    exact fun x hx => h x (List.mem_of_mem_filter hx)

theorem legible_register {d : MacroDefinition} (hd : d.Legible) :
    legibleWork.holds (Work.register d) fun _ => True := by
  intro u hu
  obtain ⟨warnings, run⟩ := Work.register_run d u
  rw [run]
  refine ⟨fun e he => ?_, fun _ _ => trivial⟩
  rcases Registry.mem_insert he with rfl | he
  · exact hd
  · exact hu e he

theorem legible_announce {n : Node} (hn : n.Legible) : legible.holds (announce n) fun _ => True := by
  unfold announce
  split
  · split
    · rename_i d made
      exact legible_ofWork (legible_register (MacroDefinition.legible_of_node hn made))
    · exact legible.pure trivial
  · refine legible.bind legible_get fun s _ => ?_
    split
    · exact legible_still (fun _ => rfl) (fun _ => rfl) fun _ => rfl
    · exact legible.pure trivial
  · exact legible.pure trivial

theorem legible_repeatUpTo {test : Parser Bool} {x : Parser α}
    (ht : legible.holds test fun _ => True) (hx : legible.holds x P) (fuel : Nat) :
    legible.holds (repeatUpTo test x fuel) fun as => ∀ a ∈ as, P a := by
  induction fuel with
  | zero => exact legible_throw _
  | succ fuel ih =>
    refine legible.bind ht fun b _ => ?_
    split
    · exact legible.bind hx fun a ha => legible.bind ih fun as has =>
        legible.pure (List.forall_mem_cons.mpr ⟨ha, has⟩)
    · exact legible.pure (List.forall_mem_nil _)

theorem legible_repeatWhile {test : Parser Bool} {x : Parser α}
    (ht : legible.holds test fun _ => True) (hx : legible.holds x P) :
    legible.holds (repeatWhile test x) fun as => ∀ a ∈ as, P a :=
  legible.bind legible_get fun _ _ => legible_repeatUpTo ht hx _

end

/-! ## Reading phrases -/

/-- The parsers for the nonterminals find legible trees. -/
structure Nonterminals.Legible (g : Nonterminals) : Prop where
  expression : ∀ l, legible.holds (g.expression l) Node.Legible
  statement : legible.holds g.statement fun ns => ∀ n ∈ ns, n.Legible
  pattern : legible.holds g.pattern Node.Legible

theorem Node.legible_scope {h : Head} {injected : List String} (words : h.words = injected)
    (scalar : h.isLegibleScalar = true) (hi : ∀ x ∈ injected, IsBare x) (span : Span)
    {nss : List (List Node)} (legible : ∀ ns ∈ nss, ∀ n ∈ ns, n.Legible) :
    (mk span h [.many nss.flatten]).Legible := by
  refine legible_mk.mpr ⟨⟨words ▸ hi, scalar⟩, List.forall_mem_singleton.mpr fun n hn => ?_⟩
  obtain ⟨ns, hns, hn⟩ := List.mem_flatten.mp hn
  exact legible ns hns n hn

namespace Nonterminals.Legible

variable {g : Nonterminals} (hg : g.Legible)

include hg

theorem wellFormedPattern : legible.holds g.wellFormedPattern Node.Legible := by
  refine legible.bind hg.pattern fun n hn => ?_
  split
  · exact legible_throw _
  · exact legible.pure hn

omit hg in
theorem legible_atBodyEnd : legible.holds (not <$> Nonterminals.atBodyEnd) fun _ => True :=
  legible_still (fun _ => rfl) (fun _ => rfl) fun _ => rfl

theorem body : legible.holds g.body Node.Legible := by
  refine legible.bind (legible_openConstruct _) fun start _ => ?_
  refine legible.bind legible_openScope fun _ _ => ?_
  refine legible.bind (legible_repeatWhile legible_atBodyEnd hg.statement) fun nss hns => ?_
  refine legible.bind legible_closeConstruct fun _ _ => ?_
  refine legible.bind legible_closeScope fun injected hi => ?_
  refine legible.bind (p := fun _ => True) (legible_still (fun _ => rfl) (fun _ => rfl) fun _ => rfl)
    fun span _ => legible.pure ?_
  exact Node.legible_scope (h := .block injected) (List.append_nil _) rfl hi span hns

theorem part (n : Nonterminal) : legible.holds (n.read g) Found.Legible := by
  cases n with
  | expression l => exact legible.map (hg.expression l) fun _ => Found.legible_ofNode
  | pattern => exact legible.map hg.pattern fun _ => Found.legible_ofNode
  | binding => exact legible.map hg.wellFormedPattern fun _ => Found.legible_ofNode
  | body => exact legible.map hg.body fun _ => Found.legible_ofNode
  | statement => exact legible.map hg.statement fun _ => Found.legible_ofNodes
  | statements =>
    refine legible.map (legible_repeatWhile legible_atBodyEnd hg.statement) fun nss h => ?_
    refine Found.legible_ofNodes fun n hn => ?_
    obtain ⟨ns, hns, hn⟩ := List.mem_flatten.mp hn
    exact h ns hns n hn

omit hg in
theorem legible_peek : legible.holds peek fun _ => True :=
  legible_still (fun _ => rfl) (fun _ => rfl) fun _ => rfl

omit hg in
theorem legible_spanFrom (start : Token) : legible.holds (spanFrom start) fun _ => True :=
  legible_still (fun _ => rfl) (fun _ => rfl) fun _ => rfl

theorem read {a : Phrase} (h : a.Wording) : legible.holds (a.read g) fun f =>
    f.Legible ∧ (a.isNaming = true → f.attributes.texts ≠ []) := by
  have unnamed {f : Found} (hf : f.Legible) : f.Legible ∧ (false = true → f.attributes.texts ≠ []) :=
    ⟨hf, nofun⟩
  induction a with
  | give f => exact legible.pure (unnamed h)
  | place => 
    exact legible.bind legible_peek fun t _ =>
      legible.pure (unnamed (Found.legible_bare rfl rfl (List.forall_mem_nil _)))
  | mark r =>
    rw [Phrase.read, discard_bind]
    exact legible.bind (legible_consume r) fun t _ => legible.pure (unnamed Found.legible_nothing)
  | kept r =>
    rw [Phrase.read, discard_bind]
    exact legible.bind (legible_consume r) fun t _ =>
      legible.pure (unnamed (Found.legible_bare rfl rfl (List.forall_mem_nil _)))
  | spelled r =>
    refine legible.bind (legible_consume r) fun t ht => legible.pure ⟨?_, fun _ => List.cons_ne_nil _ _⟩
    exact Found.legible_ofText (ht ▸ h)
  | name what =>
    exact legible.bind (legible_consumeName what) fun x hx =>
      legible.pure ⟨Found.legible_ofText hx, fun _ => List.cons_ne_nil _ _⟩
  | part n => exact legible.mono (hg.part n) fun f hf => unnamed hf
  | fail what => exact legible_failExpecting _
  | seq a b iha ihb =>
    refine legible.bind (iha h.1) fun f hf => legible.bind (ihb h.2) fun k hk => legible.pure ?_
    refine ⟨hf.1.append hk.1, fun naming empty => ?_⟩
    obtain ⟨first, second⟩ := List.append_eq_nil_iff.mp empty
    exact (Bool.or_eq_true_iff.mp naming).elim (hf.2 · first) (hk.2 · second)
  | either r a b iha ihb =>
    refine legible.bind (legible_check r) fun c _ => ?_
    split
    · exact legible.mono (iha h.1) fun f hf => ⟨hf.1, fun n => hf.2 (Bool.and_eq_true_iff.mp n).1⟩
    · exact legible.mono (ihb h.2) fun f hf => ⟨hf.1, fun n => hf.2 (Bool.and_eq_true_iff.mp n).2⟩
  | ahead a b iha ihb =>
    refine legible.bind legible_checkBinding fun c _ => ?_
    split
    · exact legible.mono (iha h.1) fun f hf => ⟨hf.1, fun n => hf.2 (Bool.and_eq_true_iff.mp n).1⟩
    · exact legible.mono (ihb h.2) fun f hf => ⟨hf.1, fun n => hf.2 (Bool.and_eq_true_iff.mp n).2⟩
  | star r a ih =>
    exact legible.map (legible_repeatWhile (legible_check r) (ih h)) fun fs hfs =>
      unnamed (Found.legible_join fun f hf => (hfs f hf).1)
  | gather a ih =>
    refine legible.map (ih h) fun f hf => unnamed ⟨⟨List.forall_mem_nil _, ?_⟩, hf.1.nodes⟩
    exact List.forall_mem_singleton.mpr hf.1.attributes.texts
  | list a ih =>
    refine legible.map (ih h) fun f hf => ⟨⟨hf.1.attributes, ?_⟩, hf.2⟩
    rw [Found.nodes_listed]
    exact hf.1.nodes
  | demand a what ih =>
    refine legible.bind (ih h) fun f hf => ?_
    split
    · exact legible.bind (p := fun _ => True) (legible_failExpecting _) fun _ _ => legible.pure hf
    · exact legible.pure hf
  | node head a ih =>
    rw [Phrase.read_node]
    refine legible.bind legible_peek fun start _ => legible.bind (ih h.1) fun f hf => ?_
    refine legible.bind (legible_spanFrom start) fun span _ => ?_
    have made := hf.1.node span (h.2 f.attributes hf.1.attributes hf.2)
    exact legible.bind (legible_announce made) fun _ _ =>
      legible.pure (unnamed (Found.legible_ofNode made))
  | chain a ih =>
    rw [Phrase.read_chain]
    refine legible.bind legible_peek fun start _ => legible.bind (ih h) fun f hf => ?_
    refine legible.bind (legible_spanFrom start) fun span _ => legible.pure (unnamed ?_)
    refine Found.legible_ofNode (Node.legible_ofArms span f.places f.slots fun s hs n hn => ?_)
    exact hf.1.nodes n (Found.mem_nodes.mpr ⟨s, hs, hn⟩)
  | construct c a ih =>
    rw [Phrase.read, discard_bind]
    refine legible.bind (legible_openConstruct c) fun t _ => legible.bind (ih h) fun f hf => ?_
    exact legible.bind legible_closeConstruct fun _ _ => legible.pure hf

/-! ## Expressions, patterns and statements -/

omit hg in
theorem of_ofNode {x : Parser Node} (h : legible.holds (Found.ofNode <$> x) Found.Legible) :
    legible.holds x Node.Legible := by
  intro s hs
  obtain ⟨kept, made⟩ := h s hs
  rw [run_map] at kept made
  rcases run : x s with ⟨e | n, s'⟩ <;> rw [run] at kept made
  · exact ⟨kept, fun _ e => nomatch e⟩
  · refine ⟨kept, fun m e => Except.ok.inj e ▸ ?_⟩
    exact (made _ rfl).nodes n (List.mem_singleton_self n)

omit hg in
theorem legible_atom {t : Token} {n : Node} (ht : t.Worded) (h : atom? t = some n) : n.Legible := by
  have number (m : Nat) : (Scalar.integer m).isOfKind .number = true :=
    decide_eq_true (Int.natCast_nonneg m)
  unfold atom? at h
  split at h <;> cases h
  case h_1 m _ => exact Node.legible_bare rfl (number m) (List.forall_mem_nil _)
  case h_3 is =>
    exact Node.legible_mk.mpr ⟨⟨List.forall_mem_singleton.mpr (ht.name is), rfl⟩, List.forall_mem_nil _⟩
  all_goals exact Node.legible_bare rfl rfl (List.forall_mem_nil _)

omit hg in
theorem legible_atomicPattern {t : Token} {n : Node} (ht : t.Worded)
    (h : atomicPattern? t = some n) : n.Legible := by
  have number (m : Nat) : (Scalar.integer m).isOfKind .number = true :=
    decide_eq_true (Int.natCast_nonneg m)
  unfold atomicPattern? at h
  split at h <;> cases h
  case h_1 m _ => exact Node.legible_bare rfl (number m) (List.forall_mem_nil _)
  case h_3 is =>
    exact Node.legible_mk.mpr ⟨⟨List.forall_mem_singleton.mpr (ht.name is), rfl⟩, List.forall_mem_nil _⟩
  all_goals exact Node.legible_bare rfl rfl (List.forall_mem_nil _)

theorem found {a : Phrase} (h : a.Wording) : legible.holds (a.read g) Found.Legible :=
  legible.mono (hg.read h) fun _ hf => hf.1

theorem operand : legible.holds g.operand Node.Legible := by
  refine of_ofNode fun s hs => ?_
  rw [Phrase.operand_run]
  split
  · rename_i n _ h
    refine ⟨hs.passed, fun _ e => Except.ok.inj e ▸ Found.legible_ofNode ?_⟩
    exact legible_atom (hs.next (Phrase.isEnd_of_atom h)) h
  · rename_i a h
    obtain ⟨r, -, ha⟩ := Option.bind_eq_some_iff.mp h
    exact hg.found (Phrase.wording_operand ha) s hs
  · exact ⟨hs, fun _ e => nomatch e⟩

theorem readPattern : legible.holds g.readPattern Node.Legible := by
  refine of_ofNode fun s hs => ?_
  rw [Phrase.pattern_run]
  split
  · rename_i n _ h
    refine ⟨hs.passed, fun _ e => Except.ok.inj e ▸ Found.legible_ofNode ?_⟩
    exact legible_atomicPattern (hs.next (Phrase.isEnd_of_atomicPattern h)) h
  · rename_i a h
    obtain ⟨r, -, ha⟩ := Option.bind_eq_some_iff.mp h
    exact hg.found (Phrase.wording_pattern ha) s hs
  · exact ⟨hs, fun _ e => nomatch e⟩

theorem plainStatement (settings : Settings) :
    legible.holds (g.plainStatement settings) Node.Legible := by
  refine of_ofNode ?_
  rw [Phrase.plainStatement_eq]
  refine legible.bind legible_peek fun t _ => ?_
  split
  · rename_i a h
    obtain ⟨r, -, ha⟩ := Option.bind_eq_some_iff.mp h
    exact hg.found (Phrase.wording_statement ha)
  · exact hg.found Phrase.wording_expressionStmt

omit hg in
/-- A left operand with a tail is legible as they are, where behind an operator its spelling has
been found. -/
theorem legible_extended (known : String → Bool) (span : Span) {m : Level} {left : Node} {f : Found}
    (hl : left.Legible) (hf : f.Legible)
    (named : f.attributes.texts ≠ [] ∨ m = .conditional ∨ m = .postfixed) :
    (Node.extended known span m left f).Legible := by
  have slots : ∀ s ∈ f.slots, ∀ n ∈ s.toList, n.Legible :=
    fun s hs n hn => hf.nodes n (Found.mem_nodes.mpr ⟨s, hs, hn⟩)
  have all : ∀ s ∈ .one left :: f.slots, ∀ n ∈ s.toList, n.Legible :=
    List.forall_mem_cons.mpr ⟨List.forall_mem_singleton.mpr hl, slots⟩
  unfold Node.extended
  split
  · exact Node.legible_bare rfl rfl all
  · split
    · rename_i x is
      split
      · refine Node.legible_mk.mpr ⟨⟨?_, rfl⟩, slots⟩
        exact List.forall_mem_singleton.mpr (Node.legible_identifier hl is)
      · exact Node.legible_bare rfl rfl all
    · exact Node.legible_bare rfl rfl all
  · rename_i conditional postfixed
    refine Node.legible_mk.mpr ⟨⟨List.forall_mem_singleton.mpr (hf.attributes.name ?_), rfl⟩, all⟩
    rcases named with some | is | is
    · exact some
    · exact absurd is conditional
    · exact absurd is postfixed

theorem extendUpTo (l : Level) (fuel : Nat) {left : Node} (hl : left.Legible) :
    legible.holds (g.extendUpTo l fuel left) Node.Legible := by
  induction fuel generalizing left with
  | zero => exact legible_throw _
  | succ fuel ih =>
    intro s hs
    have stay : s.Legible ∧ ∀ n, (.ok left : Except Fault Node) = .ok n → n.Legible :=
      ⟨hs, fun _ e => Except.ok.inj e ▸ hl⟩
    rw [Phrase.extendUpTo_run]
    split
    · rename_i m a h
      obtain ⟨r, -, ha⟩ := Option.bind_eq_some_iff.mp h
      split
      · have tail : legible.holds (peek >>= fun start => a.read g >>= extend m left start)
            Node.Legible := by
          refine legible.bind legible_peek fun start _ =>
            legible.bind (hg.read (Phrase.wording_tail ha)) fun f hf => ?_
          have stop : legible.holds (tailStop m start f) fun _ => True := by
            unfold tailStop
            split
            · exact legible.map (legible_spanFrom start) fun _ _ => trivial
            · exact legible.pure trivial
          refine legible.bind stop fun stop _ => legible.bind legible_get fun s _ => ?_
          have made := legible_extended s.unit.registry.contains ⟨left.span.start, stop⟩ hl hf.1
            ((Phrase.naming_tail ha).imp_left hf.2)
          exact legible.bind (legible_announce made) fun _ _ => legible.pure made
        exact legible.bind tail (fun n hn => ih hn) s hs
      · exact stay
    · exact stay

theorem readExpression (l : Level) : legible.holds (g.readExpression l) Node.Legible :=
  legible.bind hg.operand fun _ hn => legible.bind legible_get fun _ _ => hg.extendUpTo l _ hn

end Nonterminals.Legible

end GlyphScript
