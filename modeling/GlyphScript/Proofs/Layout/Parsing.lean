import GlyphScript.Proofs.Layout.Expansion
import GlyphScript.Proofs.Parsing.Conduct.Program

/-!
# Parsing what stands elsewhere

No parser looks at the places of its tokens: tokens that are the same words are
read as trees that are alike. So are the texts of expansions, which are written
out from trees that are alike.
-/

namespace GlyphScript

/-! ## Tokens -/

/-- The same word, wherever it stands. -/
def Token.Alike (t t' : Token) : Prop := t.word = t'.word

namespace Token.Alike

variable {t t' : Token}

theorem kind (h : t.Alike t') : t.kind = t'.kind := congrArg Prod.fst h

theorem lexeme (h : t.Alike t') : t.lexeme = t'.lexeme := congrArg Prod.snd h

theorem unplaced (h : t.Alike t') : t.unplaced = t'.unplaced := by
  rw [Token.unplaced, Token.unplaced, h.kind, h.lexeme]

theorem isEnd (h : t.Alike t') : t.isEnd = t'.isEnd := by
  rw [Token.isEnd, Token.isEnd, h.kind]

theorem isReserved (h : t.Alike t') : t.isReserved = t'.isReserved := by
  funext r
  rw [Token.isReserved, Token.isReserved, h.kind]

theorem reserved? (h : t.Alike t') : t.reserved? = t'.reserved? := by
  rw [Token.reserved?, Token.reserved?, h.kind]

theorem atom? (h : t.Alike t') :
    Option.Rel Node.Alike (Nonterminals.atom? t) (Nonterminals.atom? t') := by
  unfold Nonterminals.atom?
  rw [h.kind, h.lexeme]
  split
  all_goals first | exact .none | exact .some (.mk .nil)

theorem atomicPattern? (h : t.Alike t') :
    Option.Rel Node.Alike (Nonterminals.atomicPattern? t) (Nonterminals.atomicPattern? t') := by
  unfold Nonterminals.atomicPattern?
  rw [h.kind, h.lexeme]
  split
  all_goals first | exact .none | exact .some (.mk .nil)

end Token.Alike

/-- Identifiers are the same, wherever they stand. -/
theorem identifierNames_alike {tokens tokens' : List Token}
    (h : List.Forall₂ Token.Alike tokens tokens') :
    identifierNames tokens = identifierNames tokens' := by
  have names : (tokens.filter (·.kind = .identifier)).map (·.lexeme) =
      (tokens'.filter (·.kind = .identifier)).map (·.lexeme) := by
    induction h with
    | nil => rfl
    | cons first _ ih =>
      rw [List.filter_cons, List.filter_cons, first.kind]
      split
      · rw [List.map_cons, List.map_cons, first.lexeme, ih]
      · exact ih
  rw [identifierNames, identifierNames, names]

/-- Texts that are the same words are divided into them. -/
theorem Work.tokens_alike {source source' file file' : String}
    (h : Except.Corresponds (fun f f' => f.unplaced = f'.unplaced) (List.Forall₂ Token.Alike)
      (tokenize source file) (tokenize source' file')) :
    working.rel (List.Forall₂ Token.Alike) (tokens source file) (tokens source' file') := by
  unfold tokens
  generalize tokenize source file = x, tokenize source' file' = x' at h
  cases h with
  | ok same => exact working.bind (report_alike _ _) fun _ _ _ => working.pure same
  | error same => exact throw_alike (congrArg Fault.lex same)

/-- Open constructs that were opened by the same words. -/
structure Frame.Alike (f f' : Frame) : Prop where
  construct : f.construct = f'.construct
  opener : f.opener.Alike f'.opener

theorem closingFault?_alike {f f' : Frame} (hf : f.Alike f') {t t' : Token} (h : t.Alike t') :
    Option.Rel (fun e e' => e.unplaced = e'.unplaced) (Frames.closingFault? f t)
      (Frames.closingFault? f' t') := by
  unfold Frames.closingFault?
  rw [hf.construct, h.isReserved, h.isEnd, h.reserved?]
  dsimp only
  split
  · exact .none
  · split
    · exact .some (by simp [ParseFault.unplaced, h.unplaced])
    · split
      · exact .some (by simp [ParseFault.unplaced, h.unplaced, hf.opener.unplaced])
      · exact .some (by simp [ParseFault.unplaced, h.unplaced])

/-! ## States -/

/-- Parsers that have come as far in texts of the same words. -/
structure ParserState.Alike (s s' : ParserState) : Prop where
  unit : s.unit.Alike s'.unit
  rest : List.Forall₂ Token.Alike s.rest s'.rest
  frames : List.Forall₂ Frame.Alike s.frames s'.frames
  scopes : s.scopes = s'.scopes
  pending : s.pending = s'.pending

namespace ParserState.Alike

variable {s s' : ParserState}

theorem next (h : s.Alike s') : s.next.Alike s'.next := by
  have rest := h.rest
  unfold ParserState.next
  generalize s.rest = ts, s'.rest = ts' at rest
  cases rest with
  | nil => rfl
  | cons first _ => exact first

theorem passed (h : s.Alike s') : (Parser.passed s).Alike (Parser.passed s') := by
  refine ⟨h.unit, ?_, h.frames, h.scopes, h.pending⟩
  have rest := h.rest
  show List.Forall₂ _ s.rest.tail s'.rest.tail
  generalize s.rest = ts, s'.rest = ts' at rest
  cases rest with
  | nil => exact .nil
  | cons _ rest => exact rest

theorem start {u u' : UnitState} (hu : u.Alike u') {tokens tokens' : List Token}
    (h : List.Forall₂ Token.Alike tokens tokens') :
    (ParserState.start u tokens).Alike (ParserState.start u' tokens') :=
  ⟨hu, h, .nil, rfl, rfl⟩

end ParserState.Alike

/-- Parsers that read the same from texts of the same words. -/
def parsing : Correspondence Parser := .run Fault.Alike ParserState.Alike

namespace Parser

variable {α β : Type} {R : α → β → Prop}

theorem parsing_get : parsing.rel ParserState.Alike (get : Parser ParserState) get :=
  fun _ _ h => ⟨.ok h, h⟩

theorem parsing_modify {f f' : ParserState → ParserState}
    (h : ∀ s s', s.Alike s' → (f s).Alike (f' s')) :
    parsing.rel (fun _ _ => True) (modify f : Parser Unit) (modify f') :=
  fun s s' hs => ⟨.ok trivial, h s s' hs⟩

theorem parsing_throw {f f' : Fault} (h : f.Alike f') :
    parsing.rel R (throw f : Parser α) (throw f' : Parser β) := fun _ _ hs => ⟨.error h, hs⟩

theorem ofWork_alike {w : Work α} {w' : Work β} (h : working.rel R w w') :
    parsing.rel R (ofWork w) (ofWork w') := by
  intro s s' hs
  obtain ⟨result, unit⟩ := h _ _ hs.unit
  exact ⟨result, unit, hs.rest, hs.frames, hs.scopes, hs.pending⟩

theorem peek_alike : parsing.rel Token.Alike peek peek := fun _ _ h => ⟨.ok h.next, h⟩

theorem advance_alike : parsing.rel Token.Alike advance advance := by
  intro s s' h
  rw [advance_run, advance_run, h.next.isEnd]
  refine ⟨.ok h.next, ?_⟩
  show ParserState.Alike (if _ then _ else _) (if _ then _ else _)
  split
  · exact h
  · exact h.passed

theorem check_alike (r : Reserved) : parsing.rel Eq (check r) (check r) :=
  fun _ _ h => ⟨.ok (by rw [h.next.isReserved]), h⟩

theorem atEnd_alike : parsing.rel Eq atEnd atEnd :=
  fun _ _ h => ⟨.ok (by rw [h.next.isEnd]), h⟩

theorem unwanted_alike {s s' : ParserState} (h : s.Alike s') (expected : Expected) :
    (unwanted expected s).Alike (unwanted expected s') := by
  unfold unwanted
  rw [h.next.isEnd]
  split <;> simp [Fault.Alike, Fault.unplaced, ParseFault.unplaced, h.next.unplaced]

theorem failExpecting_alike (expected : Expected) :
    parsing.rel R (failExpecting expected : Parser α) (failExpecting expected : Parser β) := by
  intro s s' h
  rw [failExpecting_run, failExpecting_run]
  exact ⟨.error (unwanted_alike h expected), h⟩

theorem consume_alike (r : Reserved) : parsing.rel Token.Alike (consume r) (consume r) := by
  intro s s' h
  rw [consume_run, consume_run, h.next.isReserved]
  split
  · exact ⟨.ok h.next, h.passed⟩
  · exact ⟨.error (unwanted_alike h _), h⟩

theorem accept_alike (r : Reserved) : parsing.rel Eq (accept r) (accept r) := by
  intro s s' h
  rw [accept_run, accept_run, h.next.isReserved]
  split
  · exact ⟨.ok rfl, h.passed⟩
  · exact ⟨.ok rfl, h⟩

theorem consumeName_alike (what : String) :
    parsing.rel Eq (consumeName what) (consumeName what) := by
  intro s s' h
  rw [consumeName_run, consumeName_run, h.next.kind, h.next.lexeme]
  split
  · exact ⟨.ok rfl, h.passed⟩
  · exact ⟨.error (unwanted_alike h _), h⟩

theorem spanFrom_alike (t t' : Token) :
    parsing.rel (fun _ _ => True) (spanFrom t) (spanFrom t') :=
  fun _ _ h => ⟨.ok trivial, h⟩

theorem checkBinding_alike : parsing.rel Eq checkBinding checkBinding := by
  intro s s' h
  rw [checkBinding_run, checkBinding_run]
  refine ⟨.ok ?_, h⟩
  have rest := h.rest
  generalize s.rest = ts, s'.rest = ts' at rest
  rcases rest with _ | ⟨name, _ | ⟨mark, _⟩⟩
  · rfl
  · rfl
  · dsimp only
    rw [name.kind, mark.isReserved]

theorem repeatUpTo_alike {test : Parser Bool} {item : Parser α} {item' : Parser β}
    (ht : parsing.rel Eq test test) (h : parsing.rel R item item') (fuel : Nat) :
    parsing.rel (List.Forall₂ R) (repeatUpTo test item fuel) (repeatUpTo test item' fuel) := by
  induction fuel with
  | zero => exact parsing_throw (.refl _)
  | succ fuel ih =>
    refine parsing.bind ht fun b b' same => ?_
    subst same
    cases b
    · exact parsing.pure .nil
    · exact parsing.bind h fun a a' ha => parsing.bind ih fun as as' has =>
        parsing.pure (.cons ha has)

theorem repeatWhile_alike {test : Parser Bool} {item : Parser α} {item' : Parser β}
    (ht : parsing.rel Eq test test) (h : parsing.rel R item item') :
    parsing.rel (List.Forall₂ R) (repeatWhile test item) (repeatWhile test item') := by
  refine parsing.bind parsing_get fun s s' hs => ?_
  rw [hs.rest.length_eq]
  exact repeatUpTo_alike ht h _

/-! ## Constructs and scopes -/

theorem openConstruct_alike (c : Construct) :
    parsing.rel Token.Alike (openConstruct c) (openConstruct c) := by
  refine parsing.bind (consume_alike _) fun t t' ht => ?_
  refine parsing.bind (parsing_modify fun s s' h => ?_) fun _ _ _ => parsing.pure ht
  exact ⟨h.unit, h.rest, .cons ⟨rfl, ht⟩ h.frames, h.scopes, h.pending⟩

theorem closeConstruct_alike : parsing.rel (fun _ _ => True) closeConstruct closeConstruct := by
  intro s s' h
  rw [closeConstruct_run, closeConstruct_run]
  have frames := h.frames
  generalize hf : s.frames = fs, hf' : s'.frames = fs' at frames
  cases frames with
  | nil => exact ⟨.error (.refl _), h⟩
  | cons frame frames =>
    have fault := closingFault?_alike frame h.next
    dsimp only
    generalize Frames.closingFault? _ s.next = o, Frames.closingFault? _ s'.next = o' at fault
    cases fault with
    | none =>
      exact ⟨.ok trivial, ParserState.Alike.passed ⟨h.unit, h.rest, frames, h.scopes, h.pending⟩⟩
    | some same => exact ⟨.error (congrArg Fault.parse same), h⟩

theorem openScope_alike : parsing.rel (fun _ _ => True) openScope openScope :=
  parsing_modify fun _ _ h => ⟨h.unit, h.rest, h.frames, by rw [h.scopes], h.pending⟩

theorem closeScope_alike : parsing.rel Eq closeScope closeScope := by
  intro s s' h
  rw [closeScope_run, closeScope_run, h.scopes]
  split
  · exact ⟨.ok rfl, h.unit, h.rest, h.frames, rfl, h.pending⟩
  · exact ⟨.error (.refl _), h⟩

theorem inject_alike (names : List String) :
    parsing.rel (fun _ _ => True) (inject names) (inject names) := by
  refine parsing_modify fun s s' h => ?_
  rw [← h.scopes]
  split
  · exact ⟨h.unit, h.rest, h.frames, rfl, h.pending⟩
  · exact h

theorem isExpandedHere_alike {r r' : Registry} (h : r.Alike r') (name : String) :
    isExpandedHere r name = isExpandedHere r' name := by
  have found := h.find? name
  unfold isExpandedHere
  generalize r.find? name = o, r'.find? name = o' at found
  cases found with
  | none => rfl
  | some d => simp [d.phase]

theorem announce_alike {n n' : Node} (h : n.Alike n') :
    parsing.rel (fun _ _ => True) (announce n) (announce n') := by
  have definition := Work.ofNode?_alike h
  unfold announce
  rw [h.head]
  split
  · generalize MacroDefinition.ofNode? n = o, MacroDefinition.ofNode? n' = o' at definition
    cases definition with
    | none => exact parsing.pure trivial
    | some d => exact ofWork_alike (Work.register_alike d)
  · refine parsing.bind parsing_get fun s s' hs => ?_
    rw [isExpandedHere_alike hs.unit.registry]
    split
    · exact parsing_modify fun _ _ h => ⟨h.unit, h.rest, h.frames, h.scopes, by rw [h.pending]⟩
    · exact parsing.pure trivial
  · exact parsing.pure trivial

end Parser

open GlyphScript.Parser

/-! ## Phrases -/

/-- The same found, wherever it stands. -/
def Found.Alike (f f' : Found) : Prop := f.unplaced = f'.unplaced

namespace Found.Alike

variable {f f' k k' : Found}

theorem append (h : f.Alike f') (hk : k.Alike k') : (f ++ k).Alike (f' ++ k') := by
  rw [Found.Alike, unplaced_append, unplaced_append, show f.unplaced = f'.unplaced from h,
    show k.unplaced = k'.unplaced from hk]

theorem join {fs fs' : List Found} (h : List.Forall₂ Found.Alike fs fs') :
    (Found.join fs).Alike (Found.join fs') := by
  induction h with
  | nil => rfl
  | cons first _ ih => exact first.append ih

theorem attributes (h : f.Alike f') : f.attributes = f'.attributes :=
  show f.unplaced.attributes = f'.unplaced.attributes from congrArg Found.attributes h

theorem nodes (h : f.Alike f') : List.Forall₂ Node.Alike f.nodes f'.nodes := by
  rw [← Node.Alike.lists_iff, ← nodes_unplaced, ← nodes_unplaced,
    show f.unplaced = f'.unplaced from h]

theorem slots (h : f.Alike f') : List.Forall₂ (Slot.Rel Node.Alike) f.slots f'.slots :=
  Node.Alike.slots_iff.mp (congrArg Found.slots h)

theorem ofNode {n n' : Node} (h : n.Alike n') : (Found.ofNode n).Alike (Found.ofNode n') := by
  rw [Found.Alike, unplaced_ofNode, unplaced_ofNode, show n.unplaced = n'.unplaced from h]

theorem ofNodes {ns ns' : List Node} (h : List.Forall₂ Node.Alike ns ns') :
    (Found.ofNodes ns).Alike (Found.ofNodes ns') := by
  rw [Found.Alike, unplaced_ofNodes, unplaced_ofNodes, Node.Alike.lists_iff.mpr h]

theorem gathered (h : f.Alike f') : f.gathered.Alike f'.gathered := by
  have same : f.unplaced.gathered = f'.unplaced.gathered := congrArg Found.gathered h
  exact same

theorem listed (h : f.Alike f') : f.listed.Alike f'.listed := by
  rw [Found.Alike, unplaced_listed, unplaced_listed, show f.unplaced = f'.unplaced from h]

/-- The arms of a conditional. -/
theorem ofArms (h : f.Alike f') (span span' : Span) :
    (Node.ofArms span f.places f.slots).Alike (Node.ofArms span' f'.places f'.slots) := by
  rw [Node.Alike, Node.ofArms_unplaced, Node.ofArms_unplaced]
  exact congrArg (fun f : Found => Node.ofArms default f.places f.slots) h

theorem extended {r r' : Registry} (hr : r.Alike r') (h : f.Alike f') {left left' : Node}
    (hl : left.Alike left') (m : Level) (span span' : Span) :
    (Node.extended r.contains span m left f).Alike (Node.extended r'.contains span' m left' f') := by
  rw [Node.Alike, unplaced_extended, unplaced_extended, hr.contains,
    show left.unplaced = left'.unplaced from hl, show f.unplaced = f'.unplaced from h]

end Found.Alike

/-- Nonterminals that read the same from texts of the same words. -/
structure Nonterminals.Alike (g g' : Nonterminals) : Prop where
  expression : ∀ l, parsing.rel Node.Alike (g.expression l) (g'.expression l)
  statement : parsing.rel (List.Forall₂ Node.Alike) g.statement g'.statement
  pattern : parsing.rel Node.Alike g.pattern g'.pattern

namespace Nonterminals.Alike

variable {g g' : Nonterminals} (hg : g.Alike g')

theorem atBodyEnd : parsing.rel Eq atBodyEnd atBodyEnd :=
  parsing.bind peek_alike fun t t' h => parsing.pure (by rw [h.isEnd, h.reserved?])

include hg

theorem wellFormedPattern : parsing.rel Node.Alike g.wellFormedPattern g'.wellFormedPattern := by
  refine parsing.bind hg.pattern fun p p' h => ?_
  have flaw := h.patternFlaw?
  rcases hp : p.patternFlaw? with _ | ⟨f, span⟩ <;>
    rcases hp' : p'.patternFlaw? with _ | ⟨f', span'⟩ <;> rw [hp, hp'] at flaw
  · exact parsing.pure h
  · cases flaw
  · cases flaw
  · cases flaw
    exact parsing_throw rfl

theorem body : parsing.rel Node.Alike g.body g'.body := by
  refine parsing.bind (openConstruct_alike _) fun t t' _ => ?_
  refine parsing.bind openScope_alike fun _ _ _ => ?_
  have ends : parsing.rel Eq (not <$> Nonterminals.atBodyEnd) (not <$> Nonterminals.atBodyEnd) :=
    parsing.map atBodyEnd fun _ _ h => congrArg not h
  refine parsing.bind (repeatWhile_alike ends hg.statement) fun nss nss' h => ?_
  refine parsing.bind closeConstruct_alike fun _ _ _ => ?_
  refine parsing.bind closeScope_alike fun injected injected' same => ?_
  refine parsing.bind (spanFrom_alike t t') fun span span' _ => ?_
  subst same
  exact parsing.pure (.mk (.cons (.many (List.rel_flatten h)) .nil))

theorem part (n : Nonterminal) : parsing.rel Found.Alike (n.read g) (n.read g') := by
  cases n with
  | expression l => exact parsing.map (hg.expression l) fun _ _ h => .ofNode h
  | pattern => exact parsing.map hg.pattern fun _ _ h => .ofNode h
  | binding => exact parsing.map hg.wellFormedPattern fun _ _ h => .ofNode h
  | body => exact parsing.map hg.body fun _ _ h => .ofNode h
  | statement => exact parsing.map hg.statement fun _ _ h => .ofNodes h
  | statements =>
    have ends : parsing.rel Eq (not <$> Nonterminals.atBodyEnd) (not <$> Nonterminals.atBodyEnd) :=
      parsing.map atBodyEnd fun _ _ h => congrArg not h
    exact parsing.map (repeatWhile_alike ends hg.statement) fun _ _ h => .ofNodes (List.rel_flatten h)

theorem read (a : Phrase) : parsing.rel Found.Alike (a.read g) (a.read g') := by
  induction a with
  | give f => exact parsing.pure rfl
  | place => exact parsing.bind peek_alike fun _ _ _ => parsing.pure rfl
  | mark r =>
    rw [Phrase.read, Phrase.read, discard_bind]
    exact parsing.bind (consume_alike r) fun _ _ _ => parsing.pure rfl
  | kept r =>
    rw [Phrase.read, Phrase.read, discard_bind]
    exact parsing.bind (consume_alike r) fun _ _ _ => parsing.pure rfl
  | spelled r =>
    exact parsing.bind (consume_alike r) fun _ _ h => parsing.pure (by rw [h.lexeme]; rfl)
  | name what =>
    exact parsing.bind (consumeName_alike what) fun _ _ h => parsing.pure (by rw [h]; rfl)
  | part n => exact hg.part n
  | fail what => exact failExpecting_alike _
  | seq a b iha ihb =>
    exact parsing.bind iha fun f f' h => parsing.bind ihb fun k k' hk =>
      parsing.pure (h.append hk)
  | either r a b iha ihb =>
    refine parsing.bind (check_alike r) fun c c' same => ?_
    subst same
    cases c
    · exact ihb
    · exact iha
  | ahead a b iha ihb =>
    refine parsing.bind checkBinding_alike fun c c' same => ?_
    subst same
    cases c
    · exact ihb
    · exact iha
  | star r a ih =>
    exact parsing.map (repeatWhile_alike (check_alike r) ih) fun _ _ h => .join h
  | gather a ih => exact parsing.map ih fun _ _ h => h.gathered
  | list a ih => exact parsing.map ih fun _ _ h => h.listed
  | demand a what ih =>
    refine parsing.bind ih fun f f' h => ?_
    have empty : f.nodes.isEmpty = f'.nodes.isEmpty := by
      have nodes := h.nodes
      generalize f.nodes = ns, f'.nodes = ns' at nodes
      cases nodes <;> rfl
    rw [empty]
    split
    · exact parsing.bind (failExpecting_alike (R := fun _ _ => True) _) fun _ _ _ => parsing.pure h
    · exact parsing.pure h
  | node head a ih =>
    rw [Phrase.read_node, Phrase.read_node]
    refine parsing.bind peek_alike fun start start' _ => ?_
    refine parsing.bind ih fun f f' h => ?_
    refine parsing.bind (spanFrom_alike start start') fun span span' _ => ?_
    rw [h.attributes]
    have made : (Node.mk span (head f'.attributes) f.slots).Alike (.mk span' _ f'.slots) :=
      .mk h.slots
    exact parsing.bind (announce_alike made) fun _ _ _ => parsing.pure (.ofNode made)
  | chain a ih =>
    rw [Phrase.read_chain, Phrase.read_chain]
    refine parsing.bind peek_alike fun start start' _ => ?_
    refine parsing.bind ih fun f f' h => ?_
    exact parsing.bind (spanFrom_alike start start') fun span span' _ =>
      parsing.pure (.ofNode (h.ofArms span span'))
  | construct c a ih =>
    rw [Phrase.read, Phrase.read, discard_bind, discard_bind]
    refine parsing.bind (openConstruct_alike c) fun _ _ _ => ?_
    exact parsing.bind ih fun f f' h => parsing.bind closeConstruct_alike fun _ _ _ =>
      parsing.pure h

/-! ## What the phrases make up -/

omit hg in
theorem extend (m : Level) {left left' : Node} (hl : left.Alike left') {start start' : Token}
    {f f' : Found} (h : f.Alike f') :
    parsing.rel Node.Alike (extend m left start f) (Parser.extend m left' start' f') := by
  have stop : parsing.rel (fun _ _ => True) (tailStop m start f) (tailStop m start' f') := by
    unfold tailStop
    split
    · exact parsing.map (spanFrom_alike _ _) fun _ _ _ => trivial
    · exact parsing.pure trivial
  refine parsing.bind stop fun l l' _ => parsing.bind parsing_get fun s s' hs => ?_
  have made := h.extended hs.unit.registry hl m ⟨left.span.start, l⟩ ⟨left'.span.start, l'⟩
  exact parsing.bind (announce_alike made) fun _ _ _ => parsing.pure made

omit hg in
/-- What reads the same phrase reads the same node. -/
theorem of_ofNode {x y : Parser Node}
    (h : parsing.rel Found.Alike (Found.ofNode <$> x) (Found.ofNode <$> y)) :
    parsing.rel Node.Alike x y := by
  intro s s' hs
  have found := h s s' hs
  rw [run_map, run_map] at found
  revert found
  rcases x s with ⟨_ | n, t⟩ <;> rcases y s' with ⟨_ | n', t'⟩ <;> rintro ⟨result, state⟩ <;>
    cases result
  · exact ⟨.error ‹_›, state⟩
  · rename_i h
    exact ⟨.ok (Found.ofNode_inj (by simpa [Found.Alike] using h)), state⟩

theorem operand : parsing.rel Node.Alike g.operand g'.operand := by
  refine of_ofNode fun s s' hs => ?_
  rw [Phrase.operand_run, Phrase.operand_run, hs.next.reserved?]
  have atom := hs.next.atom?
  generalize atom? s.next = o, atom? s'.next = o' at atom
  cases atom with
  | some h => exact ⟨.ok (.ofNode h), hs.passed⟩
  | none =>
    cases s'.next.reserved?.bind Phrase.operand? with
    | none => exact ⟨.error (unwanted_alike hs _), hs⟩
    | some a => exact hg.read a s s' hs

theorem extendUpTo (l : Level) (fuel : Nat) {left left' : Node} (hl : left.Alike left') :
    parsing.rel Node.Alike (g.extendUpTo l fuel left) (g'.extendUpTo l fuel left') := by
  induction fuel generalizing left left' with
  | zero => exact parsing_throw (.refl _)
  | succ fuel ih =>
    intro s s' hs
    rw [Phrase.extendUpTo_run, Phrase.extendUpTo_run, hs.next.reserved?]
    cases s'.next.reserved?.bind Phrase.tail? with
    | none => exact ⟨.ok hl, hs⟩
    | some t =>
      obtain ⟨m, a⟩ := t
      dsimp only
      split
      · have tail : parsing.rel Node.Alike
            (peek >>= fun start => a.read g >>= Parser.extend m left start)
            (peek >>= fun start => a.read g' >>= Parser.extend m left' start) :=
          parsing.bind peek_alike fun _ _ _ => parsing.bind (hg.read a) fun _ _ h => extend m hl h
        exact parsing.bind tail (fun _ _ h => ih h) s s' hs
      · exact ⟨.ok hl, hs⟩

theorem readExpression (l : Level) :
    parsing.rel Node.Alike (g.readExpression l) (g'.readExpression l) := by
  refine parsing.bind hg.operand fun left left' hl => ?_
  refine parsing.bind parsing_get fun s s' hs => ?_
  rw [hs.rest.length_eq]
  exact hg.extendUpTo l _ hl

theorem readPattern : parsing.rel Node.Alike g.readPattern g'.readPattern := by
  refine of_ofNode fun s s' hs => ?_
  rw [Phrase.pattern_run, Phrase.pattern_run, hs.next.reserved?]
  have atom := hs.next.atomicPattern?
  generalize atomicPattern? s.next = o, atomicPattern? s'.next = o' at atom
  cases atom with
  | some h => exact ⟨.ok (.ofNode h), hs.passed⟩
  | none =>
    cases s'.next.reserved?.bind Phrase.pattern? with
    | some a => exact hg.read a s s' hs
    | none =>
      refine ⟨.error ?_, hs⟩
      rw [hs.next.isEnd, hs.next.lexeme]
      split <;> simp [Fault.Alike, Fault.unplaced, ParseFault.unplaced, hs.next.unplaced]

theorem plainStatement (settings : Settings) :
    parsing.rel Node.Alike (g.plainStatement settings) (g'.plainStatement settings) := by
  refine of_ofNode ?_
  rw [Phrase.plainStatement_eq, Phrase.plainStatement_eq]
  refine parsing.bind peek_alike fun t t' h => ?_
  rw [h.reserved?]
  split <;> exact hg.read _

end Nonterminals.Alike

/-! ## Texts of expansions -/

/-- Ways to read the texts of expansions that read the same from the same text. -/
structure Rereading.Alike (r r' : Rereading) : Prop where
  expression : ∀ c c' text, MacroCall.Alike c c' →
    parsing.rel Node.Alike (r.expression c text) (r'.expression c' text)
  statements : ∀ c c' text, MacroCall.Alike c c' →
    parsing.rel (List.Forall₂ Node.Alike) (r.statements c text) (r'.statements c' text)

namespace Rereading

variable {r r' : Rereading} {c c' : MacroCall} {n n' : Node}

/-- Trees that are alike are written out as the same text. -/
theorem textOf_alike (h : n.Alike n') : parsing.rel Eq (textOf n) (textOf n') := by
  unfold textOf
  rw [h.source]
  split
  · exact parsing.pure rfl
  · exact parsing_throw (.refl _)

theorem expandHere_alike (h : c.Alike c') :
    parsing.rel Expansion.Alike (expandHere c) (expandHere c') := by
  refine parsing.bind (ofWork_alike (Work.expandCall_alike h)) fun e e' he => ?_
  rw [he.injected]
  exact parsing.bind (inject_alike _) fun _ _ _ => parsing.pure he

theorem callHere?_alike {k k' : Registry} (hk : k.Alike k') (h : n.Alike n') :
    Option.Rel MacroCall.Alike (callHere? k n) (callHere? k' n') := by
  have call := MacroCall.ofNode?_alike h
  unfold callHere?
  generalize MacroCall.ofNode? n = o, MacroCall.ofNode? n' = o' at call
  cases call with
  | none => exact .none
  | some hc =>
    rw [Option.filter_some, Option.filter_some, isExpandedHere_alike hk, hc.name]
    split
    · exact .some hc
    · exact .none

theorem callStatement?_alike {k k' : Registry} (hk : k.Alike k') (h : n.Alike n') :
    Option.Rel MacroCall.Alike (callStatement? k n) (callStatement? k' n') := by
  obtain ⟨span, head, slots⟩ := n
  obtain ⟨span', head', slots'⟩ := n'
  obtain rfl : head = head' := h.head
  have rel : List.Forall₂ (Slot.Rel Node.Alike) slots slots' := h.slots
  cases head
  case expressionStmt =>
    rcases rel with _ | ⟨⟨⟩ | ⟨e⟩ | ⟨_⟩, _ | ⟨_, _⟩⟩
    case cons.one.nil => exact callHere?_alike hk e
    all_goals exact .none
  all_goals exact .none

namespace Alike

variable (hr : r.Alike r')

include hr

theorem replaceExpression (h : c.Alike c') :
    parsing.rel Node.Alike (r.replaceExpression c) (r'.replaceExpression c') := by
  refine parsing.bind (expandHere_alike h) fun e e' he => ?_
  refine parsing.bind (ofWork_alike (Work.ofExpansion_alike (he.asExpression h)))
    fun n n' hn => ?_
  refine parsing.bind (textOf_alike hn) fun text text' same => ?_
  subst same
  exact hr.expression c c' text h

theorem replaceStatement (h : c.Alike c') (span span' : Span) :
    parsing.rel (List.Forall₂ Node.Alike) (r.replaceStatement c span)
      (r'.replaceStatement c' span') := by
  refine parsing.bind (expandHere_alike h) fun e e' he => ?_
  have program : (Node.program span (e.asStatements span) []).Alike
      (Node.program span' (e'.asStatements span') []) :=
    .mk (.cons (.many (he.asStatements span span')) .nil)
  refine parsing.bind (textOf_alike program) fun text text' same => ?_
  subst same
  exact hr.statements c c' text h

theorem enter (h : n.Alike n') :
    parsing.rel (Step.Corresponds (Slot.Rel Node.Alike)) (r.enter n) (r'.enter n') := by
  refine parsing.bind parsing_get fun s s' hs => ?_
  have statement := callStatement?_alike hs.unit.registry h
  have expression := callHere?_alike hs.unit.registry h
  dsimp only
  rw [h.head]
  split
  · exact parsing.pure (.done (.one h))
  · exact parsing.pure (.done (.one h))
  · generalize callStatement? s.unit.registry n = o, callStatement? s'.unit.registry n' = o'
      at statement
    generalize callHere? s.unit.registry n = p, callHere? s'.unit.registry n' = p' at expression
    cases statement with
    | some hc =>
      exact parsing.bind (hr.replaceStatement hc _ _) fun ns ns' hns =>
        parsing.pure (.done (.many hns))
    | none =>
      cases expression with
      | some hc =>
        exact parsing.bind (hr.replaceExpression hc) fun m m' hm =>
          parsing.pure (.done (.one hm))
      | none => exact parsing.pure .inside

theorem completed {read read' : Parser Node} (h : parsing.rel Node.Alike read read') :
    parsing.rel (Slot.Rel Node.Alike) (r.completed read) (r'.completed read') := by
  have counted (k : Nat) : parsing.rel (fun _ _ => True)
      (modify fun s : ParserState => { s with pending := k } : Parser Unit)
      (modify fun s => { s with pending := k }) :=
    parsing_modify fun _ _ h => ⟨h.unit, h.rest, h.frames, h.scopes, rfl⟩
  have replaced (n n' : Node) (hn : n.Alike n') : parsing.rel (Slot.Rel Node.Alike)
      (n.transformM r.transform ()) (n'.transformM r'.transform ()) :=
    parsing.transformM (N := Node.Alike) (R := Slot.Rel Node.Alike)
      (fun _ _ h => ⟨h.head, h.slots⟩) (fun _ _ _ _ _ h => .mk h) (fun _ _ _ h => hr.enter h)
      (fun _ _ _ h => parsing.pure (.one h)) (fun _ _ h => h) n () n' hn
  rw [completed_eq, completed_eq]
  refine parsing.bind parsing_get fun outer outer' ho => ?_
  refine parsing.bind (counted 0) fun _ _ _ => parsing.bind h fun n n' hn => ?_
  refine parsing.bind parsing_get fun s s' hs => ?_
  rw [hs.pending, ho.pending]
  refine parsing.bind (R := Slot.Rel Node.Alike) ?_ fun slot slot' hs => ?_
  · split
    · exact parsing.pure (.one hn)
    · exact replaced n n' hn
  · exact parsing.bind (counted _) fun _ _ _ => parsing.pure hs

end Alike

end Rereading

/-! ## Nonterminals at any depth -/

section

variable {r r' : Rereading} (hr : r.Alike r') (settings : Settings)

include hr

theorem Nonterminals.upTo_alike (depth : Nat) :
    (upTo settings r depth).Alike (upTo settings r' depth) := by
  induction depth with
  | zero => exact ⟨fun _ => parsing_throw (.refl _), parsing_throw (.refl _), parsing_throw (.refl _)⟩
  | succ depth ih =>
    refine ⟨fun l => ih.readExpression l, ?_, ih.readPattern⟩
    exact parsing.map (hr.completed (ih.plainStatement settings)) fun _ _ h => h.toList

theorem Nonterminals.here_alike :
    parsing.rel Nonterminals.Alike (here settings r) (here settings r') := by
  refine parsing.bind parsing_get fun s s' hs => ?_
  rw [hs.rest.length_eq]
  exact parsing.pure (upTo_alike hr settings _)

namespace Parser

theorem programWith_alike :
    parsing.rel Node.Alike (programWith settings r) (programWith settings r') := by
  refine parsing.bind (Nonterminals.here_alike hr settings) fun g g' hg => ?_
  refine parsing.bind parsing_get fun s s' _ => ?_
  refine parsing.bind openScope_alike fun _ _ _ => ?_
  have more : parsing.rel Eq (not <$> atEnd) (not <$> atEnd) :=
    parsing.map atEnd_alike fun _ _ h => congrArg not h
  have statement : parsing.rel (List.Forall₂ Node.Alike)
      (ofWork Work.checkpoint >>= fun _ => g.statement)
      (ofWork Work.checkpoint >>= fun _ => g'.statement) :=
    parsing.bind (ofWork_alike Work.checkpoint_alike) fun _ _ _ => hg.statement
  refine parsing.bind (repeatWhile_alike more statement) fun nss nss' h => ?_
  refine parsing.bind closeScope_alike fun injected injected' same => ?_
  subst same
  refine parsing.bind (ofWork_alike (Work.report_alike _ _)) fun _ _ _ => ?_
  exact parsing.pure (.mk (.cons (.many (List.rel_flatten h)) .nil))

theorem statementsWith_alike :
    parsing.rel (fun a a' => List.Forall₂ Node.Alike a.1 a'.1 ∧ a.2 = a'.2)
      (statementsWith settings r) (statementsWith settings r') := by
  refine parsing.bind (Nonterminals.here_alike hr settings) fun g g' hg => ?_
  refine parsing.bind openScope_alike fun _ _ _ => ?_
  have more : parsing.rel Eq (not <$> atEnd) (not <$> atEnd) :=
    parsing.map atEnd_alike fun _ _ h => congrArg not h
  refine parsing.bind (repeatWhile_alike more hg.statement) fun nss nss' h => ?_
  exact parsing.bind closeScope_alike fun injected injected' same =>
    parsing.pure ⟨List.rel_flatten h, same⟩

theorem expressionWith_alike :
    parsing.rel (fun a a' => a.1.Alike a'.1 ∧ a.2 = a'.2)
      (expressionWith settings r) (expressionWith settings r') := by
  refine parsing.bind (Nonterminals.here_alike hr settings) fun g g' hg => ?_
  refine parsing.bind openScope_alike fun _ _ _ => ?_
  have whole : parsing.rel Node.Alike (do
      let node ← g.anyExpression
      unless ← atEnd do throw (.parse (.expectedToken (.phrase "end of input") (← peek)))
      return node) (do
      let node ← g'.anyExpression
      unless ← atEnd do throw (.parse (.expectedToken (.phrase "end of input") (← peek)))
      return node) := by
    refine parsing.bind (hg.expression _) fun n n' hn => parsing.bind atEnd_alike fun b b' hb => ?_
    subst hb
    cases b
    · refine parsing.bind peek_alike fun t t' ht => ?_
      refine parsing.bind (R := fun _ _ => True) (parsing_throw ?_) fun _ _ _ => parsing.pure hn
      simp [Fault.Alike, Fault.unplaced, ParseFault.unplaced, ht.unplaced]
    · exact parsing.pure hn
  refine parsing.bind (hr.completed whole) fun slot slot' hs => ?_
  cases hs with
  | one hn =>
    exact parsing.bind closeScope_alike fun injected injected' same => parsing.pure ⟨hn, same⟩
  | absent => exact parsing_throw (.refl _)
  | many _ => exact parsing_throw (.refl _)

end Parser

end

namespace Parser

variable {α β : Type}

theorem within_alike {tokens tokens' : List Token} (ht : List.Forall₂ Token.Alike tokens tokens')
    {R : α → β → Prop} {p : Parser α} {p' : Parser β} (h : parsing.rel R p p') :
    parsing.rel R (within tokens p) (within tokens' p') := by
  intro s s' hs
  obtain ⟨result, inner⟩ := h _ _ (ParserState.Alike.start hs.unit ht)
  exact ⟨result, inner.unit, hs.rest, hs.frames, hs.scopes, hs.pending⟩

theorem reread_alike {c c' : MacroCall} (hc : c.Alike c') (depth : Nat) (text : String)
    {R : α → β → Prop} {p : Parser (α × List String)} {p' : Parser (β × List String)}
    (h : parsing.rel (fun a a' => R a.1 a'.1 ∧ a.2 = a'.2) p p') :
    parsing.rel R (reread c depth text p) (reread c' depth text p') := by
  have same (file : String) : Except.Corresponds (fun f f' => f.unplaced = f'.unplaced)
      (List.Forall₂ Token.Alike) (tokenize text file) (tokenize text file) := by
    cases tokenize text file with
    | ok tokens => exact .ok (List.forall₂_same.mpr fun t _ => Eq.refl t.word)
    | error fault => exact .error rfl
  refine parsing.bind (ofWork_alike (R := List.Forall₂ Token.Alike) ?_) fun tokens tokens' ht => ?_
  · rw [hc.name]
    refine working.bind (Work.tokens_alike (same _)) fun tokens tokens' ht => ?_
    refine working.bind (Work.modify_alike fun u u' hu => ?_) fun _ _ _ =>
      working.bind (Work.report_alike _ _) fun _ _ _ => working.pure ht
    refine ⟨hu.registry, ?_, hu.checks, hu.progress⟩
    rw [hu.gensym, identifierNames_alike ht]
  · refine parsing.bind (within_alike ht h) fun ⟨a, injected⟩ ⟨a', injected'⟩ ⟨found, same⟩ => ?_
    dsimp only at same ⊢
    subst same
    exact parsing.bind (inject_alike _) fun _ _ _ => parsing.pure found

end Parser

theorem Rereading.upTo_alike (settings : Settings) (remaining : Nat) :
    (upTo settings remaining).Alike (upTo settings remaining) := by
  induction remaining with
  | zero =>
    have same {c c' : MacroCall} (h : c.Alike c') : Fault.Alike
        (.expansion (.nonTermination c.name c.span settings.maxParseDepth .nesting))
        (.expansion (.nonTermination c'.name c'.span settings.maxParseDepth .nesting)) := by
      simp [Fault.Alike, Fault.unplaced, ExpansionFault.unplaced, h.name]
    exact ⟨fun c c' _ h => parsing_throw (same h), fun c c' _ h => parsing_throw (same h)⟩
  | succ remaining ih =>
    exact ⟨fun c c' text h => reread_alike h _ text (expressionWith_alike ih settings),
      fun c c' text h => reread_alike h _ text (statementsWith_alike ih settings)⟩

end GlyphScript
