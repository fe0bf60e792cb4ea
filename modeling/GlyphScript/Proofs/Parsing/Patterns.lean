import GlyphScript.Proofs.Macro.Clauses
import GlyphScript.Proofs.Parsing.Conduct.Program

/-!
# Patterns that are read

Every pattern that a clause starts with is checked when it is read, and the
names that are read are in use from the start. So what is read and what is
registered has valid patterns, in which no name is given out later on.
-/

namespace GlyphScript

open GlyphScript.Parser
open Node (ValidPattern)

/-- The names still to be read are in use, and the macros are known. -/
structure ParserState.Known (s : ParserState) : Prop where
  names : ∀ t ∈ s.rest, t.kind = .identifier → s.unit.gensym.isTaken t.lexeme = true
  macros : s.unit.registry.Known s.unit.gensym

namespace Gensym

theorem le_reserve (g : Gensym) (names : List String) : g ≤ g.reserve names :=
  fun _ h => isTaken_reserve.mpr (.inr h)

end Gensym

theorem mem_identifierNames {tokens : List Token} {x : String} :
    x ∈ (identifierNames tokens).toList ↔ ∃ t ∈ tokens, t.kind = .identifier ∧ t.lexeme = x := by
  simp [identifierNames, Std.TreeSet.mem_toList, Std.TreeSet.mem_ofList, and_assoc]

/-- What becomes known of the names in use while tokens are read. -/
def reading : Assurance Parser Gensym := .fallible (·.unit.gensym) ParserState.Known

section

variable {α β : Type} {g : Gensym} {x : Parser α} {post : Gensym → α → Prop}

theorem reading_of_run (unit : ∀ s, (x s).2.unit = s.unit) (rest : ∀ s, (x s).2.rest ⊆ s.rest)
    (made : ∀ s a, s.Known → (x s).1 = .ok a → post s.unit.gensym a) : reading.holds g x post := by
  intro s known _
  dsimp only
  rw [unit]
  exact ⟨le_refl _, ⟨fun t ht => by rw [unit]; exact known.names t (rest s ht),
    by rw [unit]; exact known.macros⟩, fun a => made s a known⟩

theorem reading_of_get {f : ParserState → Parser α} (h : ∀ s, reading.holds g (f s) post) :
    reading.holds g (get >>= f) post :=
  fun s => h s s

theorem reading_throw (f : Fault) : reading.holds g (throw f : Parser α) post :=
  reading_of_run (fun _ => rfl) (fun _ => List.Subset.refl _) (by rintro _ _ _ ⟨⟩)

theorem reading_ite {c : Prop} [Decidable c] {y : Parser α} (hx : reading.holds g x post)
    (hy : reading.holds g y post) : reading.holds g (if c then x else y) post := by
  split
  · exact hx
  · exact hy

theorem reading_trivial (h : reading.holds g x post) : reading.holds g x fun _ _ => True :=
  reading.mono h (fun _ _ _ _ => trivial) fun _ _ _ _ h => h

theorem reading_of_map {f : α → β} {post : Gensym → β → Prop} (h : reading.holds g (f <$> x) post) :
    reading.holds g x fun g a => post g (f a) := by
  intro s known le
  have := h s known le
  rw [run_map] at this
  rcases hx : x s with ⟨_ | a, s'⟩ <;> rw [hx] at this
  · exact ⟨this.1, this.2.1, by rintro _ ⟨⟩⟩
  · exact ⟨this.1, this.2.1, fun _ e => Except.ok.inj e ▸ this.2.2 _ rfl⟩

/-- Work that leaves the macros alone. -/
theorem reading_work {w : Work α} (h : ∀ r, (Work.course r).holds g w post) :
    reading.holds g (ofWork w) post := by
  intro s known le
  obtain ⟨later, registry, made⟩ := h s.unit.registry s.unit rfl le
  refine ⟨later, ⟨fun t ht ident => later _ (known.names t ht ident), ?_⟩, made⟩
  show (w s.unit).2.registry.Known _
  rw [show (w s.unit).2.registry = s.unit.registry from registry]
  exact known.macros.mono later

theorem reading_repeatUpTo {test : Parser Bool} {p : Gensym → α → Prop}
    (lasting : ∀ g g' a, g ≤ g' → p g a → p g' a)
    (ht : ∀ g, reading.holds g test fun _ _ => True) (hx : ∀ g, reading.holds g x p) (fuel : Nat) :
    reading.holds g (repeatUpTo test x fuel) fun g as => ∀ a ∈ as, p g a := by
  induction fuel generalizing g with
  | zero => exact reading_throw _
  | succ fuel ih =>
    rw [Parser.repeatUpTo_succ]
    refine reading.bind (ht g) fun g₁ b le₁ _ => ?_
    cases b
    · exact reading.pure fun _ _ _ h => (List.not_mem_nil h).elim
    · refine reading.bind (hx g₁) fun g₂ a le₂ ha => reading.bind ih fun g₃ as le₃ has => ?_
      refine reading.pure fun g₄ le₄ b hb => ?_
      rcases List.mem_cons.mp hb with rfl | hb
      · exact lasting _ _ _ (le_trans le₃ le₄) ha
      · exact lasting _ _ _ le₄ (has b hb)

theorem reading_repeatWhile {test : Parser Bool} {p : Gensym → α → Prop}
    (lasting : ∀ g g' a, g ≤ g' → p g a → p g' a)
    (ht : ∀ g, reading.holds g test fun _ _ => True) (hx : ∀ g, reading.holds g x p) :
    reading.holds g (repeatWhile test x) fun g as => ∀ a ∈ as, p g a :=
  reading_of_get fun _ => reading_repeatUpTo lasting ht hx _

end

/-! ## Tokens, constructs and scopes -/

theorem next_mem_rest {s : ParserState} (inner : s.next.isEnd = false) : s.next ∈ s.rest := by
  unfold ParserState.next at inner ⊢
  cases hr : s.rest with
  | nil =>
    rw [hr] at inner
    cases inner
  | cons t rest => exact List.mem_cons_self

theorem ParserState.Known.passed {s : ParserState} (known : s.Known) : (passed s).Known :=
  ⟨fun t ht => known.names t ((List.tail_sublist _).subset ht), known.macros⟩

section

variable {g : Gensym}

theorem reading_peek : reading.holds g peek fun _ _ => True :=
  reading_of_run (fun _ => rfl) (fun _ => List.Subset.refl _) fun _ _ _ _ => trivial

theorem reading_check (r : Reserved) : reading.holds g (check r) fun _ _ => True :=
  reading_of_run (fun _ => rfl) (fun _ => List.Subset.refl _) fun _ _ _ _ => trivial

theorem reading_checkBinding : reading.holds g checkBinding fun _ _ => True :=
  reading_of_run (fun s => by rw [checkBinding_run]) (fun s => by rw [checkBinding_run]; exact List.Subset.refl _)
    fun _ _ _ _ => trivial

theorem reading_consume (r : Reserved) : reading.holds g (consume r) fun _ _ => True := by
  refine reading_of_run (fun s => ?_) (fun s => ?_) fun _ _ _ _ => trivial <;> rw [consume_run]
  · split <;> rfl
  · split
    · exact (List.tail_sublist _).subset
    · exact List.Subset.refl _

/-- A name that is read is in use. -/
theorem reading_consumeName (what : String) :
    reading.holds g (consumeName what) fun g x => g.Avoids x := by
  refine reading_of_run (fun s => ?_) (fun s => ?_) fun s a known e => ?_ <;>
    rw [consumeName_run] at *
  · split <;> rfl
  · split
    · exact (List.tail_sublist _).subset
    · exact List.Subset.refl _
  · split at e
    · rename_i ident
      cases e
      exact Gensym.avoids_of_isTaken
        (known.names _ (next_mem_rest (isEnd_of_identifier ident)) ident)
    · cases e

theorem reading_fail {α : Type} {post : Gensym → α → Prop} (e : Expected) :
    reading.holds g (failExpecting e) post := by
  refine reading_of_run (fun s => ?_) (fun s => ?_) fun s a _ e => ?_ <;> rw [failExpecting_run] at *
  · exact List.Subset.refl _
  · cases e

theorem reading_spanFrom (start : Token) : reading.holds g (spanFrom start) fun _ _ => True :=
  reading_of_run (fun _ => rfl) (fun _ => List.Subset.refl _) fun _ _ _ _ => trivial

theorem reading_openConstruct (c : Construct) :
    reading.holds g (openConstruct c) fun _ _ => True := by
  refine reading.bind (reading_consume c.opener) fun g₁ t _ _ => ?_
  refine reading.bind (p := fun _ _ => True) ?_ fun _ _ _ _ => reading.pure fun _ _ => trivial
  exact reading_of_run (fun _ => rfl) (fun _ => List.Subset.refl _) fun _ _ _ _ => trivial

theorem reading_closeConstruct : reading.holds g closeConstruct fun _ _ => True := by
  refine reading_of_run (fun s => ?_) (fun s => ?_) fun _ _ _ _ => trivial <;>
    rw [closeConstruct_run]
  · rcases s.frames with _ | ⟨frame, frames⟩
    · rfl
    · dsimp only
      cases Frames.closingFault? frame s.next <;> rfl
  · rcases s.frames with _ | ⟨frame, frames⟩
    · exact List.Subset.refl _
    · dsimp only
      cases Frames.closingFault? frame s.next
      · exact (List.tail_sublist _).subset
      · exact List.Subset.refl _

theorem reading_openScope : reading.holds g openScope fun _ _ => True :=
  reading_of_run (fun _ => rfl) (fun _ => List.Subset.refl _) fun _ _ _ _ => trivial

theorem reading_closeScope : reading.holds g closeScope fun _ _ => True := by
  refine reading_of_run (fun s => ?_) (fun s => ?_) fun _ _ _ _ => trivial
  all_goals
    rw [closeScope_run]
    cases s.scopes
  · rfl
  · rfl
  · exact List.Subset.refl _
  · exact List.Subset.refl _

theorem reading_inject (names : List String) : reading.holds g (inject names) fun _ _ => True := by
  have run : ∀ s, (inject names s).2.unit = s.unit ∧ (inject names s).2.rest = s.rest := by
    intro s
    rw [inject, run_modify]
    dsimp only
    split <;> exact ⟨rfl, rfl⟩
  exact reading_of_run (fun s => (run s).1) (fun s => by rw [(run s).2]; exact List.Subset.refl _)
    fun _ _ _ _ => trivial

theorem reading_pending (n : Nat) : reading.holds g
    (modify fun s : ParserState => { s with pending := n }) fun _ _ => True :=
  reading_of_run (fun _ => rfl) (fun _ => List.Subset.refl _) fun _ _ _ _ => trivial

/-- A known macro is registered. -/
theorem reading_register {d : MacroDefinition} (hd : d.Known g) :
    reading.holds g (ofWork (Work.register d)) fun _ _ => True := by
  intro s known le
  obtain ⟨warnings, run⟩ := Work.register_run d s.unit
  have last : (Work.register d s.unit).2.gensym = s.unit.gensym ∧
      (Work.register d s.unit).2.registry = s.unit.registry.insert d := by
    rw [run]
    exact ⟨rfl, rfl⟩
  refine ⟨?_, ⟨fun t ht ident => ?_, ?_⟩, fun _ _ => trivial⟩
  · show s.unit.gensym ≤ (Work.register d s.unit).2.gensym
    rw [last.1]
  · show (Work.register d s.unit).2.gensym.isTaken _ = true
    rw [last.1]
    exact known.names t ht ident
  · show (Work.register d s.unit).2.registry.Known (Work.register d s.unit).2.gensym
    rw [last.1, last.2]
    intro e he
    rcases Registry.mem_insert he with rfl | he
    · exact hd.mono le
    · exact known.macros e he

end

/-! ## Phrases -/

namespace Found

/-- The words found. -/
def words (f : Found) : List String := f.attributes.texts ++ f.attributes.lists.flatten

theorem mem_words_append {f h : Found} {x : String} :
    x ∈ (f ++ h).words ↔ x ∈ f.words ∨ x ∈ h.words := by
  simp only [words, append_texts, append_lists, List.flatten_append, List.mem_append]
  tauto

theorem mem_words_join {fs : List Found} {x : String} :
    x ∈ (join fs).words ↔ ∃ f ∈ fs, x ∈ f.words := by
  induction fs with
  | nil => simp [join, nothing, words]
  | cons f fs ih =>
    rw [join, List.foldr_cons, ← join, mem_words_append, ih]
    simp

theorem mem_words_gathered {f : Found} {x : String} (h : x ∈ f.gathered.words) : x ∈ f.words := by
  simp only [words, gathered, List.nil_append, List.flatten_cons, List.flatten_nil,
    List.append_nil] at h
  exact List.mem_append_left _ h

theorem name_avoided {g : Gensym} {f : Found} (h : ∀ x ∈ f.words, g.Avoids x) :
    g.Avoids f.attributes.name := by
  unfold Attributes.name
  cases ht : f.attributes.texts with
  | nil => exact g.avoids_empty
  | cons x xs => exact h x (by simp [words, ht])

theorem names_avoided {g : Gensym} {f : Found} (h : ∀ x ∈ f.words, g.Avoids x) :
    ∀ x ∈ f.attributes.names, g.Avoids x := by
  unfold Attributes.names
  cases hl : f.attributes.lists with
  | nil => exact fun _ hx => (List.not_mem_nil hx).elim
  | cons xs xss => exact fun x hx => h x (by simp [words, hl, show x ∈ xs from hx])

end Found

namespace Phrase

/-- Whether spellings of marks are found besides names. -/
def spells : Phrase → Bool
  | spelled _ => true
  | seq a b | either _ a b | ahead a b => a.spells || b.spells
  | star _ a | gather a | list a | demand a _ | construct _ a => a.spells
  | _ => false

def isMark : Phrase → Bool
  | mark _ => true
  | _ => false

/-- Whether the first slot found is a pattern that has been checked. -/
def leads : Phrase → Bool
  | part .binding => true
  | seq a b => a.leads || a.isMark && b.leads
  | _ => false

/-- Clauses start with patterns that are checked, definitions have names that are read, and
patterns are not made here. -/
def Vouched : Phrase → Prop
  | give f => f.nodes = [] ∧ f.words = []
  | seq a b | either _ a b | ahead a b => a.Vouched ∧ b.Vouched
  | star _ a | gather a | list a | demand a _ | chain a | construct _ a => a.Vouched
  | node head a => a.Vouched ∧ (∀ x, (head x).isClause = true → a.leads = true) ∧
      (∀ x, (head x).bindName? = none) ∧ ∀ x name params phase hygiene,
        head x = .macroDef name params phase hygiene →
          a.spells = false ∧ name = x.name ∧ params = x.names
  | _ => True

attribute [local simp] Vouched Head.isClause Head.bindName?

/-- What is found when a phrase is read. -/
structure Finds (a : Phrase) (g : Gensym) (f : Found) : Prop where
  nodes : ∀ n ∈ f.nodes, n.Sound g.Avoids
  words : a.spells = false → ∀ x ∈ f.words, g.Avoids x
  first : a.leads = true → ∃ p rest, f.slots = .one p :: rest ∧ p.ValidPattern
  bare : a.isMark = true → f.slots = []

theorem Finds.mono {a : Phrase} {g g' : Gensym} {f : Found} (h : a.Finds g f) (le : g ≤ g') :
    a.Finds g' f :=
  ⟨fun n hn => (h.nodes n hn).imp fun _ hx => hx.mono le,
    fun ha x hx => (h.words ha x hx).mono le, h.first, h.bare⟩

theorem vouched_operand {r : Reserved} {a : Phrase} (h : operand? r = some a) : a.Vouched := by
  cases IsOperand.of h <;> simp [group, tupleLiteral, tensorLiteral, comprehension,
    comprehensionClause, lambda, quote, unquote, markedCall, negation, awaiting, arguments, seqs,
    items, expression, manyOf, someOf]

theorem vouched_pattern {r : Reserved} {a : Phrase} (h : pattern? r = some a) : a.Vouched := by
  cases IsComposite.of h <;> simp [composite, seqs, items]

theorem vouched_tail {r : Reserved} {m : Level} {a : Phrase} (h : tail? r = some (m, a)) :
    a.Vouched := by
  cases IsTail.of h <;> simp [arguments, items, seqs, expression]

theorem vouched_expressionStmt : expressionStmt.Vouched := by
  simp [expressionStmt, expression]

theorem vouched_statement {settings : Settings} {r : Reserved} {a : Phrase}
    (h : statement? settings r = some a) : a.Vouched := by
  cases IsStatement.of h <;> simp [assignment, importDecl, modulePath, importAlias, returnStmt,
    yieldStmt, optionalValue, breakStmt, continueStmt, memoryStmt, deviceStmt, blockStmt,
    exceptClause, tryStmt, caseClause, matchStmt, functionDef, asyncFunctionDef, classDef, ifStmt,
    arm, loopStmt, loopHeader, parallelStmt, gpuStmt, tensorDecl, neuralNet, streamStmt, arguments,
    optionalArguments, optionalNode, parameters, items, seqs, expression, manyOf, someOf, quote,
    macroDef, macroHead, macroBody, macroRule, ruleTemplate, phaseMark, hygieneMark, oneOf,
    Found.nodes, Found.words, Found.nothing, Found.ofOption,
    Found.ofNodes, Slot.ofOption, Slot.toList, spells, leads, isMark]
  exact fun x _ _ _ _ name params _ _ => ⟨name.symm, params.symm⟩

end Phrase

namespace Node

variable {P : Node → Prop}

/-- What holds of a conditional as soon as it holds of its parts holds of a whole chain. -/
theorem ofArms_induct (step : ∀ span slots, (∀ s ∈ slots, ∀ n ∈ s.toList, P n) →
    P (mk span .ifStmt slots)) {span : Span} {places : List Location} {slots : List (Slot Node)}
    (h : ∀ s ∈ slots, ∀ n ∈ s.toList, P n) : P (ofArms span places slots) := by
  have nested : ∀ (places : List Location) {slots : List (Slot Node)},
      (∀ s ∈ slots, ∀ n ∈ s.toList, P n) →
        ∀ n ∈ (nestSlots span.stop places slots).toList, P n := by
    intro places
    induction places with
    | nil =>
      intro slots h n hn
      rw [nestSlots] at hn
      · rcases slots with _ | ⟨s, slots⟩
        · exact (List.not_mem_nil hn).elim
        · exact h s List.mem_cons_self n hn
      · rintro _ _ _ _ _ ⟨⟩
    | cons start places ih =>
      intro slots h n hn
      rcases slots with _ | ⟨condition, _ | ⟨body, slots⟩⟩
      · exact (List.not_mem_nil hn).elim
      · exact h condition List.mem_cons_self n hn
      · rw [nestSlots] at hn
        rw [List.mem_singleton.mp hn]
        refine step _ _ ?_
        simp only [List.forall_mem_cons] at h ⊢
        exact ⟨h.1, h.2.1, ih h.2.2, List.forall_mem_nil _⟩
  rcases slots with _ | ⟨condition, _ | ⟨body, slots⟩⟩
  · exact step _ _ h
  · exact step _ _ h
  · refine step _ _ ?_
    simp only [List.forall_mem_cons] at h ⊢
    exact ⟨h.1, h.2.1, nested places h.2.2, List.forall_mem_nil _⟩

end Node

/-- What is asked of the parsers for the nonterminals. -/
structure Nonterminals.Valid (k : Nonterminals) : Prop where
  expression : ∀ g l, reading.holds g (k.expression l) fun g n => n.Sound g.Avoids
  statement : ∀ g, reading.holds g k.statement fun g ns => ∀ n ∈ ns, n.Sound g.Avoids
  pattern : ∀ g, reading.holds g k.pattern fun g n => n.Sound g.Avoids

namespace Nonterminals.Valid

variable {k : Nonterminals} (hk : k.Valid) {g : Gensym}

theorem sound_lasting {g g' : Gensym} {n : Node} (le : g ≤ g') (h : n.Sound g.Avoids) :
    n.Sound g'.Avoids :=
  h.imp fun _ hx => hx.mono le

theorem all_lasting {g g' : Gensym} {ns : List Node} (le : g ≤ g')
    (h : ∀ n ∈ ns, n.Sound g.Avoids) : ∀ n ∈ ns, n.Sound g'.Avoids :=
  fun n hn => sound_lasting le (h n hn)

include hk

theorem wellFormedPattern : reading.holds g k.wellFormedPattern fun g n =>
    n.Sound g.Avoids ∧ n.ValidPattern := by
  refine reading.bind (hk.pattern g) fun g₁ n _ hn => ?_
  cases flaw : n.patternFlaw? with
  | some f => exact reading_throw _
  | none => exact reading.pure fun _ le => ⟨sound_lasting le hn, Node.validPattern_of_flaw flaw⟩

omit hk in
theorem atBodyEnd : reading.holds g (not <$> Nonterminals.atBodyEnd) fun _ _ => True := by
  have ends : reading.holds g Nonterminals.atBodyEnd fun _ _ => True :=
    reading.bind reading_peek fun _ _ _ _ => reading.pure fun _ _ => trivial
  exact reading.map ends (fun _ _ _ _ => trivial) fun _ _ _ _ h => h

theorem statements : reading.holds g (repeatWhile (not <$> Nonterminals.atBodyEnd) k.statement)
    fun g nss => ∀ ns ∈ nss, ∀ n ∈ ns, n.Sound g.Avoids :=
  reading_repeatWhile (fun _ _ _ le h => all_lasting le h) (fun _ => atBodyEnd) fun g => hk.statement g

theorem body : reading.holds g k.body fun g n => n.Sound g.Avoids := by
  refine reading.bind (reading_openConstruct _) fun g₁ start _ _ => ?_
  refine reading.bind reading_openScope fun g₂ _ _ _ => ?_
  refine reading.bind hk.statements fun g₃ nss _ sound => ?_
  refine reading.bind reading_closeConstruct fun g₄ _ le₄ _ => ?_
  refine reading.bind reading_closeScope fun g₅ injected le₅ _ => ?_
  refine reading.bind (reading_spanFrom _) fun g₆ span le₆ _ => reading.pure fun g₇ le₇ => ?_
  have le := le_trans (le_trans (le_trans le₄ le₅) le₆) le₇
  refine Node.sound_of_parts rfl rfl fun s hs n hn => ?_
  rw [List.mem_singleton.mp hs] at hn
  obtain ⟨ns, hns, hn⟩ := List.mem_flatten.mp hn
  exact sound_lasting le (sound ns hns n hn)

theorem part (n : Nonterminal) :
    reading.holds g (n.read k) fun g f => (Phrase.part n).Finds g f := by
  have one : ∀ {p : Parser Node}, n ≠ .binding →
      reading.holds g p (fun g n => n.Sound g.Avoids) →
      reading.holds g (Found.ofNode <$> p) fun g f => (Phrase.part n).Finds g f := by
    intro p hn hp
    refine reading.map hp (fun g' m _ hm => ⟨fun m' hm' => ?_, fun _ _ hx => ?_, fun h => ?_, ?_⟩)
      fun _ _ _ le h => h.mono le
    · rwa [List.mem_singleton.mp hm']
    · cases hx
    · cases n <;> first | exact absurd rfl hn | cases h
    · rintro ⟨⟩
  have many : ∀ {p : Parser (List Node)}, n ≠ .binding →
      reading.holds g p (fun g ns => ∀ n ∈ ns, n.Sound g.Avoids) →
      reading.holds g (Found.ofNodes <$> p) fun g f => (Phrase.part n).Finds g f := by
    intro p hn hp
    refine reading.map hp (fun g' ms _ hm => ⟨fun m' hm' => hm m' ?_, fun _ _ hx => ?_, fun h => ?_, ?_⟩)
      fun _ _ _ le h => h.mono le
    · simpa [Found.ofNodes, Found.nodes, Slot.toList] using hm'
    · cases hx
    · cases n <;> first | exact absurd rfl hn | cases h
    · rintro ⟨⟩
  cases n with
  | expression l => exact one (by rintro ⟨⟩) (hk.expression g l)
  | pattern => exact one (by rintro ⟨⟩) (hk.pattern g)
  | binding =>
    refine reading.map hk.wellFormedPattern
      (fun g' m _ hm => ⟨fun m' hm' => ?_, fun _ _ hx => ?_, fun _ => ⟨m, [], rfl, hm.2⟩, ?_⟩)
      fun _ _ _ le h => h.mono le
    · rw [List.mem_singleton.mp hm']
      exact hm.1
    · cases hx
    · rintro ⟨⟩
  | body => exact one (by rintro ⟨⟩) hk.body
  | statement => exact many (by rintro ⟨⟩) (hk.statement g)
  | statements =>
    have flat : reading.holds g (List.flatten <$> repeatWhile (not <$> Nonterminals.atBodyEnd) k.statement)
        fun g ns => ∀ n ∈ ns, n.Sound g.Avoids := by
      refine reading.map hk.statements (fun _ nss _ h n hn => ?_) fun _ _ _ le h => all_lasting le h
      obtain ⟨ns, hns, hn⟩ := List.mem_flatten.mp hn
      exact h ns hns n hn
    have := many (by rintro ⟨⟩) flat
    rwa [← LawfulFunctor.comp_map] at this

omit hk in
/-- A node that is completed: if it is a definition, the macro is known. -/
theorem announce {n : Node} (hn : n.Sound g.Avoids)
    (names : ∀ x params p h, n.head = .macroDef x params p h →
      g.Avoids x ∧ ∀ y ∈ params, g.Avoids y) :
    reading.holds g (Parser.announce n) fun _ _ => True := by
  unfold Parser.announce
  split
  · rename_i x params p h head
    split
    · rename_i d made
      refine reading_register ?_
      obtain ⟨span, head', slots⟩ := n
      obtain rfl : head' = _ := head
      obtain ⟨name, params⟩ := names _ _ _ _ rfl
      obtain ⟨-, -, below⟩ := Node.sound_mk.mp hn
      unfold MacroDefinition.ofNode? at made
      dsimp only [Node.head, Node.slots] at made
      split at made
      · rename_i rules template eq
        cases eq
        cases made
        refine ⟨name, params, below _ List.mem_cons_self, fun q hq => ?_⟩
        exact below _ (List.mem_cons_of_mem _ List.mem_cons_self) q (List.mem_of_head? hq)
      · cases made
    · exact reading.pure fun _ _ => trivial
  · refine reading_of_get fun s => reading_ite ?_ (reading.pure fun _ _ => trivial)
    exact reading_of_run (fun _ => rfl) (fun _ => List.Subset.refl _) fun _ _ _ _ => trivial
  · exact reading.pure fun _ _ => trivial

theorem read {a : Phrase} (ha : a.Vouched) : reading.holds g (a.read k) fun g f => a.Finds g f := by
  have lasting : ∀ {a : Phrase} (g g' : Gensym) (f : Found), g ≤ g' → a.Finds g f → a.Finds g' f :=
    fun _ _ _ le h => h.mono le
  induction a generalizing g with
  | give f =>
    refine reading.pure fun g' _ => ⟨fun n hn => ?_, fun _ x hx => ?_, by rintro ⟨⟩, by rintro ⟨⟩⟩
    · rw [ha.1] at hn
      cases hn
    · rw [ha.2] at hx
      cases hx
  | place =>
    exact reading.bind reading_peek fun _ _ _ _ => reading.pure fun _ _ =>
      ⟨by rintro _ ⟨⟩, by rintro _ _ ⟨⟩, by rintro ⟨⟩, fun _ => rfl⟩
  | mark r =>
    rw [Phrase.read, discard_bind]
    exact reading.bind (reading_consume r) fun _ _ _ _ => reading.pure fun _ _ =>
      ⟨by rintro _ ⟨⟩, by rintro _ _ ⟨⟩, by rintro ⟨⟩, fun _ => rfl⟩
  | kept r =>
    rw [Phrase.read, discard_bind]
    exact reading.bind (reading_consume r) fun _ _ _ _ => reading.pure fun _ _ =>
      ⟨by rintro _ ⟨⟩, by rintro _ _ ⟨⟩, by rintro ⟨⟩, fun _ => rfl⟩
  | spelled r =>
    exact reading.bind (reading_consume r) fun _ _ _ _ => reading.pure fun _ _ =>
      ⟨by rintro _ ⟨⟩, by rintro ⟨⟩, by rintro ⟨⟩, fun _ => rfl⟩
  | name what =>
    refine reading.bind (reading_consumeName what) fun g₁ x _ hx => reading.pure fun g₂ le =>
      ⟨by rintro _ ⟨⟩, fun _ y hy => ?_, by rintro ⟨⟩, fun _ => rfl⟩
    obtain rfl : y = x := by simpa [Found.words, Found.ofText] using hy
    exact hx.mono le
  | part n => exact hk.part n
  | fail what => exact reading_fail _
  | seq a b iha ihb =>
    refine reading.bind (iha ha.1) fun g₁ f _ hf => reading.bind (ihb ha.2) fun g₂ h le₂ hh => ?_
    refine reading.pure fun g₃ le₃ => ?_
    have hf := hf.mono (le_trans le₂ le₃)
    have hh := hh.mono le₃
    refine ⟨fun n hn => ?_, fun plain x hx => ?_, fun leads => ?_, by rintro ⟨⟩⟩
    · rw [Found.nodes_append] at hn
      exact (List.mem_append.mp hn).elim (hf.nodes n) (hh.nodes n)
    · obtain ⟨pa, pb⟩ := Bool.or_eq_false_iff.mp plain
      exact (Found.mem_words_append.mp hx).elim (hf.words pa x) (hh.words pb x)
    · rw [Found.append_slots]
      rcases Bool.or_eq_true_iff.mp leads with first | rest
      · obtain ⟨p, rest, slots, valid⟩ := hf.first first
        exact ⟨p, rest ++ h.slots, by rw [slots]; rfl, valid⟩
      · obtain ⟨bare, leads⟩ := Bool.and_eq_true_iff.mp rest
        rw [hf.bare bare]
        exact hh.first leads
  | either r a b iha ihb =>
    refine reading.bind (reading_check r) fun g₁ c _ _ => reading_ite ?_ ?_
    · refine reading.mono (iha ha.1) (fun g' f _ hf => ?_) lasting
      exact ⟨hf.nodes, fun h => hf.words (Bool.or_eq_false_iff.mp h).1, by rintro ⟨⟩, by rintro ⟨⟩⟩
    · refine reading.mono (ihb ha.2) (fun g' f _ hf => ?_) lasting
      exact ⟨hf.nodes, fun h => hf.words (Bool.or_eq_false_iff.mp h).2, by rintro ⟨⟩, by rintro ⟨⟩⟩
  | ahead a b iha ihb =>
    refine reading.bind reading_checkBinding fun g₁ c _ _ => reading_ite ?_ ?_
    · refine reading.mono (iha ha.1) (fun g' f _ hf => ?_) lasting
      exact ⟨hf.nodes, fun h => hf.words (Bool.or_eq_false_iff.mp h).1, by rintro ⟨⟩, by rintro ⟨⟩⟩
    · refine reading.mono (ihb ha.2) (fun g' f _ hf => ?_) lasting
      exact ⟨hf.nodes, fun h => hf.words (Bool.or_eq_false_iff.mp h).2, by rintro ⟨⟩, by rintro ⟨⟩⟩
  | star r a ih =>
    refine reading.map (reading_repeatWhile lasting (fun _ => reading_check r) fun g => ih ha)
      (fun g' fs _ hfs => ⟨fun n hn => ?_, fun plain x hx => ?_, by rintro ⟨⟩, by rintro ⟨⟩⟩) lasting
    · rw [Found.nodes_join] at hn
      obtain ⟨f, hf, hn⟩ := List.mem_flatMap.mp hn
      exact (hfs f hf).nodes n hn
    · obtain ⟨f, hf, hx⟩ := Found.mem_words_join.mp hx
      exact (hfs f hf).words plain x hx
  | gather a ih =>
    refine reading.map (ih ha) (fun g' f _ hf => ⟨hf.nodes, fun plain x hx => ?_, by rintro ⟨⟩, by rintro ⟨⟩⟩) lasting
    exact hf.words plain x (Found.mem_words_gathered hx)
  | list a ih =>
    refine reading.map (ih ha) (fun g' f _ hf => ⟨fun n hn => ?_, hf.words, by rintro ⟨⟩, by rintro ⟨⟩⟩) lasting
    rw [Found.nodes_listed] at hn
    exact hf.nodes n hn
  | demand a what ih =>
    refine reading.bind (ih ha) fun g₁ f _ hf => ?_
    have found : ∀ g₂, g₁ ≤ g₂ → (Phrase.demand a what).Finds g₂ f := fun g₂ le =>
      ⟨(hf.mono le).nodes, (hf.mono le).words, by rintro ⟨⟩, by rintro ⟨⟩⟩
    split
    · have fails : reading.holds g₁ (failExpecting (.phrase what) : Parser Unit) fun _ _ => True :=
        reading_fail _
      exact reading.bind fails fun _ _ le _ => reading.pure fun _ le' => found _ (le_trans le le')
    · exact reading.pure found
  | node head a ih =>
    obtain ⟨inner, clause, name, definition⟩ := ha
    rw [Phrase.read_node]
    refine reading.bind reading_peek fun g₁ start _ _ => reading.bind (ih inner) fun g₂ f _ hf => ?_
    refine reading.bind (reading_spanFrom start) fun g₃ span le₃ _ => ?_
    have hf := hf.mono le₃
    have sound : (Node.mk span (head f.attributes) f.slots).Sound g₃.Avoids := by
      refine Node.sound_mk.mpr ⟨fun p rest hc hs => ?_, fun x hx => ?_, fun s hs n hn => ?_⟩
      · obtain ⟨p', rest', hs', valid⟩ := hf.first (clause _ hc)
        rw [hs] at hs'
        cases hs'
        exact valid
      · have := name f.attributes
        rw [hx] at this
        cases this
      · exact hf.nodes n (Found.mem_nodes.mpr ⟨s, hs, hn⟩)
    refine reading.bind (announce sound fun x params p h e => ?_) fun g₄ _ le₄ _ => ?_
    · obtain ⟨plain, rfl, rfl⟩ := definition _ x params p h e
      exact ⟨Found.name_avoided (hf.words plain), Found.names_avoided (hf.words plain)⟩
    · refine reading.pure fun g₅ le₅ => ⟨fun n hn => ?_, by rintro _ _ ⟨⟩, by rintro ⟨⟩, by rintro ⟨⟩⟩
      rw [List.mem_singleton.mp hn]
      exact sound_lasting (le_trans le₄ le₅) sound
  | chain a ih =>
    rw [Phrase.read_chain]
    refine reading.bind reading_peek fun g₁ start _ _ => reading.bind (ih ha) fun g₂ f _ hf => ?_
    refine reading.bind (reading_spanFrom start) fun g₃ span le₃ _ => reading.pure fun g₄ le₄ =>
      ⟨fun n hn => ?_, by rintro _ _ ⟨⟩, by rintro ⟨⟩, by rintro ⟨⟩⟩
    rw [List.mem_singleton.mp hn]
    refine Node.ofArms_induct (fun span slots parts => Node.sound_of_parts rfl rfl parts) ?_
    exact fun s hs n hn => (hf.mono (le_trans le₃ le₄)).nodes n (Found.mem_nodes.mpr ⟨s, hs, hn⟩)
  | construct c a ih =>
    rw [Phrase.read, discard_bind]
    refine reading.bind (reading_openConstruct c) fun g₁ _ _ _ => ?_
    refine reading.bind (ih ha) fun g₂ f _ hf => reading.bind reading_closeConstruct fun g₃ _ le₃ _ => ?_
    refine reading.pure fun g₄ le₄ => ?_
    have hf := hf.mono (le_trans le₃ le₄)
    exact ⟨hf.nodes, hf.words, by rintro ⟨⟩, by rintro ⟨⟩⟩

/-! ## Expressions, patterns and statements -/

omit hk in
theorem sound_extended (known : String → Bool) (span : Span) (m : Level) {left : Node} {f : Found}
    (hl : left.Sound g.Avoids) (hf : ∀ n ∈ f.nodes, n.Sound g.Avoids) :
    (Node.extended known span m left f).Sound g.Avoids ∧
      ∀ x params p h, (Node.extended known span m left f).head ≠ .macroDef x params p h := by
  have parts : ∀ s ∈ f.slots, ∀ n ∈ s.toList, n.Sound g.Avoids :=
    fun s hs n hn => hf n (Found.mem_nodes.mpr ⟨s, hs, hn⟩)
  have both : ∀ s ∈ .one left :: f.slots, ∀ n ∈ s.toList, n.Sound g.Avoids :=
    List.forall_mem_cons.mpr ⟨fun n hn => by rwa [List.mem_singleton.mp hn], parts⟩
  unfold Node.extended
  split
  · exact ⟨Node.sound_of_parts rfl rfl both, by rintro _ _ _ _ ⟨⟩⟩
  · split
    · split
      · exact ⟨Node.sound_of_parts rfl rfl parts, by rintro _ _ _ _ ⟨⟩⟩
      · exact ⟨Node.sound_of_parts rfl rfl both, by rintro _ _ _ _ ⟨⟩⟩
    · exact ⟨Node.sound_of_parts rfl rfl both, by rintro _ _ _ _ ⟨⟩⟩
  · exact ⟨Node.sound_of_parts rfl rfl both, by rintro _ _ _ _ ⟨⟩⟩

omit hk in
theorem extend (m : Level) (start : Token) {left : Node} {f : Found} (hl : left.Sound g.Avoids)
    (hf : ∀ n ∈ f.nodes, n.Sound g.Avoids) :
    reading.holds g (Parser.extend m left start f) fun g n => n.Sound g.Avoids := by
  have stop : reading.holds g (tailStop m start f) fun _ _ => True := by
    refine reading_ite ?_ (reading.pure fun _ _ => trivial)
    exact reading.map (reading_spanFrom start) (fun _ _ _ _ => trivial) fun _ _ _ _ h => h
  unfold Parser.extend
  refine reading.bind stop fun g₁ stop le₁ _ => reading_of_get fun s => ?_
  obtain ⟨sound, other⟩ := sound_extended s.unit.registry.contains ⟨left.span.start, stop⟩ m
    (sound_lasting le₁ hl) (all_lasting le₁ hf)
  refine reading.bind (announce sound fun x params p h e => absurd e (other x params p h))
    fun g₂ _ le₂ _ => reading.pure fun g₃ le₃ => ?_
  exact sound_lasting (le_trans le₂ le₃) sound

theorem extendUpTo (l : Level) (fuel : Nat) {left : Node} (hl : left.Sound g.Avoids) :
    reading.holds g (k.extendUpTo l fuel left) fun g n => n.Sound g.Avoids := by
  induction fuel generalizing g left with
  | zero => exact reading_throw _
  | succ fuel ih =>
    have stop : reading.holds g (pure left : Parser Node) fun g n => n.Sound g.Avoids :=
      reading.pure fun _ le => sound_lasting le hl
    intro s known le
    rw [Phrase.extendUpTo_run]
    split
    · split
      · rename_i m a ht _
        obtain ⟨r, -, hr⟩ := Option.bind_eq_some_iff.mp ht
        refine reading.bind (w := g) (p := fun g n => n.Sound g.Avoids) ?_ (fun g₁ n _ hn => ih hn) s known le
        refine reading.bind reading_peek fun g₁ start le₁ _ => ?_
        refine reading.bind (hk.read (Phrase.vouched_tail hr)) fun g₂ f le₂ hf => ?_
        exact extend m start (sound_lasting (le_trans le₁ le₂) hl) hf.nodes
      · exact stop s known le
    · exact stop s known le

omit hk in
theorem sound_atom {t : Token} {n : Node} (h : Nonterminals.atom? t = some n) :
    n.Sound g.Avoids := by
  unfold Nonterminals.atom? at h
  split at h <;> cases h <;> exact Node.sound_of_parts rfl rfl (List.forall_mem_nil _)

omit hk in
theorem sound_atomicPattern {s : ParserState} {n : Node} (known : s.Known)
    (h : Nonterminals.atomicPattern? s.next = some n) : n.Sound s.unit.gensym.Avoids := by
  have inner := Phrase.isEnd_of_atomicPattern h
  unfold Nonterminals.atomicPattern? at h
  split at h
  case h_3 ident =>
    cases h
    refine Node.sound_mk.mpr ⟨by rintro _ _ ⟨⟩, ?_, List.forall_mem_nil _⟩
    rintro _ ⟨⟩
    exact Gensym.avoids_of_isTaken (known.names _ (next_mem_rest inner) ident)
  all_goals cases h <;> exact Node.sound_of_parts rfl rfl (List.forall_mem_nil _)

omit hk in
/-- What is found is one node. -/
theorem reading_ofNode {p : Parser Node}
    (h : reading.holds g (Found.ofNode <$> p) fun g f => ∀ n ∈ f.nodes, n.Sound g.Avoids) :
    reading.holds g p fun g n => n.Sound g.Avoids :=
  reading.mono (reading_of_map h) (fun _ n _ hn => hn n (List.mem_singleton_self n))
    fun _ _ _ le h => sound_lasting le h

omit hk in
/-- A token that is a node by itself is read. -/
theorem reading_token {s : ParserState} {n : Node} (known : s.Known)
    (hn : n.Sound s.unit.gensym.Avoids) :
    s.unit.gensym ≤ (passed s).unit.gensym ∧ (passed s).Known ∧
      ∀ f, (Except.ok (Found.ofNode n) : Except Fault Found) = .ok f →
        ∀ m ∈ f.nodes, m.Sound (passed s).unit.gensym.Avoids := by
  refine ⟨le_refl _, known.passed, ?_⟩
  rintro _ ⟨⟩ m hm
  rwa [List.mem_singleton.mp hm]

theorem operand : reading.holds g k.operand fun g n => n.Sound g.Avoids := by
  refine reading_ofNode fun s known le => ?_
  rw [Phrase.operand_run]
  cases ha : Nonterminals.atom? s.next with
  | some n => exact reading_token known (sound_atom ha)
  | none =>
    cases ho : s.next.reserved?.bind Phrase.operand? with
    | none => exact ⟨le_refl _, known, by rintro _ ⟨⟩⟩
    | some a =>
      obtain ⟨r, -, hr⟩ := Option.bind_eq_some_iff.mp ho
      obtain ⟨later, still, made⟩ := hk.read (Phrase.vouched_operand hr) s known le
      exact ⟨later, still, fun f e => (made f e).nodes⟩

theorem readExpression (l : Level) :
    reading.holds g (k.readExpression l) fun g n => n.Sound g.Avoids :=
  reading.bind hk.operand fun _ _ _ hl => reading_of_get fun _ => hk.extendUpTo l _ hl

theorem readPattern : reading.holds g k.readPattern fun g n => n.Sound g.Avoids := by
  refine reading_ofNode fun s known le => ?_
  rw [Phrase.pattern_run]
  cases ha : Nonterminals.atomicPattern? s.next with
  | some n => exact reading_token known (sound_atomicPattern known ha)
  | none =>
    cases ho : s.next.reserved?.bind Phrase.pattern? with
    | none => exact ⟨le_refl _, known, by rintro _ ⟨⟩⟩
    | some a =>
      obtain ⟨r, -, hr⟩ := Option.bind_eq_some_iff.mp ho
      obtain ⟨later, still, made⟩ := hk.read (Phrase.vouched_pattern hr) s known le
      exact ⟨later, still, fun f e => (made f e).nodes⟩

theorem plainStatement (settings : Settings) :
    reading.holds g (k.plainStatement settings) fun g n => n.Sound g.Avoids := by
  refine reading_ofNode ?_
  rw [Phrase.plainStatement_eq]
  have found : ∀ {a : Phrase} {g : Gensym}, a.Vouched →
      reading.holds g (a.read k) fun g f => ∀ n ∈ f.nodes, n.Sound g.Avoids :=
    fun ha => reading.mono (hk.read ha) (fun _ _ _ hf => hf.nodes) fun _ _ _ le h => all_lasting le h
  refine reading.bind reading_peek fun g₁ t _ _ => ?_
  split
  · obtain ⟨r, -, hr⟩ := Option.bind_eq_some_iff.mp ‹_›
    exact found (Phrase.vouched_statement hr)
  · exact found Phrase.vouched_expressionStmt

end Nonterminals.Valid

/-! ## Expansions -/

/-- What is asked of reading the texts of expansions. -/
structure Rereading.Valid (t : Rereading) : Prop where
  expression : ∀ g c text, reading.holds g (t.expression c text) fun g n => n.Sound g.Avoids
  statements : ∀ g c text,
    reading.holds g (t.statements c text) fun g ns => ∀ n ∈ ns, n.Sound g.Avoids

namespace Rereading.Valid

open Nonterminals.Valid (sound_lasting all_lasting)

variable {t : Rereading} (ht : t.Valid) {g : Gensym}

theorem stands_lasting {g g' : Gensym} {n : Node} {s : Slot Node} (le : g ≤ g')
    (h : n.Stands g.Avoids s) : n.Stands g'.Avoids s :=
  h.imp fun _ hx => hx.mono le

theorem expandHere (c : MacroCall) : reading.holds g (Rereading.expandHere c) fun _ _ => True := by
  refine reading.bind (p := fun _ _ => True) (reading_work fun r => ?_) fun _ e _ _ => ?_
  · exact (Work.course r).mono (Work.course_expandCall c) (fun _ _ _ _ => trivial) fun _ _ _ _ h => h
  · exact reading.bind (reading_inject _) fun _ _ _ _ => reading.pure fun _ _ => trivial

theorem textOf (n : Node) : reading.holds g (Rereading.textOf n) fun _ _ => True := by
  unfold Rereading.textOf
  split
  · exact reading.pure fun _ _ => trivial
  · exact reading_throw _

include ht

theorem replaceExpression (c : MacroCall) :
    reading.holds g (t.replaceExpression c) fun g n => n.Sound g.Avoids := by
  refine reading.bind (expandHere c) fun g₁ e _ _ => ?_
  refine reading.bind (reading_work fun r => Work.course_ofExpansion _) fun g₂ n _ _ => ?_
  exact reading.bind (textOf n) fun g₃ text _ _ => ht.expression g₃ c text

theorem replaceStatement (c : MacroCall) (span : Span) :
    reading.holds g (t.replaceStatement c span) fun g ns => ∀ n ∈ ns, n.Sound g.Avoids := by
  refine reading.bind (expandHere c) fun g₁ e _ _ => ?_
  exact reading.bind (textOf _) fun g₂ text _ _ => ht.statements g₂ c text

theorem enter {n : Node} (hn : n.Sound g.Avoids) : reading.holds g (t.enter n) fun g =>
    Step.Meets (n.Stands g.Avoids) fun _ => True := by
  have same : reading.holds g (pure (Step.done (.one n)) : Parser (Step Unit (Slot Node)))
      fun g => Step.Meets (n.Stands g.Avoids) fun _ => True :=
    reading.pure fun _ le => Node.stands_self (sound_lasting le hn)
  refine reading_of_get fun s => ?_
  dsimp only
  split
  · exact same
  · exact same
  · split
    · rename_i c hc
      have bare : n.head.isPattern = false := by
        unfold callStatement? at hc
        split at hc
        · rename_i head _
          rw [head]
          rfl
        · cases hc
      refine reading.bind (ht.replaceStatement c n.span) fun g₁ ns _ hns => reading.pure fun g₂ le => ?_
      exact Node.stands_of_not_pattern bare (all_lasting le hns)
    · rename_i c _ hc
      have bare : n.head.isPattern = false := by
        obtain ⟨made, -⟩ := Option.filter_eq_some_iff.mp hc
        unfold MacroCall.ofNode? at made
        split at made
        · rename_i head _
          rw [head]
          rfl
        · cases made
      refine reading.bind (ht.replaceExpression c) fun g₁ m _ hm => reading.pure fun g₂ le => ?_
      refine Node.stands_of_not_pattern bare fun m' hm' => ?_
      rw [List.mem_singleton.mp hm']
      exact sound_lasting le hm
    · exact reading.pure fun _ _ => trivial

theorem transform {n : Node} (hn : n.Sound g.Avoids) :
    reading.holds g (n.transformM t.transform ()) fun g s => n.Stands g.Avoids s := by
  refine reading.transformM (I := fun g n => n.Sound g.Avoids)
    (R := fun g _ n s => n.Stands g.Avoids s) (E := fun _ _ _ => True)
    (fun _ _ _ le h => sound_lasting le h) (fun _ _ _ _ _ le h => stands_lasting le h)
    (fun _ _ _ _ h => (Node.sound_mk.mp h).2.2) (fun g _ n h => ht.enter h) ?_ n g () hn
  intro g _ span head slots _ slots' h _ rel
  exact reading.pure fun g' le => stands_lasting le (Node.stands_node h rel (.inl rfl))

theorem completed {read : Parser Node}
    (h : ∀ g, reading.holds g read fun g n => n.Sound g.Avoids) :
    reading.holds g (t.completed read) fun g s => ∀ m ∈ s.toList, m.Sound g.Avoids := by
  rw [Rereading.completed_eq]
  refine reading_of_get fun s₀ => ?_
  refine reading.bind (reading_pending 0) fun g₁ _ _ _ => ?_
  refine reading.bind (h g₁) fun g₂ n _ hn => reading_of_get fun s => ?_
  have slot : reading.holds g₂ (if s.pending = 0 then pure (.one n) else n.transformM t.transform ())
      fun g s => n.Stands g.Avoids s :=
    reading_ite (reading.pure fun _ le => Node.stands_self (sound_lasting le hn)) (ht.transform hn)
  refine reading.bind slot fun g₃ slot _ hs => ?_
  refine reading.bind (reading_pending _) fun g₄ _ le₄ _ => reading.pure fun g₅ le₅ => ?_
  exact all_lasting (le_trans le₄ le₅) hs.sound

theorem upTo (settings : Settings) (depth : Nat) : (Nonterminals.upTo settings t depth).Valid := by
  induction depth with
  | zero => exact ⟨fun _ _ => reading_throw _, fun _ => reading_throw _, fun _ => reading_throw _⟩
  | succ depth ih =>
    refine ⟨fun _ l => ih.readExpression l, fun g => ?_, fun _ => ih.readPattern⟩
    exact reading.map (ht.completed fun _ => ih.plainStatement settings) (fun _ _ _ h => h)
      fun _ _ _ le h => all_lasting le h

omit ht in
theorem atEnd : reading.holds g (not <$> Parser.atEnd) fun _ _ => True := by
  have ends : reading.holds g Parser.atEnd fun _ _ => True :=
    reading.map reading_peek (fun _ _ _ _ => trivial) fun _ _ _ _ h => h
  exact reading.map ends (fun _ _ _ _ => trivial) fun _ _ _ _ h => h

omit ht in
theorem flatten {nss : List (List Node)} (h : ∀ ns ∈ nss, ∀ n ∈ ns, n.Sound g.Avoids) :
    ∀ n ∈ nss.flatten, n.Sound g.Avoids := by
  intro n hn
  obtain ⟨ns, hns, hn⟩ := List.mem_flatten.mp hn
  exact h ns hns n hn

theorem programWith (settings : Settings) :
    reading.holds g (programWith settings t) fun g n => n.Sound g.Avoids := by
  refine reading_of_get fun s => reading_of_get fun s' => ?_
  refine reading.bind reading_openScope fun g₁ _ _ _ => ?_
  refine reading.bind (reading_repeatWhile (p := fun g ns => ∀ n ∈ ns, n.Sound g.Avoids)
    (fun _ _ _ le h => all_lasting le h) (fun _ => atEnd) fun g => ?_) fun g₂ nss _ hns => ?_
  · exact reading.bind (reading_work fun r => Work.course_checkpoint) fun g _ _ _ =>
      (ht.upTo settings _).statement g
  refine reading.bind reading_closeScope fun g₃ injected le₃ _ => ?_
  refine reading.bind (reading_work fun r => Work.course_report _) fun g₄ _ le₄ _ => ?_
  refine reading.pure fun g₅ le₅ => Node.sound_of_parts rfl rfl fun s hs n hn => ?_
  rw [List.mem_singleton.mp hs] at hn
  exact sound_lasting (le_trans (le_trans le₃ le₄) le₅) (flatten hns n hn)

theorem statementsWith (settings : Settings) :
    reading.holds g (statementsWith settings t) fun g a => ∀ n ∈ a.1, n.Sound g.Avoids := by
  refine reading_of_get fun s => reading.bind reading_openScope fun g₁ _ _ _ => ?_
  refine reading.bind (reading_repeatWhile (p := fun g ns => ∀ n ∈ ns, n.Sound g.Avoids)
    (fun _ _ _ le h => all_lasting le h) (fun _ => atEnd)
    fun g => (ht.upTo settings _).statement g) fun g₂ nss _ hns => ?_
  exact reading.bind reading_closeScope fun g₃ injected le₃ _ => reading.pure fun g₄ le₄ =>
    all_lasting (le_trans le₃ le₄) (flatten hns)

theorem expressionWith (settings : Settings) :
    reading.holds g (expressionWith settings t) fun g a => a.1.Sound g.Avoids := by
  refine reading_of_get fun s => reading.bind reading_openScope fun g₁ _ _ _ => ?_
  have whole : ∀ g, reading.holds g (do
      let node ← (Nonterminals.upTo settings t (2 * s.rest.length + 2)).anyExpression
      unless ← Parser.atEnd do throw (.parse (.expectedToken (.phrase "end of input") (← peek)))
      return node) fun g n => n.Sound g.Avoids := by
    intro g
    refine reading.bind ((ht.upTo settings _).expression g _) fun g₂ n _ hn => ?_
    refine reading.bind (reading_of_map atEnd) fun g₃ b le₃ _ => ?_
    cases b
    · refine reading.bind reading_peek fun g₄ token _ _ => ?_
      exact reading.bind (p := fun _ _ => False) (reading_throw _) fun _ _ _ h => h.elim
    · exact reading.pure fun _ le => sound_lasting (le_trans le₃ le) hn
  refine reading.bind (ht.completed whole) fun g₂ slot _ hs => ?_
  split
  · refine reading.bind reading_closeScope fun g₃ injected le₃ _ => reading.pure fun g₄ le₄ => ?_
    exact sound_lasting (le_trans le₃ le₄) (hs _ (List.mem_singleton_self _))
  · exact reading_throw _

omit ht in
/-- Reading other tokens whose names are in use. -/
theorem within {α : Type} {tokens : List Token} {p : Parser α} {post : Gensym → α → Prop}
    (names : ∀ t ∈ tokens, t.kind = .identifier → g.isTaken t.lexeme = true)
    (h : reading.holds g p post) : reading.holds g (Parser.within tokens p) post := by
  intro s known le
  obtain ⟨later, still, made⟩ := h (ParserState.start s.unit tokens)
    ⟨fun t ht ident => le _ (names t ht ident), known.macros⟩ le
  exact ⟨later, ⟨fun t ht ident => later _ (known.names t ht ident), still.macros⟩, made⟩

omit ht in
/-- The names of a text that is read again are put into use first. -/
theorem course_rereadTokens {r : Registry} (c : MacroCall) (depth : Nat) (text : String) :
    (Work.course r).holds g (do
      let tokens ← Work.tokens text s!"<expansion of {c.name}>"
      modify fun s => { s with gensym := s.gensym.reserve (identifierNames tokens).toList }
      Work.report (.rereading c.name depth)
      return tokens) fun g tokens =>
        ∀ t ∈ tokens, t.kind = .identifier → g.isTaken t.lexeme = true := by
  have reserved : ∀ {g : Gensym} {tokens : List Token},
      (Work.course r).holds g (modify fun s : UnitState =>
        { s with gensym := s.gensym.reserve (identifierNames tokens).toList } : Work Unit)
          fun g _ => ∀ t ∈ tokens, t.kind = .identifier → g.isTaken t.lexeme = true := by
    intro g tokens u hu le
    refine ⟨Gensym.le_reserve _ _, hu, fun _ _ t ht ident => ?_⟩
    exact Gensym.isTaken_reserve.mpr (.inl (mem_identifierNames.mpr ⟨t, ht, ident, rfl⟩))
  unfold Work.tokens
  cases tokenize text s!"<expansion of {c.name}>" with
  | error f =>
    exact (Work.course r).bind (p := fun _ _ => False)
      (Work.course_same (fun _ => ⟨rfl, rfl⟩) (by rintro _ _ _ _ ⟨⟩)) fun _ _ _ h => h.elim
  | ok tokens =>
    refine (Work.course r).bind (p := fun _ t => t = tokens) ?_ fun g₁ _ _ same => ?_
    · exact (Work.course r).bind (Work.course_report _) fun _ _ _ _ => (Work.course r).pure fun _ _ => rfl
    · subst same
      refine (Work.course r).bind reserved fun g₂ _ _ taken => ?_
      refine (Work.course r).bind (Work.course_report _) fun g₃ _ le₃ _ => ?_
      exact (Work.course r).pure fun _ le₄ t ht ident => le₄ _ (le₃ _ (taken t ht ident))

omit ht in
theorem reread {α : Type} (c : MacroCall) (depth : Nat) (text : String)
    {p : Parser (α × List String)} {post : Gensym → α → Prop}
    (lasting : ∀ g g' a, g ≤ g' → post g a → post g' a)
    (h : ∀ g, reading.holds g p fun g a => post g a.1) :
    reading.holds g (Parser.reread c depth text p) post := by
  refine reading.bind (reading_work fun r => course_rereadTokens c depth text) fun g₁ tokens _ names => ?_
  refine reading.bind (p := fun g a => post g a.1) (within names (h g₁)) fun g₂ a _ ha => ?_
  obtain ⟨a, injected⟩ := a
  exact reading.bind (reading_inject _) fun g₃ _ le₃ _ => reading.pure fun g₄ le₄ =>
    lasting _ _ _ (le_trans le₃ le₄) ha

end Rereading.Valid

theorem Rereading.sound_upTo (settings : Settings) (remaining : Nat) :
    (Rereading.upTo settings remaining).Valid := by
  induction remaining with
  | zero => exact ⟨fun _ _ _ => reading_throw _, fun _ _ _ => reading_throw _⟩
  | succ remaining ih =>
    refine ⟨fun g c text => ?_, fun g c text => ?_⟩
    · exact Valid.reread c _ text (fun _ _ _ le h => Nonterminals.Valid.sound_lasting le h)
        fun _ => ih.expressionWith settings
    · exact Valid.reread c _ text (fun _ _ _ le h => Nonterminals.Valid.all_lasting le h)
        fun _ => ih.statementsWith settings

/-- A program whose names are in use has valid patterns, and the macros it registers are known. -/
theorem reading_program (settings : Settings) (g : Gensym) :
    reading.holds g (program settings) fun g n => n.Sound g.Avoids :=
  (Rereading.sound_upTo settings _).programWith settings

end GlyphScript
