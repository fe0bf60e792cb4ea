import GlyphScript.Proofs.Parsing.Lookahead

/-!
# The language

The words of each phrase, whatever is made of them: neither the macros defined
so far nor the names in patterns count. Every phrase has some words, and a call
of what an expression ends with is a call in the expression, so two statements
of which the second starts with `((` are also read as one.
-/

namespace GlyphScript

open Reserved

/-- The words are some of the phrase. -/
inductive Generates (settings : Settings) : Phrase → List Word → Prop where
  | give {f} : Generates settings (.give f) []
  | place : Generates settings .place []
  | mark {r x} : Generates settings (.mark r) [(.reserved r, x)]
  | kept {r x} : Generates settings (.kept r) [(.reserved r, x)]
  | spelled {r x} : Generates settings (.spelled r) [(.reserved r, x)]
  | name {what x} : Generates settings (.name what) [(.identifier, x)]
  | seq {a b us vs} : Generates settings a us → Generates settings b vs →
    Generates settings (.seq a b) (us ++ vs)
  | left {r a b us} : Generates settings a us → Generates settings (.either r a b) us
  | right {r a b us} : Generates settings b us → Generates settings (.either r a b) us
  | bound {a b us} : Generates settings a us → Generates settings (.ahead a b) us
  | unbound {a b us} : Generates settings b us → Generates settings (.ahead a b) us
  | starNil {r a} : Generates settings (.star r a) []
  | starCons {r a us vs} : Generates settings a us → Generates settings (.star r a) vs →
    Generates settings (.star r a) (us ++ vs)
  | gather {a us} : Generates settings a us → Generates settings (.gather a) us
  | list {a us} : Generates settings a us → Generates settings (.list a) us
  | demand {a what us} : Generates settings a us → us ≠ [] → Generates settings (.demand a what) us
  | node {head a us} : Generates settings a us → Generates settings (.node head a) us
  | chain {a us} : Generates settings a us → Generates settings (.chain a) us
  | construct {c a us x y} : Generates settings a us → Generates settings (.construct c a)
      ((.reserved c.opener, x) :: us ++ [(.reserved c.closer, y)])
  -- Expressions
  | atom {t n} : Nonterminals.atom? t = some n →
    Generates settings (.part (.expression .primary)) [t.word]
  | operand {r a us} : Phrase.operand? r = some a → Generates settings a us →
    Generates settings (.part (.expression (Phrase.operandLevel r))) us
  | tighter {l m us} : l.rank ≤ m.rank → Generates settings (.part (.expression m)) us →
    Generates settings (.part (.expression l)) us
  | tail {r m a us vs} : Phrase.tail? r = some (m, a) →
    Generates settings (.part (.expression m)) us → Generates settings a vs →
    Generates settings (.part (.expression m)) (us ++ vs)
  -- Patterns
  | atomicPattern {t n} : Nonterminals.atomicPattern? t = some n →
    Generates settings (.part .pattern) [t.word]
  | compositePattern {r a us} : Phrase.pattern? r = some a → Generates settings a us →
    Generates settings (.part .pattern) us
  | binding {us} : Generates settings (.part .pattern) us → Generates settings (.part .binding) us
  -- Statements
  | body {us x y} : Generates settings (.part .statements) us → Generates settings (.part .body)
      ((.reserved .bodyOpen, x) :: us ++ [(.reserved .bodyClose, y)])
  | noStatement : Generates settings (.part .statements) []
  | statement {r a us vs} : Phrase.statement? settings r = some a → Generates settings a us →
    Generates settings (.part .statements) vs → Generates settings (.part .statements) (us ++ vs)
  | expressionStmt {us vs} : Generates settings .expressionStmt us →
    Generates settings (.part .statements) vs → Generates settings (.part .statements) (us ++ vs)

/-- The words are the first of some program, or all of them. -/
def IsProgramPrefix (settings : Settings) (words : List Word) : Prop :=
  ∃ more, Generates settings (.part .statements) (words ++ more)

section

variable {settings : Settings} {a : Phrase} {us vs : List Word}

/-! ## What generated words start with -/

theorem Generates.silent (h : Generates settings a us) (ha : a.silent = true) : us = [] := by
  cases h <;> first | rfl | cases ha

theorem Generates.opener (h : Generates settings a us) {r : Reserved} (hr : a.opener? = some r) :
    leading us = some r := by
  induction h generalizing r with
  | mark | kept | spelled | construct | body =>
    cases hr
    rfl
  | seq first second iha ihb =>
    rw [Phrase.opener?] at hr
    split at hr
    · rename_i quiet
      rw [first.silent quiet]
      exact ihb hr
    · have opens := iha hr
      rw [leading_append (ne_nil_of_leading opens), opens]
  | gather _ ih | list _ ih | demand _ _ ih | node _ ih | chain _ ih => exact ih hr
  | _ => cases hr

theorem Generates.ne_nil (h : Generates settings a us) (ha : a.nullable = false) : us ≠ [] := by
  induction h with
  | mark | kept | spelled | name | construct | atom | atomicPattern | body =>
    exact List.cons_ne_nil _ _
  | seq first second iha ihb =>
    rw [Phrase.nullable, Bool.and_eq_false_iff] at ha
    intro none
    obtain ⟨rfl, rfl⟩ := List.append_eq_nil_iff.mp none
    exact ha.elim (fun h => iha h rfl) fun h => ihb h rfl
  | left _ ih | bound _ ih =>
    rw [Phrase.nullable, Bool.or_eq_false_iff] at ha
    exact ih ha.1
  | right _ ih | unbound _ ih =>
    rw [Phrase.nullable, Bool.or_eq_false_iff] at ha
    exact ih ha.2
  | gather _ ih | list _ ih | node _ ih | chain _ ih => exact ih ha
  | demand _ full _ => exact full
  | operand hr inner => exact ne_nil_of_leading (inner.opener (Phrase.leads_operand hr).opener)
  | compositePattern hr inner =>
    exact ne_nil_of_leading (inner.opener (Phrase.leads_pattern hr).opener)
  | tighter _ _ ih | binding _ ih => exact ih rfl
  | tail _ _ _ ih _ => exact fun none => ih rfl (List.append_eq_nil_iff.mp none).1
  | _ => cases ha

theorem Generates.nullable_of_nil (h : Generates settings a []) : a.nullable = true := by
  by_contra ha
  exact h.ne_nil (Bool.eq_false_iff.mpr ha) rfl

theorem Generates.starts (h : Generates settings a us) {r : Reserved} (hr : leading us = some r) :
    r ∈ a.starts := by
  induction h with
  | mark | kept | spelled | construct | body =>
    cases hr
    exact List.mem_cons_self
  | name | give | place | starNil | noStatement => cases hr
  | @seq a b us vs first second iha ihb =>
    rw [Phrase.starts]
    rcases us with _ | ⟨u, us⟩
    · rw [if_pos first.nullable_of_nil]
      exact List.mem_append_right _ (ihb hr)
    · split
      · exact List.mem_append_left _ (iha hr)
      · exact iha hr
  | left _ ih | bound _ ih => exact List.mem_append_left _ (ih hr)
  | right _ ih | unbound _ ih => exact List.mem_append_right _ (ih hr)
  | @starCons r a us vs first second iha ihb =>
    rcases us with _ | ⟨u, us⟩
    · exact ihb hr
    · exact iha hr
  | gather _ ih | list _ ih | demand _ _ ih | node _ ih | chain _ ih => exact ih hr
  | atom made => exact List.mem_append_left _ (mem_of_atom made hr)
  | operand made inner =>
    rw [inner.opener (Phrase.leads_operand made).opener] at hr
    cases hr
    exact Phrase.mem_operand made
  | tighter _ _ ih | binding _ ih => exact ih hr
  | tail _ left _ ih _ =>
    rw [leading_append (left.ne_nil rfl)] at hr
    exact ih hr
  | atomicPattern made => exact List.mem_append_left _ (mem_of_atomicPattern made hr)
  | compositePattern made inner =>
    rw [inner.opener (Phrase.leads_pattern made).opener] at hr
    cases hr
    exact Phrase.mem_pattern made
  | statement made inner =>
    have opens := inner.opener (Phrase.leads_statement made).opener
    rw [leading_append (ne_nil_of_leading opens), opens] at hr
    cases hr
    exact List.mem_append_left _ (Phrase.mem_statement made)
  | expressionStmt inner _ ih _ =>
    rw [leading_append (inner.ne_nil rfl)] at hr
    exact List.mem_append_right _ (ih hr)

/-- No word is the end of the input. -/
theorem Generates.inner (h : Generates settings a us) : ∀ w ∈ us, w.1 ≠ .endOfInput := by
  have one : ∀ {k : TokenKind} {x : String}, k ≠ .endOfInput →
      ∀ w ∈ [(k, x)], w.1 ≠ TokenKind.endOfInput :=
    fun hk w hw => List.mem_singleton.mp hw ▸ hk
  have kind : ∀ {t : Token}, t.isEnd = false → t.kind ≠ .endOfInput := fun h => by
    simpa [Token.isEnd] using h
  induction h with
  | give | place | starNil | noStatement => exact List.forall_mem_nil _
  | mark | kept | spelled | name => exact one TokenKind.noConfusion
  | atom made => exact one (kind (Phrase.isEnd_of_atom made))
  | atomicPattern made => exact one (kind (Phrase.isEnd_of_atomicPattern made))
  | seq _ _ iha ihb | starCons _ _ iha ihb | tail _ _ _ iha ihb | statement _ _ _ iha ihb
  | expressionStmt _ _ iha ihb => exact List.forall_mem_append.mpr ⟨iha, ihb⟩
  | construct _ ih | body _ ih =>
    exact List.forall_mem_append.mpr
      ⟨List.forall_mem_cons.mpr ⟨TokenKind.noConfusion, ih⟩, one TokenKind.noConfusion⟩
  | left _ ih | right _ ih | bound _ ih | unbound _ ih | gather _ ih | list _ ih | demand _ _ ih
  | node _ ih | chain _ ih | operand _ _ ih | tighter _ _ ih | compositePattern _ _ ih
  | binding _ ih => exact ih

/-! ## Some words of every phrase -/

/-- Words of the phrase, if it has any: names stand for expressions and patterns, bodies are empty,
and what may be repeated stands once. -/
def Phrase.sample? : Phrase → Option (List Word)
  | give _ | place => some []
  | mark r | kept r | spelled r => some [(.reserved r, r.spelling)]
  | name _ | part (.expression _) | part .pattern | part .binding => some [(.identifier, "x")]
  | part .body =>
    some [(.reserved .bodyOpen, bodyOpen.spelling), (.reserved .bodyClose, bodyClose.spelling)]
  | part .statements => some []
  | part .statement | fail _ => none
  | seq a b => a.sample?.bind fun us => b.sample?.map (us ++ ·)
  | either _ a b => a.sample?.or b.sample?
  | ahead _ b => b.sample?
  | star _ a | gather a | list a | node _ a | chain a => a.sample?
  | demand a _ => a.sample?.filter (· ≠ [])
  | construct c a => a.sample?.map fun us =>
    (.reserved c.opener, c.opener.spelling) :: us ++ [(.reserved c.closer, c.closer.spelling)]

theorem generates_name (l : Level) (x : String) :
    Generates settings (.part (.expression l)) [(.identifier, x)] := by
  have atom : Generates settings (.part (.expression .primary)) [(.identifier, x)] :=
    .atom (t := ⟨.identifier, x, default, none⟩) rfl
  exact .tighter (by cases l <;> decide) atom

theorem generates_patternName (x : String) :
    Generates settings (.part .pattern) [(.identifier, x)] :=
  .atomicPattern (t := ⟨.identifier, x, default, none⟩) rfl

theorem generates_sample (h : a.sample? = some us) : Generates settings a us := by
  induction a generalizing us with
  | give | place | mark | kept | spelled | name =>
    cases h
    constructor
  | part n =>
    cases n <;> cases h
    · exact generates_name ..
    · exact generates_patternName _
    · exact .binding (generates_patternName _)
    · exact .body .noStatement
    · exact .noStatement
  | fail => cases h
  | seq a b iha ihb =>
    obtain ⟨vs, hvs, h⟩ := Option.bind_eq_some_iff.mp h
    obtain ⟨ws, hws, rfl⟩ := Option.map_eq_some_iff.mp h
    exact .seq (iha hvs) (ihb hws)
  | either r a b iha ihb =>
    rcases Option.or_eq_some_iff.mp h with h | ⟨-, h⟩
    · exact .left (iha h)
    · exact .right (ihb h)
  | ahead a b _ ihb => exact .unbound (ihb h)
  | star r a ih => exact List.append_nil us ▸ .starCons (ih h) .starNil
  | gather a ih => exact .gather (ih h)
  | list a ih => exact .list (ih h)
  | node head a ih => exact .node (ih h)
  | chain a ih => exact .chain (ih h)
  | demand a what ih =>
    obtain ⟨h, full⟩ := Option.filter_eq_some_iff.mp h
    exact .demand (ih h) (by simpa using full)
  | construct c a ih =>
    obtain ⟨vs, hvs, rfl⟩ := Option.map_eq_some_iff.mp h
    exact .construct (ih hvs)

/-! ## Operators behind expressions -/

theorem level_eq_of_rank {l m : Level} (h : l.rank = m.rank) : l = m := by
  cases l <;> cases m <;> first | rfl | cases h

/-- An operator that would be taken for a part of the phrase is one. -/
theorem Generates.extend (h : Generates settings a us) {r : Reserved} {m : Level} {b : Phrase}
    (ht : Phrase.tail? r = some (m, b)) (hr : r ∈ a.stops) (right : Generates settings b vs) :
    Generates settings a (us ++ vs) := by
  -- at the level of the operator itself the whole may be its left operand
  have here : ∀ {l us}, l.rank ≤ m.rank → Generates settings (.part (.expression m)) us →
      Generates settings (.part (.expression l)) (us ++ vs) :=
    fun le left => .tighter le (.tail ht left right)
  have level : ∀ {l : Level}, r ∈ Phrase.operatorsFrom l.rank → l.rank ≤ m.rank := by
    intro l hr
    obtain ⟨m', b', ht', le⟩ := Phrase.mem_operatorsFrom.mp hr
    rw [ht] at ht'
    cases ht'
    exact le
  have above : ∀ {l : Level}, l.rank < m.rank → r ∈ Phrase.operatorsFrom (l.rank + 1) :=
    fun lt => Phrase.mem_operatorsFrom.mpr ⟨m, b, ht, lt⟩
  induction h with
  | seq first _ _ ih =>
    rw [List.append_assoc]
    exact .seq first (ih hr)
  | gather _ ih => exact .gather (ih hr)
  | list _ ih => exact .list (ih hr)
  | demand _ full ih => exact .demand (ih hr) fun none => full (List.append_eq_nil_iff.mp none).1
  | node _ ih => exact .node (ih hr)
  | chain _ ih => exact .chain (ih hr)
  | atom => exact absurd hr List.not_mem_nil
  | @operand r' a us made inner ih =>
    rcases Nat.eq_or_lt_of_le (level hr) with same | lt
    · rw [level_eq_of_rank same]
      exact here (le_refl _) (level_eq_of_rank same ▸ .operand made inner)
    · exact .operand made (ih (Phrase.stops_operand made (above lt)))
  | @tighter l m' us le inner ih =>
    by_cases high : m'.rank ≤ m.rank
    · exact .tighter le (ih (Phrase.mem_operatorsFrom.mpr ⟨m, b, ht, high⟩))
    · exact here (level hr) (.tighter (Nat.le_of_not_le high) inner)
  | @tail r' k a us ws made left right' _ ih =>
    rcases Nat.eq_or_lt_of_le (level hr) with same | lt
    · rw [level_eq_of_rank same]
      exact here (le_refl _) (level_eq_of_rank same ▸ .tail made left right')
    · rw [List.append_assoc]
      exact .tail made left (ih (Phrase.stops_tail made (above lt)))
  | _ => exact absurd hr List.not_mem_nil

/-- A conditional whose last part is any expression. -/
theorem Generates.conditional {ws : List Word} {x y : String}
    (condition : Generates settings (.part (.expression .additive)) us)
    (first : Generates settings (.part (.expression .conditional)) vs)
    (second : Generates settings (.part (.expression .conditional)) ws) :
    Generates settings (.part (.expression .conditional))
      (us ++ ((.reserved condThen, x) :: vs ++ (.reserved condElse, y) :: ws)) := by
  generalize ha : Phrase.part (.expression .conditional) = a at second
  induction second with
  | @tighter l m ws le inner ih =>
    cases ha
    by_cases same : m = .conditional
    · subst same
      exact ih rfl
    · have high : Level.additive.rank ≤ m.rank := by cases m <;> first | exact absurd rfl same | decide
      have tail : Generates settings (Phrase.seqs [.mark condThen, Phrase.expression,
          .mark condElse, .part (.expression .additive)])
            ([(TokenKind.reserved condThen, x)] ++
              (vs ++ ([(TokenKind.reserved condElse, y)] ++ ws))) :=
        .seq .mark (.seq first (.seq .mark (.tighter high inner)))
      have whole := Generates.tail (r := .condThen) rfl (.tighter (by decide) condition) tail
      simpa using whole
  | @tail r m a ws ws' made left right ih _ =>
    cases ha
    have whole := Generates.tail made (ih rfl) right
    simpa using whole
  | @operand r => 
    cases r <;> cases ha
  | _ => cases ha

/-! ## Statements -/

/-- An expression that starts with `((` goes on with the expression in front of it. -/
theorem generates_joined {l : Level} (left : Generates settings Phrase.expression us)
    (right : Generates settings (.part (.expression l)) vs) (opens : leading vs = some .listOpen) :
    Generates settings Phrase.expression (us ++ vs) := by
  generalize he : Phrase.part (.expression l) = e at right
  induction right generalizing l with
  | atom made => exact absurd (mem_of_atom made opens) (by decide)
  | operand made inner =>
    rw [inner.opener (Phrase.leads_operand made).opener] at opens
    cases opens
    cases made
    cases inner with
    | node inner => exact left.extend (m := .postfixed) (r := .listOpen) rfl (by decide) inner
  | tighter _ _ ih => exact ih opens rfl
  | @tail r m a us' vs made inner behind ih _ =>
    rw [leading_append (inner.ne_nil rfl)] at opens
    rw [← List.append_assoc]
    refine (ih opens rfl).extend made (Phrase.mem_operatorsFrom.mpr ⟨m, a, made, ?_⟩) behind
    cases m <;> decide
  | _ => cases he

/-- What statements start with: a statement with a phrase of its own, or an expression that no
`((` follows. -/
inductive Opening (settings : Settings) : List Word → Prop where
  | none : Opening settings []
  | phrase {r : Reserved} {a : Phrase} {us vs : List Word} : Phrase.statement? settings r = some a → Generates settings a us →
    Generates settings (.part .statements) vs → Opening settings (us ++ vs)
  | expression {us vs : List Word} : Generates settings .expressionStmt us →
    Generates settings (.part .statements) vs → leading vs ≠ some .listOpen →
    Opening settings (us ++ vs)

theorem opening_of_generates (h : Generates settings (.part .statements) us) :
    Opening settings us := by
  generalize ha : Phrase.part .statements = a at h
  induction h with
  | noStatement => exact .none
  | statement made inner behind => exact .phrase made inner behind
  | @expressionStmt us vs inner behind _ ih =>
    by_cases opens : leading vs = some .listOpen
    · cases ih rfl with
      | none => cases opens
      | phrase made inner' _ =>
        have leads := inner'.opener (Phrase.leads_statement made).opener
        rw [leading_append (ne_nil_of_leading leads), leads] at opens
        cases opens
        cases made
      | expression inner' behind' free =>
        rw [leading_append (inner'.ne_nil rfl)] at opens
        rw [← List.append_assoc]
        cases inner with
        | node inner =>
          cases inner' with
          | node inner' => exact .expression (.node (generates_joined inner inner' opens)) behind' free
    · exact .expression inner behind opens
  | _ => cases ha

end

end GlyphScript
