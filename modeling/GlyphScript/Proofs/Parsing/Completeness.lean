import GlyphScript.Proofs.Parsing.Soundness

/-!
# What is derived is read

Words that the grammar derives are read by the parser as the tree that is derived
from them, if no token follows that the phrase would go on with. The induction
is on the derivation. For loops it says how far the loop has come: for a
repetition with any number of turns left, for an expression that the parser
stands behind the operand it has built up so far.
-/

namespace GlyphScript

open GlyphScript.Parser

/-! ## Macros known earlier -/

theorem Macros.Later.of_after {k : Macros} {n : Node} (h : (k.after n).Later) : k.Later := by
  unfold Macros.after at h
  split at h
  · exact fun e he => h e (List.mem_cons_of_mem _ he)
  · exact h

theorem Derives.later {settings : Settings} {a : Phrase} {k k' : Macros} {us : List Word}
    {f : Found} (h : Derives settings a k us k' f) (later : k'.Later) : k.Later := by
  induction h with
  | give | place | mark | kept | spelled | name | starNil | atom | atomicPattern | noStatement =>
    exact later
  | seq _ _ iha ihb | starCons _ _ iha ihb | tail _ _ _ iha ihb | statement _ _ _ iha ihb
  | expressionStmt _ _ _ iha ihb => exact iha (ihb later)
  | left _ ih | right _ ih | bound _ ih | unbound _ ih | gather _ ih | list _ ih | demand _ _ ih
  | chain _ ih | construct _ ih | operand _ _ ih | tighter _ _ ih | compositePattern _ _ ih
  | binding _ _ ih | body _ ih => exact ih later
  | node _ ih => exact ih later.of_after

/-! ## Success -/

/-- The parser has read the words and made what `post` says, and the macros of `k` are known. -/
def Succeeds {α : Type} (s : ParserState) (us : List Word) (k : Macros) (post : α → Prop)
    (res : Except Fault α × ParserState) : Prop :=
  ∃ a s', res = (.ok a, s') ∧ s.Advanced us k s' ∧ post a

/-- No macro of the parse phase is registered, as the log shows or since none is defined. -/
def Calm (u : UnitState) (k : Macros) : Prop := u.Quiet ∨ k.Later

namespace Succeeds

variable {α β : Type} {s : ParserState} {us vs : List Word} {k k' : Macros} {p : Parser α}
  {P : α → Prop} {Q : β → Prop}

theorem pure (hk : s.unit.registry.Holds k) {a : α} (h : P a) :
    Succeeds s [] k P ((Pure.pure a : Parser α) s) :=
  ⟨a, s, rfl, .refl hk, h⟩

theorem bind {f : α → Parser β} (grows : ∀ a, Grows (f a)) (later : k'.Later → k.Later)
    (calm : Calm ((p >>= f) s).2.unit k') (hp : Calm (p s).2.unit k → Succeeds s us k P (p s))
    (hf : ∀ a s', s.Advanced us k s' → P a → Calm (f a s').2.unit k' →
      Succeeds s' vs k' Q (f a s')) :
    Succeeds s (us ++ vs) k' Q ((p >>= f) s) := by
  obtain ⟨a, s', run, moved, made⟩ := hp (calm.imp (quiet_of_bind grows) later)
  rw [run_bind, run] at calm ⊢
  obtain ⟨b, s'', run', moved', made'⟩ := hf a s' moved made calm
  exact ⟨b, s'', run', moved.trans moved', made'⟩

theorem map {f : α → β} (h : Succeeds s us k P (p s)) (hf : ∀ a, P a → Q (f a)) :
    Succeeds s us k Q ((f <$> p) s) := by
  obtain ⟨a, s', run, moved, made⟩ := h
  refine ⟨f a, s', ?_, moved, hf a made⟩
  rw [run_map, run]

theorem look {f : α → Parser β} {a : α} (hp : p s = (.ok a, s))
    (calm : Calm ((p >>= f) s).2.unit k)
    (hf : Calm (f a s).2.unit k → Succeeds s us k Q (f a s)) : Succeeds s us k Q ((p >>= f) s) := by
  rw [run_bind, hp] at calm ⊢
  exact hf calm

end Succeeds

theorem Calm.of_map {α β : Type} {p : Parser α} {f : α → β} {s : ParserState} {k : Macros}
    (h : Calm ((f <$> p) s).2.unit k) : Calm (p s).2.unit k :=
  h.imp_left Nonterminals.Sound.quiet_of_map

/-! ## Tokens -/

section

variable {s : ParserState} {k : Macros} {us : List Word}

theorem leading_cons (r : Reserved) (x : String) (us : List Word) :
    leading ((.reserved r, x) :: us) = some r := rfl

theorem rest_of_advanced {s' : ParserState} {rest : List Word} (h : s.Advanced us k s')
    (hw : s.words = us ++ rest) : s'.words = rest :=
  List.append_cancel_left (h.words.symm.trans hw)

theorem consume_succeeds {r : Reserved} {x : String} (hk : s.unit.registry.Holds k)
    (hw : s.words = (.reserved r, x) :: us) :
    Succeeds s [(.reserved r, x)] k (fun t => t.lexeme = x) (consume r s) := by
  obtain ⟨word, inner, -⟩ := next_of_words hw TokenKind.noConfusion
  refine ⟨_, _, consume_leading (by rw [hw]; rfl), ?_, congrArg Prod.snd word⟩
  rw [← word]
  exact .one hk inner

theorem consumeName_succeeds {what x : String} (hk : s.unit.registry.Holds k)
    (hw : s.words = (.identifier, x) :: us) :
    Succeeds s [(.identifier, x)] k (· = x) (consumeName what s) := by
  obtain ⟨word, inner, -⟩ := next_of_words hw TokenKind.noConfusion
  have kind : s.next.kind = .identifier := congrArg Prod.fst word
  refine ⟨s.next.lexeme, passed s, ?_, ?_, congrArg Prod.snd word⟩
  · rw [consumeName_run, if_pos kind]
  · rw [← word]
    exact .one hk inner

end

theorem announce_succeeds {s : ParserState} {k : Macros} {n : Node} (hk : s.unit.registry.Holds k)
    (calm : Calm (announce n s).2.unit (k.after n)) :
    Succeeds s [] (k.after n) (fun _ => True) (announce n s) := by
  obtain ⟨s', run, moved⟩ := announce_advanced hk calm
  exact ⟨(), s', run, moved, trivial⟩

/-! ## What is to be shown -/

section

variable (settings : Settings)

/-- The phrase is read in full wherever its words are ahead and nothing that it would go on with
follows them. -/
def Reads (a : Phrase) (k : Macros) (us : List Word) (k' : Macros) (f : Found) : Prop :=
  ∀ {t : Rereading}, t.Growing → ∀ {depth : Nat} {s : ParserState} {rest : List Word},
    a.clear = true → 2 * s.rest.length + a.cost ≤ depth → s.unit.registry.Holds k →
    s.words = us ++ rest → (∀ r ∈ a.greedy, leading rest ≠ some r) →
    Calm (a.read (.upTo settings t depth) s).2.unit k' →
    Succeeds s us k' (·.unplaced = f) (a.read (.upTo settings t depth) s)

/-- The loop for phrases that start with `r` reads them all. -/
def ReadsAll (r : Reserved) (a : Phrase) (k : Macros) (us : List Word) (k' : Macros) (f : Found) :
    Prop :=
  ∀ {t : Rereading}, t.Growing → ∀ {depth fuel : Nat} {s : ParserState} {rest : List Word},
    (Phrase.star r a).clear = true → 2 * s.rest.length + a.cost ≤ depth → s.rest.length < fuel →
    s.unit.registry.Holds k → s.words = us ++ rest →
    (∀ r' ∈ (Phrase.star r a).greedy, leading rest ≠ some r') →
    Calm (repeatUpTo (check r) (a.read (.upTo settings t depth)) fuel s).2.unit k' →
    Succeeds s us k' (fun fs => (Found.join fs).unplaced = f)
      (repeatUpTo (check r) (a.read (.upTo settings t depth)) fuel s)

/-- Reading an expression comes to the point behind the words, if no operator follows that holds
together more tightly than they do. -/
def Reaches (l : Level) (k : Macros) (us : List Word) (k' : Macros) (f : Found) : Prop :=
  ∀ {t : Rereading}, t.Growing → ∀ {depth : Nat} {s : ParserState} {rest : List Word} {l' : Level},
    l'.rank ≤ l.rank → 2 * s.rest.length ≤ depth → s.unit.registry.Holds k →
    s.words = us ++ rest → (∀ r ∈ Phrase.operatorsFrom (l.rank + 1), leading rest ≠ some r) →
    Calm ((Nonterminals.upTo settings t depth).readExpression l' s).2.unit k' →
    ∃ n s' fuel, (Nonterminals.upTo settings t depth).readExpression l' s =
        (Nonterminals.upTo settings t depth).extendUpTo l' fuel n s' ∧
      s.Advanced us k' s' ∧ s'.rest.length < fuel ∧ Found.ofNode n.unplaced = f

/-- A loop that reads statements: its test lets all statements begin and ends where the words of
`rest` are ahead, and a turn of it is a statement as long as the compilation goes on. -/
structure StatementLoop (t : Rereading) (depth : Nat) (checks : Option Nat) (rest : List Word)
    (test : Parser Bool) (item : Parser (List Node)) : Prop where
  begins : ∀ s : ParserState, s.next.isEnd = false →
    (∀ r, leading s.words = some r → r ∈ Phrase.nonterminalStarts .statements) →
    test s = (.ok true, s)
  ends : ∀ s : ParserState, s.words = rest → test s = (.ok false, s)
  tests : Grows test
  items : Grows item
  same : ∀ s : ParserState, s.unit.checks = checks →
    item s = (Nonterminals.upTo settings t depth).statement s

/-- The loop for statements reads them all. -/
def ReadsStatements (k : Macros) (us : List Word) (k' : Macros) (f : Found) : Prop :=
  ∀ {t : Rereading}, t.Growing → ∀ {depth fuel : Nat} {s : ParserState} {rest : List Word}
    {test : Parser Bool} {item : Parser (List Node)},
    StatementLoop settings t depth s.unit.checks rest test item →
    2 * s.rest.length + 2 ≤ depth → s.rest.length < fuel → s.unit.registry.Holds k →
    s.words = us ++ rest → (∀ r ∈ Phrase.tailMarks, leading rest ≠ some r) →
    Calm (repeatUpTo test item fuel s).2.unit k' →
    Succeeds s us k' (fun nss => Found.ofNodes (nss.flatten.map Node.unplaced) = f)
      (repeatUpTo test item fuel s)

/-- What is shown of a derivation. -/
def Completes (a : Phrase) (k : Macros) (us : List Word) (k' : Macros) (f : Found) : Prop :=
  match a with
  | .star r a => ReadsAll settings r a k us k' f
  | .part (.expression l) => Reaches settings l k us k' f
  | .part .statements => ReadsStatements settings k us k' f
  | a => Reads settings a k us k' f

variable {settings} {a b : Phrase} {k k' k₁ k₂ k₃ : Macros} {us vs : List Word} {f h : Found}

/-- Behind an expression that has been reached nothing is left to do. -/
theorem Reaches.reads {l : Level} (reaches : Reaches settings l k us k' f) :
    Reads settings (.part (.expression l)) k us k' f := by
  intro t ht depth s rest _ deep hk hw stops calm
  obtain ⟨depth, rfl⟩ := Nat.exists_eq_add_one_of_ne_zero
    (Nat.ne_zero_of_lt (Nat.lt_of_lt_of_le (Nat.lt_succ_self _) deep))
  have deep : 2 * s.rest.length ≤ depth := Nat.le_of_succ_le_succ deep
  obtain ⟨n, s', fuel, run, moved, enough, made⟩ := reaches ht (le_refl _) deep hk hw
    (fun r hr => stops r (Phrase.operatorsFrom_mono (Nat.le_succ _) hr)) calm.of_map
  obtain ⟨fuel, rfl⟩ := Nat.exists_eq_add_one_of_ne_zero (Nat.ne_zero_of_lt enough)
  rw [extendUpTo_stops fuel (rest_of_advanced moved hw ▸ stops)] at run
  refine ⟨.ofNode n, s', ?_, moved, made⟩
  show (Found.ofNode <$> (Nonterminals.upTo settings t depth).readExpression l) s = _
  rw [run_map, run]

theorem ReadsAll.reads {r : Reserved} (all : ReadsAll settings r a k us k' f) :
    Reads settings (.star r a) k us k' f := by
  intro t ht depth s rest clear deep hk hw stops calm
  exact (all ht clear deep (Nat.lt_succ_self _) hk hw stops calm.of_map).map fun _ made => made

theorem Completes.reads (complete : Completes settings a k us k' f) :
    Reads settings a k us k' f := by
  cases a with
  | star r a => exact ReadsAll.reads complete
  | part n =>
    cases n with
    | expression l => exact Reaches.reads complete
    | statements =>
      intro t _ depth s rest clear
      cases clear
    | pattern | binding | body | statement => exact complete
  | give | place | mark | kept | spelled | name | fail | seq | either | ahead | gather | list
  | demand | node | chain | construct => exact complete

/-! ## Phrases -/

theorem reads_give : Reads settings (.give f) k [] k f.unplaced := by
  intro t _ depth s rest _ _ hk _ _ _
  exact .pure hk rfl

theorem reads_place : Reads settings .place k [] k (.ofPlace default) := by
  intro t _ depth s rest _ _ hk _ _ calm
  exact .look (peek_run s) calm fun _ => .pure hk rfl

theorem reads_mark {r : Reserved} {x : String} :
    Reads settings (.mark r) k [(.reserved r, x)] k .nothing := by
  intro t _ depth s rest _ _ hk hw _ calm
  obtain ⟨token, s', run, moved, -⟩ := consume_succeeds hk hw
  refine ⟨.nothing, s', ?_, moved, rfl⟩
  rw [Phrase.read, discard_bind, run_bind, run]
  rfl

theorem reads_kept {r : Reserved} {x : String} :
    Reads settings (.kept r) k [(.reserved r, x)] k (.ofMark r) := by
  intro t _ depth s rest _ _ hk hw _ calm
  obtain ⟨token, s', run, moved, -⟩ := consume_succeeds hk hw
  refine ⟨.ofMark r, s', ?_, moved, rfl⟩
  rw [Phrase.read, discard_bind, run_bind, run]
  rfl

theorem reads_spelled {r : Reserved} {x : String} :
    Reads settings (.spelled r) k [(.reserved r, x)] k (.ofText x) := by
  intro t _ depth s rest _ _ hk hw _ calm
  obtain ⟨token, s', run, moved, rfl⟩ := consume_succeeds hk hw
  refine ⟨.ofText token.lexeme, s', ?_, moved, rfl⟩
  rw [Phrase.read, run_bind, run]
  rfl

theorem reads_name {what x : String} :
    Reads settings (.name what) k [(.identifier, x)] k (.ofText x) := by
  intro t _ depth s rest _ _ hk hw _ calm
  obtain ⟨name, s', run, moved, rfl⟩ := consumeName_succeeds hk hw
  refine ⟨.ofText name, s', ?_, moved, rfl⟩
  rw [Phrase.read, run_bind, run]
  rfl

theorem reads_seq (first : Reads settings a k₁ us k₂ f) (second : Reads settings b k₂ vs k₃ h)
    (derived : Derives settings a k₁ us k₂ f) (behind : Derives settings b k₂ vs k₃ h) :
    Reads settings (.seq a b) k₁ (us ++ vs) k₃ (f ++ h) := by
  intro t ht depth s rest clear deep hk hw stops calm
  simp only [Phrase.clear, Bool.and_eq_true, List.all_eq_true, Bool.not_eq_true',
    List.contains_eq_mem, decide_eq_false_iff_not] at clear
  obtain ⟨⟨cleara, clearb⟩, apart⟩ := clear
  rw [Phrase.cost] at deep
  have deepa : 2 * s.rest.length + a.cost ≤ depth := by
    split at deep
    · exact le_trans (Nat.add_le_add_left (le_max_left _ _) _) deep
    · exact deep
  -- what follows the first phrase is the start of the second, or what follows both
  have stopsa : ∀ r ∈ a.greedy, leading (vs ++ rest) ≠ some r := by
    intro r hr next
    rcases vs with _ | ⟨v, vs⟩
    · refine stops r ?_ next
      rw [Phrase.greedy, if_pos behind.nullable_of_nil]
      exact List.mem_append_right _ hr
    · exact apart r hr (behind.starts next)
  have stopsb : ∀ r ∈ b.greedy, leading rest ≠ some r :=
    fun r hr => stops r (List.mem_append_left _ hr)
  have growing := ht.upTo settings depth
  refine .bind (fun f => (growing.read b).bind fun _ => .pure _) behind.later calm
    (first ht cleara deepa hk (by rw [hw, List.append_assoc]) stopsa)
    fun f' s' moved made calm => ?_
  have deepb : 2 * s'.rest.length + b.cost ≤ depth := by
    have length := moved.length
    split at deep
    · have := le_max_right a.cost b.cost
      omega
    · rename_i full
      have := List.length_pos_iff.mpr (derived.ne_nil (Bool.eq_false_iff.mpr full))
      have := b.cost_le
      omega
  have hw' : s'.words = vs ++ rest :=
    rest_of_advanced moved (by rw [hw, List.append_assoc])
  rw [← List.append_nil vs]
  refine .bind (fun _ => .pure _) id calm (second ht clearb deepb moved.holds hw' stopsb)
    fun h' s'' moved' made' _ => .pure moved'.holds ?_
  rw [Found.unplaced_append, made, made']

theorem reads_left {r : Reserved} (inner : Reads settings a k us k' f)
    (derived : Derives settings a k us k' f) : Reads settings (.either r a b) k us k' f := by
  intro t ht depth s rest clear deep hk hw stops calm
  simp only [Phrase.clear, Bool.and_eq_true, decide_eq_true_eq] at clear
  have opens := derived.opener clear.1.2
  have next : leading s.words = some r := by
    rw [hw, leading_append (ne_nil_of_leading opens), opens]
  refine .look (check_leading next) calm fun calm => ?_
  have deep := le_trans (Nat.add_le_add_left (le_max_left _ _) _) deep
  refine inner ht clear.1.1.1 deep hk hw ?_ calm
  exact fun r hr => stops r (List.mem_append_left _ (List.mem_append_left _ hr))

theorem reads_right {r : Reserved} (inner : Reads settings b k us k' f)
    (derived : Derives settings b k us k' f) : Reads settings (.either r a b) k us k' f := by
  intro t ht depth s rest clear deep hk hw stops calm
  simp only [Phrase.clear, Bool.and_eq_true, decide_eq_true_eq, Bool.not_eq_true',
    List.contains_eq_mem, decide_eq_false_iff_not] at clear
  have next : leading s.words ≠ some r := by
    rw [hw]
    intro next
    rcases us with _ | ⟨u, us⟩
    · refine stops r ?_ next
      rw [Phrase.greedy, if_pos derived.nullable_of_nil]
      exact List.mem_append_right _ List.mem_cons_self
    · exact clear.2 (derived.starts next)
  refine .look (check_other next) calm fun calm => ?_
  have deep := le_trans (Nat.add_le_add_left (le_max_right _ _) _) deep
  refine inner ht clear.1.1.2 deep hk hw ?_ calm
  exact fun r hr => stops r (List.mem_append_left _ (List.mem_append_right _ hr))

/-- Whether words start with a name and an arrow. -/
def bindingAhead : List Word → Bool
  | v :: w :: _ => v.1 = .identifier && w.1 = .reserved .bindArrow
  | _ => false

theorem checkBinding_words (s : ParserState) :
    checkBinding s = (.ok (bindingAhead s.words), s) := by
  rw [checkBinding_run, ParserState.words]
  rcases s.rest with _ | ⟨v, _ | ⟨w, rest⟩⟩ <;> rfl

theorem reads_bound (inner : Reads settings a k us k' f) (derived : Derives settings a k us k' f) :
    Reads settings (.ahead a b) k us k' f := by
  intro t ht depth s rest clear deep hk hw stops calm
  simp only [Phrase.clear, Bool.and_eq_true] at clear
  obtain ⟨⟨⟨cleara, -⟩, starts⟩, -⟩ := clear
  have next : bindingAhead s.words = true := by
    unfold Phrase.startsBinding at starts
    split at starts
    · rename_i r c
      cases derived with
      | seq first second =>
        cases first
        cases second with
        | seq mark _ =>
          cases mark
          rw [hw]
          simpa [bindingAhead] using starts
    · cases starts
  refine .look (checkBinding_words s) calm fun calm => ?_
  rw [next] at calm ⊢
  refine inner ht cleara (le_trans (Nat.add_le_add_left (le_max_left _ _) _) deep) hk hw ?_ calm
  exact fun r hr => stops r (List.mem_cons_of_mem _ (List.mem_append_left _ hr))

theorem reads_unbound (inner : Reads settings b k us k' f)
    (derived : Derives settings b k us k' f) :
    Reads settings (.ahead a b) k us k' f := by
  intro t ht depth s rest clear deep hk hw stops calm
  simp only [Phrase.clear, Bool.and_eq_true] at clear
  obtain ⟨⟨⟨-, clearb⟩, -⟩, plain⟩ := clear
  have next : bindingAhead s.words = false := by
    unfold Phrase.isExpression at plain
    split at plain
    · rw [hw]
      rcases us with _ | ⟨v, _ | ⟨w, us⟩⟩
      · exact absurd rfl (derived.ne_nil rfl)
      · rcases rest with _ | ⟨w, rest⟩
        · rfl
        · refine Bool.eq_false_iff.mpr fun ahead => ?_
          simp only [bindingAhead, List.cons_append, List.nil_append, Bool.and_eq_true,
            decide_eq_true_eq] at ahead
          refine stops .bindArrow List.mem_cons_self ?_
          rw [leading, List.head?_cons, Option.bind_some, ahead.2]
          rfl
      · refine Bool.eq_false_iff.mpr fun ahead => ?_
        simp only [bindingAhead, List.cons_append, Bool.and_eq_true, decide_eq_true_eq] at ahead
        obtain ⟨kind, spelling⟩ := v
        obtain rfl : kind = .identifier := ahead.1
        obtain ⟨r, hr, marks⟩ := derived.second
        rw [ahead.2] at hr
        cases hr
        exact absurd marks (by decide)
    · cases plain
  refine .look (checkBinding_words s) calm fun calm => ?_
  rw [next] at calm ⊢
  refine inner ht clearb (le_trans (Nat.add_le_add_left (le_max_right _ _) _) deep) hk hw ?_ calm
  exact fun r hr => stops r (List.mem_cons_of_mem _ (List.mem_append_right _ hr))

theorem readsAll_nil {r : Reserved} : ReadsAll settings r a k [] k .nothing := by
  intro t _ depth fuel s rest _ _ enough hk hw stops calm
  obtain ⟨fuel, rfl⟩ := Nat.exists_eq_add_one_of_ne_zero (Nat.ne_zero_of_lt enough)
  have next : leading s.words ≠ some r := by
    rw [hw]
    exact stops r List.mem_cons_self
  refine .look (check_other next) calm fun _ => ?_
  exact .pure hk rfl

theorem readsAll_cons {r : Reserved} (first : Reads settings a k₁ us k₂ f)
    (all : ReadsAll settings r a k₂ vs k₃ h) (derived : Derives settings a k₁ us k₂ f)
    (behind : Derives settings (.star r a) k₂ vs k₃ h) :
    ReadsAll settings r a k₁ (us ++ vs) k₃ (f ++ h) := by
  intro t ht depth fuel s rest clear deep enough hk hw stops calm
  have clear' := clear
  simp only [Phrase.clear, Bool.and_eq_true, decide_eq_true_eq, Bool.not_eq_true',
    List.contains_eq_mem, decide_eq_false_iff_not] at clear'
  obtain ⟨⟨cleara, opener⟩, apart⟩ := clear'
  obtain ⟨fuel, rfl⟩ := Nat.exists_eq_add_one_of_ne_zero (Nat.ne_zero_of_lt enough)
  have opens := derived.opener opener
  have next : leading s.words = some r := by
    rw [hw, List.append_assoc, leading_append (ne_nil_of_leading opens), opens]
  have stopsa : ∀ r' ∈ a.greedy, leading (vs ++ rest) ≠ some r' := by
    intro r' hr' next'
    cases behind with
    | starNil => exact stops r' (List.mem_cons_of_mem _ hr') next'
    | starCons again _ =>
      have opens' := again.opener opener
      rw [List.append_assoc, leading_append (ne_nil_of_leading opens'), opens'] at next'
      cases next'
      exact apart hr'
  have growing := ht.upTo settings depth
  have items : Grows (repeatUpTo (check r) (a.read (.upTo settings t depth)) fuel) :=
    .repeatUpTo (grows_check r) (growing.read a) fuel
  rw [repeatUpTo_succ] at calm ⊢
  refine .look (check_leading next) calm fun calm => ?_
  refine .bind (fun f => items.bind fun _ => .pure _) behind.later calm
    (first ht cleara deep hk (by rw [hw, List.append_assoc]) stopsa)
    fun f' s' moved made calm => ?_
  have length := moved.length
  have := List.length_pos_iff.mpr (ne_nil_of_leading opens)
  rw [← List.append_nil vs]
  refine .bind (fun _ => .pure _) id calm
    (all ht clear (by omega) (by omega) moved.holds
      (rest_of_advanced moved (by rw [hw, List.append_assoc])) stops)
    fun fs s'' moved' made' _ => .pure moved'.holds ?_
  rw [Found.join, List.foldr_cons, ← Found.join, Found.unplaced_append, made, made']

theorem reads_gather (inner : Reads settings a k us k' f) :
    Reads settings (.gather a) k us k' f.gathered := by
  intro t ht depth s rest clear deep hk hw stops calm
  refine (inner ht clear deep hk hw stops calm.of_map).map fun f' made => ?_
  rw [← made]
  rfl

theorem reads_list (inner : Reads settings a k us k' f) :
    Reads settings (.list a) k us k' f.listed := by
  intro t ht depth s rest clear deep hk hw stops calm
  refine (inner ht clear deep hk hw stops calm.of_map).map fun f' made => ?_
  rw [Found.unplaced_listed, made]

theorem reads_demand {what : String} (inner : Reads settings a k us k' f) (some : f.nodes ≠ []) :
    Reads settings (.demand a what) k us k' f := by
  intro t ht depth s rest clear deep hk hw stops calm
  have growing := ht.upTo settings depth
  rw [← List.append_nil us]
  refine .bind (fun f => ?_) id calm (inner ht clear deep hk hw stops) fun f' s' moved made _ => ?_
  · split
    · exact (grows_failExpecting _).bind fun _ => .pure _
    · exact .pure _
  · have inhabited : f'.nodes.isEmpty = false := by
      rw [List.isEmpty_eq_false_iff]
      intro none
      rw [← made, Found.nodes_unplaced, none] at some
      exact some rfl
    rw [inhabited]
    exact .pure moved.holds made

theorem reads_node {head : Attributes → Head} (inner : Reads settings a k us k' f) :
    Reads settings (.node head a) k us (k'.after (.mk default (head f.attributes) f.slots))
      (.ofNode (.mk default (head f.attributes) f.slots)) := by
  intro t ht depth s rest clear deep hk hw stops calm
  have growing := ht.upTo settings depth
  rw [Phrase.read_node] at calm ⊢
  refine .look (peek_run s) calm fun calm => ?_
  rw [← List.append_nil us]
  refine .bind (fun f => (grows_spanFrom _).bind fun _ => (grows_announce _).bind fun _ => .pure _)
    Macros.Later.of_after calm (inner ht clear deep hk hw stops) fun f' s' moved made calm => ?_
  subst made
  obtain ⟨span, look⟩ : ∃ span, spanFrom s.next s' = (.ok span, s') := ⟨_, rfl⟩
  refine .look look calm fun calm => ?_
  have same : k'.after (.mk span (head f'.attributes) f'.slots) =
      k'.after (.mk default (head f'.unplaced.attributes) f'.unplaced.slots) := by
    rw [← Macros.after_unplaced, Node.unplaced_mk]
    rfl
  rw [← same] at calm ⊢
  show Succeeds s' ([] ++ []) _ _ _
  refine .bind (fun _ => .pure _) id calm (announce_succeeds moved.holds)
    fun _ s'' moved' _ _ => .pure moved'.holds ?_
  rw [Found.unplaced_ofNode, Node.unplaced_mk]
  rfl

theorem reads_chain (inner : Reads settings a k us k' f) :
    Reads settings (.chain a) k us k' (.ofNode (Node.ofArms default f.places f.slots)) := by
  intro t ht depth s rest clear deep hk hw stops calm
  have growing := ht.upTo settings depth
  rw [Phrase.read_chain] at calm ⊢
  refine .look (peek_run s) calm fun calm => ?_
  rw [← List.append_nil us]
  refine .bind (fun f => (grows_spanFrom _).bind fun _ => .pure _) id calm
    (inner ht clear deep hk hw stops) fun f' s' moved made calm => ?_
  refine .look (spanFrom_run _ s') calm fun calm => .pure moved.holds ?_
  rw [Found.unplaced_ofNode, Node.ofArms_unplaced, ← made]
  rfl

theorem reads_construct {c : Construct} {x y : String} (inner : Reads settings a k us k' f) :
    Reads settings (.construct c a) k
      ((.reserved c.opener, x) :: us ++ [(TokenKind.reserved c.closer, y)]) k' f := by
  intro t ht depth s rest clear deep hk hw stops calm
  simp only [Phrase.clear, Bool.and_eq_true, Bool.not_eq_true', List.contains_eq_mem,
    decide_eq_false_iff_not] at clear
  have growing := ht.upTo settings depth
  have opens : leading s.words = some c.opener := by
    rw [hw]
    rfl
  have ahead : s.words = (.reserved c.opener, x) :: (us ++ (.reserved c.closer, y) :: rest) := by
    rw [hw]
    simp only [List.cons_append, List.append_assoc, List.nil_append]
  have inside : (opened c s).words = us ++ (.reserved c.closer, y) :: rest :=
    (next_of_words ahead TokenKind.noConfusion).2.2
  rw [Phrase.read, discard_bind, run_bind, openConstruct_leading opens] at calm ⊢
  dsimp only at calm ⊢
  have shorter : s.rest.length = (opened c s).rest.length + 1 := by
    rw [← length_words, ← length_words, inside, ahead, List.length_cons]
  have deep' : 2 * (opened c s).rest.length + a.cost ≤ depth := by
    have := a.cost_le
    omega
  obtain ⟨f', s', run, moved, made⟩ := inner ht clear.1 deep' hk inside
    (fun r hr next => clear.2 (Option.some.inj next ▸ hr))
    (calm.imp_left (quiet_of_bind fun f => grows_closeConstruct.bind fun _ => .pure _))
  have closes : leading s'.words = some c.closer := by
    rw [rest_of_advanced moved inside]
    rfl
  obtain ⟨x', y', whole⟩ := ParserState.Advanced.construct opens moved closes
  rw [run_bind, run]
  dsimp only
  rw [run_bind, closeConstruct_leading moved.frames closes]
  refine ⟨f', closed s', rfl, ?_, made⟩
  have same := whole.words.symm.trans hw
  simp only [List.cons_append, List.append_assoc, List.nil_append, List.cons.injEq, Prod.mk.injEq,
    true_and, List.append_cancel_left_eq] at same
  obtain ⟨rfl, rfl, -⟩ := same
  exact whole

/-! ## Expressions -/

theorem of_map_ok {α β : Type} {p : Parser α} {f : α → β} {b : β} {s s' : ParserState}
    (h : (f <$> p) s = (.ok b, s')) : ∃ a, p s = (.ok a, s') ∧ b = f a := by
  rw [run_map] at h
  rcases hp : p s with ⟨_ | a, s''⟩ <;> rw [hp] at h <;> cases h
  exact ⟨a, rfl, rfl⟩

theorem readExpression_of_operand {g : Nonterminals} {n : Node} {s s' : ParserState} (l : Level)
    (h : g.operand s = (.ok n, s')) :
    g.readExpression l s = g.extendUpTo l (s'.rest.length + 1) n s' := by
  unfold Nonterminals.readExpression
  rw [run_bind, h]
  rfl

theorem atom?_of_word {t u : Token} (h : t.word = u.word) :
    (Nonterminals.atom? t).map Node.unplaced = (Nonterminals.atom? u).map Node.unplaced := by
  obtain ⟨kind, lexeme, location, stop⟩ := t
  obtain ⟨kind', lexeme', location', stop'⟩ := u
  obtain ⟨rfl, rfl⟩ : kind = kind' ∧ lexeme = lexeme' := Prod.mk.inj h
  cases kind with
  | reserved r => cases r <;> rfl
  | identifier | number | text | endOfInput => rfl

theorem atomicPattern?_of_word {t u : Token} (h : t.word = u.word) :
    (Nonterminals.atomicPattern? t).map Node.unplaced =
      (Nonterminals.atomicPattern? u).map Node.unplaced := by
  obtain ⟨kind, lexeme, location, stop⟩ := t
  obtain ⟨kind', lexeme', location', stop'⟩ := u
  obtain ⟨rfl, rfl⟩ : kind = kind' ∧ lexeme = lexeme' := Prod.mk.inj h
  cases kind with
  | reserved r => cases r <;> rfl
  | identifier | number | text | endOfInput => rfl

theorem reaches_atom {t : Token} {n : Node} (h : Nonterminals.atom? t = some n) :
    Reaches settings .primary k [t.word] k (.ofNode n.unplaced) := by
  intro again _ depth s rest l' _ _ hk hw _ _
  have inner : t.isEnd = false := Phrase.isEnd_of_atom h
  obtain ⟨word, inner, -⟩ := next_of_words hw (by simpa [Token.isEnd, Token.word] using inner)
  have atom := atom?_of_word word
  rw [h, Option.map_some] at atom
  obtain ⟨n', made, same⟩ := Option.map_eq_some_iff.mp atom
  have run : (Found.ofNode <$> (Nonterminals.upTo settings again depth).operand) s =
      (.ok (.ofNode n'), passed s) := by
    rw [Phrase.operand_run, made]
  obtain ⟨n'', run, e⟩ := of_map_ok run
  obtain rfl := Found.ofNode_inj e
  refine ⟨n', passed s, _, readExpression_of_operand l' run, ?_, Nat.lt_succ_self _, by rw [same]⟩
  rw [← word]
  exact .one hk inner

theorem reaches_operand {r : Reserved} (h : Phrase.operand? r = some a)
    (inner : Reads settings a k us k' f) (derived : Derives settings a k us k' f) :
    Reaches settings (Phrase.operandLevel r) k us k' f := by
  intro t ht depth s rest l' _ deep hk hw stops calm
  have growing := ht.upTo settings depth
  have leads := Phrase.leads_operand h
  have opens := derived.opener leads.opener
  have next : s.next.reserved? = some r := by
    rw [next_reserved?, hw, leading_append (ne_nil_of_leading opens), opens]
  have noAtom : Nonterminals.atom? s.next = none := by
    have kind : s.next.kind = .reserved r := by
      simpa [Token.isReserved] using isReserved_iff.mpr next
    unfold Nonterminals.atom?
    rw [kind]
    cases Phrase.IsOperand.of h <;> rfl
  have run : (Found.ofNode <$> (Nonterminals.upTo settings t depth).operand) s =
      a.read (.upTo settings t depth) s := by
    rw [Phrase.operand_run, noAtom, next, Option.bind_some, h]
  have calm : Calm (a.read (.upTo settings t depth) s).2.unit k' := by
    rw [← run]
    exact calm.imp_left fun quiet => Nonterminals.Sound.quiet_map _
      (quiet_of_bind (fun n => .of_get fun s => growing.extendUpTo l' _ n) quiet)
  obtain ⟨f', s', found, moved, made⟩ := inner ht leads.clear (by rw [leads.cost]; exact deep) hk hw
    (fun r' hr' => stops r' (Phrase.greedy_operand h hr')) calm
  obtain ⟨n, run, rfl⟩ := of_map_ok (run.trans found)
  exact ⟨n, s', _, readExpression_of_operand l' run, moved, Nat.lt_succ_self _, made⟩

theorem reaches_tighter {l m : Level} (le : l.rank ≤ m.rank)
    (reaches : Reaches settings m k us k' f) :
    Reaches settings l k us k' f := by
  intro t ht depth s rest l' le' deep hk hw stops calm
  exact reaches ht (le_trans le' le) deep hk hw
    (fun r hr => stops r (Phrase.operatorsFrom_mono (Nat.succ_le_succ le) hr)) calm

theorem reaches_tail {r : Reserved} {m : Level} {n : Node} (h : Phrase.tail? r = some (m, a))
    (first : Reaches settings m k₁ us k₂ (.ofNode n)) (second : Reads settings a k₂ vs k₃ f)
    (derived : Derives settings a k₂ vs k₃ f) :
    Reaches settings m k₁ (us ++ vs) k₃ (.ofNode (Node.extended k₃.defines default m n f)) := by
  intro t ht depth s rest l' le deep hk hw stops calm
  have growing := ht.upTo settings depth
  have leads := Phrase.leads_tail h
  have opens := derived.opener leads.opener
  have next : leading (vs ++ rest) = some r := by
    rw [leading_append (ne_nil_of_leading opens), opens]
  have hw : s.words = us ++ (vs ++ rest) := by rw [hw, List.append_assoc]
  have loose : ∀ r' ∈ Phrase.operatorsFrom (m.rank + 1), leading (vs ++ rest) ≠ some r' := by
    intro r' hr' next'
    obtain ⟨m', a', h', above⟩ := Phrase.mem_operatorsFrom.mp hr'
    rw [next] at next'
    cases next'
    rw [h] at h'
    cases h'
    exact Nat.not_succ_le_self _ above
  obtain ⟨n', s', fuel, run, moved, enough, made⟩ := first ht le deep hk hw loose
    (calm.imp_right derived.later)
  obtain ⟨fuel, rfl⟩ := Nat.exists_eq_add_one_of_ne_zero (Nat.ne_zero_of_lt enough)
  have hw' : s'.words = vs ++ rest := rest_of_advanced moved hw
  have goes : (Nonterminals.upTo settings t depth).readExpression l' s =
      ((peek >>= fun start => a.read (.upTo settings t depth) >>= extend m n' start) >>=
        (Nonterminals.upTo settings t depth).extendUpTo l' fuel) s' := by
    rw [run, Phrase.extendUpTo_run, next_reserved?, hw', next, Option.bind_some, h]
    dsimp only
    rw [if_pos le]
  rw [goes] at calm
  have length := moved.length
  have tail : Succeeds s' (vs ++ []) k₃
      (fun n'' => n''.unplaced = Node.extended k₃.defines default m n f)
      ((peek >>= fun start => a.read (.upTo settings t depth) >>= extend m n' start) s') := by
    have calm := calm.imp_left (quiet_of_bind fun n => growing.extendUpTo l' fuel n)
    rw [List.append_nil]
    refine .look (peek_run s') calm fun calm => ?_
    rw [← List.append_nil vs]
    refine .bind (fun f => Nonterminals.Growing.extend _ _ _ _) id calm
      (second ht leads.clear (by rw [leads.cost]; omega) moved.holds hw'
        fun r' hr' => stops r' (Phrase.greedy_tail h hr')) fun f' s'' moved' made' _ => ?_
    obtain ⟨span, run'⟩ := extend_run moved'.holds m n' s'.next f'
    rw [run']
    refine .pure moved'.holds ?_
    rw [Found.unplaced_extended, Found.ofNode_inj made, made']
  rw [List.append_nil] at tail
  obtain ⟨n'', s'', run', moved', made'⟩ := tail
  have length' := moved'.length
  have := List.length_pos_iff.mpr (ne_nil_of_leading opens)
  refine ⟨n'', s'', fuel, ?_, moved.trans moved', by omega, by rw [made']⟩
  rw [goes, run_bind, run']

/-! ## Patterns -/

theorem reads_atomicPattern {t : Token} {n : Node} (h : Nonterminals.atomicPattern? t = some n) :
    Reads settings (.part .pattern) k [t.word] k (.ofNode n.unplaced) := by
  intro again _ depth s rest _ deep hk hw _ _
  obtain ⟨depth, rfl⟩ := Nat.exists_eq_add_one_of_ne_zero
    (Nat.ne_zero_of_lt (Nat.lt_of_lt_of_le (Nat.lt_succ_self _) deep))
  have inner : t.isEnd = false := Phrase.isEnd_of_atomicPattern h
  obtain ⟨word, inner, -⟩ := next_of_words hw (by simpa [Token.isEnd, Token.word] using inner)
  have atom := atomicPattern?_of_word word
  rw [h, Option.map_some] at atom
  obtain ⟨n', made, same⟩ := Option.map_eq_some_iff.mp atom
  refine ⟨.ofNode n', passed s, ?_, ?_, congrArg Found.ofNode same⟩
  · show (Found.ofNode <$> (Nonterminals.upTo settings again depth).readPattern) s = _
    rw [Phrase.pattern_run, made]
  · rw [← word]
    exact .one hk inner

theorem reads_compositePattern {r : Reserved} (h : Phrase.pattern? r = some a)
    (inner : Reads settings a k us k' f) (derived : Derives settings a k us k' f) :
    Reads settings (.part .pattern) k us k' f := by
  intro t ht depth s rest _ deep hk hw _ calm
  obtain ⟨depth, rfl⟩ := Nat.exists_eq_add_one_of_ne_zero
    (Nat.ne_zero_of_lt (Nat.lt_of_lt_of_le (Nat.lt_succ_self _) deep))
  have leads := Phrase.leads_pattern h
  have opens := derived.opener leads.opener
  have next : s.next.reserved? = some r := by
    rw [next_reserved?, hw, leading_append (ne_nil_of_leading opens), opens]
  have noAtom : Nonterminals.atomicPattern? s.next = none := by
    have kind : s.next.kind = .reserved r := by
      simpa [Token.isReserved] using isReserved_iff.mpr next
    unfold Nonterminals.atomicPattern?
    rw [kind]
    cases Phrase.IsComposite.of h <;> rfl
  have run : (Phrase.part .pattern).read (.upTo settings t (depth + 1)) s =
      a.read (.upTo settings t depth) s := by
    show (Found.ofNode <$> (Nonterminals.upTo settings t depth).readPattern) s = _
    rw [Phrase.pattern_run, noAtom, next, Option.bind_some, h]
  rw [run] at calm ⊢
  refine inner ht leads.clear ?_ hk hw ?_ calm
  · rw [leads.cost]
    exact Nat.le_of_succ_le_succ deep
  · rw [Phrase.greedy_pattern h]
    exact fun r hr => absurd hr List.not_mem_nil

theorem reads_binding {n : Node} (inner : Reads settings (.part .pattern) k us k' (.ofNode n))
    (flawless : n.patternFlaw? = none) : Reads settings (.part .binding) k us k' (.ofNode n) := by
  intro t ht depth s rest _ deep hk hw stops calm
  have growing := ht.upTo settings depth
  have calm : Calm ((Phrase.part .pattern).read (.upTo settings t depth) s).2.unit k' := by
    refine calm.imp_left fun quiet => Nonterminals.Sound.quiet_map _ ?_
    refine quiet_of_bind (fun m => ?_) (Nonterminals.Sound.quiet_of_map quiet)
    split
    · exact .throw _
    · exact .pure _
  obtain ⟨f', s', run, moved, made⟩ := inner ht rfl deep hk hw stops calm
  obtain ⟨m, read, rfl⟩ := of_map_ok run
  have flawless : m.patternFlaw? = none := by
    rw [← Node.patternFlaw?_unplaced, Found.ofNode_inj made, flawless]
  refine ⟨.ofNode m, s', ?_, moved, made⟩
  show (Found.ofNode <$> (Nonterminals.upTo settings t depth).wellFormedPattern) s = _
  unfold Nonterminals.wellFormedPattern
  rw [run_map, run_bind, read]
  dsimp only
  rw [flawless]
  rfl

/-! ## Statements -/

/-- The next statement is read as the phrase that its first token tells. -/
theorem statement_reads {t : Rereading} (ht : t.Growing) {depth : Nat} {s : ParserState}
    {rest : List Word} {n : Node} (reads : Reads settings a k us k' (.ofNode n))
    (clear : a.clear = true) (deep : 2 * s.rest.length + 2 ≤ depth + 1) (cheap : a.cost ≤ 1)
    (hk : s.unit.registry.Holds k) (hw : s.words = us ++ rest)
    (stops : ∀ r ∈ a.greedy, leading rest ≠ some r)
    (phrase : ∀ s : ParserState, s.words = us ++ rest →
      (Found.ofNode <$> (Nonterminals.upTo settings t depth).plainStatement settings) s =
        a.read (.upTo settings t depth) s)
    (calm : Calm ((Nonterminals.upTo settings t (depth + 1)).statement s).2.unit k') :
    Succeeds s us k' (fun ns => ns.map Node.unplaced = [n])
      ((Nonterminals.upTo settings t (depth + 1)).statement s) := by
  have growing := ht.upTo settings depth
  have run : (Nonterminals.upTo settings t (depth + 1)).statement s =
      (Slot.toList <$> ((Nonterminals.upTo settings t depth).plainStatement settings >>=
        t.completion s.pending)) { s with pending := 0 } := by
    show (Slot.toList <$> t.completed _) s = _
    rw [run_map, Rereading.completed_run, ← run_map]
  rw [run] at calm ⊢
  have calm : Calm (a.read (.upTo settings t depth) { s with pending := 0 }).2.unit k' := by
    rw [← phrase { s with pending := 0 } hw]
    exact calm.imp_left fun quiet => Nonterminals.Sound.quiet_map _
      (quiet_of_bind (Rereading.grows_completion ht _) (Nonterminals.Sound.quiet_of_map quiet))
  obtain ⟨f', s', found, moved, made⟩ := reads (s := { s with pending := 0 }) ht clear
    (by show 2 * s.rest.length + a.cost ≤ depth; omega) hk hw stops calm
  rw [← phrase { s with pending := 0 } hw] at found
  obtain ⟨n', read, rfl⟩ := of_map_ok found
  refine ⟨[n'], { s' with pending := s.pending }, ?_,
    ⟨moved.words, moved.frames, moved.scopes, rfl, moved.checks, moved.holds, moved.quiet⟩, ?_⟩
  · rw [run_map, run_bind, read]
    dsimp only
    rw [Rereading.completion_run moved.pending]
    rfl
  · exact congrArg (fun m => [m]) (Found.ofNode_inj made)

theorem readsStatements_nil : ReadsStatements settings k [] k (.ofNodes []) := by
  intro t _ depth fuel s rest test item loop _ enough hk hw _ calm
  obtain ⟨fuel, rfl⟩ := Nat.exists_eq_add_one_of_ne_zero (Nat.ne_zero_of_lt enough)
  refine .look (loop.ends s hw) calm fun _ => ?_
  exact .pure hk rfl

/-- A phrase that statements start with, which is a statement of its own there. -/
structure Opens (settings : Settings) (a : Phrase) (k : Macros) (us : List Word) (k' : Macros)
    (n : Node) : Prop where
  derived : Derives settings a k us k' (.ofNode n)
  clear : a.clear = true
  cheap : a.cost ≤ 1
  full : us ≠ []
  begins : ∀ r, leading us = some r → r ∈ Phrase.nonterminalStarts .statements
  plain : ∀ {t : Rereading} {depth : Nat} {s : ParserState} {rest : List Word},
    s.words = us ++ rest →
      (Found.ofNode <$> (Nonterminals.upTo settings t depth).plainStatement settings) s =
        a.read (.upTo settings t depth) s

theorem readsStatements_cons {n : Node} {ns : List Node} (opens : Opens settings a k₁ us k₂ n)
    (reads : Reads settings a k₁ us k₂ (.ofNode n))
    (stops : ∀ rest, (∀ r ∈ Phrase.tailMarks, leading rest ≠ some r) →
      ∀ r ∈ a.greedy, leading (vs ++ rest) ≠ some r)
    (behind : Derives settings (.part .statements) k₂ vs k₃ (.ofNodes ns))
    (all : ReadsStatements settings k₂ vs k₃ (.ofNodes ns)) :
    ReadsStatements settings k₁ (us ++ vs) k₃ (.ofNodes (n :: ns)) := by
  intro t ht depth fuel s rest test item loop deep enough hk hw free calm
  obtain ⟨depth, rfl⟩ := Nat.exists_eq_add_one_of_ne_zero
    (Nat.ne_zero_of_lt (Nat.lt_of_lt_of_le (Nat.lt_succ_self _) deep))
  obtain ⟨fuel, rfl⟩ := Nat.exists_eq_add_one_of_ne_zero (Nat.ne_zero_of_lt enough)
  have hw : s.words = us ++ (vs ++ rest) := by rw [hw, List.append_assoc]
  have next : test s = (.ok true, s) := by
    obtain ⟨u, us', rfl⟩ := List.exists_cons_of_ne_nil opens.full
    have inner := opens.derived.inner u List.mem_cons_self
    refine loop.begins s (next_of_words hw inner).2.1 fun r hr => ?_
    rw [hw] at hr
    exact opens.begins r hr
  have items : Grows (repeatUpTo test item fuel) := .repeatUpTo loop.tests loop.items fuel
  rw [repeatUpTo_succ] at calm ⊢
  refine .look next calm fun calm => ?_
  simp only [if_true] at calm ⊢
  refine .bind (P := fun ns => ns.map Node.unplaced = [n])
    (fun ns => items.bind fun _ => .pure _) behind.later calm (fun calm => ?_)
    fun ms s' moved made calm => ?_
  · rw [loop.same s rfl] at calm ⊢
    exact statement_reads ht reads opens.clear deep opens.cheap hk hw (stops rest free)
      (fun s hw => opens.plain hw) calm
  have length := moved.length
  have := List.length_pos_iff.mpr opens.full
  rw [← List.append_nil vs]
  refine .bind (fun _ => .pure _) id calm
    (all ht (moved.checks ▸ loop) (by omega) (by omega) moved.holds
      (rest_of_advanced moved hw) free)
    fun nss s'' moved' made' _ => .pure moved'.holds ?_
  rw [List.flatten_cons, List.map_append, made, Found.ofNodes_inj made']
  rfl

theorem opens_phrase {r : Reserved} {n : Node} (h : Phrase.statement? settings r = some a)
    (derived : Derives settings a k us k' (.ofNode n)) : Opens settings a k us k' n := by
  have leads := Phrase.leads_statement h
  have opens := derived.opener leads.opener
  refine ⟨derived, leads.clear, by rw [leads.cost]; exact Nat.zero_le 1, ne_nil_of_leading opens,
    fun r' hr' => ?_, fun {t depth s rest} hw => ?_⟩
  · rw [opens] at hr'
    cases hr'
    exact List.mem_append_left _ (Phrase.mem_statement h)
  · have next : s.next.reserved? = some r := by
      rw [next_reserved?, hw, leading_append (ne_nil_of_leading opens), opens]
    rw [Phrase.plainStatement_eq, run_bind, peek_run]
    dsimp only
    rw [next, Option.bind_some, h]

theorem opens_expression {n : Node}
    (derived : Derives settings .expressionStmt k us k' (.ofNode n)) :
    Opens settings .expressionStmt k us k' n := by
  have full : us ≠ [] := derived.ne_nil rfl
  refine ⟨derived, rfl, Nat.le_refl 1, full, fun r hr => ?_, fun {t depth s rest} hw => ?_⟩
  · exact List.mem_append_right _ (derived.starts hr)
  · have next : s.next.reserved?.bind (Phrase.statement? settings) = none := by
      rw [next_reserved?, hw, leading_append full]
      cases hr : leading us with
      | none => rfl
      | some r =>
        rw [Option.bind_some]
        cases h : Phrase.statement? settings r with
        | none => rfl
        | some a =>
          have apart : ∀ r ∈ Phrase.expressionMarks, r ∉ Phrase.statementMarks := by decide
          exact absurd (Phrase.mem_statement h) (apart r (derived.starts hr))
    rw [Phrase.plainStatement_eq, run_bind, peek_run]
    dsimp only
    rw [next]

theorem readsStatements_phrase {r : Reserved} {n : Node} {ns : List Node}
    (h : Phrase.statement? settings r = some a) (reads : Reads settings a k₁ us k₂ (.ofNode n))
    (derived : Derives settings a k₁ us k₂ (.ofNode n))
    (behind : Derives settings (.part .statements) k₂ vs k₃ (.ofNodes ns))
    (all : ReadsStatements settings k₂ vs k₃ (.ofNodes ns)) :
    ReadsStatements settings k₁ (us ++ vs) k₃ (.ofNodes (n :: ns)) := by
  refine readsStatements_cons (opens_phrase h derived) reads (fun rest _ r hr => ?_) behind all
  rw [Phrase.greedy_statement h] at hr
  exact absurd hr List.not_mem_nil

/-- An expression is a statement where no `((` follows it. -/
theorem readsStatements_expression {n : Node} {ns : List Node}
    (reads : Reads settings .expressionStmt k₁ us k₂ (.ofNode n))
    (derived : Derives settings .expressionStmt k₁ us k₂ (.ofNode n))
    (behind : Derives settings (.part .statements) k₂ vs k₃ (.ofNodes ns))
    (uncalled : leading vs ≠ some .listOpen)
    (all : ReadsStatements settings k₂ vs k₃ (.ofNodes ns)) :
    ReadsStatements settings k₁ (us ++ vs) k₃ (.ofNodes (n :: ns)) := by
  refine readsStatements_cons (opens_expression derived) reads (fun rest free r hr next => ?_)
    behind all
  have hr : r ∈ Phrase.operatorsFrom Level.conditional.rank := hr
  have goes : r ∈ Phrase.tailMarks := Phrase.operatorsFrom_subset hr
  rcases vs with _ | ⟨v, vs⟩
  · exact free r goes next
  · have next : leading (v :: vs) = some r := next
    have shared : ∀ r ∈ Phrase.tailMarks, r ∈ Phrase.nonterminalStarts .statements →
        r = .listOpen := by decide
    rw [shared r goes (behind.starts next)] at next
    exact uncalled next

theorem reads_body {ns : List Node} {x y : String}
    (all : ReadsStatements settings k us k' (.ofNodes ns)) :
    Reads settings (.part .body) k
      ((.reserved .bodyOpen, x) :: us ++ [(TokenKind.reserved .bodyClose, y)]) k'
      (.ofNode (.block default ns [])) := by
  intro t ht depth s rest _ deep hk hw _ calm
  have growing := ht.upTo settings depth
  have opens : leading s.words = some .bodyOpen := by
    rw [hw]
    rfl
  have ahead : s.words = (.reserved .bodyOpen, x) :: (us ++ (.reserved .bodyClose, y) :: rest) := by
    rw [hw]
    simp only [List.cons_append, List.append_assoc, List.nil_append]
  have inside : (entered s).words = us ++ (.reserved .bodyClose, y) :: rest :=
    (next_of_words ahead TokenKind.noConfusion).2.2
  have shorter : s.rest.length = (entered s).rest.length + 1 := by
    rw [← length_words, ← length_words, inside, ahead, List.length_cons]
  have loop : StatementLoop settings t depth (entered s).unit.checks
      ((.reserved .bodyClose, y) :: rest) (not <$> Nonterminals.atBodyEnd) (Nonterminals.upTo settings t depth).statement := by
    have apart : ∀ r ∈ Phrase.nonterminalStarts .statements,
        (Construct.isCloser r || Nonterminals.armMarks.contains r) = false := by decide
    refine ⟨fun s inner begins => ?_, fun s hw => ?_, Nonterminals.Growing.atBodyEnd.map,
      growing.statement, fun _ _ => rfl⟩
    · rw [atBodyEnd_run, inner]
      cases hr : leading s.words with
      | none => rfl
      | some r => rw [Option.any_some, apart r (begins r hr)]; rfl
    · have closes : (Construct.isCloser .bodyClose ||
          Nonterminals.armMarks.contains .bodyClose) = true := by decide
      rw [atBodyEnd_run, hw, leading_cons, Option.any_some, closes, Bool.or_true]
      rfl
  have calm := calm.of_map
  rw [body_leading opens] at calm
  have leaves : ∀ nss, Grows (leaveBody s.next nss) := fun nss =>
    grows_closeConstruct.bind fun _ => grows_closeScope.bind fun _ =>
      (grows_spanFrom _).bind fun _ => .pure _
  have deep : 2 * s.rest.length ≤ depth := deep
  have free : ∀ r ∈ Phrase.tailMarks, leading ((.reserved .bodyClose, y) :: rest) ≠ some r := by
    intro r hr next
    cases next
    exact absurd hr (by decide)
  obtain ⟨nss, s', run, moved, made⟩ := all ht loop (by omega) (Nat.lt_succ_self _) hk inside
    free (calm.imp_left (quiet_of_bind leaves))
  have closes : leading s'.words = some .bodyClose := by
    rw [rest_of_advanced moved inside]
    rfl
  obtain ⟨span, leave⟩ := leaveBody_run s.next nss moved.frames moved.scopes closes
  obtain ⟨x', y', whole⟩ := ParserState.Advanced.body opens moved closes
  refine ⟨.ofNode (.block span nss.flatten []), left s', ?_, ?_, ?_⟩
  · show (Found.ofNode <$> (Nonterminals.upTo settings t depth).body) s = _
    have read : repeatWhile (not <$> Nonterminals.atBodyEnd)
        (Nonterminals.upTo settings t depth).statement (entered s) = (.ok nss, s') := run
    rw [run_map, body_leading opens, run_bind, read]
    dsimp only
    rw [leave]
  · have same := whole.words.symm.trans hw
    simp only [List.cons_append, List.append_assoc, List.nil_append, List.cons.injEq, Prod.mk.injEq,
      true_and, List.append_cancel_left_eq] at same
    obtain ⟨rfl, rfl, -⟩ := same
    exact whole
  · show Found.ofNode (Node.unplaced (.mk _ _ _)) = _
    rw [Node.unplaced_mk, ← Found.ofNodes_inj made]
    rfl

/-! ## All derivations -/

/-- What is derived is read. -/
theorem Derives.completes (derived : Derives settings a k us k' f) :
    Completes settings a k us k' f := by
  induction derived with
  | give => exact reads_give
  | place => exact reads_place
  | mark => exact reads_mark
  | kept => exact reads_kept
  | spelled => exact reads_spelled
  | name => exact reads_name
  | seq first second iha ihb => exact reads_seq iha.reads ihb.reads first second
  | left inner ih => exact reads_left ih.reads inner
  | right inner ih => exact reads_right ih.reads inner
  | bound inner ih => exact reads_bound ih.reads inner
  | unbound inner ih => exact reads_unbound ih.reads inner
  | starNil => exact readsAll_nil
  | starCons first again iha ihb => exact readsAll_cons iha.reads ihb first again
  | gather _ ih => exact reads_gather ih.reads
  | list _ ih => exact reads_list ih.reads
  | demand _ some ih => exact reads_demand ih.reads some
  | node _ ih => exact reads_node ih.reads
  | chain _ ih => exact reads_chain ih.reads
  | construct _ ih => exact reads_construct ih.reads
  | atom h => exact reaches_atom h
  | operand h inner ih => exact reaches_operand h ih.reads inner
  | tighter le _ ih => exact reaches_tighter le ih
  | tail h left right iha ihb => exact reaches_tail h iha ihb.reads right
  | atomicPattern h => exact reads_atomicPattern h
  | compositePattern h inner ih => exact reads_compositePattern h ih.reads inner
  | binding _ flawless ih => exact reads_binding ih.reads flawless
  | body _ ih => exact reads_body ih
  | noStatement => exact readsStatements_nil
  | statement h inner behind iha ihb => exact readsStatements_phrase h iha.reads inner behind ihb
  | expressionStmt inner behind uncalled iha ihb =>
    exact readsStatements_expression iha.reads inner behind uncalled ihb

end

end GlyphScript
