import GlyphScript.Proofs.Parsing.Soundness
import GlyphScript.Proofs.Safety.Faults
import GlyphScript.Proofs.Safety.Phrases

/-!
# Reading sorted nodes

A parser closes the constructs and leaves the scopes that it has opened, and
every turn of a repetition reads a token. So where a parser fails, it fails with
a documented fault, and what it reads is sorted.
-/

namespace GlyphScript

open GlyphScript.Parser

/-! ## Going on -/

/-- From the first state to the second `k` tokens at least have been read; as many constructs and
scopes are open. -/
structure ParserState.Resumes (k : Nat) (s s' : ParserState) : Prop where
  tokens : s'.rest.length + k ≤ s.rest.length
  frames : s'.frames = s.frames
  scopes : s'.scopes.length = s.scopes.length

namespace ParserState.Resumes

variable {s s' s'' : ParserState} {k k' : Nat}

theorem refl (s : ParserState) : Resumes 0 s s := ⟨le_rfl, rfl, rfl⟩

theorem trans (h : Resumes k s s') (h' : Resumes k' s' s'') : Resumes (k + k') s s'' where
  tokens := by
    have := h.tokens
    have := h'.tokens
    omega
  frames := h'.frames.trans h.frames
  scopes := h'.scopes.trans h.scopes

theorem mono (h : Resumes k s s') (le : k' ≤ k) : Resumes k' s s' :=
  ⟨le_trans (Nat.add_le_add_left le _) h.tokens, h.frames, h.scopes⟩

end ParserState.Resumes

theorem length_passed {s : ParserState} (h : s.next.isEnd = false) :
    (passed s).rest.length + 1 = s.rest.length := by
  have words := congrArg List.length (words_of_isEnd h)
  rw [length_words, List.length_cons, length_words] at words
  exact words.symm

theorem ParserState.Resumes.passed {s : ParserState} (h : s.next.isEnd = false) :
    Resumes 1 s (passed s) :=
  ⟨(length_passed h).le, rfl, rfl⟩

/-- All macros of the unit are sorted. -/
def ParserState.Sorted (s : ParserState) : Prop := s.unit.Sorted

/-- A parser at `s` fails with a documented fault, or has read `k` tokens at least and found what
`P` says. -/
def Safely {α : Type} (s : ParserState) (k : Nat) (P : α → Prop) :
    Except Fault α × ParserState → Prop :=
  Proper ParserState.Sorted fun a s' => s.Resumes k s' ∧ P a

namespace Safely

variable {α β : Type} {s : ParserState} {k k' : Nat} {P : α → Prop} {Q : β → Prop}

theorem bind {p : Parser α} {f : α → Parser β} (hp : Safely s k P (p s))
    (hf : ∀ a s', s'.Sorted → s.Resumes k s' → P a → Safely s' k' Q (f a s')) :
    Safely s (k + k') Q ((p >>= f) s) :=
  Proper.bind hp fun a s' hs' ⟨moved, made⟩ =>
    (hf a s' hs' moved made).mono fun _ _ ⟨moved', made'⟩ => ⟨moved.trans moved', made'⟩

/-- What follows reads no more than what has to be read. -/
theorem andThen {p : Parser α} {f : α → Parser β} (hp : Safely s k P (p s))
    (hf : ∀ a s', s'.Sorted → s.Resumes k s' → P a → Safely s' 0 Q (f a s')) :
    Safely s k Q ((p >>= f) s) := hp.bind hf

theorem map {p : Parser α} {f : α → β} (hp : Safely s k P (p s)) (h : ∀ a, P a → Q (f a)) :
    Safely s k Q ((f <$> p) s) :=
  Proper.map hp fun a _ ⟨moved, made⟩ => ⟨moved, h a made⟩

theorem mono {P' : α → Prop} {res : Except Fault α × ParserState} (h : Safely s k P res)
    (hP : ∀ a, P a → P' a) (le : k' ≤ k) : Safely s k' P' res :=
  Proper.mono h fun a _ ⟨moved, made⟩ => ⟨moved.mono le, hP a made⟩

theorem pure {a : α} (hs : s.Sorted) (h : P a) : Safely s 0 P ((pure a : Parser α) s) :=
  .ok hs ⟨.refl s, h⟩

/-- Looking leaves everything as it is. -/
theorem look {p : Parser α} {a : α} {f : α → Parser β} (hp : p s = (.ok a, s))
    (hf : Safely s k Q (f a s)) : Safely s k Q ((p >>= f) s) := by
  rw [run_bind, hp]
  exact hf

theorem of_map {f : α → β} {p : Parser α} (h : Safely s k Q ((f <$> p) s)) :
    Safely s k (fun a => Q (f a)) (p s) := by
  rw [run_map] at h
  rcases hp : p s with ⟨_ | a, s'⟩ <;> rw [hp] at h <;> dsimp only at h <;> cases h
  case error.fault documented kept => exact .fault documented kept
  case ok.ok kept made => exact .ok kept made

end Safely

/-- What results of parsers wherever they are at work. -/
def safe : Guarantee Parser where
  holds x p := ∀ s : ParserState, s.Sorted → Safely s 0 p (x s)
  pure h _ hs := .pure hs h
  bind hx hf s hs := (hx s hs).bind fun a s' hs' _ ha => hf a ha s' hs'

/-! ## Work on the unit -/

section

variable {α : Type} {P : α → Prop}

theorem safe_throw {f : Fault} (h : f.Documented) : safe.holds (throw f : Parser α) P :=
  fun _ hs => .fault h hs

theorem safe_get : safe.holds (get : Parser ParserState) ParserState.Sorted :=
  fun s hs => .ok hs ⟨.refl s, hs⟩

/-- Changes that no parser is stopped by. -/
theorem safe_modify {f : ParserState → ParserState} (unit : ∀ s, (f s).unit = s.unit)
    (resumes : ∀ s : ParserState, s.Resumes 0 (f s)) : safe.holds (modify f : Parser Unit) fun _ => True :=
  fun s hs => .ok ((congrArg UnitState.Sorted (unit s)).mpr hs) ⟨resumes s, trivial⟩

theorem safe_ofWork {w : Work α} (h : Work.proper.holds w P) : safe.holds (ofWork w) P := by
  intro s hs
  show Safely s 0 P ((w s.unit).1, { s with unit := (w s.unit).2 })
  have done := h s.unit hs
  generalize w s.unit = res at done
  cases done with
  | fault documented kept => exact .fault documented kept
  | ok kept made => exact .ok kept ⟨⟨le_rfl, rfl, rfl⟩, made⟩

/-- A sorted node that defines a macro makes it known; other nodes change no macro. -/
theorem safe_announce {n : Node} (hn : n.Sorted) : safe.holds (announce n) fun _ => True := by
  unfold announce
  split
  · split
    · rename_i d made
      exact safe_ofWork (Work.proper_register (MacroDefinition.sorted_of_node hn made))
    · exact safe.pure trivial
  · refine safe.bind safe_get fun s _ => ?_
    split
    · exact safe_modify (fun _ => rfl) fun s => ⟨le_rfl, rfl, rfl⟩
    · exact safe.pure trivial
  · exact safe.pure trivial

end

/-! ## Tokens -/

section

variable {s : ParserState} (hs : s.Sorted)

include hs

theorem failExpecting_safely {α : Type} {k : Nat} {P : α → Prop} (e : Expected) :
    Safely s k P (failExpecting e s) := by
  rw [failExpecting_run]
  obtain ⟨p, hp⟩ := unwanted_parse e s
  rw [hp]
  exact .fault (by trivial) hs

theorem consume_safely (r : Reserved) : Safely s 1 (fun _ => True) (consume r s) := by
  rw [consume_run]
  split
  · rename_i h
    exact .ok hs ⟨.passed (isEnd_of_isReserved h), trivial⟩
  · obtain ⟨p, hp⟩ := unwanted_parse (.mark r) s
    rw [hp]
    exact .fault (by trivial) hs

theorem consumeName_safely (what : String) : Safely s 1 (fun _ => True) (consumeName what s) := by
  rw [consumeName_run]
  split
  · rename_i h
    exact .ok hs ⟨.passed (isEnd_of_identifier h), trivial⟩
  · obtain ⟨p, hp⟩ := unwanted_parse (.phrase what) s
    rw [hp]
    exact .fault (by trivial) hs

theorem openConstruct_proper (c : Construct) :
    Proper ParserState.Sorted (fun t s' => t = s.next ∧ s' = opened c s ∧
      (opened c s).rest.length + 1 = s.rest.length) (openConstruct c s) := by
  by_cases h : leading s.words = some c.opener
  · rw [openConstruct_leading h]
    exact .ok hs ⟨rfl, rfl, length_passed (isEnd_of_isReserved (isReserved_next.mpr h))⟩
  · obtain ⟨p, hp⟩ := unwanted_parse (.mark c.opener) s
    unfold openConstruct
    rw [run_bind, consume_run, if_neg fun h' => h (isReserved_next.mp h'), hp]
    exact .fault (by trivial) hs

theorem closeConstruct_proper {c : Construct} {t : Token} {frames : Frames}
    (hf : s.frames = ⟨c, t⟩ :: frames) :
    Proper ParserState.Sorted (fun _ s' => s' = closed s ∧ s'.rest.length ≤ s.rest.length)
      (closeConstruct s) := by
  rw [closeConstruct_run, hf]
  dsimp only
  split
  · refine .ok hs ⟨?_, ?_⟩
    · unfold closed passed
      rw [hf]
      rfl
    · exact (List.length_tail (l := s.rest)).trans_le (Nat.sub_le ..)
  · exact .fault (by trivial) hs

/-- Where a scope is open it can be left. -/
theorem closeScope_proper {k : Nat} (open' : s.scopes.length = k + 1) :
    Proper ParserState.Sorted (fun _ s' => ∃ scopes : List (List String), scopes.length = k ∧
      s' = { s with scopes }) (closeScope s) := by
  obtain ⟨names, scopes, made⟩ := List.exists_cons_of_length_eq_add_one open'
  rw [closeScope_run, made]
  rw [made] at open'
  exact .ok hs ⟨scopes, Nat.succ.inj open', rfl⟩

end

/-! ## Nonterminals -/

/-- The parsers for nonterminals find sorted nodes when `depth` is as deep as the tokens left
demand. -/
structure Nonterminals.Safe (g : Nonterminals) (depth : Nat) : Prop where
  expression : ∀ l s, 2 * s.rest.length + 1 ≤ depth → s.Sorted →
    Safely s 1 (Node.OfSort .expression) (g.expression l s)
  pattern : ∀ s, 2 * s.rest.length + 1 ≤ depth → s.Sorted →
    Safely s 1 (Node.OfSort .pattern) (g.pattern s)
  statement : ∀ s, 2 * s.rest.length + 2 ≤ depth → s.Sorted →
    Safely s 1 (fun ns => ∀ n ∈ ns, n.OfSort .statement) (g.statement s)

/-- How many tokens at least a phrase has. -/
def Phrase.least (a : Phrase) : Nat := if a.nullable then 0 else 1

theorem Phrase.nullable_of_opener {a : Phrase} {r : Reserved} (h : a.opener? = some r) :
    a.nullable = false := by
  induction a with
  | mark | kept | spelled | construct => rfl
  | part n => cases n <;> first | rfl | cases h
  | seq a b iha ihb =>
    rw [opener?] at h
    rw [nullable]
    split at h
    · rw [ihb h, Bool.and_false]
    · rw [iha h, Bool.false_and]
  | gather a ih | list a ih | demand a what ih | node head a ih | chain a ih => exact ih h
  | give | place | name | fail | either | ahead | star => cases h

theorem Phrase.least_of_opener {a : Phrase} {r : Reserved} (h : a.opener? = some r) :
    a.least = 1 := by rw [least, nullable_of_opener h]; rfl

theorem Phrase.least_and (p q : Bool) :
    (if p && q then 0 else 1) ≤ (if p then 0 else 1) + if q then 0 else 1 := by
  cases p <;> cases q <;> decide

theorem Phrase.least_or (p q : Bool) :
    (if p || q then 0 else 1) ≤ (if p then 0 else 1) ∧
      (if p || q then 0 else 1) ≤ if q then 0 else 1 := by
  cases p <;> cases q <;> decide

/-- Repeating what reads a token, there are enough turns. -/
theorem repeatUpTo_safely {α : Type} {test : Parser Bool} {item : Parser α} {P : α → Prop}
    (look : ∀ s, ∃ b, test s = (.ok b, s)) (bound : Nat)
    (reads : ∀ s, s.Sorted → s.rest.length ≤ bound → test s = (.ok true, s) →
      Safely s 1 P (item s)) (fuel : Nat) :
    ∀ {s : ParserState}, s.Sorted → s.rest.length ≤ bound → s.rest.length < fuel →
      Safely s 0 (fun as => ∀ a ∈ as, P a) (repeatUpTo test item fuel s) := by
  induction fuel with
  | zero => exact fun _ _ enough => absurd enough (Nat.not_lt_zero _)
  | succ fuel ih =>
    intro s hs deep enough
    rw [repeatUpTo_succ]
    obtain ⟨b, hb⟩ := look s
    refine .look hb ?_
    cases b with
    | false => exact .pure hs (List.forall_mem_nil _)
    | true =>
      refine ((reads s hs deep hb).andThen fun a s' hs' moved ha => ?_).mono (fun _ => id) (Nat.zero_le 1)
      have := moved.tokens
      refine (ih hs' (by omega) (by omega)).andThen fun as s'' hs'' _ has => ?_
      exact .pure hs'' (List.forall_mem_cons.mpr ⟨ha, has⟩)

namespace Nonterminals.Safe

open Nonterminals.Sound (look_atBodyEnd)

variable {g : Nonterminals} {depth : Nat} (hg : g.Safe depth)

include hg

theorem wellFormedPattern {s : ParserState} (deep : 2 * s.rest.length + 1 ≤ depth) (hs : s.Sorted) :
    Safely s 1 (Node.OfSort .pattern) (g.wellFormedPattern s) := by
  refine (hg.pattern s deep hs).andThen fun n s' hs' _ hn => ?_
  cases n.patternFlaw? with
  | some flaw => exact .fault (by trivial) hs'
  | none => exact .pure hs' hn

/-- In a body one more construct and one more scope are open. -/
theorem body {s : ParserState} (deep : 2 * s.rest.length ≤ depth) (hs : s.Sorted) :
    Safely s 1 (Node.OfSort .block) (g.body s) := by
  unfold Nonterminals.body
  refine Proper.bind (openConstruct_proper hs .body) ?_
  rintro t _ - ⟨rfl, rfl, shorter⟩
  have shorter : (entered s).rest.length + 1 = s.rest.length := shorter
  have loop : Safely (entered s) 0 (fun nss => ∀ ns ∈ nss, ∀ n ∈ ns, n.OfSort .statement)
      (repeatWhile (not <$> atBodyEnd) g.statement (entered s)) :=
    repeatUpTo_safely look_atBodyEnd (s.rest.length - 1)
      (fun s' hs' le _ => hg.statement s' (by omega) hs') _ hs (by omega) (Nat.lt_succ_self _)
  refine Proper.bind (p := openScope) (P := fun _ s' => s' = entered s) (.ok hs rfl) ?_
  rintro _ _ - rfl
  refine Proper.bind loop fun nss s' hs' ⟨moved, hnss⟩ => ?_
  refine Proper.bind (closeConstruct_proper hs' moved.frames) ?_
  rintro _ _ hs'' ⟨rfl, le⟩
  refine Proper.bind (closeScope_proper hs'' (k := s.scopes.length) moved.scopes) ?_
  rintro injected _ hs'' ⟨scopes, length, rfl⟩
  refine .ok hs'' ⟨⟨?_, ?_, ?_⟩, Node.sorted_mk.mpr (.cons (.of_many fun n hn => ?_) .nil), rfl⟩
  · have := moved.tokens
    show (closed s').rest.length + 1 ≤ s.rest.length
    omega
  · show s'.frames.tail = s.frames
    rw [moved.frames]
    rfl
  · exact length
  · obtain ⟨ns, hns, hn⟩ := List.mem_flatten.mp hn
    exact hnss ns hns n hn

theorem part {n : Nonterminal} (clear : (Phrase.part n).clear = true) {s : ParserState}
    (deep : 2 * s.rest.length + (Phrase.part n).cost ≤ depth) (hs : s.Sorted) :
    Safely s 1 n.Yields (n.read g s) := by
  have yields {c : Category} {m : Node} (hm : m.OfSort c) :
      ∀ c' ∈ some c, ∃ m', Found.ofNode m = .ofNode m' ∧ m'.OfSort c' :=
    fun _ hc => ⟨m, rfl, Option.some.inj hc ▸ hm⟩
  cases n with
  | expression l => exact (hg.expression l s deep hs).map fun _ => yields
  | pattern => exact (hg.pattern s deep hs).map fun _ => yields
  | binding => exact (hg.wellFormedPattern deep hs).map fun _ => yields
  | body => exact (hg.body deep hs).map fun _ => yields
  | statement => cases clear
  | statements => cases clear

/-- What is read as a phrase is what can be found in it, and sorted. -/
theorem read {a : Phrase} (clear : a.clear = true) (typed : a.Typed Nonterminal.Yields) :
    ∀ {s : ParserState}, 2 * s.rest.length + a.cost ≤ depth → s.Sorted →
      Safely s a.least (a.Makes Nonterminal.Yields) (a.read g s) := by
  induction a with
  | give f => exact fun _ hs => .pure hs rfl
  | place => exact fun {s} _ hs => .look (peek_run s) (.pure hs ⟨_, rfl⟩)
  | mark r =>
    intro s _ hs
    rw [Phrase.read, discard_bind]
    exact (consume_safely hs r).andThen fun _ s' hs' _ _ => .pure hs' rfl
  | kept r =>
    intro s _ hs
    rw [Phrase.read, discard_bind]
    exact (consume_safely hs r).andThen fun _ s' hs' _ _ => .pure hs' rfl
  | spelled r =>
    exact fun _ hs => (consume_safely hs r).andThen fun _ s' hs' _ _ => .pure hs' ⟨_, rfl⟩
  | name what =>
    exact fun _ hs => (consumeName_safely hs what).andThen fun _ s' hs' _ _ => .pure hs' ⟨_, rfl⟩
  | part n =>
    intro s deep hs
    exact (hg.part clear deep hs).mono (fun _ => id) (by unfold Phrase.least; split <;> decide)
  | fail what => exact fun _ hs => failExpecting_safely hs _
  | seq a b iha ihb =>
    intro s deep hs
    rw [Phrase.clear, Bool.and_eq_true, Bool.and_eq_true] at clear
    rw [Phrase.cost] at deep
    have first : 2 * s.rest.length + a.cost ≤ depth := by
      split at deep
      · exact le_trans (Nat.add_le_add_left (le_max_left _ _) _) deep
      · exact deep
    refine .mono (.bind (iha clear.1.1 typed.1 first hs) fun f s' hs' moved made => ?_)
      (fun _ => id) (Phrase.least_and a.nullable b.nullable)
    have second : 2 * s'.rest.length + b.cost ≤ depth := by
      have := moved.tokens
      unfold Phrase.least at this
      split at deep
      · have := le_max_right a.cost b.cost
        omega
      · rename_i full
        rw [if_neg full] at this
        have := b.cost_le
        omega
    exact (ihb clear.1.2 typed.2 second hs').andThen fun h s'' hs'' _ made' =>
      .pure hs'' ⟨f, h, made, made', rfl⟩
  | either r a b iha ihb =>
    intro s deep hs
    simp only [Phrase.clear, Bool.and_eq_true] at clear
    have deepa := le_trans (Nat.add_le_add_left (le_max_left a.cost b.cost) _) deep
    have deepb := le_trans (Nat.add_le_add_left (le_max_right a.cost b.cost) _) deep
    have least := Phrase.least_or a.nullable b.nullable
    refine .look (check_run r s) ?_
    cases s.next.isReserved r with
    | true => exact (iha clear.1.1.1 typed.1 deepa hs).mono (fun _ => .inl) least.1
    | false => exact (ihb clear.1.1.2 typed.2 deepb hs).mono (fun _ => .inr) least.2
  | ahead a b iha ihb =>
    intro s deep hs
    simp only [Phrase.clear, Bool.and_eq_true] at clear
    have deepa := le_trans (Nat.add_le_add_left (le_max_left a.cost b.cost) _) deep
    have deepb := le_trans (Nat.add_le_add_left (le_max_right a.cost b.cost) _) deep
    have least := Phrase.least_or a.nullable b.nullable
    obtain ⟨c, look⟩ : ∃ c, checkBinding s = (.ok c, s) := ⟨_, checkBinding_run s⟩
    refine .look look ?_
    cases c with
    | true => exact (iha clear.1.1.1 typed.1 deepa hs).mono (fun _ => .inl) least.1
    | false => exact (ihb clear.1.1.2 typed.2 deepb hs).mono (fun _ => .inr) least.2
  | star r a ih =>
    intro s deep hs
    simp only [Phrase.clear, Bool.and_eq_true, decide_eq_true_eq] at clear
    have turn (s' : ParserState) (hs' : s'.Sorted) (le : s'.rest.length ≤ s.rest.length) :
        Safely s' 1 (a.Makes Nonterminal.Yields) (a.read g s') := by
      rw [← Phrase.least_of_opener clear.1.2]
      exact ih clear.1.1 typed (le_trans (Nat.add_le_add_right (Nat.mul_le_mul_left 2 le) _) deep) hs'
    refine Safely.map (repeatUpTo_safely (fun s => ⟨_, check_run r s⟩) s.rest.length
      (fun s' hs' le _ => turn s' hs' le) _ hs le_rfl (Nat.lt_succ_self _)) fun fs hfs => ?_
    exact ⟨fs, hfs, rfl⟩
  | gather a ih => exact fun deep hs => (ih clear typed deep hs).map fun f made => ⟨f, made, rfl⟩
  | list a ih => exact fun deep hs => (ih clear typed deep hs).map fun f made => ⟨f, made, rfl⟩
  | demand a what ih =>
    intro s deep hs
    refine (ih clear typed deep hs).andThen fun f s' hs' _ made => ?_
    cases inhabited : f.nodes with
    | nil =>
      rw [List.isEmpty_nil, if_pos rfl]
      refine .andThen (P := fun _ => False) (failExpecting_safely hs' _) ?_
      exact fun _ _ _ _ absurd => absurd.elim
    | cons n ns =>
      refine .pure hs' ⟨made, ?_⟩
      rw [inhabited]
      exact List.cons_ne_nil n ns
  | node head a ih =>
    intro s deep hs
    rw [Phrase.read_node]
    refine .look (peek_run s) ((ih clear typed.1 deep hs).andThen fun f s' hs' _ made => ?_)
    refine .look (spanFrom_run _ s') ?_
    refine (safe_announce (typed.2.2 f _ made) s' hs').andThen fun _ s'' hs'' _ _ => ?_
    exact .pure hs'' ⟨f, _, made, rfl⟩
  | chain a ih =>
    intro s deep hs
    rw [Phrase.read_chain]
    refine .look (peek_run s) ((ih clear typed.1 deep hs).andThen fun f s' hs' _ made => ?_)
    exact .look (spanFrom_run _ s') (.pure hs' ⟨f, _, made, rfl⟩)
  | construct c a ih =>
    intro s deep hs
    simp only [Phrase.clear, Bool.and_eq_true] at clear
    rw [Phrase.read, discard_bind]
    refine Proper.bind (openConstruct_proper hs c) ?_
    rintro _ _ hs' ⟨-, rfl, shorter⟩
    have deep' : 2 * (opened c s).rest.length + a.cost ≤ depth := by
      have := a.cost_le
      omega
    refine Proper.bind (ih clear.1 typed deep' hs') ?_
    rintro f s' hs' ⟨moved, made⟩
    refine Proper.bind (closeConstruct_proper hs' moved.frames) ?_
    rintro _ _ hs'' ⟨rfl, le⟩
    refine .ok hs'' ⟨⟨?_, ?_, moved.scopes⟩, made⟩
    · have := moved.tokens
      show (closed s').rest.length + 1 ≤ s.rest.length
      omega
    · show s'.frames.tail = s.frames
      rw [moved.frames]
      rfl

/-! ## Expressions and patterns -/

omit hg in
/-- What is found in a nonterminal is as it says. -/
theorem yields (n : Nonterminal) (f : Found) (h : n.Yields f) : n.Yields f := h

theorem operand {s : ParserState} (deep : 2 * s.rest.length ≤ depth) (hs : s.Sorted) :
    Safely s 1 (Node.OfSort .expression) (g.operand s) := by
  refine (Safely.of_map (Q := fun f => ∀ n, f = Found.ofNode n → n.OfSort .expression) ?_).mono
    (fun n made => made n rfl) le_rfl
  rw [Phrase.operand_run]
  cases ha : atom? s.next with
  | some n =>
    refine .ok hs ⟨.passed (Phrase.isEnd_of_atom ha), ?_⟩
    rintro _ ⟨⟩
    exact atom?_ofSort ha
  | none =>
    cases ho : s.next.reserved?.bind Phrase.operand? with
    | none =>
      obtain ⟨p, hp⟩ := unwanted_parse (.phrase "expression") s
      dsimp only
      rw [hp]
      exact .fault (by trivial) hs
    | some a =>
      obtain ⟨r, -, hr⟩ := Option.bind_eq_some_iff.mp ho
      have leads := Phrase.leads_operand hr
      refine (hg.read leads.clear (Phrase.typed_operand yields hr) (by rw [leads.cost]; exact deep)
        hs).mono ?_ (Phrase.least_of_opener leads.opener).ge
      rintro _ made n rfl
      exact Phrase.operand_ofSort yields hr made

theorem extend {s : ParserState} {r : Reserved} {m : Level} {a : Phrase} {n : Node}
    (ht : Phrase.tail? r = some (m, a)) (hn : n.OfSort .expression)
    (deep : 2 * s.rest.length ≤ depth) (hs : s.Sorted) :
    Safely s 1 (Node.OfSort .expression)
      ((peek >>= fun start => a.read g >>= Parser.extend m n start) s) := by
  have leads := Phrase.leads_tail ht
  have tail := hg.read leads.clear (Phrase.typed_tail ht) (s := s)
    (by rw [leads.cost]; exact deep) hs
  rw [Phrase.least_of_opener leads.opener] at tail
  refine .look (peek_run s) (tail.andThen fun f s' hs' _ made => ?_)
  obtain ⟨stop, look⟩ : ∃ stop, tailStop m s.next f s' = (.ok stop, s') := by
    unfold tailStop
    split <;> exact ⟨_, rfl⟩
  refine .look look (.look (run_get s') ?_)
  have whole := Phrase.extended_ofSort yields ht made s'.unit.registry.contains
    ⟨n.span.start, stop⟩ hn
  exact (safe_announce whole.sorted s' hs').andThen fun _ s'' hs'' _ _ => .pure hs'' whole

theorem extendUpTo (l : Level) (fuel : Nat) : ∀ {s : ParserState} {n : Node},
    n.OfSort .expression → 2 * s.rest.length ≤ depth → s.rest.length < fuel → s.Sorted →
      Safely s 0 (Node.OfSort .expression) (g.extendUpTo l fuel n s) := by
  induction fuel with
  | zero => exact fun _ _ enough => absurd enough (Nat.not_lt_zero _)
  | succ fuel ih =>
    intro s n hn deep enough hs
    rw [Phrase.extendUpTo_run]
    cases ht : s.next.reserved?.bind Phrase.tail? with
    | none => exact .pure hs hn
    | some t =>
      obtain ⟨r, -, ha⟩ := Option.bind_eq_some_iff.mp ht
      dsimp only
      split
      · refine ((hg.extend ha hn deep hs).andThen fun m s' hs' moved hm => ?_).mono (fun _ => id)
          (Nat.zero_le 1)
        have := moved.tokens
        exact ih hm (by omega) (by omega) hs'
      · exact .pure hs hn

theorem readExpression (l : Level) {s : ParserState} (deep : 2 * s.rest.length ≤ depth)
    (hs : s.Sorted) : Safely s 1 (Node.OfSort .expression) (g.readExpression l s) := by
  refine (hg.operand deep hs).andThen fun n s' hs' moved hn => ?_
  have := moved.tokens
  exact .look (run_get s') (hg.extendUpTo l _ hn (by omega) (Nat.lt_succ_self _) hs')

theorem readPattern {s : ParserState} (deep : 2 * s.rest.length ≤ depth) (hs : s.Sorted) :
    Safely s 1 (Node.OfSort .pattern) (g.readPattern s) := by
  refine (Safely.of_map (Q := fun f => ∀ n, f = Found.ofNode n → n.OfSort .pattern) ?_).mono
    (fun n made => made n rfl) le_rfl
  rw [Phrase.pattern_run]
  cases ha : atomicPattern? s.next with
  | some n =>
    refine .ok hs ⟨.passed (Phrase.isEnd_of_atomicPattern ha), ?_⟩
    rintro _ ⟨⟩
    exact atomicPattern?_ofSort ha
  | none =>
    cases ho : s.next.reserved?.bind Phrase.pattern? with
    | none => exact .fault (by split <;> trivial) hs
    | some a =>
      obtain ⟨r, -, hr⟩ := Option.bind_eq_some_iff.mp ho
      have leads := Phrase.leads_pattern hr
      refine (hg.read leads.clear (Phrase.typed_pattern yields hr) (by rw [leads.cost]; exact deep)
        hs).mono ?_ (Phrase.least_of_opener leads.opener).ge
      rintro _ made n rfl
      exact Phrase.pattern_ofSort yields hr made

theorem plainStatement (settings : Settings) {s : ParserState}
    (deep : 2 * s.rest.length + 1 ≤ depth) (hs : s.Sorted) :
    Safely s 1 (Node.OfSort .statement) (g.plainStatement settings s) := by
  refine (Safely.of_map (Q := fun f => ∀ n, f = Found.ofNode n → n.OfSort .statement) ?_).mono
    (fun n made => made n rfl) le_rfl
  rw [Phrase.plainStatement_eq]
  refine .look (peek_run s) ?_
  cases ho : s.next.reserved?.bind (Phrase.statement? settings) with
  | none =>
    refine (hg.read (a := .expressionStmt) rfl (Phrase.typed_expressionStmt yields) deep hs).mono ?_
      le_rfl
    rintro _ made n rfl
    exact Phrase.expressionStmt_ofSort yields made
  | some a =>
    obtain ⟨r, -, hr⟩ := Option.bind_eq_some_iff.mp ho
    have leads := Phrase.leads_statement hr
    refine (hg.read leads.clear (Phrase.typed_statement yields hr) (by rw [leads.cost]; omega)
      hs).mono ?_ (Phrase.least_of_opener leads.opener).ge
    rintro _ made n rfl
    exact Phrase.statement_ofSort yields hr made

end Nonterminals.Safe

end GlyphScript
