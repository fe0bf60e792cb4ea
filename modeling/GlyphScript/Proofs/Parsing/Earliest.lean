import GlyphScript.Proofs.Parsing.Balance
import GlyphScript.Proofs.Parsing.Trials

/-!
# Faults are found at once

By induction along the parser every production blames the first token that
nothing goes on with. So a text that is no program is told to be none as soon
as that can be known, and the input is said to end too early just when there is
more that would make a program of it.
-/

namespace GlyphScript

open GlyphScript.Parser

variable {settings : Settings}

/-! ## Constructs -/

theorem openConstruct_other {c : Construct} {s : ParserState} (h : leading s.words ≠ some c.opener) :
    openConstruct c s = (.error (unwanted (.mark c.opener) s), s) := by
  unfold openConstruct
  rw [run_bind, consume_run, if_neg fun next => h (isReserved_next.mp next)]

theorem closeConstruct_other {c : Construct} {t : Token} {frames : Frames} {s : ParserState}
    (hf : s.frames = ⟨c, t⟩ :: frames) (h : leading s.words ≠ some c.closer) :
    ∃ p, closeConstruct s = (.error (.parse p), s) ∧ p.At s.next := by
  cases fault : Frames.closingFault? ⟨c, t⟩ s.next with
  | none => exact absurd (isReserved_next.mp (closingFault?_eq_none.mp fault)) h
  | some p =>
    refine ⟨p, ?_, closingFault?_at fault⟩
    rw [closeConstruct_run, hf]
    dsimp only
    rw [fault]

/-- What closes a construct is the word behind those inside. -/
theorem closing_word {s s' : ParserState} {u v w : Word} {us rest : List Word}
    (inside : s.words = u :: (us ++ s'.words)) (whole : s.words = v :: us ++ [w] ++ rest) :
    s'.next.word = w := by
  have same := inside.symm.trans whole
  rw [List.append_assoc, List.cons_append] at same
  injection same with _ same
  rw [next_word, List.append_cancel_left same]
  rfl

/-- Whether a name and an arrow are ahead. -/
theorem checkBinding_ahead (s : ParserState) : ∃ b, checkBinding s = (.ok b, s) ∧
    (b = true ↔ ∃ x y, [(TokenKind.identifier, x), (.reserved .bindArrow, y)] <+: s.words) := by
  refine ⟨_, checkBinding_run s, ?_⟩
  unfold ParserState.words
  rcases s.rest with _ | ⟨name, _ | ⟨mark, rest⟩⟩
  · simp
  · simp
  · simp [Token.word, Token.isReserved, @eq_comm _ TokenKind.identifier, @eq_comm _ (TokenKind.reserved _)]

/-! ## Operands and operators -/

section

variable (settings : Settings) (l : Level)

/-- As `Phrase.Lost`, for an operand of an expression. -/
structure LostOperand (us : List Word) (t : Word) : Prop where
  viable : us ≠ [] → ∃ vs, Generates settings (.part (.expression l)) (us ++ vs)
  cut : CutsOperand settings us t False

structure DoneOperand (us : List Word) (t : Word) : Prop where
  words : Generates settings (.part (.expression l)) us
  cut : CutsOperand settings us t True

/-- As `Phrase.Lost`, for the operators behind the expression `us`. -/
structure LostTails (us vs : List Word) (t : Word) : Prop where
  viable : ∃ ws, Generates settings (.part (.expression l)) (us ++ vs ++ ws)
  cut : CutsTails settings l vs t False

structure DoneTails (us vs : List Word) (t : Word) : Prop where
  words : Generates settings (.part (.expression l)) (us ++ vs)
  cut : CutsTails settings l vs t True

end

namespace Nonterminals.Early

variable {g : Nonterminals} {depth : Nat} (hg : g.Early settings depth)

include hg

theorem wellFormedPattern {s : ParserState} {k : Macros} (deep : 2 * s.rest.length + 1 ≤ depth)
    (hk : s.unit.registry.Holds k) (quiet : (g.wellFormedPattern s).2.unit.Quiet) :
    Trial s ((Phrase.part .binding).Lost settings)
      (fun us t _ => (Phrase.part .binding).Done settings us t) (g.wellFormedPattern s) := by
  have into : ∀ ws, Generates settings (.part .pattern) ws → Generates settings (.part .binding) ws :=
    fun _ words => .binding words
  have back : ∀ ws, Generates settings (.part .binding) ws → Generates settings (.part .pattern) ws := by
    rintro ws ⟨⟩
    assumption
  refine .bind (fun n => ?_) quiet
    (fun quiet => (hg.pattern s k deep hk quiet).both (hg.sound.pattern s k deep hk quiet))
    (fun us t _ lost => lost.same into back rfl) fun us k' s' n moved _ made _ => ?_
  · split
    · exact .throw _
    · exact .pure _
  obtain ⟨done, _, _, derived, -⟩ := made
  have patterns : ∀ m ∈ n.walk, m.head.isPattern = true := by
    intro m hm
    have all := derived.patterns trivial n.unplaced List.mem_cons_self
    rw [← m.head_unplaced]
    refine all _ ?_
    rw [Node.walk_unplaced]
    exact List.mem_map_of_mem hm
  cases sound : n.patternFlaw? with
  | some flaw =>
    obtain ⟨flaw, span⟩ := flaw
    obtain ⟨x, rfl⟩ := Node.boundTwice_of_flaw patterns sound
    exact .fault fun words => absurd words Bool.noConfusion
  | none =>
    refine .pure moved.holds n ?_
    rw [List.append_nil]
    exact done.same into back rfl

/-! ## Bodies -/

omit hg in
theorem bodyEnd_free : ∀ zs, BodyEnd zs → ∀ r ∈ Phrase.tailMarks, leading zs ≠ some r := by
  intro zs ends r hr next
  rw [show leading zs = _ from ends] at next
  cases next
  exact absurd hr (by decide)

/-- The statements of a body. -/
theorem statements (fuel : Nat) : ∀ {s : ParserState} {k : Macros},
    2 * s.rest.length + 2 ≤ depth → s.rest.length < fuel → s.unit.registry.Holds k →
    (repeatUpTo (not <$> atBodyEnd) g.statement fuel s).2.unit.Quiet →
    Trial s (LostStatements settings BodyEnd) (fun us t _ => DoneStatements settings BodyEnd us t)
      (repeatUpTo (not <$> atBodyEnd) g.statement fuel s) := by
  induction fuel with
  | zero =>
    intro s k _ enough
    exact absurd enough (Nat.not_lt_zero _)
  | succ fuel ih =>
    intro s k deep enough hk quiet
    rw [repeatUpTo_succ] at quiet ⊢
    refine .look (atBodyEnd_run s) (fun quiet => ?_) quiet
    cases ends : s.next.isEnd || (leading s.words).any fun r =>
      Construct.isCloser r || Nonterminals.armMarks.contains r with
    | true =>
      refine .pure hk _ ⟨.noStatement, .nil fun ws words starts => ?_⟩
      obtain ⟨vs, rfl⟩ := starts
      rcases Bool.or_eq_true_iff.mp ends with last | closes
      · exact words.inner _ List.mem_cons_self (by simpa [Token.isEnd, Token.word] using last)
      · obtain ⟨r, next, closes⟩ := (Option.any_eq_true ..).mp closes
        rw [← next_reserved?] at next
        have apart : ∀ r ∈ Phrase.nonterminalStarts .statements,
            (Construct.isCloser r || Nonterminals.armMarks.contains r) = false := by decide
        rw [apart r (words.starts next)] at closes
        cases closes
    | false =>
      rw [ends] at quiet
      simp only [Bool.not_false, if_true] at quiet ⊢
      have goes : ∀ us t, s.Faces us t → ∀ zs, BodyEnd zs → ¬ us ++ [t] <+: zs := by
        intro us t faces zs closes starts
        have next := leading_of_next starts faces.next
        rw [show leading zs = _ from closes] at next
        have next : leading s.words = some .bodyClose := (next_reserved? s).symm.trans next.symm
        rw [next] at ends
        exact absurd (Bool.or_eq_false_iff.mp ends).2 (by decide)
      have items : Grows (repeatUpTo (not <$> atBodyEnd) g.statement fuel) :=
        .repeatUpTo Nonterminals.Growing.atBodyEnd.map hg.sound.growing.statement fuel
      refine .bind (fun a => items.bind fun as => .pure _) quiet (hg.statement s k deep hk)
        (fun us t faces lost => lost.first bodyEnd_free (goes us t faces))
        fun us k' s' ns moved faces made quiet => ?_
      have shorter : s'.rest.length < s.rest.length := by
        have := moved.length
        have := List.length_pos_iff.mpr made.full
        omega
      refine .bind (fun as => .pure _) quiet (ih (by omega) (by omega) moved.holds)
        (fun vs t faces' lost => made.lost bodyEnd_free (goes us _ faces) lost faces'.next)
        fun vs k'' s'' nss moved' faces' made' _ => ?_
      refine .pure moved'.holds _ ?_
      rw [List.append_nil]
      exact made.done bodyEnd_free (goes us _ faces) made' faces'.next

theorem body {s : ParserState} {k : Macros} (deep : 2 * s.rest.length ≤ depth)
    (hk : s.unit.registry.Holds k) (quiet : (g.body s).2.unit.Quiet) :
    Trial s ((Phrase.part .body).Lost settings)
      (fun us t _ => (Phrase.part .body).Done settings us t) (g.body s) := by
  by_cases opens : leading s.words = some .bodyOpen
  case neg =>
    unfold Nonterminals.body
    rw [run_bind, openConstruct_other opens]
    exact .unwanted _ (.nothing (.noBody fun next => opens ((next_reserved? s).symm.trans next)))
  rw [body_leading opens] at quiet ⊢
  obtain ⟨x, -, first⟩ := words_of_leading opens
  have first : s.words = (.reserved .bodyOpen, x) :: (entered s).words := first
  have leaves : ∀ nss, Grows (leaveBody s.next nss) := fun nss =>
    grows_closeConstruct.bind fun _ => grows_closeScope.bind fun _ =>
      (grows_spanFrom _).bind fun _ => .pure _
  have shorter : s.rest.length = (entered s).rest.length + 1 := by
    rw [← length_words, first, List.length_cons, length_words]
  have inside := hg.statements (s := entered s) _ (by omega) (Nat.lt_succ_self _) hk
    (quiet_of_bind leaves quiet)
  have loop : repeatWhile (not <$> atBodyEnd) g.statement (entered s) =
    repeatUpTo (not <$> atBodyEnd) g.statement ((entered s).rest.length + 1) (entered s) := rfl
  rw [run_bind, loop]
  generalize repeatUpTo _ g.statement _ (entered s) = res at inside
  cases inside with
  | fault blames =>
    refine .fault fun words => ?_
    obtain ⟨us, read, at', lost⟩ := blames words
    exact ⟨_, by rw [first, read]; rfl, at', lost.inside⟩
  | @ok nss us k' s' moved made =>
    dsimp only
    by_cases closes : leading s'.words = some .bodyClose
    · obtain ⟨span, run⟩ := leaveBody_run s.next nss moved.frames moved.scopes closes
      obtain ⟨x', y, whole⟩ := ParserState.Advanced.body opens moved closes
      rw [run]
      refine .ok whole ?_
      have inside : s.words = (.reserved .bodyOpen, x) :: (us ++ s'.words) := by
        rw [first, moved.words]
      rw [closing_word inside whole.words] at made
      exact made.body
    · obtain ⟨p, run, at'⟩ := closeConstruct_other moved.frames closes
      unfold leaveBody
      rw [run_bind, run]
      refine .fault fun _ => ⟨_, by rw [first, moved.words]; rfl, at', made.unclosed fun next => ?_⟩
      exact closes ((next_reserved? s').symm.trans next)

theorem part {n : Nonterminal} {s : ParserState} {k : Macros}
    (clear : (Phrase.part n).clear = true)
    (deep : 2 * s.rest.length + (Phrase.part n).cost ≤ depth)
    (hk : s.unit.registry.Holds k) (quiet : (n.read g s).2.unit.Quiet) :
    Trial s ((Phrase.part n).Lost settings) (fun us t _ => (Phrase.part n).Done settings us t)
      (n.read g s) := by
  cases n with
  | expression l =>
    have tight : l.rank ≤ Level.unary.rank := by simpa [Phrase.clear] using clear
    exact (hg.expression l s k tight deep hk (Sound.quiet_of_map quiet)).map fun _ _ _ => id
  | pattern => exact (hg.pattern s k deep hk (Sound.quiet_of_map quiet)).map fun _ _ _ => id
  | binding =>
    exact (hg.wellFormedPattern deep hk (Sound.quiet_of_map quiet)).map fun _ _ _ => id
  | body => exact (hg.body deep hk (Sound.quiet_of_map quiet)).map fun _ _ _ => id
  | statement => cases clear
  | statements => cases clear

/-! ## Phrases -/

/-- Phrases that start with `r`, for as long as `r` is next. -/
theorem star {r : Reserved} {a : Phrase} (opener : a.opener? = some r) (apart : r ∉ a.greedy)
    (ih : ∀ {s : ParserState} {k : Macros}, 2 * s.rest.length + a.cost ≤ depth →
      s.unit.registry.Holds k → (a.read g s).2.unit.Quiet →
      Trial s (a.Lost settings) (fun us t _ => a.Done settings us t) (a.read g s)) (fuel : Nat) :
    ∀ {s : ParserState} {k : Macros}, 2 * s.rest.length + a.cost ≤ depth → s.rest.length < fuel →
      s.unit.registry.Holds k → (repeatUpTo (check r) (a.read g) fuel s).2.unit.Quiet →
      Trial s ((Phrase.star r a).Lost settings) (fun us t _ => (Phrase.star r a).Done settings us t)
        (repeatUpTo (check r) (a.read g) fuel s) := by
  induction fuel with
  | zero =>
    intro s k _ enough
    exact absurd enough (Nat.not_lt_zero _)
  | succ fuel ihf =>
    intro s k deep enough hk quiet
    rw [repeatUpTo_succ] at quiet ⊢
    refine .look (check_run r s) (fun quiet => ?_) quiet
    cases next : s.next.isReserved r with
    | false =>
      refine .pure hk _ ⟨.starNil, .starNil opener fun opens => ?_⟩
      rw [isReserved_iff.mpr opens] at next
      cases next
    | true =>
      rw [next] at quiet
      simp only [if_true] at quiet ⊢
      have opens : s.next.word.1.reserved? = some r := isReserved_iff.mp next
      have items : Grows (repeatUpTo (check r) (a.read g) fuel) :=
        .repeatUpTo (grows_check r) (hg.sound.growing.read a) fuel
      refine .bind (fun f => items.bind fun fs => .pure _) quiet (ih deep hk)
        (fun us t faces lost => lost.turn opener apart faces.next opens)
        fun us k' s' f moved faces made quiet => ?_
      have shorter : s'.rest.length < s.rest.length := by
        have := moved.length
        have := List.length_pos_iff.mpr (ne_nil_of_leading (made.words.opener opener))
        omega
      refine .bind (fun fs => .pure _) quiet (ihf (by omega) (by omega) moved.holds)
        (fun vs t faces' lost => made.lostTurn lost opener apart faces'.next)
        fun vs k'' s'' fs moved' faces' made' _ => ?_
      refine .pure moved'.holds _ ?_
      rw [List.append_nil]
      exact made.turn made' opener apart faces'.next

omit hg in
theorem apart_of_all {a b : Phrase}
    (h : (a.greedy.all fun r => !b.starts.contains r) = true) : ∀ r ∈ a.greedy, r ∉ b.starts := by
  intro r hr hb
  have := List.all_eq_true.mp h r hr
  rw [List.contains_iff_mem.mpr hb] at this
  cases this

omit hg in
theorem not_mem_of_contains {r : Reserved} {rs : List Reserved} (h : (!rs.contains r) = true) :
    r ∉ rs := by
  simpa using h

omit hg in
theorem nullable_of_startsBinding {a : Phrase} (h : a.startsBinding = true) : a.nullable = false := by
  unfold Phrase.startsBinding at h
  split at h
  · rfl
  · cases h

/-- What is read of a phrase is words of it, up to where they end or cannot go on. -/
theorem read {a : Phrase} (clear : a.clear = true) (completable : a.completable = true) :
    ∀ {s : ParserState} {k : Macros}, 2 * s.rest.length + a.cost ≤ depth →
      s.unit.registry.Holds k → (a.read g s).2.unit.Quiet →
      Trial s (a.Lost settings) (fun us t _ => a.Done settings us t) (a.read g s) := by
  -- phrases of one reserved token
  have token : ∀ {a : Phrase} {r : Reserved}, (∀ x, Generates settings a [(.reserved r, x)]) →
      (∀ ws, Generates settings a ws → ∃ x, ws = [(.reserved r, x)]) → ∀ {make : Token → Found}
      {s : ParserState} {k : Macros}, s.unit.registry.Holds k →
      ((consume r >>= fun t => pure (make t)) s).2.unit.Quiet →
      Trial s (a.Lost settings) (fun us t _ => a.Done settings us t)
        ((consume r >>= fun t => pure (make t)) s) := by
    intro a r words form make s k hk quiet
    refine .bind (fun _ => .pure _) quiet (fun _ => consume_trial hk r) ?_ ?_
    · rintro us t _ ⟨rfl, other⟩
      refine .word fun ws hw => ?_
      obtain ⟨x, rfl⟩ := form ws hw
      exact ⟨_, rfl, fun same => other (by rw [← same]; rfl)⟩
    · rintro us k' s' t moved _ rfl _
      refine .pure moved.holds _ (.word (words _) fun ws hw => ?_)
      obtain ⟨x, rfl⟩ := form ws hw
      exact ⟨_, rfl⟩
  induction a with
  | give f =>
    intro s k _ hk _
    exact .pure hk f (.nil .give fun ws hw => by cases hw; rfl)
  | place =>
    intro s k _ hk quiet
    refine .look (peek_run s) (fun _ => .pure hk _ (.nil .place fun ws hw => ?_)) quiet
    cases hw
    rfl
  | mark r =>
    intro s k _ hk quiet
    rw [Phrase.read, discard_bind] at quiet ⊢
    exact token (fun _ => .mark) (fun ws hw => by cases hw; exact ⟨_, rfl⟩) hk quiet
  | kept r =>
    intro s k _ hk quiet
    rw [Phrase.read, discard_bind] at quiet ⊢
    exact token (fun _ => .kept) (fun ws hw => by cases hw; exact ⟨_, rfl⟩) hk quiet
  | spelled r =>
    intro s k _ hk quiet
    exact token (fun _ => .spelled) (fun ws hw => by cases hw; exact ⟨_, rfl⟩) hk quiet
  | name what =>
    intro s k _ hk quiet
    refine .bind (fun _ => .pure _) quiet (fun _ => consumeName_trial hk what) ?_ ?_
    · rintro us t _ ⟨rfl, other⟩
      refine .word fun ws hw => ?_
      cases hw
      exact ⟨_, rfl, fun same => other (by rw [← same])⟩
    · rintro us k' s' x moved _ rfl _
      exact .pure moved.holds _ (.word .name fun ws hw => by cases hw; exact ⟨_, rfl⟩)
  | part n =>
    intro s k deep hk quiet
    exact hg.part clear deep hk quiet
  | fail what =>
    intro s k _ _ _
    rw [Phrase.read, failExpecting_run]
    exact .unwanted _ (.nothing fun ws _ hw => by cases hw)
  | seq a b iha ihb =>
    intro s k deep hk quiet
    simp only [Phrase.clear, Phrase.completable, Bool.and_eq_true] at clear completable
    have apart := apart_of_all clear.2
    rw [Phrase.cost] at deep
    have first : 2 * s.rest.length + a.cost ≤ depth := by
      split at deep
      · exact le_trans (Nat.add_le_add_left (le_max_left _ _) _) deep
      · exact deep
    refine .bind (fun f => (hg.sound.growing.read b).bind fun _ => .pure _) quiet
      (iha clear.1.1 completable.1.1 first hk)
      (fun us t _ lost => lost.seqLeft apart completable.2)
      fun us k' s' f moved _ made quiet => ?_
    have second : 2 * s'.rest.length + b.cost ≤ depth := by
      have length := moved.length
      split at deep
      · have := le_max_right a.cost b.cost
        omega
      · rename_i full
        have := List.length_pos_iff.mpr (made.words.ne_nil (Bool.eq_false_iff.mpr full))
        have := b.cost_le
        omega
    refine .bind (fun _ => .pure _) quiet (ihb clear.1.2 completable.1.2 second moved.holds)
      (fun vs t faces lost => made.lostSeq lost faces.next apart completable.2)
      fun vs k'' s'' h moved' faces made' _ => ?_
    refine .pure moved'.holds _ ?_
    rw [List.append_nil]
    exact made.seq made' faces.next apart
  | either r a b iha ihb =>
    intro s k deep hk quiet
    simp only [Phrase.clear, Phrase.completable, Bool.and_eq_true, decide_eq_true_eq] at clear completable
    have apart := not_mem_of_contains clear.2
    refine .look (check_run r s) (fun quiet => ?_) quiet
    have deepa := le_trans (Nat.add_le_add_left (le_max_left a.cost b.cost) _) deep
    have deepb := le_trans (Nat.add_le_add_left (le_max_right a.cost b.cost) _) deep
    cases next : s.next.isReserved r with
    | true =>
      rw [next] at quiet
      have opens : s.next.word.1.reserved? = some r := isReserved_iff.mp next
      exact (iha clear.1.1.1 completable.1 deepa hk quiet).mono
        (fun us t faces lost => lost.left faces.next opens apart)
        fun us t _ faces made => made.left faces.next opens apart
    | false =>
      rw [next] at quiet
      have other : s.next.word.1.reserved? ≠ some r := fun opens => by
        rw [isReserved_iff.mpr opens] at next
        cases next
      exact (ihb clear.1.1.2 completable.2 deepb hk quiet).mono
        (fun us t faces lost => lost.right faces.next other clear.1.2)
        fun us t _ faces made => made.right faces.next other clear.1.2
  | ahead a b iha ihb =>
    intro s k deep hk quiet
    simp only [Phrase.clear, Phrase.completable, Bool.and_eq_true] at clear completable
    obtain ⟨⟨⟨cleara, clearb⟩, binding⟩, expression⟩ := clear
    obtain ⟨l, rfl⟩ : ∃ l, b = .part (.expression l) := by
      unfold Phrase.isExpression at expression
      split at expression
      · exact ⟨_, rfl⟩
      · cases expression
    obtain ⟨c, look, names⟩ := checkBinding_ahead s
    refine .look look (fun quiet => ?_) quiet
    have deepa := le_trans (Nat.add_le_add_left (le_max_left a.cost 1) _) deep
    have deepb := le_trans (Nat.add_le_add_left (le_max_right a.cost 1) _) deep
    cases c with
    | true =>
      obtain ⟨x, y, ahead⟩ := names.mp rfl
      have ahead := ahead.trans (List.prefix_append _ [(.endOfInput, "")])
      have arrow : ∀ {us t}, s.Faces us t → us ≠ [] →
          [(.identifier, x), (.reserved .bindArrow, y)] <+: us ++ [t] := by
        intro us t faces full
        refine List.prefix_of_prefix_length_le ahead faces ?_
        have := List.length_pos_iff.mpr full
        rw [List.length_append]
        exact Nat.succ_le_succ this
      refine (iha cleara completable.1.1 deepa hk quiet).mono (fun us t faces lost => ?_)
        fun us t _ faces made => ?_
      · refine lost.bound (arrow faces fun none => ?_)
        subst none
        have name : [t] <+: [(.identifier, x)] :=
          List.prefix_of_prefix_length_le faces ((List.prefix_append [_] [_]).trans ahead) (by simp)
        refine lost.named binding completable.2 ?_ rfl
        rw [(List.cons_prefix_cons.mp name).1]
      · exact made.bound (arrow faces (made.words.ne_nil (nullable_of_startsBinding binding)))
    | false =>
      have free : ∀ {us t}, s.Faces us t →
          ∀ x y, ¬ [(TokenKind.identifier, x), (.reserved .bindArrow, y)] <+: us ++ [t] := by
        intro us t faces x y arrow
        refine Bool.noConfusion (names.mpr ⟨x, y, ?_⟩)
        refine (List.prefix_concat_iff.mp (arrow.trans faces)).resolve_left fun whole => ?_
        have last := congrArg List.getLast? whole
        rw [List.getLast?_concat] at last
        cases last
      exact (ihb clearb completable.1.2 deepb hk quiet).mono
        (fun us t faces lost => lost.unbound (free faces) binding)
        fun us t _ faces made => made.unbound (free faces) binding
  | star r a ih =>
    intro s k deep hk quiet
    simp only [Phrase.clear, Bool.and_eq_true, decide_eq_true_eq] at clear
    have loop := hg.star clear.1.2 (not_mem_of_contains clear.2) (ih clear.1.1 completable) _ deep
      (Nat.lt_succ_self _) hk (Sound.quiet_of_map quiet)
    exact loop.map fun _ _ _ => id
  | gather a ih =>
    intro s k deep hk quiet
    refine ((ih clear completable deep hk (Sound.quiet_of_map quiet)).mono (fun us t _ lost => ?_)
      fun us t _ _ made => ?_).map fun _ _ _ => id
    · exact lost.same (fun _ => .gather) (by rintro _ ⟨⟩; assumption) rfl
    · exact made.same (fun _ => .gather) (by rintro _ ⟨⟩; assumption) rfl
  | list a ih =>
    intro s k deep hk quiet
    refine ((ih clear completable deep hk (Sound.quiet_of_map quiet)).mono (fun us t _ lost => ?_)
      fun us t _ _ made => ?_).map fun _ _ _ => id
    · exact lost.same (fun _ => .list) (by rintro _ ⟨⟩; assumption) rfl
    · exact made.same (fun _ => .list) (by rintro _ ⟨⟩; assumption) rfl
  | demand a what ih =>
    intro s k deep hk quiet
    simp only [Phrase.completable, Bool.and_eq_true] at completable
    refine .bind (fun f => ?_) quiet (fun quiet => (ih clear completable.1 deep hk quiet).both
        (hg.sound.read (a := a) clear deep hk quiet)) (fun us t _ lost => lost.demand)
      fun us k' s' f moved _ made quiet => ?_
    · split
      · exact (grows_failExpecting _).bind fun _ => .pure _
      · exact .pure _
    obtain ⟨done, _, _, derived, -⟩ := made
    have found := derived.tells completable.2
    rw [Found.nodes_unplaced, List.map_eq_nil_iff] at found
    split
    · rename_i empty
      obtain rfl := found.mp (List.isEmpty_iff.mp empty)
      rw [run_bind, failExpecting_run]
      exact .unwanted _ done.undemanded
    · rename_i inhabited
      refine .pure moved.holds _ ?_
      rw [List.append_nil]
      exact done.demand fun none => inhabited (List.isEmpty_iff.mpr (found.mpr none))
  | node head a ih =>
    intro s k deep hk quiet
    rw [Phrase.read_node] at quiet ⊢
    refine .look (peek_run s) (fun quiet => ?_) quiet
    refine .bind (fun f => ?_) quiet (ih clear completable deep hk)
      (fun us t _ lost => lost.same (fun _ => .node) (by rintro _ ⟨⟩; assumption) rfl)
      fun us k' s' f moved _ made quiet => ?_
    · exact (grows_spanFrom _).bind fun _ => (grows_announce _).bind fun _ => .pure _
    refine .look (spanFrom_run _ s') (fun quiet => ?_) quiet
    refine .bind (L := fun vs => _) (fun _ => .pure _) quiet (announce_trial moved.holds)
      (fun _ _ _ lost => lost) ?_
    rintro vs _ s'' _ moved' _ rfl _
    refine .pure moved'.holds _ ?_
    have same : s''.next.word = s'.next.word := by
      rw [next_word, next_word, moved'.words]
      rfl
    rw [List.append_nil, List.append_nil, same]
    exact made.same (fun _ => .node) (by rintro _ ⟨⟩; assumption) rfl
  | chain a ih =>
    intro s k deep hk quiet
    rw [Phrase.read_chain] at quiet ⊢
    refine .look (peek_run s) (fun quiet => ?_) quiet
    refine .bind (fun f => (grows_spanFrom _).bind fun _ => .pure _) quiet
      (ih clear completable deep hk)
      (fun us t _ lost => lost.same (fun _ => .chain) (by rintro _ ⟨⟩; assumption) rfl)
      fun us k' s' f moved _ made quiet => ?_
    refine .look (spanFrom_run _ s') (fun quiet => ?_) quiet
    refine .pure moved.holds _ ?_
    rw [List.append_nil]
    exact made.same (fun _ => .chain) (by rintro _ ⟨⟩; assumption) rfl
  | construct c a ih =>
    intro s k deep hk quiet
    simp only [Phrase.clear, Phrase.completable, Bool.and_eq_true] at clear completable
    have apart := not_mem_of_contains clear.2
    rw [Phrase.read, discard_bind] at quiet ⊢
    by_cases opens : leading s.words = some c.opener
    case neg =>
      rw [run_bind, openConstruct_other opens]
      exact .unwanted _ (.nothing (.opening fun next => opens ((next_reserved? s).symm.trans next)))
    rw [run_bind, openConstruct_leading opens] at quiet ⊢
    dsimp only at quiet ⊢
    obtain ⟨x, -, first⟩ := words_of_leading opens
    have first : s.words = (.reserved c.opener, x) :: (opened c s).words := first
    have deep' : 2 * (opened c s).rest.length + a.cost ≤ depth := by
      have shorter : s.rest.length = (opened c s).rest.length + 1 := by
        rw [← length_words, first, List.length_cons, length_words]
      have := a.cost_le
      omega
    have inside := ih clear.1 completable.1 deep' hk
      (quiet_of_bind (fun f => grows_closeConstruct.bind fun _ => .pure _) quiet)
    rw [run_bind]
    generalize a.read g (opened c s) = res at inside
    cases inside with
    | fault blames =>
      refine .fault fun words => ?_
      obtain ⟨us, read, at', lost⟩ := blames words
      exact ⟨_, by rw [first, read]; rfl, at', lost.inside completable.2 apart⟩
    | @ok f us k' s' moved made =>
      dsimp only
      by_cases closes : leading s'.words = some c.closer
      · obtain ⟨x', y, whole⟩ := ParserState.Advanced.construct opens moved closes
        rw [run_bind, closeConstruct_leading moved.frames closes]
        refine .ok whole ?_
        have inside : s.words = (.reserved c.opener, x) :: (us ++ s'.words) := by
          rw [first, moved.words]
        rw [closing_word inside whole.words] at made
        exact made.construct apart
      · obtain ⟨p, run, at'⟩ := closeConstruct_other moved.frames closes
        rw [run_bind, run]
        refine .fault fun _ => ⟨_, by rw [first, moved.words]; rfl, at', made.unclosed apart fun next => ?_⟩
        exact closes ((next_reserved? s').symm.trans next)

/-! ## Expressions -/

/-- The tail behind an operand. -/
theorem tail {r : Reserved} {m : Level} {a : Phrase} {n : Node} {s : ParserState} {k : Macros}
    (ht : Phrase.tail? r = some (m, a)) (deep : 2 * s.rest.length ≤ depth)
    (hk : s.unit.registry.Holds k)
    (quiet : ((peek >>= fun start => a.read g >>= extend m n start) s).2.unit.Quiet) :
    Trial s (a.Lost settings) (fun us t _ => a.Done settings us t)
      ((peek >>= fun start => a.read g >>= extend m n start) s) := by
  have leads := Phrase.leads_tail ht
  refine .look (peek_run s) (fun quiet => ?_) quiet
  refine .bind (fun f => Nonterminals.Growing.extend _ _ _ _) quiet
    (hg.read leads.clear (Phrase.completable_tail ht).1 (by rw [leads.cost]; exact deep) hk)
    (fun _ _ _ lost => lost) fun us k' s' f moved _ made quiet => ?_
  obtain ⟨span, run⟩ := extend_run moved.holds m n s.next f
  rw [run]
  refine .pure moved.holds _ ?_
  rw [List.append_nil]
  exact made

/-- All tails that hold together tightly enough, behind the words `us`. -/
theorem extendUpTo {l : Level} (fuel : Nat) : ∀ {us : List Word} {k : Macros} {s : ParserState}
    {n : Node}, Generates settings (.part (.expression l)) us → 2 * s.rest.length ≤ depth →
    s.rest.length < fuel → s.unit.registry.Holds k → (g.extendUpTo l fuel n s).2.unit.Quiet →
    Trial s (LostTails settings l us) (fun vs t _ => DoneTails settings l us vs t)
      (g.extendUpTo l fuel n s) := by
  induction fuel with
  | zero =>
    intro us k s n _ _ enough
    exact absurd enough (Nat.not_lt_zero _)
  | succ fuel ih =>
    intro us k s n left deep enough hk quiet
    rw [Phrase.extendUpTo_run] at quiet ⊢
    have stop : (∀ r ∈ Phrase.operatorsFrom l.rank, s.next.word.1.reserved? ≠ some r) →
        Trial s (LostTails settings l us) (fun vs t _ => DoneTails settings l us vs t)
          ((.ok n, s) : Except Fault Node × ParserState) :=
      fun free => .pure hk n ⟨(List.append_nil us).symm ▸ left, .nil free⟩
    cases ht : s.next.reserved?.bind Phrase.tail? with
    | none =>
      refine stop fun r hr next => ?_
      obtain ⟨m, a, hm, -⟩ := Phrase.mem_operatorsFrom.mp hr
      rw [show s.next.reserved? = some r from next, Option.bind_some, hm] at ht
      cases ht
    | some t =>
      obtain ⟨m, a⟩ := t
      obtain ⟨r, hr, hm⟩ := Option.bind_eq_some_iff.mp ht
      rw [ht] at quiet
      dsimp only at quiet ⊢
      by_cases le : l.rank ≤ m.rank
      · rw [if_pos le] at quiet ⊢
        have operator := Phrase.mem_operatorsFrom.mpr ⟨m, a, hm, le⟩
        refine .bind (fun n' => hg.sound.growing.extendUpTo l fuel n') quiet (hg.tail hm deep hk)
          (fun vs t faces lost => ?_) fun vs k' s' n' moved _ made quiet => ?_
        · obtain ⟨ws, right⟩ := lost.completion (Phrase.completable_tail hm).2
          exact ⟨⟨ws, (List.append_assoc us vs ws).symm ▸ left.extend hm operator right⟩,
            .left hm le lost.cut faces.next hr⟩
        have opens := made.words.opener (Phrase.leads_tail hm).opener
        have shorter : s'.rest.length < s.rest.length := by
          have := moved.length
          have := List.length_pos_iff.mpr (ne_nil_of_leading opens)
          omega
        refine (ih (left.extend hm operator made.words) (by omega) (by omega) moved.holds quiet).mono
          (fun ws t faces lost => ⟨?_, .cons hm le made.cut lost.cut faces.next opens⟩)
          fun ws t _ faces done => ⟨?_, .cons hm le made.cut done.cut faces.next opens⟩
        · rw [← List.append_assoc]
          exact lost.viable
        · rw [← List.append_assoc]
          exact done.words
      · rw [if_neg le]
        refine stop fun r' hr' next => ?_
        obtain ⟨m', a', hm', le'⟩ := Phrase.mem_operatorsFrom.mp hr'
        rw [show s.next.reserved? = some r' from next] at hr
        cases hr
        rw [hm] at hm'
        cases hm'
        exact le le'

theorem operand {l : Level} (tight : l.rank ≤ Level.unary.rank) {s : ParserState} {k : Macros}
    (deep : 2 * s.rest.length ≤ depth) (hk : s.unit.registry.Holds k)
    (quiet : (g.operand s).2.unit.Quiet) :
    Trial s (LostOperand settings l) (fun us t _ => DoneOperand settings l us t) (g.operand s) := by
  have quiet := Sound.quiet_map Found.ofNode quiet
  refine .of_map (f := Found.ofNode) (Q := fun us t _ => DoneOperand settings l us t) ?_
  rw [Phrase.operand_run] at quiet ⊢
  cases ha : Nonterminals.atom? s.next with
  | some n =>
    have high : l.rank ≤ Level.primary.rank := le_trans tight (by decide)
    exact .ok (.one hk (Phrase.isEnd_of_atom ha)) ⟨.tighter high (.atom ha), .atom ha⟩
  | none =>
    rw [ha] at quiet
    cases ho : s.next.reserved?.bind Phrase.operand? with
    | none =>
      refine .unwanted _ ⟨fun full => absurd rfl full, .none (fun u hu => ?_) ho⟩
      have same := atom?_of_word hu
      rw [ha] at same
      exact Option.map_eq_none_iff.mp same
    | some a =>
      obtain ⟨r, opens, hr⟩ := Option.bind_eq_some_iff.mp ho
      have leads := Phrase.leads_operand hr
      have high : l.rank ≤ (Phrase.operandLevel r).rank := by
        refine le_trans tight ?_
        unfold Phrase.operandLevel
        split <;> decide
      rw [ho] at quiet
      exact (hg.read leads.clear (Phrase.completable_operand hr).1 (by rw [leads.cost]; exact deep)
        hk quiet).mono
        (fun us t faces lost => ⟨fun full => (lost.viable full).imp fun _ words =>
          .tighter high (.operand hr words), .phrase hr lost.cut faces.next opens⟩)
        fun us t _ faces made => ⟨.tighter high (.operand hr made.words),
          .phrase hr made.cut faces.next opens⟩

theorem readExpression {l : Level} (tight : l.rank ≤ Level.unary.rank) {s : ParserState}
    {k : Macros} (deep : 2 * s.rest.length ≤ depth) (hk : s.unit.registry.Holds k)
    (quiet : (g.readExpression l s).2.unit.Quiet) :
    Trial s ((Phrase.part (.expression l)).Lost settings)
      (fun us t _ => (Phrase.part (.expression l)).Done settings us t) (g.readExpression l s) := by
  refine .bind (fun n => .of_get fun s => hg.sound.growing.extendUpTo l _ n) quiet
    (hg.operand tight deep hk) (fun us t _ lost => ⟨lost.viable, lost.cut.cutsLeft⟩)
    fun us k' s' n moved _ made quiet => ?_
  refine .look (run_get s') (fun quiet => ?_) quiet
  have := moved.length
  exact (hg.extendUpTo _ made.words (by omega) (Nat.lt_succ_self _) moved.holds quiet).mono
    (fun vs t faces lost => ⟨fun _ => lost.viable,
      made.cut.cuts lost.cut faces.next⟩)
    fun vs t _ faces done => ⟨done.words, made.cut.cuts done.cut faces.next⟩

theorem readPattern {s : ParserState} {k : Macros} (deep : 2 * s.rest.length ≤ depth)
    (hk : s.unit.registry.Holds k) (quiet : (g.readPattern s).2.unit.Quiet) :
    Trial s ((Phrase.part .pattern).Lost settings)
      (fun us t _ => (Phrase.part .pattern).Done settings us t) (g.readPattern s) := by
  have quiet := Sound.quiet_map Found.ofNode quiet
  refine .of_map (f := Found.ofNode)
    (Q := fun us t _ => (Phrase.part .pattern).Done settings us t) ?_
  rw [Phrase.pattern_run] at quiet ⊢
  cases ha : Nonterminals.atomicPattern? s.next with
  | some n =>
    exact .ok (.one hk (Phrase.isEnd_of_atomicPattern ha)) ⟨.atomicPattern ha, .atomicPattern ha⟩
  | none =>
    rw [ha] at quiet
    cases ho : s.next.reserved?.bind Phrase.pattern? with
    | none =>
      have lost : (Phrase.part .pattern).Lost settings [] s.next.word := by
        refine .nothing (.noPattern (fun u hu => ?_) ho)
        have same := atomicPattern?_of_word hu
        rw [ha] at same
        exact Option.map_eq_none_iff.mp same
      dsimp only
      split
      · rename_i ends
        exact .here ⟨rfl, ends.symm⟩ lost
      · rename_i inner
        exact .here ⟨⟨rfl, rfl⟩, (Bool.eq_false_iff.mpr inner).symm⟩ lost
    | some a =>
      obtain ⟨r, opens, hr⟩ := Option.bind_eq_some_iff.mp ho
      have leads := Phrase.leads_pattern hr
      rw [ho] at quiet
      exact (hg.read leads.clear (Phrase.completable_pattern hr).1 (by rw [leads.cost]; exact deep)
        hk quiet).mono
        (fun us t faces lost => ⟨fun full => (lost.viable full).imp fun _ => .compositePattern hr,
          .compositePattern hr lost.cut faces.next opens⟩)
        fun us t _ faces made => ⟨.compositePattern hr made.words,
          .compositePattern hr made.cut faces.next opens⟩

/-! ## Statements -/

theorem plainStatement {s : ParserState} {k : Macros} (deep : 2 * s.rest.length + 1 ≤ depth)
    (hk : s.unit.registry.Holds k) (quiet : (g.plainStatement settings s).2.unit.Quiet) :
    Trial s (LostStatement settings) (fun us t _ => DoneStatement settings us t)
      (g.plainStatement settings s) := by
  have quiet := Sound.quiet_map Found.ofNode quiet
  refine .of_map (f := Found.ofNode) (Q := fun us t _ => DoneStatement settings us t) ?_
  rw [Phrase.plainStatement_eq] at quiet ⊢
  refine .look (peek_run s) (fun quiet => ?_) quiet
  cases ht : s.next.reserved?.bind (Phrase.statement? settings) with
  | none =>
    rw [ht] at quiet
    refine (hg.read (a := .expressionStmt) rfl rfl deep hk quiet).mono (fun us t faces lost => ?_)
      fun us t _ faces made => ⟨made.words.ne_nil rfl, fun vs => .expressionStmt made.words,
        .expression made.cut faces.next ht⟩
    obtain ⟨vs, words⟩ := lost.completion rfl
    exact ⟨⟨vs, List.append_nil (us ++ vs) ▸ .expressionStmt words .noStatement⟩,
      .expression lost.cut faces.next ht⟩
  | some a =>
    obtain ⟨r, opens, hr⟩ := Option.bind_eq_some_iff.mp ht
    have leads := Phrase.leads_statement hr
    have completable := Phrase.completable_statement hr
    rw [ht] at quiet
    refine (hg.read leads.clear completable.1 (by rw [leads.cost]; omega) hk quiet).mono
      (fun us t faces lost => ?_)
      fun us t _ faces made => ⟨ne_nil_of_leading (made.words.opener leads.opener),
        fun vs => .statement hr made.words, .phrase hr made.cut faces.next opens⟩
    obtain ⟨vs, words⟩ := lost.completion completable.2
    exact ⟨⟨vs, List.append_nil (us ++ vs) ▸ .statement hr words .noStatement⟩,
      .phrase hr lost.cut faces.next opens⟩

end Nonterminals.Early

/-! ## Nonterminals at any depth -/

theorem completed_trial {t : Rereading} (ht : t.Growing) {read : Parser Node} {s : ParserState}
    {L : List Word → Word → Prop} {P : List Word → Word → Prop}
    (h : (read { s with pending := 0 }).2.unit.Quiet →
      Trial { s with pending := 0 } L (fun us w _ => P us w) (read { s with pending := 0 }))
    (quiet : (t.completed read s).2.unit.Quiet) :
    Trial s L (fun us w _ => P us w) (t.completed read s) := by
  rw [Rereading.completed_run] at quiet ⊢
  have done := h (quiet_of_bind (Rereading.grows_completion ht s.pending) quiet)
  rw [run_bind]
  generalize read { s with pending := 0 } = res at done
  cases done with
  | fault blames => exact .fault blames
  | @ok n us k s' moved made =>
    dsimp only
    rw [Rereading.completion_run moved.pending]
    have whole : s.Advanced us k { s' with pending := s.pending } :=
      ⟨moved.words, moved.frames, moved.scopes, rfl, moved.checks, moved.holds, moved.quiet⟩
    exact .ok whole made

theorem Nonterminals.early_upTo (settings : Settings) {t : Rereading} (ht : t.Growing)
    (depth : Nat) : (upTo settings t depth).Early settings depth := by
  induction depth with
  | zero =>
    refine ⟨sound_upTo settings ht 0, fun l s k _ deep => ?_, fun s k deep => ?_,
      fun s k deep => ?_⟩ <;> exact absurd deep (Nat.not_succ_le_zero _)
  | succ depth ih =>
    refine ⟨sound_upTo settings ht _, fun l s k tight deep hk quiet => ?_,
      fun s k deep hk quiet => ?_, fun s k deep hk quiet => ?_⟩
    · exact ih.readExpression tight (Nat.le_of_succ_le_succ deep) hk quiet
    · exact ih.readPattern (Nat.le_of_succ_le_succ deep) hk quiet
    · have plain := completed_trial ht (ih.plainStatement (s := { s with pending := 0 })
        (Nat.le_of_succ_le_succ deep) hk) (Sound.quiet_of_map quiet)
      exact plain.map fun _ _ _ made => made

/-! ## Programs -/

theorem checkpoint_run (s : ParserState) :
    (∃ s', ofWork Work.checkpoint s = (.error .cancelled, s')) ∨
      ∃ checks, ofWork Work.checkpoint s = (.ok (), { s with unit := { s.unit with checks } }) := by
  obtain ⟨⟨registry, gensym, log, checks⟩, previous, rest, stop, frames, scopes, pending⟩ := s
  rcases checks with _ | _ | n
  · exact .inr ⟨none, rfl⟩
  · exact .inl ⟨_, rfl⟩
  · exact .inr ⟨some n, rfl⟩

/-- The statements of a program. -/
theorem Nonterminals.Early.program {g : Nonterminals} {depth : Nat} (hg : g.Early settings depth)
    (fuel : Nat) : ∀ {s s' : ParserState} {k : Macros} {p : ParseFault},
    2 * s.rest.length + 2 ≤ depth → s.rest.length < fuel → s.unit.registry.Holds k →
    (repeatUpTo (not <$> atEnd) (programItem g) fuel s).2.unit.Quiet →
    repeatUpTo (not <$> atEnd) (programItem g) fuel s = (.error (.parse p), s') →
    p.Blames s s' (LostStatements settings (· = [])) := by
  have free : ∀ zs : List Word, zs = [] → ∀ r ∈ Phrase.tailMarks, leading zs ≠ some r := by
    rintro zs rfl r _ ⟨⟩
  have goes : ∀ (us : List Word) (t : Word), ∀ zs : List Word, zs = [] → ¬ us ++ [t] <+: zs := by
    rintro us t zs rfl starts
    exact List.append_ne_nil_of_right_ne_nil us (List.cons_ne_nil t []) (List.prefix_nil.mp starts)
  have split : ∀ f : List Node → Parser (List (List Node)), (programItem g >>= f) =
      ofWork Work.checkpoint >>= fun _ => g.statement >>= f :=
    fun f => bind_assoc (ofWork Work.checkpoint) (fun _ => g.statement) f
  induction fuel with
  | zero =>
    intro s s' k p _ enough
    exact absurd enough (Nat.not_lt_zero _)
  | succ fuel ih =>
    intro s s' k p deep enough hk quiet fails
    rw [repeatUpTo_succ, run_bind, atEnd_run] at quiet fails
    dsimp only at quiet fails
    cases ends : s.next.isEnd with
    | true =>
      rw [ends] at fails
      cases fails
    | false =>
      rw [ends] at quiet fails
      simp only [Bool.not_false, if_true] at quiet fails
      rw [split, run_bind] at quiet fails
      rcases checkpoint_run s with ⟨s₁, stopped⟩ | ⟨checks, goes'⟩
      · rw [stopped] at fails
        cases fails
      rw [goes'] at quiet fails
      dsimp only at quiet fails
      have items : Grows (repeatUpTo (not <$> atEnd) (programItem g) fuel) :=
        .repeatUpTo (Grows.map grows_peek.map) (grows_programItem hg.sound.growing) fuel
      have first := hg.statement { s with unit := { s.unit with checks } } k deep hk
        (quiet_of_bind (fun a => items.bind fun as => .pure _) quiet)
      rw [run_bind] at quiet fails
      generalize g.statement { s with unit := { s.unit with checks } } = res at first quiet fails
      cases first with
      | fault blames =>
        cases fails
        exact blames.mono fun us _ lost => lost.first free (goes us _)
      | @ok ns us k' s₁ moved made =>
        dsimp only at quiet fails
        have read : s.words = us ++ s₁.words := moved.words
        have shorter : s₁.rest.length < s.rest.length := by
          rw [← length_words, ← length_words, read, List.length_append]
          have := List.length_pos_iff.mpr made.full
          omega
        have others : repeatUpTo (not <$> atEnd) (programItem g) fuel s₁ = (.error (.parse p), s') →
            p.Blames s₁ s' (LostStatements settings (· = [])) :=
          ih (by omega) (by omega) moved.holds (quiet_of_bind (fun as => .pure _) quiet)
        rw [run_bind] at fails
        generalize repeatUpTo (not <$> atEnd) (programItem g) fuel s₁ = res at others fails
        obtain ⟨_ | as, s₂⟩ := res
        · intro words
          cases fails
          obtain ⟨vs, read', at', lost⟩ := others rfl words
          refine ⟨us ++ vs, by rw [read, read', List.append_assoc], at', ?_⟩
          exact made.lost free (goes us _) lost (faces_of_read read').next
        · cases fails

variable {s s' : ParserState} {k : Macros} {p : ParseFault}

theorem programWith_blames {t : Rereading} (ht : t.Growing) (hk : s.unit.registry.Holds k)
    (quiet : (programWith settings t s).2.unit.Quiet)
    (fails : programWith settings t s = (.error (.parse p), s')) :
    p.Blames s s' (LostStatements settings (· = [])) := by
  obtain ⟨span, run⟩ := programWith_run settings t s
  rw [run] at quiet fails
  have early := Nonterminals.early_upTo settings ht (2 * s.rest.length + 2)
  refine early.program (s := { s with scopes := [] :: s.scopes }) (s.rest.length + 1) (Nat.le_refl _)
    (Nat.lt_succ_self _) hk (quiet_of_bind (grows_finishProgram span) quiet) ?_
  rw [run_bind] at fails
  have loop : repeatWhile (not <$> atEnd) (programItem (.upTo settings t (2 * s.rest.length + 2)))
      { s with scopes := [] :: s.scopes } =
    repeatUpTo (not <$> atEnd) (programItem (.upTo settings t (2 * s.rest.length + 2)))
      (s.rest.length + 1) { s with scopes := [] :: s.scopes } := rfl
  rw [loop] at fails
  generalize repeatUpTo _ _ _ _ = res at fails ⊢
  obtain ⟨_ | nss, s₁⟩ := res
  · cases fails
    rfl
  · dsimp only at fails
    unfold finishProgram at fails
    rw [run_bind, closeScope_run] at fails
    cases h : s₁.scopes <;> rw [h] at fails <;> cases fails

theorem LostStatements.viable_program {us : List Word} {t : Word}
    (h : LostStatements settings (· = []) us t) : IsProgramPrefix settings us :=
  h.viable

theorem LostStatements.not_program {us : List Word} {t : Word}
    (h : LostStatements settings (· = []) us t) : ¬ IsProgramPrefix settings (us ++ [t]) := by
  rintro ⟨more, words⟩
  exact (h.cut _ [] words rfl (by rw [List.append_nil]; exact List.prefix_append _ _)).1

theorem IsProgramPrefix.of_append {us vs : List Word} (h : IsProgramPrefix settings (us ++ vs)) :
    IsProgramPrefix settings us := by
  obtain ⟨more, words⟩ := h
  exact ⟨vs ++ more, List.append_assoc us vs more ▸ words⟩

/-! ## Texts -/

/-- The tokens left are the last of the tokens before. -/
theorem BalancedRun.suffix {tokens : List Token} (h : BalancedRun tokens s s') :
    s'.rest <:+ s.rest := by
  induction h with
  | refl => exact List.suffix_rfl
  | tail _ step ih =>
    refine List.IsSuffix.trans ?_ ih
    cases step.1 with
    | stay rest => exact rest ▸ List.suffix_rfl
    | pass t rest | opens c t _ rest | closes c t u _ rest => exact rest ▸ List.suffix_cons _ _

theorem ParseFault.Reports.location {t u : Token} (h : p.Reports t) (h' : p.Reports u) :
    t.location = u.location := by
  cases p with
  | expectedToken | unbalancedDelimiter | unexpectedEnd => exact congrArg _ (h.symm.trans h')
  | invalidPattern => exact congrArg Span.start (h.2.symm.trans h'.2)

/-- What fails as a program does so at the first token behind which no program goes on, and the input
ends too early just when it could go on to be a program. -/
theorem parse_fault_earliest (settings : Settings) {source file : String} {tokens : List Token}
    (divided : tokenize source file = .ok tokens) {unit : UnitState}
    (fresh : unit.registry = Registry.empty)
    (quiet : (Work.parse (Parser.program settings) tokens unit).2.Quiet)
    (fails : (Work.parse (Parser.program settings) tokens unit).1 = .error (.parse p))
    (once : p.repeatsName = false) :
    ∃ before t after, tokens = before ++ t :: after ∧
      p.Reports t ∧ (∀ u ∈ before ++ after, ¬ p.Reports u) ∧
      (t.isEnd = true → IsProgramPrefix settings (sentence tokens)) ∧
      (t.isEnd = false → IsProgramPrefix settings (before.map Token.word) ∧
        ¬ IsProgramPrefix settings ((before ++ [t]).map Token.word)) ∧
      (p.isUnexpectedEnd = true ↔ IsProgramPrefix settings (sentence tokens)) := by
  obtain ⟨hw, inner⟩ := words_of_tokenize divided
  have growing := Rereading.growing_upTo settings settings.maxParseDepth
  have hk : (ParserState.start unit tokens).unit.registry.Holds [] := by
    show unit.registry.Holds []
    rw [fresh]
    exact Registry.holds_empty
  obtain ⟨s', run⟩ : ∃ s', programWith settings (.upTo settings settings.maxParseDepth)
      (ParserState.start unit tokens) = (.error (.parse p), s') := ⟨_, Prod.ext fails rfl⟩
  obtain ⟨us, read, at', lost⟩ := programWith_blames growing hk quiet run once
  -- the parser stands in front of one of the tokens, which is the one it blames
  have apart := Rereading.apart_upTo settings settings.maxParseDepth
  have kept := (keeps_programWith settings apart tokens _ (Place.outside_start unit tokens)).run
  rw [run] at kept
  obtain ⟨before, split⟩ := BalancedRun.suffix kept
  have split : before ++ s'.rest = tokens := split
  obtain rfl : us = before.map Token.word := by
    have read : tokens.map Token.word = us ++ s'.rest.map Token.word := read
    rw [← split, List.map_append] at read
    exact (List.append_cancel_right read).symm
  obtain ⟨more, viable⟩ := lost.viable
  have words : ∀ w ∈ before.map Token.word, w.1 ≠ .endOfInput := fun w hw =>
    viable.inner w (List.mem_append_left more hw)
  cases ahead : s'.rest with
  | nil =>
    rw [ahead, List.append_nil] at split
    rw [split, hw] at words
    exact absurd rfl (words (.endOfInput, "") (List.mem_append_right _ List.mem_cons_self))
  | cons t after =>
    have next : s'.next = t := by rw [ParserState.next, ahead]; rfl
    rw [ahead] at split
    rw [next] at at' lost
    subst split
    rw [List.map_append, List.map_cons] at hw
    have ended : t.isEnd = true → IsProgramPrefix settings (sentence (before ++ t :: after)) := by
      intro ends
      have kind : t.kind = .endOfInput := by simpa [Token.isEnd] using ends
      rw [← eq_of_append_end hw words inner (.inr ⟨t.lexeme, _, by rw [Token.word, kind]⟩)]
      exact lost.viable
    have stopped : ¬ IsProgramPrefix settings ((before ++ [t]).map Token.word) := by
      rw [List.map_append]
      exact lost.not_program
    refine ⟨before, t, after, rfl, at'.reports, fun u hu other => ?_, ended,
      fun _ => ⟨lost.viable, stopped⟩, at'.ends ▸ ⟨ended, fun viable => ?_⟩⟩
    · -- no other token stands there
      have sorted := List.pairwise_append.mp (scanFrom_places divided).2
      have place := congrArg Location.offset (at'.reports.location other)
      rcases List.mem_append.mp hu with hu | hu
      · exact absurd place (Nat.ne_of_gt (sorted.2.2 u hu t List.mem_cons_self))
      · exact absurd place (Nat.ne_of_lt (List.rel_of_pairwise_cons sorted.2.1 hu))
    · by_contra inside
      refine stopped ?_
      have starts : (before ++ [t]).map Token.word <+: sentence (before ++ t :: after) ++
          [(TokenKind.endOfInput, "")] := by
        rw [← hw, List.map_append]
        exact ⟨after.map Token.word, by rw [List.append_assoc]; rfl⟩
      rcases List.prefix_concat_iff.mp starts with whole | ⟨others, whole⟩
      · have last := congrArg List.getLast? whole
        rw [List.map_append, List.map_singleton, List.getLast?_concat, List.getLast?_concat] at last
        refine absurd ?_ inside
        have kind : t.kind = .endOfInput := congrArg Prod.fst (Option.some.inj last)
        simp [Token.isEnd, kind]
      · rw [← whole] at viable
        exact viable.of_append

/-- The fault of the grammar with which something has failed. -/
def parseFault? {α : Type} : Except Fault α → Option ParseFault
  | .error (.parse p) => some p
  | _ => none

theorem parseFault?_eq_some {α : Type} {e : Except Fault α} (h : parseFault? e = some p) :
    e = .error (.parse p) := by
  unfold parseFault? at h
  split at h
  · cases h
    rfl
  · cases h

/-- An argument is missing behind a separator. -/
theorem parse_fault_earliest_argument : ∃ tokens p,
    tokenize "f((1,,))" "call.mgs" = .ok tokens ∧ freshUnit.registry = Registry.empty ∧
    (Work.parse (Parser.program {}) tokens freshUnit).2.Quiet ∧
    (Work.parse (Parser.program {}) tokens freshUnit).1 = .error (.parse p) ∧
    p.repeatsName = false ∧
    ∃ before t after, tokens = before ++ t :: after ∧
      p.Reports t ∧ (∀ u ∈ before ++ after, ¬ p.Reports u) ∧
      (t.isEnd = true → IsProgramPrefix {} (sentence tokens)) ∧
      (t.isEnd = false → IsProgramPrefix {} (before.map Token.word) ∧
        ¬ IsProgramPrefix {} ((before ++ [t]).map Token.word)) ∧
      (p.isUnexpectedEnd = true ↔ IsProgramPrefix {} (sentence tokens)) := by
  have failed : (tokenize "f((1,,))" "call.mgs").toOption.map (fun tokens =>
      let run := Work.parse (Parser.program {}) tokens freshUnit
      (run.2.log, (parseFault? run.1).map ParseFault.repeatsName)) = some ([], some false) := by
    decide +kernel
  cases divided : tokenize "f((1,,))" "call.mgs" with
  | error fault =>
    rw [divided] at failed
    cases failed
  | ok tokens =>
    rw [divided] at failed
    have failed := Option.some.inj failed
    have quiet : (Work.parse (Parser.program {}) tokens freshUnit).2.Quiet := by
      have log : (Work.parse (Parser.program {}) tokens freshUnit).2.log = [] :=
        congrArg Prod.fst failed
      intro name hygiene reported
      rw [log] at reported
      exact absurd reported List.not_mem_nil
    obtain ⟨p, fault, once⟩ := Option.map_eq_some_iff.mp (congrArg Prod.snd failed)
    have fails := parseFault?_eq_some fault
    exact ⟨tokens, p, rfl, rfl, quiet, fails, once,
      parse_fault_earliest {} divided rfl quiet fails once⟩

end GlyphScript
