import GlyphScript.Proofs.Parsing.Language

/-!
# Where phrases end

When words are followed by a token, no other words of the phrase that start in
this way end anywhere else, unless something stands behind them that the phrase
would have gone on with; or there are none at all that start in this way. Both
are put together from the parts of the phrase.
-/

namespace GlyphScript

open Reserved

variable {settings : Settings} {a b : Phrase} {us vs ws zs : List Word} {t t₁ : Word} {r : Reserved}
  {whole : Prop}

/-! ## Beginnings -/

theorem leading_of_begins (h : us <+: vs) (full : us ≠ []) : leading vs = leading us := by
  obtain ⟨more, rfl⟩ := h
  exact leading_append full

/-- What stands first in words and the token behind them. -/
theorem leading_of_next (h : us ++ [t] <+: vs) (next : [t₁] <+: us ++ [t]) :
    leading vs = t₁.1.reserved? := by
  rw [leading_of_begins (next.trans h) (List.cons_ne_nil _ _)]
  rfl

theorem Generates.leads (h : Generates settings a ws) (zs : List Word) {r : Reserved}
    (hr : a.opener? = some r) : leading (ws ++ zs) = some r := by
  have opens := h.opener hr
  rw [leading_append (ne_nil_of_leading opens), opens]

namespace Phrase

/-- Words of the phrase that start with `us` and go on with `t` are `us`, and they may be that only
if `whole`; or something follows that the phrase would have gone on with. -/
def Cuts (settings : Settings) (a : Phrase) (us : List Word) (t : Word) (whole : Prop) : Prop :=
  ∀ ws zs, Generates settings a ws → us ++ [t] <+: ws ++ zs →
    whole ∧ ws = us ∨ ∃ r ∈ a.greedy, leading zs = some r

/-- Nothing of the phrase starts with `us` and goes on with `t`. -/
theorem Cuts.dead (h : a.Cuts settings us t False) (hw : Generates settings a ws) :
    ¬ us ++ [t] <+: ws := by
  intro starts
  rw [← List.append_nil ws] at starts
  rcases h ws [] hw starts with ⟨none, -⟩ | ⟨_, _, next⟩
  · exact none
  · cases next

theorem Cuts.nil (h : ∀ ws, Generates settings a ws → ws = []) : a.Cuts settings [] t True :=
  fun ws _ hw _ => .inl ⟨trivial, h ws hw⟩

/-- Phrases of one word. -/
theorem Cuts.word (h : ∀ ws, Generates settings a ws → ∃ w, ws = [w]) {w : Word} :
    a.Cuts settings [w] t True := by
  intro ws zs hw starts
  obtain ⟨w', rfl⟩ := h ws hw
  rw [List.cons_append, List.cons_append, List.cons_prefix_cons] at starts
  exact .inl ⟨trivial, by rw [starts.1]⟩

theorem Cuts.other (h : ∀ ws, Generates settings a ws → ∃ w vs, ws = w :: vs ∧ w ≠ t) :
    a.Cuts settings [] t whole := by
  intro ws zs hw starts
  obtain ⟨w, vs, rfl, other⟩ := h ws hw
  rw [List.nil_append, List.cons_append, List.cons_prefix_cons] at starts
  exact absurd starts.1.symm other

/-- Phrases of the same words that go on in the same way. -/
theorem Cuts.same (h : a.Cuts settings us t whole)
    (words : ∀ ws, Generates settings b ws → Generates settings a ws) (greedy : b.greedy = a.greedy) :
    b.Cuts settings us t whole := by
  intro ws zs hw starts
  rw [greedy]
  exact h ws zs (words ws hw) starts

/-! ## One phrase after another -/

theorem greedy_seq (second : Generates settings b ws) (hr : r ∈ a.greedy)
    (apart : ∀ r ∈ a.greedy, r ∉ b.starts) (next : leading (ws ++ zs) = some r) :
    ∃ r ∈ (seq a b).greedy, leading zs = some r := by
  cases ws with
  | nil =>
    refine ⟨r, ?_, next⟩
    rw [greedy, if_pos second.nullable_of_nil]
    exact List.mem_append_right _ hr
  | cons w ws => exact absurd (second.starts next) (apart r hr)

theorem Cuts.seq (first : a.Cuts settings us t₁ True) (second : b.Cuts settings vs t whole)
    (next : [t₁] <+: vs ++ [t]) (apart : ∀ r ∈ a.greedy, r ∉ b.starts) :
    (seq a b).Cuts settings (us ++ vs) t whole := by
  intro ws zs hw starts
  cases hw with
  | @seq _ _ ws₁ ws₂ hw₁ hw₂ =>
    rw [List.append_assoc, List.append_assoc] at starts
    rcases first ws₁ _ hw₁ (((List.prefix_append_right_inj us).mpr next).trans starts) with
      ⟨-, rfl⟩ | ⟨r, hr, opens⟩
    · rcases second ws₂ zs hw₂ ((List.prefix_append_right_inj ws₁).mp starts) with
        ⟨done, rfl⟩ | ⟨r, hr, opens⟩
      · exact .inl ⟨done, rfl⟩
      · exact .inr ⟨r, List.mem_append_left _ hr, opens⟩
    · exact .inr (greedy_seq hw₂ hr apart opens)

theorem Cuts.seqLeft (first : a.Cuts settings us t False) (apart : ∀ r ∈ a.greedy, r ∉ b.starts) :
    (Phrase.seq a b).Cuts settings us t whole := by
  intro ws zs hw starts
  cases hw with
  | @seq _ _ ws₁ ws₂ hw₁ hw₂ =>
    rw [List.append_assoc] at starts
    rcases first ws₁ _ hw₁ starts with ⟨none, -⟩ | ⟨r, hr, opens⟩
    · exact none.elim
    · exact .inr (greedy_seq hw₂ hr apart opens)

/-! ## Alternatives -/

theorem Cuts.left (inner : a.Cuts settings us t whole) (next : [t₁] <+: us ++ [t])
    (opens : t₁.1.reserved? = some r) (apart : r ∉ b.starts) :
    (either r a b).Cuts settings us t whole := by
  intro ws zs hw starts
  cases hw with
  | left hw =>
    refine (inner ws zs hw starts).imp_right fun ⟨r', hr', behind⟩ => ⟨r', ?_, behind⟩
    exact List.mem_append_left _ (List.mem_append_left _ hr')
  | right hw =>
    have opens := (leading_of_next starts next).trans opens
    cases ws with
    | nil =>
      refine .inr ⟨r, ?_, opens⟩
      rw [greedy, if_pos hw.nullable_of_nil]
      exact List.mem_append_right _ List.mem_cons_self
    | cons w ws => exact absurd (hw.starts opens) apart

theorem Cuts.right (inner : b.Cuts settings us t whole) (next : [t₁] <+: us ++ [t])
    (other : t₁.1.reserved? ≠ some r) (opener : a.opener? = some r) :
    (either r a b).Cuts settings us t whole := by
  intro ws zs hw starts
  cases hw with
  | left hw => exact absurd ((leading_of_next starts next).symm.trans (hw.leads zs opener)) other
  | right hw =>
    refine (inner ws zs hw starts).imp_right fun ⟨r', hr', behind⟩ => ⟨r', ?_, behind⟩
    exact List.mem_append_left _ (List.mem_append_right _ hr')

/-! ## Repetitions -/

theorem leading_star (h : Generates settings (star r a) ws) (opener : a.opener? = some r)
    (full : ws ≠ []) : leading ws = some r := by
  cases h with
  | starNil => exact absurd rfl full
  | starCons first _ => exact first.leads _ opener

theorem Cuts.starNil (opener : a.opener? = some r) (other : t.1.reserved? ≠ some r) :
    (star r a).Cuts settings [] t True := by
  intro ws zs hw starts
  by_cases full : ws = []
  · exact .inl ⟨trivial, full⟩
  · have opens := leading_star hw opener full
    rw [← leading_append full, leading_of_next starts (List.prefix_refl _)] at opens
    exact absurd opens other

/-- The first turn of a repetition. -/
theorem Cuts.turn (first : a.Cuts settings us t₁ whole) (opener : a.opener? = some r)
    (apart : r ∉ a.greedy) (starts : us ++ [t₁] <+: ws ++ zs) (opens : leading (us ++ [t₁]) = some r)
    (hw : Generates settings (star r a) ws) :
    (whole ∧ ∃ ws', Generates settings (star r a) ws' ∧ ws = us ++ ws') ∨
      ∃ r' ∈ (star r a).greedy, leading zs = some r' := by
  cases hw with
  | starNil =>
    refine .inr ⟨r, List.mem_cons_self, ?_⟩
    rw [← opens]
    exact leading_of_begins starts (by simp)
  | @starCons _ _ ws₁ ws₂ hw₁ hw₂ =>
    rw [List.append_assoc] at starts
    rcases first ws₁ _ hw₁ starts with ⟨done, rfl⟩ | ⟨r', hr', behind⟩
    · exact .inl ⟨done, ws₂, hw₂, rfl⟩
    · cases ws₂ with
      | nil => exact .inr ⟨r', List.mem_cons_of_mem _ hr', behind⟩
      | cons w ws₂ =>
        have behind : leading (w :: ws₂) = some r' := behind
        rw [leading_star hw₂ opener (List.cons_ne_nil _ _)] at behind
        cases behind
        exact absurd hr' apart

theorem Cuts.starCons (first : a.Cuts settings us t₁ True) (again : (star r a).Cuts settings vs t whole)
    (next : [t₁] <+: vs ++ [t]) (opener : a.opener? = some r) (apart : r ∉ a.greedy)
    (opens : leading us = some r) : (star r a).Cuts settings (us ++ vs) t whole := by
  intro ws zs hw starts
  rw [List.append_assoc] at starts
  have opens : leading (us ++ [t₁]) = some r := by
    rw [leading_append (ne_nil_of_leading opens), opens]
  rcases first.turn opener apart (((List.prefix_append_right_inj us).mpr next).trans starts) opens hw
    with ⟨-, ws', hw', rfl⟩ | behind
  · rw [List.append_assoc] at starts
    exact (again ws' zs hw' ((List.prefix_append_right_inj us).mp starts)).imp_left
      fun ⟨done, same⟩ => ⟨done, by rw [same]⟩
  · exact .inr behind

theorem Cuts.starLeft (first : a.Cuts settings us t False) (opener : a.opener? = some r)
    (apart : r ∉ a.greedy) (next : [t₁] <+: us ++ [t]) (opens : t₁.1.reserved? = some r) :
    (star r a).Cuts settings us t whole := by
  intro ws zs hw starts
  have opens := (leading_of_next (List.prefix_refl _) next).trans opens
  rcases first.turn opener apart starts opens hw with ⟨none, -⟩ | behind
  · exact none.elim
  · exact .inr behind

/-! ## Constructs -/

section

variable {c : Construct} {x y : String}

theorem Cuts.opening (other : t.1.reserved? ≠ some c.opener) :
    (construct c a).Cuts settings [] t whole := by
  refine .other fun ws hw => ?_
  cases hw
  exact ⟨_, _, rfl, fun same => other (by rw [← same]; rfl)⟩

/-- What has been read inside of a construct. -/
theorem Cuts.inside (inner : a.Cuts settings us t whole) (apart : c.closer ∉ a.greedy)
    (hw : Generates settings (construct c a) ws)
    (starts : (.reserved c.opener, x) :: us ++ [t] <+: ws ++ zs) :
    whole ∧ ∃ y, ws = (.reserved c.opener, x) :: us ++ [(TokenKind.reserved c.closer, y)] ∧
      t = (.reserved c.closer, y) := by
  cases hw with
  | @construct _ _ ws x' y hw =>
    rw [List.append_assoc, List.cons_append, List.cons_append, List.cons_prefix_cons] at starts
    obtain ⟨opens, starts⟩ := starts
    rcases inner ws _ hw starts with ⟨done, rfl⟩ | ⟨r, hr, behind⟩
    · refine ⟨done, y, by rw [opens], ?_⟩
      have closes := (List.prefix_append_right_inj ws).mp starts
      exact (List.cons_prefix_cons.mp closes).1
    · have behind : some c.closer = some r := behind
      cases behind
      exact absurd hr apart

theorem Cuts.insideLeft (inner : a.Cuts settings us t False) (apart : c.closer ∉ a.greedy) :
    (construct c a).Cuts settings ((.reserved c.opener, x) :: us) t whole :=
  fun _ _ hw starts => (inner.inside apart hw starts).1.elim

theorem Cuts.closing (inner : a.Cuts settings us t True) (apart : c.closer ∉ a.greedy)
    (other : t.1.reserved? ≠ some c.closer) :
    (construct c a).Cuts settings ((.reserved c.opener, x) :: us) t whole := by
  intro ws zs hw starts
  obtain ⟨-, y, -, rfl⟩ := inner.inside apart hw starts
  exact absurd rfl other

theorem Cuts.construct (inner : a.Cuts settings us (.reserved c.closer, y) True)
    (apart : c.closer ∉ a.greedy) :
    (construct c a).Cuts settings
      ((.reserved c.opener, x) :: us ++ [(TokenKind.reserved c.closer, y)]) t
      True := by
  intro ws zs hw starts
  obtain ⟨-, y', same, closes⟩ := inner.inside apart hw ((List.prefix_append _ _).trans starts)
  cases closes
  exact .inl ⟨trivial, same⟩

end

end Phrase

/-! ## Expressions -/

/-- What an expression starts with: a value, or a phrase that one reserved token tells. -/
inductive Operand (settings : Settings) : Level → List Word → Prop where
  | atom {t : Token} {n : Node} : Nonterminals.atom? t = some n → Operand settings .primary [t.word]
  | phrase {r : Reserved} {a : Phrase} {us : List Word} : Phrase.operand? r = some a →
    Generates settings a us → Operand settings (Phrase.operandLevel r) us

/-- What follows an operand of rank `hi` in an expression of rank `lo`: operators, none of which
holds together more tightly than the one in front of it. -/
inductive Tails (settings : Settings) (lo : Nat) : (hi : Nat) → List Word → Prop where
  | nil {hi : Nat} : Tails settings lo hi []
  | cons {hi : Nat} {r : Reserved} {m : Level} {a : Phrase} {us vs : List Word} :
    Phrase.tail? r = some (m, a) → lo ≤ m.rank → m.rank ≤ hi → Generates settings a us →
    Tails settings lo m.rank vs → Tails settings lo hi (us ++ vs)

namespace Tails

variable {lo lo' hi : Nat}

theorem weaken (h : Tails settings lo hi us) (le : lo' ≤ lo) : Tails settings lo' hi us := by
  induction h with
  | nil => exact .nil
  | cons made low high inner _ ih => exact .cons made (Nat.le_trans le low) high inner ih

theorem snoc {m : Level} (h : Tails settings m.rank hi us) (le : m.rank ≤ hi)
    (made : Phrase.tail? r = some (m, a)) (inner : Generates settings a vs) :
    Tails settings m.rank hi (us ++ vs) := by
  induction h with
  | nil =>
    rw [List.nil_append, ← List.append_nil vs]
    exact .cons made (Nat.le_refl _) le inner .nil
  | cons made' low high inner' _ ih =>
    rw [List.append_assoc]
    exact .cons made' low high inner' (ih low)

/-- The first operator. -/
theorem leads (h : Tails settings lo hi us) (full : us ≠ []) :
    ∃ r m a, Phrase.tail? r = some (m, a) ∧ lo ≤ m.rank ∧ m.rank ≤ hi ∧ leading us = some r := by
  cases h with
  | nil => exact absurd rfl full
  | cons made low high inner _ =>
    exact ⟨_, _, _, made, low, high, inner.leads _ (Phrase.leads_tail made).opener⟩

/-- No operator follows that holds together more tightly than allowed. -/
theorem behind (h : Tails settings lo hi ws) {l : Nat} (le : hi < l)
    (hr : r ∈ Phrase.operatorsFrom l) (next : leading (ws ++ zs) = some r) :
    ws = [] ∧ leading zs = some r := by
  cases ws with
  | nil => exact ⟨rfl, next⟩
  | cons w ws =>
    obtain ⟨r', m, a, made, -, high, opens⟩ := h.leads (List.cons_ne_nil _ _)
    rw [leading_append (List.cons_ne_nil _ _), opens] at next
    cases next
    obtain ⟨m', a', made', le'⟩ := Phrase.mem_operatorsFrom.mp hr
    rw [made] at made'
    cases made'
    omega

end Tails

/-- An expression is an operand with operators behind it. -/
theorem operand_of_generates {l : Level} (h : Generates settings (.part (.expression l)) us) :
    ∃ m : Level, ∃ vs ws, us = vs ++ ws ∧ l.rank ≤ m.rank ∧ Operand settings m vs ∧
      Tails settings l.rank m.rank ws := by
  generalize ha : Phrase.part (.expression l) = a at h
  induction h generalizing l with
  | atom made =>
    cases ha
    exact ⟨_, _, [], (List.append_nil _).symm, Nat.le_refl _, .atom made, .nil⟩
  | operand made inner =>
    cases ha
    exact ⟨_, _, [], (List.append_nil _).symm, Nat.le_refl _, .phrase made inner, .nil⟩
  | tighter le _ ih =>
    cases ha
    obtain ⟨m, vs, ws, rfl, high, operand, tails⟩ := ih rfl
    exact ⟨m, vs, ws, rfl, Nat.le_trans le high, operand, tails.weaken le⟩
  | tail made _ right ih =>
    cases ha
    obtain ⟨m, vs, ws, rfl, high, operand, tails⟩ := ih rfl
    exact ⟨m, vs, ws ++ _, List.append_assoc .., high, operand, tails.snoc high made right⟩
  | _ => cases ha

/-- As `Phrase.Cuts`, for operands. -/
def CutsOperand (settings : Settings) (us : List Word) (t : Word) (whole : Prop) : Prop :=
  ∀ (m : Level) (ws zs : List Word), Operand settings m ws → us ++ [t] <+: ws ++ zs →
    whole ∧ ws = us ∨ ∃ r ∈ Phrase.operatorsFrom (m.rank + 1), leading zs = some r

/-- As `Phrase.Cuts`, for the operators behind an operand. -/
def CutsTails (settings : Settings) (l : Level) (us : List Word) (t : Word) (whole : Prop) : Prop :=
  ∀ (hi : Nat) (ws zs : List Word), Tails settings l.rank hi ws → us ++ [t] <+: ws ++ zs →
    whole ∧ ws = us ∨ ∃ r ∈ Phrase.operatorsFrom l.rank, leading zs = some r

section

variable {l m : Level}

theorem CutsOperand.atom {u : Token} {n : Node} (ha : Nonterminals.atom? u = some n) :
    CutsOperand settings [u.word] t True := by
  intro m ws zs hw starts
  cases hw with
  | @atom u' n' _ =>
    exact .inl ⟨trivial, by rw [(List.cons_prefix_cons.mp starts).1]⟩
  | @phrase r a us made inner =>
    have opens := inner.leads zs (Phrase.leads_operand made).opener
    rw [leading_of_next starts (List.prefix_append _ _)] at opens
    exact absurd (mem_of_atom ha opens) (by cases Phrase.IsOperand.of made <;> decide)

theorem CutsOperand.phrase (hr : Phrase.operand? r = some a) (inner : a.Cuts settings us t whole)
    (next : [t₁] <+: us ++ [t]) (opens : t₁.1.reserved? = some r) :
    CutsOperand settings us t whole := by
  intro m ws zs hw starts
  have first := (leading_of_next starts next).trans opens
  cases hw with
  | atom made =>
    rw [leading_append (List.cons_ne_nil _ _)] at first
    exact absurd (mem_of_atom made first) (by cases Phrase.IsOperand.of hr <;> decide)
  | @phrase r' a' us' made hw =>
    rw [hw.leads _ (Phrase.leads_operand made).opener] at first
    cases first
    rw [hr] at made
    cases made
    refine (inner ws zs hw starts).imp_right fun ⟨s, hs, behind⟩ => ⟨s, ?_, behind⟩
    exact Phrase.greedy_operand hr hs

theorem CutsOperand.none (noAtom : ∀ u : Token, u.word = t → Nonterminals.atom? u = none)
    (noPhrase : t.1.reserved?.bind Phrase.operand? = none) : CutsOperand settings [] t whole := by
  intro m ws zs hw starts
  cases hw with
  | atom made =>
    have same := (List.cons_prefix_cons.mp starts).1
    rw [noAtom _ same.symm] at made
    cases made
  | phrase made inner =>
    have opens := inner.leads zs (Phrase.leads_operand made).opener
    rw [leading_of_next starts (List.prefix_refl _)] at opens
    rw [opens, Option.bind_some, made] at noPhrase
    cases noPhrase

/-- An expression is cut where its operators are. -/
theorem CutsOperand.cuts (operand : CutsOperand settings us t₁ True)
    (tails : CutsTails settings l vs t whole) (next : [t₁] <+: vs ++ [t]) :
    (Phrase.part (.expression l)).Cuts settings (us ++ vs) t whole := by
  intro ws zs hw starts
  obtain ⟨m, ws₁, ws₂, rfl, high, hw₁, hw₂⟩ := operand_of_generates hw
  rw [List.append_assoc, List.append_assoc] at starts
  rcases operand m ws₁ _ hw₁ (((List.prefix_append_right_inj us).mpr next).trans starts) with
    ⟨-, rfl⟩ | ⟨r, hr, behind⟩
  · exact (tails _ ws₂ zs hw₂ ((List.prefix_append_right_inj ws₁).mp starts)).imp_left
      fun ⟨done, same⟩ => ⟨done, by rw [same]⟩
  · obtain ⟨rfl, behind⟩ := hw₂.behind (Nat.lt_succ_self _) hr behind
    exact .inr ⟨r, Phrase.operatorsFrom_mono (Nat.le_succ_of_le high) hr, behind⟩

theorem CutsOperand.cutsLeft (operand : CutsOperand settings us t False) :
    (Phrase.part (.expression l)).Cuts settings us t whole := by
  intro ws zs hw starts
  obtain ⟨m, ws₁, ws₂, rfl, high, hw₁, hw₂⟩ := operand_of_generates hw
  rw [List.append_assoc] at starts
  rcases operand m ws₁ _ hw₁ starts with ⟨none, -⟩ | ⟨r, hr, behind⟩
  · exact none.elim
  · obtain ⟨rfl, behind⟩ := hw₂.behind (Nat.lt_succ_self _) hr behind
    exact .inr ⟨r, Phrase.operatorsFrom_mono (Nat.le_succ_of_le high) hr, behind⟩

theorem CutsTails.nil (free : ∀ r ∈ Phrase.operatorsFrom l.rank, t.1.reserved? ≠ some r) :
    CutsTails settings l [] t True := by
  intro hi ws zs hw starts
  by_cases full : ws = []
  · exact .inl ⟨trivial, full⟩
  · obtain ⟨r, m, a, made, low, -, opens⟩ := hw.leads full
    rw [← leading_append full, leading_of_next starts (List.prefix_refl _)] at opens
    exact absurd opens (free r (Phrase.mem_operatorsFrom.mpr ⟨m, a, made, low⟩))

/-- The first operator behind an operand. -/
theorem CutsTails.turn (hr : Phrase.tail? r = some (m, a)) (low : l.rank ≤ m.rank)
    (inner : a.Cuts settings us t whole) (opens : leading (us ++ [t]) = some r) {hi : Nat}
    (hw : Tails settings l.rank hi ws) (starts : us ++ [t] <+: ws ++ zs) :
    (whole ∧ ∃ ws', Tails settings l.rank m.rank ws' ∧ ws = us ++ ws') ∨
      ∃ r' ∈ Phrase.operatorsFrom l.rank, leading zs = some r' := by
  have first := (leading_of_begins starts (by simp)).trans opens
  cases hw with
  | nil => exact .inr ⟨r, Phrase.mem_operatorsFrom.mpr ⟨m, a, hr, low⟩, first⟩
  | @cons _ r' m' a' ws₁ ws₂ made low' high hw₁ hw₂ =>
    rw [List.append_assoc] at starts first
    rw [hw₁.leads _ (Phrase.leads_tail made).opener] at first
    cases first
    rw [hr] at made
    cases made
    rcases inner ws₁ _ hw₁ starts with ⟨done, rfl⟩ | ⟨s, hs, behind⟩
    · exact .inl ⟨done, ws₂, hw₂, rfl⟩
    · have hs := Phrase.greedy_tail hr hs
      obtain ⟨rfl, behind⟩ := hw₂.behind (Nat.lt_succ_self _) hs behind
      exact .inr ⟨s, Phrase.operatorsFrom_mono (Nat.le_succ_of_le low) hs, behind⟩

theorem CutsTails.cons (hr : Phrase.tail? r = some (m, a)) (low : l.rank ≤ m.rank)
    (inner : a.Cuts settings us t₁ True) (tails : CutsTails settings l vs t whole)
    (next : [t₁] <+: vs ++ [t]) (opens : leading us = some r) :
    CutsTails settings l (us ++ vs) t whole := by
  intro hi ws zs hw starts
  rw [List.append_assoc] at starts
  have opens : leading (us ++ [t₁]) = some r := by
    rw [leading_append (ne_nil_of_leading opens), opens]
  rcases CutsTails.turn hr low inner opens hw
    (((List.prefix_append_right_inj us).mpr next).trans starts) with ⟨-, ws', hw', rfl⟩ | behind
  · rw [List.append_assoc] at starts
    exact (tails _ ws' zs hw' ((List.prefix_append_right_inj us).mp starts)).imp_left
      fun ⟨done, same⟩ => ⟨done, by rw [same]⟩
  · exact .inr behind

theorem CutsTails.left (hr : Phrase.tail? r = some (m, a)) (low : l.rank ≤ m.rank)
    (inner : a.Cuts settings us t False) (next : [t₁] <+: us ++ [t])
    (opens : t₁.1.reserved? = some r) : CutsTails settings l us t whole := by
  intro hi ws zs hw starts
  have opens := (leading_of_next (List.prefix_refl _) next).trans opens
  rcases CutsTails.turn hr low inner opens hw starts with ⟨none, -⟩ | behind
  · exact none.elim
  · exact .inr behind

end

/-- Behind a name that starts an expression an operator follows, if anything. -/
theorem second_of_generates {l : Level} {x : String} {v : Word}
    (h : Generates settings (.part (.expression l)) ws)
    (starts : [(.identifier, x), v] <+: ws ++ zs) (free : ∀ r ∈ Phrase.tailMarks, v.1.reserved? ≠ some r) :
    leading zs = v.1.reserved? := by
  obtain ⟨m, ws₁, ws₂, rfl, -, operand, tails⟩ := operand_of_generates h
  cases operand with
  | phrase made inner =>
    have opens := inner.leads (ws₂ ++ zs) (Phrase.leads_operand made).opener
    rw [← List.append_assoc, leading_of_begins starts (List.cons_ne_nil _ _)] at opens
    cases opens
  | atom made =>
    have behind : leading (ws₂ ++ zs) = v.1.reserved? :=
      leading_of_begins (List.cons_prefix_cons.mp starts).2 (List.cons_ne_nil _ _)
    by_cases full : ws₂ = []
    · rwa [full] at behind
    · obtain ⟨r, m, a, made, -, -, opens⟩ := tails.leads full
      rw [leading_append full, opens] at behind
      refine absurd behind.symm (free r ?_)
      exact Phrase.operatorsFrom_subset (Phrase.mem_operatorsFrom.mpr ⟨m, a, made, Nat.le_refl _⟩)

namespace Phrase

variable {l : Level} {x y : String}

/-- Behind a name and an arrow, where the phrase for them is read. -/
theorem Cuts.bound (inner : a.Cuts settings us t whole)
    (arrow : [(.identifier, x), (.reserved .bindArrow, y)] <+: us ++ [t]) :
    (ahead a (part (.expression l))).Cuts settings us t whole := by
  intro ws zs hw starts
  cases hw with
  | bound hw =>
    refine (inner ws zs hw starts).imp_right fun ⟨r, hr, behind⟩ => ⟨r, ?_, behind⟩
    exact List.mem_cons_of_mem _ (List.mem_append_left _ hr)
  | unbound hw =>
    refine .inr ⟨.bindArrow, List.mem_cons_self, ?_⟩
    have free : ∀ r ∈ tailMarks, some bindArrow ≠ some r := by decide
    exact second_of_generates hw (arrow.trans starts) free

theorem Cuts.unbound (inner : (part (.expression l)).Cuts settings us t whole)
    (free : ∀ x y, ¬ [(TokenKind.identifier, x), (.reserved .bindArrow, y)] <+: us ++ [t])
    (full : us = [] → ¬ whole) (binding : a.startsBinding = true) :
    (ahead a (part (.expression l))).Cuts settings us t whole := by
  intro ws zs hw starts
  cases hw with
  | unbound hw =>
    refine (inner ws zs hw starts).imp_right fun ⟨r, hr, behind⟩ => ⟨r, ?_, behind⟩
    exact List.mem_cons_of_mem _ (List.mem_append_right _ hr)
  | bound hw =>
    -- the words start with a name and an arrow, of which the name alone is an expression
    have form : ∃ x y vs, ws = (.identifier, x) :: (.reserved .bindArrow, y) :: vs := by
      unfold startsBinding at binding
      split at binding
      · cases hw with
        | seq first second =>
          cases first
          cases second with
          | seq first second =>
            cases first
            rw [of_decide_eq_true binding]
            exact ⟨_, _, _, rfl⟩
      · cases binding
    obtain ⟨x, y, vs, rfl⟩ := form
    rcases us with _ | ⟨u, _ | ⟨u', us⟩⟩
    · have same := (List.cons_prefix_cons.mp starts).1
      rcases inner [(.identifier, x)] [] (generates_name l x) (by rw [same]; exact List.prefix_refl _)
        with ⟨done, -⟩ | ⟨_, _, none⟩
      · exact absurd done (full rfl)
      · cases none
    · have same := List.cons_prefix_cons.mp starts
      have same' := List.cons_prefix_cons.mp same.2
      refine absurd ?_ (free x y)
      rw [same.1, ← same'.1]
      exact List.prefix_refl _
    · have same := List.cons_prefix_cons.mp starts
      have same' := List.cons_prefix_cons.mp same.2
      refine absurd ?_ (free x y)
      rw [same.1, same'.1]
      exact List.prefix_append _ _

end Phrase

/-! ## Patterns -/

namespace Phrase

theorem Cuts.atomicPattern {u : Token} {n : Node} (ha : Nonterminals.atomicPattern? u = some n) :
    (part .pattern).Cuts settings [u.word] t True := by
  intro ws zs hw starts
  cases hw with
  | atomicPattern => exact .inl ⟨trivial, by rw [(List.cons_prefix_cons.mp starts).1]⟩
  | @compositePattern r a _ made inner =>
    have opens := inner.leads zs (leads_pattern made).opener
    rw [leading_of_next starts (List.prefix_append _ _)] at opens
    exact absurd (mem_of_atomicPattern ha opens) (by cases IsComposite.of made <;> decide)

theorem Cuts.compositePattern (hr : pattern? r = some a) (inner : a.Cuts settings us t whole)
    (next : [t₁] <+: us ++ [t]) (opens : t₁.1.reserved? = some r) :
    (part .pattern).Cuts settings us t whole := by
  intro ws zs hw starts
  have first := (leading_of_next starts next).trans opens
  cases hw with
  | atomicPattern made =>
    rw [leading_append (List.cons_ne_nil _ _)] at first
    exact absurd (mem_of_atomicPattern made first) (by cases IsComposite.of hr <;> decide)
  | @compositePattern r' a' _ made hw =>
    rw [hw.leads _ (leads_pattern made).opener] at first
    cases first
    rw [hr] at made
    cases made
    refine (inner ws zs hw starts).imp_right fun ⟨s, hs, _⟩ => ?_
    rw [greedy_pattern hr] at hs
    exact absurd hs List.not_mem_nil

theorem Cuts.noPattern (noAtom : ∀ u : Token, u.word = t → Nonterminals.atomicPattern? u = none)
    (noPhrase : t.1.reserved?.bind pattern? = none) : (part .pattern).Cuts settings [] t whole := by
  intro ws zs hw starts
  cases hw with
  | atomicPattern made =>
    have same := (List.cons_prefix_cons.mp starts).1
    rw [noAtom _ same.symm] at made
    cases made
  | compositePattern made inner =>
    have opens := inner.leads zs (leads_pattern made).opener
    rw [leading_of_next starts (List.prefix_refl _)] at opens
    rw [opens, Option.bind_some, made] at noPhrase
    cases noPhrase

theorem Cuts.binding (inner : (part .pattern).Cuts settings us t whole) :
    (part .binding).Cuts settings us t whole := by
  intro ws zs hw starts
  cases hw with
  | binding hw => exact inner ws zs hw starts

end Phrase

/-! ## Statements -/

/-- The first of several statements that start with `us` and go on with `t` is `us`, and it may be
that only if `whole`, unless an operator follows the statements. -/
def CutsStatement (settings : Settings) (us : List Word) (t : Word) (whole : Prop) : Prop :=
  ∀ ws zs, Generates settings (.part .statements) ws → ws ≠ [] →
    (∀ r ∈ Phrase.tailMarks, leading zs ≠ some r) → us ++ [t] <+: ws ++ zs →
    whole ∧ ∃ ws', Generates settings (.part .statements) ws' ∧ ws = us ++ ws'

/-- As `Phrase.Cuts`, for statements in front of one of the endings. -/
def CutsStatements (settings : Settings) (ending : List Word → Prop) (us : List Word) (t : Word)
    (whole : Prop) : Prop :=
  ∀ ws zs, Generates settings (.part .statements) ws → ending zs → us ++ [t] <+: ws ++ zs →
    whole ∧ ws = us

theorem CutsStatement.phrase (hr : Phrase.statement? settings r = some a)
    (inner : a.Cuts settings us t whole) (next : [t₁] <+: us ++ [t])
    (opens : t₁.1.reserved? = some r) : CutsStatement settings us t whole := by
  intro ws zs hw full free starts
  have first := (leading_of_next starts next).trans opens
  cases opening_of_generates hw with
  | none => exact absurd rfl full
  | @phrase r' a' ws₁ ws₂ made hw₁ hw₂ =>
    rw [List.append_assoc] at starts first
    rw [hw₁.leads _ (Phrase.leads_statement made).opener] at first
    cases first
    rw [hr] at made
    cases made
    rcases inner ws₁ _ hw₁ starts with ⟨done, rfl⟩ | ⟨s, hs, -⟩
    · exact ⟨done, ws₂, hw₂, rfl⟩
    · rw [Phrase.greedy_statement hr] at hs
      exact absurd hs List.not_mem_nil
  | @expression ws₁ ws₂ hw₁ hw₂ _ =>
    have apart : ∀ r ∈ Phrase.expressionMarks, r ∉ Phrase.statementMarks := by decide
    rw [List.append_assoc, leading_append (hw₁.ne_nil rfl)] at first
    exact absurd (Phrase.mem_statement hr) (apart r (hw₁.starts first))

theorem CutsStatement.expression (inner : Phrase.expressionStmt.Cuts settings us t whole)
    (next : [t₁] <+: us ++ [t])
    (noPhrase : t₁.1.reserved?.bind (Phrase.statement? settings) = none) :
    CutsStatement settings us t whole := by
  intro ws zs hw full free starts
  have first := leading_of_next starts next
  cases opening_of_generates hw with
  | none => exact absurd rfl full
  | @phrase r' a' ws₁ ws₂ made hw₁ hw₂ =>
    rw [List.append_assoc, hw₁.leads _ (Phrase.leads_statement made).opener] at first
    rw [← first, Option.bind_some, made] at noPhrase
    cases noPhrase
  | @expression ws₁ ws₂ hw₁ hw₂ uncalled =>
    rw [List.append_assoc] at starts
    rcases inner ws₁ _ hw₁ starts with ⟨done, rfl⟩ | ⟨s, hs, behind⟩
    · exact ⟨done, ws₂, hw₂, rfl⟩
    · have hs : s ∈ Phrase.operatorsFrom Level.conditional.rank := hs
      have goes : s ∈ Phrase.tailMarks := Phrase.operatorsFrom_subset hs
      have shared : ∀ r ∈ Phrase.tailMarks, r ∈ Phrase.nonterminalStarts .statements →
          r = .listOpen := by decide
      cases ws₂ with
      | nil => exact absurd behind (free s goes)
      | cons w ws₂ =>
        have behind : leading (w :: ws₂) = some s := behind
        exact absurd (shared s goes (hw₂.starts behind) ▸ behind) uncalled

namespace CutsStatements

variable {ending : List Word → Prop}

/-- Where no statement begins. -/
theorem nil (stop : ∀ ws, Generates settings (.part .statements) ws → ¬ [t] <+: ws) :
    CutsStatements settings ending [] t True := by
  intro ws zs hw _ starts
  cases ws with
  | nil => exact ⟨trivial, rfl⟩
  | cons w ws =>
    have same := (List.cons_prefix_cons.mp starts).1
    exact absurd ⟨ws, by rw [same]; rfl⟩ (stop _ hw)

/-- A statement in front of others. -/
theorem cons (first : CutsStatement settings us t₁ True)
    (others : CutsStatements settings ending vs t whole) (next : [t₁] <+: vs ++ [t])
    (free : ∀ zs, ending zs → ∀ r ∈ Phrase.tailMarks, leading zs ≠ some r)
    (goes : ∀ zs, ending zs → ¬ us ++ [t₁] <+: zs) :
    CutsStatements settings ending (us ++ vs) t whole := by
  intro ws zs hw ends starts
  rw [List.append_assoc] at starts
  have begins := ((List.prefix_append_right_inj us).mpr next).trans starts
  by_cases full : ws = []
  · subst full
    exact absurd begins (goes zs ends)
  · obtain ⟨-, ws', hw', rfl⟩ := first ws zs hw full (free zs ends) begins
    rw [List.append_assoc] at starts
    obtain ⟨done, rfl⟩ := others ws' zs hw' ends ((List.prefix_append_right_inj us).mp starts)
    exact ⟨done, rfl⟩

theorem left (first : CutsStatement settings us t False)
    (free : ∀ zs, ending zs → ∀ r ∈ Phrase.tailMarks, leading zs ≠ some r)
    (goes : ∀ zs, ending zs → ¬ us ++ [t] <+: zs) : CutsStatements settings ending us t whole := by
  intro ws zs hw ends starts
  by_cases full : ws = []
  · subst full
    exact absurd starts (goes zs ends)
  · exact (first ws zs hw full (free zs ends) starts).1.elim

end CutsStatements

/-- What follows the statements of a body. -/
def BodyEnd (zs : List Word) : Prop := leading zs = some .bodyClose

namespace Phrase

variable {x y : String}

theorem Cuts.noBody (other : t.1.reserved? ≠ some .bodyOpen) :
    (part .body).Cuts settings [] t whole := by
  refine .other fun ws hw => ?_
  cases hw
  exact ⟨_, _, rfl, fun same => other (by rw [← same]; rfl)⟩

/-- What has been read inside of a body. -/
theorem Cuts.statements (inner : CutsStatements settings BodyEnd us t whole)
    (hw : Generates settings (part .body) ws)
    (starts : (.reserved .bodyOpen, x) :: us ++ [t] <+: ws ++ zs) :
    whole ∧ ∃ y, ws = (.reserved .bodyOpen, x) :: us ++ [(TokenKind.reserved .bodyClose, y)] ∧
      t = (.reserved .bodyClose, y) := by
  cases hw with
  | @body ws x' y hw =>
    rw [List.append_assoc, List.cons_append, List.cons_append, List.cons_prefix_cons] at starts
    obtain ⟨opens, starts⟩ := starts
    have ends : BodyEnd ([(TokenKind.reserved .bodyClose, y)] ++ zs) := rfl
    obtain ⟨done, rfl⟩ := inner ws _ hw ends starts
    refine ⟨done, y, by rw [opens], ?_⟩
    exact (List.cons_prefix_cons.mp ((List.prefix_append_right_inj ws).mp starts)).1

theorem Cuts.bodyLeft (inner : CutsStatements settings BodyEnd us t False) :
    (part .body).Cuts settings ((.reserved .bodyOpen, x) :: us) t whole :=
  fun _ _ hw starts => (Cuts.statements inner hw starts).1.elim

theorem Cuts.bodyClosing (inner : CutsStatements settings BodyEnd us t True)
    (other : t.1.reserved? ≠ some .bodyClose) :
    (part .body).Cuts settings ((.reserved .bodyOpen, x) :: us) t whole := by
  intro ws zs hw starts
  obtain ⟨-, y, -, rfl⟩ := Cuts.statements inner hw starts
  exact absurd rfl other

theorem Cuts.body (inner : CutsStatements settings BodyEnd us (.reserved .bodyClose, y) True) :
    (part .body).Cuts settings
      ((.reserved .bodyOpen, x) :: us ++ [(TokenKind.reserved .bodyClose, y)]) t
      True := by
  intro ws zs hw starts
  obtain ⟨-, y', same, closes⟩ := Cuts.statements inner hw ((List.prefix_append _ _).trans starts)
  cases closes
  exact .inl ⟨trivial, same⟩

end Phrase

end GlyphScript
