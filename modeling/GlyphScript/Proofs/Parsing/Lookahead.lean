import GlyphScript.Proofs.Parsing.Derivation
import GlyphScript.Proofs.Parsing.Reading

/-!
# Looking ahead

What the next token has to tell. For every phrase it is computed which reserved
tokens it may start with, and which of them, standing behind it, a parser would
take for a part of it. A phrase is clear if one token always decides.
-/

namespace GlyphScript

open Reserved

/-! ## Words -/

theorem leading_append {us vs : List Word} (h : us ≠ []) : leading (us ++ vs) = leading us := by
  cases us with
  | nil => exact absurd rfl h
  | cons u us => rfl

theorem ne_nil_of_leading {us : List Word} {r : Reserved} (h : leading us = some r) : us ≠ [] := by
  rintro rfl
  cases h

namespace Phrase

/-! ## Tables -/

/-- The reserved tokens that go on with an expression. -/
def tailMarks : List Reserved := [condThen, add, subtract, multiply, divide, listOpen]

/-- The operators of a rank or a tighter one. -/
def operatorsFrom (rank : Nat) : List Reserved :=
  tailMarks.filter fun r => (tail? r).any fun t => rank ≤ t.1.rank

theorem mem_tailMarks {r : Reserved} {m : Level} {a : Phrase} (h : tail? r = some (m, a)) :
    r ∈ tailMarks := by
  cases IsTail.of h <;> decide

theorem mem_operatorsFrom {rank : Nat} {r : Reserved} :
    r ∈ operatorsFrom rank ↔ ∃ m a, tail? r = some (m, a) ∧ rank ≤ m.rank := by
  simp only [operatorsFrom, List.mem_filter, Option.any_eq_true, decide_eq_true_eq, Prod.exists]
  constructor
  · rintro ⟨-, m, a, h⟩
    exact ⟨m, a, h⟩
  · rintro ⟨m, a, h⟩
    exact ⟨mem_tailMarks h.1, m, a, h⟩

theorem operatorsFrom_subset {rank : Nat} {r : Reserved} (h : r ∈ operatorsFrom rank) :
    r ∈ tailMarks :=
  List.mem_of_mem_filter h

theorem operatorsFrom_mono {m n : Nat} (le : m ≤ n) {r : Reserved} (hr : r ∈ operatorsFrom n) :
    r ∈ operatorsFrom m := by
  obtain ⟨l, a, ht, high⟩ := mem_operatorsFrom.mp hr
  exact mem_operatorsFrom.mpr ⟨l, a, ht, le_trans le high⟩

/-- The reserved tokens that are values. -/
def valueMarks : List Reserved := [trueMark, falseMark, nullMark]

def expressionMarks : List Reserved :=
  valueMarks ++ [groupOpen, listOpen, tensorLitOpen, compOpen, lambdaOpen, quoteOpen, unquoteOpen,
    macroInvoke, negate, await]

def patternMarks : List Reserved := valueMarks ++ [listOpen, tensorLitOpen, nnOpen, streamOpen]

/-- The reserved tokens that start a statement other than an expression. -/
def statementMarks : List Reserved :=
  [assignOpen, importOpen, returnOpen, yieldOpen, breakMark, continueMark, macroOpen, memoryOpen,
    deviceOpen, tryOpen, matchOpen, funcOpen, asyncFuncOpen, classOpen, ifOpen, loopOpen,
    parallelOpen, gpuOpen, tensorOpen, nnOpen, streamOpen, blockOpen]

/-! ## Measures of phrases -/

/-- Whether the phrase may have no words. -/
def nullable : Phrase → Bool
  | give _ | place | star _ _ | part .statements => true
  | mark _ | kept _ | spelled _ | name _ | part _ | fail _ | construct _ _ => false
  | seq a b => a.nullable && b.nullable
  | either _ a b | ahead a b => a.nullable || b.nullable
  | gather a | list a | demand a _ | node _ a | chain a => a.nullable

/-- The reserved tokens that a nonterminal may start with. -/
def nonterminalStarts : Nonterminal → List Reserved
  | .expression _ => expressionMarks
  | .pattern | .binding => patternMarks
  | .body => [bodyOpen]
  | .statement | .statements => statementMarks ++ expressionMarks

/-- The reserved tokens that the phrase may start with. -/
def starts : Phrase → List Reserved
  | mark r | kept r | spelled r => [r]
  | part n => nonterminalStarts n
  | seq a b => if a.nullable then a.starts ++ b.starts else a.starts
  | either _ a b | ahead a b => a.starts ++ b.starts
  | star _ a | gather a | list a | demand a _ | node _ a | chain a => a.starts
  | construct c _ => [c.opener]
  | give _ | place | name _ | fail _ => []

/-- Whether the phrase has no words at all. -/
def silent : Phrase → Bool
  | give _ | place => true
  | _ => false

/-- The only reserved token that the phrase may start with, if there is only one. -/
def opener? : Phrase → Option Reserved
  | mark r | kept r | spelled r => some r
  | part .body => some bodyOpen
  | seq a b => if a.silent then b.opener? else a.opener?
  | gather a | list a | demand a _ | node _ a | chain a => a.opener?
  | construct c _ => some c.opener
  | _ => none

/-- The reserved tokens that are taken for a part of the phrase when they stand behind it. -/
def greedy : Phrase → List Reserved
  | part (.expression l) => operatorsFrom l.rank
  | seq a b => b.greedy ++ if b.nullable then a.greedy else []
  | either r a b => a.greedy ++ b.greedy ++ if b.nullable then [r] else []
  | ahead a b => bindArrow :: (a.greedy ++ b.greedy)
  | star r a => r :: a.greedy
  | gather a | list a | demand a _ | node _ a | chain a => a.greedy
  | _ => []

/-- Reserved tokens that are never next when the phrase has been read. -/
def stops : Phrase → List Reserved
  | part (.expression l) => operatorsFrom l.rank
  | seq _ b => b.stops
  | gather a | list a | demand a _ | node _ a | chain a => a.stops
  | _ => []

/-- Whether the phrase is a name, an arrow and something else. -/
def startsBinding : Phrase → Bool
  | seq (name _) (seq (mark r) _) => r = bindArrow
  | _ => false

def isExpression : Phrase → Bool
  | part (.expression _) => true
  | _ => false

/-- Whether the next token always decides how to go on. -/
def clear : Phrase → Bool
  | seq a b => a.clear && b.clear && a.greedy.all fun r => !b.starts.contains r
  | either r a b => a.clear && b.clear && a.opener? = some r && !b.starts.contains r
  | ahead a b => a.clear && b.clear && a.startsBinding && b.isExpression
  | star r a => a.clear && a.opener? = some r && !a.greedy.contains r
  | gather a | list a | demand a _ | node _ a | chain a => a.clear
  | construct c a => a.clear && !a.greedy.contains c.closer
  | part (.expression l) => l.rank ≤ Level.unary.rank
  | part .statement | part .statements => false
  | _ => true

/-- How much deeper than twice the tokens left the nonterminals have to go. -/
def cost : Phrase → Nat
  | part (.expression _) | part .pattern | part .binding => 1
  | part .statement | part .statements => 2
  | seq a b => if a.nullable then max a.cost b.cost else a.cost
  | either _ a b | ahead a b => max a.cost b.cost
  | star _ a | gather a | list a | demand a _ | node _ a | chain a => a.cost
  | _ => 0

theorem cost_le (a : Phrase) : a.cost ≤ 2 := by
  induction a with
  | part n => cases n <;> simp [cost]
  | seq a b iha ihb =>
    rw [cost]
    split
    · exact max_le iha ihb
    · exact iha
  | either r a b iha ihb | ahead a b iha ihb => exact max_le iha ihb
  | star r a ih | gather a ih | list a ih | demand a what ih | node head a ih | chain a ih =>
    exact ih
  | give | place | mark | kept | spelled | name | fail | construct => exact Nat.zero_le 2

/-- The phrase starts with `r`, is clear, and reads a token before anything else. -/
structure Leads (r : Reserved) (a : Phrase) : Prop where
  opener : a.opener? = some r
  clear : a.clear = true
  cost : a.cost = 0

theorem leads_operand {r : Reserved} {a : Phrase} (h : operand? r = some a) : a.Leads r := by
  cases IsOperand.of h <;> exact ⟨rfl, rfl, rfl⟩

theorem leads_tail {r : Reserved} {m : Level} {a : Phrase} (h : tail? r = some (m, a)) :
    a.Leads r := by
  cases IsTail.of h <;> exact ⟨rfl, rfl, rfl⟩

theorem leads_pattern {r : Reserved} {a : Phrase} (h : pattern? r = some a) : a.Leads r := by
  cases IsComposite.of h <;> exact ⟨rfl, rfl, rfl⟩

theorem leads_statement {settings : Settings} {r : Reserved} {a : Phrase}
    (h : statement? settings r = some a) : a.Leads r := by
  cases IsStatement.of h <;> exact ⟨rfl, rfl, rfl⟩

/-- What may follow an operand of some rank may follow the whole of it. -/
theorem greedy_operand {r s : Reserved} {a : Phrase} (h : operand? r = some a) (hs : s ∈ a.greedy) :
    s ∈ operatorsFrom ((operandLevel r).rank + 1) := by
  cases IsOperand.of h
  case negate | await => exact hs
  all_goals exact absurd hs List.not_mem_nil

theorem greedy_tail {r s : Reserved} {m : Level} {a : Phrase} (h : tail? r = some (m, a))
    (hs : s ∈ a.greedy) : s ∈ operatorsFrom (m.rank + 1) := by
  cases IsTail.of h
  case listOpen => exact absurd hs List.not_mem_nil
  all_goals exact hs

/-- No tighter operator follows when an operand has been read. -/
theorem stops_operand {r s : Reserved} {a : Phrase} (h : operand? r = some a)
    (hs : s ∈ operatorsFrom ((operandLevel r).rank + 1)) : s ∈ a.stops := by
  cases IsOperand.of h
  case negate | await =>
    rw [show operatorsFrom ((operandLevel _).rank + 1) = [listOpen] from rfl] at hs
    exact hs
  all_goals exact absurd hs List.not_mem_nil

theorem stops_tail {r s : Reserved} {m : Level} {a : Phrase} (h : tail? r = some (m, a))
    (hs : s ∈ operatorsFrom (m.rank + 1)) : s ∈ a.stops := by
  cases IsTail.of h
  case listOpen => exact absurd hs List.not_mem_nil
  all_goals exact hs

theorem greedy_statement {settings : Settings} {r : Reserved} {a : Phrase}
    (h : statement? settings r = some a) : a.greedy = [] := by
  cases IsStatement.of h <;> rfl

theorem greedy_pattern {r : Reserved} {a : Phrase} (h : pattern? r = some a) : a.greedy = [] := by
  cases IsComposite.of h <;> rfl

theorem mem_operand {r : Reserved} {a : Phrase} (h : operand? r = some a) :
    r ∈ expressionMarks := by
  cases IsOperand.of h <;> decide

theorem mem_pattern {r : Reserved} {a : Phrase} (h : pattern? r = some a) : r ∈ patternMarks := by
  cases IsComposite.of h <;> decide

theorem mem_statement {settings : Settings} {r : Reserved} {a : Phrase}
    (h : statement? settings r = some a) : r ∈ statementMarks := by
  cases IsStatement.of h <;> decide

end Phrase

/-! ## What derived words start with -/

section

open Phrase

variable {settings : Settings} {a : Phrase} {k k' : Macros} {us : List Word} {f : Found}

theorem mem_of_atom {t : Token} {n : Node} {r : Reserved} (h : Nonterminals.atom? t = some n)
    (hr : leading [t.word] = some r) : r ∈ valueMarks := by
  have kind : t.kind.reserved? = some r := hr
  unfold Nonterminals.atom? at h
  cases hk : t.kind with
  | reserved s =>
    rw [hk] at h kind
    cases kind
    cases r <;> first | exact (by decide) | cases h
  | identifier | number | text | endOfInput =>
    rw [hk] at kind
    cases kind

theorem mem_of_atomicPattern {t : Token} {n : Node} {r : Reserved}
    (h : Nonterminals.atomicPattern? t = some n) (hr : leading [t.word] = some r) :
    r ∈ valueMarks := by
  have kind : t.kind.reserved? = some r := hr
  unfold Nonterminals.atomicPattern? at h
  cases hk : t.kind with
  | reserved s =>
    rw [hk] at h kind
    cases kind
    cases r <;> first | exact (by decide) | cases h
  | identifier | number | text | endOfInput =>
    rw [hk] at kind
    cases kind

theorem Derives.silent (h : Derives settings a k us k' f) (hs : a.silent = true) : us = [] := by
  cases h <;> first | rfl | cases hs

theorem Derives.opener (h : Derives settings a k us k' f) {r : Reserved}
    (hr : a.opener? = some r) : leading us = some r := by
  induction h generalizing r with
  | mark | kept | spelled | construct | body =>
    cases hr
    rfl
  | @seq a b k₁ k₂ k₃ us vs f h first second iha ihb =>
    rw [opener?] at hr
    split at hr
    · rename_i quiet
      rw [first.silent quiet]
      exact ihb hr
    · have opens := iha hr
      rw [leading_append (ne_nil_of_leading opens), opens]
  | gather _ ih | list _ ih | demand _ _ ih | node _ ih | chain _ ih => exact ih hr
  | _ => cases hr

theorem Derives.ne_nil (h : Derives settings a k us k' f) (ha : a.nullable = false) : us ≠ [] := by
  induction h with
  | mark | kept | spelled | name | construct | atom | atomicPattern | body =>
    exact List.cons_ne_nil _ _
  | @seq a b k₁ k₂ k₃ us vs f h first second iha ihb =>
    rw [nullable, Bool.and_eq_false_iff] at ha
    intro none
    obtain ⟨rfl, rfl⟩ := List.append_eq_nil_iff.mp none
    exact ha.elim (fun h => iha h rfl) fun h => ihb h rfl
  | left _ ih | bound _ ih =>
    rw [nullable, Bool.or_eq_false_iff] at ha
    exact ih ha.1
  | right _ ih | unbound _ ih =>
    rw [nullable, Bool.or_eq_false_iff] at ha
    exact ih ha.2
  | gather _ ih | list _ ih | demand _ _ ih | node _ ih | chain _ ih => exact ih ha
  | operand hr inner ih => exact ne_nil_of_leading (inner.opener (leads_operand hr).opener)
  | compositePattern hr inner ih => exact ne_nil_of_leading (inner.opener (leads_pattern hr).opener)
  | tighter _ _ ih | binding _ _ ih => exact ih rfl
  | tail _ _ _ ih _ =>
    intro none
    exact ih rfl (List.append_eq_nil_iff.mp none).1
  | _ => cases ha

theorem Derives.nullable_of_nil (h : Derives settings a k [] k' f) : a.nullable = true := by
  by_contra ha
  exact h.ne_nil (Bool.eq_false_iff.mpr ha) rfl

theorem Derives.starts (h : Derives settings a k us k' f) {r : Reserved}
    (hr : leading us = some r) : r ∈ a.starts := by
  have value : ∀ {l : List Reserved}, r ∈ valueMarks → r ∈ valueMarks ++ l :=
    fun h => List.mem_append_left _ h
  induction h with
  | mark | kept | spelled | construct | body =>
    cases hr
    exact List.mem_cons_self
  | name | give | place | starNil | noStatement => cases hr
  | @seq a b k₁ k₂ k₃ us vs f h first second iha ihb =>
    rw [Phrase.starts]
    rcases us with _ | ⟨u, us⟩
    · rw [if_pos first.nullable_of_nil]
      exact List.mem_append_right _ (ihb hr)
    · split
      · exact List.mem_append_left _ (iha hr)
      · exact iha hr
  | left _ ih | bound _ ih => exact List.mem_append_left _ (ih hr)
  | right _ ih | unbound _ ih => exact List.mem_append_right _ (ih hr)
  | @starCons r a k₁ k₂ k₃ us vs f h first second iha ihb =>
    rcases us with _ | ⟨u, us⟩
    · exact ihb hr
    · exact iha hr
  | gather _ ih | list _ ih | demand _ _ ih | node _ ih | chain _ ih => exact ih hr
  | atom made => exact value (mem_of_atom made hr)
  | operand made inner ih =>
    rw [inner.opener (leads_operand made).opener] at hr
    cases hr
    exact mem_operand made
  | tighter _ _ ih | binding _ _ ih => exact ih hr
  | tail _ left _ ih _ =>
    rw [leading_append (left.ne_nil rfl)] at hr
    exact ih hr
  | atomicPattern made => exact value (mem_of_atomicPattern made hr)
  | compositePattern made inner ih =>
    rw [inner.opener (leads_pattern made).opener] at hr
    cases hr
    exact mem_pattern made
  | statement made inner _ _ _ =>
    have opens := inner.opener (leads_statement made).opener
    rw [leading_append (ne_nil_of_leading opens), opens] at hr
    cases hr
    exact List.mem_append_left _ (mem_statement made)
  | expressionStmt inner _ _ ih _ =>
    rw [leading_append (inner.ne_nil rfl)] at hr
    exact List.mem_append_right _ (ih hr)

/-- No word is the end of the input. -/
theorem Derives.inner (h : Derives settings a k us k' f) : ∀ w ∈ us, w.1 ≠ .endOfInput := by
  have append : ∀ {us vs : List Word}, (∀ w ∈ us, w.1 ≠ TokenKind.endOfInput) →
      (∀ w ∈ vs, w.1 ≠ TokenKind.endOfInput) → ∀ w ∈ us ++ vs, w.1 ≠ TokenKind.endOfInput :=
    fun hu hv w hw => (List.mem_append.mp hw).elim (hu w) (hv w)
  have one : ∀ {k : TokenKind} {x : String}, k ≠ .endOfInput →
      ∀ w ∈ [(k, x)], w.1 ≠ TokenKind.endOfInput := by
    intro k x hk w hw
    rwa [List.mem_singleton.mp hw]
  induction h with
  | give | place | starNil | noStatement => exact fun w hw => absurd hw List.not_mem_nil
  | mark | kept | spelled | name => exact one TokenKind.noConfusion
  | seq _ _ iha ihb | starCons _ _ iha ihb | tail _ _ _ iha ihb | statement _ _ _ iha ihb
  | expressionStmt _ _ _ iha ihb => exact append iha ihb
  | left _ ih | right _ ih | bound _ ih | unbound _ ih | gather _ ih | list _ ih | demand _ _ ih
  | node _ ih | chain _ ih | operand _ _ ih | tighter _ _ ih | compositePattern _ _ ih
  | binding _ _ ih => exact ih
  | construct _ ih | body _ ih =>
    exact append (append (one TokenKind.noConfusion) ih) (one TokenKind.noConfusion)
  | atom made =>
    refine one fun h => ?_
    have := Phrase.isEnd_of_atom made
    simp [Token.isEnd, h] at this
  | atomicPattern made =>
    refine one fun h => ?_
    have := Phrase.isEnd_of_atomicPattern made
    simp [Token.isEnd, h] at this

/-- Behind a name that starts an expression an operator follows, if anything. -/
theorem Derives.second {l : Level} {x : String} {v : Word} {vs : List Word}
    (h : Derives settings (.part (.expression l)) k ((.identifier, x) :: v :: vs) k' f) :
    ∃ r, v.1 = .reserved r ∧ r ∈ tailMarks := by
  generalize ha : Phrase.part (.expression l) = a at h
  generalize hu : (TokenKind.identifier, x) :: v :: vs = us at h
  induction h generalizing l v vs with
  | atom =>
    have := congrArg List.length hu
    simp at this
  | operand made inner ih =>
    have opens := inner.opener (leads_operand made).opener
    rw [← hu] at opens
    cases opens
  | tighter _ _ ih =>
    cases ha
    exact ih rfl hu
  | @tail r m a k₁ k₂ k₃ us ws n f made left right ihl _ =>
    rcases us with _ | ⟨u, _ | ⟨u', us⟩⟩
    · exact absurd rfl (left.ne_nil rfl)
    · injection hu with _ hu
      have hu : v :: vs = ws := hu
      have opens := right.opener (leads_tail made).opener
      rw [← hu] at opens
      refine ⟨r, ?_, mem_tailMarks made⟩
      obtain ⟨kind, spelling⟩ := v
      cases kind <;> cases opens
      rfl
    · injection hu with first hu
      injection hu with second hu
      cases ha
      exact ihl rfl (by rw [← first, ← second])
  | _ => cases ha

end

end GlyphScript
