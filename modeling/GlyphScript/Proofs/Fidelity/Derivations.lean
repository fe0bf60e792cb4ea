import GlyphScript.Proofs.Fidelity.Statements
import GlyphScript.Proofs.Parsing.Completeness
import GlyphScript.Proofs.Printing.Bodies
import GlyphScript.Proofs.Token.Munch
import Mathlib.Data.Nat.Digits.Defs

/-!
# What derivations say

Words from which the grammar derives a tree say what the tree says, and the tree
is well formed. The induction is on the derivation, and goes from what the parts
of a phrase say to what the phrase says.
-/

namespace GlyphScript

open Reserved

/-! ## Words -/

theorem core_cons (w : Word) (us : List Word) : core (w :: us) = core [w] ++ core us := core_append [w] us

theorem core_reserved (r : Reserved) (x : String) : core [(.reserved r, x)] = r.saying := by
  unfold core Reserved.saying
  simp only [List.map_cons, List.map_nil, Word.meaning, List.filter_cons, List.filter_nil]
  cases h : (TokenKind.reserved r).isDispensable <;> simp [Meaning.mark, h]

/-- A construct is opened and closed by tokens that cannot be left out. -/
theorem core_construct (c : Construct) (us : List Word) (x y : String) :
    core ((.reserved c.opener, x) :: us ++ [(TokenKind.reserved c.closer, y)]) =
      Meaning.mark c.opener :: core us ++ [Meaning.mark c.closer] := by
  have opens : c.opener.saying = [Meaning.mark c.opener] := by cases c <;> rfl
  have closes : c.closer.saying = [Meaning.mark c.closer] := by cases c <;> rfl
  rw [core_append, core_cons, core_reserved, core_reserved, opens, closes]
  rfl

/-! ## Single tokens -/

theorem numeralValue_lt {digits : List Char} (h : ∀ d ∈ digits, isAsciiDigit d = true) :
    numeralValue digits < 10 ^ digits.length := by
  have more (n : Nat) : digits.foldl (fun n d => 10 * n + (d.toNat - '0'.toNat)) n <
      (n + 1) * 10 ^ digits.length := by
    induction digits generalizing n with
    | nil => simp
    | cons d digits ih =>
      obtain ⟨digit, below⟩ := List.forall_mem_cons.mp h
      simp only [isAsciiDigit, Bool.and_eq_true, decide_eq_true_eq, Char.le_def,
        UInt32.le_iff_toNat_le] at digit
      have value : d.toNat - '0'.toNat ≤ 9 := by
        have nine : ('9' : Char).val.toNat = 57 := rfl
        have zero : ('0' : Char).toNat = 48 := rfl
        have own : d.toNat = d.val.toNat := rfl
        omega
      have rest := ih below (10 * n + (d.toNat - '0'.toNat))
      have grown : (10 * n + (d.toNat - '0'.toNat) + 1) * 10 ^ digits.length ≤
          (10 * (n + 1)) * 10 ^ digits.length := Nat.mul_le_mul_right _ (by omega)
      rw [List.foldl_cons, List.length_cons, Nat.pow_succ']
      calc _ < _ := rest
        _ ≤ _ := grown
        _ = _ := by rw [Nat.mul_comm 10, Nat.mul_assoc]
  have whole := more 0
  rwa [Nat.zero_add, Nat.one_mul] at whole

/-- A number that is written in a text is not too long to be written again. -/
theorem isSpelled_number {n : Nat} {x : String} (h : IsLexeme (.number n) x.toList) :
    (Scalar.integer n).isSpelled .number = true := by
  obtain ⟨c, rest, made, divided⟩ := h.divided
  have alone := Divides.of_firstPiece (divided default [] separated_nil)
  cases alone with
  | number free whole digit digits apart short =>
    have inhabited : 0 < x.toList.length := by
      rw [made]
      exact Nat.succ_pos _
    have written := Nat.toDigits_length 10 _ _ inhabited (numeralValue_lt digits)
    simpa [Scalar.isSpelled] using written.trans short

/-- The literals and their patterns say what the tokens say that they are read from. -/
theorem tells_literal {value : Scalar} {kind : LiteralKind} {ms : List Meaning}
    (spelled : value.isSpelled kind = true) (said : ms = Outline.ofScalar value kind) :
    ((Node.mk default (.literal value kind) []).Upright .expression ∧
      ms = (Node.mk default (.literal value kind) []).outline) ∧
    ((Node.mk default (.literalPattern value kind) []).Upright .pattern ∧
      ms = (Node.mk default (.literalPattern value kind) []).outline) := by
  rw [Node.outline_mk, Node.outline_mk]
  refine ⟨⟨Node.upright_mk .nil ?_ ?_ rfl rfl, said⟩, Node.upright_mk .nil ?_ ?_ rfl rfl, said⟩
  · exact List.forall_mem_nil _
  · exact spelled
  · exact List.forall_mem_nil _
  · exact spelled

/-- A name says itself, where it is used and where it is bound. -/
theorem tells_name {x : String} (h : IsLexeme .identifier x.toList) :
    ((Node.mk default (.identifier x) []).Upright .expression ∧
      core [(.identifier, x)] = (Node.mk default (.identifier x) []).outline) ∧
    ((Node.mk default (.bindPattern x) []).Upright .pattern ∧
      core [(.identifier, x)] = (Node.mk default (.bindPattern x) []).outline) := by
  have named : ∀ y ∈ [x], lexesAsIdentifier y = true :=
    List.forall_mem_singleton.mpr (lexesAsIdentifier_iff.mpr h)
  rw [Node.outline_mk, Node.outline_mk]
  refine ⟨⟨Node.upright_mk .nil ?_ rfl rfl rfl, rfl⟩, Node.upright_mk .nil ?_ rfl rfl rfl, rfl⟩ <;>
    exact named

section

variable {t : Token} {n : Node}

theorem atom?_tells (h : Nonterminals.atom? t = some n) (lexeme : IsLexeme t.kind t.lexeme.toList) :
    n.unplaced.Upright .expression ∧ core [t.word] = n.unplaced.outline := by
  obtain ⟨kind, x, location, stop⟩ := t
  unfold Nonterminals.atom? at h
  dsimp only at h
  split at h <;> cases h
  · exact (tells_literal (isSpelled_number lexeme) rfl).1
  · exact (tells_literal rfl rfl).1
  · exact (tells_name lexeme).1
  all_goals exact (tells_literal rfl rfl).1

theorem atomicPattern?_tells (h : Nonterminals.atomicPattern? t = some n)
    (lexeme : IsLexeme t.kind t.lexeme.toList) :
    n.unplaced.Upright .pattern ∧ core [t.word] = n.unplaced.outline := by
  obtain ⟨kind, x, location, stop⟩ := t
  unfold Nonterminals.atomicPattern? at h
  dsimp only at h
  split at h <;> cases h
  · exact (tells_literal (isSpelled_number lexeme) rfl).2
  · exact (tells_literal rfl rfl).2
  · exact (tells_name lexeme).2
  all_goals exact (tells_literal rfl rfl).2

end

/-! ## Derivations -/

/-- What is found in a derivation is said by its words, up to lists that may be left out. -/
theorem Derives.outlined {settings : Settings} {a : Phrase} {k k' : Macros} {us : List Word} {f : Found}
    (h : Derives settings a k us k' f) (later : k'.Later)
    (lexemes : ∀ w ∈ us, IsLexeme w.1 w.2.toList) : ∃ ms, Alike (core us) ms ∧ a.Bears ms f := by
  induction h with
  | give | place => exact ⟨[], .refl _, rfl, rfl⟩
  | mark | kept => exact ⟨_, .of_eq (core_reserved ..), rfl, rfl⟩
  | @spelled r k x =>
    have own : x = r.spelling := String.toList_inj.mp (lexemes _ List.mem_cons_self).spelling
    exact ⟨_, .of_eq (core_reserved ..), rfl, own ▸ rfl⟩
  | name =>
    exact ⟨_, .refl _, _, lexesAsIdentifier_iff.mpr (lexemes _ List.mem_cons_self), rfl, rfl⟩
  | seq _ behind iha ihb =>
    obtain ⟨here, there⟩ := List.forall_mem_append.mp lexemes
    obtain ⟨us', alike, made⟩ := iha (behind.later later) here
    obtain ⟨vs', alike', made'⟩ := ihb later there
    rw [core_append]
    exact ⟨us' ++ vs', alike.append alike', us', vs', _, _, rfl, made, made', rfl⟩
  | left _ ih | bound _ ih =>
    obtain ⟨ms, alike, made⟩ := ih later lexemes
    exact ⟨ms, alike, .inl made⟩
  | right _ ih | unbound _ ih =>
    obtain ⟨ms, alike, made⟩ := ih later lexemes
    exact ⟨ms, alike, .inr made⟩
  | starNil => exact ⟨[], .refl _, [], rfl, List.forall_mem_nil _, rfl⟩
  | starCons _ behind iha ihb =>
    obtain ⟨here, there⟩ := List.forall_mem_append.mp lexemes
    obtain ⟨us', alike, made⟩ := iha (behind.later later) here
    obtain ⟨_, alike', parts, rfl, made', rfl⟩ := ihb later there
    rw [core_append]
    exact ⟨_, alike.append alike', (us', _) :: parts, rfl, List.forall_mem_cons.mpr ⟨made, made'⟩, rfl⟩
  | gather _ ih | list _ ih =>
    obtain ⟨ms, alike, made⟩ := ih later lexemes
    exact ⟨ms, alike, _, made, rfl⟩
  | demand _ some ih =>
    obtain ⟨ms, alike, made⟩ := ih later lexemes
    exact ⟨ms, alike, made, some⟩
  | @node head a k k' us f _ ih =>
    obtain ⟨ms, alike, made⟩ := ih later.of_after lexemes
    refine ⟨ms, alike, f, made, fun d defines => ?_, rfl⟩
    rw [Macros.after, defines] at later
    exact later _ List.mem_cons_self
  | chain _ ih =>
    obtain ⟨ms, alike, made⟩ := ih later lexemes
    exact ⟨ms, alike, _, made, rfl⟩
  | construct _ ih =>
    obtain ⟨ms, alike, made⟩ := ih later fun w hw => lexemes w (by simp [hw])
    rw [core_construct]
    exact ⟨_, (alike.cons _).append (.refl _), ms, rfl, made⟩
  | atom h =>
    obtain ⟨upright, said⟩ := atom?_tells h (lexemes _ List.mem_cons_self)
    exact ⟨_, .of_eq said, _, rfl, upright, rfl⟩
  | operand h _ ih =>
    obtain ⟨ms, alike, made⟩ := ih later lexemes
    obtain ⟨n, upright, said, found⟩ := Phrase.tells_operand h _ _ made
    exact ⟨ms, alike, n, found, upright, said⟩
  | tighter _ _ ih => exact ih later lexemes
  | tail h _ behind iha ihb =>
    obtain ⟨here, there⟩ := List.forall_mem_append.mp lexemes
    obtain ⟨_, alike, n, found, upright, rfl⟩ := iha (behind.later later) here
    obtain ⟨ms, alike', made⟩ := ihb later there
    cases Found.ofNode_inj found
    obtain ⟨whole, said⟩ := Phrase.upright_extended h upright made _
    rw [core_append]
    exact ⟨_, alike.append alike', _, rfl, whole, said.symm⟩
  | atomicPattern h =>
    obtain ⟨upright, said⟩ := atomicPattern?_tells h (lexemes _ List.mem_cons_self)
    exact ⟨_, .of_eq said, _, rfl, upright, rfl⟩
  | compositePattern h _ ih =>
    obtain ⟨ms, alike, made⟩ := ih later lexemes
    obtain ⟨n, upright, said, found⟩ := Phrase.tells_pattern? h _ _ made
    exact ⟨ms, alike, n, found, upright, said⟩
  | binding _ flawless ih =>
    obtain ⟨ms, alike, _, found, upright, said⟩ := ih later lexemes
    cases Found.ofNode_inj found
    exact ⟨ms, alike, _, rfl, upright, flawless, said⟩
  | @body ns k k' us x y _ ih =>
    obtain ⟨_, alike, _, found, upright, rfl⟩ := ih later fun w hw => lexemes w (by simp [hw])
    cases Found.ofNodes_inj found
    have said : (Node.block default ns []).outline =
        Meaning.mark bodyOpen :: ns.flatMap Node.outline ++ [Meaning.mark bodyClose] := by
      rw [Node.block, Node.outline_mk]
      unfold Outline.ownOf
      simp
    refine ⟨_, ?_, _, rfl, Node.upright_mk (.cons (.many upright) .nil) ?_ rfl rfl rfl, rfl, _, said⟩
    · rw [said]
      exact Alike.trans (.of_eq (core_construct .body us x y)) ((alike.cons _).append (.refl _))
    · exact List.forall_mem_nil _
  | noStatement => exact ⟨[], .refl _, [], rfl, List.forall_mem_nil _, rfl⟩
  | statement h _ behind iha ihb =>
    obtain ⟨here, there⟩ := List.forall_mem_append.mp lexemes
    obtain ⟨us', alike, made⟩ := iha (behind.later later) here
    obtain ⟨_, alike', _, found', uprights, rfl⟩ := ihb later there
    obtain ⟨_, upright, said, found⟩ := Phrase.conveys_statement h _ _ made
    cases Found.ofNode_inj found
    cases Found.ofNodes_inj found'
    rw [core_append]
    exact ⟨_, (alike.trans said).append alike', _ :: _, rfl,
      List.forall_mem_cons.mpr ⟨upright, uprights⟩, rfl⟩
  | expressionStmt _ behind _ iha ihb =>
    obtain ⟨here, there⟩ := List.forall_mem_append.mp lexemes
    obtain ⟨us', alike, made⟩ := iha (behind.later later) here
    obtain ⟨_, alike', _, found', uprights, rfl⟩ := ihb later there
    obtain ⟨_, upright, rfl, found⟩ := Phrase.tells_expressionStmt _ _ made
    cases Found.ofNode_inj found
    cases Found.ofNodes_inj found'
    rw [core_append]
    exact ⟨_, alike.append alike', _ :: _, rfl, List.forall_mem_cons.mpr ⟨upright, uprights⟩, rfl⟩

/-- The words of statements say what the statements say, and the statements are well formed. -/
theorem Derives.statements_outlined {settings : Settings} {k k' : Macros} {us : List Word} {ns : List Node}
    (h : Derives settings (.part .statements) k us k' (.ofNodes ns)) (later : k'.Later)
    (lexemes : ∀ w ∈ us, IsLexeme w.1 w.2.toList) :
    Alike (core us) (ns.flatMap Node.outline) ∧ ∀ n ∈ ns, n.Upright .statement := by
  obtain ⟨_, alike, _, found, upright, rfl⟩ := h.outlined later lexemes
  cases Found.ofNodes_inj found
  exact ⟨alike, upright⟩

end GlyphScript
