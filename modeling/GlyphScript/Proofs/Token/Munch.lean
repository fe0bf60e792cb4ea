import GlyphScript.Proofs.Token.Scanning

/-!
# How far tokens reach

A reserved token is the longest that is spelled at its place, a numeral takes
all digits, and an identifier ends in front of the first reserved token. A text
that is one identifier is one by the test for names too.
-/

namespace GlyphScript

/-- No token of the kind could reach further between these texts. -/
def TokenKind.Munches (before lexeme after : List Char) : TokenKind → Prop
  | .reserved r =>
    lexeme = r.chars ∧ ∀ r' : Reserved, r'.chars <+: lexeme ++ after → r'.chars.length ≤ lexeme.length
  | .number _ =>
    lexeme ≠ [] ∧ (∀ d ∈ lexeme, isAsciiDigit d = true) ∧
      (∀ d ∈ before.getLast?, isAsciiDigit d = false) ∧ ∀ d ∈ after.head?, isAsciiDigit d = false
  | .identifier =>
    lexeme ≠ [] ∧ (∀ c ∈ lexeme, isIdentifierChar c = true) ∧
      -- no reserved token starts at the first or any later character
      (∀ x y, lexeme = x ++ y → y ≠ [] → ∀ r : Reserved, ¬ r.chars <+: y ++ after) ∧
      ∀ c ∈ after.head?, isIdentifierChar c = false ∨ ∃ r : Reserved, r.chars <+: after
  | .text _ | .endOfInput => True

section

variable {c : Char} {rest : List Char} {piece : Piece}

theorem Divides.munches (h : Divides c rest piece) {before : List Char}
    (apart : isAsciiDigit c = true → ∀ d ∈ before.getLast?, isAsciiDigit d = false) :
    piece.kind.Munches before piece.lexeme piece.rest := by
  have some := h.ne_nil
  cases h with
  | reserved found whole =>
    have longest := (Reserved.longestMatch?_eq_some.mp found).2
    rw [whole] at longest
    exact ⟨rfl, longest⟩
  | number _ _ digit digits ends => exact ⟨some, digits, apart digit, ends⟩
  | text => trivial
  | identifier free start found =>
    obtain ⟨rfl, run, ends⟩ := identifierTail_run found
    have char : isIdentifierChar c = true := by
      rw [isIdentifierChar, start, Bool.true_or]
    obtain ⟨chars, inner⟩ := IsRun.cons_iff.mpr ⟨char, free, run⟩
    refine ⟨some, chars, fun x y made inside => ?_, fun d hd => ?_⟩
    · exact Reserved.longestMatch?_isNone.mp (inner x y made inside)
    · by_cases goes : isIdentifierChar d = true
      · right
        by_contra none
        exact ends d hd goes (Reserved.longestMatch?_isNone.mpr fun r hr => none ⟨r, hr⟩)
      · exact .inl (by simpa using goes)

end

/-! ## Names -/

theorem identifierRun_iff {cs : List Char} :
    lexesAsIdentifier.identifierRun cs = true ↔ IsRun cs [] := by
  induction cs with
  | nil =>
    refine iff_of_true rfl ⟨List.forall_mem_nil _, fun x y made some => ?_⟩
    exact absurd (List.append_eq_nil_iff.mp made.symm).2 some
  | cons c cs ih =>
    simp [lexesAsIdentifier.identifierRun, IsRun.cons_iff, ih, and_assoc]

/-- The names that are identifiers by themselves. -/
theorem lexesAsIdentifier_iff {x : String} :
    lexesAsIdentifier x = true ↔ IsLexeme .identifier x.toList := by
  refine ⟨isLexeme_name, fun h => ?_⟩
  obtain ⟨c, rest, made, divided⟩ := h.divided
  have alone := Divides.of_firstPiece (divided default [] separated_nil)
  rw [List.append_nil, made] at alone
  cases alone with
  | identifier free start found =>
    obtain ⟨-, run, -⟩ := identifierTail_run found
    have char : isIdentifierChar c = true := by
      rw [isIdentifierChar, start, Bool.true_or]
    have whole : IsRun (c :: rest) [] := IsRun.cons_iff.mpr ⟨char, by rwa [List.append_nil], run⟩
    simp [lexesAsIdentifier, made, start, identifierRun_iff.mpr whole]

/-- Every token reaches as far as it can, and the test for names agrees with the division into
tokens. -/
theorem tokenize_munches (file : String) :
    (∀ source tokens, tokenize source file = .ok tokens → ∀ t ∈ tokens, ∃ before after,
      source.toList = before ++ t.lexeme.toList ++ after ∧ t.location.offset = before.length ∧
        t.kind.Munches before t.lexeme.toList after) ∧
    ∀ name, lexesAsIdentifier name = true ↔ ∃ t e, tokenize name file = .ok [t, e] ∧
      t.kind = .identifier ∧ t.lexeme = name ∧ e.isEnd = true := by
  constructor
  · intro source tokens h
    obtain ⟨inner, rfl, lexes⟩ := lexes_of_scan h
    refine List.forall_mem_append.mpr ⟨fun t ht => ?_, List.forall_mem_singleton.mpr ?_⟩
    · obtain ⟨before, c, cs, piece, whole, divides, rfl, apart⟩ := lexes.mem ht
      refine ⟨before, piece.rest, ?_, by simp [Location.after_atStart], ?_⟩
      · simp [whole, divides.whole]
      · simpa using divides.munches apart
    · exact ⟨source.toList, [], by simp [Token.endAt], by simp [Token.endAt, Location.after_atStart],
        trivial⟩
  · intro name
    constructor
    · intro h
      have spells : Spells [(.identifier, name)] (name.toList ++ []) :=
        .word (isLexeme_name h) separated_nil .nil
      rw [List.append_nil] at spells
      obtain ⟨tokens, scanned, words⟩ := scanFrom_spells spells _ (.atStart file) (Nat.lt_succ_self _)
      obtain ⟨t, rest, rfl, word, words⟩ := List.map_eq_cons_iff.mp words
      obtain ⟨e, none, rfl, stop, words⟩ := List.map_eq_cons_iff.mp words
      obtain rfl := List.map_eq_nil_iff.mp words
      refine ⟨t, e, scanned, congrArg Prod.fst word, congrArg Prod.snd word, ?_⟩
      have kind : e.kind = .endOfInput := congrArg Prod.fst stop
      rw [Token.isEnd, kind]
      rfl
    · rintro ⟨t, e, h, kind, rfl, -⟩
      obtain ⟨inner, stop, made, lexemes⟩ := scanFrom_lexemes h
      have first : t ∈ inner := by
        cases inner with
        | nil => cases made
        | cons u inner =>
          obtain ⟨rfl, -⟩ := List.cons.inj made
          exact List.mem_cons_self
      have lexeme := lexemes t first
      rw [kind] at lexeme
      exact lexesAsIdentifier_iff.mpr lexeme

/-- Overlapping spellings, digits in an identifier and behind it, and two names. -/
theorem tokenize_munches_overlapping : (∃ tokens, tokenize "a1<%|12x=>>" "f" = .ok tokens ∧
      ∀ t ∈ tokens, ∃ before after, "a1<%|12x=>>".toList = before ++ t.lexeme.toList ++ after ∧
        t.location.offset = before.length ∧ t.kind.Munches before t.lexeme.toList after) ∧
    (lexesAsIdentifier "a<%" = true ↔ ∃ t e, tokenize "a<%" "f" = .ok [t, e] ∧
      t.kind = .identifier ∧ t.lexeme = "a<%" ∧ e.isEnd = true) := by
  refine ⟨?_, (tokenize_munches "f").2 "a<%"⟩
  have divided : (tokenize "a1<%|12x=>>" "f").toBool = true := by decide
  cases h : tokenize "a1<%|12x=>>" "f" with
  | error fault =>
    rw [h] at divided
    cases divided
  | ok tokens => exact ⟨tokens, rfl, (tokenize_munches "f").1 _ tokens h⟩

end GlyphScript
