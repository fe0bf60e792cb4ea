import GlyphScript.Node.Source
import GlyphScript.Proofs.Token.Spelling

/-!
# Printed words

The spellings of names and literals are read as the tokens they spell. A word
that is one token on its own determines the kind of that token.
-/

namespace GlyphScript

/-! ## Names -/

theorem not_isAsciiDigit_of_isIdentifierStart {c : Char} (h : isIdentifierStart c = true) :
    isAsciiDigit c = false := by
  by_contra digit
  rw [Bool.not_eq_false] at digit
  simp only [isIdentifierStart, Bool.or_eq_true, decide_eq_true_eq, List.contains_iff_mem] at h
  rcases h with (letter | rfl) | symbol
  · simp only [isAsciiDigit, isAsciiLetter, Bool.or_eq_true, Bool.and_eq_true, decide_eq_true_eq,
      Char.le_def, UInt32.le_iff_toNat_le] at digit letter
    have hi : ('9' : Char).val.toNat = 57 := rfl
    have small : ('a' : Char).val.toNat = 97 := rfl
    have large : ('A' : Char).val.toNat = 65 := rfl
    omega
  · exact absurd digit (by decide)
  · have apart : identifierSymbols.any isAsciiDigit = false := by decide
    exact absurd digit (by simpa using List.any_eq_false.mp apart c symbol)

theorem identifierTail_of_run {cs : List Char}
    (h : lexesAsIdentifier.identifierRun cs = true) : identifierTail cs = (cs, []) := by
  induction cs with
  | nil => rfl
  | cons c cs ih =>
    simp only [lexesAsIdentifier.identifierRun, Bool.and_eq_true] at h
    obtain ⟨⟨char, free⟩, below⟩ := h
    simp [identifierTail, char, free, ih below]

theorem isLexeme_name {x : String} (h : lexesAsIdentifier x = true) :
    IsLexeme .identifier x.toList := by
  unfold lexesAsIdentifier at h
  split at h
  · cases h
  · rename_i c rest made
    simp only [lexesAsIdentifier.identifierRun, Bool.and_eq_true] at h
    obtain ⟨start, ⟨-, free⟩, below⟩ := h
    rw [made]
    exact isLexeme_identifier start (not_isAsciiDigit_of_isIdentifierStart start)
      (identifierTail_of_run below) (Option.isNone_iff_eq_none.mp free)

theorem identifierRun_of_letters {cs : List Char} (h : ∀ c ∈ cs, isAsciiLetter c = true) :
    lexesAsIdentifier.identifierRun cs = true := by
  induction cs with
  | nil => rfl
  | cons c cs ih =>
    obtain ⟨letter, below⟩ := List.forall_mem_cons.mp h
    have apart (r : Reserved) (hr : c ∈ r.chars) : False := by
      rw [(r.chars_plain c hr).1] at letter
      cases letter
    simp [lexesAsIdentifier.identifierRun, isIdentifierChar, isIdentifierStart, letter, ih below,
      Reserved.longestMatch?_apart apart]

/-- Letters are a name. -/
theorem lexesAsIdentifier_of_letters {x : String} (inhabited : x.toList ≠ [])
    (letters : ∀ c ∈ x.toList, isAsciiLetter c = true) : lexesAsIdentifier x = true := by
  obtain ⟨c, rest, made⟩ := List.exists_cons_of_ne_nil inhabited
  rw [made] at letters
  have start : isIdentifierStart c = true := by
    rw [isIdentifierStart, letters c List.mem_cons_self]
    rfl
  rw [lexesAsIdentifier, made]
  exact Bool.and_eq_true_iff.mpr ⟨start, identifierRun_of_letters letters⟩

/-! ## Literals -/

/-- No reserved token starts with a digit or a quotation mark. -/
theorem Reserved.longestMatch?_literal {c : Char} {rest : List Char}
    (h : isAsciiDigit c = true ∨ c = '"') : longestMatch? (c :: rest) = none := by
  refine longestMatch?_apart (fun r hr => ?_) rest
  obtain ⟨-, nodigit, -, noquote⟩ := r.chars_plain c hr
  rcases h with digit | quote
  · rw [nodigit] at digit
    cases digit
  · exact noquote quote

theorem isLexeme_numeral {n : Nat} (short : (Nat.toDigits 10 n).length ≤ maxNumeralLength) :
    IsLexeme (.number n) (toString (n : Int)).toList := by
  have spelled : (toString (n : Int)).toList = Nat.toDigits 10 n := by
    show (String.ofList (Nat.toDigits 10 n)).toList = _
    rw [String.toList_ofList]
  have digits : ∀ d ∈ Nat.toDigits 10 n, isAsciiDigit d = true := by
    intro d hd
    have := Nat.isDigit_of_mem_toDigits (by decide) (by decide) hd
    simpa [Char.isDigit, isAsciiDigit, Char.le_def] using this
  have value : numeralValue (Nat.toDigits 10 n) = n :=
    Nat.ofDigitChars_toDigits (by decide) (by decide)
  rw [spelled]
  cases hd : Nat.toDigits 10 n with
  | nil => exact absurd hd (by simp)
  | cons c rest =>
    rw [hd] at short digits value
    have lexeme := isLexeme_number digits short
      (Reserved.longestMatch?_literal (.inl (digits c List.mem_cons_self)))
    rwa [value] at lexeme

theorem stringBody_escaped (cs after : List Char) :
    stringBody (cs.flatMap escapeInString ++ '"' :: after) =
      some (cs, cs.flatMap escapeInString ++ ['"'], after) := by
  induction cs with
  | nil => rfl
  | cons c cs ih =>
    rw [List.flatMap_cons, List.append_assoc]
    by_cases escaped : c = '\\' ∨ c = '"' ∨ c = '\n' ∨ c = '\t'
    · rcases escaped with rfl | rfl | rfl | rfl <;> simp [escapeInString, stringBody, ih, unescape]
    · simp only [not_or] at escaped
      have plain : escapeInString c = [c] := by
        unfold escapeInString
        split <;> simp_all
      rw [plain, List.singleton_append, stringBody, ih]
      · rfl
      · exact escaped.2.1
      · exact fun _ _ h _ => escaped.1 h

theorem isLexeme_string (s : String) : IsLexeme (.text s) (stringSpelling s).toList := by
  have lexeme := isLexeme_text (stringBody_escaped s.toList [])
    (Reserved.longestMatch?_literal (.inr rfl))
  rw [String.ofList_toList] at lexeme
  rw [stringSpelling, String.toList_ofList]
  exact lexeme

/-! ## The kind of a word -/

/-- The token that a word starts with; the end of the input if there is none. -/
def kindOf (w : String) : TokenKind :=
  match w.toList with
  | [] => .endOfInput
  | c :: rest =>
    match firstPiece default c rest with
    | .ok piece => piece.kind
    | .error _ => .endOfInput

def lexed (w : String) : Word := (kindOf w, w)

theorem kindOf_of_isLexeme {kind : TokenKind} {w : String} (h : IsLexeme kind w.toList) :
    kindOf w = kind := by
  obtain ⟨c, rest, made, divided⟩ := h.divided
  have alone := divided default [] separated_nil
  rw [List.append_nil] at alone
  unfold kindOf
  rw [made]
  dsimp only
  rw [alone]

/-- The word is one token. -/
def IsWord (w : String) : Prop := IsLexeme (kindOf w) w.toList

theorem isWord_of_isLexeme {kind : TokenKind} {w : String} (h : IsLexeme kind w.toList) :
    IsWord w ∧ lexed w = (kind, w) := by
  rw [IsWord, lexed, kindOf_of_isLexeme h]
  exact ⟨h, rfl⟩

theorem isWord_reserved (r : Reserved) :
    IsWord r.spelling ∧ lexed r.spelling = (.reserved r, r.spelling) :=
  isWord_of_isLexeme (isLexeme_reserved r)

theorem isWord_name {x : String} (h : lexesAsIdentifier x = true) :
    IsWord x ∧ lexed x = (.identifier, x) :=
  isWord_of_isLexeme (isLexeme_name h)

end GlyphScript
