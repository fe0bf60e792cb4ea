import GlyphScript.Token.Scan
import Mathlib.Data.List.Forall2
import Mathlib.Data.List.TakeWhile

/-!
# Spelling tokens

Blanks end tokens. What has once been divided off as a token is divided off as
the same token wherever a blank or nothing follows it, so a text whose tokens
stand apart is divided into just these tokens.
-/

namespace GlyphScript

/-! ## Blanks and other characters -/

/-- Nothing, or a text that starts with a blank. -/
def Separated (text : List Char) : Prop := ∀ c ∈ text.head?, isBlank c = true

theorem separated_nil : Separated [] := by
  intro c hc
  cases hc

theorem separated_cons {c : Char} {text : List Char} (h : isBlank c = true) : Separated (c :: text) := by
  intro d hd
  cases hd
  exact h

/-- A printable character of ASCII, the space left out. -/
def IsVisible (c : Char) : Prop := 0x21 ≤ c.toNat ∧ c.toNat ≤ 0x7E

instance (c : Char) : Decidable (IsVisible c) := inferInstanceAs (Decidable (_ ∧ _))

/-- All characters are visible. -/
def AllVisible (cs : List Char) : Prop := ∀ c ∈ cs, IsVisible c

instance (cs : List Char) : Decidable (AllVisible cs) :=
  List.decidableBAll IsVisible cs

theorem IsVisible.not_blank {c : Char} (h : IsVisible c) : isBlank c = false := by
  obtain ⟨lo, hi⟩ := h
  simp [isBlank, blankRanges, CharRanges.contains]
  omega

theorem isVisible_of_isAsciiDigit {c : Char} (h : isAsciiDigit c = true) : IsVisible c := by
  simp only [isAsciiDigit, Bool.and_eq_true, decide_eq_true_eq, Char.le_def,
    UInt32.le_iff_toNat_le] at h
  have lo : ('0' : Char).val.toNat = 48 := rfl
  have hi : ('9' : Char).val.toNat = 57 := rfl
  unfold IsVisible Char.toNat
  omega

theorem isVisible_of_isAsciiLetter {c : Char} (h : isAsciiLetter c = true) : IsVisible c := by
  simp only [isAsciiLetter, Bool.or_eq_true, Bool.and_eq_true, decide_eq_true_eq, Char.le_def,
    UInt32.le_iff_toNat_le] at h
  have small : ('a' : Char).val.toNat = 97 ∧ ('z' : Char).val.toNat = 122 := ⟨rfl, rfl⟩
  have large : ('A' : Char).val.toNat = 65 ∧ ('Z' : Char).val.toNat = 90 := ⟨rfl, rfl⟩
  unfold IsVisible Char.toNat
  omega

theorem isVisible_of_isIdentifierStart {c : Char} (h : isIdentifierStart c = true) :
    IsVisible c := by
  have symbols : AllVisible identifierSymbols := by decide
  simp only [isIdentifierStart, Bool.or_eq_true, decide_eq_true_eq, List.contains_iff_mem] at h
  rcases h with (letter | rfl) | symbol
  · exact isVisible_of_isAsciiLetter letter
  · decide
  · exact symbols c symbol

theorem isVisible_of_isIdentifierChar {c : Char} (h : isIdentifierChar c = true) :
    IsVisible c := by
  simp only [isIdentifierChar, Bool.or_eq_true] at h
  exact h.elim isVisible_of_isIdentifierStart isVisible_of_isAsciiDigit

theorem allVisible_of_run {cs : List Char} (h : lexesAsIdentifier.identifierRun cs = true) :
    AllVisible cs := by
  induction cs with
  | nil => exact List.forall_mem_nil _
  | cons c cs ih =>
    simp only [lexesAsIdentifier.identifierRun, Bool.and_eq_true] at h
    obtain ⟨⟨char, -⟩, below⟩ := h
    exact List.forall_mem_cons.mpr ⟨isVisible_of_isIdentifierChar char, ih below⟩

/-- What stops in front of blanks stops in front of what is apart. -/
theorem takeWhile_append_separated {p : Char → Bool} (hp : ∀ c, p c = true → isBlank c = false)
    {cs tail : List Char} (hcs : ∀ c ∈ cs, p c = true) (ht : Separated tail) :
    (cs ++ tail).takeWhile p = cs ∧ (cs ++ tail).dropWhile p = tail := by
  have stops : tail.takeWhile p = [] ∧ tail.dropWhile p = tail := by
    cases tail with
    | nil => exact ⟨rfl, rfl⟩
    | cons b tail =>
      have blank : isBlank b = true := ht b rfl
      have : p b = false := by
        by_contra h
        rw [hp b (by simpa using h)] at blank
        cases blank
      simp [this]
  rw [List.takeWhile_append_of_pos hcs, List.dropWhile_append_of_pos hcs, stops.1, stops.2,
    List.append_nil]
  exact ⟨rfl, rfl⟩

/-! ## Reserved tokens -/

namespace Reserved

/-- The tokens are listed in the order in which they are declared. -/
theorem all_getElem? (r : Reserved) : all[r.ctorIdx]? = some r := by
  cases r <;> rfl

theorem mem_all (r : Reserved) : r ∈ all :=
  List.mem_of_getElem? r.all_getElem?

/-- Every spelling is visible, is not empty and is the longest in itself. -/
theorem spelling_spec (r : Reserved) :
    AllVisible r.chars ∧ r.chars ≠ [] ∧ longestMatch? r.chars = some r := by
  have spec : ∀ r ∈ all,
      AllVisible r.chars ∧ r.chars ≠ [] ∧ longestMatch? r.chars = some r := by
    decide +kernel
  exact spec r r.mem_all

/-- Neither letters nor digits, underscores or quotation marks are reserved. -/
theorem chars_plain (r : Reserved) : ∀ c ∈ r.chars,
    isAsciiLetter c = false ∧ isAsciiDigit c = false ∧ c ≠ '_' ∧ c ≠ '"' := by
  have plain : (all.all fun r => r.chars.all fun c =>
      !isAsciiLetter c && !isAsciiDigit c && c != '_' && c != '"') = true := by
    decide
  intro c hc
  simpa [and_assoc] using List.all_eq_true.mp (List.all_eq_true.mp plain r r.mem_all) c hc

theorem isVisible_of_mem_lookupTable {e : List Char × Reserved} (h : e ∈ lookupTable) {c : Char}
    (hc : c ∈ e.1) : IsVisible c := by
  obtain ⟨r, -, rfl⟩ := List.mem_map.mp h
  exact r.spelling_spec.1 c hc

/-- A spelling does not reach past a character that is not in it. -/
theorem isPrefixOf_append_apart {tail : List Char} :
    ∀ {spelling cs : List Char}, (∀ c ∈ tail.head?, c ∉ spelling) →
      spelling.isPrefixOf (cs ++ tail) = spelling.isPrefixOf cs
  | [], _, _ => rfl
  | s :: spelling, [], h => by
    cases tail with
    | nil => rfl
    | cons b tail =>
      have : s ≠ b := fun same => h b rfl (same ▸ List.mem_cons_self)
      simp [List.isPrefixOf, this]
  | s :: spelling, c :: cs, h => by
    have ih : spelling.isPrefixOf (cs ++ tail) = spelling.isPrefixOf cs :=
      isPrefixOf_append_apart fun c hc hs => h c hc (List.mem_cons_of_mem _ hs)
    simp only [List.cons_append, List.isPrefixOf, ih]

/-- No reserved token has the character in it. -/
def Unreserved (c : Char) : Prop := ∀ e ∈ lookupTable, c ∉ e.1

instance (c : Char) : Decidable (Unreserved c) :=
  inferInstanceAs (Decidable (∀ e ∈ lookupTable, c ∉ e.1))

theorem longestMatch?_append_apart {cs tail : List Char} (ht : ∀ c ∈ tail.head?, Unreserved c) :
    longestMatch? (cs ++ tail) = longestMatch? cs := by
  have same : ∀ e ∈ lookupTable, e.1.isPrefixOf (cs ++ tail) = e.1.isPrefixOf cs :=
    fun e he => isPrefixOf_append_apart fun c hc => ht c hc e he
  unfold longestMatch?
  generalize lookupTable = table at same
  induction table with
  | nil => rfl
  | cons e table ih =>
    obtain ⟨spelling, r⟩ := e
    obtain ⟨here, below⟩ := List.forall_mem_cons.mp same
    dsimp only at here
    simp only [List.find?_cons, here]
    split
    · rfl
    · exact ih below

/-- No reserved token has a blank in it. -/
theorem longestMatch?_append_separated {cs tail : List Char} (ht : Separated tail) :
    longestMatch? (cs ++ tail) = longestMatch? cs := by
  refine longestMatch?_append_apart fun c hc e he inside => ?_
  have blank := ht c hc
  rw [(isVisible_of_mem_lookupTable he inside).not_blank] at blank
  cases blank

theorem longestMatch?_eq_none {cs : List Char} :
    longestMatch? cs = none ↔ ∀ e ∈ lookupTable, ¬ e.1 <+: cs := by
  simp [longestMatch?]

/-- No token starts with a character that no token holds. -/
theorem longestMatch?_apart {c : Char} (h : ∀ r : Reserved, c ∉ r.chars) (rest : List Char) :
    longestMatch? (c :: rest) = none := by
  rw [longestMatch?_eq_none]
  intro e he found
  obtain ⟨r, -, rfl⟩ := List.mem_map.mp he
  obtain ⟨d, spelling, hr⟩ := List.exists_cons_of_ne_nil r.spelling_spec.2.1
  have found : r.chars <+: c :: rest := found
  rw [hr, List.cons_prefix_cons] at found
  obtain ⟨rfl, -⟩ := found
  exact h r (hr ▸ List.mem_cons_self)

/-- Where no reserved token starts, none starts in a shorter text either. -/
theorem longestMatch?_eq_none_of_append {cs tail : List Char}
    (h : longestMatch? (cs ++ tail) = none) : longestMatch? cs = none := by
  rw [longestMatch?_eq_none] at h ⊢
  exact fun e he found => h e he (found.trans (List.prefix_append cs tail))

end Reserved

/-! ## Single tokens -/

/-- These characters are a token of the kind wherever nothing or a blank follows. -/
structure IsLexeme (kind : TokenKind) (cs : List Char) : Prop where
  inner : kind ≠ .endOfInput
  visible : ∀ c ∈ cs.head?, isBlank c = false
  divided : ∃ c rest, cs = c :: rest ∧ ∀ start tail, Separated tail →
    firstPiece start c (rest ++ tail) = .ok ⟨kind, cs, tail⟩

section

attribute [local simp] firstPiece

theorem isLexeme_reserved (r : Reserved) : IsLexeme (.reserved r) r.chars := by
  obtain ⟨visible, inhabited, found⟩ := r.spelling_spec
  obtain ⟨c, rest, hr⟩ := List.exists_cons_of_ne_nil inhabited
  refine ⟨TokenKind.noConfusion, fun c hc => (visible c (List.mem_of_head? hc)).not_blank, c, rest, hr,
    fun start tail ht => ?_⟩
  have again : Reserved.longestMatch? (c :: (rest ++ tail)) = some r := by
    rw [← List.cons_append, Reserved.longestMatch?_append_separated ht, ← hr, found]
  simp only [firstPiece, again]
  rw [← List.cons_append, ← hr, List.drop_left]

theorem isLexeme_number {c : Char} {rest : List Char} (digits : ∀ d ∈ c :: rest, isAsciiDigit d = true)
    (short : (c :: rest).length ≤ maxNumeralLength)
    (free : Reserved.longestMatch? (c :: rest) = none) :
    IsLexeme (.number (numeralValue (c :: rest))) (c :: rest) := by
  have first := digits c List.mem_cons_self
  refine ⟨TokenKind.noConfusion, fun d hd => ?_, c, rest, rfl, fun start tail ht => ?_⟩
  · exact (isVisible_of_isAsciiDigit (digits d (List.mem_of_head? hd))).not_blank
  · have free : Reserved.longestMatch? (c :: (rest ++ tail)) = none := by
      rw [← List.cons_append, Reserved.longestMatch?_append_separated ht, free]
    obtain ⟨taken, dropped⟩ := takeWhile_append_separated
      (fun c hc => (isVisible_of_isAsciiDigit hc).not_blank) digits ht
    rw [List.cons_append] at taken dropped
    simp only [firstPiece, free, first, if_true, taken, dropped]
    rw [if_neg (by omega)]

theorem stringBody_some {rest value raw after : List Char}
    (h : stringBody rest = some (value, raw, after)) :
    rest = raw ++ after ∧ ∀ tail, stringBody (raw ++ tail) = some (value, raw, tail) := by
  fun_induction stringBody rest generalizing value raw after with
  | case1 => cases h
  | case2 rest =>
    cases h
    exact ⟨rfl, fun _ => rfl⟩
  | case3 c rest ih =>
    obtain ⟨⟨value, raw, after⟩, found, made⟩ := Option.map_eq_some_iff.mp h
    cases made
    obtain ⟨rfl, again⟩ := ih found
    refine ⟨rfl, fun tail => ?_⟩
    rw [List.cons_append, List.cons_append, stringBody, again]
    rfl
  | case4 c rest quote escape ih =>
    obtain ⟨⟨value, raw, after⟩, found, made⟩ := Option.map_eq_some_iff.mp h
    cases made
    have plain : c ≠ '\\' := by
      rintro rfl
      cases rest with
      | nil => cases found
      | cons d rest => exact escape d rest rfl rfl
    obtain ⟨rfl, again⟩ := ih found
    refine ⟨rfl, fun tail => ?_⟩
    rw [List.cons_append, stringBody, again]
    · rfl
    · exact quote
    · exact fun _ _ h _ => plain h

theorem identifierTail_spec {rest tail after : List Char} (h : identifierTail rest = (tail, after)) :
    rest = tail ++ after ∧ ∀ t, Separated t → identifierTail (tail ++ t) = (tail, t) := by
  have stops : ∀ t, Separated t → identifierTail t = ([], t) := by
    intro t ht
    cases t with
    | nil => rfl
    | cons b t =>
      have blank : isBlank b = true := ht b rfl
      have : isIdentifierChar b = false := by
        by_contra h
        rw [(isVisible_of_isIdentifierChar (by simpa using h)).not_blank] at blank
        cases blank
      simp [identifierTail, this]
  fun_induction identifierTail rest generalizing tail after with
  | case1 =>
    cases h
    exact ⟨rfl, stops⟩
  | case2 c rest goes tail' after' found ih =>
    cases h
    obtain ⟨rfl, again⟩ := ih found
    refine ⟨rfl, fun t ht => ?_⟩
    obtain ⟨char, free⟩ := Bool.and_eq_true_iff.mp goes
    have free : Reserved.longestMatch? (c :: (tail' ++ t)) = none := by
      rw [← List.cons_append, Reserved.longestMatch?_append_separated ht]
      exact Reserved.longestMatch?_eq_none_of_append (Option.isNone_iff_eq_none.mp free)
    simp [identifierTail, char, free, again t ht]
  | case3 c rest stop =>
    cases h
    exact ⟨rfl, stops⟩

theorem isLexeme_text {rest value raw : List Char} (h : stringBody rest = some (value, raw, []))
    (free : Reserved.longestMatch? ('"' :: rest) = none) :
    IsLexeme (.text (String.ofList value)) ('"' :: rest) := by
  obtain ⟨made, again⟩ := stringBody_some h
  rw [List.append_nil] at made
  subst made
  refine ⟨TokenKind.noConfusion, fun d hd => ?_, '"', rest, rfl, fun start tail ht => ?_⟩
  · cases hd
    decide
  have free : Reserved.longestMatch? ('"' :: (rest ++ tail)) = none := by
    rw [← List.cons_append, Reserved.longestMatch?_append_separated ht, free]
  simp [free, isAsciiDigit, again]

theorem isLexeme_identifier {c : Char} {rest : List Char} (start : isIdentifierStart c = true)
    (first : isAsciiDigit c = false) (h : identifierTail rest = (rest, []))
    (free : Reserved.longestMatch? (c :: rest) = none) : IsLexeme .identifier (c :: rest) := by
  have visible := isVisible_of_isIdentifierStart start
  refine ⟨TokenKind.noConfusion, fun d hd => ?_, c, rest, rfl, fun here tail ht => ?_⟩
  · cases hd
    exact visible.not_blank
  · have free : Reserved.longestMatch? (c :: (rest ++ tail)) = none := by
      rw [← List.cons_append, Reserved.longestMatch?_append_separated ht, free]
    have unquoted : c ≠ '"' := by
      rintro rfl
      exact absurd start (by decide)
    simp [free, first, unquoted, start, (identifierTail_spec h).2 tail ht]

end

/-- What is divided off at the start of a text is a lexeme. -/
theorem isLexeme_of_firstPiece {start : Location} {c : Char} {rest : List Char} {piece : Piece}
    (h : firstPiece start c rest = .ok piece) : IsLexeme piece.kind piece.lexeme := by
  unfold firstPiece at h
  dsimp only at h
  split at h
  next r found =>
    cases h
    exact isLexeme_reserved r
  next free =>
    split at h
    next digit =>
      split at h
      next => cases h
      next short =>
        cases h
        have digits : ∀ d ∈ (c :: rest).takeWhile isAsciiDigit, isAsciiDigit d = true :=
          fun d hd => List.mem_takeWhile_imp hd
        rw [← @List.takeWhile_append_dropWhile _ isAsciiDigit (c :: rest)] at free
        have free := Reserved.longestMatch?_eq_none_of_append free
        rw [List.takeWhile_cons_of_pos digit] at short digits free ⊢
        exact isLexeme_number digits (by omega) free
    next nodigit =>
      split at h
      next quote =>
        subst quote
        split at h
        next value raw after found =>
          cases h
          obtain ⟨rfl, again⟩ := stringBody_some found
          have alone := again []
          rw [List.append_nil] at alone
          rw [← List.cons_append] at free
          exact isLexeme_text alone (Reserved.longestMatch?_eq_none_of_append free)
        next => cases h
      next =>
        split at h
        next ident =>
          cases h
          obtain ⟨whole, again⟩ := identifierTail_spec (rfl : identifierTail rest = (_, _))
          have alone := again [] separated_nil
          rw [List.append_nil] at alone
          rw [whole, ← List.cons_append] at free
          exact isLexeme_identifier ident (by simpa using nodigit) alone
            (Reserved.longestMatch?_eq_none_of_append free)
        next => cases h

/-! ## Texts -/

/-- A kind of token with its spelling. -/
abbrev Word := TokenKind × String

namespace Token

def word (t : Token) : Word := (t.kind, t.lexeme)

theorem sameKind_iff {t u : Token} : t.sameKind u = true ↔ t.word = u.word := by
  simp [sameKind, word]

end Token

/-- These characters are blanks and the spellings of the words, in this order, with a blank or
nothing behind every spelling. -/
inductive Spells : List Word → List Char → Prop where
  | nil : Spells [] []
  | blank {words c text} : isBlank c = true → Spells words text → Spells words (c :: text)
  | word {w words text} : IsLexeme w.1 w.2.toList → Separated text → Spells words text →
      Spells (w :: words) (w.2.toList ++ text)

theorem spells_intercalate_space {words : List Word} (h : ∀ w ∈ words, IsLexeme w.1 w.2.toList) :
    Spells words (" ".intercalate (words.map (·.2))).toList := by
  rw [String.toList_intercalate, List.map_map]
  induction words with
  | nil => exact .nil
  | cons w words ih =>
    obtain ⟨here, below⟩ := List.forall_mem_cons.mp h
    cases words with
    | nil => simpa using Spells.word here separated_nil .nil
    | cons v words =>
      have space : isBlank ' ' = true := by decide
      have := Spells.word here (separated_cons space) (.blank space (ih below))
      simpa using this

/-- A text is divided as the list of its characters. -/
theorem tokenize_ofList (cs : List Char) (file : String) :
    tokenize (String.ofList cs) file = scanFrom (cs.length + 1) (Location.atStart file) cs := by
  rw [tokenize, String.toList_ofList]

theorem tokenize_append_ofList (cs ds : List Char) (file : String) :
    tokenize (String.ofList cs ++ String.ofList ds) file =
      scanFrom ((cs ++ ds).length + 1) (Location.atStart file) (cs ++ ds) := by
  rw [← String.ofList_append, tokenize_ofList]

theorem except_bind_ok {ε α β : Type} {p : Except ε α} {f : α → Except ε β} {b : β}
    (h : (p >>= f) = .ok b) : ∃ a, p = .ok a ∧ f a = .ok b := by
  cases p with
  | error e => cases h
  | ok a => exact ⟨a, rfl, h⟩

theorem scanFrom_blank (fuel : Nat) (here : Location) {c : Char} (text : List Char)
    (h : isBlank c = true) :
    scanFrom (fuel + 1) here (c :: text) = scanFrom (fuel + 1) (here.next c) text := by
  simp [scanFrom, h, Location.after]

theorem scanFrom_visible (fuel : Nat) (here : Location) {c : Char} (rest : List Char)
    (h : isBlank c = false) :
    scanFrom (fuel + 1) here (c :: rest) = (do
      let piece ← firstPiece here c rest
      let stop := here.after piece.lexeme
      let tokens ← scanFrom fuel stop piece.rest
      return ⟨piece.kind, String.ofList piece.lexeme, here, some stop⟩ :: tokens) := by
  simp [scanFrom, h, Location.after]

/-- A word is divided off whole. -/
theorem scanFrom_word (fuel : Nat) (here : Location) {w : Word} (lexeme : IsLexeme w.1 w.2.toList)
    {tail : List Char} (apart : Separated tail) :
    scanFrom (fuel + 1) here (w.2.toList ++ tail) = (do
      let stop := here.after w.2.toList
      let tokens ← scanFrom fuel stop tail
      return ⟨w.1, w.2, here, some stop⟩ :: tokens) := by
  obtain ⟨c, rest, spelled, divided⟩ := lexeme.divided
  have visible : isBlank c = false := lexeme.visible c (by rw [spelled]; rfl)
  have whole : w.2.toList ++ tail = c :: (rest ++ tail) := by rw [spelled, List.cons_append]
  rw [whole, scanFrom_visible _ _ _ visible, divided here tail apart]
  simp only [bind, Except.bind, String.ofList_toList]

/-- A text is divided into the words it spells. -/
theorem scanFrom_spells {words : List Word} {text : List Char} (h : Spells words text) :
    ∀ (fuel : Nat) (here : Location), text.length < fuel → ∃ tokens,
      scanFrom fuel here text = .ok tokens ∧
        tokens.map Token.word = words ++ [(TokenKind.endOfInput, "")] := by
  induction h with
  | nil =>
    intro fuel here enough
    obtain ⟨fuel, rfl⟩ := Nat.exists_eq_add_one_of_ne_zero (Nat.ne_of_gt enough)
    exact ⟨[Token.endAt here], rfl, rfl⟩
  | blank blank _ ih =>
    intro fuel here enough
    obtain ⟨fuel, rfl⟩ := Nat.exists_eq_add_one_of_ne_zero (Nat.ne_zero_of_lt enough)
    rw [scanFrom_blank _ _ _ blank]
    exact ih _ _ (Nat.lt_of_succ_lt enough)
  | @word w words text lexeme apart _ ih =>
    intro fuel here enough
    obtain ⟨fuel, rfl⟩ := Nat.exists_eq_add_one_of_ne_zero (Nat.ne_zero_of_lt enough)
    obtain ⟨c, rest, spelled, -⟩ := lexeme.divided
    obtain ⟨tokens, scanned, made⟩ := ih fuel (here.after w.2.toList) (by
      rw [spelled] at enough
      simp only [List.cons_append, List.length_cons, List.length_append] at enough
      omega)
    refine ⟨⟨w.1, w.2, here, some (here.after w.2.toList)⟩ :: tokens, ?_, by simp [made, Token.word]⟩
    rw [scanFrom_word fuel here lexeme apart]
    dsimp only
    rw [scanned]
    rfl

/-- A scan finds lexemes, and behind them the end of the input. -/
theorem scanFrom_lexemes {fuel : Nat} {here : Location} {text : List Char} {tokens : List Token}
    (h : scanFrom fuel here text = .ok tokens) : ∃ inner stop,
      tokens = inner ++ [Token.endAt stop] ∧ ∀ t ∈ inner, IsLexeme t.kind t.lexeme.toList := by
  fun_induction scanFrom fuel here text generalizing tokens with
  | case1 here =>
    cases h
    exact ⟨[], here, rfl, fun t ht => absurd ht List.not_mem_nil⟩
  | case2 fuel here text =>
    cases h
    exact ⟨[], _, rfl, fun t ht => absurd ht List.not_mem_nil⟩
  | case3 fuel here text start c rest =>
    rename_i ih
    obtain ⟨piece, divided, h⟩ := except_bind_ok h
    obtain ⟨tokens, scanned, h⟩ := except_bind_ok h
    cases h
    obtain ⟨inner, stop, rfl, lexemes⟩ := ih piece scanned
    refine ⟨_ :: inner, stop, rfl, List.forall_mem_cons.mpr ⟨?_, lexemes⟩⟩
    rw [String.toList_ofList]
    exact isLexeme_of_firstPiece divided

theorem Location.offset_after (l : Location) (cs : List Char) :
    (l.after cs).offset = l.offset + cs.length := by
  induction cs generalizing l with
  | nil => rfl
  | cons c cs ih =>
    have next : (l.next c).offset = l.offset + 1 := by
      unfold Location.next
      split <;> rfl
    show ((l.next c).after cs).offset = _
    rw [ih, next, List.length_cons]
    omega

/-- A visible text ends on the line it starts on. -/
theorem Location.after_visible {cs : List Char} (h : AllVisible cs) (l : Location) :
    l.after cs = { l with column := l.column + cs.length, offset := l.offset + cs.length } := by
  induction cs generalizing l with
  | nil => rfl
  | cons c cs ih =>
    obtain ⟨visible, below⟩ := List.forall_mem_cons.mp h
    have stays : c ≠ '\n' := by
      rintro rfl
      exact absurd visible (by decide)
    show (l.next c).after cs = _
    rw [ih below, next, if_neg stays, List.length_cons]
    simp only [Nat.add_assoc, Nat.add_comm 1]

/-- The tokens of a text stand one behind the other. -/
theorem scanFrom_places {fuel : Nat} {here : Location} {text : List Char} {tokens : List Token}
    (h : scanFrom fuel here text = .ok tokens) : (∀ t ∈ tokens, here.offset ≤ t.location.offset) ∧
      tokens.Pairwise (·.location.offset < ·.location.offset) := by
  fun_induction scanFrom fuel here text generalizing tokens with
  | case1 here =>
    cases h
    exact ⟨List.forall_mem_singleton.mpr (le_refl _), List.pairwise_singleton ..⟩
  | case2 fuel here text start =>
    cases h
    refine ⟨List.forall_mem_singleton.mpr ?_, List.pairwise_singleton ..⟩
    show here.offset ≤ start.offset
    rw [Location.offset_after]
    exact Nat.le_add_right _ _
  | case3 fuel here text start c rest =>
    rename_i ih
    obtain ⟨piece, divided, h⟩ := except_bind_ok h
    obtain ⟨tokens, scanned, h⟩ := except_bind_ok h
    cases h
    obtain ⟨behind, sorted⟩ := ih piece scanned
    obtain ⟨c, lexeme, spelled, -⟩ := (isLexeme_of_firstPiece divided).divided
    have first : here.offset ≤ start.offset := by
      rw [Location.offset_after]
      exact Nat.le_add_right _ _
    rw [Location.offset_after, spelled, List.length_cons] at behind
    refine ⟨List.forall_mem_cons.mpr ⟨first, fun t ht => ?_⟩, List.pairwise_cons.mpr ⟨fun t ht => ?_, sorted⟩⟩
    · have := behind t ht
      omega
    · show start.offset < t.location.offset
      have := behind t ht
      omega

theorem spells_joinLexemes {inner : List Token} (h : ∀ t ∈ inner, IsLexeme t.kind t.lexeme.toList)
    (stop : Location) :
    Spells (inner.map Token.word) (joinLexemes (inner ++ [Token.endAt stop])).toList := by
  have kept : (inner ++ [Token.endAt stop]).filter (!·.isEnd) = inner := by
    rw [List.filter_append, List.filter_eq_self.mpr fun t ht => by simp [Token.isEnd, (h t ht).inner]]
    simp [Token.isEnd, Token.endAt]
  have words : ∀ w ∈ inner.map Token.word, IsLexeme w.1 w.2.toList := by
    simpa [Token.word] using h
  have := spells_intercalate_space words
  rw [joinLexemes, kept]
  simpa [Function.comp_def, Token.word] using this

/-- Text that was divided into tokens once is divided into the same tokens after they were put
together again. -/
theorem tokenize_joinLexemes {source file : String} {tokens : List Token}
    (h : tokenize source file = .ok tokens) (file' : String) :
    ∃ tokens', tokenize (joinLexemes tokens) file' = .ok tokens' ∧
      List.Forall₂ (fun t u => t.sameKind u = true) tokens tokens' := by
  obtain ⟨inner, stop, rfl, lexemes⟩ := scanFrom_lexemes h
  obtain ⟨tokens', scanned, words⟩ := scanFrom_spells (spells_joinLexemes lexemes stop)
    _ (Location.atStart file') (Nat.lt_succ_self _)
  refine ⟨tokens', scanned, ?_⟩
  have words : (inner ++ [Token.endAt stop]).map Token.word = tokens'.map Token.word := by
    rw [words, List.map_append]
    rfl
  rw [← List.forall₂_eq_eq_eq, List.forall₂_map_left_iff, List.forall₂_map_right_iff] at words
  exact words.imp fun _ _ => Token.sameKind_iff.mpr

/-- Tokens that touch are put apart. -/
theorem tokenize_joinLexemes_touching : ∃ tokens,
    tokenize "\x7b[x[=]\"a b\\n\"]\x7d" "touching.mgs" = .ok tokens ∧
      ∃ tokens', tokenize (joinLexemes tokens) "joined.mgs" = .ok tokens' ∧
        List.Forall₂ (fun t u => t.sameKind u = true) tokens tokens' := by
  have divided : (tokenize "\x7b[x[=]\"a b\\n\"]\x7d" "touching.mgs").toBool = true := by
    decide
  cases h : tokenize "\x7b[x[=]\"a b\\n\"]\x7d" "touching.mgs" with
  | error fault =>
    rw [h] at divided
    cases divided
  | ok tokens => exact ⟨tokens, rfl, tokenize_joinLexemes h "joined.mgs"⟩

end GlyphScript
