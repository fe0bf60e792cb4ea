import GlyphScript.Proofs.Printing.Lexemes

/-!
# Scanning step by step

A scan skips blanks and divides off one piece after another until nothing is
left or no piece can be divided off. How it gets from one place to another
depends on the text between them, and on what stands behind that text only as
far as a reserved token could reach across.
-/

namespace GlyphScript

/-! ## Places -/

namespace Location

/-- The place behind a text, found by counting. -/
def behind (file : String) (text : List Char) : Location :=
  ⟨file, 1 + text.count '\n', 1 + (text.reverse.takeWhile (· ≠ '\n')).length, text.length⟩

theorem after_append (l : Location) (cs ds : List Char) : l.after (cs ++ ds) = (l.after cs).after ds :=
  List.foldl_append

theorem behind_concat (file : String) (text : List Char) (c : Char) :
    behind file (text ++ [c]) = (behind file text).next c := by
  by_cases line : c = '\n'
  · subst line
    simp [behind, next, Nat.add_assoc]
  · simp [behind, next, line, Nat.add_assoc]

theorem after_behind (file : String) (text cs : List Char) :
    (behind file text).after cs = behind file (text ++ cs) := by
  induction cs generalizing text with
  | nil => simp [after]
  | cons c cs ih =>
    have step : (behind file text).after (c :: cs) = ((behind file text).next c).after cs := rfl
    rw [step, ← behind_concat, ih, List.append_assoc, List.singleton_append]

theorem after_atStart (file : String) (text : List Char) :
    (atStart file).after text = behind file text := after_behind file [] text

@[simp] theorem offset_behind (file : String) (text : List Char) :
    (behind file text).offset = text.length := rfl

end Location

/-! ## Longest spellings -/

namespace Reserved

theorem chars_inj {r r' : Reserved} (h : r.chars = r'.chars) : r = r' := by
  have found := r.spelling_spec.2.2
  rw [h, r'.spelling_spec.2.2] at found
  exact (Option.some.inj found).symm

theorem mem_lookupTable (r : Reserved) : (r.chars, r) ∈ lookupTable := by
  obtain ⟨⟨spelling, found⟩, first, rfl⟩ := Option.map_eq_some_iff.mp r.spelling_spec.2.2
  have listed := List.mem_of_find?_eq_some first
  obtain ⟨r, -, made⟩ := List.mem_map.mp listed
  obtain ⟨rfl, rfl⟩ := Prod.mk.inj made
  exact listed

/-- The table is put together level by level, the longest spellings first. -/
theorem sorted_lookupTable : lookupTable.Pairwise fun e e' => e'.1.length ≤ e.1.length := by
  have sized {n : Nat} {r : Reserved} (h : r ∈ all.filter (·.chars.length = n)) :
      r.chars.length = n := of_decide_eq_true (List.mem_filter.mp h).2
  have level (n : Nat) : (all.filter (·.chars.length = n)).Pairwise
      fun r r' => r'.chars.length ≤ r.chars.length :=
    List.pairwise_of_forall_mem_list fun r hr r' hr' => by rw [sized hr, sized hr']
  refine List.pairwise_map.mpr (List.pairwise_append.mpr ⟨List.pairwise_append.mpr
    ⟨level 3, level 2, fun r hr r' hr' => ?_⟩, level 1, fun r hr r' hr' => ?_⟩)
  · rw [sized hr, sized hr']
    decide
  · rw [sized hr']
    rcases List.mem_append.mp hr with hr | hr <;> rw [sized hr] <;> decide

/-- The token found is spelled at the start of the text, and none that is longer is. -/
theorem longestMatch?_eq_some {cs : List Char} {r : Reserved} : longestMatch? cs = some r ↔
    r.chars <+: cs ∧ ∀ r' : Reserved, r'.chars <+: cs → r'.chars.length ≤ r.chars.length := by
  have found {r : Reserved} (h : longestMatch? cs = some r) :
      r.chars <+: cs ∧ ∀ r' : Reserved, r'.chars <+: cs → r'.chars.length ≤ r.chars.length := by
    obtain ⟨⟨spelling, r⟩, he, rfl⟩ := Option.map_eq_some_iff.mp h
    obtain ⟨own, front, back, table, passed⟩ := List.find?_eq_some_iff_append.mp he
    have sorted := sorted_lookupTable
    have spelled : (spelling, r) ∈ lookupTable := table ▸ by simp
    obtain ⟨r, -, made⟩ := List.mem_map.mp spelled
    cases made
    refine ⟨by simpa using own, fun r' hr' => ?_⟩
    have known := table ▸ mem_lookupTable r'
    rw [table, List.pairwise_append, List.pairwise_cons] at sorted
    rcases List.mem_append.mp known with known | known
    · have other : (!r'.chars.isPrefixOf cs) = true := passed _ known
      rw [List.isPrefixOf_iff_prefix.mpr hr'] at other
      cases other
    · rcases List.mem_cons.mp known with same | known
      · exact le_of_eq (congrArg (·.1.length) same)
      · exact sorted.2.1.1 _ known
  refine ⟨found, fun ⟨own, longest⟩ => ?_⟩
  cases h : longestMatch? cs with
  | none => exact absurd own (longestMatch?_eq_none.mp h _ (mem_lookupTable r))
  | some r' =>
    obtain ⟨own', longest'⟩ := found h
    have len : r'.chars.length = r.chars.length := le_antisymm (longest _ own') (longest' _ own)
    rw [chars_inj ((List.prefix_of_prefix_length_le own' own (le_of_eq len)).eq_of_length len)]

theorem longestMatch?_isNone {cs : List Char} :
    longestMatch? cs = none ↔ ∀ r : Reserved, ¬ r.chars <+: cs := by
  rw [longestMatch?_eq_none]
  refine ⟨fun h r => h _ (mem_lookupTable r), fun h e he => ?_⟩
  obtain ⟨r, -, rfl⟩ := List.mem_map.mp he
  exact h r

/-- The longest token is found also where the text ends sooner, as long as it is in full there. -/
theorem longestMatch?_of_append {cs tail : List Char} {r : Reserved}
    (h : longestMatch? (cs ++ tail) = some r) (full : r.chars <+: cs) :
    longestMatch? cs = some r := by
  rw [longestMatch?_eq_some] at h ⊢
  exact ⟨full, fun r' h' => h.2 r' (h'.trans (List.prefix_append cs tail))⟩

end Reserved

/-! ## What a piece is -/

section

variable {start : Location} {c : Char} {rest : List Char} {piece : Piece}

/-- A piece is divided off in one of four ways. -/
inductive Divides (c : Char) (rest : List Char) : Piece → Prop where
  | reserved {r behind} : Reserved.longestMatch? (c :: rest) = some r →
    c :: rest = r.chars ++ behind → Divides c rest ⟨.reserved r, r.chars, behind⟩
  | number {digits behind} : Reserved.longestMatch? (c :: rest) = none →
    c :: rest = digits ++ behind → isAsciiDigit c = true → (∀ d ∈ digits, isAsciiDigit d = true) →
    (∀ d ∈ behind.head?, isAsciiDigit d = false) → digits.length ≤ maxNumeralLength →
    Divides c rest ⟨.number (numeralValue digits), digits, behind⟩
  | text {value raw behind} : Reserved.longestMatch? (c :: rest) = none → c = '"' →
    stringBody rest = some (value, raw, behind) →
    Divides c rest ⟨.text (String.ofList value), '"' :: raw, behind⟩
  | identifier {tail behind} : Reserved.longestMatch? (c :: rest) = none →
    isIdentifierStart c = true → identifierTail rest = (tail, behind) →
    Divides c rest ⟨.identifier, c :: tail, behind⟩

theorem Divides.of_firstPiece (h : firstPiece start c rest = .ok piece) : Divides c rest piece := by
  unfold firstPiece at h
  dsimp only at h
  split at h
  next r found =>
    cases h
    obtain ⟨behind, whole⟩ := (Reserved.longestMatch?_eq_some.mp found).1
    rw [← whole, List.drop_left]
    exact .reserved found whole.symm
  next free =>
    split at h
    next digit =>
      split at h
      next => cases h
      next short =>
        cases h
        refine .number free List.takeWhile_append_dropWhile.symm digit
          (fun d hd => List.mem_takeWhile_imp hd) (fun d hd => ?_) (Nat.le_of_not_lt short)
        have := List.head?_dropWhile_not isAsciiDigit (c :: rest)
        rw [hd] at this
        simpa using this
    next nodigit =>
      split at h
      next quote =>
        split at h
        next found =>
          cases h
          exact .text free quote found
        next => cases h
      next =>
        split at h
        next ident =>
          cases h
          exact .identifier free ident rfl
        next => cases h

theorem Divides.first (h : Divides c rest piece) : firstPiece start c rest = .ok piece := by
  unfold firstPiece
  cases h with
  | reserved found whole =>
    simp only [found]
    rw [whole, List.drop_left]
  | @number digits behind free whole digit digits' ends short =>
    have stops : behind.takeWhile isAsciiDigit = [] ∧ behind.dropWhile isAsciiDigit = behind := by
      cases behind with
      | nil => simp
      | cons d behind => simp [ends d rfl]
    have taken : (c :: rest).takeWhile isAsciiDigit = digits := by
      rw [whole, List.takeWhile_append_of_pos digits', stops.1, List.append_nil]
    have dropped : (c :: rest).dropWhile isAsciiDigit = behind := by
      rw [whole, List.dropWhile_append_of_pos digits', stops.2]
    simp [free, digit, taken, dropped, Nat.not_lt.mpr short]
  | text free quote found =>
    subst quote
    simp [free, isAsciiDigit, found]
  | identifier free ident found =>
    have unquoted : c ≠ '"' := by
      rintro rfl
      exact absurd ident (by decide)
    simp [free, not_isAsciiDigit_of_isIdentifierStart ident, unquoted, ident, found]

theorem Divides.whole (h : Divides c rest piece) : c :: rest = piece.lexeme ++ piece.rest := by
  cases h with
  | reserved _ whole => exact whole
  | number _ whole => exact whole
  | text _ quote found => rw [quote, (stringBody_some found).1, List.cons_append]
  | identifier _ _ found => rw [(identifierTail_spec found).1, List.cons_append]

theorem Divides.isLexeme (h : Divides c rest piece) : IsLexeme piece.kind piece.lexeme := by
  have found : firstPiece default c rest = .ok piece := h.first
  exact isLexeme_of_firstPiece found

theorem Divides.ne_nil (h : Divides c rest piece) : piece.lexeme ≠ [] := by
  obtain ⟨d, ds, made, -⟩ := h.isLexeme.divided
  rw [made]
  exact List.cons_ne_nil _ _

theorem Divides.shorter (h : Divides c rest piece) : piece.rest.length < (c :: rest).length := by
  rw [h.whole, List.length_append]
  have := List.length_pos_iff.mpr h.ne_nil
  omega

end

/-! ## Identifiers -/

/-- An identifier ends where the text ends, where a character is none of an identifier, or where a
reserved token starts. -/
def EndsIdentifier (behind : List Char) : Prop :=
  ∀ c ∈ behind.head?, isIdentifierChar c = true → Reserved.longestMatch? behind ≠ none

/-- Identifier characters, with no reserved token starting at any of them. -/
def IsRun (tail behind : List Char) : Prop :=
  (∀ c ∈ tail, isIdentifierChar c = true) ∧
    ∀ x y, tail = x ++ y → y ≠ [] → Reserved.longestMatch? (y ++ behind) = none

theorem IsRun.cons_iff {c : Char} {tail behind : List Char} : IsRun (c :: tail) behind ↔
    isIdentifierChar c = true ∧ Reserved.longestMatch? (c :: (tail ++ behind)) = none ∧
      IsRun tail behind := by
  constructor
  · intro ⟨chars, free⟩
    obtain ⟨char, chars⟩ := List.forall_mem_cons.mp chars
    refine ⟨char, free [] (c :: tail) rfl (List.cons_ne_nil _ _), chars, fun x y made => ?_⟩
    exact free (c :: x) y (congrArg (c :: ·) made)
  · intro ⟨char, first, chars, free⟩
    refine ⟨List.forall_mem_cons.mpr ⟨char, chars⟩, fun x y made some => ?_⟩
    rcases List.cons_eq_append_iff.mp made with ⟨-, rfl⟩ | ⟨x, -, rfl⟩
    · exact first
    · exact free x y rfl some

theorem identifierTail_run {rest tail behind : List Char}
    (h : identifierTail rest = (tail, behind)) :
    rest = tail ++ behind ∧ IsRun tail behind ∧ EndsIdentifier behind := by
  have none (behind : List Char) : IsRun [] behind := by
    refine ⟨List.forall_mem_nil _, fun x y made some => ?_⟩
    exact absurd (List.append_eq_nil_iff.mp made.symm).2 some
  fun_induction identifierTail rest generalizing tail behind with
  | case1 =>
    cases h
    refine ⟨rfl, none _, ?_⟩
    intro c hc
    cases hc
  | case2 c rest goes tail' behind' found ih =>
    cases h
    obtain ⟨rfl, run, ends⟩ := ih found
    obtain ⟨char, free⟩ := Bool.and_eq_true_iff.mp goes
    exact ⟨rfl, IsRun.cons_iff.mpr ⟨char, Option.isNone_iff_eq_none.mp free, run⟩, ends⟩
  | case3 c rest stop =>
    cases h
    refine ⟨rfl, none _, fun d hd char free => stop ?_⟩
    cases hd
    simp [char, free]

theorem IsRun.split {tail behind : List Char} (run : IsRun tail behind)
    (ends : EndsIdentifier behind) : identifierTail (tail ++ behind) = (tail, behind) := by
  induction tail with
  | nil =>
    cases behind with
    | nil => rfl
    | cons c behind =>
      have stop : (isIdentifierChar c && (Reserved.longestMatch? (c :: behind)).isNone) = false := by
        by_contra goes
        simp only [Bool.not_eq_false, Bool.and_eq_true, Option.isNone_iff_eq_none] at goes
        exact ends c rfl goes.1 goes.2
      simp [identifierTail, stop]
  | cons c tail ih =>
    obtain ⟨char, free, run⟩ := IsRun.cons_iff.mp run
    simp [identifierTail, char, free, ih run]

/-! ## Pieces in other texts -/

section

variable {c : Char} {rest : List Char} {piece : Piece} {tail : List Char}

theorem not_isAsciiDigit_of_isBlank {c : Char} (h : isBlank c = true) : isAsciiDigit c = false := by
  by_contra digit
  rw [(isVisible_of_isAsciiDigit (by simpa using digit)).not_blank] at h
  cases h

theorem not_isIdentifierChar_of_isBlank {c : Char} (h : isBlank c = true) :
    isIdentifierChar c = false := by
  by_contra char
  rw [(isVisible_of_isIdentifierChar (by simpa using char)).not_blank] at h
  cases h

theorem mem_head?_append {cs tail : List Char} {c : Char} (h : c ∈ (cs ++ tail).head?) :
    c ∈ cs.head? ∨ cs = [] ∧ c ∈ tail.head? := by
  cases cs with
  | nil => exact .inr ⟨rfl, h⟩
  | cons d cs => exact .inl h

/-- A string ends with a quotation mark. -/
theorem stringBody_closed {rest value raw behind : List Char}
    (h : stringBody rest = some (value, raw, behind)) : ∃ inner, raw = inner ++ ['"'] := by
  fun_induction stringBody rest generalizing value raw behind with
  | case1 => cases h
  | case2 rest =>
    cases h
    exact ⟨[], rfl⟩
  | case3 c rest ih =>
    obtain ⟨⟨value, raw, behind⟩, found, made⟩ := Option.map_eq_some_iff.mp h
    cases made
    obtain ⟨inner, rfl⟩ := ih found
    exact ⟨_ :: _ :: inner, rfl⟩
  | case4 c rest _ _ ih =>
    obtain ⟨⟨value, raw, behind⟩, found, made⟩ := Option.map_eq_some_iff.mp h
    cases made
    obtain ⟨inner, rfl⟩ := ih found
    exact ⟨_ :: inner, rfl⟩

/-- A blank behind a text changes nothing in the text. -/
theorem Divides.append (h : Divides c rest piece) (apart : Separated tail) :
    Divides c (rest ++ tail) ⟨piece.kind, piece.lexeme, piece.rest ++ tail⟩ := by
  have same : Reserved.longestMatch? (c :: (rest ++ tail)) = Reserved.longestMatch? (c :: rest) := by
    rw [← List.cons_append, Reserved.longestMatch?_append_separated apart]
  cases h with
  | reserved found whole =>
    refine .reserved (same.trans found) ?_
    rw [← List.cons_append, whole, List.append_assoc]
  | number free whole digit digits ends short =>
    refine .number (same.trans free) ?_ digit digits (fun d hd => ?_) short
    · rw [← List.cons_append, whole, List.append_assoc]
    · rcases mem_head?_append hd with hd | ⟨-, hd⟩
      · exact ends d hd
      · exact not_isAsciiDigit_of_isBlank (apart d hd)
  | text free quote found =>
    obtain ⟨rfl, again⟩ := stringBody_some found
    refine .text (same.trans free) quote ?_
    rw [List.append_assoc, again]
  | @identifier x behind free start found =>
    obtain ⟨rfl, run, ends⟩ := identifierTail_run found
    rw [List.append_assoc] at same ⊢
    refine .identifier (same.trans free) start (IsRun.split ⟨run.1, ?_⟩ ?_)
    · intro x y made some
      rw [← List.append_assoc, Reserved.longestMatch?_append_separated apart]
      exact run.2 x y made some
    · intro d hd char
      rw [Reserved.longestMatch?_append_separated apart]
      rcases mem_head?_append hd with hd | ⟨-, hd⟩
      · exact ends d hd char
      · rw [not_isIdentifierChar_of_isBlank (apart d hd)] at char
        cases char

/-- The text may end sooner if it does not end inside the piece or inside a reserved token right
behind it. -/
theorem Divides.cut {kind : TokenKind} {lexeme behind : List Char}
    (h : Divides c (rest ++ tail) ⟨kind, lexeme, behind ++ tail⟩)
    (seam : behind ≠ [] → ∀ r, Reserved.longestMatch? (behind ++ tail) = some r → r.chars <+: behind) :
    Divides c rest ⟨kind, lexeme, behind⟩ := by
  have whole : c :: rest = lexeme ++ behind := by
    have := h.whole
    rw [← List.cons_append, ← List.append_assoc] at this
    exact List.append_cancel_right this
  have fewer : Reserved.longestMatch? (c :: (rest ++ tail)) = none →
      Reserved.longestMatch? (c :: rest) = none := by
    rw [← List.cons_append]
    exact Reserved.longestMatch?_eq_none_of_append
  cases h with
  | @reserved r _ found =>
    rw [← List.cons_append] at found
    refine .reserved (Reserved.longestMatch?_of_append found ?_) whole
    exact ⟨behind, whole.symm⟩
  | number free _ digit digits ends short =>
    refine .number (fewer free) whole digit digits (fun d hd => ends d ?_) short
    rw [List.head?_append, hd]
    rfl
  | @text value raw _ free quote found =>
    obtain ⟨made, again⟩ := stringBody_some found
    rw [quote, List.cons_append] at whole
    refine .text (fewer free) quote ?_
    rw [(List.cons.inj whole).2, again]
  | @identifier x _ free start found =>
    obtain ⟨-, run, ends⟩ := identifierTail_run found
    obtain rfl : rest = x ++ behind := (List.cons.inj whole).2
    refine .identifier (fewer free) start (IsRun.split ⟨run.1, ?_⟩ ?_)
    · intro x y made some
      have := run.2 x y made some
      rw [← List.append_assoc] at this
      exact Reserved.longestMatch?_eq_none_of_append this
    · intro d hd char none
      have some : behind ≠ [] := by
        rintro rfl
        cases hd
      cases found : Reserved.longestMatch? (behind ++ tail) with
      | none => exact ends d (by rw [List.head?_append, hd]; rfl) char found
      | some r => exact Reserved.longestMatch?_isNone.mp none r (seam some r found)

/-- Digits do not go on across the end of a piece. -/
theorem Divides.seam (h : Divides c rest piece) {d : Char} (last : d ∈ piece.lexeme.getLast?)
    {e : Char} {behind : List Char} (first : piece.rest = e :: behind) (digit : isAsciiDigit e = true) :
    isAsciiDigit d = false := by
  cases h with
  | @reserved r =>
    exact (r.chars_plain d (List.mem_of_getLast? last)).2.1
  | @number digits _ _ _ _ _ ends =>
    obtain rfl : _ = e :: behind := first
    rw [ends e rfl] at digit
    cases digit
  | text _ _ found =>
    obtain ⟨raw, rfl⟩ := stringBody_closed found
    rw [← List.cons_append, List.getLast?_concat] at last
    cases last
    decide
  | identifier _ _ found =>
    obtain ⟨-, -, ends⟩ := identifierTail_run found
    have char : isIdentifierChar e = true := by
      rw [isIdentifierChar, digit, Bool.or_true]
    obtain rfl : _ = e :: behind := first
    exact absurd (Reserved.longestMatch?_literal (.inl digit)) (ends e rfl char)

end

/-! ## Scans -/

/-- The tokens of a text that starts at `here`. -/
def scan (here : Location) (text : List Char) : Except LexFault (List Token) :=
  scanFrom (text.length + 1) here text

/-- Any number of steps that is larger than the text is enough. -/
theorem scanFrom_enough {fuel fuel' : Nat} {here : Location} {text : List Char}
    (h : text.length < fuel) (h' : text.length < fuel') :
    scanFrom fuel here text = scanFrom fuel' here text := by
  induction fuel generalizing fuel' here text with
  | zero => nomatch h
  | succ fuel ih =>
    obtain ⟨fuel', rfl⟩ := Nat.exists_eq_add_one_of_ne_zero (Nat.ne_zero_of_lt h')
    rw [scanFrom, scanFrom]
    have short := (List.dropWhile_suffix isBlank (l := text)).length_le
    generalize text.dropWhile isBlank = visible at short
    cases visible with
    | nil => rfl
    | cons c rest =>
      dsimp only
      cases divided : firstPiece (here.after (text.takeWhile isBlank)) c rest with
      | error fault => rfl
      | ok piece =>
        have shorter := (Divides.of_firstPiece divided).shorter
        have same := @ih fuel' ((here.after (text.takeWhile isBlank)).after piece.lexeme) piece.rest
          (by omega) (by omega)
        show (do let tokens ← scanFrom fuel _ piece.rest; _) =
          (do let tokens ← scanFrom fuel' _ piece.rest; _)
        rw [same]

section

variable {here : Location} {c : Char} {rest : List Char}

theorem scan_blank (h : isBlank c = true) : scan here (c :: rest) = scan (here.next c) rest := by
  rw [scan, scanFrom_blank _ _ _ h, List.length_cons]
  exact scanFrom_enough (by omega) (by omega)

theorem scan_piece {piece : Piece} (h : isBlank c = false) (divided : Divides c rest piece) :
    scan here (c :: rest) =
      (⟨piece.kind, String.ofList piece.lexeme, here, some (here.after piece.lexeme)⟩ :: ·) <$>
        scan (here.after piece.lexeme) piece.rest := by
  have shorter := divided.shorter
  rw [scan, scanFrom_visible _ _ _ h, divided.first, scan,
    ← scanFrom_enough shorter (Nat.lt_succ_self _)]
  rfl

theorem scan_fault {fault : LexFault} (h : isBlank c = false)
    (faulty : firstPiece here c rest = .error fault) : scan here (c :: rest) = .error fault := by
  rw [scan, scanFrom_visible _ _ _ h, faulty]
  rfl

end

/-- On the way from one place to another a scan has formed the tokens. -/
inductive Lexes : (here : Location) → (text : List Char) → (tokens : List Token) →
    (there : Location) → (rest : List Char) → Prop where
  | done {here text} : Lexes here text [] here text
  | blank {here c text tokens there rest} : isBlank c = true →
    Lexes (here.next c) text tokens there rest → Lexes here (c :: text) tokens there rest
  | piece {here c text piece tokens there rest} : isBlank c = false → Divides c text piece →
    Lexes (here.after piece.lexeme) piece.rest tokens there rest →
    Lexes here (c :: text)
      (⟨piece.kind, String.ofList piece.lexeme, here, some (here.after piece.lexeme)⟩ :: tokens)
      there rest

/-- No piece can be divided off. -/
def Stuck (here : Location) (rest : List Char) (fault : LexFault) : Prop :=
  ∃ c cs, rest = c :: cs ∧ isBlank c = false ∧ firstPiece here c cs = .error fault

theorem Stuck.scan {here : Location} {rest : List Char} {fault : LexFault}
    (h : Stuck here rest fault) : scan here rest = .error fault := by
  obtain ⟨c, cs, rfl, visible, faulty⟩ := h
  exact scan_fault visible faulty

/-- A scan comes to the end of the text or to a place where it is stuck. -/
theorem scan_lexes (here : Location) (text : List Char) : ∃ tokens there rest,
    Lexes here text tokens there rest ∧ (rest = [] ∨ ∃ fault, Stuck there rest fault) := by
  induction len : text.length using Nat.strongRecOn generalizing here text with
  | ind n ih =>
    subst len
    cases text with
    | nil => exact ⟨[], here, [], .done, .inl rfl⟩
    | cons c text =>
      by_cases blank : isBlank c = true
      · obtain ⟨tokens, there, rest, lexes, ends⟩ := ih text.length (by simp) (here.next c) text rfl
        exact ⟨tokens, there, rest, .blank blank lexes, ends⟩
      · have visible : isBlank c = false := by simpa using blank
        cases divided : firstPiece here c text with
        | error fault => exact ⟨[], here, _, .done, .inr ⟨fault, c, text, rfl, visible, divided⟩⟩
        | ok piece =>
          have divides := Divides.of_firstPiece divided
          obtain ⟨tokens, there, rest, lexes, ends⟩ :=
            ih _ divides.shorter (here.after piece.lexeme) piece.rest rfl
          exact ⟨_, there, rest, .piece visible divides lexes, ends⟩

namespace Lexes

variable {here there : Location} {text rest tail : List Char} {tokens : List Token}

/-- A scan that has come to a place goes on from there. -/
theorem scan (h : Lexes here text tokens there rest) :
    scan here text = (tokens ++ ·) <$> GlyphScript.scan there rest := by
  induction h with
  | done => simp
  | blank blank _ ih => rw [scan_blank blank, ih]
  | piece visible divides _ ih =>
    rw [scan_piece visible divides, ih, ← comp_map]
    rfl

theorem scan_end (h : Lexes here text tokens there []) :
    GlyphScript.scan here text = .ok (tokens ++ [Token.endAt there]) := h.scan

theorem scan_stuck {fault : LexFault} (h : Lexes here text tokens there rest)
    (stuck : Stuck there rest fault) : GlyphScript.scan here text = .error fault := by
  rw [h.scan, stuck.scan]
  rfl

theorem suffix (h : Lexes here text tokens there rest) : rest <:+ text := by
  induction h with
  | done => exact List.suffix_refl _
  | blank _ _ ih => exact ih.trans (List.suffix_cons _ _)
  | piece _ divides _ ih =>
    rw [divides.whole]
    exact ih.trans (List.suffix_append _ _)

/-- A reserved token at the place that a scan starts from lies in what it goes through. -/
theorem prefix_of_longestMatch {front : List Char} {r : Reserved}
    (h : Lexes here (front ++ rest) tokens there rest) (some : front ≠ [])
    (found : Reserved.longestMatch? (front ++ rest) = Option.some r) : r.chars <+: front := by
  generalize made : front ++ rest = text at h found
  cases h with
  | done => exact absurd (List.append_left_eq_self.mp made) some
  | @blank here c _ _ _ _ blank _ =>
    obtain ⟨t, whole⟩ := (Reserved.longestMatch?_eq_some.mp found).1
    obtain ⟨visible, inhabited, -⟩ := r.spelling_spec
    obtain ⟨d, ds, spelled⟩ := List.exists_cons_of_ne_nil inhabited
    have first : d = c := by
      rw [spelled] at whole
      exact (List.cons.inj whole).1
    rw [← first, (visible d (spelled ▸ List.mem_cons_self)).not_blank] at blank
    cases blank
  | piece _ divides more =>
    cases divides with
    | @reserved r' behind found' whole =>
      rw [found'] at found
      cases found
      obtain ⟨t, rfl⟩ := more.suffix
      rw [whole, ← List.append_assoc] at made
      exact ⟨t, (List.append_cancel_right made).symm⟩
    | number free | text free | identifier free =>
      rw [free] at found
      cases found

/-- What is behind the place that a scan comes to does not count. -/
theorem cut (h : Lexes here text tokens there rest) :
    ∃ front, text = front ++ rest ∧ there = here.after front ∧ Lexes here front tokens there [] := by
  induction h with
  | done => exact ⟨[], rfl, rfl, .done⟩
  | @blank here c text tokens there rest blank _ ih =>
    obtain ⟨front, rfl, rfl, lexes⟩ := ih
    exact ⟨c :: front, rfl, rfl, .blank blank lexes⟩
  | @piece here c text piece tokens there rest visible divides more ih =>
    obtain ⟨front, made, rfl, lexes⟩ := ih
    obtain ⟨kind, lexeme, behind⟩ := piece
    obtain rfl : behind = front ++ rest := made
    obtain ⟨d, cs, spelled⟩ := List.exists_cons_of_ne_nil divides.ne_nil
    obtain rfl : lexeme = d :: cs := spelled
    have whole : c :: text = d :: (cs ++ (front ++ rest)) := divides.whole
    obtain ⟨rfl, rfl⟩ := List.cons.inj whole
    rw [← List.append_assoc] at divides
    have divides := divides.cut fun some r found => more.prefix_of_longestMatch some found
    exact ⟨c :: (cs ++ front), by simp, (Location.after_append _ (c :: cs) front).symm,
      @Lexes.piece _ _ _ ⟨kind, c :: cs, front⟩ _ _ _ visible divides lexes⟩

theorem after (h : Lexes here text tokens there []) : there = here.after text := by
  obtain ⟨front, made, there, -⟩ := h.cut
  rwa [made, List.append_nil]

/-- Every token is divided off at its place, and no number goes on with a digit in front of it. -/
theorem mem (h : Lexes here text tokens there rest) {t : Token} (ht : t ∈ tokens) :
    ∃ before c cs piece, text = before ++ c :: cs ∧ Divides c cs piece ∧
      t = ⟨piece.kind, String.ofList piece.lexeme, here.after before,
        some (here.after (before ++ piece.lexeme))⟩ ∧
      (isAsciiDigit c = true → ∀ d ∈ before.getLast?, isAsciiDigit d = false) := by
  induction h with
  | done => nomatch ht
  | @blank here b text tokens there rest blank _ ih =>
    obtain ⟨before, c, cs, piece, rfl, divides, rfl, apart⟩ := ih ht
    refine ⟨b :: before, c, cs, piece, rfl, divides, rfl, fun digit d hd => ?_⟩
    cases before with
    | nil =>
      cases hd
      exact not_isAsciiDigit_of_isBlank blank
    | cons e before =>
      rw [List.getLast?_cons_cons] at hd
      exact apart digit d hd
  | @piece here b text piece tokens there rest _ divides _ ih =>
    rcases List.mem_cons.mp ht with rfl | ht
    · exact ⟨[], b, text, piece, rfl, divides, rfl, fun _ d hd => nomatch hd⟩
    · obtain ⟨before, c, cs, piece', made, divides', rfl, apart⟩ := ih ht
      refine ⟨piece.lexeme ++ before, c, cs, piece', ?_, divides', ?_, fun digit d hd => ?_⟩
      · rw [divides.whole, made, List.append_assoc]
      · simp [Location.after_append]
      · rw [List.getLast?_append] at hd
        cases last : before.getLast? with
        | none =>
          rw [last] at hd
          obtain rfl : before = [] := List.getLast?_eq_none_iff.mp last
          exact divides.seam hd made digit
        | some e =>
          rw [last] at hd
          cases hd
          exact apart digit _ last

/-- A blank behind a text changes nothing in the text. -/
theorem append (h : Lexes here text tokens there rest) (apart : Separated tail) :
    Lexes here (text ++ tail) tokens there (rest ++ tail) := by
  induction h with
  | done => exact .done
  | blank blank _ ih => exact .blank blank ih
  | piece visible divides _ ih =>
    rw [List.cons_append]
    exact @Lexes.piece _ _ _ ⟨_, _, _ ++ tail⟩ _ _ _ visible (divides.append apart) ih

theorem trans {there' : Location} {rest' : List Char} {tokens' : List Token}
    (h : Lexes here text tokens there rest) (h' : Lexes there rest tokens' there' rest') :
    Lexes here text (tokens ++ tokens') there' rest' := by
  induction h with
  | done => exact h'
  | blank blank _ ih => exact .blank blank (ih h')
  | piece visible divides _ ih => exact .piece visible divides (ih h')

theorem blanks {w : List Char} (h : ∀ c ∈ w, isBlank c = true) :
    Lexes here (w ++ rest) [] (here.after w) rest := by
  induction w generalizing here with
  | nil => exact .done
  | cons c w ih =>
    obtain ⟨first, others⟩ := List.forall_mem_cons.mp h
    exact .blank first (ih others)

end Lexes

theorem tokenize_eq_scan (source file : String) :
    tokenize source file = scan (Location.atStart file) source.toList := rfl

/-- A text that is divided into tokens is scanned up to its end. -/
theorem lexes_of_scan {here : Location} {text : List Char} {tokens : List Token}
    (h : scan here text = .ok tokens) : ∃ inner,
      tokens = inner ++ [Token.endAt (here.after text)] ∧
        Lexes here text inner (here.after text) [] := by
  obtain ⟨inner, there, rest, lexes, rfl | ⟨fault, stuck⟩⟩ := scan_lexes here text
  · obtain rfl := lexes.after
    rw [lexes.scan_end] at h
    cases h
    exact ⟨inner, rfl, lexes⟩
  · rw [lexes.scan_stuck stuck] at h
    cases h

/-- A text that cannot be divided into tokens is scanned up to the fault. -/
theorem stuck_of_scan {here : Location} {text : List Char} {fault : LexFault}
    (h : scan here text = .error fault) : ∃ inner there rest,
      Lexes here text inner there rest ∧ Stuck there rest fault := by
  obtain ⟨inner, there, rest, lexes, rfl | ⟨fault', stuck⟩⟩ := scan_lexes here text
  · rw [lexes.scan_end] at h
    cases h
  · rw [lexes.scan_stuck stuck] at h
    cases h
    exact ⟨inner, there, rest, lexes, stuck⟩

end GlyphScript
