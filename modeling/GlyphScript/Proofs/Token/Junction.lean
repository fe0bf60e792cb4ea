import GlyphScript.Proofs.Token.Scanning

/-!
# Texts with a blank between them

A text is divided into tokens by itself: neither a text in front of it nor one
behind it counts if there is a blank between them. Only its places are shifted
by what is in front of it.
-/

namespace GlyphScript

/-! ## Shifts -/

/-- The place behind a text in front of which stands `front`. In the first line of the text the
column counts on from the last line of `front`. -/
def Location.shift (front : List Char) (l : Location) : Location where
  file := l.file
  line := front.count '\n' + l.line
  column := if l.line = 1 then (front.reverse.takeWhile (· ≠ '\n')).length + l.column else l.column
  offset := front.length + l.offset

def Token.shift (front : List Char) (t : Token) : Token :=
  { t with location := t.location.shift front, stop := t.stop.map (·.shift front) }

def LexFault.shift (front : List Char) : LexFault → LexFault
  | .unexpectedCharacter c following location =>
    .unexpectedCharacter c following (location.shift front)
  | .unterminatedString span => .unterminatedString ⟨span.start.shift front, span.stop.shift front⟩
  | .numeralTooLong digits => .numeralTooLong digits

section

variable {front : List Char}

namespace Location

variable {l : Location} {cs : List Char}

theorem line_after (h : 0 < l.line) : 0 < (l.after cs).line := by
  induction cs generalizing l with
  | nil => exact h
  | cons c cs ih =>
    refine ih ?_
    unfold next
    split
    · exact Nat.succ_pos _
    · exact h

theorem shift_next (h : 0 < l.line) (c : Char) : (l.next c).shift front = (l.shift front).next c := by
  by_cases feed : c = '\n'
  · have later : l.line ≠ 0 := Nat.ne_of_gt h
    simp [next, shift, feed, later, Nat.add_assoc]
  · by_cases first : l.line = 1
    · simp [next, shift, feed, first, Nat.add_assoc]
    · simp [next, shift, feed, first, Nat.add_assoc]

theorem shift_after (h : 0 < l.line) : (l.after cs).shift front = (l.shift front).after cs := by
  induction cs generalizing l with
  | nil => rfl
  | cons c cs ih =>
    have line : 0 < (l.next c).line := @line_after l [c] h
    show ((l.next c).after cs).shift front = ((l.shift front).next c).after cs
    rw [ih line, shift_next h]

theorem shift_atStart (file : String) : (atStart file).shift front = behind file front := by
  simp [atStart, shift, behind, Nat.add_comm]

end Location

variable {here there : Location} {text rest : List Char} {tokens : List Token} {fault : LexFault}

theorem Lexes.shift (h : Lexes here text tokens there rest) (line : 0 < here.line) :
    Lexes (here.shift front) text (tokens.map (Token.shift front)) (there.shift front) rest := by
  induction h with
  | done => exact .done
  | @blank here c text tokens there rest blank _ ih =>
    have more := ih (@Location.line_after here [c] line)
    rw [Location.shift_next line] at more
    exact .blank blank more
  | @piece here c text piece tokens there rest visible divides _ ih =>
    have more := ih (Location.line_after line)
    rw [Location.shift_after line] at more
    rw [List.map_cons, Token.shift, Option.map_some, Location.shift_after line]
    exact .piece visible divides more

theorem firstPiece_shift {c : Char} (line : 0 < here.line) :
    firstPiece (here.shift front) c rest =
      (firstPiece here c rest).mapError (LexFault.shift front) := by
  unfold firstPiece
  dsimp only
  split
  · rfl
  · by_cases digit : isAsciiDigit c = true
    · rw [if_pos digit, if_pos digit]
      split <;> rfl
    · rw [if_neg digit, if_neg digit]
      by_cases quote : c = '"'
      · rw [if_pos quote, if_pos quote]
        split
        · rfl
        · rw [← Location.shift_after line]
          rfl
      · rw [if_neg quote, if_neg quote]
        split <;> rfl

theorem Stuck.shift (h : Stuck here rest fault) (line : 0 < here.line) :
    Stuck (here.shift front) rest (fault.shift front) := by
  obtain ⟨c, cs, rfl, visible, faulty⟩ := h
  refine ⟨c, cs, rfl, visible, ?_⟩
  rw [firstPiece_shift line, faulty]
  rfl

/-- The tokens of a text that starts elsewhere, and its faults, are shifted. -/
theorem scan_shift (line : 0 < here.line) : scan (here.shift front) text =
    match scan here text with
    | .ok tokens => .ok (tokens.map (Token.shift front))
    | .error fault => .error (fault.shift front) := by
  obtain ⟨tokens, there, rest, lexes, rfl | ⟨fault, stuck⟩⟩ := scan_lexes here text
  · rw [lexes.scan_end, (lexes.shift line).scan_end]
    simp [Token.shift, Token.endAt]
  · obtain ⟨before, -, made, -⟩ := lexes.cut
    have line' : 0 < there.line := made ▸ Location.line_after line
    rw [lexes.scan_stuck stuck, (lexes.shift line).scan_stuck (stuck.shift line')]

end

/-- Behind a text that is divided into tokens and a blank, a text is divided as it is by itself. -/
theorem tokenize_append {front blanks file : String} {tokens : List Token}
    (divided : tokenize front file = .ok tokens) (blank : ∀ c ∈ blanks.toList, isBlank c = true)
    (some : blanks ≠ "") (source : String) : tokenize (front ++ blanks ++ source) file =
      match tokenize source file with
      | .ok tokens' =>
        .ok (tokens.filter (!·.isEnd) ++ tokens'.map (Token.shift (front ++ blanks).toList))
      | .error fault => .error (fault.shift (front ++ blanks).toList) := by
  obtain ⟨inner, rfl, lexes⟩ := lexes_of_scan divided
  have apart : Separated (blanks.toList ++ source.toList) := by
    intro c hc
    rcases mem_head?_append hc with hc | ⟨none, -⟩
    · exact blank c (List.mem_of_head? hc)
    · exact absurd (String.toList_eq_nil_iff.mp none) some
  have between : Lexes ((Location.atStart file).after front.toList) (blanks.toList ++ source.toList)
      [] (((Location.atStart file).after front.toList).after blanks.toList) source.toList :=
    Lexes.blanks blank
  have whole := (lexes.append apart).trans between
  have kept : (inner ++ [Token.endAt ((Location.atStart file).after front.toList)]).filter
      (!·.isEnd) = inner := by
    rw [List.filter_append, List.filter_eq_self.mpr fun t ht => ?_]
    · simp [Token.isEnd, Token.endAt]
    · obtain ⟨before, c, cs, piece, -, divides, rfl, -⟩ := lexes.mem ht
      simp [Token.isEnd, divides.isLexeme.inner]
  have start : ((Location.atStart file).after front.toList).after blanks.toList =
      (Location.atStart file).shift (front ++ blanks).toList := by
    rw [← Location.after_append, Location.after_atStart, Location.shift_atStart, String.toList_append]
  rw [List.append_nil, start] at whole
  rw [tokenize_eq_scan, String.toList_append, String.toList_append, List.append_assoc, whole.scan,
    scan_shift Nat.one_pos, kept, tokenize_eq_scan]
  cases scan (.atStart file) source.toList <;> simp

/-- Two texts that would be divided otherwise without the blank. -/
theorem tokenize_append_apart : ∃ tokens, tokenize "a\nb=" "f" = .ok tokens ∧
    (∀ c ∈ " ".toList, isBlank c = true) ∧
    tokenize ("a\nb=" ++ " " ++ ">\n1") "f" =
      match tokenize ">\n1" "f" with
      | .ok tokens' => .ok (tokens.filter (!·.isEnd) ++ tokens'.map (Token.shift ("a\nb=" ++ " ").toList))
      | .error fault => .error (fault.shift ("a\nb=" ++ " ").toList) := by
  have divided : (tokenize "a\nb=" "f").toBool = true := by decide
  have space : isBlank ' ' = true := by decide
  have blank : ∀ c ∈ " ".toList, isBlank c = true := by simpa using space
  cases h : tokenize "a\nb=" "f" with
  | error fault =>
    rw [h] at divided
    cases divided
  | ok tokens => exact ⟨tokens, rfl, blank, tokenize_append h blank (by decide) ">\n1"⟩

end GlyphScript
