import GlyphScript.Proofs.Spans.Placement
import GlyphScript.Proofs.Token.Scanning

/-!
# Tokens tile their source

The tokens of a text are slices of it, one behind the other with nothing but
blanks between them, and their places are those found by counting. A text that
is faulty at some place is divided into the same tokens in front of that place
if it ends there.
-/

namespace GlyphScript

/-- The tokens lie side by side in the text. -/
structure Tiles (file : String) (text : List Char) (tokens : List Token) : Prop where
  /-- Every token is the text from its start to its end. -/
  slices : ∀ t ∈ tokens, ∃ stop, t.stop = some stop ∧ t.location.offset ≤ stop.offset ∧
    stop.offset ≤ text.length ∧ t.lexeme.toList = (text.take stop.offset).drop t.location.offset
  inOrder : tokens.Pairwise fun t u => t.stopOrStart.offset ≤ u.location.offset
  /-- What no token covers is blank. -/
  blanks : ∀ i (h : i < text.length),
    (∀ t ∈ tokens, i < t.location.offset ∨ t.stopOrStart.offset ≤ i) → isBlank text[i] = true
  /-- All places are found by counting what is in front of them. -/
  places : ∀ t ∈ tokens, ∀ l, l = t.location ∨ t.stop = some l →
    l = .behind file (text.take l.offset)
  /-- The end of the input stands at the end of the text, and no other token is empty. -/
  ends : ∃ inner, tokens = inner ++ [Token.endAt (.behind file text)] ∧
    ∀ t ∈ inner, t.isEnd = false ∧ t.location.offset < t.stopOrStart.offset

section

variable {file : String} {text : List Char} {tokens : List Token}

/-- A token of a scan with the text in front of it and behind it. -/
theorem Lexes.slice {there : Location} {rest : List Char}
    (h : Lexes (.atStart file) text tokens there rest) {t : Token} (ht : t ∈ tokens) :
    ∃ before after, text = before ++ t.lexeme.toList ++ after ∧
      IsLexeme t.kind t.lexeme.toList ∧ t.location = .behind file before ∧
      t.stop = some (.behind file (before ++ t.lexeme.toList)) := by
  obtain ⟨before, c, cs, piece, rfl, divides, rfl, -⟩ := h.mem ht
  refine ⟨before, piece.rest, ?_, ?_, ?_, ?_⟩
  · simp [divides.whole]
  · simpa using divides.isLexeme
  · exact Location.after_atStart ..
  · simp [Location.after_atStart]

/-- What is covered by no token on the way is blank. -/
theorem Lexes.isBlank_of_apart {here there : Location} (h : Lexes here text tokens there []) {i : Nat}
    (hi : i < text.length) (apart : ∀ t ∈ tokens,
      here.offset + i < t.location.offset ∨ t.stopOrStart.offset ≤ here.offset + i) :
    isBlank text[i] = true := by
  generalize none : ([] : List Char) = rest at h
  induction h generalizing i with
  | done =>
    subst none
    cases hi
  | @blank here c text tokens there rest blank _ ih =>
    cases i with
    | zero => exact blank
    | succ i =>
      have step : (here.next c).offset + i = here.offset + (i + 1) := by
        have := Location.offset_after here [c]
        simp only [Location.after, List.foldl, List.length_singleton] at this
        omega
      exact ih (Nat.lt_of_succ_lt_succ hi) (step ▸ apart) none
  | @piece here c text piece tokens there rest _ divides _ ih =>
    obtain ⟨own, others⟩ := List.forall_mem_cons.mp apart
    simp only [Token.stopOrStart, Option.getD_some, Location.offset_after] at own
    obtain ⟨j, rfl⟩ := Nat.exists_eq_add_of_le (show piece.lexeme.length ≤ i by omega)
    have step : (here.after piece.lexeme).offset + j = here.offset + (piece.lexeme.length + j) := by
      rw [Location.offset_after, Nat.add_assoc]
    have whole := divides.whole
    simp only [whole, List.length_append] at hi ⊢
    rw [List.getElem_append_right (Nat.le_add_right ..)]
    simp only [Nat.add_sub_cancel_left]
    exact ih (by omega) (step ▸ others) none

theorem tiles_of_scan (h : scan (.atStart file) text = .ok tokens) : Tiles file text tokens := by
  obtain ⟨inner, rfl, lexes⟩ := lexes_of_scan h
  rw [Location.after_atStart] at *
  have each {P : Token → Prop} (own : P (Token.endAt (.behind file text)))
      (inside : ∀ before lexeme after kind, text = before ++ lexeme.toList ++ after →
        P ⟨kind, lexeme, .behind file before, some (.behind file (before ++ lexeme.toList))⟩) :
      ∀ t ∈ inner ++ [Token.endAt (.behind file text)], P t := by
    refine List.forall_mem_append.mpr ⟨fun t ht => ?_, List.forall_mem_singleton.mpr own⟩
    obtain ⟨before, after, whole, -, start, stop⟩ := lexes.slice ht
    have made : t = ⟨t.kind, t.lexeme, .behind file before,
        some (.behind file (before ++ t.lexeme.toList))⟩ := by
      rw [← start, ← stop]
    rw [made]
    exact inside before t.lexeme after t.kind whole
  refine ⟨each ?_ ?_, (scanFrom_inOrder h).2.apart, fun i hi apart => ?_, each ?_ ?_, inner, rfl, ?_⟩
  · exact ⟨_, rfl, le_refl _, le_refl _, by simp [Token.endAt]⟩
  · intro before lexeme after kind whole
    refine ⟨_, rfl, by simp, by simp [whole], ?_⟩
    rw [whole, Location.offset_behind, Location.offset_behind, List.take_left, List.drop_left]
  · refine lexes.isBlank_of_apart hi fun t ht => ?_
    have := apart t (List.mem_append_left _ ht)
    simpa [Location.atStart] using this
  · rintro l (rfl | hl)
    · simp [Token.endAt]
    · cases hl
      simp
  · rintro before lexeme after kind rfl l (rfl | hl)
    · simp
    · cases hl
      rw [Location.offset_behind, List.take_left]
  · intro t ht
    obtain ⟨before, after, -, lexeme, start, stop⟩ := lexes.slice ht
    obtain ⟨c, rest, spelled, -⟩ := lexeme.divided
    refine ⟨by simp [Token.isEnd, lexeme.inner], ?_⟩
    rw [start, Token.stopOrStart, stop]
    simp [spelled]

end

/-! ## Faults -/

/-- Where a fault starts that is reported with its place. -/
def LexFault.start? : LexFault → Option Location
  | .unexpectedCharacter _ _ location => some location
  | .unterminatedString span => some span.start
  | .numeralTooLong _ => none

theorem Stuck.start {here p : Location} {rest : List Char} {fault : LexFault}
    (h : Stuck here rest fault) (hp : fault.start? = some p) : p = here := by
  obtain ⟨c, cs, -, -, faulty⟩ := h
  unfold firstPiece at faulty
  dsimp only at faulty
  split at faulty
  · cases faulty
  · split at faulty
    · split at faulty <;> cases faulty
      cases hp
    · split at faulty
      · split at faulty <;> cases faulty
        exact (Option.some.inj hp).symm
      · split at faulty <;> cases faulty
        exact (Option.some.inj hp).symm

/-- The tokens of a source tile it. A source with a fault at some place goes through some tokens up
to that place, and these are the tokens of the source up to there. -/
theorem tokenize_tiles (source file : String) :
    (∀ tokens, tokenize source file = .ok tokens → Tiles file source.toList tokens) ∧
    ∀ fault p, tokenize source file = .error fault → fault.start? = some p →
      p = .behind file (source.toList.take p.offset) ∧
      ∃ formed, Lexes (.atStart file) source.toList formed p (source.toList.drop p.offset) ∧
        tokenize (String.ofList (source.toList.take p.offset)) file =
          .ok (formed ++ [Token.endAt p]) := by
  refine ⟨fun tokens h => tiles_of_scan h, fun fault p h hp => ?_⟩
  obtain ⟨formed, there, rest, lexes, stuck⟩ := stuck_of_scan h
  obtain rfl := stuck.start hp
  obtain ⟨front, whole, made, short⟩ := lexes.cut
  rw [Location.after_atStart] at made
  have taken : source.toList.take p.offset = front := by simp [whole, made]
  have dropped : source.toList.drop p.offset = rest := by simp [whole, made]
  rw [taken, dropped]
  refine ⟨made, formed, lexes, ?_⟩
  rw [tokenize_eq_scan, String.toList_ofList]
  exact short.scan_end

/-- An identifier, a mark and a string over two lines; the same with an unexpected character. -/
theorem tokenize_tiles_lines :
    (∃ tokens, tokenize "a\n [=]\"b\n\"" "f" = .ok tokens ∧
      Tiles "f" "a\n [=]\"b\n\"".toList tokens) ∧
    ∃ fault p, tokenize "a\n [=]§" "f" = .error fault ∧ fault.start? = some p ∧
      p = .behind "f" ("a\n [=]§".toList.take p.offset) ∧
      ∃ formed, Lexes (.atStart "f") "a\n [=]§".toList formed p ("a\n [=]§".toList.drop p.offset) ∧
        tokenize (String.ofList ("a\n [=]§".toList.take p.offset)) "f" =
          .ok (formed ++ [Token.endAt p]) := by
  constructor
  · have divided : (tokenize "a\n [=]\"b\n\"" "f").toBool = true := by decide
    cases h : tokenize "a\n [=]\"b\n\"" "f" with
    | error fault =>
      rw [h] at divided
      cases divided
    | ok tokens => exact ⟨tokens, rfl, (tokenize_tiles _ _).1 tokens h⟩
  · have h : tokenize "a\n [=]§" "f" = .error (.unexpectedCharacter '§' "§" ⟨"f", 2, 5, 6⟩) := by
      decide
    exact ⟨_, _, h, rfl, (tokenize_tiles _ _).2 _ _ h rfl⟩

end GlyphScript
