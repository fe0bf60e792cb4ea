import GlyphScript.Compilation
import GlyphScript.Proofs.Macro.Fixpoint
import GlyphScript.Proofs.Printing.Lexemes

/-!
# Compiled units

What a compilation that succeeds has gone through, and the units of which the
tokens are known.
-/

namespace GlyphScript

namespace UnitState

/-- The state of a unit whose tokens are known. -/
def ofTokens (settings : Settings) (tokens : List Token) (checks : Option Nat) : UnitState :=
  { start (Gensym.ofNames settings.separator (identifierNames tokens)) checks with
    log := [.tokenized settings.file tokens.length] }

end UnitState

section

variable {settings : Settings} {source : String} {checks : Option Nat}

theorem Work.unitTokens_ok {tokens : List Token} {u : UnitState}
    (h : (unitTokens settings source).run (UnitState.ofSettings settings checks) = (.ok tokens, u)) :
    tokenize source settings.file = .ok tokens ∧
      ∃ left, u = UnitState.ofTokens settings tokens left := by
  obtain ⟨_, u₁, checked, h⟩ := bind_ok.mp h
  obtain ⟨tokens', u₂, divided, h⟩ := bind_ok.mp h
  have started : ∃ left, u₁ = { UnitState.ofSettings settings checks with checks := left } := by
    unfold checkpoint at checked
    rcases checks with _ | _ | k <;> cases checked <;> exact ⟨_, rfl⟩
  obtain ⟨left, rfl⟩ := started
  unfold Work.tokens at divided
  cases scanned : tokenize source settings.file with
  | error f =>
    rw [scanned] at divided
    cases divided
  | ok ts =>
    rw [scanned] at divided
    cases divided
    cases h
    exact ⟨rfl, left, rfl⟩

/-- A program is read, and then expanded unless it is to be left as it is. -/
theorem Work.unitProgram_ok {tokens : List Token} {u u' : UnitState} {n : Node}
    (h : (unitProgram settings tokens).run u = (.ok n, u')) : ∃ program done,
      Parser.program settings (ParserState.start u tokens) = (.ok program, done) ∧
      (n = program ∧ u'.registry = done.unit.registry ∨
        ∃ v v', v.registry = done.unit.registry ∧ v.gensym = done.unit.gensym ∧
          (expand settings program).run v = (.ok n, v') ∧ u'.registry = v'.registry) := by
  obtain ⟨program, u₁, parsed, h⟩ := bind_ok.mp h
  obtain ⟨_, _, got, h⟩ := bind_ok.mp h
  cases got
  obtain ⟨_, u₂, reported, h⟩ := bind_ok.mp h
  cases reported
  obtain ⟨done, read, rfl⟩ := parse_ok parsed
  refine ⟨program, done, read, ?_⟩
  split at h
  · obtain ⟨n', u₃, expanded, h⟩ := bind_ok.mp h
    obtain ⟨_, _, got, h⟩ := bind_ok.mp h
    cases got
    obtain ⟨_, u₄, reported, h⟩ := bind_ok.mp h
    cases reported
    cases h
    let log := .unitParsed settings.file done.unit.registry.size :: done.unit.log
    exact .inr ⟨{ done.unit with log }, u₃, rfl, rfl, expanded, rfl⟩
  · cases h
    exact .inl ⟨rfl, rfl⟩

/-- A unit that compiles is divided into tokens, and these are a program that is expanded. -/
theorem compile_ok {n : Node} (h : (compile settings source checks).result = .ok n) :
    ∃ tokens left s, tokenize source settings.file = .ok tokens ∧
      (Work.unitProgram settings tokens).run (UnitState.ofTokens settings tokens left) = (.ok n, s) ∧
      (compile settings source checks).state = s := by
  unfold compile at h ⊢
  split at h
  · cases h
  · rename_i tokens u started
    obtain ⟨scanned, left, rfl⟩ := Work.unitTokens_ok started
    exact ⟨tokens, left, _, scanned, Prod.ext h rfl, rfl⟩

/-- The compilation of a unit whose tokens are known. -/
theorem compile_of_tokenize {tokens : List Token} (h : tokenize source settings.file = .ok tokens) :
    compile settings source none =
      let run := (Work.unitProgram settings tokens).run (UnitState.ofTokens settings tokens none)
      ⟨run.1, tokens, run.2⟩ := by
  have started : (Work.unitTokens settings source).run (UnitState.ofSettings settings none) =
      (.ok tokens, UnitState.ofTokens settings tokens none) := by
    unfold Work.unitTokens Work.tokens
    rw [h]
    rfl
  unfold compile
  rw [started]
  rfl

end

/-! ## Words on a line -/

theorem ok_of_toOption {ε α : Type} {x : Except ε α} {a : α} (h : x.toOption = some a) :
    x = .ok a := by
  cases x <;> cases h
  rfl

namespace Word

def mark (r : Reserved) : Word := (.reserved r, r.spelling)

def name (x : String) : Word := (.identifier, x)

def number (n : Nat) : Word := (.number n, toString n)

/-- Marks, names and numbers as they are spelled. -/
def Spelled : Word → Prop
  | (.reserved r, x) => x = r.spelling
  | (.identifier, x) => lexesAsIdentifier x = true
  | (.number n, x) => x = toString n ∧ (Nat.toDigits 10 n).length ≤ maxNumeralLength
  | _ => False

theorem Spelled.isLexeme {w : Word} (h : w.Spelled) : IsLexeme w.1 w.2.toList :=
  match w, h with
  | (.reserved r, _), rfl => isLexeme_reserved r
  | (.identifier, _), lexes => isLexeme_name lexes
  | (.number _, _), ⟨rfl, short⟩ => isLexeme_numeral short

theorem Spelled.visible {w : Word} (h : w.Spelled) : AllVisible w.2.toList := by
  match w, h with
  | (.reserved r, _), rfl => exact r.spelling_spec.1
  | (.identifier, x), lexes =>
    rw [Spelled, lexesAsIdentifier] at lexes
    split at lexes
    · cases lexes
    · rename_i c rest made
      rw [made]
      exact allVisible_of_run (Bool.and_eq_true_iff.mp lexes).2
  | (.number n, _), ⟨rfl, _⟩ =>
    show AllVisible (String.ofList (Nat.toDigits 10 n)).toList
    rw [String.toList_ofList]
    intro c hc
    have digit := Nat.isDigit_of_mem_toDigits (by decide) (by decide) hc
    exact isVisible_of_isAsciiDigit (by simpa [Char.isDigit, isAsciiDigit, Char.le_def] using digit)

/-- The place behind a word that starts `offset` characters behind the start of a file. -/
theorem Spelled.after {w : Word} (h : w.Spelled) (file : String) (offset : Nat) :
    (⟨file, 1, offset + 1, offset⟩ : Location).after w.2.toList =
      ⟨file, 1, offset + w.2.length + 1, offset + w.2.length⟩ := by
  rw [Location.after_visible h.visible, String.length_toList, Nat.add_right_comm]

end Word

/-- The tokens of a line of words with a blank between any two, from the first word on. -/
def lineTokens (file : String) : (offset : Nat) → List Word → List Token
  | offset, [] => [.endAt ⟨file, 1, offset, offset - 1⟩]
  | offset, (kind, lexeme) :: words =>
    let stop := offset + lexeme.length
    ⟨kind, lexeme, ⟨file, 1, offset + 1, offset⟩, some ⟨file, 1, stop + 1, stop⟩⟩ ::
      lineTokens file (stop + 1) words

/-- A line of words with a blank between any two is divided into the tokens of the line. -/
theorem scanFrom_line (file : String) {w : Word} {words : List Word}
    (spelled : ∀ v ∈ w :: words, v.Spelled) (fuel offset : Nat)
    (enough : (" ".intercalate ((w :: words).map (·.2))).toList.length < fuel) :
    scanFrom fuel ⟨file, 1, offset + 1, offset⟩ (" ".intercalate ((w :: words).map (·.2))).toList =
      .ok (lineTokens file offset (w :: words)) := by
  induction words generalizing w fuel offset with
  | nil =>
    obtain ⟨fuel, rfl⟩ := Nat.exists_eq_add_one_of_ne_zero (Nat.ne_zero_of_lt enough)
    have here := spelled w List.mem_cons_self
    rw [List.map_singleton, String.intercalate_singleton, ← List.append_nil w.2.toList,
      scanFrom_word fuel _ here.isLexeme separated_nil, here.after]
    cases fuel <;> rfl
  | cons v words ih =>
    obtain ⟨here, below⟩ := List.forall_mem_cons.mp spelled
    have whole : (" ".intercalate ((w :: v :: words).map (·.2))).toList =
        w.2.toList ++ ' ' :: (" ".intercalate ((v :: words).map (·.2))).toList := by
      simp
    rw [whole, List.length_append, List.length_cons] at enough
    obtain ⟨fuel, rfl⟩ : ∃ k, fuel = k + 2 := ⟨fuel - 2, by omega⟩
    have blank : isBlank ' ' = true := by decide
    have next := ih below (fuel + 1) (offset + w.2.length + 1) (by omega)
    have behind : (⟨file, 1, offset + w.2.length + 1, offset + w.2.length⟩ : Location).next ' ' =
      ⟨file, 1, offset + w.2.length + 1 + 1, offset + w.2.length + 1⟩ := rfl
    rw [whole, scanFrom_word (fuel + 1) _ here.isLexeme (separated_cons blank), here.after]
    dsimp only
    rw [scanFrom_blank _ _ _ blank, behind, next]
    rfl

theorem tokenize_line (file : String) {words : List Word} (inhabited : words ≠ [])
    (spelled : ∀ w ∈ words, w.Spelled) :
    tokenize (" ".intercalate (words.map (·.2))) file = .ok (lineTokens file 0 words) := by
  obtain ⟨w, words, rfl⟩ := List.exists_cons_of_ne_nil inhabited
  exact scanFrom_line file spelled _ 0 (Nat.lt_succ_self _)

end GlyphScript
