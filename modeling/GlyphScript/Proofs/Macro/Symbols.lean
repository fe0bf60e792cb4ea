import GlyphScript.Proofs.Macro.Fresh
import GlyphScript.Proofs.Token.Munch
import Mathlib.Data.List.Infix

/-!
# Symbols as names

A symbol is made of a name, a separator and a number. With the percent sign as
the separator no reserved token starts where they meet, so that a symbol made
from an identifier is one itself.
-/

namespace GlyphScript

/-! ## Spellings that stop short -/

namespace Reserved

theorem chars_ne_percent (r : Reserved) : r.chars ≠ ['%'] := by
  have all : ∀ r ∈ all, r.chars ≠ ['%'] := by decide
  exact all r r.mem_all

/-- A token that does not hold the character ends in front of it. -/
theorem prefix_front {r : Reserved} {front behind : List Char} {c : Char}
    (h : r.chars <+: front ++ c :: behind) (apart : c ∉ r.chars) : r.chars <+: front := by
  rcases Nat.lt_or_ge front.length r.chars.length with longer | shorter
  · have through : front ++ [c] <+: r.chars := by
      refine List.prefix_of_prefix_length_le ⟨behind, by simp⟩ h ?_
      rw [List.length_append]
      exact longer
    exact absurd (through.subset (by simp)) apart
  · exact List.prefix_of_prefix_length_le h (List.prefix_append front _) shorter

end Reserved

/-! ## Runs of identifier characters -/

namespace IsRun

variable {base digits : List Char}

theorem nil_iff : IsRun base [] ↔ (∀ c ∈ base, isIdentifierChar c = true) ∧
    ∀ x y, base = x ++ y → y ≠ [] → ∀ r : Reserved, ¬ r.chars <+: y := by
  simp only [IsRun, List.append_nil, Reserved.longestMatch?_isNone]

theorem of_append {behind : List Char} (h : IsRun (base ++ behind) []) : IsRun base [] := by
  rw [nil_iff] at h ⊢
  refine ⟨fun c hc => h.1 c (List.mem_append_left _ hc), fun x y made some r hr => ?_⟩
  refine h.2 x (y ++ behind) ?_ (by simp [some]) r (hr.trans (List.prefix_append y behind))
  rw [made, List.append_assoc]

/-- No token starts with a digit. -/
theorem digits_free (hd : ∀ d ∈ digits, isAsciiDigit d = true) {x y : List Char}
    (made : digits = x ++ y) (some : y ≠ []) (r : Reserved) : ¬ r.chars <+: y := by
  intro hr
  obtain ⟨d, y, rfl⟩ := List.exists_cons_of_ne_nil some
  have digit : isAsciiDigit d = true := hd d (by simp [made])
  have none : r.chars <+: [] :=
    @Reserved.prefix_front _ [] _ _ hr fun mem => by
      rw [(r.chars_plain d mem).2.1] at digit
      cases digit
  exact r.spelling_spec.2.1 (List.prefix_nil.mp none)

theorem identifierChar_of_isAsciiDigit {c : Char} (h : isAsciiDigit c = true) :
    isIdentifierChar c = true := by
  simp [isIdentifierChar, h]

/-- Where one digit may stand behind a percent sign, any number may. -/
theorem number (hd : ∀ d ∈ digits, isAsciiDigit d = true) (some : digits ≠ [])
    (h : IsRun (base ++ '%' :: ['1']) []) : IsRun (base ++ '%' :: digits) [] := by
  rw [nil_iff] at h ⊢
  obtain ⟨chars, free⟩ := h
  constructor
  · intro c hc
    rcases List.mem_append.mp hc with hc | hc
    · exact chars c (List.mem_append_left _ hc)
    · rcases List.mem_cons.mp hc with rfl | hc
      · exact chars _ (by simp)
      · exact identifierChar_of_isAsciiDigit (hd c hc)
  · intro x y made tail r hr
    rcases List.append_eq_append_iff.mp made with ⟨z, -, made⟩ | ⟨z, rfl, rfl⟩
    · cases z with
      | nil =>
        obtain rfl : '%' :: digits = y := made
        obtain ⟨d, digits, rfl⟩ := List.exists_cons_of_ne_nil some
        have short := @Reserved.prefix_front _ ['%'] _ _ hr fun mem => by
          have digit := hd d List.mem_cons_self
          rw [(r.chars_plain d mem).2.1] at digit
          cases digit
        exact free base ['%', '1'] rfl (List.cons_ne_nil _ _) r (short.trans ⟨['1'], rfl⟩)
      | cons c z =>
        obtain ⟨-, made⟩ := List.cons.inj made
        exact digits_free hd made tail r hr
    · obtain ⟨d, digits, rfl⟩ := List.exists_cons_of_ne_nil some
      have hr : r.chars <+: (z ++ ['%']) ++ d :: digits := by simpa using hr
      have short := Reserved.prefix_front hr fun mem => by
        have digit := hd d List.mem_cons_self
        rw [(r.chars_plain d mem).2.1] at digit
        cases digit
      refine free x (z ++ ['%', '1']) (by simp) (by simp) r (short.trans ⟨['1'], by simp⟩)

/-- Behind an underscore a percent sign and a number may always stand. -/
theorem underscored (hd : ∀ d ∈ digits, isAsciiDigit d = true) (some : digits ≠ [])
    (h : IsRun base []) : IsRun (base ++ '_' :: '%' :: digits) [] := by
  have marked : IsRun (base ++ ['_'] ++ '%' :: ['1']) [] := by
    rw [nil_iff] at h ⊢
    obtain ⟨chars, free⟩ := h
    constructor
    · intro c hc
      simp only [List.append_assoc, List.mem_append] at hc
      rcases hc with hc | hc
      · exact chars c hc
      · simp only [List.mem_cons, List.not_mem_nil, or_false] at hc
        rcases hc with rfl | rfl | rfl <;> decide
    · intro x y made tail r hr
      rw [List.append_assoc] at made
      rcases List.append_eq_append_iff.mp made with ⟨z, -, made⟩ | ⟨z, rfl, rfl⟩
      · have none : ∀ y ∈ ['_', '%', '1'].tails, y ≠ [] → ∀ r ∈ Reserved.all, ¬ r.chars <+: y := by
          decide
        exact none y ((List.mem_tails _ _).mpr ⟨z, made.symm⟩) tail r r.mem_all hr
      · have hr : r.chars <+: z ++ '_' :: ['%', '1'] := by simpa using hr
        have short := Reserved.prefix_front hr fun mem => (r.chars_plain _ mem).2.2.1 rfl
        cases z with
        | nil => exact r.spelling_spec.2.1 (List.prefix_nil.mp short)
        | cons c z => exact free x (c :: z) rfl (List.cons_ne_nil _ _) r short
  have := marked.number hd some
  rwa [List.append_assoc] at this

end IsRun

/-- A name is an identifier if it starts as one and runs on as one. -/
theorem lexesAsIdentifier_iff_isRun {x : String} : lexesAsIdentifier x = true ↔
    (∃ c ∈ x.toList.head?, isIdentifierStart c = true) ∧ IsRun x.toList [] := by
  unfold lexesAsIdentifier
  cases x.toList with
  | nil => simp
  | cons c cs => simp [identifierRun_iff]

/-! ## Symbols -/

namespace Gensym

variable {g : Gensym}

theorem prefix_of_baseChars? {separator cs base : List Char} (h : baseChars? separator cs = some base) :
    base <+: cs := by
  induction cs generalizing base with
  | nil => cases h
  | cons c cs ih =>
    unfold baseChars? at h
    split at h
    · rename_i inner found
      cases h
      split at found
      · cases found
      · exact List.cons_prefix_cons.mpr ⟨rfl, ih found⟩
    · split at h
      · cases h
        exact List.nil_prefix
      · cases h

theorem prefix_baseOf (g : Gensym) (name : String) : (g.baseOf name).toList <+: name.toList := by
  unfold baseOf
  cases h : baseChars? g.separator.toList name.toList with
  | none => exact List.prefix_rfl
  | some base =>
    rw [Option.elim, String.toList_ofList]
    exact prefix_of_baseChars? h

theorem toList_symbol (percent : g.separator = "%") (base : String) (number : Nat) :
    (g.symbol base number).toList = base.toList ++ '%' :: Nat.toDigits 10 number := by
  have digits : (toString number).toList = Nat.toDigits 10 number := by
    rw [Nat.toString_eq_ofList_toDigits, String.toList_ofList]
  show (base ++ g.separator ++ toString number).toList = _
  rw [String.toList_append, String.toList_append, percent, digits, List.append_assoc]
  rfl

theorem digits_of_toDigits (number : Nat) :
    ∀ d ∈ Nat.toDigits 10 number, isAsciiDigit d = true := by
  intro d hd
  have := Nat.isDigit_of_mem_toDigits (by decide) (by decide) hd
  simpa [Char.isDigit, isAsciiDigit, Char.le_def] using this

/-- A symbol made from an identifier is an identifier. -/
theorem lexes_symbol (percent : g.separator = "%") {name : String}
    (h : lexesAsIdentifier name = true) (number : Nat) :
    lexesAsIdentifier (g.symbol (g.symbolBase name) number) = true := by
  have digits := digits_of_toDigits number
  have some : Nat.toDigits 10 number ≠ [] := Nat.toDigits_ne_nil
  rw [lexesAsIdentifier_iff_isRun] at h ⊢
  obtain ⟨⟨c, first, start⟩, run⟩ := h
  unfold symbolBase
  dsimp only
  split
  · rename_i short
    rw [lexesAsIdentifier_iff_isRun, toList_symbol percent] at short
    rw [toList_symbol percent]
    obtain ⟨⟨c, first, start⟩, run⟩ := short
    refine ⟨⟨c, ?_, start⟩, run.number digits some⟩
    cases hb : (g.baseOf name).toList <;> rw [hb] at first <;> exact first
  · rw [toList_symbol percent, String.toList_append]
    obtain ⟨behind, whole⟩ := g.prefix_baseOf name
    rw [← whole] at first run
    constructor
    · cases hb : (g.baseOf name).toList with
      | nil => exact ⟨'_', rfl, by decide⟩
      | cons d base =>
        rw [hb] at first
        exact ⟨c, first, start⟩
    · have := run.of_append.underscored digits some
      simpa using this

theorem lexes_fresh (percent : g.separator = "%") {name : String}
    (h : lexesAsIdentifier name = true) : lexesAsIdentifier (g.fresh name).1 = true :=
  lexes_symbol percent h _

theorem separator_fresh (g : Gensym) (name : String) : (g.fresh name).2.separator = g.separator :=
  rfl

end Gensym

end GlyphScript
