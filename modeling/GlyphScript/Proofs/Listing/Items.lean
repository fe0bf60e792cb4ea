import GlyphScript.Proofs.Printing.Lexemes

/-!
# Listings

A listing consists of words, quoted texts and rows in brackets. What is listed
can be read in one way only, whatever is written behind it.
-/

namespace GlyphScript

inductive Item where
  | word (x : String)
  | text (s : String)
  /-- Items in round or in square brackets with a space between each two. -/
  | row (round : Bool) (items : List Item)

/-! ## Words -/

/-- Whether the character may stand in a word: it is no blank, bracket or quote. -/
def isWordChar (c : Char) : Bool := !" ()[]\"".toList.contains c

structure IsBare (x : String) : Prop where
  ne_nil : x.toList ≠ []
  chars : ∀ c ∈ x.toList, isWordChar c = true

instance (x : String) : Decidable (IsBare x) :=
  decidable_of_iff (x.toList ≠ [] ∧ x.toList.all isWordChar = true)
    ⟨fun h => ⟨h.1, List.all_eq_true.mp h.2⟩, fun h => ⟨h.1, List.all_eq_true.mpr h.2⟩⟩

/-- Characters of a kind that no blank, bracket or quote is of may stand in words. -/
theorem isWordChar_of_apart {p : Char → Bool} (apart : " ()[]\"".toList.any p = false) {c : Char}
    (h : p c = true) : isWordChar c = true := by
  rw [isWordChar, Bool.not_eq_true', List.contains_eq_mem, decide_eq_false_iff_not]
  exact fun inside => List.any_eq_false.mp apart c inside h

/-- A word cannot go on here. -/
def EndsWord (cs : List Char) : Prop := ∀ c ∈ cs.head?, isWordChar c = false

theorem takeWhile_isWordChar {xs cs : List Char} (h : ∀ c ∈ xs, isWordChar c = true)
    (ends : EndsWord cs) : (xs ++ cs).takeWhile isWordChar = xs := by
  rw [List.takeWhile_append_of_pos h]
  cases cs with
  | nil => simp
  | cons c cs => simp [ends c rfl]

namespace Item

def opener (round : Bool) : Char := if round then '(' else '['

def closer (round : Bool) : Char := if round then ')' else ']'

theorem closer_inj {r r' : Bool} (h : closer r = closer r') : r = r' := by
  revert h
  cases r <;> cases r' <;> decide

theorem opener_inj {r r' : Bool} (h : opener r = opener r') : r = r' := by
  revert h
  cases r <;> cases r' <;> decide

theorem endsWord_closer (round : Bool) (cs : List Char) : EndsWord (closer round :: cs) := by
  rintro c ⟨⟩
  cases round <;> decide

/-! ## Writing -/

mutual

def written : Item → List Char
  | word x => x.toList
  | text s => '"' :: s.toList.flatMap escapeInString ++ ['"']
  | row round items => opener round :: (spaced items ++ [closer round])

/-- The items with a space between each two. -/
def spaced : List Item → List Char
  | [] => []
  | i :: is => written i ++ behind is

/-- The items with a space in front of each. -/
def behind : List Item → List Char
  | [] => []
  | i :: is => ' ' :: written i ++ behind is

end

theorem written_text_append (s : String) (cs : List Char) :
    (text s).written ++ cs = '"' :: (s.toList.flatMap escapeInString ++ '"' :: cs) := by
  simp [written]

theorem written_row_append (round : Bool) (is : List Item) (cs : List Char) :
    (row round is).written ++ cs = opener round :: (spaced is ++ closer round :: cs) := by
  simp [written]

theorem spaced_eq_intercalate (is : List Item) :
    spaced is = [' '].intercalate (is.map written) := by
  cases is with
  | nil => rfl
  | cons i is =>
    rw [spaced]
    induction is generalizing i with
    | nil => simp [behind, List.intercalate]
    | cons j is ih =>
      rw [behind, List.cons_append, ih]
      simp [List.intercalate]

/-! ## Reading -/

/-- Every word in the item is bare. -/
inductive Legible : Item → Prop where
  | word {x} : IsBare x → Legible (word x)
  | text {s} : Legible (text s)
  | row {round items} : (∀ i ∈ items, i.Legible) → Legible (row round items)

/-- What holds of an item as soon as it holds of those in it holds of every item. -/
theorem induction_on {P : Item → Prop} (word : ∀ x, P (word x)) (text : ∀ s, P (text s))
    (row : ∀ round items, (∀ i ∈ items, P i) → P (row round items)) : ∀ i, P i :=
  Item.rec word text row (List.forall_mem_nil _)
    fun _ _ first others => List.forall_mem_cons.mpr ⟨first, others⟩

variable {i j : Item} {is js : List Item} {s t : List Char}

theorem Legible.head (h : i.Legible) : ∃ c cs, i.written = c :: cs ∧ ∀ round, c ≠ closer round := by
  cases h with
  | @word x bare =>
    obtain ⟨c, cs, made⟩ := List.exists_cons_of_ne_nil bare.ne_nil
    refine ⟨c, cs, made, fun round e => ?_⟩
    have char := bare.chars c (made ▸ List.mem_cons_self)
    rw [e, endsWord_closer round [] _ rfl] at char
    cases char
  | text => exact ⟨_, _, rfl, fun round => by cases round <;> decide⟩
  | row => exact ⟨_, _, rfl, fun round => by rename_i r _ _; cases r <;> cases round <;> decide⟩

/-- What is read as the item is read in no other way. -/
def Unique (i : Item) : Prop := ∀ {j s t}, i.Legible → j.Legible → EndsWord s → EndsWord t →
  i.written ++ s = j.written ++ t → i = j ∧ s = t

theorem behind_inj {round round' : Bool} (unique : ∀ i ∈ is, i.Unique) (hi : ∀ i ∈ is, i.Legible)
    (hj : ∀ j ∈ js, j.Legible) (h : behind is ++ closer round :: s = behind js ++ closer round' :: t) :
    is = js ∧ round = round' ∧ s = t := by
  have ends (ks : List Item) (round : Bool) (s : List Char) :
      EndsWord (behind ks ++ closer round :: s) := by
    cases ks with
    | nil => exact endsWord_closer round s
    | cons k ks =>
      rintro c ⟨⟩
      decide
  have space (round : Bool) : closer round ≠ ' ' := by cases round <;> decide
  induction is generalizing js with
  | nil =>
    cases js with
    | nil =>
      obtain ⟨same, rest⟩ := List.cons.inj h
      exact ⟨rfl, closer_inj same, rest⟩
    | cons j js => exact absurd (List.cons.inj h).1 (space round)
  | cons i is ih =>
    cases js with
    | nil => exact absurd (List.cons.inj h).1.symm (space round')
    | cons j js =>
      obtain ⟨first, others⟩ := List.forall_mem_cons.mp unique
      obtain ⟨li, his⟩ := List.forall_mem_cons.mp hi
      obtain ⟨lj, hjs⟩ := List.forall_mem_cons.mp hj
      rw [behind, behind, List.cons_append, List.cons_append, List.append_assoc,
        List.append_assoc] at h
      obtain ⟨same, rest⟩ := first li lj (ends is round s) (ends js round' t) (List.cons.inj h).2
      obtain ⟨same', rest⟩ := ih others his hjs rest
      exact ⟨same ▸ same' ▸ rfl, rest⟩

theorem spaced_inj {round round' : Bool} (unique : ∀ i ∈ is, i.Unique) (hi : ∀ i ∈ is, i.Legible)
    (hj : ∀ j ∈ js, j.Legible) (h : spaced is ++ closer round :: s = spaced js ++ closer round' :: t) :
    is = js ∧ round = round' ∧ s = t := by
  cases is with
  | nil =>
    cases js with
    | nil => exact behind_inj (List.forall_mem_nil _) hi hj h
    | cons j js =>
      obtain ⟨c, cs, made, inner⟩ := (hj j List.mem_cons_self).head
      rw [spaced, spaced, made] at h
      exact absurd (List.cons.inj h).1.symm (inner round)
  | cons i is =>
    cases js with
    | nil =>
      obtain ⟨c, cs, made, inner⟩ := (hi i List.mem_cons_self).head
      rw [spaced, spaced, made] at h
      exact absurd (List.cons.inj h).1 (inner round')
    | cons j js =>
      refine behind_inj unique hi hj ?_
      rw [behind, behind, List.cons_append, List.cons_append]
      exact congrArg (' ' :: ·) h

theorem isWordChar_of_bare {x : String} {c : Char} (h : IsBare x) (e : x.toList ++ s = c :: t) :
    isWordChar c = true := by
  obtain ⟨d, ds, made⟩ := List.exists_cons_of_ne_nil h.ne_nil
  rw [made] at e
  exact (List.cons.inj e).1 ▸ h.chars d (made ▸ List.mem_cons_self)

theorem not_isWordChar_opener (round : Bool) : isWordChar (opener round) = false := by
  cases round <;> decide

/-- A word, a quoted text and a row start with different characters, and each ends where it can go
on no longer. -/
theorem unique (i : Item) : i.Unique := by
  have quote : isWordChar '"' = false := by decide
  have bracket (round : Bool) : '"' ≠ opener round := by cases round <;> decide
  have different {x : String} {c : Char} {s t : List Char} (hx : IsBare x)
      (hc : isWordChar c = false) (e : x.toList ++ s = c :: t) : False := by
    rw [isWordChar_of_bare hx e] at hc
    cases hc
  induction i using induction_on with
  | word x =>
    intro j s t hi hj hs ht h
    obtain ⟨hx⟩ := hi
    cases hj with
    | @word y hy =>
      have same : x.toList = y.toList := by
        rw [← takeWhile_isWordChar hx.chars hs, ← takeWhile_isWordChar hy.chars ht]
        exact congrArg _ h
      obtain rfl := String.toList_inj.mp same
      exact ⟨rfl, List.append_cancel_left h⟩
    | text => exact (different hx quote h).elim
    | row => exact (different hx (not_isWordChar_opener _) h).elim
  | text u =>
    intro j s t hi hj hs ht h
    cases hj with
    | word hx => exact (different hx quote h.symm).elim
    | @text v =>
      rw [written_text_append, written_text_append] at h
      have same := congrArg stringBody (List.cons.inj h).2
      rw [stringBody_escaped, stringBody_escaped] at same
      obtain ⟨same, rest⟩ := Prod.mk.inj (Option.some.inj same)
      obtain rfl := String.toList_inj.mp same
      exact ⟨rfl, (Prod.mk.inj rest).2⟩
    | row => exact absurd (List.cons.inj h).1 (bracket _)
  | row round is ih =>
    intro j s t hi hj hs ht h
    obtain ⟨⟩ | ⟨⟩ | his := hi
    cases hj with
    | word hx => exact (different hx (not_isWordChar_opener _) h.symm).elim
    | text => exact absurd (List.cons.inj h).1.symm (bracket _)
    | @row round' js hjs =>
      rw [written_row_append, written_row_append] at h
      obtain ⟨rfl, rfl, rest⟩ := spaced_inj ih his hjs (List.cons.inj h).2
      exact ⟨rfl, rest⟩

/-- Legible items that are written alike are the same. -/
theorem written_inj (hi : i.Legible) (hj : j.Legible) (h : i.written = j.written) : i = j := by
  have none : EndsWord [] := fun _ e => nomatch e
  exact (unique i hi hj none none (congrArg (· ++ []) h)).1

end Item

end GlyphScript
