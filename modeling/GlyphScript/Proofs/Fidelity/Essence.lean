import GlyphScript.Proofs.Token.Spelling

/-!
# What tokens say

Two texts of one program differ in parentheses, in marks that may be left out
and in lists without an item where a list may be left out. Without these the
tokens of a text are its essence. Tokens are alike if none can be told from the
other by the essence of a text that they stand in.
-/

namespace GlyphScript

/-- What a token is, and what it stands for. -/
structure Meaning where
  kind : TokenKind
  value? : Option String
  deriving DecidableEq, Repr

namespace Meaning

def mark (r : Reserved) : Meaning := ⟨.reserved r, none⟩

instance : Coe Reserved Meaning := ⟨mark⟩

def name (x : String) : Meaning := ⟨.identifier, some x⟩

def number (n : Nat) : Meaning := ⟨.number n, some (toString n)⟩

def text (s : String) : Meaning := ⟨.text s, some s⟩

end Meaning

def Token.meaning (t : Token) : Meaning := ⟨t.kind, t.value?⟩

def Word.meaning : Word → Meaning
  | (.reserved r, _) => r
  | (.identifier, x) => .name x
  | (.number n, _) => .number n
  | (.text s, _) => .text s
  | (.endOfInput, _) => ⟨.endOfInput, none⟩

theorem Token.meaning_eq (t : Token) : t.meaning = t.word.meaning := by
  obtain ⟨kind, lexeme, location, stop⟩ := t
  cases kind <;> rfl

/-! ## What may be left out -/

/-- Parentheses, and the marks that may be left out or are written out where they were. -/
def TokenKind.isDispensable : TokenKind → Bool
  | .endOfInput => true
  | .reserved r =>
    [.groupOpen, .groupClose, .macroInvoke, .phaseParse, .phaseExpand, .phaseCompile,
      .hygieneCapture, .hygieneIsolate, .hygieneInject].contains r
  | _ => false

/-- Where in a text one is, as far as a list may be left out there. -/
inductive Spot where
  /-- Behind what opens a construct with a name and a list that may be left out. -/
  | name
  /-- Where a list may be left out. -/
  | list
  | elsewhere
  deriving DecidableEq

/-- Where one is behind a token. -/
def Spot.after : Spot → TokenKind → Spot
  | _, .reserved .parallelOpen | _, .reserved .gpuOpen => .list
  | _, .reserved .tensorOpen | _, .reserved .classOpen => .name
  | .name, .identifier => .list
  | _, _ => .elsewhere

/-- Leaves out the lists without an item that may be left out. -/
def withoutEmptyLists : Spot → List Meaning → List Meaning
  | .list, ⟨.reserved .listOpen, _⟩ :: ⟨.reserved .listClose, _⟩ :: ms =>
    withoutEmptyLists .elsewhere ms
  | spot, m :: ms => m :: withoutEmptyLists (spot.after m.kind) ms
  | _, [] => []

/-- The meanings of tokens, without what may be left out or put in. -/
def essence (tokens : List Token) : List Meaning :=
  withoutEmptyLists .elsewhere ((tokens.map Token.meaning).filter (!·.kind.isDispensable))

/-! ## The core of words -/

/-- What words mean, without what may be left out wherever it stands. -/
def core (us : List Word) : List Meaning := (us.map Word.meaning).filter (!·.kind.isDispensable)

theorem core_append (us vs : List Word) : core (us ++ vs) = core us ++ core vs := by
  simp [core]

theorem essence_eq (tokens : List Token) :
    essence tokens = withoutEmptyLists .elsewhere (core (tokens.map Token.word)) := by
  simp only [essence, core, List.map_map]
  congr 3
  funext t
  exact t.meaning_eq

/-! ## Alike -/

section

variable {us vs ws : List Meaning}

/-- Wherever the meanings stand, the same is left when lists without an item are left out. -/
def Alike (us vs : List Meaning) : Prop := ∀ spot before behind,
  withoutEmptyLists spot (before ++ us ++ behind) = withoutEmptyLists spot (before ++ vs ++ behind)

namespace Alike

theorem refl (us : List Meaning) : Alike us us := fun _ _ _ => rfl

theorem of_eq (h : us = vs) : Alike us vs := h ▸ refl us

theorem symm (h : Alike us vs) : Alike vs us := fun spot before behind => (h spot before behind).symm

theorem trans (h : Alike us vs) (h' : Alike vs ws) : Alike us ws :=
  fun spot before behind => (h spot before behind).trans (h' spot before behind)

theorem append {us' vs' : List Meaning} (h : Alike us us') (h' : Alike vs vs') :
    Alike (us ++ vs) (us' ++ vs') := by
  intro spot before behind
  have front := h spot before (vs ++ behind)
  have back := h' spot (before ++ us') behind
  simp only [List.append_assoc] at front back ⊢
  exact front.trans back

theorem cons (m : Meaning) (h : Alike us vs) : Alike (m :: us) (m :: vs) := (refl [m]).append h

theorem flatMap {α : Type} {xs : List α} {f g : α → List Meaning}
    (h : ∀ x ∈ xs, Alike (f x) (g x)) : Alike (xs.flatMap f) (xs.flatMap g) := by
  induction xs with
  | nil => exact refl []
  | cons x xs ih =>
    rw [List.flatMap_cons, List.flatMap_cons]
    exact (h x List.mem_cons_self).append (ih fun y hy => h y (List.mem_cons_of_mem _ hy))

end Alike

attribute [local simp] withoutEmptyLists Spot.after

/-- Meanings are alike if the same is left of them wherever they are the first of a text. What
stands before them takes nothing away of their first, since it closes no list. -/
theorem alike_of_opener {opener : Meaning} (opens : opener.kind ≠ .reserved .listClose)
    (h : ∀ spot behind, withoutEmptyLists spot (opener :: us ++ behind) =
      withoutEmptyLists spot (opener :: vs ++ behind)) : Alike (opener :: us) (opener :: vs) := by
  intro spot before behind
  simp only [List.append_assoc]
  fun_induction withoutEmptyLists spot before with
  | case1 x y before ih =>
    simp only [List.cons_append, withoutEmptyLists]
    exact ih
  | case2 spot m before apart ih =>
    have step (zs : List Meaning) :
        withoutEmptyLists spot (m :: (before ++ (opener :: zs))) =
          m :: withoutEmptyLists (spot.after m.kind) (before ++ (opener :: zs)) := by
      rw [withoutEmptyLists.eq_def]
      split
      · rename_i heads
        exfalso
        cases before with
        | nil =>
          injection heads with _ heads
          injection heads with heads _
          exact opens (heads ▸ rfl)
        | cons m' before =>
          injection heads with here heads
          injection heads with next _
          exact apart _ _ _ rfl here (by rw [next])
      · rename_i heads
        cases heads
        rfl
      · rename_i heads
        cases heads
    simp only [List.cons_append]
    rw [step, step]
    congr 1
  | case3 spot => exact h spot behind

/-- A list without an item in front of a body may be left out where the construct says so. -/
theorem alike_emptyList {r : Reserved} (h : r = .parallelOpen ∨ r = .gpuOpen) :
    Alike ([Meaning.mark r] ++ [Meaning.mark .listOpen, .mark .listClose, .mark .bodyOpen])
      ([Meaning.mark r] ++ [Meaning.mark .bodyOpen]) := by
  rcases h with rfl | rfl <;>
    exact alike_of_opener (nofun) fun spot behind => by
      simp [Meaning.mark]

theorem alike_emptyListBehind {r : Reserved} (h : r = .tensorOpen ∨ r = .classOpen) (x : String) :
    Alike ([Meaning.mark r, .name x] ++ [Meaning.mark .listOpen, .mark .listClose, .mark .bodyOpen])
      ([Meaning.mark r, .name x] ++ [Meaning.mark .bodyOpen]) := by
  rcases h with rfl | rfl <;>
    exact alike_of_opener (nofun) fun spot behind => by
      simp [Meaning.mark, Meaning.name]

end

end GlyphScript
