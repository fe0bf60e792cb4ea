import GlyphScript.Proofs.Parsing.Advance
import Mathlib.Logic.Relation

/-!
# Nested delimiters

A stack machine reads the delimiters of constructs on their own and knows nothing of
the grammar. After each step of the parser, what the parser holds open is what this
machine holds open after the tokens read so far, but for those of a pattern that is
being read. So a program that is read has its delimiters nested.
-/

namespace GlyphScript

open GlyphScript.Parser

/-! ## Delimiters -/

namespace Construct

def ofOpener? (r : Reserved) : Option Construct := all.find? (·.opener = r)

def ofCloser? (r : Reserved) : Option Construct := all.find? (·.closer = r)

theorem ofOpener?_opener (c : Construct) : ofOpener? c.opener = some c := by
  cases c <;> rfl

theorem ofCloser?_closer (c : Construct) :
    ofOpener? c.closer = none ∧ ofCloser? c.closer = some c := by
  cases c <;> exact ⟨rfl, rfl⟩

end Construct

/-- Whether the token opens or closes a construct. -/
def Reserved.isDelimiter (r : Reserved) : Bool :=
  (Construct.ofOpener? r).isSome || (Construct.ofCloser? r).isSome

namespace Frames

/-- What is open after a token: an opener is put on the stack, and a closer has to fit the
innermost construct. -/
def step (frames : Frames) (t : Token) : Option Frames :=
  match t.reserved?.bind Construct.ofOpener?, t.reserved?.bind Construct.ofCloser? with
  | some c, _ => some (⟨c, t⟩ :: frames)
  | none, none => some frames
  | none, some c =>
    match frames with
    | [] => none
    | frame :: outer => if frame.construct = c then some outer else none

/-- What is open after tokens, if each closer among them fits. -/
def nest (frames : Frames) (tokens : List Token) : Option Frames := tokens.foldlM step frames

variable {F G H : Frames} {t : Token} {us vs : List Token}

theorem nest_append : F.nest (us ++ vs) = (F.nest us).bind (·.nest vs) := by
  rw [nest, List.foldlM_append]
  rfl

theorem nest_append_of (h : F.nest us = some G) : F.nest (us ++ vs) = G.nest vs := by
  rw [nest_append, h]
  rfl

theorem nest_snoc (h : F.nest us = some G) : F.nest (us ++ [t]) = G.step t := by
  rw [nest_append_of h, nest, List.foldlM_cons]
  cases G.step t <;> rfl

theorem step_opener {c : Construct} (h : t.isReserved c.opener = true) :
    F.step t = some (⟨c, t⟩ :: F) := by
  rw [step, isReserved_iff.mp h, Option.bind_some, Construct.ofOpener?_opener]

theorem step_closer {c : Construct} {u : Token} (h : t.isReserved c.closer = true) :
    step (⟨c, u⟩ :: F) t = some F := by
  obtain ⟨opens, closes⟩ := c.ofCloser?_closer
  rw [step, isReserved_iff.mp h, Option.bind_some, Option.bind_some, opens, closes]
  exact if_pos rfl

theorem step_other (h : t.reserved?.any Reserved.isDelimiter = false) : F.step t = some F := by
  have opens : t.reserved?.bind Construct.ofOpener? = none ∧
      t.reserved?.bind Construct.ofCloser? = none := by
    cases hr : t.reserved? with
    | none => exact ⟨rfl, rfl⟩
    | some r =>
      rw [hr] at h
      simpa [Reserved.isDelimiter] using h
  rw [step, opens.1, opens.2]

/-- What is open around tokens does not matter to them. -/
theorem step_under (h : G.step t = some H) : step (G ++ F) t = some (H ++ F) := by
  unfold step at h ⊢
  split at h
  · cases h
    rfl
  · cases h
    rfl
  · split at h
    · cases h
    · rw [List.cons_append]
      split at h
      · cases h
        exact if_pos ‹_›
      · cases h

theorem nest_under (h : G.nest us = some H) : nest (G ++ F) us = some (H ++ F) := by
  induction us generalizing G with
  | nil =>
    cases h
    rfl
  | cons t us ih =>
    rw [nest, List.foldlM_cons] at h ⊢
    obtain ⟨G', first, rest⟩ := Option.bind_eq_some_iff.mp h
    rw [step_under first]
    exact ih rest

end Frames

/-! ## Steps -/

/-- A step of the parser reads one token at most, and opens or closes one construct at most. -/
inductive ParserState.Step (s s' : ParserState) : Prop where
  | stay (rest : s'.rest = s.rest) (frames : s'.frames = s.frames)
  | pass (t : Token) (rest : s.rest = t :: s'.rest) (frames : s'.frames = s.frames)
  | opens (c : Construct) (t : Token) (token : t.isReserved c.opener = true)
    (rest : s.rest = t :: s'.rest) (frames : s'.frames = ⟨c, t⟩ :: s.frames)
  /-- A closer closes a construct of its own kind, which is the innermost. -/
  | closes (c : Construct) (t u : Token) (token : t.isReserved c.closer = true)
    (rest : s.rest = t :: s'.rest) (frames : s.frames = ⟨c, u⟩ :: s'.frames)

/-- The marks behind which a pattern stands. -/
def Reserved.introducesPattern (r : Reserved) : Bool := [caseArm, exceptArm, ruleOpen].contains r

/-- The marks of composite patterns. -/
def Reserved.inPattern (r : Reserved) : Bool :=
  [listOpen, listClose, tensorLitOpen, tensorLitClose, nnOpen, nnClose, streamOpen, streamClose,
    separator].contains r

/-- Whether a pattern may hold the token. -/
def Token.inPattern (t : Token) : Bool :=
  (Nonterminals.atomicPattern? t).isSome || t.reserved?.any Reserved.inPattern

theorem Token.inPattern_mark {t : Token} {r : Reserved} (h : t.reserved? = some r)
    (inside : r.inPattern = true) : t.inPattern = true := by
  rw [inPattern, h, Bool.or_eq_true]
  exact .inr inside

/-- Where the parser stands: outside of patterns, or in one of which it has `brackets` open. -/
inductive Place where
  | outside
  | pattern (brackets : Frames)

namespace Place

/-- Outside of patterns the constructs open are those that the tokens read so far leave open. In a
pattern they are those that the tokens up to the mark in front of it leave open, and the tokens of
the pattern leave its brackets open. -/
def Holds (tokens : List Token) (s : ParserState) : Place → Prop
  | outside => ∃ read, tokens = read ++ s.rest ∧ Frames.nest [] read = some s.frames
  | pattern brackets => ∃ before mark inside, tokens = before ++ mark :: inside ++ s.rest ∧
    mark.reserved?.any Reserved.introducesPattern = true ∧
    Frames.nest [] (before ++ [mark]) = some s.frames ∧
    (∀ t ∈ inside, t.inPattern = true) ∧ Frames.nest [] inside = some brackets

/-- The place in front of a pattern, if one is due. -/
def ofDue (due : Bool) : Place := if due then pattern [] else outside

end Place

/-- What is open is what the tokens read so far leave open, but for the brackets of a pattern that is
being read. -/
def Balanced (tokens : List Token) (s : ParserState) : Prop := ∃ p : Place, p.Holds tokens s

/-- A run in which the state is balanced after every step. -/
def BalancedRun (tokens : List Token) : ParserState → ParserState → Prop :=
  Relation.ReflTransGen fun s s' => s.Step s' ∧ Balanced tokens s'

/-! ## Reading tokens -/

namespace Place

variable {tokens : List Token} {s s' : ParserState} {p : Place} {F G : Frames} {due due' : Bool}

theorem Holds.balanced (h : p.Holds tokens s) : Balanced tokens s := ⟨p, h⟩

theorem Holds.congr (h : p.Holds tokens s) (rest : s'.rest = s.rest)
    (frames : s'.frames = s.frames) : p.Holds tokens s' := by
  cases p <;> simpa only [Holds, rest, frames] using h

theorem outside_start (unit : UnitState) (tokens : List Token) :
    outside.Holds tokens (ParserState.start unit tokens) := ⟨[], rfl, rfl⟩

/-- Where a pattern is over its brackets are closed, and it is as if there had been none. -/
theorem Holds.past (h : (pattern []).Holds tokens s) : outside.Holds tokens s := by
  obtain ⟨before, mark, inside, split, -, level, -, nested⟩ := h
  refine ⟨before ++ mark :: inside, split, ?_⟩
  rw [List.append_cons, Frames.nest_append_of level]
  exact Frames.nest_under nested

theorem Holds.undue (h : (ofDue due).Holds tokens s) : outside.Holds tokens s := by
  cases due
  · exact h
  · exact h.past

theorem Holds.weaken (h : (ofDue due).Holds tokens s) (le : due' = true → due = true) :
    (ofDue due').Holds tokens s := by
  cases due'
  · exact h.undue
  · rw [le rfl] at h
    exact h

theorem rest_of_next (h : s.next.isEnd = false) : s.rest = s.next :: (passed s).rest := by
  unfold ParserState.next at h ⊢
  unfold passed
  cases hr : s.rest with
  | nil =>
    rw [hr] at h
    cases h
  | cons t rest => rfl

/-- Behind a token that leaves `F` open. -/
theorem Holds.read (h : outside.Holds tokens s) (inner : s.next.isEnd = false)
    (rest : s'.rest = s.rest.tail) (leaves : s.frames.step s.next = some s'.frames) :
    outside.Holds tokens s' := by
  obtain ⟨read, split, level⟩ := h
  refine ⟨read ++ [s.next], ?_, (Frames.nest_snoc level).trans leaves⟩
  have ahead : s.rest = s.next :: s'.rest := rest ▸ rest_of_next inner
  rw [List.append_assoc, List.singleton_append, ← ahead]
  exact split

theorem Holds.passed (h : outside.Holds tokens s) (inner : s.next.isEnd = false)
    (plain : s.next.reserved?.any Reserved.isDelimiter = false) :
    (ofDue (s.next.reserved?.any Reserved.introducesPattern)).Holds tokens (passed s) := by
  have leaves : s.frames.step s.next = some s.frames := Frames.step_other plain
  cases introduces : s.next.reserved?.any Reserved.introducesPattern with
  | false => exact h.read inner rfl leaves
  | true =>
    obtain ⟨read, split, level⟩ := h
    refine ⟨read, s.next, [], ?_, introduces, (Frames.nest_snoc level).trans leaves, by simp, rfl⟩
    rw [List.append_assoc, List.cons_append, List.nil_append, ← rest_of_next inner]
    exact split

theorem Holds.passedInside (h : (pattern F).Holds tokens s) (inner : s.next.isEnd = false)
    (fits : s.next.inPattern = true) (leaves : F.step s.next = some G) :
    (pattern G).Holds tokens (Parser.passed s) := by
  obtain ⟨before, mark, inside, split, introduces, level, all, nested⟩ := h
  refine ⟨before, mark, inside ++ [s.next], ?_, introduces, level, ?_,
    (Frames.nest_snoc nested).trans leaves⟩
  · rw [← List.cons_append, ← List.append_assoc, List.append_assoc, List.singleton_append,
      ← rest_of_next inner]
    exact split
  · intro t ht
    rcases List.mem_append.mp ht with ht | ht
    · exact all t ht
    · rw [List.mem_singleton.mp ht]
      exact fits

end Place

end GlyphScript
