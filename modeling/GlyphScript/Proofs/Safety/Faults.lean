import GlyphScript.Proofs.Safety.Expansion

/-!
# Documented faults

The faults that a compilation is said to end with, and work on a unit that ends
with no others as long as all its macros are sorted.
-/

namespace GlyphScript

/-- The faults that a compilation is said to raise. A character that starts no token is reported
with the text that it starts, so there has to be some; and only long numerals are too long. -/
def Fault.Documented : Fault → Prop
  | .lex (.unexpectedCharacter _ following _) => following ≠ ""
  | .lex (.numeralTooLong digits) => maxNumeralLength < digits
  | .lex (.unterminatedString _) | .parse _ | .expansion _ | .cancelled => True
  | .unprintable _ | .nothingOpen | .outOfReach => False

/-! ## Computations -/

/-- A computation has ended with a documented fault, or with a result and a state as `P` says; in
any case the state is as `I` says. -/
inductive Proper {σ α : Type} (I : σ → Prop) (P : α → σ → Prop) : Except Fault α × σ → Prop where
  | fault {f s} : f.Documented → I s → Proper I P (.error f, s)
  | ok {a s} : I s → P a s → Proper I P (.ok a, s)

namespace Proper

variable {σ α β : Type} {I : σ → Prop} {P : α → σ → Prop} {Q : β → σ → Prop} {s : σ}

theorem bind {p : ExceptT Fault (StateM σ) α} {f : α → ExceptT Fault (StateM σ) β}
    (hp : Proper I P (p s)) (hf : ∀ a s', I s' → P a s' → Proper I Q (f a s')) :
    Proper I Q ((p >>= f) s) := by
  rw [run_bind]
  generalize p s = res at hp
  cases hp with
  | fault documented kept => exact .fault documented kept
  | ok kept made => exact hf _ _ kept made

theorem map {p : ExceptT Fault (StateM σ) α} {f : α → β} (hp : Proper I P (p s))
    (hf : ∀ a s', P a s' → Q (f a) s') : Proper I Q ((f <$> p) s) := by
  rw [run_map]
  generalize p s = res at hp
  cases hp with
  | fault documented kept => exact .fault documented kept
  | ok kept made => exact .ok kept (hf _ _ made)

theorem mono {P' : α → σ → Prop} {res : Except Fault α × σ} (h : Proper I P res)
    (hP : ∀ a s', P a s' → P' a s') : Proper I P' res := by
  cases h with
  | fault documented kept => exact .fault documented kept
  | ok kept made => exact .ok kept (hP _ _ made)

/-- What else is known of the results. -/
theorem and_ok {P' : α → Prop} {res : Except Fault α × σ} (h : Proper I P res)
    (hP : ∀ a s', res = (.ok a, s') → P' a) : Proper I (fun a s => P a s ∧ P' a) res := by
  cases h with
  | fault documented kept => exact .fault documented kept
  | ok kept made => exact .ok kept ⟨made, hP _ _ rfl⟩

end Proper

/-! ## Tokens -/

theorem firstPiece_documented {start : Location} {c : Char} {rest : List Char} {fault : LexFault}
    (blank : isBlank c = false) (h : firstPiece start c rest = .error fault) :
    (Fault.lex fault).Documented := by
  unfold firstPiece at h
  dsimp only at h
  split at h
  · cases h
  split at h
  · split at h
    · cases h
      assumption
    · cases h
  split at h
  · split at h
    · cases h
    · cases h
      trivial
  split at h
  · cases h
  · cases h
    show String.ofList (((c :: rest).take 3).takeWhile (!isBlank ·)) ≠ ""
    simp [blank]

theorem scanFrom_documented (fuel : Nat) : ∀ {here : Location} {text : List Char} {fault : LexFault},
    scanFrom fuel here text = .error fault → (Fault.lex fault).Documented := by
  induction fuel with
  | zero =>
    intro here text fault h
    cases h
  | succ fuel ih =>
    intro here text fault h
    rw [scanFrom] at h
    dsimp only at h
    split at h
    · cases h
    · rename_i c rest made
      have blank : isBlank c = false := by
        have := List.head?_dropWhile_not isBlank text
        simpa [made] using this
      cases first : firstPiece (here.after (text.takeWhile isBlank)) c rest with
      | error e =>
        rw [first] at h
        cases h
        exact firstPiece_documented blank first
      | ok piece =>
        rw [first] at h
        cases below : scanFrom fuel ((here.after (text.takeWhile isBlank)).after piece.lexeme)
            piece.rest with
        | error e =>
          simp only [bind, Except.bind, below] at h
          cases h
          exact ih below
        | ok tokens =>
          simp only [bind, Except.bind, below] at h
          cases h

/-! ## Work on a unit -/

/-- All macros of the unit are sorted. -/
def UnitState.Sorted (u : UnitState) : Prop := u.registry.Sorted

namespace Work

variable {α : Type}

/-- What results of work on a unit whose macros are sorted and stay so. -/
def proper : Guarantee Work where
  holds w p := ∀ u : UnitState, u.Sorted → Proper UnitState.Sorted (fun a _ => p a) (w u)
  pure h _ hu := .ok hu h
  bind hw hf u hu := (hw u hu).bind fun a u' hu' ha => hf a ha u' hu'

theorem proper_get : proper.holds get UnitState.Sorted := fun _ hu => .ok hu hu

theorem proper_modify {f : UnitState → UnitState} (h : ∀ u : UnitState, u.Sorted → (f u).Sorted) :
    proper.holds (modify f : Work Unit) fun _ => True := fun u hu => .ok (h u hu) trivial

theorem proper_throw {f : Fault} (h : f.Documented) {p : α → Prop} :
    proper.holds (throw f : Work α) p := fun _ hu => .fault h hu

theorem proper_report (e : Event) : proper.holds (report e) fun _ => True :=
  proper_modify fun _ hu => hu

theorem proper_checkpoint : proper.holds checkpoint fun _ => True := by
  refine proper.bind proper_get fun u _ => ?_
  split
  · exact proper.pure trivial
  · exact proper_throw (by trivial)
  · exact proper_modify fun _ hu => hu

theorem proper_ofExpansion {r : Except ExpansionFault α} {p : α → Prop}
    (h : ∀ a, r = .ok a → p a) : proper.holds (ofExpansion r) p := by
  cases r with
  | ok a => exact proper.pure (h a rfl)
  | error f => exact proper_throw (by trivial)

theorem proper_tokens (source file : String) : proper.holds (tokens source file) fun _ => True := by
  unfold tokens
  cases h : tokenize source file with
  | ok tokens => exact proper.bind (proper_report _) fun _ _ => proper.pure trivial
  | error f => exact proper_throw (scanFrom_documented _ h)

theorem proper_register {d : MacroDefinition} (h : d.Sorted) :
    proper.holds (register d) fun _ => True := by
  intro u hu
  obtain ⟨warnings, run⟩ := register_run d u
  rw [run]
  exact .ok (Registry.Sorted.insert hu h) trivial

theorem proper_forM {f : α → Work Unit} {as : List α}
    (h : ∀ a ∈ as, proper.holds (f a) fun _ => True) : proper.holds (as.forM f) fun _ => True := by
  induction as with
  | nil => exact proper.pure trivial
  | cons a as ih =>
    refine proper.bind (h a List.mem_cons_self) fun _ _ => ?_
    exact ih fun b hb => h b (List.mem_cons_of_mem a hb)

theorem proper_registerMissing {n : Node} (h : n.Sorted) :
    proper.holds (registerMissing n) fun _ => True := by
  refine proper_forM fun d hd => ?_
  obtain ⟨m, hm, made⟩ := List.mem_filterMap.mp hd
  refine proper.bind proper_get fun u _ => ?_
  split
  · exact proper.pure trivial
  · exact proper_register (MacroDefinition.sorted_of_node (h.of_mem_walk hm) made)

/-! ## Expanding a call -/

theorem proper_calledMacro (c : MacroCall) : proper.holds (calledMacro c) fun _ => True := by
  refine proper.bind proper_get fun u _ => ?_
  dsimp only
  split
  · exact proper.pure trivial
  · exact proper_throw (by trivial)

theorem proper_expandCall {c : MacroCall} (hc : c.Sorted) :
    proper.holds (expandCall c) fun e => e.node.OfSort .quoted := by
  have ends : proper.holds (expandCall c) fun _ => True := by
    refine proper.bind (proper_calledMacro c) fun d _ => ?_
    refine proper.bind (proper_ofExpansion fun _ _ => trivial) fun sel _ => ?_
    refine proper.bind (p := fun _ => True) (fun u hu => .ok hu trivial) fun (_, table) _ => ?_
    refine proper.bind (proper_ofExpansion fun _ _ => trivial) fun node _ => ?_
    dsimp only
    split
    · exact proper.bind (proper_report _) fun _ _ =>
        proper.bind (proper_report _) fun _ _ => proper.pure trivial
    · exact proper.bind (proper_report _) fun _ _ => proper.pure trivial
  intro u hu
  exact ((ends u hu).and_ok fun e u' run => expandCall_sorted hu hc run).mono fun _ _ h => h.2

end Work

end GlyphScript
