import GlyphScript.Fault

/-!
# Running computations

What computations with a state and faults do, step by step. Parsers and the
work on a unit are such computations.
-/

namespace GlyphScript

variable {ε σ α β : Type}

theorem run_bind (p : ExceptT ε (StateM σ) α) (f : α → ExceptT ε (StateM σ) β) (s : σ) :
    (p >>= f) s = match p s with
      | (.ok a, s') => f a s'
      | (.error e, s') => (.error e, s') := by
  show (ExceptT.bind p f) s = _
  simp only [ExceptT.bind, ExceptT.mk, bind, StateT.bind]
  rcases p s with ⟨_ | _, s'⟩ <;> rfl

theorem run_pure (a : α) (s : σ) : (pure a : ExceptT ε (StateM σ) α) s = (.ok a, s) := rfl

theorem run_throw (e : ε) (s : σ) : (throw e : ExceptT ε (StateM σ) α) s = (.error e, s) := rfl

theorem run_get (s : σ) : (get : ExceptT ε (StateM σ) σ) s = (.ok s, s) := rfl

theorem run_set (s s' : σ) : (set s' : ExceptT ε (StateM σ) PUnit) s = (.ok ⟨⟩, s') := rfl

theorem run_modify (f : σ → σ) (s : σ) :
    (modify f : ExceptT ε (StateM σ) PUnit) s = (.ok ⟨⟩, f s) := rfl

theorem run_map (f : α → β) (p : ExceptT ε (StateM σ) α) (s : σ) :
    (f <$> p) s = match p s with
      | (.ok a, s') => (.ok (f a), s')
      | (.error e, s') => (.error e, s') := by
  rw [map_eq_pure_bind, run_bind]
  rcases p s with ⟨_ | _, s'⟩ <;> rfl

theorem run_discard (p : ExceptT ε (StateM σ) α) (s : σ) :
    Functor.discard p s = match p s with
      | (.ok _, s') => (.ok ⟨⟩, s')
      | (.error e, s') => (.error e, s') := by
  rw [Functor.discard, map_const, Function.comp_apply, run_map]

/-- A computation in two parts has a result if both parts have. -/
theorem bind_ok {p : ExceptT ε (StateM σ) α} {f : α → ExceptT ε (StateM σ) β} {s s'' : σ} {b : β} :
    (p >>= f) s = (.ok b, s'') ↔ ∃ a s', p s = (.ok a, s') ∧ f a s' = (.ok b, s'') := by
  rw [run_bind]
  rcases p s with ⟨_ | a, s'⟩
  · constructor
    · intro h
      nomatch h
    · rintro ⟨_, _, h, _⟩
      nomatch h
  · constructor
    · intro h
      exact ⟨a, s', rfl, h⟩
    · rintro ⟨_, _, h, h'⟩
      cases h
      exact h'

end GlyphScript
