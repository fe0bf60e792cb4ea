import GlyphScript.Proofs.Compilation
import GlyphScript.Proofs.Macro.Patterns
import GlyphScript.Proofs.Parsing.Patterns

/-!
# Patterns of compiled units

What the parser checks of a pattern lasts until the end of a compilation if
the templates let it. An expansion is not read again unless it is made while
parsing, so two variables of a template's pattern may both become one name.
-/

namespace GlyphScript

open Node (ValidPattern)

/-- The names of the tokens are in use in a unit that has just been divided. -/
theorem known_ofTokens (settings : Settings) (tokens : List Token) (checks : Option Nat) :
    (ParserState.start (UnitState.ofTokens settings tokens checks) tokens).Known where
  names t ht ident := by
    refine Std.TreeSet.mem_iff_contains.mp (Std.TreeSet.mem_toList.mp ?_)
    exact mem_identifierNames.mpr ⟨t, ht, ident, rfl⟩
  macros _ hd := (List.not_mem_nil hd).elim

namespace Work

/-- A program that has been read keeps its patterns valid when it is expanded. -/
theorem expand_patterns {settings : Settings} {n n' : Node} {u u' : UnitState}
    (known : u.registry.Known u.gensym) (regular : u.registry.Regular)
    (part : n.Part u.registry.scope) (valid : n.Clauses ValidPattern)
    (clear : ∀ d ∈ u'.registry.macros, d.Clear)
    (h : (expand settings n).run u = (.ok n', u')) : n'.Clauses ValidPattern := by
  have part := part.mono (Registry.scope_le_expanded _)
  rw [expand_eq (registerMissing_known part.regular fun _ h => h)] at h
  obtain ⟨kept, -, -⟩ := settle_ok h regular part
  rw [kept] at clear
  obtain ⟨-, -, made⟩ := course_settle settings clear settings.maxIterations known valid
    { u with progress := ⟨0, 0⟩ } rfl (le_refl _)
  rw [h] at made
  exact made n' rfl

end Work

/-- In a unit that compiles every pattern binds each name once, as long as no variable of a macro
stands next to another name in a pattern of the macro's templates. -/
theorem compile_patterns {settings : Settings} {source : String} {checks : Option Nat} {n : Node}
    (compiled : (compile settings source checks).result = .ok n)
    (clear : ∀ d ∈ (compile settings source checks).state.registry.macros, d.Clear) :
    ∀ p ∈ n.clausePatterns, p.ValidPattern := by
  obtain ⟨tokens, left, u', -, run, state⟩ := compile_ok compiled
  obtain ⟨program, done, read, ends⟩ := Work.unitProgram_ok run
  rw [state] at clear
  obtain ⟨-, known, sound⟩ := reading_program settings _ _ (known_ofTokens settings tokens left)
    (le_refl _)
  have empty : Registry.empty.Regular := fun _ h => (List.not_mem_nil h).elim
  obtain ⟨-, regular, part⟩ := conducts_program settings Registry.empty
    (ParserState.start (UnitState.ofTokens settings tokens left) tokens) empty (le_refl _)
  rw [read] at known sound regular part
  have valid := (sound program rfl).clauses
  have part := part program rfl
  rcases ends with ⟨rfl, -⟩ | ⟨v, v', registry, gensym, expanded, same⟩
  · exact valid
  · rw [same] at clear
    have known := known.macros
    dsimp only at known regular part
    rw [← registry] at known regular part
    rw [← gensym] at known
    exact Work.expand_patterns known regular part valid clear expanded

/-! ## A name bound twice -/

section

open Word

/-- The variables in the pattern of the template stand next to one another, and the arguments are
equal. -/
def doubledSource : String :=
  "<%| m (( )) [[ \x7b@ (( x ,, y )) " ++
  "==> [[ \x7b$ v $: (( x ,, y )) [[ ]] $\x7d ]] @\x7d ]] |%> m (( a ,, a ))"

def doubledTokens : List Token := lineTokens "<input>" 0
  [mark .macroOpen, name "m", mark .listOpen, mark .listClose, mark .bodyOpen, mark .ruleOpen,
   mark .listOpen, name "x", mark .separator, name "y", mark .listClose, mark .transformArrow,
   mark .bodyOpen, mark .matchOpen, name "v", mark .caseArm, mark .listOpen, name "x",
   mark .separator, name "y", mark .listClose, mark .bodyOpen, mark .bodyClose, mark .matchClose,
   mark .bodyClose, mark .ruleClose, mark .bodyClose, mark .macroClose, name "m", mark .listOpen,
   name "a", mark .separator, name "a", mark .listClose]

/-- The only variable in the pattern of the template stands next to a wildcard. -/
def loneSource : String :=
  "<%| m (( )) [[ \x7b@ (( x ,, y )) " ++
  "==> [[ \x7b$ y $: (( x ,, _ )) [[ x ]] $\x7d ]] @\x7d ]] |%> m (( a ,, b ))"

def loneTokens : List Token := lineTokens "<input>" 0
  [mark .macroOpen, name "m", mark .listOpen, mark .listClose, mark .bodyOpen, mark .ruleOpen,
   mark .listOpen, name "x", mark .separator, name "y", mark .listClose, mark .transformArrow,
   mark .bodyOpen, mark .matchOpen, name "y", mark .caseArm, mark .listOpen, name "x",
   mark .separator, name "_", mark .listClose, mark .bodyOpen, name "x", mark .bodyClose,
   mark .matchClose, mark .bodyClose, mark .ruleClose, mark .bodyClose, mark .macroClose,
   name "m", mark .listOpen, name "a", mark .separator, name "b", mark .listClose]

end

/-- Whether all names in the patterns of what a unit compiles to are told apart. -/
def Compilation.bindsOnce? (c : Compilation) : Option Bool :=
  c.result.toOption.map fun n => n.clausePatterns.all fun p => p.patternVariables.Nodup

/-- The arguments take the places of the variables, and the pattern binds one name twice. -/
theorem doubledSource_binds_twice : ¬ ∀ settings source checks n,
    (compile settings source checks).result = .ok n →
      ∀ p ∈ n.clausePatterns, p.patternVariables.Nodup := by
  intro all
  have scanned : tokenize doubledSource "<input>" = .ok doubledTokens := by
    delta doubledSource
    rw [tokenize_append_ofList]
    exact ok_of_toOption (by decide +kernel)
  have twice : (compile {} doubledSource none).bindsOnce? = some false := by
    rw [compile_of_tokenize scanned]
    decide +kernel
  obtain ⟨n, compiled, some⟩ := Option.map_eq_some_iff.mp twice
  refine Bool.noConfusion (some.symm.trans (List.all_eq_true.mpr fun p hp => ?_))
  exact decide_eq_true (all {} doubledSource none n (ok_of_toOption compiled) p hp)

/-- Whether there are patterns in what a unit compiles to and no variables of macros next to
other names. -/
def Compilation.clear? (c : Compilation) : Option Bool :=
  c.result.toOption.map fun n =>
    !n.clausePatterns.isEmpty && c.state.registry.macros.all fun d => d.Clear

/-- The case of `loneSource`. -/
theorem compile_patterns_lone : ∃ n, (compile {} loneSource none).result = .ok n ∧
    (∀ d ∈ (compile {} loneSource none).state.registry.macros, d.Clear) ∧
    n.clausePatterns ≠ [] ∧ ∀ p ∈ n.clausePatterns, p.ValidPattern := by
  have scanned : tokenize loneSource "<input>" = .ok loneTokens := by
    delta loneSource
    rw [tokenize_append_ofList]
    exact ok_of_toOption (by decide +kernel)
  have fits : (compile {} loneSource none).clear? = some true := by
    rw [compile_of_tokenize scanned]
    decide +kernel
  obtain ⟨n, compiled, fits⟩ := Option.map_eq_some_iff.mp fits
  obtain ⟨some, clear⟩ := Bool.and_eq_true_iff.mp fits
  have clear : ∀ d ∈ (compile {} loneSource none).state.registry.macros, d.Clear :=
    fun d hd => of_decide_eq_true (List.all_eq_true.mp clear d hd)
  have compiled := ok_of_toOption compiled
  exact ⟨n, compiled, clear, by simpa using some, compile_patterns compiled clear⟩

end GlyphScript
