import GlyphScript.Proofs.Layout.Parsing
import GlyphScript.Proofs.Macro.Limits
import GlyphScript.Proofs.Token.Spelling

/-!
# Layout does not matter

Units whose texts are the same words compile alike, whatever their files are
called and wherever the words stand.
-/

namespace GlyphScript

/-- The same outcome but for places: programs that are alike, or faults that are alike; and the
same macros after as many passes. -/
structure Compilation.Alike (c c' : Compilation) : Prop where
  result : Except.Corresponds Fault.Alike Node.Alike c.result c'.result
  macros : c.macros = c'.macros
  iterations : c.iterations = c'.iterations

theorem Compilation.Alike.of_states {r r' : Except Fault Node} {u u' : UnitState}
    (results : Except.Corresponds Fault.Alike Node.Alike r r') (states : u.Alike u')
    (tokens tokens' : List Token) : Compilation.Alike ⟨r, tokens, u⟩ ⟨r', tokens', u'⟩ := by
  refine ⟨results, states.registry.names, ?_⟩
  cases results with
  | ok _ => exact congrArg Progress.iterations states.progress
  | error _ => rfl

/-- The settings for a unit in another file. -/
def Settings.inFile (s : Settings) (file : String) : Settings := { s with file }

namespace Work

variable (settings : Settings) (file : String)

theorem settle_inFile (remaining : Nat) :
    settle (settings.inFile file) remaining = settle settings remaining := by
  have passes : pass (settings.inFile file) = pass settings := rfl
  induction remaining with
  | zero =>
    funext n
    unfold settle
    rw [passes]
    rfl
  | succ remaining ih =>
    funext n
    unfold settle
    rw [passes]
    dsimp only
    rw [ih]

theorem unitProgram_alike {tokens tokens' : List Token}
    (h : List.Forall₂ Token.Alike tokens tokens') :
    working.rel Node.Alike (unitProgram settings tokens)
      (unitProgram (settings.inFile file) tokens') := by
  have read : (settings.inFile file).ReadAlike settings := ⟨rfl, rfl, rfl⟩
  have parsed : working.rel Node.Alike (parse (Parser.program settings) tokens)
      (parse (Parser.program (settings.inFile file)) tokens') := by
    intro u u' hu
    rw [Parser.program_congr read]
    obtain ⟨result, state⟩ :=
      Parser.programWith_alike (Rereading.upTo_alike settings _) settings _ _ (.start hu h)
    exact ⟨result, state.unit⟩
  refine working.bind parsed fun n n' hn => working.bind get_alike fun u u' hu => ?_
  refine working.bind (report_alike _ _) fun _ _ _ => ?_
  rw [show (settings.inFile file).expand = settings.expand from rfl]
  split
  · have expanded : expand (settings.inFile file) n' = expand settings n' := by
      unfold expand
      rw [settle_inFile]
      rfl
    rw [expanded]
    refine working.bind (expand_alike hn) fun m m' hm => working.bind get_alike fun v v' hv => ?_
    exact working.bind (report_alike _ _) fun _ _ _ => working.pure hm
  · exact working.pure hn

theorem unitTokens_alike {source source' : String}
    (h : Except.Corresponds (fun f f' => f.unplaced = f'.unplaced) (List.Forall₂ Token.Alike)
      (tokenize source settings.file) (tokenize source' file)) :
    working.rel (List.Forall₂ Token.Alike) (unitTokens settings source)
      (unitTokens (settings.inFile file) source') := by
  refine working.bind checkpoint_alike fun _ _ _ => ?_
  refine working.bind (tokens_alike h) fun tokens tokens' ht => ?_
  refine working.bind (modify_alike fun u u' hu => ?_) fun _ _ _ => working.pure ht
  rw [identifierNames_alike ht]
  exact ⟨hu.registry, rfl, hu.checks, hu.progress⟩

end Work

/-- Texts that are the same words compile alike. -/
theorem compile_alike (settings : Settings) (checks : Option Nat) {source source' file : String}
    (h : Except.Corresponds (fun f f' => f.unplaced = f'.unplaced) (List.Forall₂ Token.Alike)
      (tokenize source settings.file) (tokenize source' file)) :
    (compile settings source checks).Alike (compile (settings.inFile file) source' checks) := by
  have start : UnitState.Alike (UnitState.ofSettings settings checks)
      (UnitState.ofSettings (settings.inFile file) checks) := ⟨.nil, rfl, rfl, rfl⟩
  have divided := Work.unitTokens_alike settings file h _ _ start
  unfold compile ExceptT.run
  revert divided
  rcases Work.unitTokens settings source _ with ⟨_ | tokens, u⟩ <;>
    rcases Work.unitTokens (settings.inFile file) source' _ with ⟨_ | tokens', u'⟩ <;>
    rintro ⟨result, state⟩ <;> cases result
  · rename_i fault
    exact .of_states (.error fault) state _ _
  · rename_i words
    obtain ⟨results, states⟩ := Work.unitProgram_alike settings file words _ _ state
    exact .of_states results states _ _

/-- Of a text nothing but its words matters: laid out in another way, as the tokens with a blank
between any two or as any other text of the same tokens, and under another file name, it compiles
to the same program, with the same macros in the same order and in as many passes, or fails with
the same fault, found elsewhere. -/
theorem compile_layout (settings : Settings) (checks : Option Nat) (file : String)
    {source : String} {tokens : List Token} (h : tokenize source settings.file = .ok tokens) :
    (compile settings source checks).Alike
        (compile (settings.inFile file) (joinLexemes tokens) checks) ∧
      ∀ source' tokens', tokenize source' file = .ok tokens' →
        List.Forall₂ (fun t u => t.sameKind u = true) tokens tokens' →
        (compile settings source checks).Alike (compile (settings.inFile file) source' checks) := by
  have other (source' : String) (tokens' : List Token) (h' : tokenize source' file = .ok tokens')
      (same : List.Forall₂ (fun t u => t.sameKind u = true) tokens tokens') :
      (compile settings source checks).Alike
        (compile (settings.inFile file) source' checks) := by
    refine compile_alike settings checks ?_
    rw [h, h']
    exact .ok (same.imp fun _ _ => Token.sameKind_iff.mp)
  obtain ⟨tokens', divided, same⟩ := tokenize_joinLexemes h file
  exact ⟨other _ _ divided same, other⟩

/-- A macro that is expanded while parsing, on two lines. -/
def twoLineSource : String := "<%|m(())^<[[\x7b@((x))=>>x@\x7d]]|%>\n\tm((1))"

/-- The case of `twoLineSource`, put on one line. -/
theorem compile_layout_twoLineSource : ∃ tokens n,
    tokenize twoLineSource "lines.mgs" = .ok tokens ∧
      (compile (Settings.inFile {} "lines.mgs") twoLineSource none).result = .ok n ∧
      (compile (Settings.inFile {} "lines.mgs") twoLineSource none).Alike
        (compile (Settings.inFile (Settings.inFile {} "lines.mgs") "joined.mgs")
          (joinLexemes tokens) none) := by
  have divided : (tokenize twoLineSource "lines.mgs").toBool = true := by decide
  have compiles : (compile (Settings.inFile {} "lines.mgs") twoLineSource none).result.toBool =
      true := by decide +kernel
  rcases hn : (compile (Settings.inFile {} "lines.mgs") twoLineSource none).result with _ | n
  · rw [hn] at compiles
    cases compiles
  rcases h : tokenize twoLineSource "lines.mgs" with _ | tokens
  · rw [h] at divided
    cases divided
  · exact ⟨tokens, n, rfl, rfl,
      (compile_layout (Settings.inFile {} "lines.mgs") none "joined.mgs" h).1⟩

end GlyphScript
