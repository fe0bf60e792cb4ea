import GlyphScript.Proofs.Compilation
import GlyphScript.Proofs.Rereading.Requests
import GlyphScript.Proofs.Token.Spelling

/-!
# The limit of nested expansions

The texts of expansions are read one inside the other, at most as deep as the
settings say. Where the limit is not met a larger one makes no difference; and
where it is met, that many texts have been begun, each of them asked for while
the one before it was being read.
-/

namespace GlyphScript

open GlyphScript.Parser

/-! ## Larger limits -/

/-- The settings with a larger limit to how deep the texts of expansions are nested. -/
def Settings.deepened (settings : Settings) (limit : Nat) (le : settings.maxParseDepth ≤ limit) :
    Settings :=
  { settings with
    maxParseDepth := limit
    parseDepth_pos := Nat.lt_of_lt_of_le settings.parseDepth_pos le }

section

variable (settings : Settings) {limit : Nat} (le : settings.maxParseDepth ≤ limit) (t : Rereading)

/-- What is read does not depend on the limit but for how texts are read. -/
theorem Nonterminals.upTo_deepened (depth : Nat) :
    upTo (settings.deepened limit le) t depth = upTo settings t depth := by
  induction depth with
  | zero => rfl
  | succ depth ih =>
    simp only [upTo, ih]
    rfl

theorem Nonterminals.here_deepened : here (settings.deepened limit le) t = here settings t := by
  unfold here
  simp only [upTo_deepened]

theorem Parser.programWith_deepened :
    programWith (settings.deepened limit le) t = programWith settings t := by
  unfold programWith
  rw [Nonterminals.here_deepened]

theorem Parser.statementsWith_deepened :
    statementsWith (settings.deepened limit le) t = statementsWith settings t := by
  unfold statementsWith
  rw [Nonterminals.here_deepened]

theorem Parser.expressionWith_deepened :
    expressionWith (settings.deepened limit le) t = expressionWith settings t := by
  unfold expressionWith
  rw [Nonterminals.here_deepened]

end

namespace Rereading

variable {settings : Settings}

/-- The tokens of the text are read from the beginning, in the unit as it is by then. -/
theorem reread_run {α : Type} (c : MacroCall) (depth : Nat) (text : String)
    (p : Parser (α × List String)) (s : ParserState) : reread c depth text p s =
      match Work.rereadTokens c depth text s.unit with
      | (.error f, unit) => (.error f, { s with unit })
      | (.ok tokens, unit) =>
        match p (ParserState.start unit tokens) with
        | (.error f, inner) => (.error f, { s with unit := inner.unit })
        | (.ok r, inner) =>
          (inject r.2 >>= fun _ => pure r.1 : Parser α) { s with unit := inner.unit } := by
  have opened : ofWork (Work.rereadTokens c depth text) s =
      ((Work.rereadTokens c depth text s.unit).1,
        { s with unit := (Work.rereadTokens c depth text s.unit).2 }) := rfl
  rw [reread_eq, run_bind, opened]
  rcases Work.rereadTokens c depth text s.unit with ⟨f | tokens, unit⟩
  · rfl
  · have inside : Parser.within tokens p { s with unit } =
        ((p (ParserState.start unit tokens)).1,
          { s with unit := (p (ParserState.start unit tokens)).2.unit }) := rfl
    dsimp only
    rw [run_bind, inside]
    rcases p (ParserState.start unit tokens) with ⟨f | r, inner⟩ <;> rfl

/-- If what reads the tokens of a text fails or does the same, so does what reads the text. -/
theorem reread_follows {α : Type} {F : Fault → Prop} (c : MacroCall) (depth : Nat) (text : String)
    {p p' : Parser (α × List String)} (h : ∀ s, Fails F (p s) ∨ p' s = p s) (s : ParserState) :
    Fails F (reread c depth text p s) ∨ reread c depth text p' s = reread c depth text p s := by
  rw [reread_run, reread_run]
  rcases Work.rereadTokens c depth text s.unit with ⟨f | tokens, unit⟩
  · exact .inr rfl
  · dsimp only
    obtain ⟨f, made, holds⟩ | same := h (ParserState.start unit tokens)
    · left
      rcases ran : p (ParserState.start unit tokens) with ⟨e | r, inner⟩ <;> rw [ran] at made
      · exact ⟨f, congrArg Except.error (Except.error.inj made), holds⟩
      · cases made
    · rw [same]
      exact .inr rfl

theorem follows_upTo {limit : Nat} (le : settings.maxParseDepth ≤ limit) (remaining : Nat)
    (within : remaining ≤ settings.maxParseDepth) :
    (upTo settings remaining).Follows Fault.IsNesting
      (upTo (settings.deepened limit le) (remaining + (limit - settings.maxParseDepth))) := by
  induction remaining with
  | zero =>
    constructor
    · exact fun c text s => .inl ⟨_, rfl, trivial⟩
    · exact fun c text s => .inl ⟨_, rfl, trivial⟩
  | succ remaining ih =>
    have ih := ih (by omega)
    rw [Nat.add_right_comm]
    have depth : (settings.deepened limit le).maxParseDepth -
        (remaining + (limit - settings.maxParseDepth)) = settings.maxParseDepth - remaining := by
      show limit - _ = _
      omega
    constructor
    · intro c text s
      simp only [upTo, depth, expressionWith_deepened]
      exact reread_follows c _ text ((consults_expressionWith settings).same ih) s
    · intro c text s
      simp only [upTo, depth, statementsWith_deepened]
      exact reread_follows c _ text ((consults_statementsWith settings).same ih) s

end Rereading

/-! ## Chains of texts -/

/-- The texts asked for one after another: the first while the parser is at work, each of the others
while the one before it is being read, and the reading of the last one asks for a text once more.
Where `n` of them are to come, texts may be nested `n` deep. -/
inductive Chained (settings : Settings) :
    {α : Type} → (Rereading → Parser α) → ParserState → List Request → Prop where
  | last {α : Type} {p : Rereading → Parser α} {s q here} :
    Asks p (.upTo settings 0) s q here → Chained settings p s []
  | more {α : Type} {p : Rereading → Parser α} {s q here tokens unit chain} :
    Asks p (.upTo settings (chain.length + 1)) s q here →
    Work.rereadTokens q.call (settings.maxParseDepth - chain.length) q.text here.unit =
      (.ok tokens, unit) →
    Chained settings (q.reader settings) (ParserState.start unit tokens) chain →
    Chained settings p s (q :: chain)

namespace Chained

variable {settings : Settings}

/-- The answer to a request is what is read from the tokens of its text. -/
theorem fails_answer {F : Fault → Prop} {remaining : Nat} {q : Request} {here : ParserState}
    (single : ∀ f : Fault, f.Single → ¬ F f)
    (fails : Fails F ((Rereading.upTo settings (remaining + 1)).answer q here)) :
    ∃ tokens unit, Work.rereadTokens q.call (settings.maxParseDepth - remaining) q.text here.unit =
        (.ok tokens, unit) ∧
      Fails F (q.reader settings (.upTo settings remaining) (ParserState.start unit tokens)) := by
  have reread {α : Type} {p : Parser (α × List String)}
      (fails : Fails F (reread q.call (settings.maxParseDepth - remaining) q.text p here)) :
      ∃ tokens unit, Work.rereadTokens q.call (settings.maxParseDepth - remaining) q.text here.unit =
        (.ok tokens, unit) ∧ Fails F (p (ParserState.start unit tokens)) := by
    rw [Rereading.reread_run] at fails
    have opening := Work.single_rereadTokens q.call (settings.maxParseDepth - remaining) q.text here.unit
    rcases opened : Work.rereadTokens q.call (settings.maxParseDepth - remaining) q.text here.unit
      with ⟨f | tokens, unit⟩ <;> rw [opened] at fails opening
    · obtain ⟨_, ⟨⟩, holds⟩ := fails
      exact absurd holds (single f (opening f rfl))
    · refine ⟨tokens, unit, rfl, ?_⟩
      dsimp only at fails
      rcases ran : p (ParserState.start unit tokens) with ⟨f | r, inner⟩ <;> rw [ran] at fails
      · obtain ⟨f', made, holds⟩ := fails
        exact ⟨f', congrArg Except.error (Except.error.inj made), holds⟩
      · obtain ⟨f, absurd, -⟩ := fails
        cases absurd
  cases q with
  | expression c text =>
    obtain ⟨tokens, unit, opened, fails⟩ := reread (Rereading.fails_map.mp fails)
    exact ⟨tokens, unit, opened, Rereading.fails_map.mpr fails⟩
  | statements c text =>
    obtain ⟨tokens, unit, opened, fails⟩ := reread (Rereading.fails_map.mp fails)
    exact ⟨tokens, unit, opened, Rereading.fails_map.mpr fails⟩

/-- Texts are nested too deeply only if as many as are allowed have been begun. -/
theorem exists_of_fails (remaining : Nat) : ∀ {α : Type} {p : Rereading → Parser α}
    {s : ParserState}, Consults p → Fails Fault.IsNesting (p (.upTo settings remaining) s) →
      ∃ chain, chain.length = remaining ∧ Chained settings p s chain := by
  induction remaining with
  | zero =>
    intro α p s hp fails
    obtain ⟨q, here, -, asks⟩ := hp.asks fails
    exact ⟨[], rfl, .last asks⟩
  | succ remaining ih =>
    intro α p s hp fails
    obtain ⟨q, here, answer, asks⟩ := hp.asks fails
    obtain ⟨tokens, unit, opened, fails⟩ := fails_answer (fun f single => single.2) answer
    obtain ⟨chain, rfl, chained⟩ := ih (q.consults_reader settings) fails
    exact ⟨q :: chain, rfl, .more asks opened chained⟩

end Chained

/-! ## Parsing -/

/-- Parsing a unit comes to an end, whatever the tokens are, whether or not the last of them is the
end of the input, and whatever macros are known. Unless texts of expansions are nested more deeply
than the limit says, any larger limit leads to the same program or fault and the same unit. And
if they are, a chain of as many texts has been begun, each of them while the one before it was
being read. -/
theorem Work.parse_depth (settings : Settings) (tokens : List Token) (unit : UnitState) :
    (∀ f, (Work.parse (Parser.program settings) tokens unit).1 = .error f → f.Genuine) ∧
    (¬ Fails Fault.IsNesting (Work.parse (Parser.program settings) tokens unit) →
      ∀ limit (le : settings.maxParseDepth ≤ limit),
        Work.parse (Parser.program (settings.deepened limit le)) tokens unit =
          Work.parse (Parser.program settings) tokens unit) ∧
    (Fails Fault.IsNesting (Work.parse (Parser.program settings) tokens unit) →
      ∃ chain, chain.length = settings.maxParseDepth ∧
        Chained settings (Parser.programWith settings) (ParserState.start unit tokens) chain) := by
  refine ⟨fun f => Work.parse_genuine settings tokens unit, fun within limit le => ?_, fun fails => ?_⟩
  · have follows := Rereading.follows_upTo le settings.maxParseDepth le_rfl
    rw [Nat.add_sub_cancel' le] at follows
    obtain fails | same := (Rereading.consults_programWith settings).same follows
      (ParserState.start unit tokens)
    · exact absurd fails within
    · have run : Parser.program (settings.deepened limit le) (ParserState.start unit tokens) =
          Parser.program settings (ParserState.start unit tokens) := by
        unfold Parser.program Rereading.within
        rw [Parser.programWith_deepened]
        exact same
      show (_, _) = (_, _)
      exact congrArg (fun r => (r.1, r.2.unit)) run
  · exact Chained.exists_of_fails _ (Rereading.consults_programWith settings) fails

/-- A call that expands to itself. -/
def againCall : String := "<%| again (( )) ^< [[ {@ _ =>> again(( )) @} ]] |%> again(( ))"

/-- A call that expands to a number. -/
def onceCall : String := "<%| once (( )) ^< [[ {@ _ =>> 1 @} ]] |%> once(( ))"

/-- Two texts may be nested: `againCall` comes to a third, `onceCall` to one only. -/
theorem parse_depth_again : ∃ again once, tokenize againCall "<input>" = .ok again ∧
    tokenize onceCall "<input>" = .ok once ∧
    (∃ q q', Chained { maxParseDepth := 2 } (Parser.programWith { maxParseDepth := 2 })
      (ParserState.start (UnitState.ofTokens {} again none) again) [q, q']) ∧
    ∀ limit (le : 2 ≤ limit),
      Work.parse (Parser.program (Settings.deepened { maxParseDepth := 2 } limit le)) once
          (UnitState.ofTokens {} once none) =
        Work.parse (Parser.program { maxParseDepth := 2 }) once (UnitState.ofTokens {} once none) := by
  have nested : ∃ tokens, tokenize againCall "<input>" = .ok tokens ∧ Fails Fault.IsNesting
      (Work.parse (Parser.program { maxParseDepth := 2 }) tokens
        (UnitState.ofTokens {} tokens none)) := by
    have reads : ((tokenize againCall "<input>").toOption.any fun tokens => decide (Fails Fault.IsNesting
        (Work.parse (Parser.program { maxParseDepth := 2 }) tokens
          (UnitState.ofTokens {} tokens none)))) = true := by
      delta againCall
      rw [tokenize_ofList]
      decide +kernel
    obtain ⟨tokens, divided, fails⟩ := (Option.any_eq_true ..).mp reads
    exact ⟨tokens, ok_of_toOption divided, of_decide_eq_true fails⟩
  have ends : ∃ tokens, tokenize onceCall "<input>" = .ok tokens ∧ ¬ Fails Fault.IsNesting
      (Work.parse (Parser.program { maxParseDepth := 2 }) tokens
        (UnitState.ofTokens {} tokens none)) := by
    have reads : ((tokenize onceCall "<input>").toOption.any fun tokens => decide (¬ Fails Fault.IsNesting
        (Work.parse (Parser.program { maxParseDepth := 2 }) tokens
          (UnitState.ofTokens {} tokens none)))) = true := by
      delta onceCall
      rw [tokenize_ofList]
      decide +kernel
    obtain ⟨tokens, divided, fails⟩ := (Option.any_eq_true ..).mp reads
    exact ⟨tokens, ok_of_toOption divided, of_decide_eq_true fails⟩
  obtain ⟨again, divided, fails⟩ := nested
  obtain ⟨once, divided', within⟩ := ends
  refine ⟨again, once, divided, divided', ?_, ?_⟩
  · obtain ⟨chain, length, chained⟩ := (Work.parse_depth _ again _).2.2 fails
    obtain ⟨q, q', rfl⟩ := List.length_eq_two.mp length
    exact ⟨q, q', chained⟩
  · exact (Work.parse_depth { maxParseDepth := 2 } once _).2.1 within

end GlyphScript
