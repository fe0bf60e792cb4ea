import GlyphScript.Compilation
import GlyphScript.Proofs.Parsing.Acceptance
import GlyphScript.Proofs.Printing.Trees

/-!
# Reading what was printed

The text of a well-formed program is divided into the words printed for it, the
words derive from the grammar as the program, and the parser reads what the
grammar derives. So parsing undoes printing.
-/

namespace GlyphScript

open Reserved Words

/-! ## Texts -/

theorem Separated.append {t u : List Char} (ht : Separated t) (hu : Separated u) :
    Separated (t ++ u) := by
  cases t with
  | nil => exact hu
  | cons c t => exact separated_cons (ht c rfl)

/-- Texts with a blank between them spell their words one after the other. -/
theorem Spells.append {us vs : List Word} {t u : List Char} {c : Char} (ht : Spells us t)
    (blank : isBlank c = true) (hu : Spells vs u) : Spells (us ++ vs) (t ++ c :: u) := by
  induction ht with
  | nil => exact .blank blank hu
  | blank h _ ih => exact .blank h ih
  | word lexeme apart _ ih =>
    rw [List.append_assoc]
    exact .word lexeme (apart.append (separated_cons blank)) ih

theorem spells_spaced {ws : List String} (h : ∀ w ∈ ws, IsWord w) :
    Spells (ws.map lexed) (spaced ws).toList := by
  have lexemes : ∀ w ∈ ws.map lexed, IsLexeme w.1 w.2.toList := by
    intro w hw
    obtain ⟨v, hv, rfl⟩ := List.mem_map.mp hw
    exact h v hv
  have spelled := spells_intercalate_space lexemes
  rwa [List.map_map, show ((·.2) ∘ lexed) = id from rfl, List.map_id] at spelled

/-- Lines spell the words of one after the other. -/
theorem spells_lines {wss : List (List String)} (h : ∀ w ∈ wss.flatten, IsWord w) :
    Spells (wss.flatten.map lexed) ("\n".intercalate (wss.map spaced)).toList := by
  rw [String.toList_intercalate, List.map_map]
  induction wss with
  | nil => exact .nil
  | cons ws wss ih =>
    have here := spells_spaced fun w hw => h w (List.mem_append_left _ hw)
    have below := ih fun w hw => h w (List.mem_append_right ws hw)
    cases wss with
    | nil => simpa using here
    | cons vs wss =>
      have line : isBlank '\n' = true := by decide
      have := here.append line below
      simpa using this

/-! ## Programs -/

namespace Node

variable {settings : Settings} {T : Node}

/-- The words printed for a well-formed program, and the derivation of its tree from them. -/
theorem derives_of_wellFormed (h : T.WellFormed) : ∃ (wss : List (List String)) (k : Macros),
    T.source = .ok ("\n".intercalate (wss.map spaced)) ∧ (∀ w ∈ wss.flatten, IsWord w) ∧ k.Later ∧
      ∃ ns, Derives settings (.part .statements) [] (wss.flatten.map lexed) k (.ofNodes ns) ∧
        T.unplaced = .program default ns [] := by
  obtain ⟨⟨injected, program⟩, nodes, calls⟩ := h
  obtain ⟨span, head, slots⟩ := T
  obtain rfl : head = .program injected := program
  have own := nodes _ (mem_walk_self _)
  obtain rfl : injected = [] := List.isEmpty_iff.mp own.spelled
  obtain ⟨ns, rfl, statements⟩ : ∃ ns, slots = [.many ns] ∧
      ∀ n ∈ ns, Category.statement.admits n.head = true := by
    obtain _ | ⟨⟨⟨⟩, admitted⟩, ⟨⟩⟩ := own.fields
    exact ⟨_, rfl, admitted⟩
  have below : ∀ n ∈ ns, Category.statement.Prints settings n := fun n hn =>
    prints_of_wellFormed
      (fun m hm => nodes m (mem_walk_mk.mpr (.inr ⟨_, List.mem_cons_self, n, hn, hm⟩)))
      (statements n hn)
  have ends : (mk span (.program []) [.many ns]).finished =
      ns.flatMap finished ++ [mk span (.program []) [.many ns]] := by
    rw [finished_mk]
    simp [Slot.toList]
  have apart : CallsApart [] (ns.flatMap finished) :=
    ⟨fun _ _ _ _ => rfl, (List.pairwise_append.mp (ends ▸ calls)).1⟩
  obtain ⟨ws, k, hp, words, derived, gain⟩ := prints_statements below [] apart
  obtain ⟨wss, each, rfl⟩ := join_ok hp
  refine ⟨wss, k, ?_, words, ?_, _, derived, unplaced_mk ..⟩
  · rw [source, Node.words, printed_mk]
    show spaced <$> (do return ["\n".intercalate ((← (ns.map printed).mapM Printed.statement).map
      spaced)] : Words) = _
    rw [each]
    rfl
  · intro e he phase
    rcases gain e he with he | ⟨m, hm, defines⟩
    · cases he
    · have spelled := (nodes m (mem_walk_of_mem_finished
        (ends ▸ List.mem_append_left _ hm))).spelled
      unfold definition? at defines
      split at defines
      · rename_i head
        cases defines
        rw [head] at spelled
        exact of_decide_eq_true spelled phase
      · cases defines

/-- Parsing a text is parsing its tokens in a fresh unit. -/
theorem parse_of_tokenize (settings : Settings) {source : String} {tokens : List Token}
    (h : tokenize source settings.file = .ok tokens) : ∃ unit : UnitState,
      unit.registry = Registry.empty ∧ unit.checks = none ∧
        parse settings source = (Work.parse (Parser.program settings) tokens unit).1 := by
  refine ⟨⟨Registry.empty, Gensym.ofNames settings.separator (identifierNames tokens),
    [.tokenized settings.file tokens.length], none, ⟨0, 0⟩⟩, rfl, rfl, ?_⟩
  unfold parse Work.tokens
  rw [h]
  rfl

/-- What is printed for a well-formed program is read as the program, wherever its nodes stand. -/
theorem parse_source (settings : Settings) (h : T.WellFormed) : ∃ text, T.source = .ok text ∧
    ∃ n, parse settings text = .ok n ∧ n.unplaced = T.unplaced := by
  obtain ⟨wss, k, printed, words, later, ns, derived, made⟩ := derives_of_wellFormed h
  refine ⟨_, printed, ?_⟩
  obtain ⟨tokens, scanned, divided⟩ := scanFrom_spells (spells_lines words) _
    (Location.atStart settings.file) (Nat.lt_succ_self _)
  obtain ⟨unit, fresh, unstopped, parsed⟩ := parse_of_tokenize settings scanned
  have hk : (ParserState.start unit tokens).unit.registry.Holds [] := by
    show unit.registry.Holds []
    rw [fresh]
    exact Registry.holds_empty
  obtain ⟨n, s, reads, same⟩ := programWith_complete (Rereading.growing_upTo settings _) hk unstopped
    divided derived (.inr later)
  exact ⟨n, parsed.trans (congrArg Prod.fst reads), same.trans made.symm⟩

/-- A product of a sum, a macro with a rule, a tuple as a statement and a case. -/
def mixed : Node :=
  program default
    [assignment default "x" (binaryOp default "**"
      (binaryOp default "++" (identifier default "a") (identifier default "b"))
      (literal default (.integer 3) .number)),
     macroDef default "m" [] .expand .isolate
      [macroRule default true
        (compositePattern default .tuplePattern [bindPattern default "y", bindPattern default "_"])
        (block default [expressionStmt default (call default (identifier default "m")
          [identifier default "y"])] [])] none,
     expressionStmt default (tupleLiteral default
      [macroCall default "m" [literal default (.text "a \"b\"\n") .string] false]),
     matchStmt default (identifier default "x")
      [caseClause default (literalPattern default .nothing .null)
        (block default [breakStmt default] [])]]
    []

theorem parse_source_mixed : mixed.WellFormed ∧ ∃ text, mixed.source = .ok text ∧
    ∃ n, parse {} text = .ok n ∧ n.unplaced = mixed.unplaced := by
  have wellFormed : mixed.WellFormed :=
    ⟨⟨[], rfl⟩, by decide, by decide⟩
  exact ⟨wellFormed, parse_source {} wellFormed⟩

end Node

end GlyphScript
