import GlyphScript.Proofs.Listing.Parsing

/-!
# Listings of parsed programs

Expanding calls while parsing keeps to the words of the texts that are read, so
the names in a program that the parser gives are words. Two such programs have
the same listing only if they are the same but for their places and for what is
absent.
-/

namespace GlyphScript

open GlyphScript.Parser

theorem MacroCall.legible_of_node {n : Node} {c : MacroCall} (hn : n.Legible)
    (h : ofNode? n = some c) : ∀ a ∈ c.args, a.Legible := by
  unfold ofNode? at h
  split at h
  · rename_i name args _ made
    cases h
    intro a ha
    exact hn.of_mem_walk (Node.mem_walk_child (made ▸ List.mem_cons_self) ha)
  · cases h

/-! ## Expanding while parsing -/

/-- The texts of expansions are read as legible trees. -/
structure Rereading.Legible (t : Rereading) : Prop where
  expression : ∀ c text, legible.holds (t.expression c text) Node.Legible
  statements : ∀ c text, legible.holds (t.statements c text) fun ns => ∀ n ∈ ns, n.Legible

namespace Rereading

theorem legible_textOf (n : Node) : legible.holds (textOf n) fun _ => True := by
  unfold textOf
  split
  · exact legible.pure trivial
  · exact legible_throw _

theorem legible_expandHere {c : MacroCall} (hc : ∀ a ∈ c.args, a.Legible) :
    legible.holds (expandHere c) fun _ => True := by
  have expanded : legibleWork.holds (Work.expandCall c) fun e => ∀ x ∈ e.injected, IsBare x := by
    intro u hu
    refine ⟨(legible_onlyReports (Work.onlyReports_expandCall c) u hu).1, fun e made => ?_⟩
    exact Work.expandCall_injected hu hc (Prod.ext made rfl)
  refine legible.bind (legible_ofWork expanded) fun e he => ?_
  exact legible.bind (legible_inject he) fun _ _ => legible.pure trivial

namespace Legible

variable {t : Rereading} (ht : t.Legible)

include ht

theorem replaceExpression {c : MacroCall} (hc : ∀ a ∈ c.args, a.Legible) :
    legible.holds (t.replaceExpression c) Node.Legible := by
  refine legible.bind (legible_expandHere hc) fun e _ => ?_
  refine legible.bind (legible_ofWork (legible_onlyReports (Work.onlyReports_ofExpansion _))) ?_
  exact fun n _ => legible.bind (legible_textOf n) fun text _ => ht.expression c text

theorem replaceStatement {c : MacroCall} (hc : ∀ a ∈ c.args, a.Legible) (span : Span) :
    legible.holds (t.replaceStatement c span) fun ns => ∀ n ∈ ns, n.Legible :=
  legible.bind (legible_expandHere hc) fun _ _ =>
    legible.bind (legible_textOf _) fun text _ => ht.statements c text

theorem enter {n : Node} (hn : n.Legible) : legible.holds (t.enter n) fun
    | .done slot => ∀ m ∈ slot.toList, m.Legible
    | .inside _ => True := by
  have args {k : Registry} {n : Node} {c : MacroCall} (hn : n.Legible)
      (h : callHere? k n = some c) : ∀ a ∈ c.args, a.Legible :=
    MacroCall.legible_of_node hn (Option.filter_eq_some_iff.mp h).1
  have kept : ∀ m ∈ (Slot.one n).toList, m.Legible := List.forall_mem_singleton.mpr hn
  refine legible.bind legible_get fun s _ => ?_
  split
  · exact legible.pure kept
  · exact legible.pure kept
  · dsimp only
    split
    · rename_i c statement
      unfold callStatement? at statement
      split at statement
      · rename_i e head slots
        have he : e.Legible := hn.of_mem_walk
          (Node.mem_walk_child (s := .one e) (slots ▸ List.mem_cons_self) List.mem_cons_self)
        exact legible.bind (ht.replaceStatement (args he statement) n.span) fun ns hns =>
          legible.pure hns
      · cases statement
    · rename_i c _ expression
      exact legible.bind (ht.replaceExpression (args hn expression)) fun m hm =>
        legible.pure (List.forall_mem_singleton.mpr hm)
    · exact legible.pure trivial

/-- Expanding the calls in a tree leaves it legible. -/
theorem transform (n : Node) : n.Legible →
    legible.holds (n.transformM t.transform ()) fun slot => ∀ m ∈ slot.toList, m.Legible := by
  induction n using Node.induction_on with
  | step span head slots ih =>
    intro hn
    obtain ⟨own, below⟩ := Node.legible_mk.mp hn
    rw [Node.transformM]
    refine legible.bind (ht.enter hn) fun step hstep => ?_
    cases step with
    | done s => exact legible.pure hstep
    | inside _ =>
      refine legible.bind (legible.transformSlotsM
        (R := fun _ slot => ∀ m ∈ slot.toList, m.Legible) fun s hs n hm => ?_) fun slots' rel => ?_
      · exact ih s hs n hm (below s hs n hm)
      · refine legible.pure (List.forall_mem_singleton.mpr (Node.legible_mk.mpr ⟨own, ?_⟩))
        intro s' hs' m hm
        obtain ⟨s, -, filled⟩ := exists_of_mem_right rel hs'
        cases filled with
        | absent => cases hm
        | one h => exact h m hm
        | many h =>
          obtain ⟨r, hr, hm⟩ := List.mem_flatMap.mp hm
          obtain ⟨n, -, h⟩ := exists_of_mem_right h hr
          exact h m hm

theorem completed {read : Parser Node} (h : legible.holds read Node.Legible) :
    legible.holds (t.completed read) fun slot => ∀ m ∈ slot.toList, m.Legible := by
  have count (k : Nat) : legible.holds
      (modify fun s => { s with pending := k } : Parser PUnit) fun _ => True :=
    legible_still (fun _ => rfl) (fun _ => rfl) fun _ => rfl
  unfold Rereading.completed
  refine legible.bind legible_get fun s _ => legible.bind (count 0) fun _ _ => ?_
  refine legible.bind h fun n hn => legible.bind legible_get fun s' _ => ?_
  split
  · refine legible.bind (p := fun slot : Slot Node => ∀ m ∈ slot.toList, m.Legible)
      (legible.pure (List.forall_mem_singleton.mpr hn)) fun slot hslot => ?_
    exact legible.bind (count _) fun _ _ => legible.pure hslot
  · exact legible.bind (ht.transform n hn) fun slot hslot =>
      legible.bind (count _) fun _ _ => legible.pure hslot

/-! ## Nonterminals at any depth -/

theorem upTo (settings : Settings) (depth : Nat) : (Nonterminals.upTo settings t depth).Legible := by
  induction depth with
  | zero => exact ⟨fun _ => legible_throw _, legible_throw _, legible_throw _⟩
  | succ depth ih =>
    exact ⟨fun l => ih.readExpression l,
      legible.map (ht.completed (ih.plainStatement settings)) fun _ => id, ih.readPattern⟩

theorem here (settings : Settings) :
    legible.holds (Nonterminals.here settings t) Nonterminals.Legible :=
  legible.bind legible_get fun _ _ => legible.pure (ht.upTo settings _)

theorem programWith (settings : Settings) :
    legible.holds (programWith settings t) Node.Legible := by
  have report : legible.holds (ofWork Work.checkpoint) fun _ => True :=
    legible_ofWork (legible_onlyReports Work.onlyReports_checkpoint)
  refine legible.bind (ht.here settings) fun g hg => legible.bind legible_get fun _ _ => ?_
  refine legible.bind legible_openScope fun _ _ => ?_
  refine legible.bind (legible_repeatWhile (P := fun ns : List Node => ∀ n ∈ ns, n.Legible)
    (legible_still (fun _ => rfl) (fun _ => rfl) fun _ => rfl)
    (legible.bind report fun _ _ => hg.statement)) fun nss hns => ?_
  refine legible.bind legible_closeScope fun injected hi => ?_
  refine legible.bind (legible_ofWork (legible_onlyReports (Work.onlyReports_report _))) fun _ _ => ?_
  exact legible.pure
    (Node.legible_scope (h := .program injected) (List.append_nil _) rfl hi _ hns)

theorem statementsWith (settings : Settings) : legible.holds (statementsWith settings t) fun a =>
    (∀ n ∈ a.1, n.Legible) ∧ ∀ x ∈ a.2, IsBare x := by
  refine legible.bind (ht.here settings) fun g hg => legible.bind legible_openScope fun _ _ => ?_
  refine legible.bind (legible_repeatWhile (legible_still (fun _ => rfl) (fun _ => rfl) fun _ => rfl)
    hg.statement) fun nss hns => ?_
  refine legible.bind legible_closeScope fun injected hi => legible.pure ⟨fun n hn => ?_, hi⟩
  obtain ⟨ns, hns', hn⟩ := List.mem_flatten.mp hn
  exact hns ns hns' n hn

theorem expressionWith (settings : Settings) : legible.holds (expressionWith settings t) fun a =>
    a.1.Legible ∧ ∀ x ∈ a.2, IsBare x := by
  refine legible.bind (ht.here settings) fun g hg => legible.bind legible_openScope fun _ _ => ?_
  have whole : legible.holds (do
      let node ← g.anyExpression
      unless ← atEnd do throw (.parse (.expectedToken (.phrase "end of input") (← peek)))
      return node) Node.Legible := by
    refine legible.bind (hg.expression _) fun n hn => ?_
    refine legible.bind (p := fun _ => True)
      (legible_still (fun _ => rfl) (fun _ => rfl) fun _ => rfl) fun ended _ => ?_
    split
    · exact legible.pure hn
    · exact legible.bind Nonterminals.Legible.legible_peek fun _ _ =>
        legible.bind (p := fun _ => True) (legible_throw _) fun _ _ => legible.pure hn
  refine legible.bind (ht.completed whole) fun slot hslot => ?_
  split
  · exact legible.bind legible_closeScope fun injected hi =>
      legible.pure ⟨hslot _ List.mem_cons_self, hi⟩
  · exact legible_throw _

end Legible

/-! ## Texts of expansions -/

section

variable {α : Type} {P : α → Prop}

/-- The tokens of a text, as they are read in place of a call. -/
theorem legible_tokens (source file : String) :
    legibleWork.holds (Work.tokens source file) fun tokens => ∀ t ∈ tokens, t.Worded := by
  intro u hu
  refine ⟨(legible_onlyReports (Work.onlyReports_tokens source file) u hu).1, fun tokens made => ?_⟩
  unfold Work.tokens at made
  cases divided : tokenize source file with
  | error f =>
    rw [divided] at made
    cases made
  | ok ts =>
    rw [divided] at made
    cases made
    exact tokenize_worded divided

theorem legible_within {tokens : List Token} (ht : ∀ t ∈ tokens, t.Worded) {p : Parser α}
    (h : legible.holds p P) : legible.holds (Parser.within tokens p) P := by
  intro s hs
  obtain ⟨kept, made⟩ := h (ParserState.start s.unit tokens) ⟨hs.unit, ht, List.forall_mem_nil _⟩
  exact ⟨⟨kept.unit, hs.tokens, hs.scopes⟩, made⟩

theorem legible_reread (c : MacroCall) (depth : Nat) (text : String) {p : Parser (α × List String)}
    (h : legible.holds p fun a => P a.1 ∧ ∀ x ∈ a.2, IsBare x) :
    legible.holds (reread c depth text p) P := by
  refine legible.bind (legible_ofWork (legibleWork.bind (legible_tokens _ _) fun tokens ht => ?_))
    (p := fun tokens => ∀ t ∈ tokens, t.Worded) fun tokens ht => ?_
  · refine legibleWork.bind (p := fun _ => True) (fun u hu => ⟨hu, fun _ _ => trivial⟩) fun _ _ => ?_
    exact legibleWork.bind (legible_onlyReports (Work.onlyReports_report _)) fun _ _ =>
      legibleWork.pure ht
  · refine legible.bind (legible_within ht h) fun (a, injected) ha => ?_
    exact legible.bind (legible_inject ha.2) fun _ _ => legible.pure ha.1

end

theorem legible_upTo (settings : Settings) (remaining : Nat) :
    (upTo settings remaining).Legible := by
  induction remaining with
  | zero => exact ⟨fun _ _ => legible_throw _, fun _ _ => legible_throw _⟩
  | succ remaining ih =>
    exact ⟨fun c text => legible_reread c _ text (ih.expressionWith settings),
      fun c text => legible_reread c _ text (ih.statementsWith settings)⟩

end Rereading

/-! ## Parsed programs -/

/-- A program that is parsed can be listed and read back from its listing but for what is absent. -/
theorem parse_legible {settings : Settings} {source : String} {n : Node}
    (h : parse settings source = .ok n) : n.Legible ∧ n.Sorted := by
  obtain ⟨u', h⟩ : ∃ u', (do
      let tokens ← Work.tokens source settings.file
      Work.startNames settings tokens
      Work.parse (Parser.program settings) tokens : Work Node) (UnitState.ofSettings settings none) =
        (.ok n, u') := ⟨_, Prod.ext h rfl⟩
  have legibleNone : (UnitState.ofSettings settings none).Legible := List.forall_mem_nil _
  have sortedNone : (UnitState.ofSettings settings none).Sorted := List.forall_mem_nil _
  have legibleParse {tokens : List Token} (worded : ∀ t ∈ tokens, t.Worded) :
      legibleWork.holds (Work.parse (Parser.program settings) tokens) Node.Legible := by
    intro u hu
    obtain ⟨kept, made⟩ := (Rereading.legible_upTo settings settings.maxParseDepth).programWith
      settings (ParserState.start u tokens) ⟨hu, worded, List.forall_mem_nil _⟩
    exact ⟨kept.unit, made⟩
  have sortedParse (tokens : List Token) :
      Work.proper.holds (Work.parse (Parser.program settings) tokens) Node.SortedProgram :=
    Work.proper_parse (Parser.safe_programWith (Rereading.safe_upTo settings _) settings) tokens
  have legible := legibleWork.bind (Rereading.legible_tokens source settings.file) fun tokens ht =>
    legibleWork.bind (x := Work.startNames settings tokens) (p := fun _ => True)
      (fun u hu => ⟨hu, fun _ _ => trivial⟩) fun _ _ => legibleParse ht
  have sorted := Work.proper.bind (Work.proper_tokens source settings.file) fun tokens _ =>
    Work.proper.bind (x := Work.startNames settings tokens) (p := fun _ => True)
      (Work.proper_modify fun _ hu => hu) fun _ _ => sortedParse tokens
  refine ⟨(legible _ legibleNone).2 n (congrArg Prod.fst h), ?_⟩
  have ended := sorted _ sortedNone
  rw [show (_ : Except Fault Node × UnitState) = _ from h] at ended
  cases ended with
  | ok _ made => exact made.sorted

/-! ## Names for what is absent -/

namespace Head

/-- Whether what may be absent is there and has the name by which what is absent is listed. -/
def namesNil : Head → Bool
  | .importDecl _ name | .loopStmt name => name = some "nil"
  | _ => false

/-- What has the name by which what is absent is listed is absent. -/
def unnilled : Head → Head
  | .importDecl path name => .importDecl path (name.filter (· ≠ "nil"))
  | .loopStmt name => .loopStmt (name.filter (· ≠ "nil"))
  | h => h

theorem unnilled_nilled {h : Head} (apart : h.namesNil = false) : h.nilled.unnilled = h := by
  cases h
  case importDecl path name | loopStmt name =>
    cases name with
    | none => rfl
    | some x =>
      have other : x ≠ "nil" := by simpa [namesNil] using apart
      simp [nilled, unnilled, other]
  all_goals rfl

end Head

namespace Node

def unnilled : Node → Node := fold fun span head slots => mk span head.unnilled slots

theorem unnilled_nilled (n : Node) (apart : ∀ m ∈ n.walk, m.head.namesNil = false) :
    n.nilled.unnilled = n.unplaced := by
  induction n using induction_on with
  | step span head slots ih =>
    have own : head.namesNil = false := apart _ (mem_walk_self _)
    have below (s) (hs : s ∈ slots) (n) (hn : n ∈ s.toList) : ∀ m ∈ n.walk, m.head.namesNil = false :=
      fun m hm => apart m (mem_walk_mk.mpr (.inr ⟨s, hs, n, hn, hm⟩))
    rw [nilled_mk, unnilled, fold_mk, ← unnilled, unplaced_mk, Head.unnilled_nilled own,
      List.map_map]
    refine congrArg _ (List.map_congr_left fun s hs => ?_)
    rw [Function.comp_apply, Slot.map_map]
    exact Slot.map_congr fun n hn => ih s hs n hn (below s hs n hn)

theorem nilled_unplaced (n : Node) : n.unplaced.nilled = n.nilled := by
  induction n using induction_on with
  | step span head slots ih =>
    rw [unplaced_mk, nilled_mk, nilled_mk, List.map_map]
    refine congrArg _ (List.map_congr_left fun s hs => ?_)
    rw [Function.comp_apply, Slot.map_map]
    exact Slot.map_congr fun n hn => ih s hs n hn

/-- If nothing is named as what is absent is listed, only places are left out. -/
theorem nilled_eq_iff {a b : Node} (ha : ∀ n ∈ a.walk, n.head.namesNil = false)
    (hb : ∀ n ∈ b.walk, n.head.namesNil = false) : a.nilled = b.nilled ↔ a.unplaced = b.unplaced := by
  constructor
  · intro same
    rw [← unnilled_nilled a ha, ← unnilled_nilled b hb, same]
  · intro same
    rw [← nilled_unplaced a, ← nilled_unplaced b, same]

end Node

/-- Two parsed programs are structurally equal if and only if they are the same but for their
places, where no loop variable and no alias of an import has the name by which one that is absent
is listed. In general they may also differ in whether such a name is there. -/
theorem parse_structurallyEqual {settings settings' : Settings} {source source' : String}
    {a b : Node} (ha : parse settings source = .ok a) (hb : parse settings' source' = .ok b) :
    (a.structurallyEqual b = true ↔ a.nilled = b.nilled) ∧
      ((∀ n ∈ a.walk, n.head.namesNil = false) → (∀ n ∈ b.walk, n.head.namesNil = false) →
        (a.structurallyEqual b = true ↔ a.unplaced = b.unplaced)) := by
  obtain ⟨legibleA, sortedA⟩ := parse_legible ha
  obtain ⟨legibleB, sortedB⟩ := parse_legible hb
  have same := Node.structurallyEqual_iff legibleA legibleB sortedA sortedB
  exact ⟨same, fun apartA apartB => same.trans (Node.nilled_eq_iff apartA apartB)⟩

/-- The texts of one loop, written with other blanks. -/
theorem parse_structurallyEqual_loop : ∃ a b,
    parse {} "<+ ((x <- xs)) [[ ]] +>" = .ok a ∧ parse {} "<+((x<-xs))[[]]+>" = .ok b ∧
      a.unplaced = b.unplaced ∧ a.nilled = b.nilled := by
  have reads : ((parse {} "<+ ((x <- xs)) [[ ]] +>").toOption.bind fun a =>
      (parse {} "<+((x<-xs))[[]]+>").toOption.map fun b =>
        (a.structurallyEqual b, a.walk.any (·.head.namesNil), b.walk.any (·.head.namesNil))) =
      some (true, false, false) := by
    decide +kernel
  obtain ⟨a, ha, reads⟩ := Option.bind_eq_some_iff.mp reads
  obtain ⟨b, hb, found⟩ := Option.map_eq_some_iff.mp reads
  obtain ⟨same, found⟩ := Prod.mk.inj found
  obtain ⟨apartA, apartB⟩ := Prod.mk.inj found
  have ha := ok_of_toOption ha
  have hb := ok_of_toOption hb
  obtain ⟨loose, exact'⟩ := parse_structurallyEqual ha hb
  refine ⟨a, b, ha, hb, (exact' ?_ ?_).mp same, loose.mp same⟩
  · exact fun n hn => Bool.eq_false_iff.mpr (List.any_eq_false.mp apartA n hn)
  · exact fun n hn => Bool.eq_false_iff.mpr (List.any_eq_false.mp apartB n hn)

/-- A loop over something with a variable that is called as what is absent is listed, and a loop
under a condition, which has no variable. -/
theorem structurallyEqual_nil_variable : ∃ a b,
    parse {} "<+ ((nil <- xs)) [[ ]] +>" = .ok a ∧ parse {} "<+ ((xs)) [[ ]] +>" = .ok b ∧
      a.structurallyEqual b = true ∧ a.unplaced ≠ b.unplaced := by
  have reads : ((parse {} "<+ ((nil <- xs)) [[ ]] +>").toOption.bind fun a =>
      (parse {} "<+ ((xs)) [[ ]] +>").toOption.map fun b =>
        (a.structurallyEqual b, decide (a.walk.map Node.head = b.walk.map Node.head))) =
      some (true, false) := by
    decide +kernel
  obtain ⟨a, ha, reads⟩ := Option.bind_eq_some_iff.mp reads
  obtain ⟨b, hb, found⟩ := Option.map_eq_some_iff.mp reads
  obtain ⟨same, heads⟩ := Prod.mk.inj found
  refine ⟨a, b, ok_of_toOption ha, ok_of_toOption hb, same, fun equal => ?_⟩
  refine of_decide_eq_false heads ?_
  have headOf (n : Node) : n.unplaced.walk.map Node.head = n.walk.map Node.head := by
    rw [Node.walk_unplaced, List.map_map]
    exact List.map_congr_left fun m _ => m.head_unplaced
  rw [← headOf a, ← headOf b, equal]

end GlyphScript
