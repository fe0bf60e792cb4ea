import GlyphScript.Proofs.Parsing.Conduct.Grammar

/-!
# The conduct of whole parsers

Expansions that are read again as text make no difference: what takes the place
of a call is regular too.
-/

namespace GlyphScript

open GlyphScript.Parser

/-! ## Texts of expansions -/

/-- What is asked of reading the texts of expansions. -/
structure Rereading.Conduct (t : Rereading) : Prop where
  expression : ∀ r c text, Conducts r (t.expression c text) fun r n => n.Part r.scope
  statements : ∀ r c text,
    Conducts r (t.statements c text) fun r ns => ∀ n ∈ ns, n.Regular r.scope

/-- What is done around reading a tree whose calls are to be expanded. -/
theorem Rereading.completed_eq (t : Rereading) (read : Parser Node) : t.completed read =
    get >>= fun outer => (modify fun s : ParserState => { s with pending := 0 }) >>= fun _ =>
      read >>= fun n => get >>= fun s =>
        (if s.pending = 0 then pure (.one n) else n.transformM t.transform ()) >>= fun slot =>
          (modify fun s : ParserState => { s with pending := outer.pending }) >>= fun _ =>
            pure slot := by
  unfold completed
  simp only [ite_bind]

namespace Rereading.Conduct

variable {t : Rereading} (ht : t.Conduct) {r : Registry}

theorem expandHere (c : MacroCall) : Conducts r (Rereading.expandHere c) fun _ _ => True := by
  refine (Conducts.work (Work.onlyReports_expandCall c)).bind fun e r₁ _ _ => ?_
  exact (conducts_inject _).bind fun _ r₂ _ _ => .pure fun _ _ => trivial

theorem textOf (n : Node) : Conducts r (Rereading.textOf n) fun _ _ => True := by
  unfold Rereading.textOf
  split
  · exact .pure fun _ _ => trivial
  · exact .throw _

theorem replaced_onward {n : Node} {s : Slot Node} {r' : Registry} (h : n.Replaced r.scope s)
    (le : r ≤ r') : n.Replaced r'.scope s := by
  refine ⟨fun m hm => (h.regular m hm).onward le, fun hn => ?_⟩
  obtain ⟨m, e, hm⟩ := h.part hn
  exact ⟨m, e, hm.onward le⟩

theorem replacedIn_onward {s s' : Slot Node} {r' : Registry} (h : Node.ReplacedIn r.scope s s')
    (le : r ≤ r') : Node.ReplacedIn r'.scope s s' :=
  ⟨fun m hm => (h.regular m hm).onward le,
    fun bare => (h.parts bare).imp fun _ _ h => h.onward le⟩

include ht

theorem replaceExpression (c : MacroCall) :
    Conducts r (t.replaceExpression c) fun r n => n.Part r.scope := by
  refine (expandHere c).bind fun e r₁ _ _ => ?_
  refine (Conducts.work (Work.onlyReports_ofExpansion _)).bind fun n r₂ _ _ => ?_
  exact (textOf n).bind fun text r₃ _ _ => ht.expression r₃ c text

theorem replaceStatement (c : MacroCall) (span : Span) :
    Conducts r (t.replaceStatement c span) fun r ns => ∀ n ∈ ns, n.Regular r.scope := by
  refine (expandHere c).bind fun e r₁ _ _ => ?_
  exact (textOf _).bind fun text r₂ _ _ => ht.statements r₂ c text

theorem enter (n : Node) (hn : n.Regular r.scope) : Conducts r (t.enter n) fun r step =>
    match step with
    | .done s => n.Replaced r.scope s
    | .inside _ => True := by
  have same (r' : Registry) (le : r ≤ r') : n.Replaced r'.scope (.one n) :=
    Node.replaced_self (hn.onward le)
  refine .of_get fun s => ?_
  dsimp only
  split
  · exact .pure same
  · exact .pure same
  · split
    · rename_i c hc
      refine (ht.replaceStatement c n.span).bind fun ns r₁ _ hns => .pure fun r₂ le => ?_
      refine ⟨fun m hm => (hns m hm).onward le, fun bare => ?_⟩
      unfold callStatement? at hc
      split at hc
      · rename_i e _
        exact absurd e bare
      · nomatch hc
    · rename_i c _ hc
      exact (ht.replaceExpression c).bind fun m r₁ _ hm => .pure fun r₂ le =>
        Node.replaced_one (hm.onward le)
    · exact .pure fun _ _ => trivial

theorem transform (n : Node) : ∀ r : Registry, n.Regular r.scope →
    Conducts r (n.transformM t.transform ()) fun r s => n.Replaced r.scope s := by
  induction n using Node.induction_on with
  | step span head slots ih =>
    intro r hn
    have slot : ∀ s ∈ slots, ∀ r' : Registry, r ≤ r' → (∀ n ∈ s.toList, n.Regular r'.scope) →
        Conducts r' (Node.transformSlotM t.transform () s) fun r s' => Node.ReplacedIn r.scope s s' := by
      intro s hs r' le hs'
      cases s with
      | absent => exact .pure fun _ _ => Node.replacedIn_absent
      | one n =>
        exact (ih _ hs n List.mem_cons_self r' (hs' n List.mem_cons_self)).map fun _ _ _ h =>
          Node.replacedIn_one h
      | many ns =>
        rw [Node.transformSlotM, Node.transformListM_eq, ← LawfulFunctor.comp_map]
        refine (Conducts.mapM (q := fun r n => n.Regular r.scope) (p := fun r n s => n.Replaced r.scope s) ?_ ?_ ?_ ?_).map fun r₁ ss _ h => Node.replaced_many h
        · exact fun _ _ _ le h => h.onward le
        · exact fun _ _ _ _ le h => replaced_onward h le
        · exact fun n hn r₁ _ h => ih _ hs n hn r₁ h
        · exact hs'
    have inside : Conducts r (Node.transformSlotsM t.transform () slots >>= fun slots' =>
        t.transform.leave () (.mk span head slots')) fun r s => (Node.mk span head slots).Replaced r.scope s := by
      rw [Node.transformSlotsM_eq]
      refine (Conducts.mapM (q := fun r s => ∀ n ∈ s.toList, n.Regular r.scope) (p := fun r s s' => Node.ReplacedIn r.scope s s') ?_ ?_ slot ?_).bind fun slots' r₁ le₁ h => ?_
      · exact fun _ _ _ le h n hn => (h n hn).onward le
      · exact fun _ _ _ _ le h => replacedIn_onward h le
      · exact (Node.regular_mk.mp hn).2
      · exact .pure fun r₂ le₂ => replaced_onward (Node.replaced_node (hn.onward le₁) h) le₂
    rw [Node.transformM]
    refine (enter ht _ hn).bind fun step r₁ le h => ?_
    cases step with
    | done s => exact .pure fun r₂ le₂ => replaced_onward h le₂
    | inside _ => exact inside.onward le

/-- What becomes of a tree when its calls have been expanded; `alone` says whether it has to be a
part. -/
theorem completed {read : Parser Node} {alone : Prop}
    (h : ∀ r, Conducts r read fun r n =>
      n.Regular r.scope ∧ (alone → n.head ≠ .expressionStmt)) (r : Registry) :
    Conducts r (t.completed read) fun r s =>
      (∀ m ∈ s.toList, m.Regular r.scope) ∧ (alone → ∃ m, s = .one m ∧ m.Part r.scope) := by
  rw [completed_eq]
  refine .of_get fun s₀ => ?_
  refine (conducts_pending 0).bind fun _ r₁ _ _ => ?_
  refine (h r₁).bind fun n r₂ _ hn => .of_get fun s => ?_
  have slot : Conducts r₂ (if s.pending = 0 then pure (.one n) else n.transformM t.transform ())
      fun r s => n.Replaced r.scope s := by
    exact .ite (.pure fun r' le => Node.replaced_self (hn.1.onward le)) (ht.transform n r₂ hn.1)
  refine slot.bind fun slot r₃ _ hs => ?_
  refine (conducts_pending _).bind fun _ r₄ le₄ _ => .pure fun r₅ le₅ => ?_
  have hs := replaced_onward hs (le_trans le₄ le₅)
  exact ⟨hs.regular, fun ha => hs.part (hn.2 ha)⟩

end Rereading.Conduct

/-! ## Nonterminals at any depth -/

namespace Nonterminals

variable {t : Rereading} (ht : t.Conduct) (settings : Settings)

include ht

theorem conduct_upTo (depth : Nat) : (upTo settings t depth).Conduct := by
  induction depth with
  | zero => exact ⟨fun _ _ => .throw _, fun _ => .throw _, fun _ => .throw _⟩
  | succ depth ih =>
    refine ⟨fun r l => ih.readExpression l r, fun r => ?_, fun r => ih.readPattern r⟩
    have plain : ∀ r, Conducts r ((upTo settings t depth).plainStatement settings) fun r n =>
        n.Regular r.scope ∧ (False → n.head ≠ .expressionStmt) :=
      fun r => (ih.plainStatement settings r).mono fun _ _ _ h => ⟨h, False.elim⟩
    exact (ht.completed plain r).map fun r' s _ h n hn => h.1 n hn

theorem conducts_here {α : Type} {r : Registry} {f : Nonterminals → Parser α}
    {post : Registry → α → Prop} (h : ∀ g : Nonterminals, g.Conduct → Conducts r (f g) post) :
    Conducts r (here settings t >>= f) post := by
  unfold here
  rw [bind_assoc]
  refine .of_get fun s => ?_
  rw [pure_bind]
  exact h _ (conduct_upTo ht settings _)

end Nonterminals

/-! ## Whole texts -/

section

variable {t : Rereading} (ht : t.Conduct) (settings : Settings) {r : Registry}

theorem conducts_atEnd : Conducts r (not <$> atEnd) fun _ _ => True := by
  have ends : Conducts r atEnd fun _ _ => True :=
    conducts_peek.bind fun _ _ _ _ => .pure fun _ _ => trivial
  exact ends.map fun _ _ _ _ => trivial

include ht

theorem conducts_programWith :
    Conducts r (programWith settings t) fun r n => n.Part r.scope := by
  refine Nonterminals.conducts_here ht settings fun g hg => .of_get fun s => ?_
  refine conducts_openScope.bind fun _ r₂ _ _ => ?_
  refine (Conducts.repeatWhile (p := fun r ns => ∀ n ∈ ns, n.Regular r.scope) ?_
    (fun r _ => conducts_atEnd) fun r _ => ?_).bind fun nss r₃ _ hs => ?_
  · exact fun r r' ns le h n hn => (h n hn).onward le
  · exact (Conducts.work Work.onlyReports_checkpoint).bind fun _ r _ _ => hg.statement r
  refine conducts_closeScope.bind fun injected r₄ le₄ _ => ?_
  refine (Conducts.work (Work.onlyReports_report _)).bind fun _ r₅ le₅ _ => ?_
  refine .pure fun r₆ le₆ => Node.part_scope rfl fun n hn => ?_
  obtain ⟨ns, hns, hn⟩ := List.mem_flatten.mp hn
  exact (hs ns hns n hn).onward (le_trans (le_trans le₄ le₅) le₆)

theorem conducts_statementsWith : Conducts r (statementsWith settings t) fun r a =>
    ∀ n ∈ a.1, n.Regular r.scope := by
  refine Nonterminals.conducts_here ht settings fun g hg => ?_
  refine conducts_openScope.bind fun _ r₂ _ _ => ?_
  refine (Conducts.repeatWhile (p := fun r ns => ∀ n ∈ ns, n.Regular r.scope) ?_
    (fun r _ => conducts_atEnd) fun r _ => hg.statement r).bind fun nss r₃ _ hs => ?_
  · exact fun r r' ns le h n hn => (h n hn).onward le
  refine conducts_closeScope.bind fun injected r₄ le₄ _ => .pure fun r₅ le₅ n hn => ?_
  obtain ⟨ns, hns, hn⟩ := List.mem_flatten.mp hn
  exact (hs ns hns n hn).onward (le_trans le₄ le₅)

theorem conducts_expressionWith : Conducts r (expressionWith settings t) fun r a =>
    a.1.Part r.scope := by
  refine Nonterminals.conducts_here ht settings fun g hg => ?_
  refine conducts_openScope.bind fun _ r₂ _ _ => ?_
  have whole : ∀ r, Conducts r (do
      let node ← g.anyExpression
      unless ← atEnd do throw (.parse (.expectedToken (.phrase "end of input") (← peek)))
      return node) fun r n => n.Regular r.scope ∧ (True → n.head ≠ .expressionStmt) := by
    intro r
    refine (hg.expression r _).bind fun n r₁ _ hn => ?_
    refine (conducts_atEnd.of_map).bind fun b r₂ le₂ _ => ?_
    cases b
    · refine conducts_peek.bind fun token r₃ le₃ _ => ?_
      exact Conducts.bind (Conducts.throw _) fun _ _ _ (h : False) => h.elim
    · exact .pure fun r₃ le₃ => ⟨(hn.onward (le_trans le₂ le₃)).regular, fun _ => hn.bare⟩
  refine (ht.completed whole r₂).bind fun slot r₃ _ hs => ?_
  obtain ⟨m, rfl, hm⟩ := hs.2 trivial
  exact conducts_closeScope.bind fun _ r₄ le₄ _ => .pure fun r₅ le₅ =>
    hm.onward (le_trans le₄ le₅)

omit ht in
theorem conducts_within {α : Type} {tokens : List Token} {p : Parser α}
    {post : Registry → α → Prop} (h : Conducts r p post) :
    Conducts r (within tokens p) post :=
  fun s hr le => h (ParserState.start s.unit tokens) hr le

omit ht in
theorem conducts_reread {α : Type} (c : MacroCall) (depth : Nat) (text : String)
    {p : Parser (α × List String)} {post : Registry → α → Prop}
    (lasting : ∀ r r' a, r ≤ r' → post r a → post r' a)
    (h : ∀ r, Conducts r p fun r a => post r a.1) :
    Conducts r (reread c depth text p) post := by
  refine Conducts.bind ?_ fun tokens r₁ _ (_ : True) => ?_
  · refine .work ((Work.onlyReports_tokens _ _).bind fun tokens => ?_)
    refine Work.OnlyReports.bind (fun _ => ⟨rfl, List.suffix_rfl⟩) fun _ => ?_
    exact (Work.onlyReports_report _).bind fun _ => .pure _
  · refine (conducts_within (h r₁)).bind fun a r₂ _ ha => ?_
    exact (conducts_inject _).bind fun _ r₃ le₃ _ => .pure fun r₄ le₄ =>
      lasting _ _ _ (le_trans le₃ le₄) ha

end

theorem Rereading.conduct_upTo (settings : Settings) (remaining : Nat) :
    (Rereading.upTo settings remaining).Conduct := by
  induction remaining with
  | zero => exact ⟨fun _ _ _ => .throw _, fun _ _ _ => .throw _⟩
  | succ remaining ih =>
    refine ⟨fun r c text => ?_, fun r c text => ?_⟩
    · exact conducts_reread _ _ _ (fun _ _ _ le h => h.onward le)
        fun r => conducts_expressionWith ih settings
    · exact conducts_reread _ _ _ (fun _ _ _ le h n hn => (h n hn).onward le)
        fun r => conducts_statementsWith ih settings

/-- Parsing a program registers regular macros only, and the program is regular. -/
theorem conducts_program (settings : Settings) (r : Registry) :
    Conducts r (program settings) fun r n => n.Part r.scope :=
  conducts_programWith (Rereading.conduct_upTo settings _) settings

end GlyphScript
