import GlyphScript.Proofs.Inline.Uses
import GlyphScript.Proofs.Parsing.Reading

/-!
# Counting calls

A parser comes to the ends of definitions and calls one after another. When it
counts no call to be expanded while parsing, no macro that it calls was known
before to be such a one.
-/

namespace GlyphScript

open GlyphScript.Parser
open MacroUse (Within)

/-! ## What a parser comes to -/

/-- From the first state to the second the ends of these definitions and calls are come to. -/
structure ParserState.Leads (counts : Bool) (s s' : ParserState) (us : List MacroUse) : Prop where
  known : ∀ name, .defined name .parse ∈ us → s'.unit.Expands name
  pending : s.pending ≤ s'.pending
  level : counts = false → s'.pending = s.pending
  /-- Where no call is counted, none is one to be expanded while parsing. -/
  settled : s'.pending = s.pending →
    us.Pairwise MacroUse.Apart ∧ ∀ name, .called name ∈ us → ¬ s.unit.Expands name

namespace ParserState.Leads

variable {c : Bool} {s s' s'' : ParserState} {us vs : List MacroUse}

theorem nil (pending : s'.pending = s.pending) : Leads c s s' [] where
  known _ h := nomatch h
  pending := Nat.le_of_eq pending.symm
  level _ := pending
  settled _ := ⟨.nil, fun _ h => nomatch h⟩

/-- At most one definition or call is come to, and no call is counted. -/
theorem own {use : Option MacroUse} (pending : s'.pending = s.pending)
    (known : ∀ name, use = some (.defined name .parse) → s'.unit.Expands name)
    (fresh : ∀ name, use = some (.called name) → ¬ s.unit.Expands name) :
    Leads c s s' use.toList where
  known name hu := known name (Option.mem_toList.mp hu)
  pending := Nat.le_of_eq pending.symm
  level _ := pending
  settled _ := by
    refine ⟨?_, fun name hu => fresh name (Option.mem_toList.mp hu)⟩
    cases use with
    | none => exact .nil
    | some u => exact List.pairwise_singleton ..

theorem within (h : Leads c s s' us) (hv : Within vs us) : Leads c s s' vs where
  known name hu := h.known name (hv.subset _ hu)
  pending := h.pending
  level := h.level
  settled e := ⟨hv.apart (h.settled e).1, fun name hu => (h.settled e).2 name (hv.subset _ hu)⟩

theorem append (h : Leads c s s' us) (h' : Leads c s' s'' vs)
    (grown : s.unit.registrations <:+ s'.unit.registrations)
    (grown' : s'.unit.registrations <:+ s''.unit.registrations) : Leads c s s'' (us ++ vs) where
  known name hu := by
    rcases List.mem_append.mp hu with hu | hu
    · exact grown'.subset (h.known name hu)
    · exact h'.known name hu
  pending := Nat.le_trans h.pending h'.pending
  level e := (h'.level e).trans (h.level e)
  settled e := by
    have := h.pending
    have := h'.pending
    obtain ⟨apart, fresh⟩ := h.settled (by omega)
    obtain ⟨apart', fresh'⟩ := h'.settled (by omega)
    refine ⟨List.pairwise_append.mpr ⟨apart, apart', ?_⟩, fun name hu => ?_⟩
    · rintro a ha b hb name rfl rfl
      exact fresh' name hb (h.known name ha)
    · rcases List.mem_append.mp hu with hu | hu
      · exact fresh name hu
      · exact fun registered => fresh' name hu (grown.subset registered)

end ParserState.Leads

/-- Where the macros in `k` are known already to be expanded while parsing, the parser comes to
definitions and calls that are as `P` says of its result. -/
def Tracks {α : Type} (counts : Bool) (k : String → Prop) (x : Parser α)
    (P : List MacroUse → α → Prop) : Prop :=
  ∀ s a s', x s = (.ok a, s') → s.unit.Faithful →
    (s.unit.SinglePhase → ∀ name, k name → s.unit.Expands name) → s'.unit.Faithful ∧
    s.unit.registrations <:+ s'.unit.registrations ∧
      (s'.unit.SinglePhase → ∃ us, s.Leads counts s' us ∧ P us a)

namespace Tracks

variable {α β : Type} {c : Bool} {k : String → Prop} {x : Parser α} {P : List MacroUse → α → Prop}

theorem mono {P' : List MacroUse → α → Prop} (hx : Tracks c k x P) (h : ∀ us a, P us a → P' us a) :
    Tracks c k x P' := by
  intro s a s' run faithful known
  obtain ⟨kept, grown, made⟩ := hx s a s' run faithful known
  refine ⟨kept, grown, fun single => ?_⟩
  obtain ⟨us, leads, hus⟩ := made single
  exact ⟨us, leads, h us a hus⟩

theorem bind {f : α → Parser β} {Q : List MacroUse → β → Prop} (hx : Tracks c k x P)
    (hf : ∀ a us, Tracks c k (f a) fun vs b => P us a → Q (us ++ vs) b) :
    Tracks c k (x >>= f) Q := by
  intro s b s'' run faithful known
  obtain ⟨a, s', first, second⟩ := bind_ok.mp run
  obtain ⟨kept, grown, made⟩ := hx s a s' first faithful known
  have known' (single : s'.unit.SinglePhase) (name) (h : k name) : s'.unit.Expands name :=
    grown.subset (known (single.before grown) name h)
  obtain ⟨kept', grown', -⟩ := hf a [] s' b s'' second kept known'
  refine ⟨kept', grown.trans grown', fun single => ?_⟩
  obtain ⟨us, leads, hus⟩ := made (single.before grown')
  obtain ⟨vs, leads', hvs⟩ := (hf a us s' b s'' second kept known').2.2 single
  exact ⟨us ++ vs, leads.append leads' grown grown', hvs hus⟩

theorem pure (a : α) : Tracks c k (Pure.pure a) fun us b => us = [] ∧ b = a := by
  intro s b s' run faithful _
  cases run
  exact ⟨faithful, List.suffix_rfl, fun _ => ⟨[], .nil rfl, rfl, rfl⟩⟩

theorem throw (fault : Fault) : Tracks c k (throw fault : Parser α) P := by
  rintro s a s' ⟨⟩

/-- A parser that comes to no definition and no call. -/
theorem quiet (unit : ∀ s, (x s).2.unit = s.unit) (pending : ∀ s, (x s).2.pending = s.pending) :
    Tracks c k x fun us _ => us = [] := by
  intro s a s' run faithful _
  have unit := unit s
  have pending := pending s
  rw [run] at unit pending
  dsimp only at unit pending
  rw [unit]
  exact ⟨faithful, List.suffix_rfl, fun _ => ⟨[], .nil pending, rfl⟩⟩

theorem map {f : α → β} {Q : List MacroUse → β → Prop} (hx : Tracks c k x P)
    (h : ∀ us a, P us a → Q us (f a)) : Tracks c k (f <$> x) Q := by
  rw [map_eq_pure_bind]
  refine hx.bind fun a us => (pure (f a)).mono fun vs b hb ha => ?_
  obtain ⟨rfl, rfl⟩ := hb
  rw [List.append_nil]
  exact h _ _ ha

theorem bind_pure {f : α → β} {Q : List MacroUse → β → Prop} (hx : Tracks c k x P)
    (h : ∀ us a, P us a → Q us (f a)) : Tracks c k (x >>= fun a => Pure.pure (f a)) Q := by
  rw [bind_pure_comp]
  exact hx.map h

theorem of_map {f : α → β} {Q : List MacroUse → β → Prop} (h : Tracks c k (f <$> x) Q) :
    Tracks c k x fun us a => Q us (f a) := by
  intro s a s' run
  refine h s (f a) s' ?_
  rw [run_map, run]

theorem of_get {f : ParserState → Parser β} {Q : List MacroUse → β → Prop}
    (h : ∀ s, Tracks c k (f s) Q) : Tracks c k (get >>= f) Q :=
  fun s => h s s

theorem ite {b : Prop} [Decidable b] {y : Parser α} (hx : Tracks c k x P) (hy : Tracks c k y P) :
    Tracks c k (if b then x else y) P := by
  split
  · exact hx
  · exact hy

/-- After what comes to nothing. -/
theorem quiet_bind {f : α → Parser β} {Q : List MacroUse → β → Prop}
    (hx : Tracks c k x fun us _ => us = []) (hf : ∀ a, Tracks c k (f a) Q) :
    Tracks c k (x >>= f) Q :=
  hx.bind fun a us => (hf a).mono fun _ _ h none => by
    rw [none]
    exact h

/-- In front of what comes to nothing. -/
theorem bind_quiet {f : α → Parser β} {Q : List MacroUse → β → Prop} (hx : Tracks c k x P)
    (hf : ∀ a, Tracks c k (f a) fun vs b => vs = [] ∧ ∀ us, P us a → Q us b) :
    Tracks c k (x >>= f) Q := by
  refine hx.bind fun a us => (hf a).mono fun vs b h ha => ?_
  obtain ⟨rfl, h⟩ := h
  rw [List.append_nil]
  exact h us ha

theorem repeatUpTo {test : Parser Bool} {f : α → List MacroUse}
    (ht : Tracks c k test fun us _ => us = []) (hx : Tracks c k x fun us a => Within (f a) us)
    (fuel : Nat) :
    Tracks c k (repeatUpTo test x fuel) fun us as => Within (as.flatMap f) us := by
  induction fuel with
  | zero => exact .throw _
  | succ fuel ih =>
    rw [Parser.repeatUpTo_succ]
    refine ht.quiet_bind fun b => ?_
    cases b with
    | false =>
      refine (pure []).mono fun us as h => ?_
      rw [h.2]
      exact .nil us
    | true =>
      refine hx.bind fun a us => ih.bind_pure fun vs as others first => ?_
      rw [List.flatMap_cons]
      exact first.append others

theorem repeatWhile {test : Parser Bool} {f : α → List MacroUse}
    (ht : Tracks c k test fun us _ => us = []) (hx : Tracks c k x fun us a => Within (f a) us) :
    Tracks c k (repeatWhile test x) fun us as => Within (as.flatMap f) us :=
  .of_get fun _ => repeatUpTo ht hx _

/-- What counts no call does as well where calls may be counted. -/
theorem counting (h : Tracks false k x P) : Tracks c k x P := by
  intro s a s' run faithful known
  obtain ⟨kept, grown, made⟩ := h s a s' run faithful known
  refine ⟨kept, grown, fun single => ?_⟩
  obtain ⟨us, leads, hus⟩ := made single
  exact ⟨us, ⟨leads.known, leads.pending, fun _ => leads.level rfl, leads.settled⟩, hus⟩

theorem mapM {f : α → Parser β} {uses : β → List MacroUse} {as : List α}
    (h : ∀ a ∈ as, Tracks c k (f a) fun us b => Within (uses b) us) :
    Tracks c k (as.mapM f) fun us bs => bs.length = as.length ∧ Within (bs.flatMap uses) us := by
  induction as with
  | nil =>
    rw [List.mapM_nil]
    refine (pure []).mono fun us bs made => ?_
    rw [made.2]
    exact ⟨rfl, .nil us⟩
  | cons a as ih =>
    rw [List.mapM_cons]
    refine (h a List.mem_cons_self).bind fun b us => ?_
    refine (ih fun a ha => h a (List.mem_cons_of_mem _ ha)).bind_pure fun vs bs others first => ?_
    rw [List.flatMap_cons]
    exact ⟨congrArg Nat.succ others.1, first.append others.2⟩

end Tracks

/-! ## Tokens, constructs and scopes -/

section

variable {α : Type} {c : Bool} {k : String → Prop}

theorem tracks_peek : Tracks c k peek fun us _ => us = [] := .quiet (fun _ => rfl) fun _ => rfl

theorem tracks_check (r : Reserved) : Tracks c k (check r) fun us _ => us = [] :=
  .quiet (fun _ => rfl) fun _ => rfl

theorem tracks_checkBinding : Tracks c k checkBinding fun us _ => us = [] :=
  .quiet (fun s => by rw [checkBinding_run]) fun s => by rw [checkBinding_run]

theorem tracks_spanFrom (start : Token) : Tracks c k (spanFrom start) fun us _ => us = [] :=
  .quiet (fun _ => rfl) fun _ => rfl

theorem tracks_failExpecting {P : List MacroUse → α → Prop} (e : Expected) :
    Tracks c k (failExpecting e : Parser α) P := by
  intro s a s' run
  rw [failExpecting_run] at run
  cases run

theorem tracks_consume (r : Reserved) : Tracks c k (consume r) fun us _ => us = [] := by
  refine .quiet (fun s => ?_) fun s => ?_ <;>
  · rw [consume_run]
    split <;> rfl

theorem tracks_consumeName (what : String) : Tracks c k (consumeName what) fun us _ => us = [] := by
  refine .quiet (fun s => ?_) fun s => ?_ <;>
  · rw [consumeName_run]
    split <;> rfl

theorem tracks_openConstruct (d : Construct) : Tracks c k (openConstruct d) fun us _ => us = [] :=
  (tracks_consume _).quiet_bind fun t => .quiet_bind (.quiet (fun _ => rfl) fun _ => rfl) fun _ =>
    (Tracks.pure t).mono fun _ _ h => h.1

theorem tracks_closeConstruct : Tracks c k closeConstruct fun us _ => us = [] := by
  refine .quiet (fun s => ?_) fun s => ?_ <;>
  · rw [closeConstruct_run]
    split
    · rfl
    · split <;> rfl

theorem tracks_openScope : Tracks c k openScope fun us _ => us = [] :=
  .quiet (fun _ => rfl) fun _ => rfl

theorem tracks_closeScope : Tracks c k closeScope fun us _ => us = [] := by
  refine .quiet (fun s => ?_) fun s => ?_ <;>
  · rw [closeScope_run]
    split <;> rfl

theorem tracks_inject (names : List String) : Tracks c k (inject names) fun us _ => us = [] := by
  refine .quiet (fun s => ?_) fun s => ?_ <;>
  · rw [inject, run_modify]
    dsimp only
    split <;> rfl

theorem tracks_work {w : Work α} (reports : w.OnlyReports) (nothing : w.RegistersNothing) :
    Tracks c k (ofWork w) fun us _ => us = [] := by
  intro s a s' run faithful _
  have registry := (reports s.unit).1
  have registrations := nothing s.unit
  obtain rfl : { s with unit := (w s.unit).2 } = s' := congrArg Prod.snd run
  refine ⟨fun single name => ?_, registrations ▸ List.suffix_rfl, fun _ => ⟨[], .nil rfl, rfl⟩⟩
  show _ → isExpandedHere (w s.unit).2.registry name = true
  unfold UnitState.SinglePhase at single
  unfold UnitState.Expands
  rw [registry]
  rw [registrations] at single ⊢
  exact faithful single name

/-- At its end a definition is registered and a call is counted, if it is one to be. -/
theorem tracks_announce (span : Span) (head : Head) (slots : List (Slot Node)) :
    Tracks true k (announce (.mk span head slots)) fun us _ =>
      us = (head.use? slots.length).toList := by
  have nothing (h : announce (.mk span head slots) = pure ())
      (none : head.use? slots.length = none) :
      Tracks true k (announce (.mk span head slots)) fun us _ =>
        us = (head.use? slots.length).toList := by
    rw [h, none]
    exact (Tracks.pure ()).mono fun _ _ h => h.1
  cases head
  case macroDef name params phase hygiene =>
    obtain _ | ⟨rules, _ | ⟨template, _ | ⟨slot, slots⟩⟩⟩ := slots
    case cons.cons.nil =>
      intro s a s' run faithful _
      obtain ⟨d, named, phased, made⟩ : ∃ d : MacroDefinition, d.name = name ∧ d.phase = phase ∧
          announce (.mk span (.macroDef name params phase hygiene) [rules, template]) =
            ofWork (Work.register d) := ⟨_, rfl, rfl, rfl⟩
      rw [made] at run
      obtain rfl : { s with unit := (Work.register d s.unit).2 } = s' := congrArg Prod.snd run
      obtain ⟨registrations, -⟩ := Work.registrations_register d s.unit
      refine ⟨Work.faithful_register d faithful, registrations ▸ List.suffix_cons .., fun _ => ?_⟩
      refine ⟨_, .own rfl (fun x hx => ?_) (fun x hx => by cases hx), rfl⟩
      obtain ⟨rfl, rfl⟩ := MacroUse.defined.inj (Option.some.inj hx)
      unfold UnitState.Expands
      rw [registrations, named, phased]
      exact List.mem_cons_self
    all_goals exact nothing rfl rfl
  case macroCall name deferred =>
    cases deferred with
    | true => exact nothing rfl rfl
    | false =>
      intro s a s' run faithful _
      rw [announce_macroCall] at run
      obtain rfl : (if isExpandedHere s.unit.registry name then { s with pending := s.pending + 1 }
        else s) = s' := congrArg Prod.snd run
      have own :
          (Head.use? (.macroCall name false) slots.length).toList.Sublist [.called name] := by
        unfold Head.use?
        split
        · contradiction
        · rename_i called _
          cases called
          exact List.Sublist.refl _
        · exact List.nil_sublist _
      have leads (s' : ParserState) (pending : s.pending ≤ s'.pending)
          (counted : s'.pending = s.pending → isExpandedHere s.unit.registry name = false)
          (single : s.unit.SinglePhase) : s.Leads true s' [.called name] := by
        refine ⟨fun x hx => ?_, pending, nofun, fun level => ⟨List.pairwise_singleton .., ?_⟩⟩
        · cases List.mem_singleton.mp hx
        · intro x hx registered
          obtain rfl := MacroUse.called.inj (List.mem_singleton.mp hx)
          rw [faithful single _ registered] at counted
          cases counted level
      split
      · have counted := leads { s with pending := s.pending + 1 } (Nat.le_succ _)
          fun level => absurd level (Nat.succ_ne_self _)
        exact ⟨faithful, List.suffix_rfl, fun single =>
          ⟨_, (counted single).within (.of_sublist own), rfl⟩⟩
      · rename_i unknown
        have uncounted := leads s (Nat.le_refl _) fun _ => Bool.eq_false_iff.mpr unknown
        exact ⟨faithful, List.suffix_rfl, fun single =>
          ⟨_, (uncounted single).within (.of_sublist own), rfl⟩⟩
  all_goals exact nothing rfl rfl

end

/-! ## Phrases -/

namespace Node

theorem nestSlots_uses (stop : Location) (places : List Location) (slots : List (Slot Node)) :
    ((nestSlots stop places slots).toList.flatMap uses).Sublist (usesIn slots) := by
  have first (slots : List (Slot Node)) :
      ((slots.headD .absent).toList.flatMap uses).Sublist (usesIn slots) := by
    cases slots with
    | nil => exact List.nil_sublist _
    | cons s slots => exact List.sublist_append_left ..
  induction places generalizing slots with
  | nil =>
    cases slots <;> exact first _
  | cons start starts ih =>
    obtain _ | ⟨condition, _ | ⟨body, slots⟩⟩ := slots
    · exact first []
    · exact first [condition]
    · rw [nestSlots, Slot.toList, List.flatMap_singleton, uses_mk]
      have rest := ih slots
      simp only [usesIn, Head.isTemplate, List.flatMap_cons, Head.use?] at rest ⊢
      simpa using rest

theorem ofArms_uses (span : Span) (places : List Location) (slots : List (Slot Node)) :
    (ofArms span places slots).uses.Sublist (usesIn slots) := by
  unfold ofArms
  split
  · rw [uses_mk]
    simpa [usesIn, Head.isTemplate, Head.use?] using nestSlots_uses _ _ _
  · rw [uses_mk]
    simp [Head.use?, Head.isTemplate]

end Node

namespace Found

def uses (f : Found) : List MacroUse := f.nodes.flatMap Node.uses

theorem usesIn_slots (f : Found) : Node.usesIn f.slots = f.uses := by
  rw [uses, nodes, Node.usesIn, List.flatMap_assoc]

theorem uses_append (f h : Found) : (f ++ h).uses = f.uses ++ h.uses := by
  rw [uses, nodes_append, List.flatMap_append, uses, uses]

theorem uses_join (fs : List Found) : (join fs).uses = fs.flatMap uses := by
  rw [uses, nodes_join, List.flatMap_assoc]
  rfl

theorem uses_ofNode (n : Node) : (ofNode n).uses = n.uses := List.flatMap_singleton ..

theorem uses_ofNodes (ns : List Node) : (ofNodes ns).uses = ns.flatMap Node.uses := by
  rw [uses, nodes, ofNodes, List.flatMap_singleton, Slot.toList]

end Found

namespace Phrase

/-- No nodes are found in the phrase but those that are read. -/
def honest : Phrase → Bool
  | give f => f.nodes.isEmpty
  | seq a b | either _ a b | ahead a b => a.honest && b.honest
  | star _ a | gather a | list a | demand a _ | construct _ a | node _ a | chain a => a.honest
  | _ => true

theorem honest_operand {r : Reserved} {a : Phrase} (h : operand? r = some a) : a.honest = true := by
  cases IsOperand.of h <;> rfl

theorem honest_pattern {r : Reserved} {a : Phrase} (h : pattern? r = some a) : a.honest = true := by
  cases IsComposite.of h <;> rfl

theorem honest_tail {r : Reserved} {m : Level} {a : Phrase} (h : tail? r = some (m, a)) :
    a.honest = true := by
  cases IsTail.of h <;> rfl

theorem honest_statement {settings : Settings} {r : Reserved} {a : Phrase}
    (h : statement? settings r = some a) : a.honest = true := by
  cases IsStatement.of h <;> rfl

end Phrase

/-- The parsers for the nonterminals come to the definitions and calls in what they read. -/
structure Nonterminals.Tracked (g : Nonterminals) : Prop where
  expression : ∀ {k} l, Tracks true k (g.expression l) fun us n => Within n.uses us
  statement : ∀ {k}, Tracks false k g.statement fun us ns => Within (ns.flatMap Node.uses) us
  pattern : ∀ {k}, Tracks true k g.pattern fun us n => Within n.uses us

namespace Nonterminals.Tracked

variable {g : Nonterminals} (hg : g.Tracked) {k : String → Prop}

include hg

theorem wellFormedPattern : Tracks true k g.wellFormedPattern fun us n => Within n.uses us := by
  refine hg.pattern.bind_quiet fun n => ?_
  split
  · exact .throw _
  · refine (Tracks.pure n).mono fun us m h => ?_
    obtain ⟨rfl, rfl⟩ := h
    exact ⟨rfl, fun _ h => h⟩

theorem statements {test : Parser Bool} {c : Bool} (ht : Tracks c k test fun us _ => us = []) :
    Tracks c k (repeatWhile test g.statement) fun us nss =>
      Within (nss.flatten.flatMap Node.uses) us := by
  refine (Tracks.repeatWhile ht hg.statement.counting).mono fun us nss h => ?_
  rwa [← List.flatMap_id, List.flatMap_assoc]

omit hg in
theorem tracks_atBodyEnd {c : Bool} :
    Tracks c k (not <$> Nonterminals.atBodyEnd) fun us _ => us = [] :=
  .quiet (fun _ => rfl) fun _ => rfl

omit hg in
theorem uses_scope {span : Span} {head : Head} (plain : head.isTemplate = false)
    (none : head.use? 1 = none) (ns : List Node) :
    (Node.mk span head [.many ns]).uses = ns.flatMap Node.uses := by
  rw [Node.uses_mk, plain]
  show (head.use? 1).toList ++ _ = _
  rw [none]
  simp [Node.usesIn, Slot.toList]

theorem body : Tracks true k g.body fun us n => Within n.uses us := by
  refine (tracks_openConstruct _).quiet_bind fun start => tracks_openScope.quiet_bind fun _ => ?_
  refine (hg.statements tracks_atBodyEnd).bind_quiet fun nss => ?_
  refine tracks_closeConstruct.quiet_bind fun _ => tracks_closeScope.quiet_bind fun injected => ?_
  refine (tracks_spanFrom start).quiet_bind fun span => (Tracks.pure _).mono fun vs n h => ?_
  obtain ⟨rfl, rfl⟩ := h
  refine ⟨rfl, fun us sub => ?_⟩
  rwa [Node.block, uses_scope rfl rfl]

theorem part (n : Nonterminal) : Tracks true k (n.read g) fun us f => Within f.uses us := by
  have one {x : Parser Node} (h : Tracks true k x fun us n => Within n.uses us) :
      Tracks true k (Found.ofNode <$> x) fun us f => Within f.uses us :=
    h.map fun us n hn => by rwa [Found.uses_ofNode]
  cases n with
  | expression l => exact one (hg.expression l)
  | pattern => exact one hg.pattern
  | binding => exact one hg.wellFormedPattern
  | body => exact one hg.body
  | statement => exact hg.statement.counting.map fun us ns h => by rwa [Found.uses_ofNodes]
  | statements =>
    exact (hg.statements tracks_atBodyEnd).map fun us nss h => by rwa [Found.uses_ofNodes]

omit hg in
/-- Something is read, but nothing is found that uses a macro. -/
theorem tracks_bare {α : Type} {x : Parser α} {f : α → Found}
    (hx : Tracks true k x fun us _ => us = []) (bare : ∀ a, (f a).uses = []) :
    Tracks true k (x >>= fun a => pure (f a)) fun us f => Within f.uses us :=
  hx.bind_pure fun us a _ => by
    rw [bare]
    exact .nil us

theorem read {a : Phrase} (h : a.honest = true) :
    Tracks true k (a.read g) fun us f => Within f.uses us := by
  induction a with
  | give f =>
    refine (Tracks.pure f).mono fun us f' made => ?_
    rw [made.2, Found.uses, List.isEmpty_iff.mp h]
    exact .nil us
  | place => exact tracks_bare tracks_peek fun _ => rfl
  | mark r =>
    rw [Phrase.read, discard_bind]
    exact tracks_bare (tracks_consume r) fun _ => rfl
  | kept r =>
    rw [Phrase.read, discard_bind]
    exact tracks_bare (tracks_consume r) fun _ => rfl
  | spelled r => exact tracks_bare (tracks_consume r) fun _ => rfl
  | name what => exact tracks_bare (tracks_consumeName what) fun _ => rfl
  | part n => exact hg.part n
  | fail what => exact tracks_failExpecting _
  | seq a b iha ihb =>
    obtain ⟨ha, hb⟩ := Bool.and_eq_true_iff.mp h
    refine (iha ha).bind fun f us => (ihb hb).bind_pure fun vs f' second first => ?_
    rw [Found.uses_append]
    exact first.append second
  | either r a b iha ihb =>
    obtain ⟨ha, hb⟩ := Bool.and_eq_true_iff.mp h
    exact (tracks_check r).quiet_bind fun c => .ite (iha ha) (ihb hb)
  | ahead a b iha ihb =>
    obtain ⟨ha, hb⟩ := Bool.and_eq_true_iff.mp h
    exact tracks_checkBinding.quiet_bind fun c => .ite (iha ha) (ihb hb)
  | star r a ih =>
    refine (Tracks.repeatWhile (tracks_check r) (ih h)).map fun us fs made => ?_
    rwa [Found.uses_join]
  | gather a ih => exact (ih h).map fun us f made => made
  | list a ih =>
    refine (ih h).map fun us f made => ?_
    rwa [Found.uses, Found.nodes_listed]
  | demand a what ih =>
    refine (ih h).bind_quiet fun f => ?_
    split
    · exact (tracks_failExpecting _ (P := fun _ _ => False)).bind fun _ _ =>
        (Tracks.pure f).mono fun _ _ _ failed => failed.elim
    · refine (Tracks.pure f).mono fun us f' made => ?_
      obtain ⟨rfl, rfl⟩ := made
      exact ⟨rfl, fun _ made => made⟩
  | node head a ih =>
    rw [Phrase.read_node]
    refine tracks_peek.quiet_bind fun start => (ih h).bind fun f us => ?_
    refine (tracks_spanFrom start).quiet_bind fun span => ?_
    refine (tracks_announce _ _ _).bind_pure fun vs _ own made => ?_
    rw [Found.uses_ofNode]
    rw [own]
    exact Node.uses_within span (by rwa [Found.usesIn_slots])
  | chain a ih =>
    rw [Phrase.read_chain]
    refine tracks_peek.quiet_bind fun start => (ih h).bind_quiet fun f => ?_
    refine (tracks_spanFrom start).bind_pure fun us span none => ⟨none, fun vs made => ?_⟩
    rw [Found.uses_ofNode]
    refine (Within.of_sublist (Node.ofArms_uses _ _ _)).trans ?_
    rwa [Found.usesIn_slots]
  | construct c a ih =>
    rw [Phrase.read, discard_bind]
    refine (tracks_openConstruct c).quiet_bind fun t => (ih h).bind_quiet fun f => ?_
    exact tracks_closeConstruct.bind_pure fun us _ none => ⟨none, fun vs made => made⟩

/-! ## Expressions, patterns and statements -/

omit hg in
theorem extended_eq (known : String → Bool) (span : Span) (m : Level) (left : Node) (f : Found) :
    ∃ head slots, Node.extended known span m left f = .mk span head slots ∧
      (Node.usesIn slots).Sublist (left.uses ++ f.uses) := by
  have all : Node.usesIn (.one left :: f.slots) = left.uses ++ f.uses := by
    rw [← Found.usesIn_slots, Node.usesIn, List.flatMap_cons, Slot.toList, List.flatMap_singleton,
      Node.usesIn]
  have others : (Node.usesIn f.slots).Sublist (left.uses ++ f.uses) := by
    rw [Found.usesIn_slots]
    exact List.sublist_append_right ..
  unfold Node.extended
  split
  · exact ⟨_, _, rfl, all ▸ List.Sublist.refl _⟩
  · split
    · split
      · exact ⟨_, _, rfl, others⟩
      · exact ⟨_, _, rfl, all ▸ List.Sublist.refl _⟩
    · exact ⟨_, _, rfl, all ▸ List.Sublist.refl _⟩
  · exact ⟨_, _, rfl, all ▸ List.Sublist.refl _⟩

theorem tail {r : Reserved} {m : Level} {a : Phrase} (h : Phrase.tail? r = some (m, a))
    (left : Node) (vs : List MacroUse) :
    Tracks true k (peek >>= fun start => a.read g >>= extend m left start) fun us n =>
      Within left.uses vs → Within n.uses (vs ++ us) := by
  refine tracks_peek.quiet_bind fun start => (hg.read (Phrase.honest_tail h)).bind fun f us => ?_
  have stop : Tracks true k (tailStop m start f) fun us _ => us = [] :=
    .ite ((tracks_spanFrom start).map fun _ _ none => none)
      ((Tracks.pure _).mono fun _ _ none => none.1)
  refine stop.quiet_bind fun stop => .of_get fun s => ?_
  obtain ⟨head, slots, made, sub⟩ :=
    extended_eq s.unit.registry.contains ⟨left.span.start, stop⟩ m left f
  dsimp only
  rw [made]
  refine (tracks_announce _ _ _).bind_pure fun ws _ own found known => ?_
  rw [own, ← List.append_assoc]
  exact Node.uses_within _ ((Within.of_sublist sub).trans (known.append found))

theorem extendUpTo (l : Level) (fuel : Nat) (left : Node) (vs : List MacroUse) :
    Tracks true k (g.extendUpTo l fuel left) fun us n =>
      Within left.uses vs → Within n.uses (vs ++ us) := by
  induction fuel generalizing left vs with
  | zero => exact .throw _
  | succ fuel ih =>
    intro s n s' run
    have stay : Tracks true k (pure left) fun us n =>
        Within left.uses vs → Within n.uses (vs ++ us) := by
      refine (Tracks.pure left).mono fun us n h known => ?_
      rwa [h.1, h.2, List.append_nil]
    rw [Phrase.extendUpTo_run] at run
    split at run
    · rename_i m a h
      obtain ⟨r, -, ha⟩ := Option.bind_eq_some_iff.mp h
      split at run
      · have all : Tracks true k ((peek >>= fun start => a.read g >>= extend m left start) >>=
            g.extendUpTo l fuel) fun us n => Within left.uses vs → Within n.uses (vs ++ us) := by
          refine (hg.tail ha left vs).bind fun n us => (ih n (vs ++ us)).mono ?_
          intro ws n' further first known
          rw [← List.append_assoc]
          exact further (first known)
        exact all s n s' run
      · exact stay s n s' run
    · exact stay s n s' run

omit hg in
theorem uses_atom {t : Token} {n : Node} (h : atom? t = some n) : n.uses = [] := by
  unfold atom? at h
  split at h <;> cases h <;> rfl

omit hg in
theorem uses_atomicPattern {t : Token} {n : Node} (h : atomicPattern? t = some n) : n.uses = [] := by
  unfold atomicPattern? at h
  split at h <;> cases h <;> rfl

omit hg in
/-- A token that is a node uses no macro. -/
theorem tracks_passed {n : Node} (none : n.uses = []) :
    Tracks true k (fun s => (.ok (Found.ofNode n), passed s) : Parser Found) fun us f =>
      Within f.uses us := by
  intro s f s' run faithful _
  cases run
  refine ⟨faithful, List.suffix_rfl, fun _ => ⟨[], .nil rfl, ?_⟩⟩
  show Within (Found.ofNode n).uses []
  rw [Found.uses_ofNode, none]
  exact .nil []

omit hg in
theorem of_ofNode {x : Parser Node}
    (h : Tracks true k (Found.ofNode <$> x) fun us f => Within f.uses us) :
    Tracks true k x fun us n => Within n.uses us :=
  h.of_map.mono fun us n made => by rwa [Found.uses_ofNode] at made

theorem operand : Tracks true k g.operand fun us n => Within n.uses us := by
  refine of_ofNode fun s f s' run => ?_
  rw [Phrase.operand_run] at run
  split at run
  · rename_i n _ h
    exact tracks_passed (uses_atom h) s f s' run
  · rename_i a h
    obtain ⟨r, -, ha⟩ := Option.bind_eq_some_iff.mp h
    exact hg.read (Phrase.honest_operand ha) s f s' run
  · cases run

theorem readExpression (l : Level) :
    Tracks true k (g.readExpression l) fun us n => Within n.uses us :=
  hg.operand.bind fun left us => .of_get fun _ => hg.extendUpTo l _ left us

theorem readPattern : Tracks true k g.readPattern fun us n => Within n.uses us := by
  refine of_ofNode fun s f s' run => ?_
  rw [Phrase.pattern_run] at run
  split at run
  · rename_i n _ h
    exact tracks_passed (uses_atomicPattern h) s f s' run
  · rename_i a h
    obtain ⟨r, -, ha⟩ := Option.bind_eq_some_iff.mp h
    exact hg.read (Phrase.honest_pattern ha) s f s' run
  · cases run

theorem plainStatement (settings : Settings) :
    Tracks true k (g.plainStatement settings) fun us n => Within n.uses us := by
  refine of_ofNode ?_
  rw [Phrase.plainStatement_eq]
  refine tracks_peek.quiet_bind fun t => ?_
  split
  · rename_i a h
    obtain ⟨r, -, ha⟩ := Option.bind_eq_some_iff.mp h
    exact hg.read (Phrase.honest_statement ha)
  · exact hg.read rfl

end Nonterminals.Tracked

end GlyphScript
