import GlyphScript.Proofs.Compilation
import GlyphScript.Proofs.Macro.Expansion
import GlyphScript.Proofs.Parsing.Acceptance
import GlyphScript.Proofs.Simulation
import GlyphScript.Proofs.Spans.Phrases

/-!
# Reading nodes over tokens

As long as no call is expanded, what a parser finds stands over the tokens that
it reads.
-/

namespace GlyphScript

open GlyphScript.Parser

/-! ## Expansions -/

/-- How many calls have been expanded. -/
def UnitState.expansions (u : UnitState) : Nat :=
  u.log.countP fun
    | .callExpanded .. => true
    | _ => false

theorem UnitState.expansions_mono {u u' : UnitState} (h : u.log <:+ u'.log) :
    u.expansions ≤ u'.expansions :=
  h.sublist.countP_le

theorem Grows.expansions {α : Type} {x : Parser α} (h : Grows x) {s s' : ParserState}
    {r : Except Fault α} (run : x s = (r, s')) : s.unit.expansions ≤ s'.unit.expansions := by
  have log := h.log s
  rw [run] at log
  exact UnitState.expansions_mono log

theorem Work.expandCall_expansions {c : MacroCall} {u u' : UnitState} {e : Expansion}
    (h : expandCall c u = (.ok e, u')) : u.expansions < u'.expansions := by
  obtain ⟨d, u₁, called, h₁⟩ := bind_ok.mp h
  obtain ⟨-, rfl⟩ := calledMacro_ok.mp called
  obtain ⟨sel, u₂, selected, h₂⟩ := bind_ok.mp h₁
  obtain ⟨-, rfl⟩ := ofExpansion_ok.mp selected
  obtain ⟨⟨template, table⟩, u₃, prepared, h₃⟩ := bind_ok.mp h₂
  obtain ⟨table', ready⟩ := prepare_run sel d.hygiene u₂
  cases ready.symm.trans prepared
  obtain ⟨node, u₄, filled, h₄⟩ := bind_ok.mp h₃
  obtain ⟨-, rfl⟩ := ofExpansion_ok.mp filled
  dsimp only at h₄
  split at h₄ <;> cases h₄ <;> simp [UnitState.expansions]

/-- A computation as it goes when it succeeds and expands nothing. -/
def unexpanded : Simulation Parser where
  rel x y := Grows x ∧ ∀ s a s', x s = (.ok a, s') →
    s'.unit.expansions = s.unit.expansions → y s = (.ok a, s')
  pure a := ⟨.pure a, fun _ _ _ e _ => e⟩
  bind {_ _ x _ f _} hx hf := by
    refine ⟨hx.1.bind fun a => (hf a).1, fun s b s'' e same => ?_⟩
    obtain ⟨a, s', first, second⟩ := bind_ok.mp e
    have := hx.1.expansions first
    have := (hf a).1.expansions second
    exact bind_ok.mpr ⟨a, s', hx.2 s a s' first (by omega), (hf a).2 s' b s'' second (by omega)⟩

/-- What is done to a statement in which no call is expanded. -/
def Rereading.keep : Transform Parser Unit (Slot Node) where
  enter _ n := match n.head with
    | .macroDef .. | .quote => return .done (.one n)
    | _ => return .inside ()
  leave _ n := return .one n
  toSlot := id

/-- Computations that only give a result. -/
def given : Guarantee Parser where
  holds x p := ∃ a, x = pure a ∧ p a
  pure h := ⟨_, rfl, h⟩
  bind {_ _ x f _ _} hx hf := by
    obtain ⟨a, rfl, ha⟩ := hx
    rw [pure_bind]
    exact hf a ha

theorem Rereading.transform_keep (n : Node) : n.transformM keep () = pure (.one n) := by
  have : given.holds (n.transformM keep ()) (· = .one n) := by
    refine given.transformM (R := fun _ n r => r = Slot.one n) (E := fun _ _ _ => True) (fun _ n => ?_)
      (fun _ span head slots _ slots' _ filled => given.pure ?_) n ()
    · unfold keep
      dsimp only
      split <;> exact given.pure (by trivial)
    · have same : List.Forall₂ Eq slots slots' := by
        refine filled.imp fun s s' h => ?_
        cases h with
        | absent => rfl
        | one h => exact h.symm
        | @many ns rs h =>
          have : rs = ns.map .one := by
            rw [← List.forall₂_eq_eq_eq, List.forall₂_map_right_iff]
            exact h.flip
          rw [this, List.flatMap_map]
          simp [Slot.toList, keep]
      rw [List.forall₂_eq_eq_eq] at same
      rw [same]
  obtain ⟨r, run, rfl⟩ := this
  exact run

namespace Rereading

variable {t : Rereading}

/-- Where a call is expanded, nothing is claimed. -/
theorem unexpanded_expandHere {α : Type} (c : MacroCall) {k : Expansion → Parser α}
    (hk : ∀ e, Grows (k e)) (y : Parser α) : unexpanded.rel (expandHere c >>= k) y := by
  refine ⟨(Growing.expandHere c).bind hk, fun s a s' run same => ?_⟩
  obtain ⟨e, s₁, expanded, run⟩ := bind_ok.mp run
  have behind := (hk e).expansions run
  obtain ⟨e, s₂, expanded, injected⟩ := bind_ok.mp expanded
  have behind' := ((grows_inject e.injected).bind fun _ => Grows.pure e).expansions injected
  have first : s.unit.expansions < s₂.unit.expansions := by
    have made : Work.expandCall c s.unit = (.ok e, s₂.unit) :=
      Prod.ext (congrArg Prod.fst expanded :) (congrArg (ParserState.unit ∘ Prod.snd) expanded :)
    exact Work.expandCall_expansions made
  omega

theorem unexpanded_enter (ht : t.Growing) (n : Node) :
    unexpanded.rel (t.enter n) (keep.enter () n) := by
  have statement (c : MacroCall) (span : Span) (y : Parser (Step Unit (Slot Node))) :
      unexpanded.rel (t.replaceStatement c span >>= fun ns => pure (.done (.many ns))) y := by
    unfold replaceStatement
    rw [bind_assoc]
    exact unexpanded_expandHere c (fun e => ((Growing.textOf _).bind fun text =>
      ht.statements c text).bind fun _ => .pure _) y
  have expression (c : MacroCall) (y : Parser (Step Unit (Slot Node))) :
      unexpanded.rel (t.replaceExpression c >>= fun n => pure (.done (.one n))) y := by
    unfold replaceExpression
    rw [bind_assoc]
    exact unexpanded_expandHere c (fun e => .bind (.bind
      (Grows.work (Work.onlyReports_ofExpansion _)) fun n => (Growing.textOf n).bind fun text =>
        ht.expression c text) fun _ => .pure _) y
  have looked {f : ParserState → Parser (Step Unit (Slot Node))} {y}
      (h : ∀ s, unexpanded.rel (f s) y) : unexpanded.rel (get >>= f) y :=
    ⟨.of_get fun s => (h s).1, fun s => (h s).2 s⟩
  refine looked fun s => ?_
  obtain ⟨span, head, slots⟩ := n
  cases head
  case macroDef | quote => exact unexpanded.pure _
  all_goals
    dsimp only [Node.head]
    split
    · exact statement _ _ _
    · exact expression _ _
    · exact unexpanded.pure _

theorem unexpanded_transform (ht : t.Growing) (n : Node) :
    unexpanded.rel (n.transformM t.transform ()) (pure (.one n)) := by
  rw [← transform_keep]
  refine unexpanded.transformM (fun _ n => ?_) (fun _ n => ?_) ?_ n ()
  · exact unexpanded_enter ht n
  · exact unexpanded.pure (Slot.one n)
  · rfl

end Rereading

/-! ## Reading tokens -/

/-- If the parser succeeds and expands nothing, what it gives is as `P` says of the tokens that it
reads and of those left. -/
def Scans {α : Type} (x : Parser α) (P : (us rest : List Token) → α → Prop) : Prop :=
  Grows x ∧ ∀ s a s', x s = (.ok a, s') → s'.unit.expansions = s.unit.expansions →
    ∃ us, s.rest = us ++ s'.rest ∧ s'.previous = us.getLast?.or s.previous ∧ P us s'.rest a

theorem rest_of_isEnd {s : ParserState} (h : s.next.isEnd = false) :
    s.rest = s.next :: (passed s).rest := by
  obtain ⟨unit, previous, rest, stop, frames, scopes, pending⟩ := s
  cases rest with
  | nil => nomatch h
  | cons t rest => rfl

namespace Scans

variable {α β : Type} {x : Parser α} {P : List Token → List Token → α → Prop}

theorem mono {P' : List Token → List Token → α → Prop} (hx : Scans x P)
    (h : ∀ us rest a, P us rest a → P' us rest a) : Scans x P' := by
  refine ⟨hx.1, fun s a s' run same => ?_⟩
  obtain ⟨us, read, previous, made⟩ := hx.2 s a s' run same
  exact ⟨us, read, previous, h _ _ _ made⟩

theorem bind {f : α → Parser β} {Q : List Token → List Token → β → Prop} (hx : Scans x P)
    (hf : ∀ a vs, Scans (f a) fun ws rest b => P vs (ws ++ rest) a → Q (vs ++ ws) rest b) :
    Scans (x >>= f) Q := by
  refine ⟨hx.1.bind fun a => (hf a []).1, fun s b s'' run same => ?_⟩
  obtain ⟨a, s', first, second⟩ := bind_ok.mp run
  have := hx.1.expansions first
  have := (hf a []).1.expansions second
  obtain ⟨vs, read, previous, made⟩ := hx.2 s a s' first (by omega)
  obtain ⟨ws, read', previous', made'⟩ := (hf a vs).2 s' b s'' second (by omega)
  rw [read'] at read made
  refine ⟨vs ++ ws, by rw [read, List.append_assoc], ?_, made' made⟩
  rw [previous', previous, List.getLast?_append, Option.or_assoc]

/-- A parser that reads no token. -/
theorem look (grows : Grows x)
    (h : ∀ s, (x s).2.rest = s.rest ∧ (x s).2.previous = s.previous) : Scans x fun us _ _ => us = [] := by
  refine ⟨grows, fun s a s' run _ => ⟨[], ?_, ?_, rfl⟩⟩
  · rw [← (h s).1, run]
    rfl
  · rw [← (h s).2, run]
    rfl

theorem pure (a : α) : Scans (Pure.pure a) fun us _ b => us = [] ∧ b = a :=
  ⟨.pure a, fun _ _ _ e _ => by cases e; exact ⟨[], rfl, rfl, rfl, rfl⟩⟩

theorem throw (fault : Fault) : Scans (throw fault : Parser α) P :=
  ⟨.throw fault, fun _ _ _ e => nomatch e⟩

theorem map {f : α → β} {Q : List Token → List Token → β → Prop} (hx : Scans x P)
    (h : ∀ us rest a, P us rest a → Q us rest (f a)) : Scans (f <$> x) Q := by
  rw [map_eq_pure_bind]
  refine hx.bind fun a vs => (pure (f a)).mono fun ws rest b hb ha => ?_
  obtain ⟨rfl, rfl⟩ := hb
  rw [List.append_nil]
  exact h _ _ _ ha

theorem bind_pure {f : α → β} {Q : List Token → List Token → β → Prop} (hx : Scans x P)
    (h : ∀ us rest a, P us rest a → Q us rest (f a)) : Scans (x >>= fun a => Pure.pure (f a)) Q := by
  rw [bind_pure_comp]
  exact hx.map h

theorem of_map {f : α → β} {Q : List Token → List Token → β → Prop} (h : Scans (f <$> x) Q) :
    Scans x fun us rest a => Q us rest (f a) := by
  refine ⟨h.1.of_map, fun s a s' run same => h.2 s (f a) s' ?_ same⟩
  rw [run_map, run]

theorem of_get {f : ParserState → Parser β} {Q : List Token → List Token → β → Prop}
    (h : ∀ s, Scans (f s) Q) : Scans (get >>= f) Q :=
  ⟨.of_get fun s => (h s).1, fun s => (h s).2 s⟩

theorem ite {c : Prop} [Decidable c] {y : Parser α} (hx : Scans x P) (hy : Scans y P) :
    Scans (if c then x else y) P := by
  split
  · exact hx
  · exact hy

/-- After what reads no token. -/
theorem look_bind {f : α → Parser β} {Q : List Token → List Token → β → Prop}
    (hx : Scans x fun us _ _ => us = []) (hf : ∀ a, Scans (f a) Q) : Scans (x >>= f) Q :=
  hx.bind fun a us => (hf a).mono fun _ _ _ h read => by
    rw [read]
    exact h

/-- In front of what reads no token. -/
theorem bind_look {f : α → Parser β} {Q : List Token → List Token → β → Prop} (hx : Scans x P)
    (hf : ∀ a, Scans (f a) fun us _ b => us = [] ∧ ∀ vs rest, P vs rest a → Q vs rest b) :
    Scans (x >>= f) Q := by
  refine hx.bind fun a vs => (hf a).mono fun ws rest b h ha => ?_
  obtain ⟨rfl, h⟩ := h
  rw [List.append_nil]
  exact h _ _ ha

theorem repeatUpTo {test : Parser Bool} (ht : Scans test fun us _ _ => us = []) (hx : Scans x P)
    {R : List Token → List Token → List α → Prop} (none : ∀ rest, R [] rest [])
    (more : ∀ vs ws rest a as, P vs (ws ++ rest) a → R ws rest as → R (vs ++ ws) rest (a :: as))
    (fuel : Nat) : Scans (repeatUpTo test x fuel) R := by
  induction fuel with
  | zero => exact .throw _
  | succ fuel ih =>
    rw [Parser.repeatUpTo_succ]
    refine ht.bind fun b us => ?_
    cases b with
    | false =>
      refine (pure []).mono fun ws rest as has hus => ?_
      obtain ⟨rfl, rfl⟩ := has
      rw [hus]
      exact none rest
    | true =>
      refine hx.bind fun a vs => ih.bind fun as ws => (pure _).mono fun zs rest as' h has ha hus => ?_
      obtain ⟨rfl, rfl⟩ := h
      rw [hus, List.append_nil, List.nil_append]
      exact more _ _ _ _ _ (by simpa using ha) (by simpa using has)

theorem repeatWhile {test : Parser Bool} (ht : Scans test fun us _ _ => us = []) (hx : Scans x P)
    {R : List Token → List Token → List α → Prop} (none : ∀ rest, R [] rest [])
    (more : ∀ vs ws rest a as, P vs (ws ++ rest) a → R ws rest as → R (vs ++ ws) rest (a :: as)) :
    Scans (repeatWhile test x) R :=
  .of_get fun _ => repeatUpTo ht hx none more _

/-- From the token that is read first to that read last. -/
theorem placed {k : Token → Span → α → Parser β} {Q : Span → α → β → Prop} (hx : Scans x P)
    (full : ∀ us rest a, P us rest a → us ≠ [])
    (hk : ∀ start span a, Scans (k start span a) fun us _ b => us = [] ∧ Q span a b) :
    Scans (peek >>= fun start => x >>= fun a => spanFrom start >>= fun span => k start span a)
      fun us rest b => ∃ a span, P us rest a ∧ Covers us span ∧ Q span a b := by
  refine ⟨grows_peek.bind fun start => hx.1.bind fun a => (grows_spanFrom start).bind fun span =>
    (hk start span a).1, fun s b s'' run same => ?_⟩
  rw [run_bind, peek_run] at run
  obtain ⟨a, s', first, second⟩ := bind_ok.mp run
  rw [run_bind, spanFrom_run] at second
  have := hx.1.expansions first
  have := (hk _ _ a).1.expansions second
  obtain ⟨us, read, previous, made⟩ := hx.2 s a s' first (by omega)
  obtain ⟨_, read', previous', rfl, made'⟩ := (hk _ _ a).2 s' b s'' second (by omega)
  have covers : Covers us ⟨s.next.location, (s'.previous.getD s.next).stopOrStart⟩ := by
    obtain ⟨t, u, head, last, covers⟩ := Covers.of_ne_nil (full _ _ _ made)
    obtain ⟨us, rfl⟩ := List.head?_eq_some_iff.mp head
    have next : s.next = t := by simp [ParserState.next, read]
    rw [previous, last, next]
    exact covers
  rw [List.nil_append] at read'
  exact ⟨us, read' ▸ read, previous'.trans previous, a, _, read' ▸ made, covers, made'⟩

end Scans

/-! ## Tokens, constructs and scopes -/

theorem scans_peek : Scans peek fun us rest t => us = [] ∧ ∀ u ∈ rest.head?, t = u := by
  refine ⟨grows_peek, fun s t s' run _ => ?_⟩
  cases run
  refine ⟨[], rfl, rfl, rfl, fun u hu => ?_⟩
  obtain ⟨rest, h⟩ := List.head?_eq_some_iff.mp hu
  simp [ParserState.next, h]

theorem scans_check (r : Reserved) : Scans (check r) fun us _ _ => us = [] :=
  .look (grows_check r) fun _ => ⟨rfl, rfl⟩

theorem scans_checkBinding : Scans checkBinding fun us _ _ => us = [] := by
  refine .look grows_checkBinding fun s => ?_
  rw [checkBinding_run]
  exact ⟨rfl, rfl⟩

theorem scans_failExpecting {α : Type} (e : Expected) {P : List Token → List Token → α → Prop} :
    Scans (failExpecting e : Parser α) P := by
  refine ⟨grows_failExpecting e, fun s a s' run => ?_⟩
  rw [failExpecting_run] at run
  cases run

theorem scans_closeScope : Scans closeScope fun us _ _ => us = [] := by
  refine .look grows_closeScope fun s => ?_
  rw [closeScope_run]
  cases s.scopes <;> exact ⟨rfl, rfl⟩

theorem scans_work {α : Type} {w : Work α} (h : Grows (ofWork w)) :
    Scans (ofWork w) fun us _ _ => us = [] :=
  .look h fun _ => ⟨rfl, rfl⟩

theorem scans_passed {α : Type} {x : Parser α} (grows : Grows x) {P : Token → α → Prop}
    (h : ∀ s a s', x s = (.ok a, s') → s.next.isEnd = false ∧ s' = passed s ∧ P s.next a) :
    Scans x fun us _ a => ∃ t, us = [t] ∧ P t a := by
  refine ⟨grows, fun s a s' run _ => ?_⟩
  obtain ⟨inner, rfl, made⟩ := h s a s' run
  exact ⟨[s.next], rest_of_isEnd inner, rfl, s.next, rfl, made⟩

theorem scans_consume (r : Reserved) : Scans (consume r) fun us _ t => us = [t] := by
  refine (scans_passed (P := fun t u => t = u) (grows_consume r) fun s a s' run => ?_).mono
    fun us _ t h => ?_
  · rw [consume_run] at run
    split at run
    · rename_i h
      cases run
      exact ⟨isEnd_of_isReserved h, rfl, rfl⟩
    · cases run
  · obtain ⟨t, rfl, rfl⟩ := h
    rfl

theorem scans_consumeName (what : String) :
    Scans (consumeName what) fun us _ x => ∃ t, us = [t] ∧ x = t.lexeme := by
  refine scans_passed (grows_consumeName what) fun s a s' run => ?_
  rw [consumeName_run] at run
  split at run
  · rename_i h
    cases run
    exact ⟨isEnd_of_identifier h, rfl, rfl⟩
  · cases run

theorem scans_openConstruct (c : Construct) : Scans (openConstruct c) fun us _ t => us = [t] := by
  refine (scans_consume _).bind fun t us => ?_
  refine .look_bind (.look (.calm fun _ => rfl) fun _ => ⟨rfl, rfl⟩) fun _ => ?_
  refine (Scans.pure t).mono fun ws rest u h read => ?_
  obtain ⟨rfl, rfl⟩ := h
  rw [read]
  rfl

theorem scans_closeConstruct : Scans closeConstruct fun us _ _ => ∃ t, us = [t] := by
  refine ⟨grows_closeConstruct, fun s a s' run _ => ?_⟩
  rw [closeConstruct_run] at run
  split at run
  · cases run
  · rename_i frame frames _
    split at run
    · rename_i h
      cases run
      have inner := isEnd_of_isReserved (closingFault?_eq_none.mp h)
      exact ⟨[s.next], rest_of_isEnd inner, rfl, s.next, rfl⟩
    · cases run

theorem scans_announce (n : Node) : Scans (announce n) fun us _ _ => us = [] := by
  have quiet : Scans (pure () : Parser Unit) fun us _ _ => us = [] :=
    (Scans.pure ()).mono fun _ _ _ h => h.1
  unfold announce
  split
  · split
    · exact scans_work (grows_register _)
    · exact quiet
  · exact .of_get fun s => .ite (.look (.calm fun _ => rfl) fun _ => ⟨rfl, rfl⟩) quiet
  · exact quiet

/-! ## Phrases -/

/-- What the parsers for the nonterminals find stands over the tokens. -/
structure Nonterminals.Spanned (g : Nonterminals) : Prop where
  expression : ∀ l, Scans (g.expression l) fun us _ n => us ≠ [] ∧ Node.Lined us [n]
  statement : Scans g.statement fun us _ ns => us ≠ [] ∧ Node.Lined us ns
  pattern : Scans g.pattern fun us _ n => us ≠ [] ∧ Node.Lined us [n]

namespace Nonterminals.Spanned

open Phrase (Spanning)

variable {g : Nonterminals} (hg : g.Spanned)

include hg

theorem wellFormedPattern : Scans g.wellFormedPattern fun us _ n => us ≠ [] ∧ Node.Lined us [n] := by
  refine hg.pattern.bind_look fun n => ?_
  split
  · exact .throw _
  · refine (Scans.pure n).mono fun us rest m h => ?_
    obtain ⟨rfl, rfl⟩ := h
    exact ⟨rfl, fun _ _ h => h⟩

theorem statements {test : Parser Bool} (ht : Scans test fun us _ _ => us = []) :
    Scans (repeatWhile test g.statement) fun us _ nss => Node.Lined us nss.flatten :=
  Scans.repeatWhile ht hg.statement (fun _ => .nil)
    fun _ _ _ _ _ first others => first.2.append others

omit hg in
theorem scans_atBodyEnd : Scans (not <$> Nonterminals.atBodyEnd) fun us _ _ => us = [] :=
  .look Growing.atBodyEnd.map fun _ => ⟨rfl, rfl⟩

theorem body : Scans g.body fun us _ n => us ≠ [] ∧ Node.Lined us [n] := by
  have inside : Scans (do
      let _ ← openConstruct .body
      openScope
      let statements ← repeatWhile (not <$> Nonterminals.atBodyEnd) g.statement
      closeConstruct
      let injected ← closeScope
      return (statements.flatten, injected)) fun us _ a => us ≠ [] ∧ Node.Lined us a.1 := by
    refine (scans_openConstruct _).bind fun t us => ?_
    refine .look_bind (.look (.calm fun _ => rfl) fun _ => ⟨rfl, rfl⟩) fun _ => ?_
    refine (hg.statements scans_atBodyEnd).bind fun nss vs => scans_closeConstruct.bind fun _ ws => ?_
    refine scans_closeScope.bind_pure fun zs rest injected left closed lined opened => ?_
    rw [left, List.append_nil, opened]
    exact ⟨List.cons_ne_nil _ _, lined.extend.prepend⟩
  have split : g.body = peek >>= fun start => (do
      let _ ← openConstruct .body
      openScope
      let statements ← repeatWhile (not <$> Nonterminals.atBodyEnd) g.statement
      closeConstruct
      let injected ← closeScope
      return (statements.flatten, injected)) >>= fun a => spanFrom start >>= fun span =>
        pure (Node.block span a.1 a.2) := by
    simp only [Nonterminals.body, bind_assoc, pure_bind]
    exact (peek_openConstruct .body fun start _ => do
      openScope
      let statements ← repeatWhile (not <$> Nonterminals.atBodyEnd) g.statement
      closeConstruct
      let injected ← closeScope
      return Node.block (← spanFrom start) statements.flatten injected).symm
  rw [split]
  refine (Scans.placed (Q := fun span a n => n = Node.block span a.1 a.2) inside
    (fun _ _ _ h => h.1) fun _ span a => .pure _).mono ?_
  rintro us rest n ⟨a, span, ⟨full, lined⟩, covers, rfl⟩
  refine ⟨full, Node.Over.lined (.mk covers ?_)⟩
  show Node.Lined us (a.1 ++ [])
  rwa [List.append_nil]

theorem part (n : Nonterminal) : Scans (n.read g) fun us _ f => Spanning n us f := by
  cases n with
  | expression l => exact (hg.expression l).map fun _ _ n h => ⟨h.1, n, rfl, h.2⟩
  | pattern => exact hg.pattern.map fun _ _ n h => ⟨h.1, n, rfl, h.2⟩
  | binding => exact hg.wellFormedPattern.map fun _ _ n h => ⟨h.1, n, rfl, h.2⟩
  | body => exact hg.body.map fun _ _ n h => ⟨h.1, n, rfl, h.2⟩
  | statement => exact hg.statement.map fun _ _ ns h => ⟨h.1, ns, rfl, h.2⟩
  | statements => exact (hg.statements scans_atBodyEnd).map fun _ _ nss h => ⟨nss.flatten, rfl, h⟩

theorem read {a : Phrase} (h : a.solid = true) :
    Scans (a.read g) fun us rest f => a.Reads Spanning us rest f := by
  induction a with
  | give f => exact .pure f
  | place => exact scans_peek.bind_pure fun us rest t h =>
      ⟨h.1, t.location, rfl, fun u hu => congrArg _ (h.2 u hu)⟩
  | mark r =>
    rw [Phrase.read, discard_bind]
    exact (scans_consume r).bind_pure fun us rest t h => ⟨t, h, rfl⟩
  | kept r =>
    rw [Phrase.read, discard_bind]
    exact (scans_consume r).bind_pure fun us rest t h => ⟨t, h, rfl⟩
  | spelled r => exact (scans_consume r).bind_pure fun us rest t h => ⟨t, h, rfl⟩
  | name what =>
    refine (scans_consumeName what).bind_pure fun us rest x h => ?_
    obtain ⟨t, rfl, rfl⟩ := h
    exact ⟨t, rfl, rfl⟩
  | part n => exact hg.part n
  | fail what => exact scans_failExpecting _
  | seq a b iha ihb =>
    obtain ⟨ha, hb⟩ := Bool.and_eq_true_iff.mp h
    exact (iha ha).bind fun f vs => (ihb hb).bind_pure fun ws rest k made first =>
      ⟨vs, ws, f, k, rfl, first, made, rfl⟩
  | either r a b iha ihb =>
    obtain ⟨ha, hb⟩ := Bool.and_eq_true_iff.mp h
    exact .look_bind (scans_check r) fun c =>
      .ite ((iha ha).mono fun _ _ _ => .inl) ((ihb hb).mono fun _ _ _ => .inr)
  | ahead a b iha ihb =>
    obtain ⟨ha, hb⟩ := Bool.and_eq_true_iff.mp h
    exact .look_bind scans_checkBinding fun c =>
      .ite ((iha ha).mono fun _ _ _ => .inl) ((ihb hb).mono fun _ _ _ => .inr)
  | star r a ih =>
    have turns : Scans (repeatWhile (check r) (a.read g)) fun us rest fs =>
        Repeats (a.Reads Spanning) us rest (Found.join fs) :=
      .repeatWhile (scans_check r) (ih h) (fun _ => .none) fun _ _ _ _ _ first others =>
        .more first others
    exact turns.map fun _ _ _ made => made
  | gather a ih => exact (ih h).map fun _ _ f made => ⟨f, made, rfl⟩
  | list a ih => exact (ih h).map fun _ _ f made => ⟨f, made, rfl⟩
  | demand a what ih =>
    refine (ih h).bind_look fun f => ?_
    split
    · exact (scans_failExpecting _ (P := fun _ _ _ => False)).bind fun _ _ =>
        (Scans.pure f).mono fun _ _ _ _ failed => failed.elim
    · refine (Scans.pure f).mono fun us rest k hk => ?_
      obtain ⟨rfl, rfl⟩ := hk
      exact ⟨rfl, fun _ _ made => made⟩
  | node head a ih =>
    obtain ⟨full, solid⟩ := Bool.and_eq_true_iff.mp h
    rw [Phrase.read_node]
    refine (Scans.placed (Q := fun span f k => k = .ofNode (.mk span (head f.attributes) f.slots))
      (ih solid) (fun us rest f made => made.ne_nil (by simpa using full)) fun _ span f => ?_).mono ?_
    · exact .look_bind (scans_announce _) fun _ => .pure _
    · rintro us rest k ⟨f, span, made, covers, rfl⟩
      exact ⟨f, span, made, covers, rfl⟩
  | chain a ih =>
    obtain ⟨full, solid⟩ := Bool.and_eq_true_iff.mp h
    rw [Phrase.read_chain]
    refine (Scans.placed (Q := fun span f k => k = .ofNode (Node.ofArms span f.places f.slots))
      (ih solid) (fun us rest f made => made.ne_nil (by simpa using full)) fun _ span f =>
        .pure _).mono ?_
    rintro us rest k ⟨f, span, made, covers, rfl⟩
    exact ⟨f, span, made, covers, rfl⟩
  | construct c a ih =>
    rw [Phrase.read, discard_bind]
    refine (scans_openConstruct c).bind fun t us => (ih h).bind fun f vs =>
      scans_closeConstruct.bind_pure fun ws rest _ closed made opened => ?_
    obtain ⟨u, rfl⟩ := closed
    subst opened
    exact ⟨t, vs, u, by simp, made⟩

/-! ## Expressions, patterns and statements -/

omit hg in
theorem growing (hg : g.Spanned) : g.Growing :=
  ⟨fun l => (hg.expression l).1, hg.statement.1, hg.pattern.1⟩

theorem laid {a : Phrase} (h : a.Laid) :
    Scans (a.read g) fun us _ f => us ≠ [] ∧ Node.Lined us f.nodes :=
  (hg.read h.solid).mono fun _ _ _ made => ⟨made.ne_nil h.nullable, h.lined _ _ _ made⟩

theorem tail {r : Reserved} {m : Level} {a : Phrase} (h : Phrase.tail? r = some (m, a))
    (left : Node) (vs : List Token) :
    Scans (peek >>= fun start => a.read g >>= extend m left start) fun us _ n =>
      Node.Lined vs [left] → Node.Lined (vs ++ us) [n] := by
  let stopOf (start : Token) (span : Span) (f : Found) : Location :=
    if m = .postfixed then span.stop
    else (f.nodes.getLast?.map (·.span.stop)).getD start.stopOrStart
  let finish (start : Token) (span : Span) (f : Found) : Parser Node := do
    let n := Node.extended (← get).unit.registry.contains ⟨left.span.start, stopOf start span f⟩ m
      left f
    announce n
    return n
  have split : extend m left = fun start f => spanFrom start >>= fun span => finish start span f := by
    funext start f
    unfold Parser.extend tailStop
    by_cases call : m = .postfixed
    · simp only [call, if_true, bind_map_left, finish, stopOf]
    · simp only [call, if_false, finish, stopOf]
      rfl
  rw [split]
  refine (Scans.placed (Q := fun span f n => ∃ known start,
    n = Node.extended known ⟨left.span.start, stopOf start span f⟩ m left f)
    (hg.read (Phrase.laid_tail h).solid) (fun _ _ _ made => made.ne_nil (Phrase.laid_tail h).nullable)
    fun start span f => ?_).mono ?_
  · refine .of_get fun s => .look_bind (scans_announce _) fun _ => (Scans.pure _).mono ?_
    rintro us rest n ⟨rfl, rfl⟩
    exact ⟨rfl, _, start, rfl⟩
  · rintro us rest n ⟨f, span, made, covers, known, start, rfl⟩ hl
    refine made.lined_extended h hl known ?_
    split
    · rename_i call
      simp only [stopOf, if_pos call]
      exact covers.last
    · rename_i call
      intro n last
      simp only [stopOf, if_neg call, last]
      rfl

theorem extendUpTo (l : Level) (fuel : Nat) (left : Node) (vs : List Token) :
    Scans (g.extendUpTo l fuel left) fun us _ n =>
      Node.Lined vs [left] → Node.Lined (vs ++ us) [n] := by
  induction fuel generalizing left vs with
  | zero => exact .throw _
  | succ fuel ih =>
    refine ⟨(growing hg).extendUpTo l _ left, fun s n s' run same => ?_⟩
    have stay (run : ((.ok left, s) : Except Fault Node × ParserState) = (.ok n, s')) :
        ∃ us, s.rest = us ++ s'.rest ∧ s'.previous = us.getLast?.or s.previous ∧
          (Node.Lined vs [left] → Node.Lined (vs ++ us) [n]) := by
      cases run
      exact ⟨[], rfl, rfl, fun hl => by rwa [List.append_nil]⟩
    rw [Phrase.extendUpTo_run] at run
    split at run
    · rename_i m a h
      obtain ⟨r, -, ha⟩ := Option.bind_eq_some_iff.mp h
      split at run
      · have all : Scans ((peek >>= fun start => a.read g >>= extend m left start) >>=
            g.extendUpTo l fuel) fun us _ n => Node.Lined vs [left] → Node.Lined (vs ++ us) [n] := by
          refine (hg.tail ha left vs).bind fun n us => (ih n (vs ++ us)).mono ?_
          intro ws _ n' further first hl
          rw [← List.append_assoc]
          exact further (first hl)
        exact all.2 s n s' run same
      · exact stay run
    · exact stay run

theorem operand : Scans g.operand fun us _ n => us ≠ [] ∧ Node.Lined us [n] := by
  refine .of_map (f := Found.ofNode) (Q := fun us _ f => us ≠ [] ∧ Node.Lined us f.nodes) ?_
  refine ⟨(growing hg).operand.map, fun s f s' run same => ?_⟩
  rw [Phrase.operand_run] at run
  split at run
  · rename_i n _ h
    cases run
    refine ⟨[s.next], rest_of_isEnd (Phrase.isEnd_of_atom h), rfl, List.cons_ne_nil _ _, ?_⟩
    exact (Phrase.over_atom h).lined
  · rename_i a h
    obtain ⟨r, -, ha⟩ := Option.bind_eq_some_iff.mp h
    exact (hg.laid (Phrase.laid_operand ha)).2 s f s' run same
  · cases run

theorem readExpression (l : Level) :
    Scans (g.readExpression l) fun us _ n => us ≠ [] ∧ Node.Lined us [n] := by
  refine hg.operand.bind fun left vs => .of_get fun s => (hg.extendUpTo l _ left vs).mono ?_
  rintro us rest n further ⟨full, hl⟩
  exact ⟨List.append_ne_nil_of_left_ne_nil full us, further hl⟩

theorem readPattern : Scans g.readPattern fun us _ n => us ≠ [] ∧ Node.Lined us [n] := by
  refine .of_map (f := Found.ofNode) (Q := fun us _ f => us ≠ [] ∧ Node.Lined us f.nodes) ?_
  refine ⟨(growing hg).readPattern.map, fun s f s' run same => ?_⟩
  rw [Phrase.pattern_run] at run
  split at run
  · rename_i n _ h
    cases run
    refine ⟨[s.next], rest_of_isEnd (Phrase.isEnd_of_atomicPattern h), rfl,
      List.cons_ne_nil _ _, ?_⟩
    exact (Phrase.over_atomicPattern h).lined
  · rename_i a h
    obtain ⟨r, -, ha⟩ := Option.bind_eq_some_iff.mp h
    exact (hg.laid (Phrase.laid_pattern ha)).2 s f s' run same
  · cases run

theorem plainStatement (settings : Settings) :
    Scans (g.plainStatement settings) fun us _ n => us ≠ [] ∧ Node.Lined us [n] := by
  refine .of_map (f := Found.ofNode) (Q := fun us _ f => us ≠ [] ∧ Node.Lined us f.nodes) ?_
  rw [Phrase.plainStatement_eq]
  refine .look_bind (scans_peek.mono fun _ _ _ h => h.1) fun t => ?_
  split
  · rename_i a h
    obtain ⟨r, -, ha⟩ := Option.bind_eq_some_iff.mp h
    exact hg.laid (Phrase.laid_statement ha)
  · exact hg.laid Phrase.laid_expressionStmt

end Nonterminals.Spanned

/-! ## Statements -/

section

variable {t : Rereading}

/-- When nothing is expanded, what has been read is kept. -/
theorem scans_completed (ht : t.Growing) {read : Parser Node}
    {P : List Token → List Token → Node → Prop} (h : Scans read P) :
    Scans (t.completed read) fun us rest slot => ∃ n, slot = .one n ∧ P us rest n := by
  have put (f : ParserState → ParserState) (hf : ∀ s, (f s).unit = s.unit)
      (rest : ∀ s, (f s).rest = s.rest) (previous : ∀ s, (f s).previous = s.previous) :
      Scans (modify f : Parser Unit) fun us _ _ => us = [] :=
    .look (.calm hf) fun s => ⟨rest s, previous s⟩
  unfold Rereading.completed
  refine .of_get fun outer => .look_bind (put _ (fun _ => rfl) (fun _ => rfl) fun _ => rfl) fun _ => ?_
  refine h.bind_look fun n => .of_get fun s => ?_
  have finish {x : Parser (Slot Node)} (kept : Scans x fun us _ slot => us = [] ∧ slot = .one n) :
      Scans (x >>= fun slot => do
        modify fun s : ParserState => { s with pending := outer.pending }
        return slot) fun us _ slot => us = [] ∧ ∀ vs rest, P vs rest n →
          ∃ n, slot = .one n ∧ P vs rest n := by
    refine kept.bind_look fun slot => ?_
    refine .look_bind (put _ (fun _ => rfl) (fun _ => rfl) fun _ => rfl) fun _ => ?_
    refine (Scans.pure slot).mono ?_
    rintro us rest _ ⟨rfl, rfl⟩
    exact ⟨rfl, fun vs _ made => ⟨made.1, fun _ _ hn => ⟨n, made.2, hn⟩⟩⟩
  dsimp only
  split
  · exact finish (.pure _)
  · refine finish ⟨ht.transform n, fun s a s' run unchanged => ?_⟩
    cases (Rereading.unexpanded_transform ht n).2 s a s' run unchanged
    exact ⟨[], rfl, rfl, rfl, rfl⟩

theorem spanned_upTo (settings : Settings) (ht : t.Growing) (depth : Nat) :
    (Nonterminals.upTo settings t depth).Spanned := by
  induction depth with
  | zero => exact ⟨fun _ => .throw _, .throw _, .throw _⟩
  | succ depth ih =>
    refine ⟨fun l => ih.readExpression l, ?_, ih.readPattern⟩
    refine (scans_completed ht (ih.plainStatement settings)).map fun us rest slot h => ?_
    obtain ⟨n, rfl, full, lined⟩ := h
    exact ⟨full, lined⟩

/-! ## Programs -/

theorem scans_programItem {g : Nonterminals} (hg : g.Spanned) :
    Scans (programItem g) fun us _ ns => us ≠ [] ∧ Node.Lined us ns :=
  .look_bind (scans_work (.work Work.onlyReports_checkpoint)) fun _ => hg.statement

theorem scans_finishProgram (span : Span) (nss : List (List Node)) :
    Scans (finishProgram span nss) fun us _ p =>
      us = [] ∧ ∃ injected, p = .program span nss.flatten injected := by
  refine scans_closeScope.bind fun injected us => .look_bind (scans_work (.work
    (Work.onlyReports_report _))) fun _ => (Scans.pure _).mono ?_
  rintro ws rest p ⟨rfl, rfl⟩ rfl
  exact ⟨rfl, injected, rfl⟩

/-- A program stands over all tokens, from the first to the end of the input. -/
theorem over_programWith {settings : Settings} (ht : t.Growing) {s s' : ParserState} {p : Node}
    (run : programWith settings t s = (.ok p, s'))
    (same : s'.unit.expansions = s.unit.expansions) {l : Location} {us : List Token}
    (tokens : s.rest = us ++ [Token.endAt l]) : p.Over s.rest := by
  have hg := spanned_upTo settings ht (2 * s.rest.length + 2)
  have loop : Scans (repeatWhile (not <$> atEnd)
      (programItem (.upTo settings t (2 * s.rest.length + 2)))) fun us _ nss =>
      Node.Lined us nss.flatten :=
    .repeatWhile (.look (Grows.map grows_peek.map) fun _ => ⟨rfl, rfl⟩) (scans_programItem hg)
      (fun _ => .nil) fun _ _ _ _ _ first others => first.2.append others
  let span : Span := ⟨(s.rest.head?.map (·.location)).getD (Location.atStart "<empty>"),
    (s.rest.getLast?.map (·.location)).getD
      ((s.rest.head?.map (·.location)).getD (Location.atStart "<empty>"))⟩
  have whole : Scans (repeatWhile (not <$> atEnd)
      (programItem (.upTo settings t (2 * s.rest.length + 2))) >>= finishProgram span)
      fun us _ p => ∃ ns injected, Node.Lined us ns ∧ p = .program span ns injected := by
    refine loop.bind_look fun nss => (scans_finishProgram span nss).mono ?_
    rintro us rest p ⟨rfl, injected, rfl⟩
    exact ⟨rfl, fun _ _ lined => ⟨_, injected, lined, rfl⟩⟩
  obtain ⟨vs, read, -, ns, injected, lined, rfl⟩ :=
    whole.2 { s with scopes := [] :: s.scopes } p s' run same
  have covers : Covers s.rest span := by
    have nonempty : s.rest ≠ [] := by simp [tokens]
    obtain ⟨t, -, first, -, -⟩ := Covers.of_ne_nil nonempty
    have last : s.rest.getLast? = some (Token.endAt l) := by rw [tokens, List.getLast?_concat]
    simp only [span, first, last]
    exact ⟨by rw [first]; rfl, by rw [last]; rfl⟩
  refine .mk covers ?_
  show Node.Lined s.rest (ns ++ [])
  rw [List.append_nil, show s.rest = vs ++ s'.rest from read]
  exact lined.extend

end

/-! ## Parsed programs -/

/-- Where no call is expanded, the spans of the program and of all nodes in it are nested. -/
theorem Parser.program_nests {settings : Settings} {source file : String} {tokens : List Token}
    {u u' : UnitState} {p : Node} (lexed : tokenize source file = .ok tokens)
    (parsed : Work.parse (Parser.program settings) tokens u = (.ok p, u'))
    (unexpanded : u'.expansions = u.expansions) : ∀ n ∈ p.walk, n.Nests tokens := by
  have order := (scanFrom_inOrder lexed).2
  obtain ⟨inner, stop, ends, -⟩ := scanFrom_lexemes lexed
  obtain ⟨s', run, rfl⟩ : ∃ s', Parser.program settings (ParserState.start u tokens) = (.ok p, s') ∧
      s'.unit = u' :=
    ⟨_, Prod.ext (congrArg Prod.fst parsed :) rfl, congrArg Prod.snd parsed⟩
  have stands := over_programWith (Rereading.growing_upTo settings _) run unexpanded ends
  exact stands.nests (List.Sublist.refl _) order

/-- A conditional with two arms, in which there are a call and an operator behind a group. -/
theorem Parser.program_nests_arms : ∃ tokens p u',
    tokenize "\x7b? a [[ f((1)) ]] ?| b [[ (x ++ 1) ** 2 ]] ?: [[ y ]] ?\x7d" "<input>" = .ok tokens ∧
    Work.parse (Parser.program {}) tokens (UnitState.ofSettings {} none) = (.ok p, u') ∧
    u'.expansions = 0 ∧ p.walk.length = 20 ∧ ∀ n ∈ p.walk, n.Nests tokens := by
  have reads : ((tokenize
      "\x7b? a [[ f((1)) ]] ?| b [[ (x ++ 1) ** 2 ]] ?: [[ y ]] ?\x7d" "<input>").toOption.bind
      fun tokens =>
        let run := Work.parse (Parser.program {}) tokens (UnitState.ofSettings {} none)
        run.1.toOption.map fun p => (run.2.expansions, p.walk.length)) = some (0, 20) := by
    rw [tokenize_ofList]
    decide +kernel
  obtain ⟨tokens, lexed, counts⟩ := Option.bind_eq_some_iff.mp reads
  obtain ⟨p, parsed, counts⟩ := Option.map_eq_some_iff.mp counts
  obtain ⟨unexpanded, size⟩ := Prod.mk.inj counts
  have lexed := ok_of_toOption lexed
  have parsed : Work.parse (Parser.program {}) tokens (UnitState.ofSettings {} none) = (.ok p, _) :=
    Prod.ext (ok_of_toOption parsed) rfl
  exact ⟨tokens, p, _, lexed, parsed, unexpanded, size, Parser.program_nests lexed parsed unexpanded⟩

end GlyphScript
