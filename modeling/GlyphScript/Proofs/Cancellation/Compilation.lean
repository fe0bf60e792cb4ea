import GlyphScript.Proofs.Cancellation.Reading
import GlyphScript.Proofs.Compilation
import GlyphScript.Proofs.Macro.Limits
import GlyphScript.Proofs.Parsing.Acceptance

/-!
# Cancelling a compilation

A compilation that is cancelled ends without an answer or with the answer that
it would have given. It makes one check before it reads, one before each
statement at the top level and one before each pass, so that many checks have
to find it not cancelled.
-/

namespace GlyphScript

open GlyphScript.Parser Allowance

/-! ## Counting checks -/

/-- The computation makes `c` checks from `s` on. With fewer it ends cancelled, and with more it
does what it does with any number, which is not to end cancelled. -/
structure Checks {σ α : Type} [Allowance σ] (x : ExceptT Fault (StateM σ) α) (s : σ) (c : Nat) :
    Prop where
  enough : ∀ n,
    x (allow (some (c + n)) s) = ((x (allow none s)).1, allow (some n) (x (allow none s)).2)
  short : ∀ n < c, ∃ s', x (allow (some n) s) = (.error .cancelled, s')
  lasting : (x (allow none s)).1 ≠ .error .cancelled
  unlimited : allow none (x (allow none s)).2 = (x (allow none s)).2

/-- The computation makes some checks from `s` on. Their number is as `P` says of the result and
the state in which it is never cancelled. -/
def Checked {σ α : Type} [Allowance σ] (x : ExceptT Fault (StateM σ) α) (s : σ)
    (P : α → σ → Nat → Prop) : Prop :=
  ∃ c, Checks x s c ∧ ∀ a s', x (allow none s) = (.ok a, s') → P a s' c

section

variable {σ α β : Type} [Allowance σ] {x : ExceptT Fault (StateM σ) α}
  {f : α → ExceptT Fault (StateM σ) β} {s s' : σ} {c d : Nat}

theorem Checks.bind {a : α} (hx : Checks x s c) (h : x (allow none s) = (.ok a, s'))
    (hf : Checks (f a) s' d) : Checks (x >>= f) s (c + d) := by
  have free : (x >>= f) (allow none s) = f a (allow none s') := by
    have unlimited := hx.unlimited
    rw [h] at unlimited
    rw [run_bind, h, unlimited]
  have first (n : Nat) : x (allow (some (c + n)) s) = (.ok a, allow (some n) s') := by
    rw [hx.enough, h]
  refine ⟨fun n => ?_, fun n few => ?_, free ▸ hf.lasting, free ▸ hf.unlimited⟩
  · rw [free, run_bind, Nat.add_assoc, first]
    exact hf.enough n
  · rcases Nat.lt_or_ge n c with fewer | le
    · obtain ⟨s'', stopped⟩ := hx.short n fewer
      exact ⟨s'', by rw [run_bind, stopped]⟩
    · obtain ⟨m, rfl⟩ := Nat.exists_eq_add_of_le le
      rw [run_bind, first]
      exact hf.short m (by omega)

theorem Checks.bind_error {fault : Fault} (hx : Checks x s c)
    (h : x (allow none s) = (.error fault, s')) : Checks (x >>= f) s c := by
  have free : (x >>= f) (allow none s) = (.error fault, s') := by rw [run_bind, h]
  obtain ⟨enough, short, lasting, unlimited⟩ := hx
  rw [h] at lasting unlimited
  refine ⟨fun n => ?_, fun n few => ?_, ?_, free ▸ unlimited⟩
  · rw [free, run_bind, enough, h]
  · obtain ⟨s'', stopped⟩ := short n few
    exact ⟨s'', by rw [run_bind, stopped]⟩
  · rw [free]
    exact fun e => lasting (congrArg Except.error (Except.error.inj e))

theorem Heedless.checks (h : Heedless x) (s : σ) : Checks x s 0 := by
  have same (k : Option Nat) :
      x (allow k s) = ((x (allow none s)).1, allow k (x (allow none s)).2) := by
    have := (h (allow none s) k).2
    rwa [allow_allow] at this
  refine ⟨fun n => ?_, fun n few => absurd few (Nat.not_lt_zero n), (h _ none).1, ?_⟩
  · rw [Nat.zero_add]
    exact same (some n)
  · exact (congrArg Prod.snd (same none)).symm

namespace Checked

variable {P : α → σ → Nat → Prop} {Q : β → σ → Nat → Prop}

theorem bind (hx : Checked x s P)
    (hf : ∀ a s' c, P a s' c → Checked (f a) s' fun b s'' d => Q b s'' (c + d)) :
    Checked (x >>= f) s Q := by
  obtain ⟨c, checks, result⟩ := hx
  rcases h : x (allow none s) with ⟨fault | a, s'⟩
  · refine ⟨c, checks.bind_error h, fun b s'' e => ?_⟩
    rw [run_bind, h] at e
    cases e
  · obtain ⟨d, checks', result'⟩ := hf a s' c (result a s' h)
    refine ⟨c + d, checks.bind h checks', fun b s'' e => result' b s'' ?_⟩
    have unlimited := checks.unlimited
    rw [h] at unlimited
    rw [run_bind, h] at e
    rw [unlimited]
    exact e

theorem mono {P' : α → σ → Nat → Prop} (hx : Checked x s P)
    (h : ∀ a s' c, P a s' c → P' a s' c) : Checked x s P' := by
  obtain ⟨c, checks, result⟩ := hx
  exact ⟨c, checks, fun a s' e => h a s' c (result a s' e)⟩

theorem of_heedless (h : Heedless x) (s : σ) :
    Checked x s fun a s' c => x (allow none s) = (.ok a, s') ∧ c = 0 :=
  ⟨0, h.checks s, fun _ _ e => ⟨e, rfl⟩⟩

theorem with_run (hx : Checked x s P) :
    Checked x s fun a s' c => x (allow none s) = (.ok a, s') ∧ P a s' c := by
  obtain ⟨c, checks, result⟩ := hx
  exact ⟨c, checks, fun a s' e => ⟨e, result a s' e⟩⟩

/-- The same runs make the same checks. -/
theorem congr {y : ExceptT Fault (StateM σ) α} {t : σ}
    (same : ∀ k, x (allow k s) = y (allow k t)) (hy : Checked y t P) : Checked x s P := by
  obtain ⟨c, ⟨enough, short, lasting, unlimited⟩, result⟩ := hy
  refine ⟨c, ⟨fun n => ?_, fun n few => ?_, same none ▸ lasting, same none ▸ unlimited⟩, ?_⟩
  · rw [same, same, enough]
  · rw [same]
    exact short n few
  · rw [same]
    exact result

/-- After what makes no check. -/
theorem heedless_bind (hx : Heedless x)
    (hf : ∀ a s', x (allow none s) = (.ok a, s') → Checked (f a) s' Q) :
    Checked (x >>= f) s Q := by
  refine (of_heedless hx s).bind fun a s' c h => ?_
  obtain ⟨run, rfl⟩ := h
  simpa using hf a s' run

end Checked

end

/-! ## The top level of a program -/

theorem Work.checked_checkpoint (u : UnitState) :
    Checked checkpoint u fun _ u' c => u' = allow none u ∧ c = 1 := by
  refine ⟨1, ⟨fun n => ?_, fun n few => ?_, nofun, rfl⟩, fun _ u' e => ?_⟩
  · rw [Nat.add_comm]
    rfl
  · obtain rfl : n = 0 := by omega
    exact ⟨allow (some 0) u, rfl⟩
  · cases e
    exact ⟨rfl, rfl⟩

theorem Checked.work {α : Type} {w : Work α} {s : ParserState} {P : α → UnitState → Nat → Prop}
    (h : Checked w s.unit P) :
    Checked (ofWork w) s fun a s' c => ∃ u, P a u c ∧ s' = { s with unit := u } := by
  obtain ⟨c, ⟨enough, short, lasting, unlimited⟩, result⟩ := h
  have run (k : Option Nat) : ofWork w (allow k s) =
      ((w (allow k s.unit)).1, { s with unit := (w (allow k s.unit)).2 }) := rfl
  refine ⟨c, ⟨fun n => ?_, fun n few => ?_, lasting, ?_⟩, fun a s' e => ?_⟩
  · rw [run, run, enough]
    rfl
  · obtain ⟨u, stopped⟩ := short n few
    exact ⟨{ s with unit := u }, by rw [run, stopped]⟩
  · rw [run]
    exact congrArg (fun u => { s with unit := u }) unlimited
  · obtain ⟨made, rfl⟩ := Prod.mk.inj ((run none).symm.trans e)
    exact ⟨_, result a _ (Prod.ext made rfl), rfl⟩

/-- A parser is run on tokens. -/
theorem Checked.parse {α : Type} {p : Parser α} {tokens : List Token} {u : UnitState}
    {P : α → ParserState → Nat → Prop} (h : Checked p (ParserState.start u tokens) P) :
    Checked (Work.parse p tokens) u fun a u' c => ∃ s, P a s c ∧ s.unit = u' := by
  obtain ⟨c, ⟨enough, short, lasting, unlimited⟩, result⟩ := h
  have run (k : Option Nat) : Work.parse p tokens (allow k u) =
      ((p (allow k (ParserState.start u tokens))).1,
        (p (allow k (ParserState.start u tokens))).2.unit) := rfl
  refine ⟨c, ⟨fun n => ?_, fun n few => ?_, lasting, ?_⟩, fun a u' e => ?_⟩
  · rw [run, run, enough]
    rfl
  · obtain ⟨s, stopped⟩ := short n few
    exact ⟨s.unit, by rw [run, stopped]⟩
  · rw [run]
    exact congrArg ParserState.unit unlimited
  · obtain ⟨made, rfl⟩ := Prod.mk.inj ((run none).symm.trans e)
    exact ⟨_, result a _ (Prod.ext made rfl), rfl⟩

theorem Heedless.unlimited {σ α : Type} [Allowance σ] {x : ExceptT Fault (StateM σ) α} {s s' : σ}
    {r : Except Fault α} (h : Heedless x) (run : x (allow none s) = (r, s')) :
    allow none s' = s' := by
  have := (h.checks s).unlimited
  rwa [run] at this

/-- A loop with a check in each turn makes as many checks as it comes to results, and is the loop
without checks as long as it is not cancelled. -/
theorem checked_repeatUpTo {α : Type} {test : Parser Bool} {item : Parser α} (ht : Heedless test)
    (hi : Heedless item) (fuel : Nat) (s : ParserState) :
    Checked (repeatUpTo test (ofWork Work.checkpoint >>= fun _ => item) fuel) s fun as s' c =>
      c = as.length ∧ repeatUpTo test item fuel (allow none s) = (.ok as, s') := by
  induction fuel generalizing s with
  | zero =>
    exact (Checked.of_heedless (.throw (f := .outOfReach) nofun) s).mono fun _ _ _ h => nomatch h.1
  | succ fuel ih =>
    rw [repeatUpTo_succ, repeatUpTo_succ]
    refine .heedless_bind ht fun b s₁ tested => ?_
    cases b with
    | false =>
      refine (Checked.of_heedless (.pure _) s₁).mono fun as s' c h => ?_
      obtain ⟨e, rfl⟩ := h
      cases e
      rw [ht.unlimited tested, run_bind, tested]
      exact ⟨rfl, rfl⟩
    | true =>
      rw [if_pos rfl, bind_assoc]
      refine (Work.checked_checkpoint _).work.bind fun _ s₂ c h => ?_
      obtain ⟨u, ⟨rfl, rfl⟩, rfl⟩ := h
      refine .heedless_bind hi fun a s₃ read => (ih s₃).bind fun as s₄ c h => ?_
      obtain ⟨rfl, loop⟩ := h
      refine (Checked.of_heedless (.pure _) s₄).mono fun as' s' c h => ?_
      obtain ⟨made, rfl⟩ := h
      have plain := ht.unlimited tested
      have read : item s₁ = (.ok a, s₃) := plain ▸ read
      have after : allow none s₃ = s₃ := hi.unlimited (s := s₁) (plain.symm ▸ read)
      rw [after] at loop
      have last : allow none s₄ = s₄ :=
        (Heedless.repeatUpTo ht hi fuel).unlimited (s := s₃) (after.symm ▸ loop)
      cases made
      refine ⟨Nat.add_comm .., ?_⟩
      rw [run_bind, tested]
      show (item >>= _) s₁ = _
      rw [run_bind, read]
      dsimp only
      rw [run_bind, loop, last]
      rfl

namespace Parser

/-- What each statement at the top level of a text reads as. -/
def topLevel (settings : Settings) : Parser (List (List Node)) := do
  let g ← Nonterminals.here settings (Rereading.within settings)
  openScope
  repeatWhile (not <$> atEnd) g.statement

/-- Reading a program makes a check for each statement at its top level. -/
theorem checked_program (settings : Settings) (s : ParserState) :
    Checked (program settings) s fun p _ c => ∃ groups s',
      topLevel settings (allow none s) = (.ok groups, s') ∧ p.statements = groups.flatten ∧
        c = groups.length := by
  let g := Nonterminals.upTo settings (Rereading.within settings) (2 * s.rest.length + 2)
  let start := (s.rest.head?.map (·.location)).getD (Location.atStart "<empty>")
  let span : Span := ⟨start, (s.rest.getLast?.map (·.location)).getD start⟩
  have heedless := (Rereading.heedless_upTo settings settings.maxParseDepth).upTo settings
    (2 * s.rest.length + 2)
  refine .congr (y := repeatUpTo (not <$> atEnd) (programItem g) (s.rest.length + 1) >>=
    finishProgram span) (t := { s with scopes := [] :: s.scopes }) (fun k => ?_) ?_
  · unfold program programWith
    rfl
  refine (checked_repeatUpTo heedless_atEnd.map heedless.statement _ _).bind fun groups s₁ c h => ?_
  obtain ⟨rfl, loop⟩ := h
  have finish : Heedless (finishProgram span groups) :=
    heedless_closeScope.bind fun _ => (Work.heedless_report _).work.bind fun _ => .pure _
  refine (Checked.of_heedless finish s₁).mono fun p s₂ c h => ?_
  obtain ⟨finished, rfl⟩ := h
  obtain ⟨_, _, _, finished⟩ := bind_ok.mp finished
  obtain ⟨_, _, _, finished⟩ := bind_ok.mp finished
  cases finished
  exact ⟨groups, s₁, loop, rfl, rfl⟩

end Parser

/-! ## The passes of the expansion -/

namespace Work

variable {settings : Settings} {n n' : Node} {u u' : UnitState}

theorem pass_iterations {c : Option MacroCall} (h : pass settings n u = (.ok (n', c), u')) :
    u'.progress.iterations = u.progress.iterations + if c.isSome then 1 else 0 := by
  rw [pass_run] at h
  split at h
  · rename_i n₁ p u₁ passed
    cases h
    obtain ⟨slot, u₁, transformed, -, rfl⟩ := passWith_ok.mp passed
    rw [← PassM.transform_eq] at transformed
    have within := (PassM.budgeted_transform settings n _ _ _ _ _).2
      ((PassM.budgeted_transform settings n _ _ _ _ _).1 transformed)
    have noted := within.noted (iff_of_true rfl rfl)
    rw [UnitState.afterPass, within.progress]
    cases h : p.last with
    | none =>
      rw [if_pos (noted.mp h)]
      rfl
    | some c =>
      rw [if_neg (mt noted.mpr (h ▸ Option.some_ne_none c))]
      rfl
  · cases h

/-- The passes make a check each, the one that replaces nothing too. -/
theorem checked_settle (settings : Settings) : ∀ (remaining : Nat) (n : Node) (u : UnitState),
    Checked (settle settings remaining n) u fun _ u' c =>
      c + u.progress.iterations = u'.progress.iterations + 1 := by
  intro remaining n u
  rw [settle]
  refine (checked_checkpoint u).bind fun _ u₁ c h => ?_
  obtain ⟨rfl, rfl⟩ := h
  refine .heedless_bind (heedless_pass settings n) fun a u₂ passed => ?_
  obtain ⟨n', c⟩ := a
  have iterations : u₂.progress.iterations = u.progress.iterations + if c.isSome then 1 else 0 :=
    (pass_iterations passed :)
  cases c with
  | none =>
    refine (Checked.of_heedless (.pure n') u₂).mono fun _ u' c h => ?_
    obtain ⟨e, rfl⟩ := h
    cases e
    show 1 + 0 + u.progress.iterations = u₂.progress.iterations + 1
    simp only [Option.isSome_none, Bool.false_eq_true, if_false] at iterations
    omega
  | some c =>
    simp only [Option.isSome_some, if_true] at iterations
    cases remaining with
    | zero =>
      refine (Checked.of_heedless (.throw ?_) u₂).mono fun _ _ _ h => ?_
      · rintro ⟨⟩
      · cases h.1
    | succ remaining =>
      refine (checked_settle settings remaining n' u₂).mono fun _ u' c h => ?_
      omega

/-- The checks of an expansion. -/
theorem checked_expand (settings : Settings) (n : Node) (u : UnitState) :
    Checked (expand settings n) u fun _ u' c => c = u'.progress.iterations + 1 := by
  unfold expand
  refine .heedless_bind (heedless_registerMissing n) fun _ u₁ _ => ?_
  refine .heedless_bind (.modify fun _ _ => rfl) fun _ u₂ restarted => ?_
  cases restarted
  exact checked_settle settings _ n _

/-! ## Units -/

/-- The checks that the passes of an expansion make, if there is one. -/
def passChecks (settings : Settings) (u : UnitState) : Nat :=
  if settings.expand then u.progress.iterations + 1 else 0

theorem checked_unitProgram (settings : Settings) (tokens : List Token) (u : UnitState) :
    Checked (unitProgram settings tokens) u fun _ u' c => ∃ groups program u₁ u₂,
      parse (Parser.topLevel settings) tokens (allow none u) = (.ok groups, u₁) ∧
      parse (Parser.program settings) tokens (allow none u) = (.ok program, u₂) ∧
      program.statements = groups.flatten ∧ c = groups.length + passChecks settings u' := by
  unfold unitProgram
  refine (Checked.parse (Parser.checked_program settings _)).with_run.bind fun program u₂ c h => ?_
  obtain ⟨parsed, s, ⟨groups, s', top, flat, rfl⟩, rfl⟩ := h
  have loop : parse (Parser.topLevel settings) tokens (allow none u) = (.ok groups, s'.unit) := by
    show ((Parser.topLevel settings (allow none (ParserState.start u tokens))).1,
      (Parser.topLevel settings (allow none (ParserState.start u tokens))).2.unit) = _
    rw [top]
  have settled (c : Nat) (u' : UnitState) (h : c = passChecks settings u') :
      ∃ groups' program' u₁ u₂,
      parse (Parser.topLevel settings) tokens (allow none u) = (.ok groups', u₁) ∧
      parse (Parser.program settings) tokens (allow none u) = (.ok program', u₂) ∧
      program'.statements = groups'.flatten ∧
      groups.length + c = groups'.length + passChecks settings u' :=
    ⟨groups, program, s'.unit, s.unit, loop, parsed, flat, by rw [h]⟩
  refine .congr (y := do
      report (.unitParsed settings.file s.unit.registry.size)
      if settings.expand then
        let program ← expand settings program
        report (.unitExpanded settings.file (← get).progress.iterations)
        return program
      else return program) (t := s.unit) (fun k => rfl) ?_
  refine .heedless_bind (heedless_report _) fun _ u₃ _ => ?_
  split
  next on =>
    refine (checked_expand settings program u₃).bind fun program' u₄ c h => ?_
    subst h
    have finish : Heedless (do
        report (.unitExpanded settings.file (← get).progress.iterations)
        return program') :=
      .of_get (fun _ _ => rfl) fun _ => (heedless_report _).bind fun _ => .pure _
    refine (Checked.of_heedless finish u₄).mono fun _ u' c h => ?_
    obtain ⟨finished, rfl⟩ := h
    cases finished
    refine settled _ _ ?_
    rw [passChecks, if_pos on]
    rfl
  next off =>
    refine (Checked.of_heedless (.pure _) u₃).mono fun _ u' c h => ?_
    obtain ⟨_, rfl⟩ := h
    refine settled _ _ ?_
    rw [passChecks, if_neg off]

theorem checked_unitTokens (settings : Settings) (source : String) (u : UnitState) :
    Checked (unitTokens settings source) u fun tokens u' c => c = 1 ∧ allow none u' = u' ∧
      (do let tokens ← Work.tokens source settings.file
          startNames settings tokens
          return tokens : Work _) (allow none u) = (.ok tokens, u') := by
  have rest : Heedless (do
      let tokens ← Work.tokens source settings.file
      startNames settings tokens
      return tokens) :=
    (heedless_tokens source settings.file).bind fun _ =>
      (heedless_startNames settings _).bind fun _ => .pure _
  unfold unitTokens
  refine (checked_checkpoint u).bind fun _ u₁ c h => ?_
  obtain ⟨rfl, rfl⟩ := h
  refine (Checked.of_heedless rest _).mono fun tokens u' c h => ?_
  obtain ⟨run, rfl⟩ := h
  exact ⟨rfl, rest.unlimited run, run⟩

end Work

/-- What each statement at the top level of a source text reads as. -/
def topLevel (settings : Settings) (source : String) : Except Fault (List (List Node)) :=
  let work : Work (List (List Node)) := do
    let tokens ← Work.tokens source settings.file
    Work.startNames settings tokens
    Work.parse (Parser.topLevel settings) tokens
  (work.run (UnitState.ofSettings settings none)).1

section

variable {settings : Settings} {source : String} {checks : Option Nat} {tokens : List Token}
  {u : UnitState}

theorem compile_of_error {fault : Fault} (h : Work.unitTokens settings source
      (UnitState.ofSettings settings checks) = (.error fault, u)) :
    compile settings source checks = ⟨.error fault, [], u⟩ := by
  unfold compile
  rw [show (Work.unitTokens settings source).run _ = _ from h]

theorem compile_of_tokens (h : Work.unitTokens settings source
      (UnitState.ofSettings settings checks) = (.ok tokens, u)) :
    compile settings source checks =
      ⟨(Work.unitProgram settings tokens u).1, tokens, (Work.unitProgram settings tokens u).2⟩ := by
  unfold compile
  rw [show (Work.unitTokens settings source).run _ = _ from h]
  rfl

/-- What is read from the tokens of a unit is read from its source. -/
theorem read_of_tokens {α : Type} {p : Parser α} {r : Except Fault α} {u' : UnitState}
    (started : (do
      let tokens ← Work.tokens source settings.file
      Work.startNames settings tokens
      return tokens : Work _) (UnitState.ofSettings settings none) = (.ok tokens, u))
    (h : Work.parse p tokens u = (r, u')) :
    ((do
      let tokens ← Work.tokens source settings.file
      Work.startNames settings tokens
      Work.parse p tokens : Work α).run (UnitState.ofSettings settings none)).1 = r := by
  obtain ⟨tokens', u₁, divided, rest⟩ := bind_ok.mp started
  obtain ⟨_, u₂, named, rest⟩ := bind_ok.mp rest
  cases rest
  show ((_ >>= _ : Work α) (UnitState.ofSettings settings none)).1 = r
  rw [run_bind, divided]
  dsimp only
  rw [run_bind, named]
  dsimp only
  rw [h]

end

/-- A compilation makes some checks. With fewer it is found cancelled, and with more it is the
compilation that is never cancelled. If that succeeds, the number is known. -/
theorem compile_checks (settings : Settings) (source : String) : ∃ c,
    (∀ n < c, (compile settings source (some n)).result = .error .cancelled) ∧
    (∀ n, compile settings source (some (c + n)) =
      { compile settings source none with
        state := allow (some n) (compile settings source none).state }) ∧
    (compile settings source none).result ≠ .error .cancelled ∧
    ∀ p, (compile settings source none).result = .ok p → ∃ groups program,
      topLevel settings source = .ok groups ∧ parse settings source = .ok program ∧
      program.statements = groups.flatten ∧
      c = 1 + groups.length + Work.passChecks settings (compile settings source none).state := by
  obtain ⟨c, checks, started⟩ :=
    Work.checked_unitTokens settings source (UnitState.ofSettings settings none)
  have allowed (k : Option Nat) : UnitState.ofSettings settings k =
      allow k (UnitState.ofSettings settings none) := rfl
  rcases h : Work.unitTokens settings source (allow none (UnitState.ofSettings settings none))
    with ⟨fault | tokens, u⟩
  · have free := compile_of_error ((allowed none).symm ▸ h)
    refine ⟨c, fun n few => ?_, fun n => ?_, ?_, fun p e => ?_⟩
    · obtain ⟨u', stopped⟩ := checks.short n few
      rw [compile_of_error ((allowed _).symm ▸ stopped)]
    · have enough := checks.enough n
      rw [h] at enough
      rw [free, compile_of_error ((allowed _).symm ▸ enough)]
    · have lasting := checks.lasting
      rw [h] at lasting
      rw [free]
      exact fun e => lasting (congrArg Except.error (Except.error.inj e))
    · rw [free] at e
      cases e
  · obtain ⟨rfl, unlimited, started⟩ := started tokens u h
    obtain ⟨d, checks', counted⟩ := Work.checked_unitProgram settings tokens u
    have free := compile_of_tokens ((allowed none).symm ▸ h)
    rw [← unlimited] at free
    have first (n : Nat) : Work.unitTokens settings source
        (UnitState.ofSettings settings (some (1 + n))) = (.ok tokens, allow (some n) u) := by
      rw [allowed, checks.enough, h]
    refine ⟨1 + d, fun n few => ?_, fun n => ?_, ?_, fun p e => ?_⟩
    · cases n with
      | zero =>
        obtain ⟨u', stopped⟩ := checks.short 0 Nat.one_pos
        rw [compile_of_error ((allowed _).symm ▸ stopped)]
      | succ n =>
        obtain ⟨u', stopped⟩ := checks'.short n (by omega)
        rw [Nat.add_comm, compile_of_tokens (first n), stopped]
    · rw [Nat.add_assoc, compile_of_tokens (first _), checks'.enough, free]
    · rw [free]
      exact checks'.lasting
    · rw [free] at e ⊢
      obtain ⟨groups, program, u₁, u₂, top, parsed, flat, rfl⟩ := counted p _ (Prod.ext e rfl)
      rw [unlimited] at top parsed
      exact ⟨groups, program, read_of_tokens started top, read_of_tokens started parsed, flat,
        (Nat.add_assoc ..).symm⟩

/-- A compilation that is cancelled has no answer, or in all but the checks left it is the one that
is never cancelled. If it is with so many checks, it is with more; and one that succeeds needs a
check to start with, one for each statement at the top level and one for each pass, the last of
which replaces nothing. -/
theorem compile_cancelled (settings : Settings) (source : String) :
    (∀ n, (compile settings source (some n)).result = .error .cancelled ∨
      ∃ left, compile settings source (some n) =
        { compile settings source none with
          state := { (compile settings source none).state with checks := some left } }) ∧
    (∀ n m, n ≤ m →
      (compile settings source (some n)).result = (compile settings source none).result →
      (compile settings source (some m)).result = (compile settings source none).result) ∧
    (compile settings source none).result ≠ .error .cancelled ∧
    ∀ p, (compile settings source none).result = .ok p → ∃ groups program,
      topLevel settings source = .ok groups ∧ parse settings source = .ok program ∧
      program.statements = groups.flatten ∧
      ∀ n, (compile settings source (some n)).result = (compile settings source none).result ↔
        1 + groups.length +
          (if settings.expand then (compile settings source none).iterations + 1 else 0) ≤ n := by
  obtain ⟨c, short, enough, lasting, counted⟩ := compile_checks settings source
  have exactly (n : Nat) :
      (compile settings source (some n)).result = (compile settings source none).result ↔ c ≤ n := by
    rcases Nat.lt_or_ge n c with few | le
    · rw [short n few]
      exact iff_of_false (fun e => lasting e.symm) (Nat.not_le.mpr few)
    · obtain ⟨m, rfl⟩ := Nat.exists_eq_add_of_le le
      rw [enough]
      exact iff_of_true rfl le
  refine ⟨fun n => ?_, fun n m le h => ?_, lasting, fun p h => ?_⟩
  · rcases Nat.lt_or_ge n c with few | le
    · exact .inl (short n few)
    · obtain ⟨m, rfl⟩ := Nat.exists_eq_add_of_le le
      exact .inr ⟨m, enough m⟩
  · exact (exactly m).mpr (Nat.le_trans ((exactly n).mp h) le)
  · obtain ⟨groups, program, top, parsed, flat, rfl⟩ := counted p h
    refine ⟨groups, program, top, parsed, flat, fun n => ?_⟩
    rw [exactly, Work.passChecks, Compilation.iterations, h]

/-- A unit with a macro and one call of it, which is two statements and two passes. -/
theorem compile_cancelled_call :
    (compile {} "<%| m (( )) [[ '[ 1 ]' ]] |%> m(( ))" none).result.toBool = true ∧
    (∀ n, (compile {} "<%| m (( )) [[ '[ 1 ]' ]] |%> m(( ))" (some n)).result =
      (compile {} "<%| m (( )) [[ '[ 1 ]' ]] |%> m(( ))" none).result ↔ 5 ≤ n) ∧
    (compile {} "<%| m (( )) [[ '[ 1 ]' ]] |%> m(( ))" (some 4)).result = .error .cancelled := by
  obtain ⟨answers, -, lasting, counted⟩ :=
    compile_cancelled {} "<%| m (( )) [[ '[ 1 ]' ]] |%> m(( ))"
  have compiles :
      (compile {} "<%| m (( )) [[ '[ 1 ]' ]] |%> m(( ))" none).result.toBool = true := by
    decide +kernel
  have two : (topLevel {} "<%| m (( )) [[ '[ 1 ]' ]] |%> m(( ))").toOption.map List.length =
      some 2 := by
    decide +kernel
  have once : (compile {} "<%| m (( )) [[ '[ 1 ]' ]] |%> m(( ))" none).iterations = 1 := by
    decide +kernel
  cases h : (compile {} "<%| m (( )) [[ '[ 1 ]' ]] |%> m(( ))" none).result with
  | error fault =>
    rw [h] at compiles
    cases compiles
  | ok p =>
    obtain ⟨groups, program, top, -, -, exactly⟩ := counted p h
    rw [top] at two
    rw [Option.some.inj two, once, h, if_pos rfl] at exactly
    refine ⟨rfl, exactly, ?_⟩
    rcases answers 4 with stopped | ⟨left, same⟩
    · exact stopped
    · have := (exactly 4).mp (by rw [same, h])
      omega

end GlyphScript
