import GlyphScript.Proofs.Parsing.Acceptance
import GlyphScript.Proofs.Parsing.Boundaries
import GlyphScript.Proofs.Pattern

/-!
# Faults are found at once

A parser that fails with a fault of the grammar blames the token at which it
stands. The words read so far are the first of some words of the phrase, and
with that token behind them they are not, so no parser could have gone on. A
parser that succeeds has found where the phrase ends. Names bound twice in a
pattern are no matter of the words and left aside.
-/

namespace GlyphScript

open GlyphScript.Parser

/-! ## Blame -/

namespace ParseFault

/-- Whether a pattern is at fault that binds a name twice. -/
def repeatsName : ParseFault → Bool
  | invalidPattern (.boundTwice _) _ => true
  | _ => false

def isUnexpectedEnd : ParseFault → Bool
  | unexpectedEnd .. => true
  | _ => false

/-- The fault is reported at the token. -/
def Reports : ParseFault → Token → Prop
  | expectedToken _ found, t | unbalancedDelimiter _ found, t | unexpectedEnd _ found, t => found = t
  | invalidPattern flaw span, t => flaw = .cannotStart t.lexeme ∧ span = t.span

/-- The token is at fault, and the end of the input is what comes too early. -/
structure At (p : ParseFault) (t : Token) : Prop where
  reports : p.Reports t
  ends : p.isUnexpectedEnd = t.isEnd

/-- If the fault is one of the words, it is found at the first word not yet read, and of the words
read on the way there and that word it is known what `lost` says. -/
def Blames (p : ParseFault) (s s' : ParserState) (lost : List Word → Word → Prop) : Prop :=
  p.repeatsName = false → ∃ us, s.words = us ++ s'.words ∧ p.At s'.next ∧ lost us s'.next.word

theorem Blames.mono {p : ParseFault} {s s' : ParserState} {L M : List Word → Word → Prop}
    (h : p.Blames s s' L) (hl : ∀ us, s.words = us ++ s'.words → L us s'.next.word →
      M us s'.next.word) : p.Blames s s' M := by
  intro words
  obtain ⟨us, read, at', lost⟩ := h words
  exact ⟨us, read, at', hl us read lost⟩

end ParseFault

theorem unwanted_at (e : Expected) (s : ParserState) :
    ∃ p, unwanted e s = .parse p ∧ p.At s.next := by
  unfold unwanted
  split
  · rename_i ends
    exact ⟨_, rfl, rfl, ends.symm⟩
  · rename_i inner
    exact ⟨_, rfl, rfl, (Bool.eq_false_iff.mpr inner).symm⟩

theorem closingFault?_at {frame : Frame} {t : Token} {p : ParseFault}
    (h : Frames.closingFault? frame t = some p) : p.At t := by
  unfold Frames.closingFault? at h
  dsimp only at h
  split at h
  · cases h
  split at h
  · rename_i ends
    cases h
    exact ⟨rfl, ends.symm⟩
  rename_i inner
  split at h <;> cases h <;> exact ⟨rfl, (Bool.eq_false_iff.mpr inner).symm⟩

/-! ## The next word -/

theorem next_word (s : ParserState) : s.next.word = s.words.headD (.endOfInput, "") := by
  unfold ParserState.next ParserState.words
  cases s.rest <;> rfl

/-- The words stand ahead, and `t` behind them, be it the end of the input. -/
def ParserState.Faces (s : ParserState) (us : List Word) (t : Word) : Prop :=
  us ++ [t] <+: s.words ++ [(.endOfInput, "")]

theorem faces_of_read {s s' : ParserState} {us : List Word} (h : s.words = us ++ s'.words) :
    s.Faces us s'.next.word := by
  rw [ParserState.Faces, h, List.append_assoc, List.prefix_append_right_inj, next_word]
  cases s'.words with
  | nil => exact List.prefix_refl _
  | cons w ws => exact ⟨ws ++ [_], rfl⟩

/-- Whether words are read or not, the next word is the first of them and the one behind them. -/
theorem ParserState.Faces.next {s : ParserState} {us : List Word} {t : Word} (h : s.Faces us t) :
    [s.next.word] <+: us ++ [t] :=
  List.prefix_of_prefix_length_le (faces_of_read (List.nil_append s.words).symm) h (by simp)

/-! ## Trials -/

/-- What comes of a parser at `s`: a fault for which a token is blamed, or a result as `post` says
of the words read and the next word. -/
inductive Trial {α : Type} (s : ParserState) (lost : List Word → Word → Prop)
    (post : List Word → Word → α → Prop) : Except Fault α × ParserState → Prop where
  | fault {p s'} : p.Blames s s' lost → Trial s lost post (.error (.parse p), s')
  | ok {a us k s'} : s.Advanced us k s' → post us s'.next.word a → Trial s lost post (.ok a, s')

namespace Trial

variable {α β : Type} {s : ParserState} {p : Parser α} {L M : List Word → Word → Prop}
  {P : List Word → Word → α → Prop} {Q : List Word → Word → β → Prop}

theorem bind {f : α → Parser β} (grows : ∀ a, Grows (f a)) (quiet : ((p >>= f) s).2.unit.Quiet)
    (hp : (p s).2.unit.Quiet → Trial s M P (p s))
    (hl : ∀ us t, s.Faces us t → M us t → L us t)
    (hf : ∀ us k s' a, s.Advanced us k s' → s.Faces us s'.next.word →
      P us s'.next.word a → (f a s').2.unit.Quiet →
      Trial s' (fun vs => L (us ++ vs)) (fun vs => Q (us ++ vs)) (f a s')) :
    Trial s L Q ((p >>= f) s) := by
  have first := hp (quiet_of_bind grows quiet)
  rw [run_bind] at quiet ⊢
  generalize p s = res at first quiet ⊢
  cases first with
  | fault blames => exact .fault (blames.mono fun us read => hl us _ (faces_of_read read))
  | ok moved made =>
    have second := hf _ _ _ _ moved (faces_of_read moved.words) made quiet
    dsimp only at second ⊢
    generalize f _ _ = res at second ⊢
    cases second with
    | fault blames =>
      refine .fault fun words => ?_
      obtain ⟨vs, read, at', lost⟩ := blames words
      exact ⟨_, by rw [moved.words, read, List.append_assoc], at', lost⟩
    | ok moved' made' => exact .ok (moved.trans moved') made'

theorem mono {P' : List Word → Word → α → Prop} {res : Except Fault α × ParserState}
    (h : Trial s M P res) (hl : ∀ us t, s.Faces us t → M us t → L us t)
    (hp : ∀ us t a, s.Faces us t → P us t a → P' us t a) : Trial s L P' res := by
  cases h with
  | fault blames => exact .fault (blames.mono fun us read => hl us _ (faces_of_read read))
  | ok moved made => exact .ok moved (hp _ _ _ (faces_of_read moved.words) made)

theorem map {f : α → β} (h : Trial s L P (p s)) (hf : ∀ us t a, P us t a → Q us t (f a)) :
    Trial s L Q ((f <$> p) s) := by
  rw [run_map]
  generalize p s = res at h ⊢
  cases h with
  | fault blames => exact .fault blames
  | ok moved made => exact .ok moved (hf _ _ _ made)

theorem of_map {f : α → β} (h : Trial s L Q ((f <$> p) s)) :
    Trial s L (fun us t a => Q us t (f a)) (p s) := by
  rw [run_map] at h
  rcases hp : p s with ⟨_ | a, s'⟩ <;> rw [hp] at h <;> dsimp only at h <;> cases h
  case error.fault blames => exact .fault blames
  case ok.ok moved made => exact .ok moved made

theorem look {a : α} {f : α → Parser β} (hp : p s = (.ok a, s))
    (hf : (f a s).2.unit.Quiet → Trial s L Q (f a s)) (quiet : ((p >>= f) s).2.unit.Quiet) :
    Trial s L Q ((p >>= f) s) := by
  rw [run_bind, hp] at quiet ⊢
  exact hf quiet

theorem pure {k : Macros} (hk : s.unit.registry.Holds k) (a : α) (h : P [] s.next.word a) :
    Trial s L P ((Pure.pure a : Parser α) s) :=
  .ok (.refl hk) h

/-- A fault at the next word. -/
theorem here {e : ParseFault} (at' : e.At s.next) (h : L [] s.next.word) :
    Trial s L P (.error (.parse e), s) :=
  .fault fun _ => ⟨[], rfl, at', h⟩

theorem unwanted (e : Expected) (h : L [] s.next.word) : Trial s L P (.error (unwanted e s), s) := by
  obtain ⟨p, hp, at'⟩ := unwanted_at e s
  rw [hp]
  exact .here at' h

/-- What is known of the words from elsewhere. -/
theorem both {R : List Word → Macros → List Word → α → Prop} {res : Except Fault α × ParserState}
    (h : Trial s L P res) (h' : Outcome s R res) :
    Trial s L (fun us t a => P us t a ∧ ∃ k rest, R us k rest a) res := by
  cases h with
  | fault blames => exact .fault blames
  | ok moved made =>
    cases h' with
    | ok moved' made' =>
      cases List.append_cancel_right (moved.words.symm.trans moved'.words)
      exact .ok moved ⟨made, _, _, made'⟩

end Trial

section

variable {s : ParserState} {k : Macros} (hk : s.unit.registry.Holds k)

include hk

theorem consume_trial (r : Reserved) :
    Trial s (fun us t => us = [] ∧ t.1.reserved? ≠ some r)
      (fun us _ t => us = [(.reserved r, t.lexeme)]) (consume r s) := by
  rw [consume_run]
  split
  · rename_i next
    obtain ⟨x, word, -⟩ := words_of_leading (isReserved_next.mp next)
    refine .ok (.one hk (isEnd_of_isReserved next)) ?_
    have spelling : s.next.lexeme = x := congrArg Prod.snd word
    rw [word, spelling]
  · rename_i other
    refine .unwanted _ ⟨rfl, fun next => other ?_⟩
    exact isReserved_iff.mpr next

theorem consumeName_trial (what : String) :
    Trial s (fun us t => us = [] ∧ t.1 ≠ .identifier) (fun us _ x => us = [(.identifier, x)])
      (consumeName what s) := by
  rw [consumeName_run]
  split
  · rename_i next
    exact .ok (.one hk (isEnd_of_identifier next)) (by rw [Token.word, next])
  · rename_i other
    exact .unwanted _ ⟨rfl, other⟩

theorem announce_trial {L : List Word → Word → Prop} {n : Node}
    (quiet : (announce n s).2.unit.Quiet) :
    Trial s L (fun us _ _ => us = []) (announce n s) := by
  obtain ⟨s', run, moved⟩ := announce_advanced hk (.inl quiet)
  rw [run]
  exact .ok moved rfl

end

/-! ## Phrases -/

namespace Phrase

/-- Whether a node is found in the phrase in any case. -/
def bears : Phrase → Bool
  | node _ _ | part .body => true
  | seq a b => a.bears || b.bears
  | _ => false

/-- Whether a node is found in the phrase just when it has words. -/
def tells : Phrase → Bool
  | give f => f.nodes.isEmpty
  | list a => a.tells
  | either _ a b => a.tells && b.tells
  | star _ a => a.bears && !a.nullable
  | seq a b => a.tells && b.tells || (a.bears || b.bears) && !(a.nullable && b.nullable)
  | _ => false

/-- Whether the phrase can be completed wherever its words have come to. -/
def completable : Phrase → Bool
  | seq a b => a.completable && b.completable && b.sample?.isSome
  | either _ a b => a.completable && b.completable
  | ahead a b => a.completable && b.completable && a.sample?.isSome
  | star _ a | gather a | list a | node _ a | chain a => a.completable
  | demand a _ => a.completable && a.tells
  | construct _ a => a.completable && a.sample?.isSome
  | _ => true

theorem completable_operand {r : Reserved} {a : Phrase} (h : operand? r = some a) :
    a.completable = true ∧ a.sample?.isSome = true := by
  cases IsOperand.of h <;> exact ⟨rfl, rfl⟩

theorem completable_tail {r : Reserved} {m : Level} {a : Phrase} (h : tail? r = some (m, a)) :
    a.completable = true ∧ a.sample?.isSome = true := by
  cases IsTail.of h <;> exact ⟨rfl, rfl⟩

theorem completable_pattern {r : Reserved} {a : Phrase} (h : pattern? r = some a) :
    a.completable = true ∧ a.sample?.isSome = true := by
  cases IsComposite.of h <;> exact ⟨rfl, rfl⟩

theorem completable_statement {settings : Settings} {r : Reserved} {a : Phrase}
    (h : statement? settings r = some a) : a.completable = true ∧ a.sample?.isSome = true := by
  cases IsStatement.of h <;> exact ⟨rfl, rfl⟩

end Phrase

section

variable {settings : Settings} {a : Phrase} {k k' : Macros} {us : List Word} {f : Found}

theorem Derives.bears (h : Derives settings a k us k' f) (ha : a.bears = true) : f.nodes ≠ [] := by
  induction h with
  | node | body => exact List.cons_ne_nil _ _
  | seq _ _ iha ihb =>
    rw [Found.nodes_append, ne_eq, List.append_eq_nil_iff, not_and_or]
    exact (Bool.or_eq_true_iff.mp ha).imp iha ihb
  | _ => cases ha

theorem Derives.tells (h : Derives settings a k us k' f) (ha : a.tells = true) :
    f.nodes = [] ↔ us = [] := by
  induction h with
  | give =>
    refine iff_of_true ?_ rfl
    rw [Found.nodes_unplaced, List.isEmpty_iff.mp ha]
    rfl
  | @seq a b _ _ _ us vs f h first second iha ihb =>
    rcases Bool.or_eq_true_iff.mp ha with both | full
    · rw [Bool.and_eq_true] at both
      rw [Found.nodes_append, List.append_eq_nil_iff, List.append_eq_nil_iff, iha both.1, ihb both.2]
    · have whole := Derives.seq first second
      rw [Bool.and_eq_true] at full
      exact iff_of_false (whole.bears full.1) (whole.ne_nil (by simpa only [Phrase.nullable, Bool.not_eq_true'] using full.2))
  | list _ ih =>
    rw [Found.nodes_listed]
    exact ih ha
  | left _ ih => exact ih (Bool.and_eq_true_iff.mp ha).1
  | right _ ih => exact ih (Bool.and_eq_true_iff.mp ha).2
  | starNil => exact iff_of_true rfl rfl
  | starCons first _ _ _ =>
    simp only [Phrase.tells, Bool.and_eq_true, Bool.not_eq_true'] at ha
    refine iff_of_false ?_ fun none => first.ne_nil ha.2 (List.append_eq_nil_iff.mp none).1
    rw [Found.nodes_append]
    exact fun none => first.bears ha.1 (List.append_eq_nil_iff.mp none).1
  | _ => cases ha

end

/-! ## What comes of phrases -/

namespace Phrase

/-- The words read are the first of some words of the phrase; with `t` behind them they are not. -/
structure Lost (settings : Settings) (a : Phrase) (us : List Word) (t : Word) : Prop where
  viable : us ≠ [] → ∃ vs, Generates settings a (us ++ vs)
  cut : a.Cuts settings us t False

/-- The words read are words of the phrase, and the only ones in front of `t`. -/
structure Done (settings : Settings) (a : Phrase) (us : List Word) (t : Word) : Prop where
  words : Generates settings a us
  cut : a.Cuts settings us t True

section

variable {settings : Settings} {a b : Phrase} {us vs : List Word} {t t₁ : Word} {r : Reserved}

theorem Lost.completion (h : a.Lost settings us t) (some : a.sample?.isSome = true) :
    ∃ vs, Generates settings a (us ++ vs) := by
  by_cases full : us = []
  · obtain ⟨vs, hvs⟩ := Option.isSome_iff_exists.mp some
    exact ⟨vs, full ▸ generates_sample hvs⟩
  · exact h.viable full

/-- Where the phrase cannot even begin. -/
theorem Lost.nothing (cut : a.Cuts settings [] t False) : a.Lost settings [] t :=
  ⟨fun full => absurd rfl full, cut⟩

theorem Lost.word (h : ∀ ws, Generates settings a ws → ∃ w, ws = [w] ∧ w ≠ t) :
    a.Lost settings [] t :=
  .nothing (.other fun ws hw => by
    obtain ⟨w, rfl, other⟩ := h ws hw
    exact ⟨w, [], rfl, other⟩)

theorem Done.word {w : Word} (words : Generates settings a [w])
    (h : ∀ ws, Generates settings a ws → ∃ w, ws = [w]) : a.Done settings [w] t :=
  ⟨words, .word h⟩

theorem Done.nil (words : Generates settings a []) (h : ∀ ws, Generates settings a ws → ws = []) :
    a.Done settings [] t :=
  ⟨words, .nil h⟩

/-- Phrases that differ in what is made of the words. -/
theorem Lost.same (h : a.Lost settings us t) (into : ∀ ws, Generates settings a ws → Generates settings b ws)
    (back : ∀ ws, Generates settings b ws → Generates settings a ws) (greedy : b.greedy = a.greedy) :
    b.Lost settings us t :=
  ⟨fun full => (h.viable full).imp fun _ words => into _ words, h.cut.same back greedy⟩

theorem Done.same (h : a.Done settings us t) (into : ∀ ws, Generates settings a ws → Generates settings b ws)
    (back : ∀ ws, Generates settings b ws → Generates settings a ws) (greedy : b.greedy = a.greedy) :
    b.Done settings us t :=
  ⟨into _ h.words, h.cut.same back greedy⟩

end

end Phrase

/-! ## Statements -/

section

variable (settings : Settings)

/-- The words read are the first of some statements; with `t` behind them they are not. -/
structure LostStatement (us : List Word) (t : Word) : Prop where
  viable : ∃ vs, Generates settings (.part .statements) (us ++ vs)
  cut : CutsStatement settings us t False

/-- The words read are a statement, and the only one in front of `t`. -/
structure DoneStatement (us : List Word) (t : Word) : Prop where
  full : us ≠ []
  words : ∀ vs, Generates settings (.part .statements) vs →
    Generates settings (.part .statements) (us ++ vs)
  cut : CutsStatement settings us t True

/-- The parsers for nonterminals blame the first token that nothing goes on with. -/
structure Nonterminals.Early (g : Nonterminals) (depth : Nat) : Prop where
  sound : g.Sound settings depth
  expression : ∀ l s k, l.rank ≤ Level.unary.rank → 2 * s.rest.length + 1 ≤ depth →
    s.unit.registry.Holds k → (g.expression l s).2.unit.Quiet →
    Trial s ((Phrase.part (.expression l)).Lost settings)
      (fun us t _ => (Phrase.part (.expression l)).Done settings us t) (g.expression l s)
  pattern : ∀ s k, 2 * s.rest.length + 1 ≤ depth → s.unit.registry.Holds k →
    (g.pattern s).2.unit.Quiet →
    Trial s ((Phrase.part .pattern).Lost settings)
      (fun us t _ => (Phrase.part .pattern).Done settings us t) (g.pattern s)
  statement : ∀ s k, 2 * s.rest.length + 2 ≤ depth → s.unit.registry.Holds k →
    (g.statement s).2.unit.Quiet →
    Trial s (LostStatement settings) (fun us t _ => DoneStatement settings us t) (g.statement s)

end

/-! ## Patterns -/

namespace Phrase

/-- Nothing but patterns is found in the phrase. -/
def OfPatterns : Phrase → Prop
  | give f => f.nodes = []
  | mark _ | part .pattern => True
  | seq a b | either _ a b => a.OfPatterns ∧ b.OfPatterns
  | star _ a | list a => a.OfPatterns
  | node head a => (∀ x, (head x).isPattern = true) ∧ a.OfPatterns
  | _ => False

theorem ofPatterns_pattern {r : Reserved} {a : Phrase} (h : pattern? r = some a) :
    a.OfPatterns := by
  cases IsComposite.of h <;> simp [OfPatterns, composite, seqs, items, Head.isPattern]

end Phrase

theorem Derives.patterns {settings : Settings} {a : Phrase} {k k' : Macros} {us : List Word}
    {f : Found} (h : Derives settings a k us k' f) (ha : a.OfPatterns) :
    ∀ n ∈ f.nodes, n.IsPattern := by
  induction h with
  | give =>
    rw [Found.nodes_unplaced, show Found.nodes _ = [] from ha]
    exact List.forall_mem_nil _
  | mark | starNil => exact List.forall_mem_nil _
  | seq _ _ iha ihb =>
    rw [Found.nodes_append]
    exact List.forall_mem_append.mpr ⟨iha ha.1, ihb ha.2⟩
  | left _ ih => exact ih ha.1
  | right _ ih => exact ih ha.2
  | starCons _ _ iha ihb =>
    rw [Found.nodes_append]
    exact List.forall_mem_append.mpr ⟨iha ha, ihb ha⟩
  | list _ ih =>
    rw [Found.nodes_listed]
    exact ih ha
  | node _ ih =>
    refine List.forall_mem_singleton.mpr (Node.isPattern_mk.mpr ⟨ha.1 _, fun s hs n hn => ?_⟩)
    exact ih ha.2 n (Found.mem_nodes.mpr ⟨s, hs, hn⟩)
  | @atomicPattern t n _ made =>
    refine List.forall_mem_singleton.mpr ?_
    unfold Nonterminals.atomicPattern? at made
    split at made <;> cases made <;>
      exact Node.isPattern_mk.mpr ⟨rfl, List.forall_mem_nil _⟩
  | compositePattern made _ ih => exact ih (Phrase.ofPatterns_pattern made)
  | _ => exact ha.elim

/-- The only flaw of a tree of patterns is that a name is bound twice. -/
theorem Node.boundTwice_of_flaw {ns : List Node} (patterns : ∀ n ∈ ns, n.head.isPattern = true) :
    ∀ {seen : List String} {flaw : PatternFlaw} {span : Span},
      firstFlaw? seen ns = some (flaw, span) → ∃ x, flaw = .boundTwice x := by
  induction ns with
  | nil =>
    intro seen flaw span h
    cases h
  | cons n ns ih =>
    intro seen flaw span h
    obtain ⟨here, others⟩ := List.forall_mem_cons.mp patterns
    rw [firstFlaw?] at h
    split at h
    · split at h
      · exact ih others h
      · split at h
        · cases h
          exact ⟨_, rfl⟩
        · exact ih others h
    · rw [if_pos here] at h
      exact ih others h

/-! ## Loops -/

section

variable (settings : Settings) (ending : List Word → Prop)

/-- As `LostStatement`, for statements in front of one of the endings. -/
structure LostStatements (us : List Word) (t : Word) : Prop where
  viable : ∃ vs, Generates settings (.part .statements) (us ++ vs)
  cut : CutsStatements settings ending us t False

/-- The words read are statements, and the only ones in front of `t` and one of the endings. -/
structure DoneStatements (us : List Word) (t : Word) : Prop where
  words : Generates settings (.part .statements) us
  cut : CutsStatements settings ending us t True

end

section

variable {settings : Settings} {ending : List Word → Prop} {us vs : List Word} {t t₁ : Word}
  (free : ∀ zs, ending zs → ∀ r ∈ Phrase.tailMarks, leading zs ≠ some r)
  (goes : ∀ zs, ending zs → ¬ us ++ [t₁] <+: zs)

include free goes

theorem LostStatement.first (h : LostStatement settings us t₁) :
    LostStatements settings ending us t₁ :=
  ⟨h.viable, .left h.cut free goes⟩

theorem DoneStatement.lost (h : DoneStatement settings us t₁)
    (others : LostStatements settings ending vs t) (next : [t₁] <+: vs ++ [t]) :
    LostStatements settings ending (us ++ vs) t := by
  obtain ⟨ws, words⟩ := others.viable
  exact ⟨⟨ws, List.append_assoc us vs ws ▸ h.words _ words⟩, .cons h.cut others.cut next free goes⟩

theorem DoneStatement.done (h : DoneStatement settings us t₁)
    (others : DoneStatements settings ending vs t) (next : [t₁] <+: vs ++ [t]) :
    DoneStatements settings ending (us ++ vs) t :=
  ⟨h.words _ others.words, .cons h.cut others.cut next free goes⟩

end

namespace Phrase

variable {settings : Settings} {a : Phrase} {us vs : List Word} {t t₁ : Word} {r : Reserved}

/-- A turn of a repetition that comes to nothing. -/
theorem Lost.turn (h : a.Lost settings us t) (opener : a.opener? = some r) (apart : r ∉ a.greedy)
    (next : [t₁] <+: us ++ [t]) (opens : t₁.1.reserved? = some r) : (star r a).Lost settings us t := by
  refine ⟨fun full => ?_, .starLeft h.cut opener apart next opens⟩
  obtain ⟨vs, words⟩ := h.viable full
  exact ⟨vs, List.append_nil (us ++ vs) ▸ .starCons words .starNil⟩

theorem Done.lostTurn (h : a.Done settings us t₁) (again : (star r a).Lost settings vs t)
    (opener : a.opener? = some r) (apart : r ∉ a.greedy) (next : [t₁] <+: vs ++ [t]) :
    (star r a).Lost settings (us ++ vs) t := by
  refine ⟨fun _ => ?_, .starCons h.cut again.cut next opener apart (h.words.opener opener)⟩
  by_cases full : vs = []
  · subst full
    refine ⟨[], ?_⟩
    rw [List.append_nil]
    exact .starCons h.words .starNil
  · obtain ⟨ws, words⟩ := again.viable full
    exact ⟨ws, List.append_assoc us vs ws ▸ .starCons h.words words⟩

theorem Done.turn (h : a.Done settings us t₁) (again : (star r a).Done settings vs t)
    (opener : a.opener? = some r) (apart : r ∉ a.greedy) (next : [t₁] <+: vs ++ [t]) :
    (star r a).Done settings (us ++ vs) t :=
  ⟨.starCons h.words again.words,
    .starCons h.cut again.cut next opener apart (h.words.opener opener)⟩

variable {b : Phrase}

/-! ## Phrases made of phrases -/

theorem Lost.seqLeft (h : a.Lost settings us t) (apart : ∀ r ∈ a.greedy, r ∉ b.starts)
    (some : b.sample?.isSome = true) : (seq a b).Lost settings us t := by
  refine ⟨fun full => ?_, .seqLeft h.cut apart⟩
  obtain ⟨vs, first⟩ := h.viable full
  obtain ⟨ws, hws⟩ := Option.isSome_iff_exists.mp some
  exact ⟨vs ++ ws, List.append_assoc us vs ws ▸ .seq first (generates_sample hws)⟩

theorem Done.lostSeq (h : a.Done settings us t₁) (second : b.Lost settings vs t)
    (next : [t₁] <+: vs ++ [t]) (apart : ∀ r ∈ a.greedy, r ∉ b.starts)
    (some : b.sample?.isSome = true) : (seq a b).Lost settings (us ++ vs) t := by
  obtain ⟨ws, words⟩ := second.completion some
  exact ⟨fun _ => ⟨ws, List.append_assoc us vs ws ▸ .seq h.words words⟩,
    .seq h.cut second.cut next apart⟩

theorem Done.seq (h : a.Done settings us t₁) (second : b.Done settings vs t)
    (next : [t₁] <+: vs ++ [t]) (apart : ∀ r ∈ a.greedy, r ∉ b.starts) :
    (Phrase.seq a b).Done settings (us ++ vs) t :=
  ⟨.seq h.words second.words, .seq h.cut second.cut next apart⟩

theorem Lost.left (h : a.Lost settings us t) (next : [t₁] <+: us ++ [t])
    (opens : t₁.1.reserved? = some r) (apart : r ∉ b.starts) : (either r a b).Lost settings us t :=
  ⟨fun full => (h.viable full).imp fun _ => .left, .left h.cut next opens apart⟩

theorem Done.left (h : a.Done settings us t) (next : [t₁] <+: us ++ [t])
    (opens : t₁.1.reserved? = some r) (apart : r ∉ b.starts) : (either r a b).Done settings us t :=
  ⟨.left h.words, .left h.cut next opens apart⟩

theorem Lost.right (h : b.Lost settings us t) (next : [t₁] <+: us ++ [t])
    (other : t₁.1.reserved? ≠ some r) (opener : a.opener? = some r) :
    (either r a b).Lost settings us t :=
  ⟨fun full => (h.viable full).imp fun _ => .right, .right h.cut next other opener⟩

theorem Done.right (h : b.Done settings us t) (next : [t₁] <+: us ++ [t])
    (other : t₁.1.reserved? ≠ some r) (opener : a.opener? = some r) :
    (either r a b).Done settings us t :=
  ⟨.right h.words, .right h.cut next other opener⟩

/-- A phrase that starts with a name and an arrow goes on with a name. -/
theorem Lost.named (h : a.Lost settings us t) (binding : a.startsBinding = true)
    (some : a.sample?.isSome = true) (name : t.1 = .identifier) : us ≠ [] := by
  rintro rfl
  obtain ⟨vs, hvs⟩ := Option.isSome_iff_exists.mp some
  have words : Generates settings _ vs := generates_sample hvs
  unfold startsBinding at binding
  split at binding
  · cases words with
    | seq first second =>
      obtain ⟨kind, x⟩ := t
      cases name
      exact h.cut.dead (.seq .name second) (List.prefix_append _ _)
  · cases binding

theorem Lost.bound {l : Level} {x y : String} (h : a.Lost settings us t)
    (arrow : [(.identifier, x), (.reserved .bindArrow, y)] <+: us ++ [t]) :
    (ahead a (part (.expression l))).Lost settings us t :=
  ⟨fun full => (h.viable full).imp fun _ => .bound, .bound h.cut arrow⟩

theorem Done.bound {l : Level} {x y : String} (h : a.Done settings us t)
    (arrow : [(.identifier, x), (.reserved .bindArrow, y)] <+: us ++ [t]) :
    (ahead a (part (.expression l))).Done settings us t :=
  ⟨.bound h.words, .bound h.cut arrow⟩

theorem Lost.unbound {l : Level} (h : (part (.expression l)).Lost settings us t)
    (free : ∀ x y, ¬ [(TokenKind.identifier, x), (.reserved .bindArrow, y)] <+: us ++ [t])
    (binding : a.startsBinding = true) : (ahead a (part (.expression l))).Lost settings us t :=
  ⟨fun full => (h.viable full).imp fun _ => .unbound, .unbound h.cut free (fun _ => id) binding⟩

theorem Done.unbound {l : Level} (h : (part (.expression l)).Done settings us t)
    (free : ∀ x y, ¬ [(TokenKind.identifier, x), (.reserved .bindArrow, y)] <+: us ++ [t])
    (binding : a.startsBinding = true) : (ahead a (part (.expression l))).Done settings us t :=
  ⟨.unbound h.words, .unbound h.cut free (fun none => absurd none (h.words.ne_nil rfl)) binding⟩

theorem Lost.demand {what : String} (h : a.Lost settings us t) : (demand a what).Lost settings us t := by
  refine ⟨fun full => (h.viable full).imp fun vs words => .demand words ?_, h.cut.same ?_ rfl⟩
  · exact fun none => full (List.append_eq_nil_iff.mp none).1
  · rintro ws ⟨⟩
    assumption

theorem Done.demand {what : String} (h : a.Done settings us t) (full : us ≠ []) :
    (Phrase.demand a what).Done settings us t := by
  refine ⟨.demand h.words full, h.cut.same ?_ rfl⟩
  rintro ws ⟨⟩
  assumption

/-- Where something is demanded and nothing found. -/
theorem Done.undemanded {what : String} (h : a.Done settings [] t) :
    (Phrase.demand a what).Lost settings [] t := by
  refine .nothing fun ws zs hw starts => ?_
  cases hw with
  | demand words full => exact (h.cut ws zs words starts).imp_left fun ⟨_, empty⟩ => absurd empty full

section

variable {c : Construct} {x y : String}

theorem Lost.inside (h : a.Lost settings us t) (some : a.sample?.isSome = true)
    (apart : c.closer ∉ a.greedy) :
    (construct c a).Lost settings ((.reserved c.opener, x) :: us) t := by
  obtain ⟨vs, words⟩ := h.completion some
  refine ⟨fun _ => ⟨vs ++ [(TokenKind.reserved c.closer, c.closer.spelling)], ?_⟩,
    .insideLeft h.cut apart⟩
  rw [List.cons_append, ← List.append_assoc]
  exact .construct words

theorem Done.unclosed (h : a.Done settings us t) (apart : c.closer ∉ a.greedy)
    (other : t.1.reserved? ≠ some c.closer) :
    (construct c a).Lost settings ((.reserved c.opener, x) :: us) t :=
  ⟨fun _ => ⟨[(.reserved c.closer, c.closer.spelling)], .construct h.words⟩,
    .closing h.cut apart other⟩

theorem Done.construct (h : a.Done settings us (.reserved c.closer, y)) (apart : c.closer ∉ a.greedy) :
    (Phrase.construct c a).Done settings
      ((.reserved c.opener, x) :: us ++ [(TokenKind.reserved c.closer, y)]) t :=
  ⟨.construct h.words, .construct h.cut apart⟩

end

end Phrase

section

variable {settings : Settings} {us : List Word} {t : Word} {x y : String}

theorem LostStatements.inside (h : LostStatements settings BodyEnd us t) :
    (Phrase.part .body).Lost settings ((.reserved .bodyOpen, x) :: us) t := by
  obtain ⟨vs, words⟩ := h.viable
  refine ⟨fun _ => ⟨vs ++ [(TokenKind.reserved .bodyClose, Reserved.bodyClose.spelling)], ?_⟩,
    .bodyLeft h.cut⟩
  rw [List.cons_append, ← List.append_assoc]
  exact .body words

theorem DoneStatements.unclosed (h : DoneStatements settings BodyEnd us t)
    (other : t.1.reserved? ≠ some .bodyClose) :
    (Phrase.part .body).Lost settings ((.reserved .bodyOpen, x) :: us) t :=
  ⟨fun _ => ⟨[(.reserved .bodyClose, Reserved.bodyClose.spelling)], .body h.words⟩,
    .bodyClosing h.cut other⟩

theorem DoneStatements.body (h : DoneStatements settings BodyEnd us (.reserved .bodyClose, y)) :
    (Phrase.part .body).Done settings
      ((.reserved .bodyOpen, x) :: us ++ [(TokenKind.reserved .bodyClose, y)]) t :=
  ⟨.body h.words, .body h.cut⟩

end

end GlyphScript
