import GlyphScript.Proofs.Parsing.Advance

/-!
# What is read is derived

A parser at work either fails with a fault of the grammar or has read words that
the grammar derives, provided that no macro of the parse phase has been
registered by the end. The nonterminals may nest as deep as the words left
demand: one level for an expression, one for a statement, for every word.
-/

namespace GlyphScript

open GlyphScript.Parser

/-! ## Outcomes -/

/-- What comes of a parser at `s`: a fault of the grammar, or a result as `post` says of the words
read, the macros known behind them, the words not yet read, and what has been made. -/
inductive Outcome {α : Type} (s : ParserState)
    (post : List Word → Macros → List Word → α → Prop) : Except Fault α × ParserState → Prop where
  | fault {p s'} : Outcome s post (.error (.parse p), s')
  | ok {a us k s'} : s.Advanced us k s' → post us k s'.words a → Outcome s post (.ok a, s')

namespace Outcome

variable {α β : Type} {s : ParserState} {p : Parser α}
  {P : List Word → Macros → List Word → α → Prop} {Q : List Word → Macros → List Word → β → Prop}

theorem bind {f : α → Parser β} (grows : ∀ a, Grows (f a)) (quiet : ((p >>= f) s).2.unit.Quiet)
    (hp : (p s).2.unit.Quiet → Outcome s P (p s))
    (hf : ∀ us k s' a, s.Advanced us k s' → P us k s'.words a → (f a s').2.unit.Quiet →
      Outcome s' (fun vs => Q (us ++ vs)) (f a s')) :
    Outcome s Q ((p >>= f) s) := by
  have first := hp (quiet_of_bind grows quiet)
  rw [run_bind] at quiet ⊢
  generalize p s = res at first quiet ⊢
  cases first with
  | fault => exact .fault
  | ok moved made =>
    have second := hf _ _ _ _ moved made quiet
    dsimp only at second ⊢
    generalize f _ _ = res at second ⊢
    cases second with
    | fault => exact .fault
    | ok moved' made' => exact .ok (moved.trans moved') made'

theorem map {f : α → β} (hp : Outcome s P (p s))
    (hf : ∀ us k rest a, P us k rest a → Q us k rest (f a)) : Outcome s Q ((f <$> p) s) := by
  rw [run_map]
  generalize p s = res at hp ⊢
  cases hp with
  | fault => exact .fault
  | ok moved made => exact .ok moved (hf _ _ _ _ made)

theorem mono {P' : List Word → Macros → List Word → α → Prop} {res : Except Fault α × ParserState}
    (h : Outcome s P res) (hP : ∀ us k rest a, P us k rest a → P' us k rest a) :
    Outcome s P' res := by
  cases h with
  | fault => exact .fault
  | ok moved made => exact .ok moved (hP _ _ _ _ made)

end Outcome

/-! ## Tokens -/

section

variable {s : ParserState} {k : Macros} (hk : s.unit.registry.Holds k)

theorem failExpecting_outcome {α : Type} {P : List Word → Macros → List Word → α → Prop}
    (e : Expected) : Outcome s P (failExpecting e s) := by
  rw [failExpecting_run]
  obtain ⟨p, hp⟩ := unwanted_parse e s
  rw [hp]
  exact .fault

include hk

theorem consume_outcome (r : Reserved) :
    Outcome s (fun us k' _ t => k' = k ∧ us = [(.reserved r, t.lexeme)]) (consume r s) := by
  rw [consume_run]
  split
  · rename_i h
    obtain ⟨x, word, -⟩ := words_of_leading (isReserved_next.mp h)
    refine .ok (.one hk (isEnd_of_isReserved h)) ⟨rfl, ?_⟩
    have spelling : s.next.lexeme = x := congrArg Prod.snd word
    rw [word, spelling]
  · obtain ⟨p, hp⟩ := unwanted_parse (.mark r) s
    rw [hp]
    exact .fault

theorem consumeName_outcome (what : String) :
    Outcome s (fun us k' _ x => k' = k ∧ us = [(.identifier, x)]) (consumeName what s) := by
  rw [consumeName_run]
  split
  · rename_i h
    exact .ok (.one hk (isEnd_of_identifier h)) ⟨rfl, by rw [Token.word, h]⟩
  · obtain ⟨p, hp⟩ := unwanted_parse (.phrase what) s
    rw [hp]
    exact .fault

theorem announce_outcome {n : Node} (quiet : (announce n s).2.unit.Quiet) :
    Outcome s (fun us k' _ _ => us = [] ∧ k' = k.after n) (announce n s) := by
  obtain ⟨s', run, moved⟩ := announce_advanced hk (.inl quiet)
  rw [run]
  exact .ok moved ⟨rfl, rfl⟩

theorem pure_outcome {α : Type} (a : α) {P : List Word → Macros → List Word → α → Prop}
    (h : P [] k s.words a) : Outcome s P ((pure a : Parser α) s) :=
  .ok (.refl hk) h

omit hk in
/-- Looking leaves everything as it is. -/
theorem bind_look {α β : Type} {p : Parser α} {a : α} {f : α → Parser β}
    {Q : List Word → Macros → List Word → β → Prop} (hp : p s = (.ok a, s))
    (hf : (f a s).2.unit.Quiet → Outcome s Q (f a s)) (quiet : ((p >>= f) s).2.unit.Quiet) :
    Outcome s Q ((p >>= f) s) := by
  rw [run_bind, hp] at quiet ⊢
  exact hf quiet

end

/-! ## Phrases -/

section

variable {settings : Settings}

/-- The words are those of the phrase, and they are all of it. -/
def Derived (settings : Settings) (a : Phrase) (k : Macros) (us : List Word) (k' : Macros)
    (rest : List Word) (f : Found) : Prop :=
  Derives settings a k us k' f.unplaced ∧ ∀ r ∈ a.stops, leading rest ≠ some r

/-- Statements can be put in front of others. Where they end with an expression, no `((`
follows. -/
def Stated (settings : Settings) (k : Macros) (us : List Word) (k' : Macros) (rest : List Word)
    (ns : List Node) : Prop :=
  us ≠ [] ∧ ∀ vs k'' ms, (vs = [] ∨ leading vs = leading rest) →
    Derives settings (.part .statements) k' vs k'' (.ofNodes ms) →
    Derives settings (.part .statements) k (us ++ vs) k'' (.ofNodes (ns.map Node.unplaced ++ ms))

/-- The parsers for nonterminals find what is derived when `depth` is as deep as the words left
demand. -/
structure Nonterminals.Sound (settings : Settings) (g : Nonterminals) (depth : Nat) : Prop where
  growing : g.Growing
  expression : ∀ l s k, l.rank ≤ Level.unary.rank → 2 * s.rest.length + 1 ≤ depth →
    s.unit.registry.Holds k → (g.expression l s).2.unit.Quiet →
    Outcome s
      (fun us k' rest n => Derived settings (.part (.expression l)) k us k' rest (.ofNode n))
      (g.expression l s)
  pattern : ∀ s k, 2 * s.rest.length + 1 ≤ depth → s.unit.registry.Holds k →
    (g.pattern s).2.unit.Quiet →
    Outcome s (fun us k' rest n => Derived settings (.part .pattern) k us k' rest (.ofNode n))
      (g.pattern s)
  statement : ∀ s k, 2 * s.rest.length + 2 ≤ depth → s.unit.registry.Holds k →
    (g.statement s).2.unit.Quiet →
    Outcome s (fun us k' rest ns => Stated settings k us k' rest ns) (g.statement s)

namespace Nonterminals.Sound

variable {g : Nonterminals} {depth : Nat} (hg : g.Sound settings depth)

include hg

theorem wellFormedPattern {s : ParserState} {k : Macros} (deep : 2 * s.rest.length + 1 ≤ depth)
    (hk : s.unit.registry.Holds k) (quiet : (g.wellFormedPattern s).2.unit.Quiet) :
    Outcome s (fun us k' rest n => Derived settings (.part .binding) k us k' rest (.ofNode n))
      (g.wellFormedPattern s) := by
  refine .bind (fun n => ?_) quiet (hg.pattern s k deep hk) fun us k' s' n moved made _ => ?_
  · split
    · exact .throw _
    · exact .pure _
  · cases sound : n.patternFlaw? with
    | some flaw => exact .fault
    | none =>
      refine pure_outcome moved.holds n ⟨?_, fun r hr => absurd hr List.not_mem_nil⟩
      rw [List.append_nil]
      exact .binding made.1 ((Node.patternFlaw?_unplaced n).mpr sound)

/-- Statements for as long as `test` says. -/
theorem statements {test : Parser Bool} {item : Parser (List Node)}
    (look : ∀ s, ∃ b, test s = (.ok b, s)) (growing : Grows item) {checks : Option Nat}
    (same : ∀ s : ParserState, s.unit.checks = checks → item s = g.statement s) (fuel : Nat) :
    ∀ {s : ParserState} {k : Macros}, s.unit.checks = checks → 2 * s.rest.length + 2 ≤ depth →
      s.rest.length < fuel → s.unit.registry.Holds k →
      (repeatUpTo test item fuel s).2.unit.Quiet →
      Outcome s (fun us k' rest nss => Derives settings (.part .statements) k us k'
          (.ofNodes (nss.flatten.map Node.unplaced)) ∧
          ∃ s', s'.words = rest ∧ test s' = (.ok false, s')) (repeatUpTo test item fuel s) := by
  have tests : Grows test := by
    refine .calm fun s => ?_
    obtain ⟨b, hb⟩ := look s
    rw [hb]
  induction fuel with
  | zero =>
    intro s k _ _ enough
    exact absurd enough (Nat.not_lt_zero _)
  | succ fuel ih =>
    intro s k hc deep enough hk quiet
    rw [repeatUpTo_succ] at quiet ⊢
    obtain ⟨b, hb⟩ := look s
    refine bind_look hb (fun quiet => ?_) quiet
    cases b
    · exact pure_outcome hk _ ⟨.noStatement, s, rfl, hb⟩
    · simp only [if_true] at quiet ⊢
      have items : Grows (repeatUpTo test item fuel) := .repeatUpTo tests growing fuel
      refine .bind (fun a => items.bind fun as => .pure _) quiet
        (fun q => same s hc ▸ hg.statement s k deep hk (same s hc ▸ q))
        fun us k' s' ns moved made quiet => ?_
      have shorter : s'.rest.length < s.rest.length := by
        have := moved.length
        have := List.length_pos_iff.mpr made.1
        omega
      refine .bind (fun as => .pure _) quiet
        (ih (moved.checks.trans hc) (by omega) (by omega) moved.holds)
        fun vs k'' s'' nss moved' made' _ => ?_
      refine pure_outcome moved'.holds _ ⟨?_, made'.2⟩
      rw [List.append_nil, List.flatten_cons, List.map_append]
      refine made.2 vs k'' _ ?_ made'.1
      rw [moved'.words]
      cases vs with
      | nil => exact .inl rfl
      | cons v vs => exact .inr rfl

omit hg in
theorem look_atBodyEnd (s : ParserState) :
    ∃ b, (not <$> Nonterminals.atBodyEnd : Parser Bool) s = (.ok b, s) := ⟨_, rfl⟩

theorem body {s : ParserState} {k : Macros} (deep : 2 * s.rest.length ≤ depth)
    (hk : s.unit.registry.Holds k) (quiet : (g.body s).2.unit.Quiet) :
    Outcome s (fun us k' rest n => Derived settings (.part .body) k us k' rest (.ofNode n))
      (g.body s) := by
  rcases openConstruct_cases .body s with ⟨p, s', fails⟩ | opens
  · unfold Nonterminals.body
    rw [run_bind, fails]
    exact .fault
  rw [body_leading opens] at quiet ⊢
  have leaves : ∀ nss, Grows (leaveBody s.next nss) := fun nss =>
    grows_closeConstruct.bind fun _ => grows_closeScope.bind fun _ =>
      (grows_spanFrom _).bind fun _ => .pure _
  have shorter : s.rest.length = (entered s).rest.length + 1 := by
    obtain ⟨x, first⟩ := ParserState.Advanced.mark hk opens
    rw [first.length, Nat.add_comm]
    rfl
  have inside := hg.statements (s := entered s) look_atBodyEnd hg.growing.statement
    (fun _ _ => rfl) _ rfl (by omega) (Nat.lt_succ_self _) hk (quiet_of_bind leaves quiet)
  have loop : repeatWhile (not <$> atBodyEnd) g.statement (entered s) =
    repeatUpTo (not <$> atBodyEnd) g.statement ((entered s).rest.length + 1) (entered s) := rfl
  rw [run_bind, loop]
  generalize repeatUpTo _ g.statement _ (entered s) = res at inside
  cases inside with
  | fault => exact .fault
  | @ok nss us k' s' moved made =>
    dsimp only
    rcases closeConstruct_cases moved.frames with ⟨p, s'', fails⟩ | closes
    · unfold leaveBody
      rw [run_bind, fails]
      exact .fault
    · obtain ⟨span, run⟩ := leaveBody_run s.next nss moved.frames moved.scopes closes
      obtain ⟨x, y, whole⟩ := ParserState.Advanced.body opens moved closes
      rw [run]
      refine .ok whole ⟨?_, fun r hr => absurd hr List.not_mem_nil⟩
      rw [Found.unplaced_ofNode, Node.block, Node.unplaced_mk]
      exact .body made.1

omit hg in
theorem quiet_map {α β : Type} {p : Parser α} (f : α → β) {s : ParserState}
    (h : (p s).2.unit.Quiet) : ((f <$> p) s).2.unit.Quiet := by
  rw [run_map]
  rcases hp : p s with ⟨_ | a, s'⟩ <;> rw [hp] at h <;> exact h

omit hg in
theorem quiet_of_map {α β : Type} {p : Parser α} {f : α → β} {s : ParserState}
    (h : ((f <$> p) s).2.unit.Quiet) : (p s).2.unit.Quiet := by
  rw [map_eq_pure_bind] at h
  exact quiet_of_bind (fun _ => .pure _) h

theorem part {n : Nonterminal} {s : ParserState} {k : Macros}
    (clear : (Phrase.part n).clear = true)
    (deep : 2 * s.rest.length + (Phrase.part n).cost ≤ depth)
    (hk : s.unit.registry.Holds k) (quiet : (n.read g s).2.unit.Quiet) :
    Outcome s (Derived settings (.part n) k) (n.read g s) := by
  cases n with
  | expression l =>
    have tight : l.rank ≤ Level.unary.rank := by simpa [Phrase.clear] using clear
    exact (hg.expression l s k tight deep hk (quiet_of_map quiet)).map fun _ _ _ _ made => made
  | pattern => exact (hg.pattern s k deep hk (quiet_of_map quiet)).map fun _ _ _ _ made => made
  | binding =>
    exact (hg.wellFormedPattern deep hk (quiet_of_map quiet)).map fun _ _ _ _ made => made
  | body => exact (hg.body deep hk (quiet_of_map quiet)).map fun _ _ _ _ made => made
  | statement => cases clear
  | statements => cases clear

/-- Phrases that start with `r`, for as long as `r` is next. -/
theorem star {r : Reserved} {a : Phrase} (opener : a.opener? = some r)
    (ih : ∀ {s : ParserState} {k : Macros}, 2 * s.rest.length + a.cost ≤ depth →
      s.unit.registry.Holds k → (a.read g s).2.unit.Quiet →
      Outcome s (Derived settings a k) (a.read g s)) (fuel : Nat) :
    ∀ {s : ParserState} {k : Macros}, 2 * s.rest.length + a.cost ≤ depth → s.rest.length < fuel →
      s.unit.registry.Holds k → (repeatUpTo (check r) (a.read g) fuel s).2.unit.Quiet →
      Outcome s (fun us k' _ fs => Derives settings (.star r a) k us k' (Found.join fs).unplaced)
        (repeatUpTo (check r) (a.read g) fuel s) := by
  induction fuel with
  | zero =>
    intro s k _ enough
    exact absurd enough (Nat.not_lt_zero _)
  | succ fuel ihf =>
    intro s k deep enough hk quiet
    rw [repeatUpTo_succ] at quiet ⊢
    refine bind_look (check_run r s) (fun quiet => ?_) quiet
    cases next : s.next.isReserved r with
    | false => exact pure_outcome hk _ .starNil
    | true =>
      rw [next] at quiet
      simp only [if_true] at quiet ⊢
      have items : Grows (repeatUpTo (check r) (a.read g) fuel) :=
        .repeatUpTo (grows_check r) (hg.growing.read a) fuel
      refine .bind (fun f => items.bind fun fs => .pure _) quiet (ih deep hk)
        fun us k' s' f moved made quiet => ?_
      have shorter : s'.rest.length < s.rest.length := by
        have := moved.length
        have := List.length_pos_iff.mpr (ne_nil_of_leading (made.1.opener opener))
        omega
      refine .bind (fun fs => .pure _) quiet (ihf (by omega) (by omega) moved.holds)
        fun vs k'' s'' fs moved' made' _ => ?_
      refine pure_outcome moved'.holds _ ?_
      rw [List.append_nil, Found.join, List.foldr_cons, ← Found.join, Found.unplaced_append]
      exact .starCons made.1 made'

/-- What is read as a phrase is derived from it. -/
theorem read {a : Phrase} (clear : a.clear = true) : ∀ {s : ParserState} {k : Macros},
    2 * s.rest.length + a.cost ≤ depth → s.unit.registry.Holds k → (a.read g s).2.unit.Quiet →
      Outcome s (Derived settings a k) (a.read g s) := by
  have free : ∀ {rest : List Word}, ∀ r ∈ ([] : List Reserved), leading rest ≠ some r :=
    fun r hr => absurd hr List.not_mem_nil
  induction a with
  | give f =>
    intro s k _ hk _
    exact pure_outcome hk f ⟨.give, free⟩
  | place =>
    intro s k _ hk quiet
    exact bind_look (peek_run s) (fun _ => pure_outcome hk _ ⟨.place, free⟩) quiet
  | mark r =>
    intro s k _ hk quiet
    rw [Phrase.read, discard_bind] at quiet ⊢
    refine .bind (fun _ => .pure _) quiet (fun _ => consume_outcome hk r) ?_
    rintro us _ s' t moved ⟨rfl, rfl⟩ _
    refine pure_outcome moved.holds _ ⟨?_, free⟩
    exact .mark
  | kept r =>
    intro s k _ hk quiet
    rw [Phrase.read, discard_bind] at quiet ⊢
    refine .bind (fun _ => .pure _) quiet (fun _ => consume_outcome hk r) ?_
    rintro us _ s' t moved ⟨rfl, rfl⟩ _
    refine pure_outcome moved.holds _ ⟨?_, free⟩
    exact .kept
  | spelled r =>
    intro s k _ hk quiet
    refine .bind (fun _ => .pure _) quiet (fun _ => consume_outcome hk r) ?_
    rintro us _ s' t moved ⟨rfl, rfl⟩ _
    refine pure_outcome moved.holds _ ⟨?_, free⟩
    exact .spelled
  | name what =>
    intro s k _ hk quiet
    refine .bind (fun _ => .pure _) quiet (fun _ => consumeName_outcome hk what) ?_
    rintro us _ s' x moved ⟨rfl, rfl⟩ _
    refine pure_outcome moved.holds _ ⟨?_, free⟩
    exact .name
  | part n =>
    intro s k deep hk quiet
    exact hg.part clear deep hk quiet
  | fail what =>
    intro s k _ _ _
    exact failExpecting_outcome _
  | seq a b iha ihb =>
    intro s k deep hk quiet
    rw [Phrase.clear, Bool.and_eq_true, Bool.and_eq_true] at clear
    rw [Phrase.cost] at deep
    have first : 2 * s.rest.length + a.cost ≤ depth := by
      split at deep
      · exact le_trans (Nat.add_le_add_left (le_max_left _ _) _) deep
      · exact deep
    refine .bind (fun f => (hg.growing.read b).bind fun _ => .pure _) quiet
      (iha clear.1.1 first hk) fun us k' s' f moved made quiet => ?_
    have second : 2 * s'.rest.length + b.cost ≤ depth := by
      have length := moved.length
      split at deep
      · have := le_max_right a.cost b.cost
        omega
      · rename_i full
        have := List.length_pos_iff.mpr (made.1.ne_nil (Bool.eq_false_iff.mpr full))
        have := b.cost_le
        omega
    refine .bind (fun _ => .pure _) quiet (ihb clear.1.2 second moved.holds)
      fun vs k'' s'' h moved' made' _ => ?_
    refine pure_outcome moved'.holds _ ⟨?_, made'.2⟩
    rw [List.append_nil, Found.unplaced_append]
    exact .seq made.1 made'.1
  | either r a b iha ihb =>
    intro s k deep hk quiet
    simp only [Phrase.clear, Bool.and_eq_true] at clear
    refine bind_look (check_run r s) (fun quiet => ?_) quiet
    have deepa := le_trans (Nat.add_le_add_left (le_max_left a.cost b.cost) _) deep
    have deepb := le_trans (Nat.add_le_add_left (le_max_right a.cost b.cost) _) deep
    cases next : s.next.isReserved r with
    | true =>
      rw [next] at quiet
      exact (iha clear.1.1.1 deepa hk quiet).mono fun _ _ _ _ made => ⟨.left made.1, free⟩
    | false =>
      rw [next] at quiet
      exact (ihb clear.1.1.2 deepb hk quiet).mono fun _ _ _ _ made => ⟨.right made.1, free⟩
  | ahead a b iha ihb =>
    intro s k deep hk quiet
    simp only [Phrase.clear, Bool.and_eq_true] at clear
    obtain ⟨c, look⟩ : ∃ c, checkBinding s = (.ok c, s) := ⟨_, checkBinding_run s⟩
    refine bind_look look (fun quiet => ?_) quiet
    have deepa := le_trans (Nat.add_le_add_left (le_max_left a.cost b.cost) _) deep
    have deepb := le_trans (Nat.add_le_add_left (le_max_right a.cost b.cost) _) deep
    cases c with
    | true => exact (iha clear.1.1.1 deepa hk quiet).mono fun _ _ _ _ made => ⟨.bound made.1, free⟩
    | false =>
      exact (ihb clear.1.1.2 deepb hk quiet).mono fun _ _ _ _ made => ⟨.unbound made.1, free⟩
  | star r a ih =>
    intro s k deep hk quiet
    simp only [Phrase.clear, Bool.and_eq_true, decide_eq_true_eq] at clear
    have loop := hg.star clear.1.2 (ih clear.1.1) _ deep (Nat.lt_succ_self _) hk
      (quiet_of_map quiet)
    exact loop.map fun _ _ _ _ made => ⟨made, free⟩
  | gather a ih =>
    intro s k deep hk quiet
    exact (ih clear deep hk (quiet_of_map quiet)).map fun _ _ _ _ made => ⟨.gather made.1, made.2⟩
  | list a ih =>
    intro s k deep hk quiet
    refine (ih clear deep hk (quiet_of_map quiet)).map fun _ _ _ f made => ⟨?_, made.2⟩
    rw [Found.unplaced_listed]
    exact .list made.1
  | demand a what ih =>
    intro s k deep hk quiet
    refine .bind (fun f => ?_) quiet (ih clear deep hk) fun us k' s' f moved made quiet => ?_
    · split
      · exact (grows_failExpecting _).bind fun _ => .pure _
      · exact .pure _
    · split
      · rw [run_bind]
        have fails : Outcome s' (fun _ _ _ _ => False)
            ((failExpecting (.phrase what) : Parser PUnit) s') := failExpecting_outcome _
        generalize (failExpecting (.phrase what) : Parser PUnit) s' = res at fails
        cases fails with
        | fault => exact .fault
        | ok _ absurd => exact absurd.elim
      · rename_i inhabited
        refine pure_outcome moved.holds _ ⟨?_, made.2⟩
        rw [List.append_nil]
        refine .demand made.1 ?_
        rw [Found.nodes_unplaced]
        simpa using inhabited
  | node head a ih =>
    intro s k deep hk quiet
    rw [Phrase.read_node] at quiet ⊢
    refine bind_look (peek_run s) (fun quiet => ?_) quiet
    refine .bind (fun f => ?_) quiet (ih clear deep hk) fun us k' s' f moved made quiet => ?_
    · exact (grows_spanFrom _).bind fun _ => (grows_announce _).bind fun _ => .pure _
    refine bind_look (spanFrom_run _ s') (fun quiet => ?_) quiet
    refine .bind (fun _ => .pure _) quiet (announce_outcome moved.holds) ?_
    rintro _ _ s'' _ moved' ⟨rfl, rfl⟩ _
    refine pure_outcome moved'.holds _ ⟨?_, ?_⟩
    · rw [List.append_nil, List.append_nil, ← Macros.after_unplaced, Found.unplaced_ofNode,
        Node.unplaced_mk]
      exact .node made.1
    · rw [← List.nil_append s''.words, ← moved'.words]
      exact made.2
  | chain a ih =>
    intro s k deep hk quiet
    rw [Phrase.read_chain] at quiet ⊢
    refine bind_look (peek_run s) (fun quiet => ?_) quiet
    refine .bind (fun f => (grows_spanFrom _).bind fun _ => .pure _) quiet (ih clear deep hk)
      fun us k' s' f moved made quiet => ?_
    refine bind_look (spanFrom_run _ s') (fun quiet => ?_) quiet
    refine pure_outcome moved.holds _ ⟨?_, made.2⟩
    rw [List.append_nil, Found.unplaced_ofNode, Node.ofArms_unplaced]
    exact .chain made.1
  | construct c a ih =>
    intro s k deep hk quiet
    simp only [Phrase.clear, Bool.and_eq_true] at clear
    rw [Phrase.read, discard_bind] at quiet ⊢
    rcases openConstruct_cases c s with ⟨p, s', fails⟩ | opens
    · rw [run_bind, fails]
      exact .fault
    rw [run_bind, openConstruct_leading opens] at quiet ⊢
    dsimp only at quiet ⊢
    have shorter : s.rest.length = (opened c s).rest.length + 1 := by
      obtain ⟨x, first⟩ := ParserState.Advanced.mark hk opens
      rw [first.length, Nat.add_comm]
      rfl
    have deep' : 2 * (opened c s).rest.length + a.cost ≤ depth := by
      have := a.cost_le
      omega
    have inside := ih clear.1 deep' hk
      (quiet_of_bind (fun f => grows_closeConstruct.bind fun _ => .pure _) quiet)
    rw [run_bind]
    generalize a.read g (opened c s) = res at inside
    cases inside with
    | fault => exact .fault
    | @ok f us k' s' moved made =>
      dsimp only
      rcases closeConstruct_cases moved.frames with ⟨p, s'', fails⟩ | closes
      · rw [run_bind, fails]
        exact .fault
      · obtain ⟨x, y, whole⟩ := ParserState.Advanced.construct opens moved closes
        rw [run_bind, closeConstruct_leading moved.frames closes]
        exact .ok whole ⟨.construct made.1, free⟩

/-! ## Expressions -/

/-- The tail behind an operand goes on with it. -/
theorem tail {r : Reserved} {m m' : Level} {a : Phrase} {n : Node} {us : List Word} {k₀ k : Macros}
    {s : ParserState} (made : Derives settings (.part (.expression m)) k₀ us k (.ofNode n.unplaced))
    (ht : Phrase.tail? r = some (m', a)) (le : m'.rank ≤ m.rank) (deep : 2 * s.rest.length ≤ depth)
    (hk : s.unit.registry.Holds k)
    (quiet : ((peek >>= fun start => a.read g >>= extend m' n start) s).2.unit.Quiet) :
    Outcome s (fun vs k' rest n' => vs ≠ [] ∧
        Derives settings (.part (.expression m')) k₀ (us ++ vs) k' (.ofNode n'.unplaced) ∧
        ∀ r ∈ Phrase.operatorsFrom (m'.rank + 1), leading rest ≠ some r)
      ((peek >>= fun start => a.read g >>= extend m' n start) s) := by
  have leads := Phrase.leads_tail ht
  refine bind_look (peek_run s) (fun quiet => ?_) quiet
  refine .bind (fun f => Nonterminals.Growing.extend _ _ _ _) quiet
    (hg.read leads.clear (by rw [leads.cost]; exact deep) hk)
    fun vs k' s' f moved found quiet => ?_
  obtain ⟨span, run⟩ := extend_run moved.holds m' n s.next f
  rw [run]
  refine pure_outcome moved.holds _ ?_
  rw [List.append_nil, Found.unplaced_extended]
  exact ⟨ne_nil_of_leading (found.1.opener leads.opener), .tail ht (.tighter le made) found.1,
    fun r hr => found.2 r (Phrase.stops_tail ht hr)⟩

/-- All tails that hold together tightly enough. -/
theorem extendUpTo {l : Level} {k₀ : Macros} (fuel : Nat) :
    ∀ {m : Level} {us : List Word} {k : Macros} {s : ParserState} {n : Node},
    Derives settings (.part (.expression m)) k₀ us k (.ofNode n.unplaced) → l.rank ≤ m.rank →
    (∀ r ∈ Phrase.operatorsFrom (m.rank + 1), leading s.words ≠ some r) →
    2 * s.rest.length ≤ depth → s.rest.length < fuel → s.unit.registry.Holds k →
    (g.extendUpTo l fuel n s).2.unit.Quiet →
    Outcome s (fun vs k' rest n' =>
        Derives settings (.part (.expression l)) k₀ (us ++ vs) k' (.ofNode n'.unplaced) ∧
        ∀ r ∈ Phrase.operatorsFrom l.rank, leading rest ≠ some r)
      (g.extendUpTo l fuel n s) := by
  induction fuel with
  | zero =>
    intro m us k s n _ _ _ _ enough
    exact absurd enough (Nat.not_lt_zero _)
  | succ fuel ih =>
    intro m us k s n made tight loose deep enough hk quiet
    rw [Phrase.extendUpTo_run] at quiet ⊢
    have stop : (∀ r ∈ Phrase.operatorsFrom l.rank, leading s.words ≠ some r) →
        Outcome s (fun vs k' rest n' =>
          Derives settings (.part (.expression l)) k₀ (us ++ vs) k' (.ofNode n'.unplaced) ∧
          ∀ r ∈ Phrase.operatorsFrom l.rank, leading rest ≠ some r)
        ((.ok n, s) : Except Fault Node × ParserState) := by
      intro free
      refine .ok (.refl hk) ⟨?_, free⟩
      rw [List.append_nil]
      exact .tighter tight made
    cases ht : s.next.reserved?.bind Phrase.tail? with
    | none =>
      refine stop fun r hr next => ?_
      obtain ⟨m', a, hm, -⟩ := Phrase.mem_operatorsFrom.mp hr
      rw [next_reserved?, next, Option.bind_some, hm] at ht
      cases ht
    | some t =>
      obtain ⟨m', a⟩ := t
      obtain ⟨r, hr, hm⟩ := Option.bind_eq_some_iff.mp ht
      rw [next_reserved?] at hr
      rw [ht] at quiet
      dsimp only at quiet ⊢
      by_cases le : l.rank ≤ m'.rank
      · rw [if_pos le] at quiet ⊢
        have le' : m'.rank ≤ m.rank := by
          by_contra above
          exact loose r (Phrase.mem_operatorsFrom.mpr ⟨m', a, hm, Nat.lt_of_not_le above⟩) hr
        refine .bind (fun n' => hg.growing.extendUpTo l fuel n') quiet
          (hg.tail made hm le' deep hk) fun vs k' s' n' moved found quiet => ?_
        have shorter : s'.rest.length < s.rest.length := by
          have := moved.length
          have := List.length_pos_iff.mpr found.1
          omega
        refine (ih found.2.1 le found.2.2 (by omega) (by omega) moved.holds quiet).mono ?_
        intro ws k'' rest n'' made'
        rwa [← List.append_assoc]
      · rw [if_neg le]
        refine stop fun r' hr' next => ?_
        obtain ⟨m'', a', hm', le'⟩ := Phrase.mem_operatorsFrom.mp hr'
        rw [hr] at next
        cases next
        rw [hm] at hm'
        cases hm'
        exact le le'

omit hg in
theorem outcome_of_map {α β : Type} {f : α → β} {p : Parser α} {s : ParserState}
    {Q : List Word → Macros → List Word → β → Prop} (h : Outcome s Q ((f <$> p) s)) :
    Outcome s (fun us k rest a => Q us k rest (f a)) (p s) := by
  rw [run_map] at h
  rcases hp : p s with ⟨_ | a, s'⟩ <;> rw [hp] at h <;> dsimp only at h <;> cases h
  case error.fault => exact .fault
  case ok.ok moved made => exact .ok moved made

/-- An operand, which no operator goes on with that holds together more tightly. -/
theorem operand {s : ParserState} {k : Macros} (deep : 2 * s.rest.length ≤ depth)
    (hk : s.unit.registry.Holds k) (quiet : (g.operand s).2.unit.Quiet) :
    Outcome s (fun us k' rest n => ∃ m : Level, Level.unary.rank ≤ m.rank ∧
        Derives settings (.part (.expression m)) k us k' (.ofNode n.unplaced) ∧
        ∀ r ∈ Phrase.operatorsFrom (m.rank + 1), leading rest ≠ some r) (g.operand s) := by
  have quiet := quiet_map Found.ofNode quiet
  refine outcome_of_map (f := Found.ofNode)
    (Q := fun us k' rest f => ∃ m : Level, Level.unary.rank ≤ m.rank ∧
        Derives settings (.part (.expression m)) k us k' f.unplaced ∧
        ∀ r ∈ Phrase.operatorsFrom (m.rank + 1), leading rest ≠ some r) ?_
  rw [Phrase.operand_run] at quiet ⊢
  cases ha : Nonterminals.atom? s.next with
  | some n =>
    refine .ok (.one hk (Phrase.isEnd_of_atom ha)) ⟨.primary, by decide, .atom ha, ?_⟩
    exact fun r hr => absurd hr List.not_mem_nil
  | none =>
    rw [ha] at quiet
    cases ho : s.next.reserved?.bind Phrase.operand? with
    | none =>
      obtain ⟨p, hp⟩ := unwanted_parse (.phrase "expression") s
      dsimp only
      rw [hp]
      exact .fault
    | some a =>
      obtain ⟨r, -, hr⟩ := Option.bind_eq_some_iff.mp ho
      have leads := Phrase.leads_operand hr
      rw [ho] at quiet
      refine (hg.read leads.clear (by rw [leads.cost]; exact deep) hk quiet).mono ?_
      intro us k' rest f made
      refine ⟨Phrase.operandLevel r, ?_, .operand hr made.1,
        fun r' hr' => made.2 r' (Phrase.stops_operand hr hr')⟩
      unfold Phrase.operandLevel
      split <;> decide

theorem readExpression {l : Level} (tight : l.rank ≤ Level.unary.rank) {s : ParserState}
    {k : Macros} (deep : 2 * s.rest.length ≤ depth) (hk : s.unit.registry.Holds k)
    (quiet : (g.readExpression l s).2.unit.Quiet) :
    Outcome s
      (fun us k' rest n => Derived settings (.part (.expression l)) k us k' rest (.ofNode n))
      (g.readExpression l s) := by
  refine .bind (fun n => .of_get fun s => hg.growing.extendUpTo l _ n) quiet (hg.operand deep hk) ?_
  rintro us k' s' n moved ⟨m, high, made, loose⟩ quiet
  refine bind_look (run_get s') (fun quiet => ?_) quiet
  have := moved.length
  exact (hg.extendUpTo _ made (le_trans tight high) loose (by omega) (Nat.lt_succ_self _)
    moved.holds quiet)

theorem readPattern {s : ParserState} {k : Macros} (deep : 2 * s.rest.length ≤ depth)
    (hk : s.unit.registry.Holds k) (quiet : (g.readPattern s).2.unit.Quiet) :
    Outcome s (fun us k' rest n => Derived settings (.part .pattern) k us k' rest (.ofNode n))
      (g.readPattern s) := by
  have free : ∀ {rest : List Word}, ∀ r ∈ ([] : List Reserved), leading rest ≠ some r :=
    fun r hr => absurd hr List.not_mem_nil
  have quiet := quiet_map Found.ofNode quiet
  refine outcome_of_map (f := Found.ofNode) ?_
  rw [Phrase.pattern_run] at quiet ⊢
  cases ha : Nonterminals.atomicPattern? s.next with
  | some n => exact .ok (.one hk (Phrase.isEnd_of_atomicPattern ha)) ⟨.atomicPattern ha, free⟩
  | none =>
    rw [ha] at quiet
    cases ho : s.next.reserved?.bind Phrase.pattern? with
    | none =>
      dsimp only
      split
      · exact .fault
      · exact .fault
    | some a =>
      obtain ⟨r, -, hr⟩ := Option.bind_eq_some_iff.mp ho
      have leads := Phrase.leads_pattern hr
      rw [ho] at quiet
      refine (hg.read leads.clear (by rw [leads.cost]; exact deep) hk quiet).mono ?_
      intro us k' rest f made
      exact ⟨.compositePattern hr made.1, free⟩

/-! ## Statements -/

omit hg in
theorem stated_of_phrase {r : Reserved} {a : Phrase} {k k' : Macros} {us rest : List Word}
    {n : Node}     (hr : Phrase.statement? settings r = some a)
    (made : Derives settings a k us k' (.ofNode n.unplaced)) :
    Stated settings k us k' rest [n] :=
  ⟨ne_nil_of_leading (made.opener (Phrase.leads_statement hr).opener),
    fun _ _ _ _ below => .statement hr made below⟩

omit hg in
theorem stated_of_expression {k k' : Macros} {us rest : List Word} {n : Node}
    (made : Derives settings .expressionStmt k us k' (.ofNode n.unplaced))
    (free : leading rest ≠ some .listOpen) : Stated settings k us k' rest [n] := by
  refine ⟨made.ne_nil rfl, fun vs k'' ms next below => .expressionStmt made below ?_⟩
  rcases next with rfl | next
  · intro next
    cases next
  · rwa [next]

theorem plainStatement {s : ParserState} {k : Macros} (deep : 2 * s.rest.length + 1 ≤ depth)
    (hk : s.unit.registry.Holds k) (quiet : (g.plainStatement settings s).2.unit.Quiet) :
    Outcome s (fun us k' rest n => Stated settings k us k' rest [n])
      (g.plainStatement settings s) := by
  have quiet := quiet_map Found.ofNode quiet
  have one : Outcome s
      (fun us k' rest f => ∀ n, f = Found.ofNode n → Stated settings k us k' rest [n])
      ((Found.ofNode <$> g.plainStatement settings) s) := by
    rw [Phrase.plainStatement_eq] at quiet ⊢
    refine bind_look (peek_run s) (fun quiet => ?_) quiet
    cases ht : s.next.reserved?.bind (Phrase.statement? settings) with
    | none =>
      rw [ht] at quiet
      refine (hg.read (a := .expressionStmt) rfl deep hk quiet).mono ?_
      rintro us k' rest _ made n rfl
      exact stated_of_expression made.1 (made.2 .listOpen (by decide))
    | some a =>
      obtain ⟨r, -, hr⟩ := Option.bind_eq_some_iff.mp ht
      have leads := Phrase.leads_statement hr
      rw [ht] at quiet
      refine (hg.read leads.clear (by rw [leads.cost]; omega) hk quiet).mono ?_
      rintro us k' rest _ made n rfl
      exact stated_of_phrase hr made.1
  exact (outcome_of_map one).mono fun us k' rest n made => made n rfl

end Nonterminals.Sound

/-! ## Nonterminals at any depth -/

/-- As long as no call is to be expanded, completing a tree leaves it as it is. -/
theorem completed_outcome {t : Rereading} (ht : t.Growing) {read : Parser Node} {s : ParserState}
    {P : List Word → Macros → List Word → Node → Prop}
    (h : (read { s with pending := 0 }).2.unit.Quiet →
      Outcome { s with pending := 0 } P (read { s with pending := 0 }))
    (quiet : (t.completed read s).2.unit.Quiet) :
    Outcome s (fun us k rest slot => ∃ n, slot = .one n ∧ P us k rest n) (t.completed read s) := by
  rw [Rereading.completed_run] at quiet ⊢
  have done := h (quiet_of_bind (Rereading.grows_completion ht s.pending) quiet)
  rw [run_bind]
  generalize read { s with pending := 0 } = res at done
  cases done with
  | fault => exact .fault
  | @ok n us k s' moved made =>
    dsimp only
    rw [Rereading.completion_run moved.pending]
    have whole : s.Advanced us k { s' with pending := s.pending } :=
      ⟨moved.words, moved.frames, moved.scopes, rfl, moved.checks, moved.holds, moved.quiet⟩
    exact .ok whole ⟨n, rfl, made⟩

theorem Nonterminals.sound_upTo (settings : Settings) {t : Rereading} (ht : t.Growing)
    (depth : Nat) :
    (upTo settings t depth).Sound settings depth := by
  induction depth with
  | zero =>
    refine ⟨ht.upTo settings 0, fun l s k _ deep => ?_, fun s k deep => ?_, fun s k deep => ?_⟩ <;>
      exact absurd deep (Nat.not_succ_le_zero _)
  | succ depth ih =>
    refine ⟨ht.upTo settings _, fun l s k tight deep hk quiet => ?_, fun s k deep hk quiet => ?_,
      fun s k deep hk quiet => ?_⟩
    · exact ih.readExpression tight (Nat.le_of_succ_le_succ deep) hk quiet
    · exact ih.readPattern (Nat.le_of_succ_le_succ deep) hk quiet
    · have plain := completed_outcome ht (ih.plainStatement (s := { s with pending := 0 })
        (Nat.le_of_succ_le_succ deep) hk) (Sound.quiet_of_map quiet)
      refine plain.map ?_
      rintro us k' rest _ ⟨n, rfl, made⟩
      exact made

end

end GlyphScript
