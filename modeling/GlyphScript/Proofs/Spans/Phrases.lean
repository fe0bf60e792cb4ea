import GlyphScript.Proofs.Parsing.Lookahead
import GlyphScript.Proofs.Spans.Placement

/-!
# Phrases over tokens

What is found in a phrase, with the tokens that it is found in. The nodes that
are found stand one after another among these tokens, whatever the phrase.
-/

namespace GlyphScript

/-- One after another, as long as there are tokens: what is found in front of `rest`. -/
inductive Repeats (R : (us rest : List Token) → Found → Prop) :
    (us rest : List Token) → Found → Prop
  | none {rest} : Repeats R [] rest .nothing
  | more {us vs rest f h} : R us (vs ++ rest) f → Repeats R vs rest h →
    Repeats R (us ++ vs) rest (f ++ h)

namespace Phrase

/-- In front of the tokens `rest` the phrase is read from `us`, and `f` is found in it. What is
found in the nonterminals `N` says. -/
def Reads (N : Nonterminal → List Token → Found → Prop) :
    Phrase → (us rest : List Token) → Found → Prop
  | give g, us, _, f => us = [] ∧ f = g
  | place, us, rest, f => us = [] ∧ ∃ l, f = .ofPlace l ∧ ∀ t ∈ rest.head?, l = t.location
  | mark _, us, _, f => ∃ t, us = [t] ∧ f = .nothing
  | kept r, us, _, f => ∃ t, us = [t] ∧ f = .ofMark r
  | spelled _, us, _, f | name _, us, _, f => ∃ t, us = [t] ∧ f = .ofText t.lexeme
  | part n, us, _, f => N n us f
  | fail _, _, _, _ => False
  | seq a b, us, rest, f => ∃ vs ws g h,
    us = vs ++ ws ∧ a.Reads N vs (ws ++ rest) g ∧ b.Reads N ws rest h ∧ f = g ++ h
  | either _ a b, us, rest, f | ahead a b, us, rest, f => a.Reads N us rest f ∨ b.Reads N us rest f
  | star _ a, us, rest, f => Repeats (a.Reads N) us rest f
  | gather a, us, rest, f => ∃ g, a.Reads N us rest g ∧ f = g.gathered
  | list a, us, rest, f => ∃ g, a.Reads N us rest g ∧ f = g.listed
  | demand a _, us, rest, f => a.Reads N us rest f
  | node head a, us, rest, f => ∃ g span, a.Reads N us rest g ∧ Covers us span ∧
    f = .ofNode (.mk span (head g.attributes) g.slots)
  | chain a, us, rest, f => ∃ g span, a.Reads N us rest g ∧ Covers us span ∧
    f = .ofNode (Node.ofArms span g.places g.slots)
  | construct _ a, us, rest, f => ∃ t vs u, us = t :: vs ++ [u] ∧ a.Reads N vs (u :: rest) f

/-- Nothing but the phrase itself holds nodes: no arms are nested, and no node is given. -/
def plain : Phrase → Bool
  | give f => f.nodes.isEmpty
  | place | mark _ | kept _ | spelled _ | name _ | part _ | fail _ => true
  | seq a b | either _ a b | ahead a b => a.plain && b.plain
  | star _ a | gather a | list a | demand a _ | node _ a | construct _ a => a.plain
  | chain _ => false

/-- No node in the phrase is read from nothing. -/
def solid : Phrase → Bool
  | give _ | place | mark _ | kept _ | spelled _ | name _ | part _ | fail _ => true
  | seq a b | either _ a b | ahead a b => a.solid && b.solid
  | star _ a | gather a | list a | demand a _ | construct _ a => a.solid
  | node _ a | chain a => !a.nullable && a.solid

/-- What is found in the parts of a phrase. -/
def Spanning : Nonterminal → List Token → Found → Prop
  | .statement, us, f => us ≠ [] ∧ ∃ ns, f = .ofNodes ns ∧ Node.Lined us ns
  | .statements, us, f => ∃ ns, f = .ofNodes ns ∧ Node.Lined us ns
  | _, us, f => us ≠ [] ∧ ∃ n, f = .ofNode n ∧ Node.Lined us [n]

theorem Spanning.lined {n : Nonterminal} {us : List Token} {f : Found} (h : Spanning n us f) :
    Node.Lined us f.nodes := by
  have nodes (ns : List Node) : (Found.ofNodes ns).nodes = ns := List.append_nil ns
  cases n with
  | statement =>
    obtain ⟨-, ns, rfl, lined⟩ := h
    exact (nodes ns).symm ▸ lined
  | statements =>
    obtain ⟨ns, rfl, lined⟩ := h
    exact (nodes ns).symm ▸ lined
  | expression | pattern | binding | body =>
    obtain ⟨-, n, rfl, lined⟩ := h
    exact lined

section

variable {a : Phrase} {us rest : List Token} {f : Found}

/-- A phrase that is not empty is read from some tokens. -/
theorem Reads.ne_nil (h : a.nullable = false) (made : a.Reads Spanning us rest f) : us ≠ [] := by
  induction a generalizing us rest f with
  | give | place | star => nomatch h
  | mark | kept | spelled | name =>
    obtain ⟨t, rfl, -⟩ := made
    exact List.cons_ne_nil _ _
  | part n =>
    cases n with
    | statements => nomatch h
    | expression | pattern | binding | body | statement => exact made.1
  | fail => exact made.elim
  | seq a b iha ihb =>
    obtain ⟨vs, ws, g, k, rfl, hg, hk, -⟩ := made
    rcases Bool.and_eq_false_iff.mp h with h | h
    · exact List.append_ne_nil_of_left_ne_nil (iha h hg) _
    · exact List.append_ne_nil_of_right_ne_nil _ (ihb h hk)
  | either r a b iha ihb | ahead a b iha ihb =>
    obtain ⟨ha, hb⟩ := Bool.or_eq_false_iff.mp h
    exact made.elim (iha ha) (ihb hb)
  | gather a ih | list a ih =>
    obtain ⟨g, made, -⟩ := made
    exact ih h made
  | demand a what ih => exact ih h made
  | node head a ih | chain a ih =>
    obtain ⟨g, span, made, -⟩ := made
    exact ih h made
  | construct c a ih =>
    obtain ⟨t, vs, u, rfl, -⟩ := made
    exact List.cons_ne_nil _ _

theorem Repeats.lined {R : List Token → List Token → Found → Prop}
    (each : ∀ us rest f, R us rest f → Node.Lined us f.nodes) (h : Repeats R us rest f) :
    Node.Lined us f.nodes := by
  induction h with
  | none => exact .nil
  | more first _ ih =>
    rw [Found.nodes_append]
    exact (each _ _ _ first).append ih

/-- The nodes found in a phrase stand one after another. -/
theorem Reads.lined (h : a.plain = true) (made : a.Reads Spanning us rest f) :
    Node.Lined us f.nodes := by
  induction a generalizing us rest f with
  | give g =>
    obtain ⟨rfl, rfl⟩ := made
    rw [List.isEmpty_iff.mp h]
    exact .nil
  | place =>
    obtain ⟨rfl, l, rfl, -⟩ := made
    exact .nil
  | mark | kept | spelled | name =>
    obtain ⟨t, rfl, rfl⟩ := made
    exact .nil
  | part n => exact made.lined
  | fail => exact made.elim
  | seq a b iha ihb =>
    obtain ⟨vs, ws, g, k, rfl, hg, hk, rfl⟩ := made
    obtain ⟨ha, hb⟩ := Bool.and_eq_true_iff.mp h
    rw [Found.nodes_append]
    exact (iha ha hg).append (ihb hb hk)
  | either r a b iha ihb | ahead a b iha ihb =>
    obtain ⟨ha, hb⟩ := Bool.and_eq_true_iff.mp h
    exact made.elim (iha ha) (ihb hb)
  | star r a ih => exact Repeats.lined (fun _ _ _ => ih h) made
  | gather a ih =>
    obtain ⟨g, made, rfl⟩ := made
    show Node.Lined us g.nodes
    exact ih h made
  | list a ih =>
    obtain ⟨g, made, rfl⟩ := made
    rw [Found.nodes_listed]
    exact ih h made
  | demand a what ih => exact ih h made
  | node head a ih =>
    obtain ⟨g, span, made, covers, rfl⟩ := made
    exact (Node.Over.mk covers (ih h made)).lined
  | chain a ih => nomatch h
  | construct c a ih =>
    obtain ⟨t, vs, u, rfl, made⟩ := made
    have inside : Node.Lined ([t] ++ vs) f.nodes := (ih h made).prepend
    exact inside.extend

/-! ## Conditionals -/

/-- The further arms of a conditional stand over the tokens up to its end, with what happens
otherwise. -/
theorem nestSlots_lined {ws : List Token} {u : Token} {s : Slot Node}
    (h : Repeats (arm.Reads Spanning) us (ws ++ u :: rest) f) (hs : Node.Lined ws s.toList) :
    Node.Lined (us ++ ws ++ [u]) (Node.nestSlots u.stopOrStart f.places (f.slots ++ [s])).toList := by
  generalize made : ws ++ u :: rest = rest' at h
  induction h with
  | none => exact hs.extend
  | @more us vs rest' g h first _ ih =>
    subst made
    obtain ⟨_, _, _, _, rfl, ⟨rfl, l, rfl, place⟩, arm, rfl⟩ := first
    obtain ⟨_, _, _, _, rfl, ⟨t, rfl, rfl⟩, arm, rfl⟩ := arm
    obtain ⟨vc, vb, _, _, rfl, ⟨-, c, rfl, condition⟩, ⟨-, b, rfl, body⟩, rfl⟩ := arm
    obtain rfl : l = t.location := place t rfl
    have tokens : [] ++ ([t] ++ (vc ++ vb)) ++ vs ++ ws ++ [u] =
        [t] ++ (vc ++ (vb ++ (vs ++ ws ++ [u]))) := by simp
    rw [tokens]
    refine Node.Over.lined (.mk ⟨rfl, ?_⟩ ?_)
    · rw [← tokens, List.getLast?_concat]
      rfl
    · show Node.Lined _ ([c] ++ ([b] ++
        ((Node.nestSlots u.stopOrStart h.places (h.slots ++ [s])).toList ++ [])))
      rw [List.append_nil]
      exact (condition.append (body.append (ih rfl))).prepend

theorem Reads.lined_ifStmt (made : ifStmt.Reads Spanning us rest f) : Node.Lined us f.nodes := by
  obtain ⟨_, span, ⟨t, vs, u, rfl, made⟩, covers, rfl⟩ := made
  obtain ⟨vc, _, _, _, rfl, ⟨-, c, rfl, condition⟩, made, rfl⟩ := made
  obtain ⟨vb, _, _, _, rfl, ⟨-, b, rfl, body⟩, made, rfl⟩ := made
  obtain ⟨va, wo, h, o, rfl, arms, otherwise, rfl⟩ := made
  obtain ⟨s, found, hs⟩ : ∃ s, o = ⟨{}, [], [s]⟩ ∧ Node.Lined wo s.toList := by
    rcases otherwise with ⟨_, ws, _, _, rfl, ⟨_, rfl, rfl⟩, ⟨-, e, rfl, last⟩, rfl⟩ | ⟨rfl, rfl⟩
    · exact ⟨.one e, rfl, last.prepend⟩
    · exact ⟨.absent, rfl, .nil⟩
  subst found
  have stop : span.stop = u.stopOrStart := by
    have := covers.last
    rw [List.getLast?_concat] at this
    exact (Option.some.inj this).symm
  have tokens : t :: (vc ++ (vb ++ (va ++ wo))) ++ [u] =
      [t] ++ (vc ++ (vb ++ (va ++ wo ++ [u]))) := by simp
  rw [tokens] at covers ⊢
  refine Node.Over.lined (.mk covers ?_)
  show Node.Lined _ ([c] ++ ([b] ++
    ((Node.nestSlots span.stop (h.places ++ []) (h.slots ++ [s])).toList ++ [])))
  rw [List.append_nil, List.append_nil, stop]
  exact (condition.append (body.append (nestSlots_lined arms hs))).prepend

/-! ## Productions -/

/-- A production from which nodes are read that stand over the tokens. -/
structure Laid (a : Phrase) : Prop where
  solid : a.solid = true
  nullable : a.nullable = false
  lined : ∀ us rest f, a.Reads Spanning us rest f → Node.Lined us f.nodes

theorem laid_operand {r : Reserved} (h : operand? r = some a) : a.Laid := by
  cases IsOperand.of h <;> exact ⟨rfl, rfl, fun _ _ _ made => made.lined rfl⟩

theorem laid_pattern {r : Reserved} (h : pattern? r = some a) : a.Laid := by
  cases IsComposite.of h <;> exact ⟨rfl, rfl, fun _ _ _ made => made.lined rfl⟩

theorem laid_statement {settings : Settings} {r : Reserved} (h : statement? settings r = some a) :
    a.Laid := by
  cases IsStatement.of h
  case ifOpen => exact ⟨rfl, rfl, fun _ _ _ made => made.lined_ifStmt⟩
  all_goals exact ⟨rfl, rfl, fun _ _ _ made => made.lined rfl⟩

theorem laid_expressionStmt : expressionStmt.Laid :=
  ⟨rfl, rfl, fun _ _ _ made => made.lined rfl⟩

theorem laid_tail {r : Reserved} {m : Level} (h : tail? r = some (m, a)) : a.Laid := by
  cases IsTail.of h <;> exact ⟨rfl, rfl, fun _ _ _ made => made.lined rfl⟩

/-! ## Single tokens -/

theorem over_atom {t : Token} {n : Node} (h : Nonterminals.atom? t = some n) : n.Over [t] := by
  unfold Nonterminals.atom? at h
  split at h <;> cases h <;> exact .mk (.single t) .nil

theorem over_atomicPattern {t : Token} {n : Node} (h : Nonterminals.atomicPattern? t = some n) :
    n.Over [t] := by
  unfold Nonterminals.atomicPattern? at h
  split at h <;> cases h <;> exact .mk (.single t) .nil

/-! ## Tails -/

/-- Behind an operator there is an operand. -/
theorem Reads.last_of_tail {r : Reserved} {m : Level} (h : tail? r = some (m, a))
    (made : a.Reads Spanning us rest f) (operator : m ≠ .postfixed) :
    ∃ ns n, f.nodes = ns ++ [n] := by
  cases IsTail.of h
  case listOpen => exact absurd rfl operator
  case condThen =>
    obtain ⟨_, _, _, _, rfl, ⟨_, rfl, rfl⟩, made, rfl⟩ := made
    obtain ⟨_, _, _, _, rfl, ⟨-, c, rfl, -⟩, made, rfl⟩ := made
    obtain ⟨_, _, _, _, rfl, ⟨_, rfl, rfl⟩, ⟨-, n, rfl, -⟩, rfl⟩ := made
    exact ⟨[c], n, rfl⟩
  all_goals
    obtain ⟨_, _, _, _, rfl, ⟨_, rfl, rfl⟩, ⟨-, n, rfl, -⟩, rfl⟩ := made
    exact ⟨[], n, rfl⟩

theorem extended_operator (known : String → Bool) (span : Span) {m : Level} (left : Node)
    (f : Found) (operator : m ≠ .postfixed) :
    ∃ head, Node.extended known span m left f = .mk span head (.one left :: f.slots) := by
  cases m
  case postfixed => exact absurd rfl operator
  all_goals exact ⟨_, rfl⟩

theorem extended_call (known : String → Bool) (span : Span) (left : Node) (f : Found) :
    ∃ head slots, Node.extended known span .postfixed left f = .mk span head slots ∧
      (slots = f.slots ∨ slots = .one left :: f.slots) := by
  unfold Node.extended
  dsimp only
  split
  · split
    · exact ⟨_, _, rfl, .inl rfl⟩
    · exact ⟨_, _, rfl, .inr rfl⟩
  · exact ⟨_, _, rfl, .inr rfl⟩

/-- A left operand and the tail behind it stand over the tokens from the first of the operand to
the last of the tail, or to that of the right operand. -/
theorem Reads.lined_extended {r : Reserved} {m : Level} {left : Node} {vs : List Token}
    (h : tail? r = some (m, a)) (made : a.Reads Spanning us rest f) (hl : Node.Lined vs [left])
    {stop : Location} (known : String → Bool)
    (ends : if m = .postfixed then us.getLast?.map (·.stopOrStart) = some stop
      else ∀ n, f.nodes.getLast? = some n → n.span.stop = stop) :
    Node.Lined (vs ++ us) [Node.extended known ⟨left.span.start, stop⟩ m left f] := by
  have lined := (laid_tail h).lined _ _ _ made
  obtain ⟨before, seg, behind, rfl, stands⟩ := Node.lined_singleton hl
  by_cases call : m = .postfixed
  · rw [if_pos call] at ends
    obtain rfl := call
    have full : us ≠ [] := made.ne_nil (laid_tail h).nullable
    obtain ⟨t, u, -, last, covers⟩ := Covers.of_ne_nil full
    rw [last] at ends
    obtain rfl : u.stopOrStart = stop := Option.some.inj ends
    obtain ⟨head, slots, node, children⟩ :=
      extended_call known ⟨left.span.start, u.stopOrStart⟩ left f
    rw [node, List.append_assoc, List.append_assoc, ← List.append_assoc seg]
    refine (Node.Over.lined (.mk (stands.covers.append covers) ?_)).prepend
    rcases children with rfl | rfl
    · exact lined.prepend
    · exact Node.Lined.append stands.lined.extend lined
  · rw [if_neg call] at ends
    obtain ⟨ns, n, nodes⟩ := made.last_of_tail h call
    rw [nodes] at lined
    obtain ⟨front, seg', back, rfl, stands', lined⟩ := lined.trim
    obtain rfl : n.span.stop = stop := ends n (by rw [nodes, List.getLast?_concat])
    obtain ⟨head, node⟩ := extended_operator known ⟨left.span.start, n.span.stop⟩ left f call
    have tokens : before ++ seg ++ behind ++ (front ++ seg' ++ back) =
        before ++ (seg ++ (behind ++ front) ++ seg') ++ back := by simp
    rw [node, tokens]
    refine ((Node.Over.lined (.mk (stands.covers.append stands'.covers) ?_)).prepend).extend
    show Node.Lined _ ([left] ++ f.nodes)
    rw [nodes, List.append_assoc, List.append_assoc]
    exact stands.lined.append lined.prepend

end

end Phrase

end GlyphScript
