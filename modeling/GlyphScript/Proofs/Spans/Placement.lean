import GlyphScript.Proofs.Token.Spelling
import GlyphScript.Proofs.Tree

/-!
# Nodes over tokens

A node stands over the tokens it was read from when its span runs from the
first to the last of them and its children stand one after another among them.
Since the tokens of a text stand one behind the other, the spans of such a node
are nested.
-/

namespace GlyphScript

/-! ## Tokens one behind the other -/

/-- No token ends before it starts, and none starts before those in front of it end. -/
structure InOrder (tokens : List Token) : Prop where
  forward : ∀ t ∈ tokens, t.location.offset ≤ t.stopOrStart.offset
  apart : tokens.Pairwise fun t u => t.stopOrStart.offset ≤ u.location.offset

theorem InOrder.sublist {us ts : List Token} (h : InOrder ts) (sub : us.Sublist ts) : InOrder us :=
  ⟨fun t ht => h.forward t (sub.subset ht), h.apart.sublist sub⟩

theorem scanFrom_inOrder {fuel : Nat} {here : Location} {text : List Char} {tokens : List Token}
    (h : scanFrom fuel here text = .ok tokens) :
    (∀ t ∈ tokens, here.offset ≤ t.location.offset) ∧ InOrder tokens := by
  have last (l : Location) : InOrder [Token.endAt l] :=
    ⟨List.forall_mem_singleton.mpr (le_refl _), List.pairwise_singleton ..⟩
  fun_induction scanFrom fuel here text generalizing tokens with
  | case1 here =>
    cases h
    exact ⟨List.forall_mem_singleton.mpr (le_refl _), last here⟩
  | case2 fuel here text start =>
    cases h
    refine ⟨List.forall_mem_singleton.mpr ?_, last start⟩
    show here.offset ≤ start.offset
    rw [Location.offset_after]
    exact Nat.le_add_right _ _
  | case3 fuel here text start c rest =>
    rename_i ih
    obtain ⟨piece, divided, h⟩ := except_bind_ok h
    obtain ⟨tokens, scanned, h⟩ := except_bind_ok h
    cases h
    obtain ⟨behind, sorted⟩ := ih piece scanned
    have first : here.offset ≤ start.offset := by
      rw [Location.offset_after]
      exact Nat.le_add_right _ _
    have forward : start.offset ≤ (start.after piece.lexeme).offset := by
      rw [Location.offset_after start piece.lexeme]
      exact Nat.le_add_right _ _
    exact ⟨List.forall_mem_cons.mpr ⟨first, fun t ht => (first.trans forward).trans (behind t ht)⟩,
      List.forall_mem_cons.mpr ⟨forward, sorted.forward⟩,
      List.pairwise_cons.mpr ⟨behind, sorted.apart⟩⟩

/-- The span runs from the first to the last of the tokens. -/
structure Covers (us : List Token) (span : Span) : Prop where
  first : us.head?.map (·.location) = some span.start
  last : us.getLast?.map (·.stopOrStart) = some span.stop

namespace Covers

variable {us vs ws : List Token} {span : Span}

theorem ne_nil (h : Covers us span) : us ≠ [] := by
  rintro rfl
  nomatch h.first

theorem single (t : Token) : Covers [t] t.span := ⟨rfl, rfl⟩

theorem of_ne_nil (h : us ≠ []) : ∃ t u, us.head? = some t ∧ us.getLast? = some u ∧
    Covers us ⟨t.location, u.stopOrStart⟩ := by
  refine ⟨us.head h, us.getLast h, List.head?_eq_some_head h, List.getLast?_eq_some_getLast h, ?_, ?_⟩
  · rw [List.head?_eq_some_head h]
    rfl
  · rw [List.getLast?_eq_some_getLast h]
    rfl

/-- From the start of the first tokens to the end of the last. -/
theorem append {span' : Span} (h : Covers us span) (h' : Covers ws span') :
    Covers (us ++ vs ++ ws) ⟨span.start, span'.stop⟩ := by
  obtain ⟨t, -, first, -, -⟩ := of_ne_nil h.ne_nil
  obtain ⟨-, u, -, last, -⟩ := of_ne_nil h'.ne_nil
  refine ⟨?_, ?_⟩
  · rw [← h.first, List.append_assoc, List.head?_append, first]
    rfl
  · rw [← h'.last, List.getLast?_append, last]
    rfl

/-- The span starts with one of the tokens, ends with one of them and holds all of them. -/
theorem bounds (h : Covers us span) (order : InOrder us) :
    (∃ t ∈ us, span.start = t.location) ∧ (∃ t ∈ us, span.stop = t.stopOrStart) ∧
      span.start.offset ≤ span.stop.offset ∧
      ∀ t ∈ us, span.start.offset ≤ t.location.offset ∧ t.stopOrStart.offset ≤ span.stop.offset := by
  obtain ⟨t, first, start⟩ := Option.map_eq_some_iff.mp h.first
  obtain ⟨u, last, stop⟩ := Option.map_eq_some_iff.mp h.last
  obtain ⟨rest, rfl⟩ := List.head?_eq_some_iff.mp first
  have least : ∀ v ∈ t :: rest, t.location.offset ≤ v.location.offset := by
    have behind := (List.pairwise_cons.mp order.apart).1
    refine List.forall_mem_cons.mpr ⟨le_refl _, fun v hv => ?_⟩
    exact (order.forward t List.mem_cons_self).trans (behind v hv)
  have most : ∀ v ∈ t :: rest, v.stopOrStart.offset ≤ u.stopOrStart.offset := by
    obtain ⟨front, made⟩ := List.getLast?_eq_some_iff.mp last
    have order := made ▸ order
    rw [made]
    intro v hv
    rcases List.mem_append.mp hv with hv | hv
    · have := (List.pairwise_append.mp order.apart).2.2 v hv u (List.mem_singleton_self u)
      exact this.trans (order.forward u (List.mem_append_right _ (List.mem_singleton_self u)))
    · rw [List.mem_singleton.mp hv]
  have last := List.mem_of_getLast? last
  rw [← start, ← stop]
  refine ⟨⟨t, List.mem_cons_self, rfl⟩, ⟨u, last, rfl⟩, ?_, fun v hv => ⟨least v hv, most v hv⟩⟩
  exact (least u last).trans (order.forward u last)

end Covers

/-! ## Trees over tokens -/

mutual

/-- The span of the node runs from the first to the last of the tokens, and its children stand one
after another among them. -/
inductive Node.Over : List Token → Node → Prop
  | mk {us span head slots} : Covers us span → Node.Lined us (slots.flatMap Slot.toList) →
    Node.Over us (.mk span head slots)

/-- The nodes stand one after another among the tokens. -/
inductive Node.Lined : List Token → List Node → Prop
  | nil {us} : Node.Lined us []
  | cons {vs us ws n ns} : Node.Over us n → Node.Lined ws ns → Node.Lined (vs ++ us ++ ws) (n :: ns)

end

namespace Node

variable {us vs ws : List Token} {n : Node} {ns ms : List Node}

theorem Over.covers (h : n.Over us) : Covers us n.span := by
  cases h with
  | mk covers _ => exact covers

theorem Over.lined (h : n.Over us) : Lined us [n] := by
  have : Lined ([] ++ us ++ []) [n] := .cons h .nil
  rwa [List.nil_append, List.append_nil] at this

theorem Lined.prepend (h : Lined us ns) : Lined (vs ++ us) ns := by
  cases h with
  | nil => exact .nil
  | @cons vs' us' ws' n ns hn hns =>
    rw [← List.append_assoc, ← List.append_assoc]
    exact .cons hn hns

theorem Lined.append (h : Lined us ns) (h' : Lined vs ms) : Lined (us ++ vs) (ns ++ ms) := by
  induction ns generalizing us with
  | nil => exact h'.prepend
  | cons n ns ih =>
    cases h with
    | cons hn hns =>
      rw [List.append_assoc, List.cons_append]
      exact .cons hn (ih hns)

theorem Lined.extend (h : Lined us ns) : Lined (us ++ vs) ns := by
  simpa using (h.append .nil : Lined (us ++ vs) (ns ++ []))

theorem lined_singleton (h : Lined us [n]) : ∃ vs seg ws, us = vs ++ seg ++ ws ∧ n.Over seg := by
  cases h with
  | cons hn _ => exact ⟨_, _, _, rfl, hn⟩

/-- The tokens may end with those of the last node. -/
theorem Lined.trim (h : Lined us (ns ++ [n])) : ∃ vs seg ws, us = vs ++ seg ++ ws ∧ n.Over seg ∧
    Lined (vs ++ seg) (ns ++ [n]) := by
  induction ns generalizing us with
  | nil =>
    obtain ⟨vs, seg, ws, rfl, hn⟩ := lined_singleton h
    exact ⟨vs, seg, ws, rfl, hn, hn.lined.prepend⟩
  | cons m ns ih =>
    cases h with
    | @cons vs us ws _ _ hm hns =>
      obtain ⟨vs', seg, ws', rfl, hn, lined⟩ := ih hns
      refine ⟨vs ++ us ++ vs', seg, ws', by simp, hn, ?_⟩
      rw [List.append_assoc _ vs', List.cons_append]
      exact .cons hm lined

/-- What the nodes of a row stand over. -/
theorem Lined.mem (h : Lined us ns) (hn : n ∈ ns) : ∃ seg, seg.Sublist us ∧ n.Over seg := by
  induction ns generalizing us with
  | nil => nomatch hn
  | cons m ns ih =>
    cases h with
    | @cons vs seg ws _ _ hm hns =>
      rcases List.mem_cons.mp hn with rfl | hn
      · exact ⟨seg, (List.sublist_append_right ..).trans (List.sublist_append_left ..), hm⟩
      · obtain ⟨seg', sub, stands⟩ := ih hns hn
        exact ⟨seg', sub.trans (List.sublist_append_right ..), stands⟩

/-- The nodes of a row stand one behind the other. -/
theorem Lined.apart (h : Lined us ns) (order : InOrder us) :
    ns.Pairwise fun n m => n.span.stop.offset ≤ m.span.start.offset := by
  induction ns generalizing us with
  | nil => exact .nil
  | cons n ns ih =>
    cases h with
    | @cons vs seg ws _ _ hn hns =>
      refine .cons (fun m hm => ?_) (ih hns (order.sublist (List.sublist_append_right ..)))
      obtain ⟨seg', sub, stands⟩ := hns.mem hm
      obtain ⟨-, ⟨t, ht, stop⟩, -⟩ := hn.covers.bounds
        (order.sublist ((List.sublist_append_right ..).trans (List.sublist_append_left ..)))
      obtain ⟨⟨u, hu, start⟩, -⟩ := stands.covers.bounds
        (order.sublist (sub.trans (List.sublist_append_right ..)))
      rw [stop, start]
      exact (List.pairwise_append.mp order.apart).2.2 t (List.mem_append_right _ ht) u
        (sub.subset hu)

end Node

/-! ## Nested spans -/

/-- The span of a node starts with a token and ends with one, and holds the spans of the children,
which stand one behind the other. -/
structure Node.Nests (tokens : List Token) (n : Node) : Prop where
  starts : ∃ t ∈ tokens, n.span.start = t.location
  stops : ∃ t ∈ tokens, n.span.stop = t.stopOrStart
  forward : n.span.start.offset ≤ n.span.stop.offset
  holds : ∀ c ∈ n.children,
    n.span.start.offset ≤ c.span.start.offset ∧ c.span.stop.offset ≤ n.span.stop.offset
  apart : n.children.Pairwise fun c d => c.span.stop.offset ≤ d.span.start.offset

/-- In a tree over tokens all spans are nested. -/
theorem Node.Over.nests {tokens us : List Token} {n : Node} (h : n.Over us)
    (sub : us.Sublist tokens) (order : InOrder tokens) : ∀ m ∈ n.walk, m.Nests tokens := by
  induction n using Node.induction_on generalizing us with
  | step span head slots ih =>
    cases h with
    | mk covers lined =>
      have order' := order.sublist sub
      obtain ⟨⟨t, ht, start⟩, ⟨u, hu, stop⟩, forward, holds⟩ := covers.bounds order'
      intro m hm
      rcases mem_walk_mk.mp hm with rfl | ⟨s, hs, c, hc, hm⟩
      · refine ⟨⟨t, sub.subset ht, start⟩, ⟨u, sub.subset hu, stop⟩, forward, fun c hc => ?_,
          lined.apart order'⟩
        obtain ⟨seg, sub', stands⟩ := lined.mem hc
        obtain ⟨⟨t', ht', start'⟩, ⟨u', hu', stop'⟩, -⟩ :=
          stands.covers.bounds (order'.sublist sub')
        rw [start', stop']
        exact ⟨(holds t' (sub'.subset ht')).1, (holds u' (sub'.subset hu')).2⟩
      · obtain ⟨seg, sub', stands⟩ := lined.mem (List.mem_flatMap.mpr ⟨s, hs, hc⟩)
        exact ih s hs c hc stands (sub'.trans sub) m hm

end GlyphScript
