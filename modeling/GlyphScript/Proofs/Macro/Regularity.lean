import GlyphScript.Proofs.Macro.Expansion
import GlyphScript.Proofs.Macro.Registry

/-!
# Regular expansions

Preparing and filling a template keep it regular as long as parts are put in.
So a call of a regular macro whose arguments are parts expands to a part.
-/

namespace GlyphScript

theorem Head.plain_of_ownNames {h : Head} (own : h.ownNames ≠ []) :
    h.isPlain = true ∧ h.isScope = false := by
  cases h <;> first | exact ⟨rfl, rfl⟩ | exact absurd rfl own

theorem Head.Renamed.cases {R : String → String → Prop} {h h' : Head} (r : Renamed R h h') :
    h' = h ∨ h.ownNames ≠ [] ∧ h'.ownNames ≠ [] := by
  by_cases own : h.ownNames = []
  · exact .inl (r.same own)
  · exact .inr ⟨own, fun e => own (List.forall₂_nil_right_iff.mp (e ▸ r.names))⟩

namespace Node

variable {S : Scope}

/-- The second tree is regular if the first is, and a part if the first is. -/
structure Kept (S : Scope) (n n' : Node) : Prop where
  regular : n.Regular S → n'.Regular S
  part : n.Part S → n'.Part S

theorem Kept.refl (n : Node) : n.Kept S n := ⟨id, id⟩

theorem replacedIn_of_kept {s s' : Slot Node} (h : s.Rel (Kept S) s')
    (hs : ∀ n ∈ s.toList, n.Regular S) : ReplacedIn S s s' where
  regular m hm := by
    obtain ⟨n, hn, kept⟩ := exists_of_mem_right h.toList hm
    exact kept.regular (hs n hn)
  parts bare := by
    cases h with
    | absent => exact .absent
    | @one n m kept =>
      have hn : n ∈ (Slot.one n).toList := List.mem_cons_self
      exact .one (kept.part ⟨hs n hn, bare n hn⟩)
    | many h =>
      exact .many (forall₂_imp_of_mem h fun n hn m kept => kept.part ⟨hs n hn, bare n hn⟩)

theorem kept_slots {span : Span} {head : Head} {slots slots' : List (Slot Node)}
    (rel : List.Forall₂ (Slot.Rel (Kept S)) slots slots') :
    Kept S (mk span head slots) (mk span head slots') := by
  have replaced (hn : (mk span head slots).Regular S) :
      Replaced S (mk span head slots) (.one (mk span head slots')) := by
    refine replaced_node hn (forall₂_imp_of_mem rel fun s hs s' r => ?_)
    exact replacedIn_of_kept r ((regular_mk.mp hn).2 s hs)
  have regular (hn : (mk span head slots).Regular S) : (mk span head slots').Regular S :=
    (replaced hn).regular _ (List.mem_singleton_self _)
  exact ⟨regular, fun hn => ⟨regular hn.regular, hn.bare⟩⟩

theorem kept_node {R : String → String → Prop} {span : Span} {h h' : Head}
    {slots slots' : List (Slot Node)} (head : Head.Renamed R h h')
    (rel : List.Forall₂ (Slot.Rel (Kept S)) slots slots') :
    Kept S (mk span h slots) (mk span h' slots') := by
  rcases head.cases with same | ⟨own, own'⟩
  · rw [same]
    exact kept_slots rel
  · obtain ⟨plain, closed⟩ := Head.plain_of_ownNames own
    have part (hn : (mk span h slots).Regular S) : (mk span h' slots').Part S := by
      refine part_plain (Head.plain_of_ownNames own').1 fun s' hs' n' hn' => ?_
      obtain ⟨s, hs, n, hn', kept⟩ := Slot.exists_of_mem_rel rel hs' hn'
      exact kept.part (hn.part closed hs hn')
    exact ⟨fun hn => (part hn).regular, fun hn => part hn.regular⟩

/-! ## Preparing -/

theorem isolate_kept {keep : List String} {g : Gensym} (n : Node) (depth : Nat) :
    (isolation g).holds (n.transformM (isolating keep) depth) (Kept S n) := by
  refine (isolation g).transformM (R := fun _ => Kept S) (E := fun _ _ _ => True)
    (fun _ _ => (isolation g).pure trivial) ?_ n depth
  intro d span head slots _ slots' _ rel
  have rel := rel.imp fun _ _ r => Guarantee.Filled.rel r
  by_cases hd : d = 0
  · simp only [isolating, if_pos hd]
    refine (isolation g).bind (isolatedHead_renamed head) fun head' hh => ?_
    exact (isolation g).pure (kept_node hh rel)
  · simp only [isolating, if_neg hd]
    exact (isolation g).pure (kept_slots rel)

/-! ## Filling -/

/-- An unquote gives way to what it holds. -/
theorem kept_unquote {span : Span} {slots : List (Slot Node)} {e' : Node}
    (rel : List.Forall₂ (Slot.Rel (Kept S)) slots [.one e']) :
    Kept S (mk span .unquote slots) e' := by
  obtain _ | ⟨one, ⟨⟩⟩ := rel
  obtain _ | @⟨e, _, kept⟩ := one
  have part (hn : (mk span .unquote [.one e]).Regular S) : e'.Part S :=
    kept.part (hn.part rfl List.mem_cons_self List.mem_cons_self)
  exact ⟨fun hn => (part hn).regular, fun hn => part hn.regular⟩

theorem substitute_kept {f : Filling} (hf : ∀ x ∈ f.bindings, x.2.Part S) (n : Node)
    (depth : Nat) :
    (Guarantee.except ExpansionFault).holds (n.transformM f.transform depth) (Kept S n) := by
  refine (Guarantee.except _).transformM (R := fun _ => Kept S)
    (E := fun _ n _ => ∀ x, n.head ≠ .identifier x) ?_ ?_ n depth
  · intro d n
    obtain ⟨span, head, slots⟩ := n
    cases head
    case identifier x =>
      refine (Guarantee.except _).pure ?_
      by_cases hd : d = 0
      · rw [if_pos hd]
        cases bound : f.bindings.lookup x with
        | none => exact .refl _
        | some m =>
          have hm := hf _ (mem_of_lookup bound)
          exact ⟨fun _ => hm.regular, fun _ => hm⟩
      · rw [if_neg hd]
        exact .refl _
    all_goals exact (Guarantee.except _).pure fun x h => nomatch h
  · intro d span head slots _ slots' hh rel
    have rel := rel.imp fun _ _ r => Guarantee.Filled.rel r
    unfold Filling.transform
    dsimp only
    split
    · rename_i e' heq slotsEq
      obtain rfl : head = .unquote := heq
      obtain rfl : slots' = [.one e'] := slotsEq
      split
      · exact (Guarantee.except _).pure (kept_unquote rel)
      · exact (Guarantee.except _).pure (kept_slots rel)
    · split
      · refine (Guarantee.except _).bind ((Guarantee.except _).mapBindersM
          (R := fun _ _ => True) (fun _ _ _ _ _ => trivial) hh) ?_
        exact fun head' hr => (Guarantee.except _).pure (kept_node hr rel)
      · exact (Guarantee.except _).pure (kept_slots rel)

/-! ## Expanding -/

/-- What stands in a statement made of expressions is a part. -/
theorem part_unwrap {n : Node} (h : n.Regular S) : n.unwrap.Part S := by
  fun_induction unwrap n with
  | case1 span e ih =>
    exact ih ((regular_mk.mp h).2 _ List.mem_cons_self _ List.mem_cons_self)
  | case2 n bare =>
    refine ⟨h, fun hn => ?_⟩
    obtain ⟨span, head, slots⟩ := n
    obtain rfl : head = .expressionStmt := hn
    obtain ⟨⟩ | ⟨⟩ | ⟨⟩ | ⟨⟩ | ⟨plain⟩ := (regular_mk.mp h).1.fits
    · exact bare _ _ rfl
    · cases plain

end Node

variable {S : Scope} {s s' : UnitState} {c : MacroCall} {e : Expansion} {d : MacroDefinition}

theorem passes_part (args : ∀ a ∈ c.args, a.Part S) {n : Node} (h : c.Passes n) : n.Part S := by
  rcases h with h | ⟨m, ⟨a, ha, hm⟩ | rfl, rfl⟩
  · exact args n h
  · exact Node.part_unwrap ((args a ha).regular.of_mem_walk hm)
  · refine Node.part_unwrap (Node.Part.regular ?_)
    refine Node.part_plain rfl fun slot hs a ha => ?_
    rw [List.mem_singleton.mp hs] at ha
    exact args a ha

theorem select_part {sel : Selection} (selected : d.select c = .ok sel) (regular : d.Regular S) :
    sel.template.Part S := by
  have h := (d.select_ok selected).1
  split at h
  · obtain ⟨q, hq, ht⟩ := h
    exact (regular.template q hq).child ht
  · obtain ⟨r, hr, ht⟩ := h
    exact (regular.rules r hr).child ht

theorem prepared_kept (sel : Selection) (hygiene : Hygiene) (s : UnitState) :
    sel.template.Kept S (sel.prepared hygiene s) := by
  cases hygiene with
  | isolate =>
    exact (Node.isolate_kept sel.template 0 (RenameTable.empty, s.gensym) (.start s.gensym)).1
  | capture | inject => exact .refl _

theorem expandCall_part (run : (Work.expandCall c).run s = (.ok e, s'))
    (regular : ∀ d, s.registry.find? c.name = some d → d.Regular S)
    (args : ∀ a ∈ c.args, a.Part S) : e.node.Part S := by
  obtain ⟨d, sel, called, selected, filled, -⟩ := Work.expandCall_ok run
  have bound : ∀ x ∈ (sel.filling c.name).bindings, x.2.Part S :=
    fun x hx => passes_part args ((d.select_ok selected).2 x hx)
  have template := select_part selected (regular d called)
  exact (Node.substitute_kept bound _ _ _ filled).part ((prepared_kept sel _ _).part template)

namespace Expansion

theorem regular_of_mem_statements {n m : Node} (h : n.Regular S) (hm : m ∈ n.statements) :
    m.Regular S :=
  h.of_mem_walk (Node.statements_mem_walk hm)

theorem asStatements_regular (h : e.node.Part S) (span : Span) :
    ∀ n ∈ e.asStatements span, n.Regular S := by
  intro n hn
  unfold asStatements at hn
  split at hn
  · exact regular_of_mem_statements h.regular hn
  · rw [List.mem_singleton.mp hn]
    exact Node.regular_expressionStmt h

theorem asExpression_part (h : e.node.Part S) {n : Node} (hn : e.asExpression c = .ok n) :
    n.Part S := by
  unfold asExpression at hn
  split at hn
  · split at hn
    · rename_i span expression statements
      cases hn
      have stmt := regular_of_mem_statements h.regular
        (m := Node.mk span .expressionStmt [.one n]) (by rw [statements]; exact List.mem_cons_self)
      exact stmt.part rfl List.mem_cons_self List.mem_cons_self
    · nomatch hn
  · cases hn
    exact h

end Expansion

end GlyphScript
