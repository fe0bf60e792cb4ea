import GlyphScript.Macro.Substitution
import GlyphScript.Proofs.Macro.Renaming

/-!
# Filled templates

What a template becomes when it is filled, as a relation that goes over the
template once and never into what is put in. Filling gives the one tree so
related, and fails where a name to be bound is not put in as an identifier.
-/

namespace GlyphScript

/-! ## Uniqueness -/

theorem forall₂_unique_of_mem {α β : Type} {R : α → β → Prop} {as : List α} {bs cs : List β}
    (h : List.Forall₂ R as bs) (h' : List.Forall₂ R as cs)
    (unique : ∀ a ∈ as, ∀ b c, R a b → R a c → b = c) : bs = cs := by
  induction h generalizing cs with
  | nil => exact (List.forall₂_nil_left_iff.mp h').symm
  | cons r _ ih =>
    obtain ⟨c, cs, r', rest, rfl⟩ := List.forall₂_cons_left_iff.mp h'
    rw [unique _ List.mem_cons_self _ _ r r',
      ih rest fun a ha => unique a (List.mem_cons_of_mem _ ha)]

theorem Slot.Rel.unique_of_mem {α β : Type} {R : α → β → Prop} {s : Slot α} {t u : Slot β}
    (h : s.Rel R t) (h' : s.Rel R u) (unique : ∀ a ∈ s.toList, ∀ b c, R a b → R a c → b = c) :
    t = u := by
  cases h with
  | absent => exact (Slot.rel_absent_left.mp h').symm
  | one r =>
    obtain ⟨c, r', rfl⟩ := Slot.rel_one_left.mp h'
    rw [unique _ (List.mem_singleton_self _) _ _ r r']
  | many r =>
    obtain ⟨cs, r', rfl⟩ := Slot.rel_many_left.mp h'
    rw [forall₂_unique_of_mem r r' unique]

theorem Head.RenamedTo.unique {R : String → String → Prop} {h h₁ h₂ : Head}
    (r₁ : h.RenamedTo R h₁) (r₂ : h.RenamedTo R h₂)
    (unique : ∀ x y z, R x y → R x z → y = z) : h₁ = h₂ := by
  obtain ⟨ys, named, rfl⟩ := r₁
  obtain ⟨zs, named', rfl⟩ := r₂
  rw [forall₂_unique_of_mem named named' fun x _ => unique x]

namespace Filling

/-! ## What a template becomes -/

/-- What a name that a node binds becomes: itself unless it is bound, and only an identifier can
give it another name. -/
def Renames (f : Filling) (x y : String) : Prop :=
  match f.bindings.lookup x with
  | none => y = x
  | some bound => bound.head = .identifier y

/-- The template, which stands at a quote level, becomes the tree. -/
inductive Fills (f : Filling) : Nat × Node → Node → Prop where
  /-- What is put in stays as it is, even where it mentions bound names. -/
  | bound {span x slots n} : f.bindings.lookup x = some n →
    Fills f (0, .mk span (.identifier x) slots) n
  | unbound {depth span x slots} : depth ≠ 0 ∨ f.bindings.lookup x = none →
    Fills f (depth, .mk span (.identifier x) slots) (.mk span (.identifier x) slots)
  /-- An unquote no deeper than the template itself gives way to what it holds. -/
  | unquoted {depth span e e'} : depth ≤ f.level → Fills f (depth - 1, e) e' →
    Fills f (depth, .unquote span e) e'
  | node {depth span head slots head' slots'} : (∀ x, head ≠ .identifier x) →
    (∀ e, head = .unquote → slots = [.one e] → f.level < depth) →
    head.RenamedTo (fun x y => if depth = 0 then f.Renames x y else y = x) head' →
    List.Forall₂ (Slot.Rel (Fills f)) (slots.map (Slot.map (head.innerDepth depth, ·))) slots' →
    Fills f (depth, .mk span head slots) (.mk span head' slots')

variable {f : Filling} {depth : Nat} {span : Span} {head : Head} {slots : List (Slot Node)}
  {n n' : Node}

theorem Renames.unique {x y z : String} (h : f.Renames x y) (h' : f.Renames x z) : y = z := by
  unfold Renames at h h'
  split at h <;> rename_i found <;> rw [found] at h'
  · exact h.trans h'.symm
  · exact Head.identifier.inj (h.symm.trans h')

theorem fills_identifier {x : String} :
    f.Fills (depth, .mk span (.identifier x) slots) n' ↔
      depth = 0 ∧ f.bindings.lookup x = some n' ∨
        (depth ≠ 0 ∨ f.bindings.lookup x = none) ∧ n' = .mk span (.identifier x) slots := by
  constructor
  · intro h
    cases h with
    | bound found => exact .inl ⟨rfl, found⟩
    | unbound free => exact .inr ⟨free, rfl⟩
    | node other => exact absurd rfl (other x)
  · rintro (⟨rfl, found⟩ | ⟨free, rfl⟩)
    · exact .bound found
    · exact .unbound free

theorem fills_unquote {e : Node} (shallow : depth ≤ f.level) :
    f.Fills (depth, .mk span .unquote [.one e]) n' ↔ f.Fills (depth - 1, e) n' := by
  constructor
  · intro h
    cases h with
    | unquoted _ h => exact h
    | node _ deep => exact absurd (deep e rfl rfl) (Nat.not_lt.mpr shallow)
  · exact .unquoted shallow

theorem fills_node (other : ∀ x, head ≠ .identifier x)
    (deep : ∀ e, head = .unquote → slots = [.one e] → f.level < depth) :
    f.Fills (depth, .mk span head slots) n' ↔ ∃ head' slots', n' = .mk span head' slots' ∧
      head.RenamedTo (fun x y => if depth = 0 then f.Renames x y else y = x) head' ∧
      List.Forall₂ (Slot.Rel fun n m => f.Fills (head.innerDepth depth, n) m) slots slots' := by
  have below : ∀ slots', List.Forall₂ (Slot.Rel f.Fills)
      (slots.map (Slot.map (head.innerDepth depth, ·))) slots' ↔
      List.Forall₂ (Slot.Rel fun n m => f.Fills (head.innerDepth depth, n) m) slots slots' := by
    intro slots'
    simp only [List.forall₂_map_left_iff, Slot.rel_map_left]
  constructor
  · intro h
    cases h with
    | bound => exact absurd rfl (other _)
    | unbound => exact absurd rfl (other _)
    | unquoted shallow => exact absurd (deep _ rfl rfl) (Nat.not_lt.mpr shallow)
    | node _ _ names rel => exact ⟨_, _, rfl, names, (below _).mp rel⟩
  · rintro ⟨head', slots', rfl, names, rel⟩
    exact .node other deep names ((below _).mpr rel)

/-- A template is an identifier, or an unquote that gives way, or stays a node of its kind. -/
theorem template_cases (f : Filling) (depth : Nat) (head : Head) (slots : List (Slot Node)) :
    (∃ x, head = .identifier x) ∨ (head = .unquote ∧ (∃ e, slots = [.one e]) ∧ depth ≤ f.level) ∨
      (∀ x, head ≠ .identifier x) ∧ ∀ e, head = .unquote → slots = [.one e] → f.level < depth := by
  by_cases name : ∃ x, head = .identifier x
  · exact .inl name
  by_cases shallow : head = .unquote ∧ (∃ e, slots = [.one e]) ∧ depth ≤ f.level
  · exact .inr (.inl shallow)
  · refine .inr (.inr ⟨fun x hx => name ⟨x, hx⟩, fun e unquote one => ?_⟩)
    apply Nat.lt_of_not_le
    intro le
    exact shallow ⟨unquote, ⟨e, one⟩, le⟩

/-- A template becomes one tree at most. -/
theorem Fills.unique {n₁ n₂ : Node} (h₁ : f.Fills (depth, n) n₁) (h₂ : f.Fills (depth, n) n₂) :
    n₁ = n₂ := by
  induction n using Node.induction_on generalizing depth n₁ n₂ with
  | step span head slots ih =>
    obtain ⟨x, rfl⟩ | ⟨rfl, ⟨e, rfl⟩, shallow⟩ | ⟨other, deep⟩ := f.template_cases depth head slots
    · rw [fills_identifier] at h₁ h₂
      rcases h₁ with ⟨rfl, found⟩ | ⟨free, rfl⟩ <;> rcases h₂ with ⟨here, found'⟩ | ⟨free', rfl⟩
      · exact Option.some.inj (found.symm.trans found')
      · rw [found] at free'
        simp at free'
      · rw [here, found'] at free
        simp at free
      · rfl
    · rw [fills_unquote shallow] at h₁ h₂
      exact ih _ List.mem_cons_self e (List.mem_singleton_self e) h₁ h₂
    · obtain ⟨head₁, slots₁, rfl, names₁, rel₁⟩ := (fills_node other deep).mp h₁
      obtain ⟨head₂, slots₂, rfl, names₂, rel₂⟩ := (fills_node other deep).mp h₂
      have heads : head₁ = head₂ := by
        apply names₁.unique names₂
        intro x y z
        by_cases outside : depth = 0
        · simp only [outside, if_true]
          exact Renames.unique
        · simp only [outside, if_false]
          intro hy hz
          rw [hy, hz]
      have same : slots₁ = slots₂ := by
        apply forall₂_unique_of_mem rel₁ rel₂
        intro s hs t u ht hu
        exact ht.unique_of_mem hu fun n hn _ _ => ih s hs n hn
      rw [heads, same]

/-! ## Conflicts -/

end Filling

/-- The names that the nodes of a tree bind outside quotes, each with the head that binds it and the
attribute that holds it. Identifiers have nothing below them. -/
def Node.bindersOutside : Node → (depth : Nat) → List (Head × Head.BinderPosition × String) :=
  fold fun _ head slots depth =>
    match head with
    | .identifier _ => []
    | head => (if depth = 0 then head.binders.map (head, ·) else []) ++
      slots.flatMap fun s => s.toList.flatMap (· (head.innerDepth depth))

namespace Filling

variable {f : Filling} {depth : Nat} {span : Span} {head : Head} {slots : List (Slot Node)}
  {n n' : Node}

theorem mem_bindersOutside_mk {b : Head × Head.BinderPosition × String}
    (other : ∀ x, head ≠ .identifier x) :
    b ∈ (Node.mk span head slots).bindersOutside depth ↔
      (depth = 0 ∧ b.1 = head ∧ b.2 ∈ head.binders) ∨
        ∃ s ∈ slots, ∃ n ∈ s.toList, b ∈ n.bindersOutside (head.innerDepth depth) := by
  have unfolded : (Node.mk span head slots).bindersOutside depth =
      (if depth = 0 then head.binders.map (head, ·) else []) ++
        slots.flatMap fun s => s.toList.flatMap (·.bindersOutside (head.innerDepth depth)) := by
    rw [Node.bindersOutside, Node.fold_mk]
    cases head
    case identifier x => exact absurd rfl (other x)
    all_goals simp only [List.flatMap_map, Slot.toList_map]
  rw [unfolded, List.mem_append]
  apply or_congr
  · by_cases outside : depth = 0
    · simp only [outside, if_true, true_and, List.mem_map]
      constructor
      · rintro ⟨binder, mem, rfl⟩
        exact ⟨rfl, mem⟩
      · rintro ⟨same, mem⟩
        exact ⟨b.2, mem, by rw [← same]⟩
    · simp [outside]
  · simp only [List.mem_flatMap]

/-- The fault is that a name which is to be bound is not put in as an identifier. -/
def Conflicts (f : Filling) (depth : Nat) (n : Node) (e : ExpansionFault) : Prop :=
  ∃ receiver position x bound, (receiver, position, x) ∈ n.bindersOutside depth ∧
    f.bindings.lookup x = some bound ∧ (∀ y, bound.head ≠ .identifier y) ∧
    e = .hygieneConflict f.name x position bound.className receiver.className bound.span

theorem Conflicts.of_child (other : ∀ x, head ≠ .identifier x) {s : Slot Node} (hs : s ∈ slots)
    (hn : n ∈ s.toList) {e : ExpansionFault} (h : f.Conflicts (head.innerDepth depth) n e) :
    f.Conflicts depth (.mk span head slots) e := by
  obtain ⟨receiver, position, x, bound, mem, rest⟩ := h
  exact ⟨receiver, position, x, bound, (mem_bindersOutside_mk other).mpr (.inr ⟨s, hs, n, hn, mem⟩),
    rest⟩

/-- Where there is a conflict the template becomes nothing. -/
theorem Fills.no_conflict (h : f.Fills (depth, n) n') (e : ExpansionFault) :
    ¬ f.Conflicts depth n e := by
  rintro ⟨receiver, position, x, bound, mem, found, other, -⟩
  induction n using Node.induction_on generalizing depth n' with
  | step span head slots ih =>
    obtain ⟨y, rfl⟩ | ⟨rfl, ⟨e, rfl⟩, shallow⟩ | ⟨name, deep⟩ := f.template_cases depth head slots
    · simp [Node.bindersOutside, Node.fold_mk] at mem
    · rw [mem_bindersOutside_mk (by simp)] at mem
      rcases mem with ⟨-, -, mem⟩ | ⟨s, hs, n, hn, mem⟩
      · simp [Head.binders] at mem
      · obtain rfl : s = .one e := by simpa using hs
        obtain rfl : n = e := by simpa [Slot.toList] using hn
        exact ih _ hs n hn ((fills_unquote shallow).mp h) mem
    · obtain ⟨head', slots', rfl, ⟨ys, names, -⟩, rel⟩ := (fills_node name deep).mp h
      rcases (mem_bindersOutside_mk name).mp mem with ⟨rfl, -, own⟩ | ⟨s, hs, n, hn, mem⟩
      · have bound' : x ∈ head.ownNames := by
          have : x ∈ head.boundNames := by
            rw [← head.map_snd_binders]
            exact List.mem_map_of_mem own
          cases head <;> first | exact this | exact absurd rfl (name _)
        obtain ⟨y, -, renames⟩ := exists_of_mem_right names.flip bound'
        simp only [Renames, found] at renames
        exact other y renames
      · obtain ⟨s', -, r⟩ := exists_of_mem_right rel.flip hs
        obtain ⟨m, -, r⟩ := exists_of_mem_right r.toList.flip hn
        exact ih s hs n hn r mem

end Filling

/-! ## Filling -/

/-- What holds of the result, and of the error where there is none. -/
def Guarantee.either {ε : Type} (E : ε → Prop) : Guarantee (Except ε) where
  holds x p := (∀ e, x = .error e → E e) ∧ ∀ a, x = .ok a → p a
  pure h := ⟨by simp [Pure.pure, Except.pure], fun _ e => Except.ok.inj e ▸ h⟩
  bind {_ _ x f _ _} hx hf := by
    cases x with
    | error e => exact ⟨fun _ made => hx.1 _ (by cases made; rfl), fun _ made => by cases made⟩
    | ok a => exact hf a (hx.2 a rfl)

theorem Guarantee.either_mono {ε α : Type} {E E' : ε → Prop} {x : Except ε α} {p : α → Prop}
    (h : (either E).holds x p) (hE : ∀ e, E e → E' e) : (either E').holds x p :=
  ⟨fun e made => hE e (h.1 e made), h.2⟩

namespace Filling

variable {f : Filling} {depth : Nat} {span : Span} {head : Head} {slots : List (Slot Node)}
  {n n' : Node}

theorem binder_renames {E : ExpansionFault → Prop} {receiver : String}
    {position : Head.BinderPosition} {x : String}
    (conflict : ∀ bound, f.bindings.lookup x = some bound → (∀ y, bound.head ≠ .identifier y) →
      E (.hygieneConflict f.name x position bound.className receiver bound.span)) :
    (Guarantee.either E).holds (f.binder receiver position x) (f.Renames x) := by
  unfold binder
  cases found : f.bindings.lookup x with
  | none =>
    refine (Guarantee.either E).pure ?_
    simp [Renames, found]
  | some bound =>
    dsimp only
    split
    · rename_i y made
      refine (Guarantee.either E).pure ?_
      simpa [Renames, found] using made
    · rename_i other
      refine ⟨fun e made => ?_, fun y made => by cases made⟩
      cases made
      exact conflict bound found other

theorem head_renamed {E : ExpansionFault → Prop} (other : ∀ x, head ≠ .identifier x)
    (conflict : ∀ position x bound, (position, x) ∈ head.binders →
      f.bindings.lookup x = some bound → (∀ y, bound.head ≠ .identifier y) →
      E (.hygieneConflict f.name x position bound.className head.className bound.span)) :
    (Guarantee.either E).holds (head.mapBindersM (f.binder head.className))
      (head.RenamedTo f.Renames) := by
  rw [Head.mapBindersM_eq _ other]
  refine (Guarantee.either E).map ((Guarantee.either E).mapM (R := fun b y => f.Renames b.2 y)
    fun b hb => ?_) fun ys names => ⟨ys, ?_, rfl⟩
  · exact binder_renames fun bound => conflict b.1 b.2 bound hb
  · have own : head.ownNames = head.binders.map (·.2) := by
      rw [head.map_snd_binders]
      cases head <;> first | rfl | exact absurd rfl (other _)
    rw [own, List.forall₂_map_left_iff]
    exact names

theorem leave_unquote {e : Node} (shallow : depth ≤ f.level) :
    f.transform.leave depth (.mk span .unquote [.one e]) = .ok e :=
  congrArg Except.ok (if_pos shallow)

theorem leave_node (deep : ∀ e, head = .unquote → slots = [.one e] → f.level < depth) :
    f.transform.leave depth (.mk span head slots) =
      if depth = 0 then (Node.mk span · slots) <$> head.mapBindersM (f.binder head.className)
      else .ok (.mk span head slots) := by
  unfold transform
  dsimp only
  split
  · rename_i e unquote one
    have inside := deep e unquote one
    rw [if_neg (Nat.not_le.mpr inside), if_neg (Nat.ne_of_gt (Nat.zero_lt_of_lt inside))]
    rfl
  · by_cases outside : depth = 0
    · simp only [outside, if_true, map_eq_pure_bind]
      rfl
    · simp only [outside, if_false]
      rfl

/-- A node whose children are filled is filled, or there is a conflict at the node. -/
theorem leave_fills {slots' : List (Slot Node)} (other : ∀ x, head ≠ .identifier x)
    (rel : List.Forall₂ (Slot.Rel fun n m => f.Fills (head.innerDepth depth, n) m) slots slots') :
    (Guarantee.either (f.Conflicts depth (.mk span head slots))).holds
      (f.transform.leave depth (.mk span head slots'))
      (f.Fills (depth, .mk span head slots)) := by
  obtain ⟨x, rfl⟩ | ⟨rfl, ⟨e, rfl⟩, shallow⟩ | ⟨-, deep⟩ := f.template_cases depth head slots
  · exact absurd rfl (other x)
  · obtain ⟨_, _, r, none, rfl⟩ := List.forall₂_cons_left_iff.mp rel
    obtain rfl := List.forall₂_nil_left_iff.mp none
    obtain ⟨e', filled, rfl⟩ := Slot.rel_one_left.mp r
    rw [leave_unquote shallow]
    exact (Guarantee.either _).pure ((fills_unquote shallow).mpr filled)
  · have deep' : ∀ e', head = .unquote → slots' = [.one e'] → f.level < depth := by
      rintro e' unquote rfl
      obtain ⟨s, _, r, none, rfl⟩ := List.forall₂_cons_right_iff.mp rel
      obtain rfl := List.forall₂_nil_right_iff.mp none
      cases r with
      | one => exact deep _ unquote rfl
    rw [leave_node deep']
    by_cases outside : depth = 0
    · subst outside
      rw [if_pos rfl]
      apply (Guarantee.either _).map (head_renamed other fun position x bound mem found bad => ?_)
      · intro head' names
        exact (fills_node other deep).mpr ⟨head', slots', rfl, by simpa using names, rel⟩
      · exact ⟨head, position, x, bound, (mem_bindersOutside_mk other).mpr (.inl ⟨rfl, rfl, mem⟩),
          found, bad, rfl⟩
    · rw [if_neg outside]
      apply (Guarantee.either _).pure
      refine (fills_node other deep).mpr ⟨head, slots', rfl, ⟨head.ownNames, ?_, ?_⟩, rel⟩
      · simp [outside]
      · simp

/-- Filling ends in a conflict or gives what the template becomes. -/
theorem transformM_fills (f : Filling) (n : Node) (depth : Nat) :
    (Guarantee.either (f.Conflicts depth n)).holds (n.transformM f.transform depth)
      (f.Fills (depth, n)) := by
  induction n using Node.induction_on generalizing depth with
  | step span head slots ih =>
    by_cases name : ∃ x, head = .identifier x
    · obtain ⟨x, rfl⟩ := name
      have same : (Node.mk span (.identifier x) slots).transformM f.transform depth =
          .ok (if depth = 0 then (f.bindings.lookup x).getD (.mk span (.identifier x) slots)
            else .mk span (.identifier x) slots) := rfl
      rw [same]
      apply (Guarantee.either _).pure
      rw [fills_identifier]
      by_cases outside : depth = 0
      · cases found : f.bindings.lookup x <;> simp [outside]
      · simp [outside]
    · have other : ∀ x, head ≠ .identifier x := fun x hx => name ⟨x, hx⟩
      have entered : f.transform.enter depth (.mk span head slots) =
          pure (.inside (head.innerDepth depth)) := by
        cases head <;> first | rfl | exact absurd rfl (other _)
      have below : (Guarantee.either (f.Conflicts depth (.mk span head slots))).holds
          (Node.transformSlotsM f.transform (head.innerDepth depth) slots)
          (List.Forall₂ (Guarantee.Filled .one fun n m => f.Fills (head.innerDepth depth, n) m)
            slots) := by
        apply (Guarantee.either _).transformSlotsM
        intro s hs n hn
        exact Guarantee.either_mono (ih s hs n hn _) fun e => .of_child other hs hn
      rw [Node.transformM, entered, pure_bind]
      refine (Guarantee.either _).bind below fun slots' rel => ?_
      exact leave_fills other (rel.imp fun _ _ r => Guarantee.Filled.rel r)

theorem transformM_eq_ok_iff : n.transformM f.transform depth = .ok n' ↔ f.Fills (depth, n) n' := by
  obtain ⟨fails, succeeds⟩ := f.transformM_fills n depth
  refine ⟨succeeds n', fun h => ?_⟩
  cases made : n.transformM f.transform depth with
  | error e => exact absurd (fails e made) (h.no_conflict e)
  | ok n'' => rw [h.unique (succeeds n'' made)]

/-- Filling a template gives the one tree that the template becomes. It fails exactly where a node
outside quotes binds a name that is to be put in and is put in as something other than an
identifier, and reports such a name. -/
theorem substitute_fills (f : Filling) (template : Node) :
    (∀ n, template.substitute f = .ok n ↔ f.Fills (f.level, template) n) ∧
    ((∃ e, template.substitute f = .error e) ↔ ∃ e, f.Conflicts f.level template e) ∧
    ∀ e, template.substitute f = .error e → f.Conflicts f.level template e := by
  obtain ⟨fails, -⟩ := f.transformM_fills template f.level
  refine ⟨fun n => transformM_eq_ok_iff, ⟨?_, ?_⟩, fails⟩
  · rintro ⟨e, made⟩
    exact ⟨e, fails e made⟩
  · rintro ⟨e, conflict⟩
    cases made : template.substitute f with
    | error e => exact ⟨e, rfl⟩
    | ok n => exact absurd conflict ((transformM_eq_ok_iff.mp made).no_conflict e)

/-- Bindings that mention each other's names are put in at once. -/
example (s : Span) :
    (Node.binaryOp s "++" (.identifier s "a") (.unquote s (.identifier s "b"))).substitute
      ⟨[("a", .identifier s "b"), ("b", .identifier s "a")], "swap", 0⟩ =
      .ok (.binaryOp s "++" (.identifier s "b") (.identifier s "a")) := by
  rfl

end Filling

end GlyphScript
