import GlyphScript.Proofs.Guarantee

/-!
# Regular trees

What expansion relies on: calls and statements have the slots that it looks
for, expressions used as statements stand nowhere but in bodies, and the macros
defined and the calls deferred are among given ones.
-/

namespace GlyphScript

namespace Head

/-- Bodies and programs. -/
def isScope : Head → Bool
  | .block _ | .program _ => true
  | _ => false

/-- Neither a call nor a definition of a macro, nor a statement made of an expression. -/
def isPlain : Head → Bool
  | .call | .macroCall .. | .expressionStmt | .macroDef .. => false
  | _ => true

end Head

/-- Which names macro definitions may have, and which of them deferred calls may have. -/
structure Scope where
  defined : String → Prop
  deferred : String → Prop

/-- More definitions and deferred calls may be allowed. -/
instance : LE Scope where
  le S S' := (∀ x, S.defined x → S'.defined x) ∧ ∀ x, S.deferred x → S'.deferred x

namespace Node

/-- The slots are those that expansion looks for. -/
inductive Fits : Head → List (Slot Node) → Prop where
  | call {callee args} : Fits .call [.one callee, .many args]
  | macroCall {x d args} : Fits (.macroCall x d) [.many args]
  | expressionStmt {e} : Fits .expressionStmt [.one e]
  | macroDef {x params p h slots} : Fits (.macroDef x params p h) slots
  | plain {head slots} : head.isPlain = true → Fits head slots

/-- The node is regular, whatever stands below its children. -/
structure RegularAt (S : Scope) (n : Node) : Prop where
  fits : Fits n.head n.slots
  parts : n.head.isScope = false → ∀ s ∈ n.slots, ∀ m ∈ s.toList, m.head ≠ .expressionStmt
  defined : ∀ x params p h, n.head = .macroDef x params p h → S.defined x
  deferred : ∀ x, n.head = .macroCall x true → S.deferred x

def Regular (S : Scope) (n : Node) : Prop := ∀ m ∈ n.walk, m.RegularAt S

/-- A regular node that is no statement made of an expression, so that it may stand anywhere. -/
structure Part (S : Scope) (n : Node) : Prop where
  regular : n.Regular S
  bare : n.head ≠ .expressionStmt

variable {S S' : Scope}

theorem regular_mk {span : Span} {head : Head} {slots : List (Slot Node)} :
    (mk span head slots).Regular S ↔
      (mk span head slots).RegularAt S ∧ ∀ s ∈ slots, ∀ n ∈ s.toList, n.Regular S := by
  simp only [Regular, mem_walk_mk, forall_eq_or_imp, forall_exists_index, and_imp]
  exact and_congr_right fun _ =>
    ⟨fun h s hs n hn m hm => h m s hs n hn hm, fun h m s hs n hn hm => h s hs n hn m hm⟩

theorem Regular.of_mem_walk {n m : Node} (h : n.Regular S) (hm : m ∈ n.walk) : m.Regular S :=
  fun k hk => h k (mem_walk_trans hm hk)

theorem Regular.part {span : Span} {head : Head} {slots : List (Slot Node)}
    (h : (mk span head slots).Regular S) (hh : head.isScope = false) {s : Slot Node}
    (hs : s ∈ slots) {n : Node} (hn : n ∈ s.toList) : n.Part S :=
  ⟨(regular_mk.mp h).2 s hs n hn, (regular_mk.mp h).1.parts hh s hs n hn⟩

/-- A node made of parts. -/
theorem regular_of_parts {span : Span} {head : Head} {slots : List (Slot Node)}
    (fits : Fits head slots) (defined : ∀ x params p h, head = .macroDef x params p h → S.defined x)
    (deferred : ∀ x, head = .macroCall x true → S.deferred x)
    (parts : ∀ s ∈ slots, ∀ n ∈ s.toList, n.Part S) : (mk span head slots).Regular S :=
  regular_mk.mpr ⟨⟨fits, fun _ s hs n hn => (parts s hs n hn).bare, defined, deferred⟩,
    fun s hs n hn => (parts s hs n hn).regular⟩

theorem part_plain {span : Span} {head : Head} {slots : List (Slot Node)}
    (plain : head.isPlain = true) (parts : ∀ s ∈ slots, ∀ n ∈ s.toList, n.Part S) :
    (mk span head slots).Part S := by
  refine ⟨regular_of_parts (.plain plain) ?_ ?_ parts, ?_⟩
  · rintro x params p h rfl
    nomatch plain
  · rintro x rfl
    nomatch plain
  · intro (h : head = .expressionStmt)
    rw [h] at plain
    nomatch plain

theorem part_macroDef {span : Span} {x : String} {params : List String} {p : Phase} {h : Hygiene}
    {slots : List (Slot Node)} (hx : S.defined x)
    (parts : ∀ s ∈ slots, ∀ n ∈ s.toList, n.Part S) :
    (mk span (.macroDef x params p h) slots).Part S := by
  refine ⟨regular_of_parts .macroDef ?_ (fun _ h => nomatch h) parts, fun h => nomatch h⟩
  rintro y _ _ _ e
  cases e
  exact hx

theorem part_call {span : Span} {callee : Node} {args : List Node} (hc : callee.Part S)
    (ha : ∀ a ∈ args, a.Part S) : (mk span .call [.one callee, .many args]).Part S := by
  refine ⟨regular_of_parts .call (fun _ _ _ _ h => nomatch h) (fun _ h => nomatch h) ?_,
    fun h => nomatch h⟩
  intro s hs n hn
  rcases List.mem_cons.mp hs with rfl | hs
  · rwa [List.mem_singleton.mp hn]
  · rw [List.mem_singleton.mp hs] at hn
    exact ha n hn

theorem part_macroCall {span : Span} {x : String} {args : List Node} {d : Bool}
    (hd : d = true → S.deferred x) (ha : ∀ a ∈ args, a.Part S) :
    (mk span (.macroCall x d) [.many args]).Part S := by
  refine ⟨regular_of_parts .macroCall (fun _ _ _ _ h => nomatch h) ?_ ?_, fun h => nomatch h⟩
  · rintro y h
    cases h
    exact hd rfl
  · intro s hs n hn
    rw [List.mem_singleton.mp hs] at hn
    exact ha n hn

theorem regular_expressionStmt {span : Span} {e : Node} (he : e.Part S) :
    (expressionStmt span e).Regular S := by
  refine regular_of_parts .expressionStmt (fun _ _ _ _ h => nomatch h) (fun _ h => nomatch h) ?_
  intro s hs n hn
  rw [List.mem_singleton.mp hs] at hn
  rwa [List.mem_singleton.mp hn]

theorem part_scope {span : Span} {head : Head} {statements : List Node} (hh : head.isScope = true)
    (h : ∀ n ∈ statements, n.Regular S) : (mk span head [.many statements]).Part S := by
  have inner : ∀ s ∈ [Slot.many statements], ∀ n ∈ s.toList, n.Regular S := by
    intro s hs n hn
    rw [List.mem_singleton.mp hs] at hn
    exact h n hn
  cases head
  case block | program =>
    refine ⟨regular_mk.mpr ⟨⟨.plain rfl, ?_, ?_, ?_⟩, inner⟩, fun h => nomatch h⟩
    · intro h
      nomatch h
    · intro _ _ _ _ h
      nomatch h
    · intro _ h
      nomatch h
  all_goals nomatch hh

/-- A part whose children are parts too, since it is no body. -/
structure Holder (S : Scope) (n : Node) : Prop where
  part : n.Part S
  closed : n.head.isScope = false

theorem holder_plain {span : Span} {head : Head} {slots : List (Slot Node)}
    (plain : head.isPlain = true) (closed : head.isScope = false)
    (parts : ∀ s ∈ slots, ∀ n ∈ s.toList, n.Part S) : (mk span head slots).Holder S :=
  ⟨part_plain plain parts, closed⟩

theorem Holder.child {n m : Node} (h : n.Holder S) (hm : m ∈ n.children) : m.Part S := by
  obtain ⟨span, head, slots⟩ := n
  obtain ⟨s, hs, hm⟩ := List.mem_flatMap.mp hm
  exact h.part.regular.part h.closed hs hm

theorem Regular.mono {n : Node} (h : n.Regular S) (le : S ≤ S') : n.Regular S' := fun m hm =>
  { fits := (h m hm).fits
    parts := (h m hm).parts
    defined := fun x params p hy e => le.1 x ((h m hm).defined x params p hy e)
    deferred := fun x e => le.2 x ((h m hm).deferred x e) }

theorem Part.mono {n : Node} (h : n.Part S) (le : S ≤ S') : n.Part S' := ⟨h.regular.mono le, h.bare⟩

theorem Holder.mono {n : Node} (h : n.Holder S) (le : S ≤ S') : n.Holder S' :=
  ⟨h.part.mono le, h.closed⟩

/-! ## Replacing nodes -/

/-- What may take the place of a node, so that the tree around it stays regular. -/
structure Replaced (S : Scope) (n : Node) (s : Slot Node) : Prop where
  regular : ∀ m ∈ s.toList, m.Regular S
  part : n.head ≠ .expressionStmt → ∃ m, s = .one m ∧ m.Part S

/-- As `Node.Replaced`, for what stands in a slot. -/
structure ReplacedIn (S : Scope) (s s' : Slot Node) : Prop where
  regular : ∀ m ∈ s'.toList, m.Regular S
  parts : (∀ n ∈ s.toList, n.head ≠ .expressionStmt) → s.Rel (fun _ m => m.Part S) s'

theorem replaced_self {n : Node} (h : n.Regular S) : n.Replaced S (.one n) := by
  refine ⟨fun m hm => ?_, fun bare => ⟨n, rfl, h, bare⟩⟩
  rwa [List.mem_singleton.mp hm]

theorem replaced_one {n m : Node} (h : m.Part S) : n.Replaced S (.one m) := by
  refine ⟨fun k hk => ?_, fun _ => ⟨m, rfl, h⟩⟩
  rw [List.mem_singleton.mp hk]
  exact h.regular

theorem replacedIn_absent : ReplacedIn S .absent .absent :=
  ⟨fun _ hm => (List.not_mem_nil hm).elim, fun _ => .absent⟩

theorem replacedIn_one {n : Node} {s : Slot Node} (h : n.Replaced S s) :
    ReplacedIn S (.one n) s := by
  refine ⟨h.regular, fun bare => ?_⟩
  obtain ⟨m, rfl, hm⟩ := h.part (bare n List.mem_cons_self)
  exact .one hm

theorem replaced_many {ns : List Node} {ss : List (Slot Node)}
    (h : List.Forall₂ (Replaced S) ns ss) :
    ReplacedIn S (.many ns) (.many (ss.flatMap Slot.toList)) := by
  induction h with
  | nil => exact ⟨fun m hm => (List.not_mem_nil hm).elim, fun _ => .many .nil⟩
  | @cons n s ns ss hs _ ih =>
    refine ⟨fun m hm => ?_, fun bare => ?_⟩
    · rw [Slot.toList, List.flatMap_cons] at hm
      exact (List.mem_append.mp hm).elim (hs.regular m) (ih.regular m)
    · obtain ⟨m, rfl, hm⟩ := hs.part (bare n List.mem_cons_self)
      cases ih.parts fun k hk => bare k (List.mem_cons_of_mem _ hk) with
      | many h => exact .many (.cons hm h)

theorem fits_replaced {head : Head} {slots slots' : List (Slot Node)}
    (h : Fits head slots) (rel : List.Forall₂ (Slot.Rel fun _ m => m.Part S) slots slots') :
    Fits head slots' := by
  cases h with
  | call =>
    obtain _ | ⟨⟨_⟩, _ | ⟨⟨_⟩, ⟨⟩⟩⟩ := rel
    exact .call
  | macroCall =>
    obtain _ | ⟨⟨_⟩, ⟨⟩⟩ := rel
    exact .macroCall
  | expressionStmt =>
    obtain _ | ⟨⟨_⟩, ⟨⟩⟩ := rel
    exact .expressionStmt
  | macroDef => exact .macroDef
  | plain h => exact .plain h

theorem replaced_node {span : Span} {head : Head} {slots slots' : List (Slot Node)}
    (hn : (mk span head slots).Regular S)
    (h : List.Forall₂ (ReplacedIn S) slots slots') :
    (mk span head slots).Replaced S (.one (.mk span head slots')) := by
  have own := (regular_mk.mp hn).1
  have regular : (mk span head slots').Regular S := by
    cases hs : head.isScope with
    | false =>
      have rel : List.Forall₂ (Slot.Rel fun _ m => m.Part S) slots slots' :=
        forall₂_imp_of_mem h fun s hs' s' r => r.parts (own.parts hs s hs')
      refine regular_of_parts (fits_replaced own.fits rel) own.defined own.deferred ?_
      intro s hs n hn
      obtain ⟨_, _, _, _, h⟩ := Slot.exists_of_mem_rel rel hs hn
      exact h
    | true =>
      refine regular_mk.mpr ⟨⟨?_, ?_, own.defined, own.deferred⟩, ?_⟩
      · cases head <;> first | exact .plain rfl | cases hs
      · intro h
        rw [Node.head, hs] at h
        cases h
      · intro s hs n hn
        obtain ⟨_, _, h⟩ := exists_of_mem_right h hs
        exact h.regular n hn
  refine ⟨fun m hm => ?_, fun bare => ⟨_, rfl, regular, bare⟩⟩
  rwa [List.mem_singleton.mp hm]

end Node

end GlyphScript
