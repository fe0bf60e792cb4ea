import GlyphScript.Proofs.Fidelity.Reprinting
import GlyphScript.Proofs.Order.Units
import GlyphScript.Proofs.Parsing.Trials
import GlyphScript.Proofs.Stability.Definitions

/-!
# Reading behind definitions

The macros known in front of a text decide which calls in it are marked, and
nothing else. So a text that is read behind definitions of macros is read as it
is alone, with the calls of these macros marked.
-/

namespace GlyphScript

theorem Slot.Rel.refl {α : Type} {R : α → α → Prop} {s : Slot α} (h : ∀ a ∈ s.toList, R a a) :
    s.Rel R s := by
  cases s with
  | absent => exact .absent
  | one a => exact .one (h a List.mem_cons_self)
  | many as => exact .many (List.forall₂_same.mpr h)

/-! ## Marking calls -/

namespace Node

/-- The node, as a call of a macro if it is the call of a known name. -/
def mark (known : String → Bool) (span : Span) : Head → List (Slot Node) → Node
  | .call, .one callee :: args =>
    match callee.head with
    | .identifier x =>
      if known x then mk span (.macroCall x false) args else mk span .call (.one callee :: args)
    | _ => mk span .call (.one callee :: args)
  | head, slots => mk span head slots

/-- The tree with the calls of known names marked. -/
def marked (known : String → Bool) : Node → Node := fold (mark known)

variable {known : String → Bool} {span : Span} {head : Head} {slots : List (Slot Node)} {n : Node}

theorem marked_mk : (mk span head slots).marked known =
    mark known span head (slots.map (Slot.map (marked known))) :=
  fold_mk ..

theorem mark_plain (h : head ≠ .call) : mark known span head slots = mk span head slots := by
  unfold mark
  split
  · exact absurd rfl h
  · rfl

theorem marked_plain (h : head ≠ .call) : (mk span head slots).marked known =
    mk span head (slots.map (Slot.map (marked known))) := by
  rw [marked_mk, mark_plain h]

theorem mark_call (callee : Node) (args : List (Slot Node)) :
    mark known span .call (.one callee :: args) = match callee.head with
      | .identifier x =>
        if known x then mk span (.macroCall x false) args else mk span .call (.one callee :: args)
      | _ => mk span .call (.one callee :: args) :=
  rfl

theorem marked_call (callee : Node) (args : List (Slot Node)) :
    (mk span .call (.one callee :: args)).marked known =
      mark known span .call (.one (callee.marked known) :: args.map (Slot.map (marked known))) :=
  marked_mk

theorem mark_unnamed {callee : Node} {args : List (Slot Node)}
    (unnamed : ¬ ∃ x, callee.head = .identifier x) :
    mark known span .call (.one callee :: args) = mk span .call (.one callee :: args) := by
  rw [mark_call]
  split
  · exact absurd ⟨_, ‹_›⟩ unnamed
  · rfl

theorem marked_leaf (call : n.head ≠ .call)
    (leaf : n.slots = []) : n.marked known = n := by
  obtain ⟨span, head, slots⟩ := n
  obtain rfl : slots = [] := leaf
  exact marked_plain call

/-- What is no call keeps its head, and nothing else takes it. -/
theorem head_marked {h : Head} (hh : h.isCall = false) : (n.marked known).head = h ↔ n.head = h := by
  obtain ⟨span, head, slots⟩ := n
  by_cases call : head = .call
  · subst call
    have made : ((mk span .call slots).marked known).head.isCall = true := by
      rw [marked_mk]
      generalize slots.map (Slot.map (marked known)) = ss
      rcases ss with _ | ⟨_ | callee | _, args⟩
      case cons.one =>
        rw [mark_call]
        split
        · split <;> rfl
        · rfl
      all_goals rfl
    constructor
    · intro same
      rw [same, hh] at made
      cases made
    · rintro rfl
      cases hh
  · rw [marked_plain call]
    rfl

theorem isCall_of_isMacroDef {h : Head} (own : h.isMacroDef = true) : h.isCall = false := by
  cases h
  case macroDef => rfl
  all_goals cases own

theorem isMacroDef_marked : (n.marked known).head.isMacroDef = n.head.isMacroDef := by
  rw [Bool.eq_iff_iff]
  constructor <;> intro own
  · rwa [← (head_marked (isCall_of_isMacroDef own)).mp rfl] at own
  · rwa [(head_marked (isCall_of_isMacroDef own)).mpr rfl]

theorem definition?_marked : (n.marked known).definition? = n.definition? := by
  by_cases own : n.head.isMacroDef = true
  · rw [definition?, definition?, (head_marked (isCall_of_isMacroDef own)).mpr rfl]
  · have none {m : Node} (plain : m.head.isMacroDef = false) : m.definition? = none := by
      unfold definition?
      split
      · rename_i is
        rw [is] at plain
        cases plain
      · rfl
    have plain : n.head.isMacroDef = false := Bool.eq_false_iff.mpr own
    rw [none plain, none (isMacroDef_marked.trans plain)]

theorem slots_mark {s : Slot Node} (h : s ∈ (mark known span head slots).slots) : s ∈ slots := by
  unfold mark at h
  split at h
  · split at h
    · split at h
      · exact List.mem_cons_of_mem _ h
      · exact h
    · exact h
  · exact h

theorem mem_walk_iff {n m : Node} :
    m ∈ n.walk ↔ m = n ∨ ∃ s ∈ n.slots, ∃ c ∈ s.toList, m ∈ c.walk := by
  cases n
  exact mem_walk_mk

/-- Below a tree with marked calls there is nothing but what is below the tree. -/
theorem mem_walk_marked {m : Node} (h : m ∈ (n.marked known).walk) :
    ∃ k ∈ n.walk, m = k.marked known := by
  induction n using induction_on with
  | step span head slots ih =>
    rcases mem_walk_iff.mp h with rfl | ⟨s, hs, c, hc, hm⟩
    · exact ⟨_, mem_walk_self _, rfl⟩
    · rw [marked_mk] at hs
      obtain ⟨t, ht, rfl⟩ := List.mem_map.mp (slots_mark hs)
      rw [Slot.toList_map] at hc
      obtain ⟨d, hd, rfl⟩ := List.mem_map.mp hc
      obtain ⟨k, hk, made⟩ := ih t ht d hd hm
      exact ⟨k, mem_walk_mk.mpr (.inr ⟨t, ht, d, hd, hk⟩), made⟩

/-- There are no calls in patterns. -/
theorem IsPattern.marked (h : n.IsPattern) : n.marked known = n := by
  induction n using induction_on with
  | step span head slots ih =>
    obtain ⟨own, below⟩ := isPattern_mk.mp h
    rw [marked_plain fun call => by rw [call] at own; cases own]
    congr 1
    have same : ∀ s ∈ slots, s.map (Node.marked known) = id s := by
      intro s hs
      rw [Slot.map_congr (g := id) fun n hn => ih s hs n hn (below s hs n hn)]
      cases s <;> simp [Slot.map]
    rw [List.map_congr_left same, List.map_id]

theorem nestSlots_marked (stop : Location) (places : List Location) (slots : List (Slot Node)) :
    (nestSlots stop places slots).map (marked known) =
      nestSlots stop places (slots.map (Slot.map (marked known))) := by
  induction places generalizing slots with
  | nil => cases slots <;> rfl
  | cons start places ih =>
    rcases slots with _ | ⟨condition, _ | ⟨body, slots⟩⟩
    · rfl
    · rfl
    · rw [List.map_cons, List.map_cons, nestSlots, nestSlots, ← ih]
      exact congrArg Slot.one (marked_plain (by simp))

theorem ofArms_marked (span : Span) (places : List Location) (slots : List (Slot Node)) :
    (ofArms span places slots).marked known =
      ofArms span places (slots.map (Slot.map (marked known))) := by
  rcases slots with _ | ⟨condition, _ | ⟨body, slots⟩⟩
  · exact marked_plain nofun
  · exact marked_plain nofun
  · rw [List.map_cons, List.map_cons, ofArms, ofArms, ← nestSlots_marked]
    exact marked_plain nofun

end Node

namespace Node

/-- The names that are called by name and not marked. -/
def calledNames (n : Node) : List String := n.walk.filterMap calledName?

theorem calledNames_child {span : Span} {head : Head} {slots : List (Slot Node)} {s : Slot Node}
    {n : Node} (hs : s ∈ slots) (hn : n ∈ s.toList) {x : String} (hx : x ∈ n.calledNames) :
    x ∈ (mk span head slots).calledNames := by
  obtain ⟨m, hm, named⟩ := List.mem_filterMap.mp hx
  exact List.mem_filterMap.mpr ⟨m, mem_walk_mk.mpr (.inr ⟨s, hs, n, hn, hm⟩), named⟩

/-- Calls are marked differently only if their names are known differently. -/
theorem marked_twin {K : String → Prop} {known known' : String → Bool} (n : Node) :
    n.Sorted → (∀ m ∈ n.walk, m.head.Opens) → (∀ x ∈ n.calledNames, known x ≠ known' x → K x) →
    (n.marked known).Twin K Head.Opens (n.marked known') := by
  induction n using induction_on with
  | step span head slots ih =>
    intro sorted opened differ
    have below (s : Slot Node) (hs : s ∈ slots) :
        (s.map (marked known)).Rel (Twin K Head.Opens) (s.map (marked known')) := by
      refine Slot.rel_map_left.mpr (Slot.rel_map_right.mpr (.refl fun n hn => ih s hs n hn ?_ ?_ ?_))
      · exact sorted.of_mem_walk (mem_walk_mk.mpr (.inr ⟨s, hs, n, hn, mem_walk_self n⟩))
      · exact fun m hm => opened m (mem_walk_mk.mpr (.inr ⟨s, hs, n, hn, hm⟩))
      · exact fun x hx => differ x (calledNames_child hs hn hx)
    have parts : List.Forall₂ (Slot.Rel (Twin K Head.Opens)) (slots.map (Slot.map (marked known)))
        (slots.map (Slot.map (marked known'))) := by
      rw [List.forall₂_map_left_iff, List.forall₂_map_right_iff]
      exact List.forall₂_same.mpr below
    by_cases call : head = .call
    · subst call
      obtain _ | ⟨first, _ | ⟨second, ⟨⟩⟩⟩ := sorted_mk.mp sorted
      obtain ⟨callee, rfl, expression⟩ := first.one
      obtain ⟨args, rfl, -⟩ := second.many
      by_cases named : ∃ x, callee.head = .identifier x
      · obtain ⟨x, is⟩ := named
        obtain ⟨place, head, slots⟩ := callee
        obtain rfl : head = .identifier x := is
        cases sorted_mk.mp expression.sorted
        have own : x ∈ (mk span .call [.one (mk place (.identifier x) []), .many args]).calledNames :=
          List.mem_filterMap.mpr ⟨_, mem_walk_self _, rfl⟩
        have differ := differ x own
        have args := below _ (List.mem_cons_of_mem _ List.mem_cons_self)
        have name (known : String → Bool) : (mk place (.identifier x) []).marked known =
            mk place (.identifier x) [] := marked_leaf nofun rfl
        rw [marked_call, marked_call, name, name, mark_call, mark_call]
        dsimp only [Node.head]
        cases here : known x <;> cases there : known' x
        · exact .same rfl (.cons (.one (.same rfl .nil)) (.cons args .nil))
        · exact .unmarked (differ (by simp [here, there])) args
        · exact .marked (differ (by simp [here, there])) args
        · exact .same rfl (.cons args .nil)
      · have unnamed (known : String → Bool) : ¬ ∃ x, (callee.marked known).head = .identifier x :=
          fun ⟨x, is⟩ => named ⟨x, (head_marked rfl).mp is⟩
        rw [marked_call, marked_call, mark_unnamed (unnamed known), mark_unnamed (unnamed known')]
        exact .same rfl parts
    · rw [marked_plain call, marked_plain call]
      exact .same (opened _ (mem_walk_self _)) parts

end Node

/-- The macros that one more node defines are those that it defines with calls marked. -/
theorem MacroDefinition.ofNode?_marked {known : String → Bool} (n : Node) :
    ofNode? (n.marked known) = (ofNode? n).map fun d =>
      { d with rules := d.rules.map (Node.marked known),
               template := d.template.map (Node.marked known) } := by
  obtain ⟨span, head, slots⟩ := n
  by_cases own : head.isMacroDef = true
  · cases head <;> cases own
    rw [Node.marked_plain (by simp)]
    rcases slots with _ | ⟨rules, _ | ⟨template, _ | ⟨s, slots⟩⟩⟩
    case cons.cons.nil =>
      simp [ofNode?, Node.head, Node.slots, Node.span]
    all_goals rfl
  · have none {n : Node} (plain : n.head.isMacroDef = false) : ofNode? n = .none := by
      rw [← Option.not_isSome_iff_eq_none, Option.isSome_iff_exists]
      rintro ⟨d, made⟩
      rw [Node.isMacroDef_of_ofNode? made] at plain
      cases plain
    have plain : head.isMacroDef = false := Bool.eq_false_iff.mpr own
    rw [none (n := .mk span head slots) plain, none (Node.isMacroDef_marked.trans (show (Node.mk span head slots).head.isMacroDef = _ from plain))]
    rfl

namespace Found

/-- What is found, with the calls of known names marked. -/
def marked (known : String → Bool) (f : Found) : Found :=
  { f with slots := f.slots.map (Slot.map (Node.marked known)) }

variable {known : String → Bool}

theorem marked_append (f g : Found) : (f ++ g).marked known = f.marked known ++ g.marked known := by
  show Found.mk _ _ _ = Found.mk _ _ _
  rw [append_slots, List.map_append]
  rfl

theorem nodes_marked (f : Found) : (f.marked known).nodes = f.nodes.map (Node.marked known) := by
  simp only [nodes, marked, List.flatMap_map, List.map_flatMap, Slot.toList_map]

theorem marked_listed (f : Found) : f.listed.marked known = (f.marked known).listed := by
  show Found.mk _ _ [.many _] = Found.mk _ _ [.many _]
  rw [nodes_marked]
  rfl

@[simp] theorem marked_nothing : nothing.marked known = nothing := rfl

@[simp] theorem marked_ofNode (n : Node) : (ofNode n).marked known = ofNode (n.marked known) := rfl

@[simp] theorem marked_ofNodes (ns : List Node) :
    (ofNodes ns).marked known = ofNodes (ns.map (Node.marked known)) := rfl

end Found

/-! ## Known macros -/

namespace Macros

theorem defines_append (k k' : Macros) (x : String) :
    (k ++ k').defines x = (k.defines x || k'.defines x) := List.any_append

/-- More macros known in front stay known behind the node. -/
theorem after_marked (k k' : Macros) (n : Node) :
    (k ++ k').after (n.marked k'.defines) = k.after n ++ k' := by
  unfold after
  rw [MacroDefinition.ofNode?_marked]
  cases MacroDefinition.ofNode? n <;> rfl

end Macros

/-- With more macros known, a left operand and the tail behind it are marked as well. -/
theorem Node.extended_marked (k k' : Macros) (m : Level) (n : Node) (f : Found) :
    (Node.extended k.defines default m n f).marked k'.defines =
      Node.extended (k ++ k').defines default m (n.marked k'.defines) (f.marked k'.defines) := by
  cases m
  case postfixed =>
    unfold Node.extended
    dsimp only
    by_cases named : ∃ x, n.head = .identifier x
    · obtain ⟨x, is⟩ := named
      have is' : (n.marked k'.defines).head = .identifier x := (head_marked rfl).mpr is
      rw [is, is']
      dsimp only
      rw [Macros.defines_append]
      cases k.defines x with
      | true => exact marked_plain (by simp)
      | false =>
        rw [Bool.false_or, if_neg (by simp), marked_call, mark_call, is']
        rfl
    · have other : ¬ ∃ x, (n.marked k'.defines).head = .identifier x :=
        fun ⟨x, is⟩ => named ⟨x, (head_marked rfl).mp is⟩
      have call : (mk default .call (.one n :: f.slots)).marked k'.defines =
          mk default .call (.one (n.marked k'.defines) :: (f.marked k'.defines).slots) := by
        rw [marked_call, mark_unnamed other]
        rfl
      split
      · exact absurd ⟨_, ‹_›⟩ named
      · split
        · exact absurd ⟨_, ‹_›⟩ other
        · exact call
  all_goals exact marked_plain (by simp)

/-! ## Derivations -/

theorem Found.marked_of_nodes {known : String → Bool} {f : Found} (none : f.nodes = []) :
    f.marked known = f := by
  have same (s : Slot Node) (hs : s ∈ f.slots) : s.map (Node.marked known) = s := by
    have empty : s.toList = [] := List.flatMap_eq_nil_iff.mp none s hs
    cases s with
    | absent => rfl
    | one n => cases empty
    | many ns =>
      obtain rfl : ns = [] := empty
      rfl
  unfold Found.marked
  rw [List.map_congr_left same, List.map_id']

/-- Behind definitions the words are derived as before, with the calls of these macros marked. -/
theorem Derives.marked {settings : Settings} {a : Phrase} {k₁ k₂ : Macros} {us : List Word} {f : Found}
    (h : Derives settings a k₁ us k₂ f) (declares : a.Declares) (k : Macros) :
    Derives settings a (k₁ ++ k) us (k₂ ++ k) (f.marked k.defines) := by
  induction h with
  | @give f _ =>
    rw [Found.marked_of_nodes]
    · exact .give
    · rw [Found.nodes_unplaced, show f.nodes = [] from declares, List.map_nil]
  | place => exact .place
  | mark => exact .mark
  | kept => exact .kept
  | spelled => exact .spelled
  | name => exact .name
  | starNil => exact .starNil
  | noStatement => exact .noStatement
  | @atom t n _ h =>
    have leaf : n.unplaced.head ≠ .call ∧ n.unplaced.slots = [] := by
      unfold Nonterminals.atom? at h
      split at h <;> cases h <;> exact ⟨fun call => Head.noConfusion call, rfl⟩
    rw [Found.marked_ofNode, Node.marked_leaf leaf.1 leaf.2]
    exact .atom h
  | @atomicPattern t n _ h =>
    have leaf : n.unplaced.head ≠ .call ∧ n.unplaced.slots = [] := by
      unfold Nonterminals.atomicPattern? at h
      split at h <;> cases h <;> exact ⟨fun call => Head.noConfusion call, rfl⟩
    rw [Found.marked_ofNode, Node.marked_leaf leaf.1 leaf.2]
    exact .atomicPattern h
  | seq _ _ iha ihb =>
    rw [Found.marked_append]
    exact .seq (iha declares.1) (ihb declares.2)
  | starCons _ _ iha ihb =>
    rw [Found.marked_append]
    exact .starCons (iha declares) (ihb declares)
  | left _ ih => exact .left (ih declares.1)
  | right _ ih => exact .right (ih declares.2)
  | bound _ ih => exact .bound (ih declares.1)
  | unbound _ ih => exact .unbound (ih declares.2)
  | gather _ ih => exact .gather (ih declares)
  | list _ ih =>
    rw [Found.marked_listed]
    exact .list (ih declares)
  | demand _ some ih =>
    refine .demand (ih declares) fun none => some ?_
    rwa [Found.nodes_marked, List.map_eq_nil_iff] at none
  | @node head a _ k₂ us f _ ih =>
    have whole := Macros.after_marked k₂ k (.mk default (head f.attributes) f.slots)
    have plain := @Node.marked_plain k.defines default _ f.slots (declares.1 f.attributes)
    rw [← whole, Found.marked_ofNode, plain]
    exact .node (ih declares.2.2)
  | chain _ ih =>
    rw [Found.marked_ofNode, Node.ofArms_marked]
    exact .chain (ih declares)
  | construct _ ih => exact .construct (ih declares)
  | operand h _ ih => exact .operand h (ih (Phrase.declares_operand h))
  | tighter h _ ih => exact .tighter h (ih trivial)
  | tail h _ _ iha ihb =>
    rw [Found.marked_ofNode, Node.extended_marked]
    exact .tail h (iha trivial) (ihb (Phrase.declares_tail h))
  | compositePattern h _ ih => exact .compositePattern h (ih (Phrase.declares_pattern h))
  | @binding n _ _ _ _ flawless ih =>
    have pattern : n.IsPattern := (Node.validPattern_of_flaw flawless).pattern
    have derived := ih trivial
    rw [Found.marked_ofNode, pattern.marked] at derived ⊢
    exact .binding derived flawless
  | body _ ih =>
    rw [Found.marked_ofNode, Node.block, Node.marked_plain (by simp)]
    exact .body (ih trivial)
  | statement h _ _ iha ihb =>
    exact .statement h (iha (Phrase.declares_statement h)) (ihb trivial)
  | expressionStmt _ _ free iha ihb =>
    exact .expressionStmt (iha Phrase.declares_expressionStmt) (ihb trivial) free

end GlyphScript
