import GlyphScript.Proofs.Parsing.Productions
import GlyphScript.Proofs.Safety.Sorts

/-!
# Sorts of phrases

What is found in a phrase follows the phrase, whichever tokens are read. From
the phrase alone it is computed which slots are found in it, so for every
production it is checked once that its node has the slots of its head.
-/

namespace GlyphScript

namespace Phrase

/-! ## What is found -/

/-- What can be found in the phrase, if what is found in its parts is as `N` says. -/
def Makes (N : Nonterminal → Found → Prop) : Phrase → Found → Prop
  | give g, f => f = g
  | place, f => ∃ l, f = .ofPlace l
  | mark _, f => f = .nothing
  | kept r, f => f = .ofMark r
  | spelled _, f | name _, f => ∃ x, f = .ofText x
  | part n, f => N n f
  | fail _, _ => False
  | seq a b, f => ∃ g h, a.Makes N g ∧ b.Makes N h ∧ f = g ++ h
  | either _ a b, f | ahead a b, f => a.Makes N f ∨ b.Makes N f
  | star _ a, f => ∃ fs, (∀ g ∈ fs, a.Makes N g) ∧ f = .join fs
  | gather a, f => ∃ g, a.Makes N g ∧ f = g.gathered
  | list a, f => ∃ g, a.Makes N g ∧ f = g.listed
  | demand a _, f => a.Makes N f ∧ f.nodes ≠ []
  | node head a, f => ∃ g span, a.Makes N g ∧ f = .ofNode (.mk span (head g.attributes) g.slots)
  | chain a, f => ∃ g span, a.Makes N g ∧ f = .ofNode (.ofArms span g.places g.slots)
  | construct _ a, f => a.Makes N f

end Phrase

/-! ## Which slots are found -/

/-- The category of the node that is found in the nonterminal, if it is just one node. -/
def Nonterminal.category? : Nonterminal → Option Category
  | expression _ => some .expression
  | pattern | binding => some .pattern
  | body => some .block
  | statement | statements => none

/-- One node of the category is found in the nonterminal. -/
def Nonterminal.Yields (n : Nonterminal) (f : Found) : Prop :=
  ∀ c ∈ n.category?, ∃ m, f = .ofNode m ∧ m.OfSort c

/-- Whether whatever is of the first category may stand where the second is asked for. -/
def Category.within (c : Category) : Category → Bool
  | .quoted => c = .quoted || c = .block || c = .expression
  | .alternative => c = .alternative || c = .block
  | c' => c = c'

theorem Category.admits_of_within {c c' : Category} {h : Head} (within : c.within c' = true)
    (hc : c.admits h = true) : c'.admits h = true := by
  cases c' with
  | quoted =>
    simp only [Category.within, Bool.or_eq_true, decide_eq_true_eq] at within
    obtain (rfl | rfl) | rfl := within
    · exact hc
    · simp [admits, of_decide_eq_true hc]
    · simp [admits, of_decide_eq_true hc]
  | alternative =>
    simp only [Category.within, Bool.or_eq_true, decide_eq_true_eq] at within
    obtain rfl | rfl := within
    · exact hc
    · simp [admits, of_decide_eq_true hc]
  | _ =>
    obtain rfl : c = _ := of_decide_eq_true within
    exact hc

namespace Phrase

/-- Whether nothing with a node in it is found in the phrase. -/
def bare : Phrase → Bool
  | give f => f.slots.isEmpty
  | place | mark _ | kept _ | spelled _ | name _ | fail _ => true
  | seq a b | either _ a b | ahead a b => a.bare && b.bare
  | star _ a | gather a => a.bare
  | _ => false

/-- Whether all nodes that are found in the phrase may stand where the category is asked for. -/
def holds (c : Category) : Phrase → Bool
  | give f => f.nodes.isEmpty
  | place | mark _ | kept _ | spelled _ | name _ | fail _ => true
  | part n => n.category?.any (·.within c)
  | seq a b | either _ a b | ahead a b => a.holds c && b.holds c
  | star _ a | gather a | list a | demand a _ | construct _ a => a.holds c
  | node head _ => c.admits (head {})
  | chain _ => c.admits .ifStmt

/-- The fields that are left when the first of them take the empty slots. -/
def skip : List (Slot Node) → List (Arity × Category) → Option (List (Arity × Category))
  | [], fields => some fields
  | .absent :: slots, (.optional, _) :: fields | .many [] :: slots, (.many, _) :: fields =>
    skip slots fields
  | _, _ => none

/-- The fields that are left when the first of them takes a node of the category. -/
def put (fits : Category → Bool) : List (Arity × Category) → Option (List (Arity × Category))
  | (.one, c) :: fields | (.optional, c) :: fields => if fits c then some fields else none
  | _ => none

/-- As `put`, for any number of nodes of the category. -/
def putMany (fits : Category → Bool) : List (Arity × Category) → Option (List (Arity × Category))
  | (.many, c) :: fields => if fits c then some fields else none
  | _ => none

/-- The fields that are left when the first of them take the slots that are found in the
phrase. -/
def fill : Phrase → List (Arity × Category) → Option (List (Arity × Category))
  | give f, fields => skip f.slots fields
  | place, fields | mark _, fields | kept _, fields | spelled _, fields | name _, fields
  | fail _, fields => some fields
  | part n, fields => put (fun c => n.category?.any (·.within c)) fields
  | seq a b, fields => (a.fill fields).bind b.fill
  | either _ a b, fields | ahead a b, fields =>
    if a.fill fields = b.fill fields then a.fill fields else none
  | star _ a, fields => if a.bare then some fields else none
  | gather a, fields | demand a _, fields | construct _ a, fields => a.fill fields
  | list a, fields => putMany (a.holds ·) fields
  | node head _, fields => put (·.admits (head {})) fields
  | chain _, fields => put (·.admits .ifStmt) fields

/-- In the phrase only sorted nodes are put together, and the sort of a node does not depend on
the names that are found. -/
def Typed (N : Nonterminal → Found → Prop) : Phrase → Prop
  | node head a => a.Typed N ∧ (∀ x, (head x).StandsFor (head {})) ∧
      ∀ f span, a.Makes N f → (Node.mk span (head f.attributes) f.slots).Sorted
  | chain a => a.Typed N ∧ ∀ f span, a.Makes N f →
      (Node.ofArms span f.places f.slots).OfSort .statement ∧
        (Node.ofArms span f.places f.slots).head = .ifStmt
  | seq a b | either _ a b | ahead a b => a.Typed N ∧ b.Typed N
  | star _ a | gather a | list a | demand a _ | construct _ a => a.Typed N
  | _ => True

/-! ## Soundness -/

section

variable {N : Nonterminal → Found → Prop} {a : Phrase} {f : Found}

theorem slots_of_bare (h : a.bare = true) (made : a.Makes N f) : f.slots = [] := by
  induction a generalizing f with
  | give g =>
    obtain rfl : f = g := made
    exact List.isEmpty_iff.mp h
  | place | spelled | name =>
    obtain ⟨_, rfl⟩ := made
    rfl
  | mark | kept =>
    obtain rfl : f = _ := made
    rfl
  | fail => exact made.elim
  | seq a b iha ihb =>
    obtain ⟨ha, hb⟩ := Bool.and_eq_true_iff.mp h
    obtain ⟨g, k, hg, hk, rfl⟩ := made
    rw [Found.append_slots, iha ha hg, ihb hb hk]
    rfl
  | either r a b iha ihb | ahead a b iha ihb =>
    obtain ⟨ha, hb⟩ := Bool.and_eq_true_iff.mp h
    exact made.elim (iha ha) (ihb hb)
  | star r a ih =>
    obtain ⟨fs, hfs, rfl⟩ := made
    induction fs with
    | nil => rfl
    | cons g fs ihf =>
      obtain ⟨hg, hfs⟩ := List.forall_mem_cons.mp hfs
      rw [Found.join, List.foldr_cons, Found.append_slots, ih h hg]
      exact ihf hfs
  | gather a ih =>
    obtain ⟨g, hg, rfl⟩ := made
    exact ih (f := g) h hg
  | part | list | demand | node | chain | construct => cases h

/-- The slots fill the first of the fields, and `rest` are left. -/
def Takes (slots : List (Slot Node)) (fields rest : List (Arity × Category)) : Prop :=
  ∃ front, fields = front ++ rest ∧ List.Forall₂ (fun f s => Slot.OfField f s) front slots

theorem Takes.nil {fields rest : List (Arity × Category)} (h : some fields = some rest) :
    Takes [] fields rest := ⟨[], Option.some.inj h, .nil⟩

theorem Takes.append {slots slots' : List (Slot Node)} {fields middle rest : List (Arity × Category)}
    (h : Takes slots fields middle) (h' : Takes slots' middle rest) :
    Takes (slots ++ slots') fields rest := by
  obtain ⟨front, rfl, filled⟩ := h
  obtain ⟨front', rfl, filled'⟩ := h'
  exact ⟨front ++ front', (List.append_assoc ..).symm, List.rel_append filled filled'⟩

theorem Takes.skip {slots : List (Slot Node)} {fields rest : List (Arity × Category)}
    (h : Phrase.skip slots fields = some rest) : Takes slots fields rest := by
  fun_induction Phrase.skip slots fields with
  | case1 fields => exact .nil h
  | case2 c fields slots ih =>
    obtain ⟨front, rfl, filled⟩ := ih h
    exact ⟨_ :: front, rfl, .cons ⟨.absent, List.forall_mem_nil _⟩ filled⟩
  | case3 c fields slots ih =>
    obtain ⟨front, rfl, filled⟩ := ih h
    exact ⟨_ :: front, rfl, .cons ⟨.many, List.forall_mem_nil _⟩ filled⟩
  | case4 => cases h

theorem Takes.put {fits : Category → Bool} {n : Node} {fields rest : List (Arity × Category)}
    (h : Phrase.put fits fields = some rest) (hn : ∀ c, fits c = true → n.OfSort c) :
    Takes [.one n] fields rest := by
  unfold Phrase.put at h
  split at h
  · split at h
    · cases h
      exact ⟨[_], rfl, .cons (.of_one (hn _ ‹_›)) .nil⟩
    · cases h
  · split at h
    · cases h
      refine ⟨[_], rfl, .cons ⟨.present, fun m hm => ?_⟩ .nil⟩
      exact List.mem_singleton.mp hm ▸ hn _ ‹_›
    · cases h
  · cases h

theorem Takes.putMany {fits : Category → Bool} {ns : List Node}
    {fields rest : List (Arity × Category)} (h : Phrase.putMany fits fields = some rest)
    (hns : ∀ c, fits c = true → ∀ n ∈ ns, n.OfSort c) : Takes [.many ns] fields rest := by
  unfold Phrase.putMany at h
  split at h
  · split at h
    · cases h
      exact ⟨[_], rfl, .cons (.of_many (hns _ ‹_›)) .nil⟩
    · cases h
  · cases h

variable (hN : ∀ n f, N n f → n.Yields f)
include hN

/-- The nodes found are of the category that is computed. -/
theorem nodes_of_holds {c : Category} (typed : a.Typed N) (h : a.holds c = true)
    (made : a.Makes N f) : ∀ n ∈ f.nodes, n.OfSort c := by
  have one {m n : Node} (hm : m.OfSort c) (hn : n ∈ (Found.ofNode m).nodes) : n.OfSort c :=
    List.mem_singleton.mp hn ▸ hm
  induction a generalizing f with
  | give g =>
    obtain rfl : f = g := made
    rw [List.isEmpty_iff.mp h]
    exact List.forall_mem_nil _
  | place | spelled | name =>
    obtain ⟨_, rfl⟩ := made
    exact List.forall_mem_nil _
  | mark | kept =>
    obtain rfl : f = _ := made
    exact List.forall_mem_nil _
  | fail => exact made.elim
  | part n =>
    obtain ⟨d, hd, within⟩ := (Option.any_eq_true ..).mp h
    obtain ⟨m, rfl, hm⟩ := hN n f made d hd
    exact fun _ => one ⟨hm.sorted, Category.admits_of_within within hm.admitted⟩
  | seq a b iha ihb =>
    obtain ⟨ha, hb⟩ := Bool.and_eq_true_iff.mp h
    obtain ⟨g, k, hg, hk, rfl⟩ := made
    rw [Found.nodes_append]
    exact fun n hn => (List.mem_append.mp hn).elim (iha typed.1 ha hg n) (ihb typed.2 hb hk n)
  | either r a b iha ihb | ahead a b iha ihb =>
    obtain ⟨ha, hb⟩ := Bool.and_eq_true_iff.mp h
    exact made.elim (iha typed.1 ha) (ihb typed.2 hb)
  | star r a ih =>
    obtain ⟨fs, hfs, rfl⟩ := made
    rw [Found.nodes_join]
    intro n hn
    obtain ⟨g, hg, hn⟩ := List.mem_flatMap.mp hn
    exact ih typed h (hfs g hg) n hn
  | gather a ih =>
    obtain ⟨g, hg, rfl⟩ := made
    exact ih (f := g) typed h hg
  | list a ih =>
    obtain ⟨g, hg, rfl⟩ := made
    rw [Found.nodes_listed]
    exact ih typed h hg
  | demand a what ih => exact ih typed h made.1
  | construct c a ih => exact ih typed h made
  | node head a ih =>
    obtain ⟨g, span, hg, rfl⟩ := made
    exact fun _ => one ⟨typed.2.2 g span hg, (typed.2.1 _).admits c h⟩
  | chain a ih =>
    obtain ⟨g, span, hg, rfl⟩ := made
    obtain ⟨sort, head⟩ := typed.2 g span hg
    exact fun _ => one ⟨sort.sorted, head ▸ h⟩

/-- The slots found take the fields that are computed. -/
theorem takes_of_fill {fields rest : List (Arity × Category)} (typed : a.Typed N)
    (h : a.fill fields = some rest) (made : a.Makes N f) : Takes f.slots fields rest := by
  induction a generalizing f fields rest with
  | give g =>
    obtain rfl : f = g := made
    exact .skip h
  | place | spelled | name =>
    obtain ⟨_, rfl⟩ := made
    exact .nil h
  | mark | kept =>
    obtain rfl : f = _ := made
    exact .nil h
  | fail => exact made.elim
  | part n =>
    obtain ⟨c, hc⟩ : ∃ c, n.category? = some c := by
      cases n <;> first | exact ⟨_, rfl⟩ | skip
      all_goals
        unfold fill put at h
        split at h <;> cases h
    obtain ⟨m, rfl, hm⟩ := hN n f made c hc
    refine .put h fun c' within => ⟨hm.sorted, ?_⟩
    rw [hc] at within
    exact Category.admits_of_within within hm.admitted
  | seq a b iha ihb =>
    obtain ⟨g, k, hg, hk, rfl⟩ := made
    obtain ⟨middle, ha, hb⟩ := Option.bind_eq_some_iff.mp h
    exact (iha typed.1 ha hg).append (ihb typed.2 hb hk)
  | either r a b iha ihb | ahead a b iha ihb =>
    rw [fill] at h
    split at h
    · rename_i same
      exact made.elim (iha typed.1 h) (ihb typed.2 (same ▸ h))
    · cases h
  | star r a ih =>
    rw [fill] at h
    split at h
    · rename_i isBare
      rw [slots_of_bare (a := .star r a) isBare made]
      exact .nil h
    · cases h
  | gather a ih =>
    obtain ⟨g, hg, rfl⟩ := made
    exact ih (f := g) typed h hg
  | demand a what ih => exact ih typed h made.1
  | construct c a ih => exact ih typed h made
  | list a =>
    obtain ⟨g, hg, rfl⟩ := made
    exact .putMany h fun c hc => nodes_of_holds (a := a) hN typed hc hg
  | node head a =>
    obtain ⟨g, span, hg, rfl⟩ := made
    exact .put h fun c hc => ⟨typed.2.2 g span hg, (typed.2.1 _).admits c hc⟩
  | chain a =>
    obtain ⟨g, span, hg, rfl⟩ := made
    obtain ⟨sort, head⟩ := typed.2 g span hg
    exact .put h fun c hc => ⟨sort.sorted, head ▸ hc⟩

/-- A node is sorted if the slots found are those of its head. -/
theorem typed_node {head : Attributes → Head} (typed : a.Typed N)
    (uniform : ∀ x, (head {}).SameSort (head x)) (full : a.fill (head {}).sorts = some []) :
    (node head a).Typed N := by
  refine ⟨typed, fun x => (uniform x).stands, fun f span made => Node.sorted_mk.mpr ?_⟩
  obtain ⟨front, fields, filled⟩ := takes_of_fill hN typed full made
  rw [(uniform _).sorts, fields, List.append_nil]
  exact filled

/-! ## Productions -/

omit hN

/-- Whether no node is put together in the phrase. -/
def flat : Phrase → Bool
  | seq a b | either _ a b | ahead a b => a.flat && b.flat
  | star _ a | gather a | list a | demand a _ | construct _ a => a.flat
  | node _ _ | chain _ => false
  | _ => true

theorem typed_of_flat (h : a.flat = true) : a.Typed N := by
  induction a with
  | seq a b iha ihb | either r a b iha ihb | ahead a b iha ihb =>
    obtain ⟨ha, hb⟩ := Bool.and_eq_true_iff.mp h
    exact ⟨iha ha, ihb hb⟩
  | star r a ih | gather a ih | list a ih | demand a what ih | construct c a ih => exact ih h
  | node | chain => cases h
  | give | place | mark | kept | spelled | name | part | fail => trivial

theorem typed_tail {r : Reserved} {m : Level} (h : tail? r = some (m, a)) : a.Typed N := by
  cases IsTail.of h <;> exact typed_of_flat rfl

include hN

theorem typed_quote : quote.Typed N := typed_node hN (typed_of_flat rfl) (fun _ => .refl _) rfl

theorem typed_comprehensionClause : comprehensionClause.Typed N :=
  typed_node hN (typed_of_flat rfl) (fun _ => ⟨rfl, fun c => by cases c <;> exact id, id⟩) rfl

theorem typed_operand {r : Reserved} (h : operand? r = some a) : a.Typed N := by
  cases IsOperand.of h
  case groupOpen => exact typed_of_flat rfl
  case compOpen =>
    have clause := typed_comprehensionClause hN
    exact typed_node hN ⟨trivial, trivial, ⟨clause, clause⟩, trivial⟩ (fun _ => .refl _) rfl
  all_goals
    exact typed_node hN (typed_of_flat rfl) (fun _ => ⟨rfl, fun c => by cases c <;> exact id, id⟩) rfl

theorem typed_pattern {r : Reserved} (h : pattern? r = some a) : a.Typed N := by
  cases IsComposite.of h <;> exact typed_node hN (typed_of_flat rfl) (fun _ => .refl _) rfl

theorem typed_exceptClause : exceptClause.Typed N :=
  typed_node hN (typed_of_flat rfl) (fun _ => .refl _) rfl

theorem typed_caseClause : caseClause.Typed N :=
  typed_node hN (typed_of_flat rfl) (fun _ => .refl _) rfl

/-- The template of a rule is a body behind the one arrow and an expression behind the other. -/
theorem typed_macroRule : macroRule.Typed N := by
  refine ⟨typed_of_flat rfl, fun _ => ⟨fun c => by cases c <;> exact id, id⟩, ?_⟩
  rintro f span ⟨_, _, rfl, ⟨_, _, hp, ⟨_, _, ht, rfl, rfl⟩, rfl⟩, rfl⟩
  obtain ⟨p, rfl, pattern⟩ := hN _ _ hp _ rfl
  rcases ht with ⟨_, _, rfl, hb, rfl⟩ | ⟨_, _, rfl, he, rfl⟩ | absurd
  · obtain ⟨b, rfl, body⟩ := hN _ _ hb _ rfl
    exact Node.sorted_mk.mpr (.cons (.of_one pattern) (.cons (.of_one body) .nil))
  · obtain ⟨e, rfl, expression⟩ := hN _ _ he _ rfl
    exact Node.sorted_mk.mpr (.cons (.of_one pattern) (.cons (.of_one expression) .nil))
  · exact absurd.elim

/-- Behind a target there is always a header. -/
theorem typed_loopStmt : loopStmt.Typed N := by
  refine ⟨typed_of_flat rfl, fun _ => ⟨fun c => by cases c <;> exact id, id⟩, ?_⟩
  rintro f span ⟨_, _, header, hb, rfl⟩
  obtain ⟨b, rfl, body⟩ := hN _ _ hb _ rfl
  rcases header with ⟨_, _, rfl, ⟨_, _, target, rfl, rfl⟩, rfl⟩ | rfl
  · rcases target with ⟨_, _, ⟨x, rfl⟩, ⟨_, _, rfl, he, rfl⟩, rfl⟩ | he
    · obtain ⟨e, rfl, iterable⟩ := hN _ _ he _ rfl
      exact Node.sorted_mk.mpr (.cons (.of_one iterable) (.cons (.of_one body) .nil))
    · obtain ⟨e, rfl, condition⟩ := hN _ _ he _ rfl
      refine Node.sorted_mk.mpr (.cons ⟨.present, fun m hm => ?_⟩ (.cons (.of_one body) .nil))
      exact List.mem_singleton.mp hm ▸ condition
  · exact Node.sorted_mk.mpr (.cons ⟨.absent, List.forall_mem_nil _⟩ (.cons (.of_one body) .nil))

/-- Further arms are nested in what happens otherwise. -/
theorem nestSlots_sorted {fs : List Found} (hfs : ∀ g ∈ fs, arm.Makes N g) (stop : Location)
    {s : Slot Node} (hs : s.OfField (.optional, .alternative)) :
    (Node.nestSlots stop (Found.join fs).places ((Found.join fs).slots ++ [s])).OfField
      (.optional, .alternative) := by
  induction fs with
  | nil => exact hs
  | cons g fs ih =>
    obtain ⟨hg, below⟩ := List.forall_mem_cons.mp hfs
    obtain ⟨_, _, ⟨l, rfl⟩, ⟨_, _, rfl, ⟨_, _, hc, hb, rfl⟩, rfl⟩, rfl⟩ := hg
    obtain ⟨c, rfl, condition⟩ := hN _ _ hc _ rfl
    obtain ⟨b, rfl, body⟩ := hN _ _ hb _ rfl
    refine ⟨.present, fun m hm => ?_⟩
    rw [List.mem_singleton.mp hm]
    exact ⟨Node.sorted_mk.mpr
      (.cons (.of_one condition) (.cons (.of_one body) (.cons (ih below) .nil))), rfl⟩

theorem typed_ifStmt : ifStmt.Typed N := by
  refine ⟨typed_of_flat rfl, ?_⟩
  rintro f span ⟨_, _, hc, ⟨_, _, hb, ⟨_, o, ⟨fs, hfs, rfl⟩, otherwise, rfl⟩, rfl⟩, rfl⟩
  obtain ⟨c, rfl, condition⟩ := hN _ _ hc _ rfl
  obtain ⟨b, rfl, body⟩ := hN _ _ hb _ rfl
  obtain ⟨s, found, places, hs⟩ : ∃ s, o.slots = [s] ∧ o.places = [] ∧
      s.OfField (.optional, .alternative) := by
    rcases otherwise with ⟨_, _, rfl, he, rfl⟩ | rfl
    · obtain ⟨e, rfl, last⟩ := hN _ _ he _ rfl
      refine ⟨.one e, rfl, rfl, .present, fun m hm => ?_⟩
      rw [List.mem_singleton.mp hm]
      exact ⟨last.sorted, Category.admits_of_within rfl last.admitted⟩
    · exact ⟨.absent, rfl, rfl, .absent, List.forall_mem_nil _⟩
  have made : Node.nestSlots span.stop (Found.join fs ++ o).places (Found.join fs ++ o).slots =
      Node.nestSlots span.stop (Found.join fs).places ((Found.join fs).slots ++ [s]) := by
    rw [Found.append_places, Found.append_slots, places, found, List.append_nil]
  refine ⟨⟨Node.sorted_mk.mpr (.cons (.of_one condition) (.cons (.of_one body)
    (.cons (made ▸ nestSlots_sorted hN hfs span.stop hs) .nil))), rfl⟩, rfl⟩

theorem typed_macroDef (settings : Settings) : (macroDef settings).Typed N := by
  have rule := typed_macroRule hN
  have quote := typed_quote hN
  refine typed_node hN ?_ (fun _ => ⟨rfl, fun c => by cases c <;> exact id, id⟩) rfl
  exact ⟨trivial, typed_of_flat rfl, typed_of_flat rfl, typed_of_flat rfl, ⟨trivial, quote⟩, rule, trivial⟩

theorem typed_statement {settings : Settings} {r : Reserved} (h : statement? settings r = some a) :
    a.Typed N := by
  cases IsStatement.of h
  case macroOpen => exact typed_macroDef hN settings
  case ifOpen => exact typed_ifStmt hN
  case loopOpen => exact typed_loopStmt hN
  case tryOpen =>
    have clause := typed_exceptClause hN
    exact typed_node hN ⟨trivial, clause, typed_of_flat rfl⟩ (fun _ => .refl _) rfl
  case matchOpen =>
    have clause := typed_caseClause hN
    exact typed_node hN ⟨trivial, clause, clause⟩ (fun _ => .refl _) rfl
  all_goals
    exact typed_node hN (typed_of_flat rfl) (fun _ => ⟨rfl, fun c => by cases c <;> exact id, id⟩) rfl

theorem typed_expressionStmt : expressionStmt.Typed N :=
  typed_node hN trivial (fun _ => .refl _) rfl

/-! ## Single nodes -/

theorem ofSort_of_holds {c : Category} {n : Node} (typed : a.Typed N) (h : a.holds c = true)
    (made : a.Makes N (.ofNode n)) : n.OfSort c :=
  nodes_of_holds hN typed h made n (List.mem_singleton_self n)

theorem operand_ofSort {r : Reserved} {n : Node} (h : operand? r = some a)
    (made : a.Makes N (.ofNode n)) : n.OfSort .expression :=
  ofSort_of_holds hN (typed_operand hN h) (by cases IsOperand.of h <;> rfl) made

theorem pattern_ofSort {r : Reserved} {n : Node} (h : pattern? r = some a)
    (made : a.Makes N (.ofNode n)) : n.OfSort .pattern :=
  ofSort_of_holds hN (typed_pattern hN h) (by cases IsComposite.of h <;> rfl) made

theorem statement_ofSort {settings : Settings} {r : Reserved} {n : Node}
    (h : statement? settings r = some a) (made : a.Makes N (.ofNode n)) : n.OfSort .statement :=
  ofSort_of_holds hN (typed_statement hN h) (by cases IsStatement.of h <;> rfl) made

theorem expressionStmt_ofSort {n : Node} (made : expressionStmt.Makes N (.ofNode n)) :
    n.OfSort .statement :=
  ofSort_of_holds hN (typed_expressionStmt hN) rfl made

/-- An expression and the tail behind it are an expression. -/
theorem extended_ofSort {r : Reserved} {m : Level} (h : tail? r = some (m, a))
    (made : a.Makes N f) (known : String → Bool) (span : Span) {n : Node}
    (hn : n.OfSort .expression) : (Node.extended known span m n f).OfSort .expression := by
  have typed := typed_tail (N := N) h
  have taken (fields : List (Arity × Category)) (full : a.fill fields = some []) :
      List.Forall₂ (fun f s => Slot.OfField f s) fields f.slots := by
    obtain ⟨front, rfl, filled⟩ := takes_of_fill hN typed full made
    rwa [List.append_nil]
  cases IsTail.of h
  case listOpen =>
    have args : List.Forall₂ (fun f s => Slot.OfField f s) [(.many, .expression)] f.slots :=
      taken _ rfl
    have call : (Node.mk span .call (.one n :: f.slots)).OfSort .expression :=
      ⟨Node.sorted_mk.mpr (.cons (.of_one hn) args), rfl⟩
    unfold Node.extended
    dsimp only
    split
    · split
      · exact ⟨Node.sorted_mk.mpr args, rfl⟩
      · exact call
    · exact call
  case condThen =>
    exact ⟨Node.sorted_mk.mpr (.cons (.of_one hn)
      (taken [(.one, .expression), (.one, .expression)] rfl)), rfl⟩
  all_goals
    exact ⟨Node.sorted_mk.mpr (.cons (.of_one hn) (taken [(.one, .expression)] rfl)), rfl⟩

end

end Phrase

theorem Nonterminals.atom?_ofSort {t : Token} {n : Node} (h : atom? t = some n) :
    n.OfSort .expression := by
  unfold atom? at h
  split at h <;> cases h <;> exact ⟨Node.sorted_mk.mpr .nil, rfl⟩

theorem Nonterminals.atomicPattern?_ofSort {t : Token} {n : Node} (h : atomicPattern? t = some n) :
    n.OfSort .pattern := by
  unfold atomicPattern? at h
  split at h <;> cases h <;> exact ⟨Node.sorted_mk.mpr .nil, rfl⟩

end GlyphScript
