import GlyphScript.Proofs.Macro.Bindings
import GlyphScript.Proofs.Macro.Renaming
import GlyphScript.Proofs.Pattern
import GlyphScript.Proofs.Safety.Sorts

/-!
# Matching with other names

What is looked up in bindings that have been added to others, and how a pattern
whose names have been changed matches: it binds the changed names to the same
trees, as long as no two of the names become one.
-/

namespace GlyphScript

/-- The map tells the names apart and makes none of them a wildcard or a wildcard a name. -/
structure Separates (σ : String → String) (S : String → Prop) : Prop where
  apart : ∀ x, S x → ∀ y, S y → σ x = σ y → x = y
  tame : ∀ x, S x → σ x = wildcard → x = wildcard
  wild : σ wildcard = wildcard

namespace Bindings

/-! ## Looking up -/

theorem lookup_bind (b : Bindings) (x : String) (n : Node) (y : String) :
    (b.bind x n).lookup y = if y = x then some n else b.lookup y := by
  induction b with
  | nil =>
    rw [bind, List.lookup_cons]
    by_cases same : y = x
    · simp [same]
    · simp [same, beq_false_of_ne same]
  | cons z b ih =>
    obtain ⟨z, m⟩ := z
    rw [bind]
    by_cases here : z = x
    · subst here
      rw [if_pos rfl, List.lookup_cons, List.lookup_cons]
      by_cases same : y = z
      · simp [same]
      · simp [same, beq_false_of_ne same]
    · rw [if_neg here, List.lookup_cons, List.lookup_cons, ih]
      by_cases same : y = z
      · simp [same, here]
      · simp [beq_false_of_ne same]

/-- Of a name's bindings the one added last counts. -/
theorem lookup_extend (b later : Bindings) (y : String) :
    (b.extend later).lookup y = (later.reverse.lookup y).or (b.lookup y) := by
  induction later generalizing b with
  | nil => rfl
  | cons z later ih =>
    obtain ⟨z, m⟩ := z
    have step : b.extend ((z, m) :: later) = (b.bind z m).extend later := rfl
    rw [step, ih, lookup_bind, List.reverse_cons, List.lookup_append, Option.or_assoc]
    congr 1
    rw [List.lookup_cons]
    by_cases same : y = z
    · simp [same]
    · simp [same, beq_false_of_ne same]

theorem lookup_eq_none {b : Bindings} {y : String} : b.lookup y = none ↔ y ∉ b.names := by
  rw [List.lookup_eq_none_iff, names, List.mem_map]
  constructor
  · rintro apart ⟨z, hz, rfl⟩
    simpa using apart z hz
  · intro out z hz
    simp only [bne_iff_ne, ne_eq]
    rintro rfl
    exact out ⟨z, hz, rfl⟩

theorem mem_names_bind {b : Bindings} {x : String} {n : Node} {y : String} :
    y ∈ (b.bind x n).names ↔ y = x ∨ y ∈ b.names := by
  rw [← not_iff_not, ← lookup_eq_none, lookup_bind, not_or, ← lookup_eq_none]
  by_cases same : y = x <;> simp [same]

/-! ## Other names -/

/-- The same trees under other names. -/
def rename (σ : String → String) (b : Bindings) : Bindings := b.map fun x => (σ x.1, x.2)

theorem names_rename (σ : String → String) (b : Bindings) : (b.rename σ).names = b.names.map σ := by
  simp [rename, names, Function.comp_def]

theorem reverse_rename (σ : String → String) (b : Bindings) :
    (b.rename σ).reverse = rename σ b.reverse := by
  simp [rename]

variable {σ : String → String} {b : Bindings} {x : String}

theorem bind_rename (apart : ∀ y ∈ b.names, σ y = σ x → y = x) (n : Node) :
    (b.bind x n).rename σ = (b.rename σ).bind (σ x) n := by
  induction b with
  | nil => rfl
  | cons z b ih =>
    have ih := ih fun y hy => apart y (List.mem_cons_of_mem _ hy)
    simp only [bind, rename, List.map_cons]
    by_cases here : z.1 = x
    · simp [here]
    · have other : σ z.1 ≠ σ x := fun same => here (apart z.1 List.mem_cons_self same)
      simp only [here, other, if_false, List.map_cons, List.cons.injEq, true_and]
      exact ih

theorem lookup_rename (apart : ∀ y ∈ b.names, σ y = σ x → y = x) :
    (b.rename σ).lookup (σ x) = b.lookup x := by
  induction b with
  | nil => rfl
  | cons z b ih =>
    have ih := ih fun y hy => apart y (List.mem_cons_of_mem _ hy)
    have here : σ z.1 = σ x → z.1 = x := apart z.1 List.mem_cons_self
    rw [rename, List.map_cons, List.lookup_cons, List.lookup_cons]
    by_cases same : x = z.1
    · simp [same]
    · have other : (σ x == σ z.1) = false := by
        simpa using fun e => same (here e.symm).symm
      have differs : (x == z.1) = false := by simp [same]
      rw [other, differs]
      exact ih

end Bindings

namespace Head

theorem isPattern_of_category {h : Head} (pattern : h.category? = some .pattern) :
    h.isPattern = true ∧ ∀ f ∈ h.sorts, f.2 = .pattern := by
  cases h <;> simp_all [category?, isPattern, sorts, fields]

theorem className_mapNames (f : String → String) (h : Head) :
    (h.mapNames f).className = h.className := by
  unfold mapNames withNames
  split <;> rfl

theorem mapNames_ne_bindPattern {f : String → String} {h : Head} (hh : ∀ x, h ≠ .bindPattern x)
    (x : String) : h.mapNames f ≠ .bindPattern x := by
  intro e
  have same := h.className_mapNames f
  rw [e] at same
  cases h <;> first | exact hh _ rfl | simp [className] at same

theorem mapNames_ne_literalPattern {f : String → String} {h : Head}
    (hh : ∀ value kind, h ≠ .literalPattern value kind) (value : Scalar) (kind : LiteralKind) :
    h.mapNames f ≠ .literalPattern value kind := by
  intro e
  have same := h.className_mapNames f
  rw [e] at same
  cases h <;> first | exact hh _ _ rfl | simp [className] at same

end Head

namespace Node

/-! ## Matching -/

theorem matchInto_other {head : Head} (name : ∀ x, head ≠ .bindPattern x)
    (literal : ∀ value kind, head ≠ .literalPattern value kind) (span : Span)
    (slots : List (Slot Node)) (n : Node) (b : Bindings) :
    (mk span head slots).matchInto n b =
      (elementsFor head n.unwrap).bind fun elements => matchSlots slots elements b := by
  unfold matchInto
  cases head
  case bindPattern x => exact absurd rfl (name x)
  case literalPattern value kind => exact absurd rfl (literal value kind)
  all_goals
    dsimp only
    cases elementsFor _ n.unwrap <;> rfl

theorem isPattern_of_elementsFor {pattern : Head} {n : Node} {elements : List Node}
    (h : elementsFor pattern n = some elements) : pattern.isPattern = true := by
  unfold elementsFor at h
  split at h <;> first | rfl | cases h

theorem elementsFor_mapNames (f : String → String) (pattern : Head) (n : Node) :
    elementsFor (pattern.mapNames f) n = elementsFor pattern n := by
  cases pattern
  case importDecl path alias? => cases alias? <;> rfl
  case loopStmt target => cases target <;> rfl
  all_goals rfl

variable {f : Nat → String → String} {depth : Nat} {S : String → Prop}

theorem matchList_mapNames {ps : List Node}
    (step : ∀ p ∈ ps, ∀ (n : Node) (b : Bindings), (∀ x ∈ b.names, S x) →
      (p.mapNames f depth).matchInto n (b.rename (f depth)) =
        (p.matchInto n b).map (Bindings.rename (f depth)) ∧
      ∀ b', p.matchInto n b = some b' → ∀ x ∈ b'.names, S x)
    (ns : List Node) (b : Bindings) (hb : ∀ x ∈ b.names, S x) :
    matchList (ps.map (·.mapNames f depth)) ns (b.rename (f depth)) =
        (matchList ps ns b).map (Bindings.rename (f depth)) ∧
      ∀ b', matchList ps ns b = some b' → ∀ x ∈ b'.names, S x := by
  induction ps generalizing ns b with
  | nil =>
    cases ns with
    | nil => exact ⟨rfl, fun b' made => by cases made; exact hb⟩
    | cons n ns => exact ⟨rfl, fun b' made => by cases made⟩
  | cons p ps ih =>
    cases ns with
    | nil => exact ⟨rfl, fun b' made => by cases made⟩
    | cons n ns =>
      obtain ⟨first, known⟩ := step p List.mem_cons_self n b hb
      rw [List.map_cons, matchList, matchList, first]
      cases made : p.matchInto n b with
      | none => exact ⟨rfl, fun b' made => by cases made⟩
      | some b₁ =>
        exact ih (fun q hq => step q (List.mem_cons_of_mem _ hq)) ns b₁ (known b₁ made)

/-- A pattern with other names binds these to the same trees. -/
theorem matchInto_mapNames (separates : Separates (f depth) S) (pattern : Node)
    (names : ∀ x ∈ pattern.bindNames, S x) (n : Node) (b : Bindings) (hb : ∀ x ∈ b.names, S x) :
    (pattern.mapNames f depth).matchInto n (b.rename (f depth)) =
        (pattern.matchInto n b).map (Bindings.rename (f depth)) ∧
      ∀ b', pattern.matchInto n b = some b' → ∀ x ∈ b'.names, S x := by
  induction pattern using induction_on generalizing n b with
  | step span head slots ih =>
    have composite : head.innerDepth depth = depth → ∀ es,
        matchSlots (slots.map (Slot.map fun m => m.mapNames f (head.innerDepth depth))) es
            (b.rename (f depth)) =
          (matchSlots slots es b).map (Bindings.rename (f depth)) ∧
        ∀ b', matchSlots slots es b = some b' → ∀ x ∈ b'.names, S x := by
      intro same es
      rw [same]
      unfold matchSlots
      rcases slots with _ | ⟨⟨⟩ | m | ps, _ | ⟨s, slots⟩⟩
      case cons.many.nil =>
        refine matchList_mapNames (fun p hp n b hb => ?_) es b hb
        refine ih _ List.mem_cons_self p hp (fun x hx => names x ?_) n b hb
        rw [bindNames_mk]
        apply List.mem_append_right
        exact List.mem_flatMap.mpr ⟨_, List.mem_cons_self, List.mem_flatMap.mpr ⟨p, hp, hx⟩⟩
      all_goals exact ⟨rfl, fun b' made => by cases made⟩
    by_cases isName : ∃ x, head = .bindPattern x
    · obtain ⟨x, rfl⟩ := isName
      have own : S x := names x (by rw [bindNames_mk]; exact List.mem_cons_self)
      have tame : f depth x = wildcard ↔ x = wildcard :=
        ⟨separates.tame x own, fun e => by rw [e, separates.wild]⟩
      have renamed : (mk span (.bindPattern x) slots).mapNames f depth =
          mk span (.bindPattern (f depth x)) (slots.map (Slot.map fun n => n.mapNames f depth)) :=
        mapNames_mk f
      rw [renamed, matchInto, matchInto]
      by_cases wild : x = wildcard
      · rw [if_pos (tame.mpr wild), if_pos wild]
        exact ⟨rfl, fun b' made => by cases made; exact hb⟩
      · rw [if_neg (fun e => wild (tame.mp e)), if_neg wild]
        have bound : ∀ y ∈ b.names, f depth y = f depth x → y = x := fun y hy =>
          separates.apart y (hb y hy) x own
        refine ⟨?_, fun b' made y hy => ?_⟩
        · rw [Option.map_some, Bindings.bind_rename bound]
        · cases made
          obtain ⟨z, hz, rfl⟩ := List.mem_map.mp hy
          rcases Bindings.mem_bind hz with old | rfl
          · exact hb _ (List.mem_map_of_mem old)
          · exact own
    by_cases isLiteral : ∃ value kind, head = .literalPattern value kind
    · obtain ⟨value, kind, rfl⟩ := isLiteral
      have renamed : (mk span (.literalPattern value kind) slots).mapNames f depth =
          mk span (.literalPattern value kind) (slots.map (Slot.map fun n => n.mapNames f depth)) :=
        mapNames_mk f
      rw [renamed, matchInto, matchInto]
      split
      · split
        · exact ⟨rfl, fun b' made => by cases made; exact hb⟩
        · exact ⟨rfl, fun b' made => by cases made⟩
      · exact ⟨rfl, fun b' made => by cases made⟩
    · have name : ∀ x, head ≠ .bindPattern x := fun x e => isName ⟨x, e⟩
      have literal : ∀ value kind, head ≠ .literalPattern value kind :=
        fun value kind e => isLiteral ⟨value, kind, e⟩
      rw [mapNames_mk, matchInto_other name literal, matchInto_other
        (Head.mapNames_ne_bindPattern name) (Head.mapNames_ne_literalPattern literal),
        elementsFor_mapNames]
      cases elements : elementsFor head n.unwrap with
      | none => exact ⟨rfl, fun b' made => by cases made⟩
      | some es => exact composite (Head.innerDepth_of_isPattern (isPattern_of_elementsFor elements) _) es

/-- What a pattern binds when it matches: all its variables, and nothing that was bound is lost. -/
structure Binds (pattern : Node) (b b' : Bindings) : Prop where
  old : ∀ y ∈ b.names, y ∈ b'.names
  new : ∀ y ∈ pattern.bindNames, y ≠ wildcard → y ∈ b'.names

theorem matchList_binds {ps : List Node} (step : ∀ p ∈ ps, ∀ (n : Node) (b b' : Bindings),
      p.matchInto n b = some b' → p.Binds b b') {ns : List Node} {b b' : Bindings}
    (h : matchList ps ns b = some b') :
    (∀ y ∈ b.names, y ∈ b'.names) ∧
      ∀ p ∈ ps, ∀ y ∈ p.bindNames, y ≠ wildcard → y ∈ b'.names := by
  induction ps generalizing ns b with
  | nil =>
    cases ns with
    | nil =>
      cases h
      exact ⟨fun y hy => hy, by simp⟩
    | cons n ns => cases h
  | cons p ps ih =>
    cases ns with
    | nil => cases h
    | cons n ns =>
      rw [matchList] at h
      cases first : p.matchInto n b with
      | none =>
        rw [first] at h
        cases h
      | some b₁ =>
        rw [first] at h
        have here := step p List.mem_cons_self n b b₁ first
        obtain ⟨kept, rest⟩ := ih (fun q hq => step q (List.mem_cons_of_mem _ hq)) h
        refine ⟨fun y hy => kept y (here.old y hy), fun q hq y hy tame => ?_⟩
        rcases List.mem_cons.mp hq with rfl | hq
        · exact kept y (here.new y hy tame)
        · exact rest q hq y hy tame

/-- In the place of a pattern there are nothing but patterns. -/
theorem OfSort.isPattern {p : Node} (h : p.OfSort .pattern) : p.IsPattern := by
  induction p using induction_on with
  | step span head slots ih =>
    obtain ⟨own, below⟩ := Head.isPattern_of_category (of_decide_eq_true h.admitted)
    refine isPattern_mk.mpr ⟨own, fun s hs m hm => ih s hs m hm ?_⟩
    obtain ⟨f, hf, sort⟩ := h.sorted.child hs hm
    rwa [below f hf] at sort

/-- Only patterns have elements. -/
theorem OfSort.pattern_cases {span : Span} {head : Head} {slots : List (Slot Node)}
    (h : (Node.mk span head slots).OfSort .pattern) :
    slots = [] ∧ ((∃ x, head = .bindPattern x) ∨ ∃ value kind, head = .literalPattern value kind) ∨
      (∀ x, head ≠ .bindPattern x) ∧ (∀ value kind, head ≠ .literalPattern value kind) ∧
        ∃ ps, slots = [.many ps] ∧ ∀ p ∈ ps, p.OfSort .pattern := by
  obtain ⟨sorted, admitted⟩ := h
  have fields := sorted_mk.mp sorted
  cases head
  case bindPattern x =>
    cases fields
    exact .inl ⟨rfl, .inl ⟨x, rfl⟩⟩
  case literalPattern value kind =>
    cases fields
    exact .inl ⟨rfl, .inr ⟨value, kind, rfl⟩⟩
  case tuplePattern | tensorShapePattern | graphPattern | streamPattern =>
    obtain _ | ⟨field, ⟨⟩⟩ := fields
    obtain ⟨ps, rfl, hps⟩ := field.many
    exact .inr ⟨by simp, by simp, ps, rfl, hps⟩
  all_goals cases admitted

theorem bindNames_leaf {span : Span} {head : Head} {y : String}
    (h : y ∈ (mk span head []).bindNames) : head = .bindPattern y := by
  rw [bindNames_mk] at h
  cases head <;> simp [Head.bindName?] at h
  rw [h]

theorem matchInto_binds {pattern : Node} (hp : pattern.OfSort .pattern) {n : Node}
    {b b' : Bindings} (h : pattern.matchInto n b = some b') : pattern.Binds b b' := by
  induction pattern using induction_on generalizing n b b' with
  | step span head slots ih =>
    obtain ⟨rfl, ⟨x, rfl⟩ | ⟨value, kind, rfl⟩⟩ | ⟨name, literal, ps, rfl, hps⟩ := hp.pattern_cases
    · rw [matchInto] at h
      by_cases wild : x = wildcard
      · rw [if_pos wild] at h
        cases h
        refine ⟨fun y hy => hy, fun y hy tame => ?_⟩
        cases bindNames_leaf hy
        exact absurd wild tame
      · rw [if_neg wild] at h
        cases h
        refine ⟨fun y hy => ?_, fun y hy _ => ?_⟩
        · exact Bindings.mem_names_bind.mpr (.inr hy)
        · cases bindNames_leaf hy
          exact Bindings.mem_names_bind.mpr (.inl rfl)
    · rw [matchInto] at h
      refine ⟨fun y hy => ?_, fun y hy _ => by cases bindNames_leaf hy⟩
      split at h
      · split at h
        · cases h
          exact hy
        · cases h
      · cases h
    · rw [matchInto_other name literal] at h
      obtain ⟨elements, -, matched⟩ := Option.bind_eq_some_iff.mp h
      obtain ⟨old, new⟩ := matchList_binds (fun p hp n b b' => ih _ List.mem_cons_self p hp
        (hps p hp)) matched
      refine ⟨old, fun y hy tame => ?_⟩
      have none : head.bindName? = none := by
        cases head <;> first | rfl | exact absurd rfl (name _)
      rw [bindNames_mk, none, Option.toList_none, List.nil_append, List.flatMap_singleton] at hy
      obtain ⟨p, hp, hy⟩ := List.mem_flatMap.mp hy
      exact new p hp y hy tame

end Node

end GlyphScript
