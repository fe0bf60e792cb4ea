import GlyphScript.Proofs.Macro.Matching

/-!
# Instances of patterns

What a pattern says of a tree, without a word about the order in which matching
goes about it. A pattern matches just the trees that are instances of it, and
its variables are bound from left to right to what stands in their places.
-/

namespace GlyphScript

/-- The tree has the form that a composite pattern asks for, with these elements. -/
inductive Head.Holds : (pattern : Head) → Node → List Node → Prop where
  | tuple {span es} : Holds .tuplePattern (.mk span .tupleLiteral [.many es]) es
  | tensor {span es} : Holds .tensorShapePattern (.mk span .tensorLiteral [.many es]) es
  | shape {span x es body} :
    Holds .tensorShapePattern (.mk span (.tensorDecl x) [.many es, .one body]) es
  | network {span x place injected es} :
    Holds .graphPattern (.mk span (.neuralNet x) [.one (.mk place (.block injected) [.many es])]) es
  | stream {span source place injected es} :
    Holds .streamPattern
      (.mk span .streamStmt [.one source, .one (.mk place (.block injected) [.many es])])
      (source :: es)

/-- The tree is an instance of the pattern, where the bindings say what stands in the places of the
variables. -/
inductive Node.Instance (b : Bindings) : (pattern n : Node) → Prop where
  | anything {span n} : Instance b (.mk span (.bindPattern wildcard) []) n
  | name {span x n} : x ≠ wildcard → b.lookup x = some n.unwrap →
    Instance b (.mk span (.bindPattern x) []) n
  | literal {span place value value' kind n} :
    n.unwrap = .mk place (.literal value' kind) [] → value'.agrees value = true →
    Instance b (.mk span (.literalPattern value kind) []) n
  | composite {span head ps n es} : head.Holds n.unwrap es →
    List.Forall₂ (Instance b) ps es → Instance b (.mk span head [.many ps]) n

/-- Whether the value is of the type that the kind says. -/
def LiteralKind.holds : LiteralKind → Scalar → Bool
  | .number, .integer _ | .string, .text _ | .boolean, .flag _ | .null, .nothing => true
  | _, _ => false

/-- Whether a literal holds a value of the type that its kind says, as the literals of the language
do. -/
def Head.isTyped : Head → Bool
  | .literal value kind | .literalPattern value kind => kind.holds value
  | _ => true

/-- The literals of the tree hold values of the types that their kinds say. -/
def Node.Typed (n : Node) : Prop := ∀ m ∈ n.walk, m.head.isTyped = true

instance (n : Node) : Decidable n.Typed :=
  inferInstanceAs (Decidable (∀ m ∈ n.walk, m.head.isTyped = true))

/-- For values of one type to agree is to be equal. -/
theorem Scalar.agrees_iff {value value' : Scalar} {kind : LiteralKind}
    (h : kind.holds value = true) (h' : kind.holds value' = true) :
    value'.agrees value = true ↔ value' = value := by
  cases kind <;> cases value <;> cases value' <;>
    simp_all [LiteralKind.holds, agrees, asInteger?]
  case boolean.flag.flag b b' => cases b <;> cases b' <;> simp

namespace Bindings

variable {b c : Bindings} {x : String} {n : Node}

theorem bind_of_fresh (fresh : x ∉ b.names) : b.bind x n = b ++ [(x, n)] := by
  induction b with
  | nil => rfl
  | cons z b ih =>
    have here : z.1 ≠ x := fun same => fresh (same ▸ List.mem_cons_self)
    rw [bind, if_neg here, ih fun there => fresh (List.mem_cons_of_mem _ there)]
    rfl

theorem names_append : (b ++ c).names = b.names ++ c.names := List.map_append ..

theorem lookup_append_left (h : x ∈ b.names) : (b ++ c).lookup x = b.lookup x := by
  obtain ⟨m, hm⟩ := Option.ne_none_iff_exists'.mp fun none => lookup_eq_none.mp none h
  rw [List.lookup_append, hm]
  rfl

theorem lookup_append_right (h : x ∉ b.names) : (b ++ c).lookup x = c.lookup x := by
  rw [List.lookup_append, lookup_eq_none.mpr h]
  rfl

/-- To be bound to what `σ` says. -/
def ofNames (σ : String → Node) (xs : List String) : Bindings := xs.map fun x => (x, σ x)

theorem names_ofNames (σ : String → Node) (xs : List String) : (ofNames σ xs).names = xs := by
  simp [names, ofNames, Function.comp_def]

theorem lookup_ofNames {σ : String → Node} {xs : List String} (h : x ∈ xs) :
    (ofNames σ xs).lookup x = some (σ x) := by
  induction xs with
  | nil => cases h
  | cons y xs ih =>
    rw [ofNames, List.map_cons, List.lookup_cons]
    by_cases same : x = y
    · simp [same]
    · rw [beq_false_of_ne same]
      exact ih ((List.mem_cons.mp h).resolve_left same)

end Bindings

theorem Head.admits_of_isPattern {h : Head} (pattern : h.isPattern = true) :
    Category.pattern.admits h = true := by
  cases h <;> first | rfl | cases pattern

theorem Head.Holds.composite {pattern : Head} {n : Node} {es : List Node} (h : pattern.Holds n es) :
    (∀ x, pattern ≠ .bindPattern x) ∧ ∀ value kind, pattern ≠ .literalPattern value kind := by
  cases h <;> simp

namespace Node

variable {n : Node} {b b' c : Bindings}

/-! ## Elements -/

theorem OfSort.block {body : Node} (h : body.OfSort .block) :
    ∃ place injected, body = .mk place (.block injected) [.many body.statements] := by
  obtain ⟨place, head, slots⟩ := body
  have admitted := h.admitted
  cases head
  case block injected =>
    obtain _ | ⟨field, ⟨⟩⟩ := sorted_mk.mp h.sorted
    obtain ⟨es, rfl, -⟩ := field.many
    exact ⟨place, injected, rfl⟩
  all_goals cases admitted

/-- The elements that matching finds are those that the tree has. -/
theorem holds_iff {pattern : Head} (hn : n.Sorted) {es : List Node} :
    pattern.Holds n es ↔ elementsFor pattern n = some es := by
  constructor
  · intro h
    cases h <;> rfl
  · intro h
    obtain ⟨span, head, slots⟩ := n
    unfold elementsFor at h
    dsimp only [Node.head, Node.slots] at h
    split at h <;> cases h
    · exact .tuple
    · exact .tensor
    · obtain _ | ⟨-, _ | ⟨body, ⟨⟩⟩⟩ := sorted_mk.mp hn
      obtain ⟨body, rfl, -⟩ := body.one
      exact .shape
    · rename_i body
      obtain _ | ⟨field, ⟨⟩⟩ := sorted_mk.mp hn
      obtain ⟨place, injected, made⟩ := (field.children _ (List.mem_singleton_self body)).block
      rw [made]
      exact .network
    · rename_i source body
      obtain _ | ⟨-, _ | ⟨field, ⟨⟩⟩⟩ := sorted_mk.mp hn
      obtain ⟨place, injected, made⟩ := (field.children _ (List.mem_singleton_self body)).block
      rw [made]
      exact .stream

theorem Sorted.literal {value : Scalar} {kind : LiteralKind} (hn : n.Sorted)
    (is : n.head = .literal value kind) : n = .mk n.span (.literal value kind) [] := by
  obtain ⟨span, head, slots⟩ := n
  obtain rfl : head = .literal value kind := is
  cases sorted_mk.mp hn
  rfl

/-! ## Variables -/

theorem patternVariables_name {span : Span} {x : String} (tame : x ≠ wildcard) :
    (mk span (.bindPattern x) []).patternVariables = [x] := by
  rw [patternVariables_eq, bindNames_mk]
  simp [Head.bindName?, tame]

theorem patternVariables_anything {span : Span} :
    (mk span (.bindPattern wildcard) []).patternVariables = [] := by
  rw [patternVariables_eq, bindNames_mk]
  simp [Head.bindName?]

theorem patternVariables_literal {span : Span} {value : Scalar} {kind : LiteralKind} :
    (mk span (.literalPattern value kind) []).patternVariables = [] := by
  rw [patternVariables_eq, bindNames_mk]
  rfl

/-- The variables of a composite pattern are those of its elements, one after the other. -/
theorem patternVariables_composite {span : Span} {head : Head} (name : ∀ x, head ≠ .bindPattern x)
    (ps : List Node) :
    (mk span head [.many ps]).patternVariables = ps.flatMap patternVariables := by
  have none : head.bindName? = none := by
    cases head <;> first | rfl | exact absurd rfl (name _)
  rw [patternVariables_eq, bindNames_mk, none, Option.toList_none, List.nil_append,
    List.flatMap_singleton, Slot.toList, List.filter_flatMap]
  exact List.flatMap_congr fun p _ => (patternVariables_eq p).symm

theorem instance_name_iff {span : Span} {x : String} (tame : x ≠ wildcard) :
    (mk span (.bindPattern x) []).Instance b n ↔ b.lookup x = some n.unwrap := by
  refine ⟨fun h => ?_, .name tame⟩
  cases h with
  | anything => exact absurd rfl tame
  | name _ stands => exact stands

/-- What stands in other places than those of the variables does not matter. -/
theorem Instance.congr {p : Node} (h : p.Instance b n)
    (same : ∀ x ∈ p.patternVariables, b.lookup x = c.lookup x) : p.Instance c n := by
  induction p using induction_on generalizing n with
  | step span head slots ih =>
    cases h with
    | anything => exact .anything
    | name tame stands =>
      rw [patternVariables_name tame] at same
      exact .name tame ((same _ List.mem_cons_self).symm.trans stands)
    | literal literal agrees => exact .literal literal agrees
    | @composite _ _ ps _ es holds elements =>
      rw [patternVariables_composite holds.composite.1] at same
      refine .composite holds (forall₂_imp_of_mem elements fun p hp e he => ?_)
      exact ih _ List.mem_cons_self p hp he fun x hx => same x (List.mem_flatMap.mpr ⟨p, hp, hx⟩)

/-- In the place of a variable stands something. -/
theorem Instance.bound {p : Node} (h : p.Instance b n) {x : String} (hx : x ∈ p.patternVariables) :
    ∃ m, b.lookup x = some m := by
  induction p using induction_on generalizing n with
  | step span head slots ih =>
    cases h with
    | anything =>
      rw [patternVariables_anything] at hx
      cases hx
    | name tame stands =>
      rw [patternVariables_name tame] at hx
      exact ⟨_, List.mem_singleton.mp hx ▸ stands⟩
    | literal =>
      rw [patternVariables_literal] at hx
      cases hx
    | @composite _ _ ps _ es holds elements =>
      rw [patternVariables_composite holds.composite.1] at hx
      obtain ⟨p, hp, hx⟩ := List.mem_flatMap.mp hx
      obtain ⟨e, -, he⟩ := exists_of_mem_right elements.flip hp
      exact ih _ List.mem_cons_self p hp he hx

/-- The variables of the first element are bound by the first part of the bindings, and those of the
others, which are different, by the rest. -/
theorem instance_cons_iff {p e : Node} {ps es : List Node} (names : b.names = p.patternVariables)
    (nodup : (p.patternVariables ++ ps.flatMap patternVariables).Nodup) :
    List.Forall₂ (Instance (b ++ c)) (p :: ps) (e :: es) ↔
      p.Instance b e ∧ List.Forall₂ (Instance c) ps es := by
  have here : ∀ x ∈ p.patternVariables, (b ++ c).lookup x = b.lookup x := fun x hx =>
    Bindings.lookup_append_left (names ▸ hx)
  have there : ∀ q ∈ ps, ∀ x ∈ q.patternVariables, (b ++ c).lookup x = c.lookup x :=
    fun q hq x hx => Bindings.lookup_append_right fun again =>
      (List.nodup_append.mp nodup).2.2 x (names ▸ again) x (List.mem_flatMap.mpr ⟨q, hq, hx⟩) rfl
  rw [List.forall₂_cons]
  constructor
  · rintro ⟨first, rest⟩
    exact ⟨first.congr here, forall₂_imp_of_mem rest fun q hq e h => h.congr (there q hq)⟩
  · rintro ⟨first, rest⟩
    exact ⟨first.congr fun x hx => (here x hx).symm,
      forall₂_imp_of_mem rest fun q hq e h => h.congr fun x hx => (there q hq x hx).symm⟩

/-! ## Matching -/

theorem matchList_cons (p e : Node) (ps es : List Node) (b : Bindings) :
    matchList (p :: ps) (e :: es) b = (p.matchInto e b).bind (matchList ps es) := by
  rw [matchList]
  cases p.matchInto e b <;> rfl

/-- The elements match if they are instances, and what they bind comes behind what is bound. -/
theorem matchList_iff {ps es : List Node} {b b' : Bindings}
    (step : ∀ p ∈ ps, ∀ {n : Node} {b b' : Bindings}, n.Sorted →
      (b.names ++ p.patternVariables).Nodup →
      (p.matchInto n b = some b' ↔
        ∃ c, b' = b ++ c ∧ c.names = p.patternVariables ∧ p.Instance c n))
    (hes : ∀ e ∈ es, e.Sorted) (nodup : (b.names ++ ps.flatMap patternVariables).Nodup) :
    matchList ps es b = some b' ↔ ∃ c, b' = b ++ c ∧ c.names = ps.flatMap patternVariables ∧
      List.Forall₂ (Instance c) ps es := by
  induction ps generalizing es b with
  | nil =>
    cases es with
    | nil =>
      constructor
      · rintro ⟨⟩
        exact ⟨[], (List.append_nil _).symm, rfl, .nil⟩
      · rintro ⟨c, rfl, none, -⟩
        rw [List.map_eq_nil_iff.mp none, List.append_nil]
        rfl
    | cons e es =>
      constructor
      · rintro ⟨⟩
      · rintro ⟨_, _, _, ⟨⟩⟩
  | cons p ps ih =>
    cases es with
    | nil =>
      constructor
      · rintro ⟨⟩
      · rintro ⟨_, _, _, ⟨⟩⟩
    | cons e es =>
      obtain ⟨he, hes⟩ := List.forall_mem_cons.mp hes
      rw [List.flatMap_cons] at nodup ⊢
      have apart := (List.nodup_append.mp nodup).2.1
      rw [← List.append_assoc] at nodup
      have first (b₁ : Bindings) : p.matchInto e b = some b₁ ↔ _ :=
        step p List.mem_cons_self he (nodup.sublist (List.sublist_append_left ..))
      have rest {d : Bindings} (names : d.names = p.patternVariables) :
          matchList ps es (b ++ d) = some b' ↔ _ :=
        ih (fun q hq => step q (List.mem_cons_of_mem _ hq)) hes
          (by rwa [Bindings.names_append, names])
      rw [matchList_cons, Option.bind_eq_some_iff]
      constructor
      · rintro ⟨b₁, matched, others⟩
        obtain ⟨d, rfl, names, inst⟩ := (first b₁).mp matched
        obtain ⟨c, rfl, names', insts⟩ := (rest names).mp others
        refine ⟨d ++ c, List.append_assoc .., ?_, (instance_cons_iff names apart).mpr ⟨inst, insts⟩⟩
        rw [Bindings.names_append, names, names']
      · rintro ⟨c, rfl, names, insts⟩
        obtain ⟨d, c, rfl, names, names'⟩ := List.map_eq_append_iff.mp names
        obtain ⟨inst, insts⟩ := (instance_cons_iff names apart).mp insts
        exact ⟨b ++ d, (first _).mpr ⟨d, rfl, names, inst⟩,
          (rest names).mpr ⟨c, (List.append_assoc ..).symm, names', insts⟩⟩

/-- A pattern matches the trees that are instances of it, and what it binds comes behind what is
bound. -/
theorem matchInto_iff {p : Node} (hp : p.OfSort .pattern) (hn : n.Sorted)
    (nodup : (b.names ++ p.patternVariables).Nodup) :
    p.matchInto n b = some b' ↔
      ∃ c, b' = b ++ c ∧ c.names = p.patternVariables ∧ p.Instance c n := by
  induction p using induction_on generalizing n b b' with
  | step span head slots ih =>
    have unwrapped : n.unwrap.Sorted := hn.of_mem_walk n.unwrap_mem_walk
    obtain ⟨rfl, ⟨x, rfl⟩ | ⟨value, kind, rfl⟩⟩ | ⟨name, literal, ps, rfl, hps⟩ := hp.pattern_cases
    · rw [matchInto]
      by_cases wild : x = wildcard
      · subst wild
        rw [if_pos rfl, patternVariables_anything]
        constructor
        · rintro ⟨⟩
          exact ⟨[], (List.append_nil b).symm, rfl, .anything⟩
        · rintro ⟨c, rfl, none, -⟩
          rw [List.map_eq_nil_iff.mp none, List.append_nil]
      · rw [patternVariables_name wild] at nodup ⊢
        have fresh : x ∉ b.names := fun old =>
          (List.nodup_append.mp nodup).2.2 x old x List.mem_cons_self rfl
        rw [if_neg wild, Bindings.bind_of_fresh fresh]
        constructor
        · rintro ⟨⟩
          exact ⟨_, rfl, rfl, .name wild List.lookup_cons_self⟩
        · rintro ⟨c, rfl, names, inst⟩
          obtain ⟨y, rfl, rfl⟩ := List.map_eq_singleton_iff.mp names
          have stands := (instance_name_iff wild).mp inst
          rw [List.lookup_cons_self] at stands
          rw [← Option.some.inj stands]
    · rw [patternVariables_literal, matchInto]
      constructor
      · intro h
        split at h
        · rename_i value' kind' is
          split at h <;> cases h
          rename_i same
          obtain ⟨kinds, agrees⟩ := Bool.and_eq_true_iff.mp same
          obtain rfl := of_decide_eq_true kinds
          exact ⟨[], (List.append_nil b).symm, rfl, .literal (unwrapped.literal is) agrees⟩
        · cases h
      · rintro ⟨c, rfl, none, inst⟩
        cases inst with
        | literal is agrees =>
          rw [List.map_eq_nil_iff.mp none, List.append_nil, is]
          simp [Node.head, agrees]
    · rw [matchInto_other name literal, Option.bind_eq_some_iff, patternVariables_composite name]
      rw [patternVariables_composite name] at nodup
      have elements {es : List Node} (found : elementsFor head n.unwrap = some es) :
          matchList ps es b = some b' ↔ _ :=
        matchList_iff (fun p hp => ih _ List.mem_cons_self p hp (hps p hp))
          (fun e he => unwrapped.of_mem_walk (elementsFor_mem_walk found he)) nodup
      constructor
      · rintro ⟨es, found, matched⟩
        obtain ⟨c, rfl, names, insts⟩ := (elements found).mp matched
        exact ⟨c, rfl, names, .composite ((holds_iff unwrapped).mpr found) insts⟩
      · rintro ⟨c, rfl, names, inst⟩
        cases inst with
        | composite holds insts =>
          have found := (holds_iff unwrapped).mp holds
          exact ⟨_, found, (elements found).mpr ⟨c, rfl, names, insts⟩⟩

/-- If a tree is an instance of a pattern, it is so with nothing but the variables bound, from left to
right. -/
theorem Instance.ordered {p : Node} (h : p.Instance b n) :
    ∃ c : Bindings, c.names = p.patternVariables ∧
      (∀ x ∈ p.patternVariables, c.lookup x = b.lookup x) ∧ p.Instance c n := by
  let σ x := (b.lookup x).getD n
  have same : ∀ x ∈ p.patternVariables,
      (Bindings.ofNames σ p.patternVariables).lookup x = b.lookup x := by
    intro x hx
    obtain ⟨m, hm⟩ := h.bound hx
    rw [Bindings.lookup_ofNames hx, hm]
    exact congrArg some (by simp [σ, hm])
  exact ⟨_, Bindings.names_ofNames .., same, h.congr fun x hx => (same x hx).symm⟩

/-- A pattern that binds each name once binds its variables to what stands in their places. -/
theorem ValidPattern.matchPattern_iff {p : Node} (valid : p.ValidPattern) (hp : p.Sorted)
    (hn : n.Sorted) :
    p.matchPattern n = some b ↔ b.names = p.patternVariables ∧ p.Instance b n := by
  have pattern : p.OfSort .pattern :=
    ⟨hp, Head.admits_of_isPattern (valid.pattern p p.mem_walk_self)⟩
  rw [matchPattern, matchInto_iff pattern hn (by simpa [Bindings.names] using valid.nodup)]
  simp

/-- A pattern matches a tree just if it is an instance of the pattern, and then its variables are
bound from left to right to what stands in their places. Where it is none there is no result. -/
theorem matchPattern_iff_instance {p : Node} (hp : p.Sorted) (valid : p.patternFlaw? = none)
    (hn : n.Sorted) :
    (∀ b, p.matchPattern n = some b ↔ b.names = p.patternVariables ∧ p.Instance b n) ∧
      (p.matchPattern n = none ↔ ∀ b, ¬ p.Instance b n) := by
  have found (b : Bindings) :
      p.matchPattern n = some b ↔ b.names = p.patternVariables ∧ p.Instance b n :=
    (validPattern_of_flaw valid).matchPattern_iff hp hn
  refine ⟨found, ?_⟩
  constructor
  · intro none b inst
    obtain ⟨c, names, -, hc⟩ := inst.ordered
    rw [(found c).mpr ⟨names, hc⟩] at none
    cases none
  · intro none
    by_contra some
    obtain ⟨b, hb⟩ := Option.ne_none_iff_exists'.mp some
    exact none b ((found b).mp hb).2

/-- A tuple in a statement is an instance of a tuple of a variable, a literal and a wildcard. -/
theorem matchPattern_iff_instance_tuple : ∃ p n : Node, p.Sorted ∧ p.patternFlaw? = none ∧ n.Sorted ∧
    ∃ b, p.matchPattern n = some b ∧ b.names = ["a"] ∧ p.Instance b n := by
  have hp : (compositePattern default .tuplePattern [.bindPattern default "a",
    .literalPattern default (.integer 1) .number, .bindPattern default wildcard]).Sorted := by decide
  have hn : (expressionStmt default (.tupleLiteral default [.identifier default "x",
    .literal default (.integer 1) .number, .literal default .nothing .null])).Sorted := by decide
  have matched := (matchPattern_iff_instance hp (by decide) hn).1 [("a", .identifier default "x")]
  exact ⟨_, _, hp, by decide, hn, _, rfl, rfl, (matched.mp rfl).2⟩

end Node

end GlyphScript
