import GlyphScript.Proofs.Macro.Registry
import GlyphScript.Proofs.Macro.Respelling

/-!
# Patterns in expansions

What is registered of a macro keeps the patterns of its expansions valid, as
long as its variables stand alone in the patterns that are filled.
-/

namespace GlyphScript

/-! ## Definitions -/

theorem Head.mem_toList_bindName? {head : Head} {x : String} :
    x ∈ head.bindName?.toList ↔ head = .bindPattern x := by
  cases head <;> simp [bindName?, eq_comm]

namespace Node

/-- The patterns of clauses are valid, and the names in patterns are as `Q` says. -/
structure Sound (Q : String → Prop) (n : Node) : Prop where
  clauses : n.Clauses ValidPattern
  names : ∀ x ∈ n.bindNames, Q x

variable {Q Q' : String → Prop}

theorem Sound.imp {n : Node} (h : n.Sound Q) (hQ : ∀ x, Q x → Q' x) : n.Sound Q' :=
  ⟨h.clauses, fun x hx => hQ x (h.names x hx)⟩

theorem sound_mk {span : Span} {head : Head} {slots : List (Slot Node)} :
    (mk span head slots).Sound Q ↔
      (∀ p rest, head.isClause = true → slots = .one p :: rest → p.ValidPattern) ∧
      (∀ x, head = .bindPattern x → Q x) ∧ ∀ s ∈ slots, ∀ n ∈ s.toList, n.Sound Q := by
  constructor
  · rintro ⟨clauses, names⟩
    rw [bindNames_mk] at names
    refine ⟨(clauses_mk.mp clauses).1, fun x hx => ?_, fun s hs n hn => ⟨?_, fun x hx => ?_⟩⟩
    · refine names x (List.mem_append_left _ ?_)
      rwa [Head.mem_toList_bindName?]
    · exact (clauses_mk.mp clauses).2 s hs n hn
    · refine names x (List.mem_append_right _ ?_)
      exact List.mem_flatMap.mpr ⟨s, hs, List.mem_flatMap.mpr ⟨n, hn, hx⟩⟩
  · rintro ⟨own, names, below⟩
    refine ⟨clauses_mk.mpr ⟨own, fun s hs n hn => (below s hs n hn).clauses⟩, fun x hx => ?_⟩
    rw [bindNames_mk] at hx
    rcases List.mem_append.mp hx with hx | hx
    · rw [Head.mem_toList_bindName?] at hx
      exact names x hx
    · obtain ⟨s, hs, hx⟩ := List.mem_flatMap.mp hx
      obtain ⟨n, hn, hx⟩ := List.mem_flatMap.mp hx
      exact (below s hs n hn).names x hx

theorem Sound.child {n m : Node} (h : n.Sound Q) (hm : m ∈ n.children) : m.Sound Q := by
  obtain ⟨span, head, slots⟩ := n
  obtain ⟨s, hs, hm⟩ := List.mem_flatMap.mp hm
  rw [sound_mk] at h
  exact h.2.2 s hs m hm

theorem Sound.of_mem_walk {n m : Node} (h : n.Sound Q) (hm : m ∈ n.walk) : m.Sound Q := by
  refine ⟨h.clauses.of_mem_walk hm, fun x hx => h.names x ?_⟩
  obtain ⟨k, hk, hx⟩ := List.mem_filterMap.mp hx
  exact List.mem_filterMap.mpr ⟨k, mem_walk_trans hm hk, hx⟩

theorem sound_of_clauses {n : Node} (h : n.Clauses ValidPattern) : n.Sound fun _ => True :=
  ⟨h, fun _ _ => trivial⟩

/-- A node that neither is a clause nor binds a name. -/
theorem sound_of_parts {span : Span} {head : Head} {slots : List (Slot Node)}
    (clause : head.isClause = false) (name : head.bindName? = none)
    (parts : ∀ s ∈ slots, ∀ n ∈ s.toList, n.Sound Q) : (mk span head slots).Sound Q := by
  rw [sound_mk]
  refine ⟨fun _ _ h _ => Bool.noConfusion (clause.symm.trans h), ?_, parts⟩
  rintro x rfl
  cases name

/-! ## Replacing nodes -/

/-- What may take the place of a node: only the pattern itself takes the place of a pattern. -/
structure Stands (Q : String → Prop) (n : Node) (s : Slot Node) : Prop where
  pattern : n.IsPattern → s = .one n
  sound : ∀ m ∈ s.toList, m.Sound Q

theorem stands_self {n : Node} (h : n.Sound Q) : n.Stands Q (.one n) :=
  ⟨fun _ => rfl, fun m hm => by rwa [List.mem_singleton.mp hm]⟩

theorem stands_of_not_pattern {n : Node} {s : Slot Node} (hn : n.head.isPattern = false)
    (h : ∀ m ∈ s.toList, m.Sound Q) : n.Stands Q s :=
  ⟨fun hp => Bool.noConfusion (hn.symm.trans (hp n n.mem_walk_self)), h⟩

theorem Stands.imp {n : Node} {s : Slot Node} (h : n.Stands Q s) (hQ : ∀ x, Q x → Q' x) :
    n.Stands Q' s :=
  ⟨h.pattern, fun m hm => (h.sound m hm).imp hQ⟩

theorem slot_of_stands {s s' : Slot Node} (h : Guarantee.Filled id (Stands Q) s s') :
    ((∀ n ∈ s.toList, n.IsPattern) → s' = s) ∧ ∀ m ∈ s'.toList, m.Sound Q := by
  cases h with
  | absent => exact ⟨fun _ => rfl, fun _ hm => (List.not_mem_nil hm).elim⟩
  | one h => exact ⟨fun hp => h.pattern (hp _ List.mem_cons_self), h.sound⟩
  | @many ns ss h =>
    refine ⟨fun hp => ?_, fun m hm => ?_⟩
    · refine congrArg Slot.many ?_
      rw [Slot.toList] at hp
      induction h with
      | nil => rfl
      | cons first _ ih =>
        obtain ⟨hp, rest⟩ := List.forall_mem_cons.mp hp
        rw [List.flatMap_cons, ih rest, first.pattern hp]
        rfl
    · obtain ⟨s, hs, hm⟩ := List.mem_flatMap.mp hm
      obtain ⟨n, -, h⟩ := exists_of_mem_right h hs
      exact h.sound m hm

theorem slots_of_stands {slots slots' : List (Slot Node)}
    (h : List.Forall₂ (Guarantee.Filled id (Stands Q)) slots slots')
    (hp : ∀ s ∈ slots, ∀ n ∈ s.toList, n.IsPattern) : slots' = slots := by
  induction h with
  | nil => rfl
  | cons first _ ih =>
    obtain ⟨hp, rest⟩ := List.forall_mem_cons.mp hp
    rw [ih rest, (slot_of_stands first).1 hp]

/-- A node with replaced children, which keeps its head unless that is of no concern. -/
theorem stands_node {span : Span} {h h' : Head} {slots slots' : List (Slot Node)}
    (hn : (mk span h slots).Sound Q)
    (rel : List.Forall₂ (Guarantee.Filled id (Stands Q)) slots slots')
    (head : h' = h ∨ h.isPattern = false ∧ h'.isClause = false ∧ h'.bindName? = none) :
    (mk span h slots).Stands Q (.one (mk span h' slots')) := by
  obtain ⟨own, names, below⟩ := sound_mk.mp hn
  have parts : ∀ s ∈ slots', ∀ n ∈ s.toList, n.Sound Q := by
    intro s' hs'
    obtain ⟨s, hs, r⟩ := exists_of_mem_right rel hs'
    exact (slot_of_stands r).2
  rcases head with rfl | ⟨tame, clause, name⟩
  · refine ⟨fun hp => ?_, fun m hm => ?_⟩
    · rw [slots_of_stands rel (isPattern_mk.mp hp).2]
    · rw [List.mem_singleton.mp hm]
      refine sound_mk.mpr ⟨?_, names, parts⟩
      rintro p' rest' clause rfl
      obtain ⟨s, rest, one, -, rfl⟩ := List.forall₂_cons_right_iff.mp rel
      generalize hs' : Slot.one p' = s' at one
      cases one with
      | absent => cases hs'
      | many => cases hs'
      | @one p t r =>
        have valid := own p rest clause rfl
        have same : t = .one p := r.pattern valid.pattern
        subst same
        cases hs'
        exact valid
  · refine stands_of_not_pattern tame fun m hm => ?_
    rw [List.mem_singleton.mp hm]
    exact sound_of_parts clause name parts

end Node

namespace MacroDefinition

/-- No name of the definition is given out from now on, and the patterns in it are valid. -/
structure Known (g : Gensym) (d : MacroDefinition) : Prop where
  name : g.Avoids d.name
  params : ∀ x ∈ d.params, g.Avoids x
  rules : ∀ r ∈ d.rules, r.Sound g.Avoids
  template : ∀ q, d.template = some q → q.Sound g.Avoids

/-- The variables that are filled in the template of a rule, and the template. -/
def ruleParts? (params : List String) (rule : Node) : Option (List String × Node) :=
  match rule.slots with
  | [.one pattern, .one template] => some (params ++ pattern.patternVariables, template)
  | _ => none

/-- In the patterns that are filled, no variable of the macro stands next to another name. -/
def Clear (d : MacroDefinition) : Prop :=
  (∀ t ∈ d.templateBody?, ∀ p ∈ t.patternsAt 1, p.1 = 0 → Lone d.params p.2.bindNames) ∧
  ∀ r ∈ d.rules, ∀ parts ∈ ruleParts? d.params r, ∀ p ∈ parts.2.patternsAt 0,
    p.1 = 0 → Lone parts.1 p.2.bindNames

instance (d : MacroDefinition) : Decidable d.Clear := inferInstanceAs (Decidable (_ ∧ _))

theorem Known.mono {g g' : Gensym} {d : MacroDefinition} (h : d.Known g) (le : g ≤ g') :
    d.Known g' where
  name := h.name.mono le
  params x hx := (h.params x hx).mono le
  rules r hr := (h.rules r hr).imp fun _ hx => hx.mono le
  template q hq := (h.template q hq).imp fun _ hx => hx.mono le

end MacroDefinition

/-! ## Selections -/

namespace Bindings

theorem names_bind {x y : String} {n : Node} {b : Bindings} (h : y ∈ (b.bind x n).names) :
    y = x ∨ y ∈ b.names := by
  obtain ⟨⟨z, m⟩, hz, rfl⟩ := List.mem_map.mp h
  rcases mem_bind hz with hz | hz
  · exact .inr (List.mem_map_of_mem hz)
  · exact .inl (congrArg Prod.fst hz)

theorem names_extend {b later : Bindings} {y : String} (h : y ∈ (b.extend later).names) :
    y ∈ b.names ∨ y ∈ later.names := by
  obtain ⟨z, hz, rfl⟩ := List.mem_map.mp h
  exact (mem_extend hz).imp List.mem_map_of_mem List.mem_map_of_mem

end Bindings

namespace Node

theorem matchList_names {ps es : List Node} {b b' : Bindings}
    (step : ∀ p ∈ ps, ∀ {m : Node} {b b' : Bindings}, p.matchInto m b = some b' →
      ∀ y ∈ b'.names, y ∈ b.names ∨ y ∈ p.patternVariables)
    (h : matchList ps es b = some b') :
    ∀ y ∈ b'.names, y ∈ b.names ∨ ∃ p ∈ ps, y ∈ p.patternVariables := by
  induction ps generalizing es b with
  | nil =>
    cases es with
    | nil =>
      cases h
      exact fun y hy => .inl hy
    | cons e es => cases h
  | cons p ps ih =>
    cases es with
    | nil => cases h
    | cons e es =>
      rw [matchList] at h
      cases first : p.matchInto e b with
      | none =>
        rw [first] at h
        cases h
      | some b₁ =>
        rw [first] at h
        intro y hy
        rcases ih (fun p hp => step p (List.mem_cons_of_mem _ hp)) h y hy with hy | ⟨q, hq, hy⟩
        · exact (step p List.mem_cons_self first y hy).imp_right fun hy =>
            ⟨p, List.mem_cons_self, hy⟩
        · exact .inr ⟨q, List.mem_cons_of_mem _ hq, hy⟩

theorem mem_patternVariables_mk {span : Span} {head : Head} {slots : List (Slot Node)}
    {s : Slot Node} (hs : s ∈ slots) {p : Node} (hp : p ∈ s.toList) {y : String}
    (hy : y ∈ p.patternVariables) : y ∈ (mk span head slots).patternVariables := by
  rw [patternVariables_eq, List.mem_filter] at hy ⊢
  rw [bindNames_mk]
  refine ⟨List.mem_append_right _ ?_, hy.2⟩
  exact List.mem_flatMap.mpr ⟨s, hs, List.mem_flatMap.mpr ⟨p, hp, hy.1⟩⟩

/-- A match binds variables of the pattern. -/
theorem matchInto_names (pattern : Node) : ∀ {n : Node} {b b' : Bindings},
    pattern.matchInto n b = some b' → ∀ y ∈ b'.names, y ∈ b.names ∨ y ∈ pattern.patternVariables := by
  induction pattern using induction_on with
  | step span head slots ih =>
    intro n b b' h
    unfold matchInto at h
    dsimp only at h
    split at h
    case h_1 name =>
      split at h <;> cases h
      · exact fun y hy => .inl hy
      · rename_i tame
        intro y hy
        refine (Bindings.names_bind hy).symm.imp_right ?_
        rintro rfl
        rw [patternVariables_eq, bindNames_mk]
        simp [Head.bindName?, tame]
    case h_2 value kind =>
      split at h
      · split at h <;> cases h
        exact fun y hy => .inl hy
      · cases h
    case h_3 =>
      split at h
      case h_2 => cases h
      case h_1 elements eq =>
        unfold matchSlots at h
        split at h
        case h_2 => cases h
        case h_1 ps =>
          intro y hy
          refine (matchList_names (ih _ List.mem_cons_self) h y hy).imp_right fun bound => ?_
          obtain ⟨p, hp, hy⟩ := bound
          exact mem_patternVariables_mk List.mem_cons_self hp hy

end Node

/-- The template selected, and the variables of the macro that are bound in it. -/
theorem MacroDefinition.select_variables {d : MacroDefinition} {c : MacroCall} {sel : Selection}
    (h : d.select c = .ok sel) :
    sel.quoted = true ∧ sel.template ∈ d.templateBody? ∧
        (∀ x ∈ sel.bindings.names, x ∈ d.params) ∨
      sel.quoted = false ∧ ∃ r ∈ d.rules, ∃ pattern, r.slots = [.one pattern, .one sel.template] ∧
        ∀ x ∈ sel.bindings.names, x ∈ d.params ++ pattern.patternVariables := by
  have params : ∀ x ∈ (Bindings.extend [] (d.params.zip c.args)).names, x ∈ d.params := by
    intro x hx
    rcases Bindings.names_extend hx with hx | hx
    · cases hx
    · obtain ⟨y, hy, rfl⟩ := List.mem_map.mp hx
      exact (List.of_mem_zip hy).1
  rcases d.select_cases h with ⟨quoted, body, bindings⟩ |
    ⟨quoted, r, hr, pattern, matched, slots, hb, bindings⟩
  · rw [bindings]
    exact .inl ⟨quoted, body, params⟩
  · rw [bindings]
    refine .inr ⟨quoted, r, hr, pattern, slots, fun x hx => ?_⟩
    rcases Bindings.names_extend hx with hx | hx
    · exact List.mem_append_left _ (params x hx)
    · rcases Node.matchInto_names _ hb x hx with hx | hx
      · cases hx
      · exact List.mem_append_right _ hx

/-! ## Expanding -/

namespace Work

/-- What becomes known of a unit while its registry stays `r` and names are put into use. -/
def course (r : Registry) : Assurance Work Gensym := .fallible UnitState.gensym (·.registry = r)

variable {r : Registry} {g : Gensym} {α : Type}

theorem course_same {w : Work α} {p : Gensym → α → Prop}
    (unit : ∀ u, (w u).2.gensym = u.gensym ∧ (w u).2.registry = u.registry)
    (made : ∀ u a, u.registry = r → g ≤ u.gensym → (w u).1 = .ok a → p u.gensym a) :
    (course r).holds g w p := by
  intro u hu le
  dsimp only
  rw [(unit u).1, (unit u).2]
  exact ⟨le_refl _, hu, fun a e => made u a hu le e⟩

theorem course_modify (f : UnitState → UnitState) (h : ∀ u, (f u).gensym = u.gensym ∧
    (f u).registry = u.registry) : (course r).holds g (modify f : Work Unit) fun _ _ => True :=
  course_same h fun _ _ _ _ _ => trivial

theorem course_get : (course r).holds g (get : Work UnitState) fun _ _ => True :=
  course_same (fun _ => ⟨rfl, rfl⟩) fun _ _ _ _ _ => trivial

theorem course_checkpoint : (course r).holds g checkpoint fun _ _ => True := by
  refine course_same (fun u => ?_) fun _ _ _ _ _ => trivial
  unfold checkpoint
  rw [run_bind, run_get]
  dsimp only
  rcases u.checks with _ | _ | n <;> exact ⟨rfl, rfl⟩

theorem course_report (e : Event) : (course r).holds g (report e) fun _ _ => True :=
  course_same (fun _ => ⟨rfl, rfl⟩) fun _ _ _ _ _ => trivial

theorem course_ofExpansion (x : Except ExpansionFault α) :
    (course r).holds g (ofExpansion x) fun _ a => x = .ok a := by
  cases x with
  | ok a => exact (course r).pure fun _ _ => rfl
  | error f => exact course_same (fun _ => ⟨rfl, rfl⟩) (by rintro _ _ _ _ ⟨⟩)

theorem course_calledMacro (c : MacroCall) :
    (course r).holds g (calledMacro c) fun _ d => r.find? c.name = some d := by
  have run : ∀ u, (calledMacro c u).2 = u := by
    intro u
    unfold calledMacro
    rw [run_bind, run_get]
    dsimp only
    cases u.registry.find? c.name <;> rfl
  refine course_same (fun u => by rw [run]; exact ⟨rfl, rfl⟩) fun u d hu _ h => ?_
  rw [← hu]
  exact (calledMacro_ok.mp (Prod.ext h (run u))).1

theorem course_prepare (sel : Selection) (hygiene : Hygiene) :
    (course r).holds g (prepare sel hygiene) fun _ prepared =>
      ∃ u : UnitState, u.registry = r ∧ g ≤ u.gensym ∧ prepared.1 = sel.prepared hygiene u := by
  intro u hu le
  have later : u.gensym ≤ (prepare sel hygiene u).2.gensym := by
    cases hygiene with
    | isolate =>
      exact (Node.isolate_reworded _ sel.template 0 (RenameTable.empty, u.gensym)
        (.start u.gensym) (le_refl _)).2.1.later
    | capture | inject => exact le_refl _
  refine ⟨later, hu, fun a e => ⟨u, hu, le, ?_⟩⟩
  cases e
  rfl

end Work

namespace Selection

/-- The names that stay in a template that is renamed apart. -/
def keep (sel : Selection) (r : Registry) : List String := sel.bindings.names ++ r.names

/-- Preparing a template leaves its patterns valid and the variables in them alone. -/
theorem prepared_patterns (sel : Selection) (hygiene : Hygiene) {u : UnitState}
    (avoided : ∀ x ∈ sel.keep u.registry, u.gensym.Avoids x) {e d : Nat} {p' : Node}
    (hp' : (d, p') ∈ (sel.prepared hygiene u).patternsAt e) :
    ∃ p, (d, p) ∈ sel.template.patternsAt e ∧ (p.ValidPattern → p'.ValidPattern ∧
      (Lone sel.bindings.names p.bindNames → Lone sel.bindings.names p'.bindNames)) := by
  cases hygiene with
  | isolate =>
    obtain ⟨-, named, reworded⟩ := Node.isolate_reworded (sel.keep u.registry) sel.template 0
      (RenameTable.empty, u.gensym) (.start u.gensym) (le_refl _)
    obtain ⟨p, hp, depth, r⟩ := reworded.patterns e d p' hp'
    exact ⟨p, hp, fun valid => ⟨valid.spelled named avoided r,
      Node.lone_spelled named avoided (fun x hx => List.mem_append_left _ hx) valid.pattern r⟩⟩
  | capture | inject => exact ⟨p', hp', fun valid => ⟨valid, id⟩⟩

end Selection

namespace Registry

/-- All macros are known. -/
def Known (g : Gensym) (r : Registry) : Prop := ∀ d ∈ r.macros, d.Known g

theorem Known.mono {g g' : Gensym} {r : Registry} (h : r.Known g) (le : g ≤ g') : r.Known g' :=
  fun d hd => (h d hd).mono le

theorem Known.names {g : Gensym} {r : Registry} (h : r.Known g) : ∀ x ∈ r.names, g.Avoids x := by
  intro x hx
  obtain ⟨d, hd, rfl⟩ := List.mem_map.mp hx
  exact (h d hd).name

end Registry

variable {c : MacroCall} {d : MacroDefinition} {sel : Selection} {g : Gensym}

theorem passes_clauses {P : Node → Prop} (args : ∀ a ∈ c.args, a.Clauses P) {n : Node}
    (h : c.Passes n) : n.Clauses P := by
  rcases h.offers with ⟨a, ha, hn⟩ | rfl
  · exact (args a ha).of_mem_walk hn
  · refine Node.clauses_of_parts rfl fun s hs a ha => ?_
    rw [List.mem_singleton.mp hs] at ha
    exact args a ha

/-- A selected template of a known macro has valid patterns, its variables are not given out, and
in the patterns to be filled they stand alone. -/
theorem select_known (selected : d.select c = .ok sel) (known : d.Known g) :
    sel.template.Sound g.Avoids ∧ (∀ x ∈ sel.bindings.names, g.Avoids x) ∧
      (d.Clear → ∀ p, (0, p) ∈ sel.template.patternsAt sel.level →
        Lone sel.bindings.names p.bindNames) := by
  rcases d.select_variables selected with ⟨quoted, body, vars⟩ | ⟨plain, r, hr, pattern, slots, vars⟩
  · obtain ⟨q, hq, ht⟩ := Option.bind_eq_some_iff.mp body
    refine ⟨(known.template q hq).child (List.mem_of_head? ht),
      fun x hx => known.params x (vars x hx), fun clear p hp => ?_⟩
    rw [Selection.level, if_pos quoted] at hp
    exact (clear.1 _ body _ hp rfl).anti vars
  · have inner : ∀ m ∈ [pattern, sel.template], m.Sound g.Avoids := by
      refine fun m hm => (known.rules r hr).child ?_
      rw [Node.children, slots]
      exact hm
    have sound := inner pattern (by simp)
    refine ⟨inner _ (by simp), fun x hx => ?_, fun clear p hp => ?_⟩
    · rcases List.mem_append.mp (vars x hx) with hx | hx
      · exact known.params x hx
      · rw [Node.patternVariables_eq] at hx
        exact sound.names x (List.mem_filter.mp hx).1
    · rw [Selection.level, if_neg (by simp [plain])] at hp
      have parts : (d.params ++ pattern.patternVariables, sel.template) ∈ MacroDefinition.ruleParts? d.params r := by
        rw [MacroDefinition.ruleParts?, slots]
        rfl
      exact (clear.2 r hr _ parts _ hp rfl).anti vars

namespace Work

variable {r : Registry}

/-- The patterns of an expansion are valid if those of the arguments are. -/
theorem course_expandCall (c : MacroCall) : (course r).holds g (expandCall c) fun _ e =>
    r.Known g → (∀ d ∈ r.macros, d.Clear) → (∀ a ∈ c.args, a.Clauses Node.ValidPattern) →
      e.node.Clauses Node.ValidPattern := by
  refine (course r).bind (course_calledMacro c) fun g₁ d le₁ found => ?_
  refine (course r).bind (course_ofExpansion _) fun g₂ sel le₂ selected => ?_
  refine (course r).bind (course_prepare sel d.hygiene) fun g₃ pair le₃ prepared => ?_
  obtain ⟨template, table⟩ := pair
  refine (course r).bind (course_ofExpansion _) fun g₄ node le₄ filled => ?_
  have valid : r.Known g → (∀ d ∈ r.macros, d.Clear) →
      (∀ a ∈ c.args, a.Clauses Node.ValidPattern) → node.Clauses Node.ValidPattern := by
    intro known clear args p'' hp''
    obtain ⟨u, rfl, le, rfl⟩ := prepared
    have hd := List.mem_of_find?_eq_some found
    have known := known.mono (le_trans (le_trans le₁ le₂) le)
    obtain ⟨sound, avoided, lone⟩ := select_known selected (known d hd)
    have kept : ∀ x ∈ sel.keep u.registry, u.gensym.Avoids x := by
      intro x hx
      exact (List.mem_append.mp hx).elim (avoided x) (known.names x)
    rcases (Node.substitute_filled g₄ _ _ _ filled).patterns p'' hp'' with ⟨b, hb, hp⟩ | ⟨l, p', hp', r⟩
    · exact passes_clauses args ((d.select_ok selected).2 b hb) p'' hp
    · obtain ⟨p, hp, spelled⟩ := sel.prepared_patterns d.hygiene kept hp'
      obtain ⟨valid, still⟩ := spelled (sound.clauses p (Node.mem_clausePatterns_of_mem_patternsAt hp))
      refine valid.filled r ?_
      rintro rfl
      exact still (lone (clear d hd) p hp)
  dsimp only
  split
  · refine (course r).bind (course_report _) fun _ _ _ _ => ?_
    exact (course r).bind (course_report _) fun _ _ _ _ => (course r).pure fun _ _ => valid
  · exact (course r).bind (course_report _) fun _ _ _ _ => (course r).pure fun _ _ => valid

end Work

end GlyphScript
