import GlyphScript.Proofs.Macro.Nested
import GlyphScript.Proofs.Order.Expansion
import GlyphScript.Proofs.Order.Parsing
import Mathlib.Data.List.Pairwise

/-!
# Units as lists of statements

A unit is read statement by statement, each behind the definitions in front of
it. If nothing but definitions of macros moves, the other statements are read as
twins, and the macros that are registered are those of before, one like the
other, as long as no macro moves past a definition that calls it by a name which
is bound there.
-/

namespace GlyphScript

/-! ## Statements -/

/-- A statement of a unit: its words, the tree that is derived from them alone, and the macros that
are known behind it, which is at most the one that it defines. -/
structure TopLevel (settings : Settings) where
  words : List Word
  node : Node
  macros : Macros
  derived : Derives settings (.part .statements) [] words macros (.ofNodes [node])
  later : macros.Later
  defines : ∀ x, macros.defines x = node.definition?.any (·.1 = x)
  /-- It does not go on with an expression in front of it. -/
  separate : leading words ≠ some .listOpen

namespace TopLevel

variable {settings : Settings}

/-- The name of the macro that the statement defines. -/
def name? (s : TopLevel settings) : Option String := s.node.definition?.map (·.1)

/-- The macros of a unit, in the order in which they are defined. -/
def definedNames (unit : List (TopLevel settings)) : List String := unit.filterMap name?

/-- The macros known behind the statements, of which those in `k` have been known before. -/
def known : List (TopLevel settings) → Macros → Macros
  | [], k => k
  | s :: unit, k => known unit (s.macros ++ k)

/-- What the statements are read as where the macros of `k` are known. -/
def read : List (TopLevel settings) → Macros → List Node
  | [], _ => []
  | s :: unit, k => s.node.marked k.defines :: read unit (s.macros ++ k)

variable {s : TopLevel settings} {unit front back : List (TopLevel settings)} {k : Macros}

theorem defines_iff (s : TopLevel settings) (x : String) :
    s.macros.defines x = true ↔ s.name? = some x := by
  rw [s.defines, name?, Option.any_eq_true, Option.map_eq_some_iff]
  simp only [decide_eq_true_eq]

theorem mem_definedNames {x : String} : x ∈ definedNames unit ↔ ∃ s ∈ unit, s.name? = some x :=
  List.mem_filterMap

theorem defines_known (x : String) :
    (known unit k).defines x = true ↔ x ∈ definedNames unit ∨ k.defines x = true := by
  induction unit generalizing k with
  | nil => simp [known, definedNames]
  | cons s unit ih =>
    rw [known, ih, Macros.defines_append, Bool.or_eq_true, s.defines_iff, ← or_assoc]
    refine or_congr_left ?_
    rw [mem_definedNames, mem_definedNames, List.exists_mem_cons_iff, or_comm]

theorem later_known (later : k.Later) : (known unit k).Later := by
  induction unit generalizing k with
  | nil => exact later
  | cons s unit ih => exact ih (List.forall_mem_append.mpr ⟨s.later, later⟩)

theorem read_append : read (front ++ back) k = read front k ++ read back (known front k) := by
  induction front generalizing k with
  | nil => rfl
  | cons s front ih => rw [List.cons_append, read, ih]; rfl

theorem mem_read {n : Node} : n ∈ read unit k ↔
    ∃ (front : List (TopLevel settings)) (s : TopLevel settings) (back : List (TopLevel settings)),
      unit = front ++ s :: back ∧ n = s.node.marked (known front k).defines := by
  induction unit generalizing k with
  | nil => simp [read]
  | cons s unit ih =>
    rw [read, List.mem_cons, ih]
    constructor
    · rintro (rfl | ⟨front, s', back, rfl, rfl⟩)
      · exact ⟨[], s, unit, rfl, rfl⟩
      · exact ⟨s :: front, s', back, rfl, rfl⟩
    · rintro ⟨_ | ⟨s', front⟩, t, back, split, made⟩
      · cases split
        exact .inl made
      · cases split
        exact .inr ⟨front, t, back, rfl, made⟩

end TopLevel

/-! ## Derivations of units -/

theorem leading_append_ne {us vs : List Word} {r : Reserved} (hu : leading us ≠ some r)
    (hv : leading vs ≠ some r) : leading (us ++ vs) ≠ some r := by
  cases us with
  | nil => exact hv
  | cons w us => exact hu

/-- Statements behind statements, if the words go on with no expression in front of them. -/
theorem Derives.statements_append {settings : Settings} {k₁ k₂ k₃ : Macros} {us vs : List Word}
    {ns ms : List Node} (h : Derives settings (.part .statements) k₁ us k₂ (.ofNodes ns))
    (h' : Derives settings (.part .statements) k₂ vs k₃ (.ofNodes ms))
    (separate : leading vs ≠ some .listOpen) :
    Derives settings (.part .statements) k₁ (us ++ vs) k₃ (.ofNodes (ns ++ ms)) := by
  generalize phrase : Phrase.part .statements = a at h
  generalize found : Found.ofNodes ns = f at h
  induction h generalizing ns with
  | noStatement =>
    cases Found.ofNodes_inj found
    exact h'
  | statement made here _ _ ih =>
    cases Found.ofNodes_inj found
    rw [List.append_assoc]
    exact .statement made here (ih h' rfl rfl)
  | expressionStmt here _ free _ ih =>
    cases Found.ofNodes_inj found
    rw [List.append_assoc]
    exact .expressionStmt here (ih h' rfl rfl) (leading_append_ne free separate)
  | _ => cases phrase

namespace TopLevel

variable {settings : Settings} {s : TopLevel settings} {unit : List (TopLevel settings)}

theorem separate_words : leading (unit.flatMap words) ≠ some .listOpen := by
  induction unit with
  | nil => nofun
  | cons s unit ih => exact leading_append_ne s.separate ih

/-- The words of a unit are derived as its statements, each read behind those in front of it. -/
theorem derives_read (unit : List (TopLevel settings)) (k : Macros) :
    Derives settings (.part .statements) k (unit.flatMap words) (known unit k)
      (.ofNodes (read unit k)) := by
  induction unit generalizing k with
  | nil => exact .noStatement
  | cons s unit ih =>
    have here : Derives settings (.part .statements) k s.words (s.macros ++ k)
        (.ofNodes [s.node.marked k.defines]) := s.derived.marked trivial k
    exact here.statements_append (ih _) separate_words

/-- What is derived from tokens is well formed. -/
theorem upright (s : TopLevel settings) (lexemes : ∀ w ∈ s.words, IsLexeme w.1 w.2.toList) :
    s.node.Sorted ∧ s.node.Tidy := by
  obtain ⟨-, upright⟩ := s.derived.statements_outlined s.later lexemes
  have wellFormed := (upright s.node List.mem_cons_self).wellFormed
  exact ⟨fun m hm => (wellFormed m hm).orderly.1, fun m hm => (wellFormed m hm).orderly.2⟩

end TopLevel

/-! ## Units in other orders -/

open TopLevel

variable {settings : Settings} {unit unit' : List (TopLevel settings)}

/-- Units without quotes in which no macro is defined inside a statement, all macros are expanded
in passes and no two have one name. -/
structure Plain (unit : List (TopLevel settings)) : Prop where
  unquoted : ∀ s ∈ unit, ∀ m ∈ s.node.walk, m.head ≠ .quote
  flat : ∀ s ∈ unit, ∀ c ∈ s.node.children, c.macros = []
  expanded : ∀ s ∈ unit, ∀ x phase, s.node.definition? = some (x, phase) → phase = .expand
  distinct : (definedNames unit).Nodup

/-- The same statements, of which only definitions of macros have moved. -/
structure Reordered (unit unit' : List (TopLevel settings)) : Prop where
  perm : unit'.Perm unit
  others : unit'.filter (·.name?.isNone) = unit.filter (·.name?.isNone)

namespace Node

/-- The names that a macro calls in the template of a rule that binds them. -/
def boundCalls (n : Node) : List String :=
  match n.head, n.slots with
  | .macroDef _ params _ _, rules :: _ => rules.toList.flatMap fun rule =>
    match rule.slots with
    | [.one pattern, .one template] =>
      template.calledNames.filter (· ∈ params ++ pattern.patternVariables)
    | _ => []
  | _, _ => []

end Node

/-- No macro has moved past one that calls it by a name which is bound there. -/
def Steady (unit unit' : List (TopLevel settings)) : Prop :=
  ∀ s ∈ unit, ∀ x ∈ s.node.boundCalls, ∀ y, s.name? = some y →
    ([x, y].Sublist (definedNames unit) ↔ [x, y].Sublist (definedNames unit'))

theorem Plain.unique (h : Plain unit) {s s' : TopLevel settings} (hs : s ∈ unit) (hs' : s' ∈ unit)
    {x : String} (name : s.name? = some x) (name' : s'.name? = some x) : s = s' := by
  have pairs : unit.Pairwise fun s s' => ∀ x, s.name? = some x → s'.name? = some x → s = s' :=
    (List.pairwise_filterMap.mp h.distinct).imp fun apart x hx hx' =>
      absurd rfl (apart x hx x hx')
  have : Std.Symm fun s s' : TopLevel settings =>
      ∀ x, s.name? = some x → s'.name? = some x → s = s' := ⟨fun _ _ same x hx hx' => (same x hx' hx).symm⟩
  exact pairs.forall_of_forall (fun _ _ _ _ _ => rfl) hs hs' x name name'

theorem Reordered.plain (h : Reordered unit unit') (plain : Plain unit) : Plain unit' where
  unquoted s hs := plain.unquoted s (h.perm.mem_iff.mp hs)
  flat s hs := plain.flat s (h.perm.mem_iff.mp hs)
  expanded s hs := plain.expanded s (h.perm.mem_iff.mp hs)
  distinct := (h.perm.filterMap name?).nodup_iff.mpr plain.distinct

/-- Of two names that are defined once, the one stands in front of the other. -/
theorem sublist_pair_iff {xs ys : List String} {x y : String} (once : (xs ++ y :: ys).Nodup) :
    [x, y].Sublist (xs ++ y :: ys) ↔ x ∈ xs := by
  constructor
  · intro sub
    obtain ⟨l, r, split, left, right⟩ := List.sublist_append_iff.mp sub
    rcases l with _ | ⟨z, l⟩
    · obtain rfl : r = [x, y] := split.symm
      have behind : y ∈ ys := by
        cases right with
        | cons _ right => exact right.subset (by simp)
        | cons_cons _ right => exact right.subset (by simp)
      obtain ⟨-, once, -⟩ := List.nodup_append.mp once
      exact absurd behind (List.nodup_cons.mp once).1
    · injection split with same _
      exact left.subset (same ▸ List.mem_cons_self)
  · intro hx
    exact (List.singleton_sublist.mpr hx).append (List.singleton_sublist.mpr List.mem_cons_self)

/-! ## Statements that are no definitions -/

theorem TopLevel.isNone_name? (s : TopLevel settings) :
    s.name?.isNone = !s.node.head.isMacroDef := by
  unfold TopLevel.name? Node.definition?
  cases s.node.head <;> rfl

/-- What stands inside a statement hides nothing from the expansion of calls. -/
theorem Plain.opened (plain : Plain unit) {s : TopLevel settings} (hs : s ∈ unit)
    (tidy : s.node.Tidy) {m : Node} (hm : m ∈ s.node.walk) (other : m.head.isMacroDef = false) :
    m.head.Opens := by
  have unquoted := plain.unquoted s hs m hm
  have spelled := (tidy m hm).spelled
  unfold Head.Opens
  cases hh : m.head
  case macroCall name deferred =>
    rw [hh] at spelled
    cases deferred with
    | false => rfl
    | true => cases spelled
  case macroDef => rw [hh] at other; cases other
  case quote => exact absurd hh unquoted
  all_goals rfl

/-- The statements that are no definitions are those of the unit, with some calls of macros marked. -/
theorem read_others {K : String → Prop} (unit : List (TopLevel settings)) {k : Macros}
    (names : ∀ x ∈ definedNames unit, K x) (hk : ∀ x, k.defines x = true → K x) :
    List.Forall₂ (fun s n => ∃ known : String → Bool, (∀ x, known x = true → K x) ∧
        n = s.node.marked known)
      (unit.filter (·.name?.isNone)) ((read unit k).filter (!·.head.isMacroDef)) := by
  induction unit generalizing k with
  | nil => exact .nil
  | cons s unit ih =>
    have rest := @ih (s.macros ++ k) (fun x hx => names x ?_) fun x hx => ?_
    · rw [TopLevel.read, List.filter_cons, List.filter_cons, s.isNone_name?, Node.isMacroDef_marked]
      split
      · exact .cons ⟨k.defines, hk, rfl⟩ rest
      · exact rest
    · obtain ⟨t, ht, name⟩ := mem_definedNames.mp hx
      exact mem_definedNames.mpr ⟨t, List.mem_cons_of_mem _ ht, name⟩
    · rw [Macros.defines_append, Bool.or_eq_true, s.defines_iff] at hx
      rcases hx with own | old
      · exact names x (mem_definedNames.mpr ⟨s, List.mem_cons_self, own⟩)
      · exact hk x old

/-- The trees of a unit are sorted and tidy, as those of words that are tokens. -/
def Lexed (unit : List (TopLevel settings)) : Prop := ∀ s ∈ unit, s.node.Sorted ∧ s.node.Tidy

theorem Reordered.others_twin {K : String → Prop} (h : Reordered unit unit') (plain : Plain unit)
    (lexed : Lexed unit) (names : ∀ x ∈ definedNames unit, K x) :
    List.Forall₂ (Node.Twin K Head.Opens) ((read unit []).filter (!·.head.isMacroDef))
      ((read unit' []).filter (!·.head.isMacroDef)) := by
  have none : ∀ x, Macros.defines [] x = true → K x := nofun
  have first := read_others unit names none
  have second := read_others (K := K) unit' (fun x hx => names x ?_) none
  · rw [h.others] at second
    refine forall₂_of_common first second fun s hs n n' made made' => ?_
    obtain ⟨known, hk, rfl⟩ := made
    obtain ⟨known', hk', rfl⟩ := made'
    obtain ⟨hs, other⟩ := List.mem_filter.mp hs
    obtain ⟨sorted, tidy⟩ := lexed s hs
    refine Node.marked_twin _ sorted (fun m hm => plain.opened hs tidy hm ?_) fun x _ differ => ?_
    · rcases Node.mem_walk_iff.mp hm with rfl | ⟨slot, hslot, c, hc, hm⟩
      · rw [s.isNone_name?] at other
        simpa using other
      · exact Node.macros_of_mem_walk
          (plain.flat s hs c (List.mem_flatMap.mpr ⟨slot, hslot, hc⟩)) hm
    · cases here : known x with
      | true => exact hk x here
      | false =>
        rw [here] at differ
        exact hk' x (by simpa using differ.symm)
  · obtain ⟨t, ht, name⟩ := mem_definedNames.mp hx
    exact mem_definedNames.mpr ⟨t, h.perm.mem_iff.mp ht, name⟩

/-- Statements are arranged anew if without the definitions they are twins one by one. -/
theorem Arranged.of_others {K : String → Prop} {ns ns' : List Node}
    (h : List.Forall₂ (Node.Twin K Head.Opens) (ns.filter (!·.head.isMacroDef))
      (ns'.filter (!·.head.isMacroDef))) : Arranged K ns ns' := by
  induction ns generalizing ns' with
  | nil =>
    have none := List.forall₂_nil_left_iff.mp h
    clear h
    induction ns' with
    | nil => exact .nil
    | cons d ns' ih =>
      obtain ⟨macroDef, none⟩ := List.forall_mem_cons.mp (List.filter_eq_nil_iff.mp none)
      exact .right (by simpa using macroDef) (ih (List.filter_eq_nil_iff.mpr none))
  | cons n ns ih =>
    by_cases macroDef : n.head.isMacroDef = true
    · rw [List.filter_cons, if_neg (by simp [macroDef])] at h
      exact .left macroDef (ih h)
    rw [List.filter_cons, if_pos (by simp [macroDef])] at h
    induction ns' with
    | nil => cases h
    | cons n' ns' ih' =>
      by_cases macroDef' : n'.head.isMacroDef = true
      · rw [List.filter_cons, if_neg (by simp [macroDef'])] at h
        exact .right macroDef' (ih' h)
      · rw [List.filter_cons, if_pos (by simp [macroDef'])] at h
        obtain ⟨twin, rest⟩ := List.forall₂_cons.mp h
        exact .both twin (ih rest)

/-! ## Definitions -/

/-- The definitions in a unit that is read are those of its statements, each with the calls of
macros in front of it marked. -/
theorem Plain.definition (plain : Plain unit) {T : Node}
    (read : T.Alike (.program default (read unit []) [])) {d : MacroDefinition}
    (hd : d ∈ T.definitions) :
    ∃ (front : List (TopLevel settings)) (s : TopLevel settings) (back : List (TopLevel settings))
      (m : Node), unit = front ++ s :: back ∧
        m.Alike (s.node.marked (known front []).defines) ∧ MacroDefinition.ofNode? m = some d := by
  obtain ⟨m, hm, made⟩ := List.mem_filterMap.mp hd
  have macroDef := Node.isMacroDef_of_ofNode? made
  obtain ⟨m', hm', same : m.Alike m'⟩ := exists_of_mem_right read.walk.flip (Node.mem_finished.mp hm)
  have macroDef' : m'.head.isMacroDef = true := same.head ▸ macroDef
  rcases Node.mem_walk_mk.mp hm' with rfl | ⟨slot, hslot, n, hn, hm'⟩
  · cases macroDef'
  obtain rfl := List.mem_singleton.mp hslot
  obtain ⟨front, s, back, rfl, rfl⟩ := mem_read.mp hn
  obtain ⟨k, hk, rfl⟩ := Node.mem_walk_marked hm'
  rcases Node.mem_walk_iff.mp hk with rfl | ⟨slot, hslot, c, hc, hk⟩
  · exact ⟨front, s, back, m, rfl, same, made⟩
  · have none := plain.flat s (by simp) c (List.mem_flatMap.mpr ⟨slot, hslot, hc⟩)
    rw [Node.isMacroDef_marked, Node.macros_of_mem_walk none hk] at macroDef'
    cases macroDef'

theorem Node.Alike.patternVariables {n n' : Node} (h : n.Alike n') :
    n.patternVariables = n'.patternVariables := by
  have heads : n.walk.map Node.head = n'.walk.map Node.head :=
    map_eq_map (h.walk.imp fun _ _ same => same.head)
  have names (n : Node) : n.bindNames = (n.walk.map Node.head).filterMap Head.bindName? := by
    rw [List.filterMap_map]
    rfl
  rw [Node.patternVariables_eq, Node.patternVariables_eq, names, names, heads]

/-- A rule read in two places. The calls that are marked in one place only are of names that the
rule does not bind. -/
theorem ruleTwin_marked {K : String → Prop} {params : List String} {known known' : String → Bool}
    {rule r r' : Node} (sort : rule.OfSort .rule) (opened : ∀ m ∈ rule.walk, m.head.Opens)
    (differ : ∀ pattern template, rule.slots = [.one pattern, .one template] →
      ∀ x ∈ template.calledNames, known x ≠ known' x →
        K x ∧ x ∉ params ∧ x ∉ pattern.patternVariables)
    (hr : r.Alike (rule.marked known)) (hr' : r'.Alike (rule.marked known')) :
    RuleTwin K params r r' := by
  obtain ⟨span, isTransform, pattern, template, rfl, hp⟩ := sort.rule_cases
  have marked (known : String → Bool) :
      (Node.mk span (.macroRule isTransform) [.one pattern, .one template]).marked known =
        .mk span (.macroRule isTransform) [.one pattern, .one (template.marked known)] := by
    rw [Node.marked_plain (by simp), List.map_cons, Slot.map, hp.isPattern.marked]
    rfl
  have below := Node.mem_walk_child (n := .mk span (.macroRule isTransform) [.one pattern, .one template])
    (List.mem_cons_of_mem _ List.mem_cons_self) (List.mem_singleton_self template)
  rw [marked] at hr hr'
  obtain ⟨place, head, slots⟩ := r
  obtain ⟨place', head', slots'⟩ := r'
  obtain rfl : head = _ := hr.head
  obtain rfl : head' = _ := hr'.head
  have rel : List.Forall₂ (Slot.Rel Node.Alike) slots _ := hr.slots
  have rel' : List.Forall₂ (Slot.Rel Node.Alike) slots' _ := hr'.slots
  obtain _ | ⟨⟨⟩ | @⟨p, _, hp⟩ | ⟨_⟩, _ | ⟨⟨⟩ | @⟨t, _, ht⟩ | ⟨_⟩, ⟨⟩⟩⟩ := rel
  obtain _ | ⟨⟨⟩ | @⟨p', _, hp'⟩ | ⟨_⟩, _ | ⟨⟨⟩ | @⟨t', _, ht'⟩ | ⟨_⟩, ⟨⟩⟩⟩ := rel'
  refine .intro (hp.trans hp'.symm) ?_
  have twin : (template.marked known).Twin (fun x => K x ∧ x ∉ params ∧ x ∉ p.patternVariables)
      Head.Opens (template.marked known') :=
    Node.marked_twin template (sort.sorted.of_mem_walk below)
      (fun m hm => opened m (Node.mem_walk_trans below hm))
      (fun x hx unlike => hp.patternVariables ▸ differ _ _ rfl x hx unlike)
  have here := Node.Twin.of_alike _ ht twin
  exact Node.Twin.symm _ (Node.Twin.of_alike _ ht' (Node.Twin.symm _ here))

/-- A macro read in two places. -/
theorem definition_twin {K : String → Prop} {known known' : String → Bool} {n m m' : Node}
    {d d' : MacroDefinition} (sorted : n.Sorted)
    (opened : ∀ c ∈ n.children, ∀ k ∈ c.walk, k.head.Opens)
    (expand : ∀ x phase, n.definition? = some (x, phase) → phase = .expand)
    (differ : ∀ x, known x ≠ known' x → K x ∧ x ∉ n.boundCalls)
    (hm : m.Alike (n.marked known)) (hm' : m'.Alike (n.marked known'))
    (hd : MacroDefinition.ofNode? m = some d) (hd' : MacroDefinition.ofNode? m' = some d') :
    d.Twin K d' := by
  have made := Work.ofNode?_alike hm
  have made' := Work.ofNode?_alike hm'
  rw [hd, MacroDefinition.ofNode?_marked] at made
  rw [hd', MacroDefinition.ofNode?_marked] at made'
  cases own : MacroDefinition.ofNode? n with
  | none =>
    rw [own] at made
    cases made
  | some e =>
    rw [own] at made made'
    obtain ⟨same⟩ := made
    obtain ⟨same'⟩ := made'
    have sorts := MacroDefinition.sorted_of_node sorted own
    obtain ⟨span, head, slots⟩ := n
    obtain ⟨name, params, phase, hygiene, rules, template, rfl, rfl, rfl⟩ :
        ∃ name params phase hygiene rules template,
          head = .macroDef name params phase hygiene ∧ slots = [rules, template] ∧
          e = ⟨name, params, span, phase, hygiene, rules.toList, template.toList.head?⟩ := by
      unfold MacroDefinition.ofNode? at own
      split at own
      · rename_i name params phase hygiene rules template head slots
        exact ⟨name, params, phase, hygiene, rules, template, head, slots, (Option.some.inj own).symm⟩
      · cases own
    have child {c : Node} {s : Slot Node} (hs : s ∈ [rules, template]) (hc : c ∈ s.toList) :
        ∀ k ∈ c.walk, k.head.Opens := opened c (List.mem_flatMap.mpr ⟨s, hs, hc⟩)
    have bare : template.toList.head? = none := by
      by_contra given
      obtain ⟨q, hq⟩ := Option.ne_none_iff_exists'.mp given
      have quote : q.head = .quote := of_decide_eq_true (sorts.template q hq).admitted
      have open' := child (by simp) (List.mem_of_head? hq) q (Node.mem_walk_self q)
      rw [quote] at open'
      cases open'
    have plain {e : MacroDefinition} {known : String → Bool} (h : Option.Rel Node.Alike e.template
        (template.toList.head?.map (Node.marked known))) : e.templateBody? = none := by
      rw [bare] at h
      unfold MacroDefinition.templateBody?
      generalize e.template = o at h
      cases h
      rfl
    refine ⟨same.params.trans same'.params.symm, same.phase.trans same'.phase.symm,
      same.hygiene.trans same'.hygiene.symm, ?_, ?_, ?_⟩
    · rw [same.phase, show phase = .expand from expand _ _ rfl]
      nofun
    · rw [same.params]
      refine forall₂_of_common (List.forall₂_map_right_iff.mp same.rules).flip
        (List.forall₂_map_right_iff.mp same'.rules).flip fun rule hr r r' alike alike' => ?_
      refine ruleTwin_marked (sorts.rules rule hr) (child (by simp) hr) ?_ alike alike'
      intro pattern body parts x hx unlike
      obtain ⟨known, free⟩ := differ x unlike
      have unbound : x ∉ params ++ pattern.patternVariables := by
        intro bound
        refine free (List.mem_flatMap.mpr ⟨rule, hr, ?_⟩)
        simp only [parts, List.mem_filter]
        exact ⟨hx, decide_eq_true bound⟩
      rw [List.mem_append, not_or] at unbound
      exact ⟨known, unbound⟩
    · rw [plain same.template, plain same'.template]
      exact .none

theorem TopLevel.name?_of_made {s : TopLevel settings} {known : String → Bool} {m : Node}
    {d : MacroDefinition} (same : m.Alike (s.node.marked known))
    (made : MacroDefinition.ofNode? m = some d) : s.name? = some d.name := by
  have alike := Work.ofNode?_alike same
  rw [made, MacroDefinition.ofNode?_marked] at alike
  cases own : MacroDefinition.ofNode? s.node with
  | none =>
    rw [own] at alike
    cases alike
  | some e =>
    rw [own] at alike
    obtain ⟨alike⟩ := alike
    rw [alike.name]
    unfold MacroDefinition.ofNode? at own
    split at own
    · rename_i head _
      cases own
      rw [TopLevel.name?, Node.definition?, head]
      rfl
    · cases own

/-- The macros that are registered for a unit are those that its statements define. -/
theorem Plain.contains (plain : Plain unit) {T : Node} (sorted : T.Sorted)
    (read : T.Alike (.program default (read unit []) [])) (x : String) :
    (Registry.empty.enrol T.definitions).contains x = true ↔ x ∈ definedNames unit := by
  constructor
  · intro known
    rcases Registry.contains_enrol.mp known with ⟨d, hd, rfl⟩ | known
    · obtain ⟨front, s, back, m, rfl, same, made⟩ := plain.definition read hd
      exact mem_definedNames.mpr ⟨s, by simp, TopLevel.name?_of_made same made⟩
    · cases known
  · intro hx
    obtain ⟨s, hs, name⟩ := mem_definedNames.mp hx
    obtain ⟨⟨x, phase⟩, defines, rfl⟩ := Option.map_eq_some_iff.mp name
    refine (Node.contains_definitions sorted x).mpr (read.symm.defines x ?_)
    obtain ⟨front, back, rfl⟩ := List.append_of_mem hs
    have inside : s.node.marked (known front []).defines ∈
        (Node.program default (TopLevel.read (front ++ s :: back) []) []).walk :=
      Node.mem_walk_mk.mpr (.inr ⟨_, List.mem_cons_self, _,
        mem_read.mpr ⟨front, s, back, rfl, rfl⟩, Node.mem_walk_self _⟩)
    have macroDef : s.node.head.isMacroDef = true := by
      have named := s.isNone_name?
      rw [name] at named
      simpa using named.symm
    refine ⟨_, List.mem_filter.mpr ⟨inside, Node.isMacroDef_marked.trans macroDef⟩, phase, ?_⟩
    rw [Node.definition?_marked, defines]

theorem TopLevel.definedNames_split {front back : List (TopLevel settings)} {s : TopLevel settings}
    {x : String} (name : s.name? = some x) :
    definedNames (front ++ s :: back) = definedNames front ++ x :: definedNames back := by
  rw [definedNames, List.filterMap_append, List.filterMap_cons_some name]
  rfl

/-- What is known in front of a definition is a macro of the unit. -/
theorem TopLevel.defines_front {front back : List (TopLevel settings)} {s : TopLevel settings}
    {y : String} (h : (known front []).defines y = true) : y ∈ definedNames (front ++ s :: back) := by
  rcases (defines_known y).mp h with before | before
  · obtain ⟨t, ht, name⟩ := mem_definedNames.mp before
    exact mem_definedNames.mpr ⟨t, List.mem_append_left _ ht, name⟩
  · cases before

/-- The same macros are registered, one like the other. -/
theorem Reordered.registry_twin (h : Reordered unit unit') (plain : Plain unit) (lexed : Lexed unit)
    (steady : Steady unit unit') {T T' : Node} (sorted : T.Sorted) (sorted' : T'.Sorted)
    (read : T.Alike (.program default (read unit []) []))
    (read' : T'.Alike (.program default (TopLevel.read unit' []) [])) :
    (Registry.empty.enrol T.definitions).Twin (· ∈ definedNames unit)
      (Registry.empty.enrol T'.definitions) := by
  have names : ∀ x, x ∈ definedNames unit' ↔ x ∈ definedNames unit := fun x =>
    (h.perm.filterMap name?).mem_iff
  have plain' := h.plain plain
  refine ⟨fun x => (plain.contains sorted read x).symm, fun x => ?_⟩
  have here := plain.contains sorted read x
  have there := (plain'.contains sorted' read' x).trans (names x)
  rw [← here] at there
  unfold Registry.contains at there
  cases hr : (Registry.empty.enrol T.definitions).find? x with
  | none =>
    rw [hr] at there
    cases hr' : (Registry.empty.enrol T'.definitions).find? x with
    | none => exact .none
    | some d' =>
      rw [hr'] at there
      cases there.mp rfl
  | some d =>
    rw [hr] at there
    obtain ⟨d', hr'⟩ := Option.isSome_iff_exists.mp (there.mpr rfl)
    rw [hr']
    refine .some ?_
    have mem {n : Node} {e : MacroDefinition}
        (found : (Registry.empty.enrol n.definitions).find? x = some e) :
        e ∈ n.definitions ∧ e.name = x := by
      refine ⟨(Registry.mem_enrol (List.mem_of_find?_eq_some found)).resolve_right nofun, ?_⟩
      simpa using List.find?_some found
    obtain ⟨hd, rfl⟩ := mem hr
    obtain ⟨hd', named⟩ := mem hr'
    obtain ⟨front, s, back, m, rfl, same, made⟩ := plain.definition read hd
    obtain ⟨front', s', back', m', rfl, same', made'⟩ := plain'.definition read' hd'
    have name := TopLevel.name?_of_made same made
    have name' := TopLevel.name?_of_made same' made'
    rw [named] at name'
    have hs : s ∈ front ++ s :: back := by simp
    obtain rfl : s = s' := plain.unique hs (h.perm.mem_iff.mp (by simp)) name name'
    obtain ⟨shape, tidy⟩ := lexed s hs
    refine definition_twin shape (fun c hc k hk => ?_) (plain.expanded s hs) (fun y unlike => ?_) same
      same' made made'
    · refine plain.opened hs tidy (Node.mem_walk_trans (Node.mem_walk_of_mem_children hc) hk) ?_
      exact Node.macros_of_mem_walk (plain.flat s hs c hc) hk
    · constructor
      · cases before : (known front []).defines y with
        | true => exact TopLevel.defines_front before
        | false =>
          rw [before] at unlike
          exact (names y).mp (TopLevel.defines_front (by simpa using unlike.symm))
      · intro bound
        have order := steady s hs y bound d.name name
        rw [TopLevel.definedNames_split name, TopLevel.definedNames_split name',
          sublist_pair_iff (TopLevel.definedNames_split name ▸ plain.distinct),
          sublist_pair_iff (TopLevel.definedNames_split name' ▸ plain'.distinct)] at order
        refine unlike (Bool.eq_iff_iff.mpr ?_)
        rw [defines_known, defines_known, order]

end GlyphScript
