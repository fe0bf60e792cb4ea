import GlyphScript.Proofs.Parsing.Enrolment
import GlyphScript.Proofs.Stability.Passes
import GlyphScript.Proofs.Stability.Printable
import Mathlib.Data.List.Flatten

/-!
# The macros of elementary programs

In an elementary program the definitions contain no further ones, quotes are
templates only, and all macros are expanded in passes and inject nothing. What
the parser registers for it are then clean templates, and the calls in it that
a printed text could be misread for are those inside its definitions.
-/

namespace GlyphScript

namespace Registry

variable {r : Registry} {ds : List MacroDefinition}

theorem mem_enrol {e : MacroDefinition} (h : e ∈ (r.enrol ds).macros) : e ∈ ds ∨ e ∈ r.macros := by
  unfold enrol at h
  induction ds generalizing r with
  | nil => exact .inr h
  | cons d ds ih =>
    rcases ih h with he | he
    · exact .inl (List.mem_cons_of_mem _ he)
    · rcases mem_insert he with rfl | he
      · exact .inl List.mem_cons_self
      · exact .inr he

theorem contains_enrol {x : String} :
    (r.enrol ds).contains x = true ↔ (∃ d ∈ ds, d.name = x) ∨ r.contains x = true := by
  unfold enrol
  induction ds generalizing r with
  | nil => simp
  | cons d ds ih =>
    rw [List.foldl_cons, ih, contains_insert]
    simp only [List.exists_mem_cons_iff, Bool.or_eq_true, decide_eq_true_eq]
    rw [or_left_comm, or_assoc]

end Registry

namespace Head

theorem isTemplate_eq_false {h : Head} (unquoted : h ≠ .quote) (plain : h.isMacroDef = false) :
    h.isTemplate = false := by
  cases h
  case quote => exact absurd rfl unquoted
  case macroDef => cases plain
  all_goals rfl

/-- The macro that is defined is expanded in passes and injects nothing. -/
def isOrdinary : Head → Bool
  | .macroDef _ _ phase hygiene => phase = .expand && hygiene ≠ .inject
  | _ => true

theorem isSealed_of_isMacroDef {h : Head} (macroDef : h.isMacroDef = true) : h.isSealed = true := by
  cases h
  case macroDef => rfl
  all_goals cases macroDef

end Head

namespace Node

variable {n m : Node} {r : Registry}

theorem mem_walk_parent (h : m ∈ n.walk) : m = n ∨ ∃ p ∈ n.walk, m ∈ p.children := by
  induction n using induction_on with
  | step span head slots ih =>
    rcases mem_walk_mk.mp h with rfl | ⟨s, hs, c, hc, hm⟩
    · exact .inl rfl
    · have child : c ∈ (mk span head slots).children := List.mem_flatMap.mpr ⟨s, hs, hc⟩
      rcases ih s hs c hc hm with rfl | ⟨p, hp, hm⟩
      · exact .inr ⟨_, mem_walk_self _, child⟩
      · exact .inr ⟨p, mem_walk_trans (mem_walk_of_mem_children child) hp, hm⟩

theorem Exposes.parent (h : n.Exposes m) :
    m = n ∨ ∃ p ∈ n.walk, p.head.isSealed = false ∧ m ∈ p.children := by
  induction h with
  | self => exact .inl rfl
  | @child n c m opened hc _ ih =>
    rcases ih with rfl | ⟨p, hp, opened', hm⟩
    · exact .inr ⟨n, mem_walk_self n, opened, hc⟩
    · exact .inr ⟨p, mem_walk_trans (mem_walk_of_mem_children hc) hp, opened', hm⟩

theorem mem_finished : m ∈ n.finished ↔ m ∈ n.walk := by
  induction n using induction_on with
  | step span head slots ih =>
    simp only [finished_mk, mem_walk_mk, List.mem_append, List.mem_flatMap, List.mem_singleton]
    rw [or_comm]
    refine or_congr_right ⟨?_, ?_⟩ <;>
    · rintro ⟨s, hs, c, hc, hm⟩
      first | exact ⟨s, hs, c, hc, (ih s hs c hc).mp hm⟩ | exact ⟨s, hs, c, hc, (ih s hs c hc).mpr hm⟩

/-! ## Names of macros -/

/-- A macro of the name is defined in the tree. -/
def Defines (n : Node) (x : String) : Prop := ∃ d ∈ n.macros, ∃ phase, d.definition? = some (x, phase)

theorem defines_of_macros {n' : Node} (h : n.macros = n'.macros) (x : String) :
    n.Defines x ↔ n'.Defines x := by
  rw [Defines, Defines, h]

theorem Alike.defines {n' : Node} (h : n.Alike n') (x : String) : n.Defines x → n'.Defines x := by
  rintro ⟨d, hd, phase, defines⟩
  obtain ⟨walk, macroDef⟩ := List.mem_filter.mp hd
  obtain ⟨d', hd', same : d.Alike d'⟩ := exists_of_mem_right h.walk.flip walk
  exact ⟨d', List.mem_filter.mpr ⟨hd', same.head ▸ macroDef⟩, phase, same.definition? ▸ defines⟩

/-- The definition that a sorted node makes. -/
theorem SortedAt.ofNode? (h : n.SortedAt) (macroDef : n.head.isMacroDef = true) :
    ∃ d phase, MacroDefinition.ofNode? n = some d ∧ n.definition? = some (d.name, phase) := by
  obtain ⟨span, head, slots⟩ := n
  cases head <;> cases macroDef
  obtain _ | ⟨-, _ | ⟨-, ⟨⟩⟩⟩ := h
  exact ⟨_, _, rfl, rfl⟩

theorem isMacroDef_of_ofNode? {d : MacroDefinition} (h : MacroDefinition.ofNode? n = some d) :
    n.head.isMacroDef = true := by
  unfold MacroDefinition.ofNode? at h
  split at h
  · rename_i head _
    rw [head]
    rfl
  · cases h

/-- The registry of a program knows the macros that are defined in it. -/
theorem contains_definitions (h : n.Sorted) (x : String) :
    (Registry.empty.enrol n.definitions).contains x = true ↔ n.Defines x := by
  have none : Registry.empty.contains x = false := rfl
  rw [Registry.contains_enrol, none]
  simp only [Bool.false_eq_true, or_false]
  constructor
  · rintro ⟨d, hd, rfl⟩
    obtain ⟨m, hm, made⟩ := List.mem_filterMap.mp hd
    have walk := mem_finished.mp hm
    have macroDef := isMacroDef_of_ofNode? made
    obtain ⟨d', phase, made', defines⟩ := (h m walk).ofNode? macroDef
    cases made.symm.trans made'
    exact ⟨m, List.mem_filter.mpr ⟨walk, macroDef⟩, phase, defines⟩
  · rintro ⟨m, hm, phase, defines⟩
    obtain ⟨walk, macroDef⟩ := List.mem_filter.mp hm
    obtain ⟨d, phase', made, defines'⟩ := (h m walk).ofNode? macroDef
    cases defines.symm.trans defines'
    exact ⟨d, List.mem_filterMap.mpr ⟨m, mem_finished.mpr walk, made⟩, rfl⟩

/-! ## Elementary programs -/

/-- All macros are expanded in passes and inject nothing, no definition stands inside another, and
the only quotes are templates of macros. -/
structure Elementary (n : Node) : Prop where
  ordinary : ∀ d ∈ n.macros, d.head.isOrdinary = true
  flat : ∀ d ∈ n.macros, ∀ c ∈ d.children, c.macros = []
  quotes : ∀ m ∈ n.walk, ∀ c ∈ m.children, c.head = .quote → m.head.isMacroDef = true

instance (n : Node) : Decidable n.Elementary :=
  decidable_of_iff (_ ∧ _ ∧ _)
    (Iff.intro (fun h => Elementary.mk h.1 h.2.1 h.2.2) fun h => ⟨h.ordinary, h.flat, h.quotes⟩)

theorem macros_of_mem_walk (none : n.macros = []) (hm : m ∈ n.walk) : m.head.isMacroDef = false :=
  Bool.eq_false_iff.mpr (List.filter_eq_nil_iff.mp none m hm)

/-- Where no macro is defined and no quote stands all is clean. -/
theorem Tidy.clean (tidy : n.Tidy) (plain : n.head ≠ .quote) (none : n.macros = [])
    (quotes : ∀ m ∈ n.walk, ∀ c ∈ m.children, c.head = .quote → m.head.isMacroDef = true) :
    n.Clean := by
  intro m hm
  refine ⟨tidy m hm, ?_⟩
  have unquoted : m.head ≠ .quote := by
    rcases mem_walk_parent hm with rfl | ⟨p, hp, child⟩
    · exact plain
    · intro quote
      exact Bool.noConfusion ((quotes p hp m child quote).symm.trans (macros_of_mem_walk none hp))
  exact Head.isTemplate_eq_false unquoted (macros_of_mem_walk none hm)

namespace Elementary

variable (h : n.Elementary)

include h

theorem orderly (sorted : n.Sorted) (tidy : n.Tidy) (plain : n.head ≠ .quote) : n.Orderly where
  sorted := sorted
  tidy := tidy
  unquoted m hm quote := by
    rcases hm.parent with rfl | ⟨p, hp, opened, child⟩
    · exact plain quote
    · have closed := Head.isSealed_of_isMacroDef (h.quotes p hp m child quote)
      exact Bool.noConfusion (opened.symm.trans closed)

/-- What the parser registers for an elementary program is as passes want it. -/
theorem ordinary_definition (sorted : n.Sorted) (tidy : n.Tidy) {d : MacroDefinition} (hd : d ∈ n.definitions) :
    d.Ordinary := by
  obtain ⟨m, hm, made⟩ := List.mem_filterMap.mp hd
  have walk := mem_finished.mp hm
  have own : m ∈ n.macros := List.mem_filter.mpr ⟨walk, isMacroDef_of_ofNode? made⟩
  have flat := h.flat m own
  have expanded := h.ordinary m own
  have children : ∀ c ∈ m.children, c.Sorted ∧ c.Tidy ∧ ∀ k ∈ c.walk, ∀ e ∈ k.children,
      e.head = .quote → k.head.isMacroDef = true := by
    intro c hc
    have inside := mem_walk_trans walk (mem_walk_of_mem_children hc)
    exact ⟨sorted.of_mem_walk inside, tidy.of_mem_walk inside, fun k hk =>
      h.quotes k (mem_walk_trans inside hk)⟩
  have fields := (sorted.of_mem_walk walk).slots
  obtain ⟨span, head, slots⟩ := m
  unfold MacroDefinition.ofNode? at made
  split at made
  · rename_i name params phase hygiene rules template hh hs
    obtain rfl : head = _ := hh
    obtain rfl : slots = _ := hs
    cases made
    obtain _ | ⟨first, _ | ⟨second, ⟨⟩⟩⟩ := fields
    have rule (c : Node) (hc : c ∈ rules.toList) : c ∈
        (Node.mk span (.macroDef name params phase hygiene) [rules, template]).children := List.mem_flatMap.mpr ⟨rules, List.mem_cons_self, hc⟩
    have quoted (q : Node) (hq : template.toList.head? = some q) :
        q ∈ template.toList ∧
          q ∈ (Node.mk span (.macroDef name params phase hygiene) [rules, template]).children := by
      have hq := List.mem_of_mem_head? hq
      exact ⟨hq, List.mem_flatMap.mpr ⟨template, List.mem_cons_of_mem _ List.mem_cons_self, hq⟩⟩
    obtain ⟨expand, inert⟩ : phase = .expand ∧ hygiene ≠ .inject := by
      simpa [Head.isOrdinary, Node.head] using expanded
    refine ⟨⟨first.children, fun q hq => second.children q (quoted q hq).1⟩, ⟨?_, ?_⟩, expand, inert⟩
    · intro c hc
      obtain ⟨-, tidy, quotes⟩ := children c (rule c hc)
      refine tidy.clean (fun quote => ?_) (flat c (rule c hc)) quotes
      have admitted := (first.children c hc).admitted
      rw [quote] at admitted
      cases admitted
    · intro q hq c hc
      obtain ⟨hq, child⟩ := quoted q hq
      obtain ⟨-, tidy, quotes⟩ := children q child
      have is : q.head = .quote := of_decide_eq_true (second.children q hq).admitted
      have inside := mem_walk_of_mem_children hc
      refine Tidy.clean (tidy.of_mem_walk inside) (fun quote => ?_) ?_ fun k hk =>
        quotes k (mem_walk_trans inside hk)
      · have macroDef := quotes q (mem_walk_self q) c hc quote
        rw [is] at macroDef
        cases macroDef
      · refine List.filter_eq_nil_iff.mpr fun k hk => ?_
        exact List.filter_eq_nil_iff.mp (flat q child) k (mem_walk_trans inside hk)
  · cases made

end Elementary

/-! ## Calls -/

/-- The node defines a macro, or calls one of the registry by its name. -/
def concerns (r : Registry) (n : Node) : Bool := n.head.isMacroDef || n.calledName?.any r.contains

/-- The definitions of a tree end one after the other as in the tree. -/
theorem finished_macros (flat : ∀ d ∈ n.macros, ∀ c ∈ d.children, c.macros = []) :
    (n.macros.flatMap finished).Sublist n.finished := by
  induction n using induction_on with
  | step span head slots ih =>
    have below (s : Slot Node) (hs : s ∈ slots) (c : Node) (hc : c ∈ s.toList) :
        ∀ d ∈ c.macros, d ∈ (mk span head slots).macros := by
      rw [macros_mk]
      exact fun d hd => List.mem_append_right _
        (List.mem_flatMap.mpr ⟨s, hs, List.mem_flatMap.mpr ⟨c, hc, hd⟩⟩)
    have inner : ((slots.flatMap fun s => s.toList.flatMap macros).flatMap finished).Sublist
        (slots.flatMap fun s => s.toList.flatMap finished) := by
      rw [List.flatMap_assoc]
      refine List.Sublist.flatMap_right _ fun s hs => ?_
      rw [List.flatMap_assoc]
      refine List.Sublist.flatMap_right _ fun c hc => ih s hs c hc fun d hd => ?_
      exact flat d (below s hs c hc d hd)
    cases own : head.isMacroDef with
    | false =>
      rw [macros_mk, own, finished_mk]
      exact inner.trans (List.sublist_append_left _ _)
    | true =>
      have none : (slots.flatMap fun s => s.toList.flatMap macros) = [] := by
        refine List.flatMap_eq_nil_iff.mpr fun s hs => List.flatMap_eq_nil_iff.mpr fun c hc => ?_
        refine flat (mk span head slots) ?_ c (List.mem_flatMap.mpr ⟨s, hs, hc⟩)
        rw [macros_mk, own]
        exact List.mem_cons_self
      rw [macros_mk, own, none, if_pos rfl, List.append_nil, List.flatMap_singleton]

/-- In a settled program only its definitions concern the macros. -/
theorem filter_finished (orderly : n.Orderly) (settled : n.Settled r)
    (flat : ∀ d ∈ n.macros, ∀ c ∈ d.children, c.macros = []) :
    n.finished.filter (concerns r) = (n.macros.flatMap finished).filter (concerns r) := by
  induction n using induction_on with
  | step span head slots ih =>
    obtain ⟨own, below⟩ := settled_iff.mp settled
    by_cases macroDef : head.isMacroDef = true
    · have none : (slots.flatMap fun s => s.toList.flatMap macros) = [] := by
        refine List.flatMap_eq_nil_iff.mpr fun s hs => List.flatMap_eq_nil_iff.mpr fun c hc => ?_
        refine flat (mk span head slots) ?_ c (List.mem_flatMap.mpr ⟨s, hs, hc⟩)
        rw [macros_mk, if_pos macroDef]
        exact List.mem_cons_self
      rw [macros_mk, none, if_pos macroDef, List.append_nil, List.flatMap_singleton]
    · have opened : head.isSealed = false := by
        have unquoted := orderly.unquoted _ .self
        have spelled := orderly.tidy.self.spelled
        cases head
        case macroCall name deferred => cases deferred <;> first | rfl | cases spelled
        case quote => exact absurd rfl unquoted
        case macroDef => exact absurd rfl macroDef
        all_goals rfl
      have idle : concerns r (mk span head slots) = false := by
        rw [concerns, Bool.or_eq_false_iff]
        refine ⟨Bool.eq_false_iff.mpr macroDef, ?_⟩
        cases called : (mk span head slots).calledName? with
        | none => rfl
        | some x =>
          unfold calledName? at called
          split at called
          · rename_i callee slots' is hs
            split at called
            · rename_i y callee'
              cases called
              refine own.uncalled is callee x ?_ callee'
              rw [hs]
              exact List.mem_cons_self
            · cases called
          · cases called
      rw [macros_mk, if_neg macroDef, List.nil_append, finished_mk, List.filter_append,
        List.filter_singleton, idle, cond_false, List.append_nil]
      simp only [List.filter_flatMap, List.flatMap_assoc]
      refine List.flatMap_congr fun s hs => List.flatMap_congr fun c hc => ?_
      have child : c ∈ (mk span head slots).children := List.mem_flatMap.mpr ⟨s, hs, hc⟩
      rw [ih s hs c hc (orderly.child opened child) (below opened c child), List.filter_flatMap]
      intro d hd
      refine flat d ?_
      rw [macros_mk]
      exact List.mem_append_right _
        (List.mem_flatMap.mpr ⟨s, hs, List.mem_flatMap.mpr ⟨c, hc, hd⟩⟩)

/-- In a settled program no call could be read as that of a macro, if that is so in a program with
the same definitions. -/
theorem Settled.calls {n' : Node} (settled : n'.Settled r) (orderly : n'.Orderly)
    (macros : n'.macros = n.macros) (flat : ∀ d ∈ n.macros, ∀ c ∈ d.children, c.macros = [])
    (known : ∀ x, n.Defines x → r.contains x = true)
    (apart : n.finished.Pairwise fun d c => d.isCalledBy c = false) :
    n'.finished.Pairwise fun d c => d.isCalledBy c = false := by
  have inside : (n'.finished.filter (concerns r)).Pairwise fun d c => d.isCalledBy c = false := by
    rw [filter_finished orderly settled (macros ▸ flat), macros]
    exact apart.sublist ((List.filter_sublist).trans (finished_macros flat))
  refine (List.pairwise_filter.mp inside).imp_of_mem fun {d c} hd hc free => ?_
  refine Bool.eq_false_iff.mpr fun called => ?_
  obtain ⟨⟨x, phase⟩, defines, callee⟩ := (Option.any_eq_true _ _).mp called
  have macroDef : d.head.isMacroDef = true := by
    unfold definition? at defines
    split at defines
    · rename_i head
      rw [head]
      rfl
    · cases defines
  have own : d ∈ n.macros := macros ▸ List.mem_filter.mpr ⟨mem_finished.mp hd, macroDef⟩
  have callee := of_decide_eq_true callee
  have concerned : concerns r c = true := by
    rw [concerns, callee, Option.any_some, known x ⟨d, own, phase, defines⟩, Bool.or_true]
  exact Bool.noConfusion ((free (by rw [concerns, macroDef, Bool.true_or]) concerned).symm.trans called)

end Node

end GlyphScript
