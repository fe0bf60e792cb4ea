import GlyphScript.Proofs.Layout.Units
import GlyphScript.Proofs.Macro.Clauses
import GlyphScript.Proofs.Macro.Expansion
import GlyphScript.Proofs.Macro.Pass
import GlyphScript.Proofs.Macro.Supply
import GlyphScript.Proofs.Order.Twins

/-!
# Units that define their macros in other orders

Macros whose templates are twins, in registries of any order, and gensyms that
have the same names in use. To prepare, fill and select templates comes to the
same for both, as long as no template calls a name that is bound in it.
-/

namespace GlyphScript

/-! ## Symbols -/

namespace Gensym

/-- The same names are in use, and as many symbols of each base have been given out. -/
structure Same (g g' : Gensym) : Prop where
  separator : g.separator = g'.separator
  taken : ∀ x, g.isTaken x = g'.isTaken x
  counters : g.counters = g'.counters

variable {g g' : Gensym}

theorem Same.symbol (h : g.Same g') : g.symbol = g'.symbol := by
  funext base number
  rw [Gensym.symbol, Gensym.symbol, h.separator]

theorem Same.symbolBase (h : g.Same g') (name : String) : g.symbolBase name = g'.symbolBase name := by
  have base : g.baseOf name = g'.baseOf name := by rw [baseOf, baseOf, h.separator]
  rw [Gensym.symbolBase, Gensym.symbolBase, base, h.symbol]

/-- The first number whose symbol is free is the same. -/
theorem Same.freeNumber (h : g.Same g') (base : String) (start : Nat) :
    g.freeNumber base g.taken.size start = g'.freeNumber base g'.taken.size start := by
  obtain ⟨least, passed⟩ := g.freeNumber_first base g.taken.size start
  obtain ⟨least', passed'⟩ := g'.freeNumber_first base g'.taken.size start
  have free := g.isTaken_symbol_freeNumber base start
  have free' := g'.isTaken_symbol_freeNumber base start
  rw [h.taken, h.symbol] at free
  rcases Nat.lt_trichotomy (g.freeNumber base g.taken.size start)
    (g'.freeNumber base g'.taken.size start) with less | same | less
  · rw [passed' _ least less] at free
    cases free
  · exact same
  · have taken := passed _ least' less
    rw [h.taken, h.symbol, free'] at taken
    cases taken

theorem Same.fresh (h : g.Same g') (name : String) :
    (g.fresh name).1 = (g'.fresh name).1 ∧ (g.fresh name).2.Same (g'.fresh name).2 := by
  have symbols : (g.fresh name).1 = (g'.fresh name).1 := by
    unfold Gensym.fresh
    dsimp only
    rw [h.symbolBase, h.counters, h.freeNumber, h.symbol]
  refine ⟨symbols, h.separator, fun x => Bool.eq_iff_iff.mpr ?_, ?_⟩
  · rw [isTaken_snd_fresh, isTaken_snd_fresh, symbols, h.taken]
  · unfold Gensym.fresh
    dsimp only
    rw [h.symbolBase, h.counters, h.freeNumber]

end Gensym

/-- To be given the same symbols, whatever names have been put into use in whatever order. -/
def issuing : Correspondence IsolateM := .state fun s s' => s.1 = s'.1 ∧ s.2.Same s'.2

theorem rename_same (x : String) : issuing.rel Eq (RenameTable.rename x) (RenameTable.rename x) := by
  rintro ⟨t, g⟩ ⟨t', g'⟩ ⟨same, h⟩
  obtain rfl : t = t' := same
  obtain ⟨symbols, states⟩ := h.fresh x
  unfold RenameTable.rename
  dsimp only
  cases t.find? x with
  | some symbol => exact ⟨rfl, rfl, h⟩
  | none => exact ⟨symbols, by rw [symbols], states⟩

section

variable {keep keep' : List String} (same : ∀ x, x ∈ keep ↔ x ∈ keep')

include same

theorem isolatedName_same (x : String) :
    issuing.rel Eq (Node.isolatedName keep x) (Node.isolatedName keep' x) := by
  have kept : keep.contains x = keep'.contains x := by
    rw [Bool.eq_iff_iff, List.contains_iff_mem, List.contains_iff_mem, same]
  unfold Node.isolatedName
  rw [kept]
  split
  · exact issuing.pure rfl
  · exact rename_same x

end

/-- Names that a node binds do not tell whether it is sealed. -/
theorem Head.isSealed_withNames (h : Head) (ys : List String) :
    (h.withNames ys).isSealed = h.isSealed := by
  unfold withNames
  split <;> rfl

theorem Correspondence.mapBindersM_sealed {m : Type → Type} [Monad m] [LawfulMonad m]
    (C : Correspondence m) {f g : Head.BinderPosition → String → m String}
    (h : ∀ p x, C.rel Eq (f p x) (g p x)) (head : Head) :
    C.rel (fun k k' => k = k' ∧ k.isSealed = head.isSealed) (head.mapBindersM f)
      (head.mapBindersM g) := by
  by_cases name : ∃ x, head = .identifier x
  · obtain ⟨x, rfl⟩ := name
    exact C.pure ⟨rfl, rfl⟩
  · have other : ∀ x, head ≠ .identifier x := fun x e => name ⟨x, e⟩
    rw [Head.mapBindersM_eq f other, Head.mapBindersM_eq g other]
    have names : C.rel (List.Forall₂ Eq) (head.binders.mapM fun b => f b.1 b.2)
        (head.binders.mapM fun b => g b.1 b.2) := by
      refine C.mapM (List.forall₂_same.mpr fun b _ => Eq.refl b) fun b _ b' e => ?_
      rw [← e]
      exact h b.1 b.2
    refine C.map names fun ys ys' e => ?_
    rw [List.forall₂_eq_eq_eq] at e
    exact ⟨by rw [e], Head.isSealed_withNames head ys⟩

/-! ## Isolating -/

/-- Trees of which expansion gets to see everything. -/
abbrev Head.Opens (h : Head) : Prop := h.isSealed = false

section

variable {keep keep' : List String} {K : String → Prop} {n n' : Node}

theorem isolatedHead_same (same : ∀ x, x ∈ keep ↔ x ∈ keep') (head : Head) :
    issuing.rel (fun k k' => k = k' ∧ k.isSealed = head.isSealed) (Node.isolatedHead keep head)
      (Node.isolatedHead keep' head) := by
  have made := issuing.mapBindersM_sealed (f := fun _ => Node.isolatedName keep)
    (g := fun _ => Node.isolatedName keep') (fun _ => isolatedName_same same) head
  cases head
  case identifier x =>
    exact issuing.bind (isolatedName_same same x) fun y y' e => issuing.pure ⟨by rw [e], rfl⟩
  all_goals exact made

/-- A marked call has no name of its own that could be renamed. -/
theorem isolate_marked (keep : List String) (span : Span) (x : String) (args : Slot Node)
    (depth : Nat) :
    (Node.mk span (.macroCall x false) [args]).transformM (Node.isolating keep) depth =
      (fun s => Node.mk span (.macroCall x false) [s]) <$>
        Node.transformSlotM (Node.isolating keep) depth args := by
  rw [Node.transformM]
  simp only [Node.transformSlotsM_eq]
  by_cases h : depth = 0 <;>
    simp [Node.isolating, Node.isolatedHead, Head.innerDepth, Head.mapBindersM, Node.span, Node.head, Node.slots, h]

/-- The callee of a plain call is left as it is if its name is kept. -/
theorem isolate_plain {keep : List String} {x : String} (hx : x ∈ keep) (span place : Span)
    (args : Slot Node) (depth : Nat) :
    (Node.mk span .call [.one (.mk place (.identifier x) []), args]).transformM
        (Node.isolating keep) depth =
      (fun s => Node.mk span .call [.one (.mk place (.identifier x) []), s]) <$>
        Node.transformSlotM (Node.isolating keep) depth args := by
  rw [Node.transformM]
  simp only [Node.transformSlotsM_eq]
  by_cases h : depth = 0 <;>
    simp [Node.isolating, Node.isolatedHead, Head.innerDepth, Head.mapBindersM, Node.span, Node.head, Node.slots, h,
      Node.transformSlotM, Node.transformM, Node.transformSlotsM, Node.isolatedName, hx]

theorem isolate_twin (same : ∀ x, x ∈ keep ↔ x ∈ keep') (kept : ∀ x, K x → x ∈ keep)
    (h : n.Twin K Head.Opens n') :
    issuing.rel (Node.Twin K Head.Opens) (n.isolate keep) (n'.isolate keep') := by
  refine issuing.transformM_twin (P := fun _ => True) (fun _ _ _ _ _ _ => trivial) ?_ ?_
    (fun _ _ h => .one h) ?_ ?_ n 0 n' trivial h
  · intro depth span span' head slots slots' _ _ _
    exact issuing.pure .inside
  · intro depth span span' head slots slots' here rel
    by_cases out : depth = 0
    · simp only [Node.isolating, if_pos out]
      refine issuing.bind (isolatedHead_same same head) fun k k' heads => ?_
      obtain ⟨rfl, opened⟩ := heads
      exact issuing.pure (.same (opened.trans here) rel)
    · simp only [Node.isolating, if_neg out]
      exact issuing.pure (.same here rel)
  · intro depth span span' place x args args' hx _ _ below
    rw [isolate_marked, isolate_plain ((same x).mp (kept x hx))]
    exact issuing.map (below depth) fun s s' r => .marked hx r
  · intro depth span span' place x args args' hx _ _ below
    rw [isolate_marked, isolate_plain (kept x hx)]
    exact issuing.map (below depth) fun s s' r => .unmarked hx r

theorem withHygiene_twin (same : ∀ x, x ∈ keep ↔ x ∈ keep') (kept : ∀ x, K x → x ∈ keep)
    (h : n.Twin K Head.Opens n') (hygiene : Hygiene) {g g' : Gensym} (hg : g.Same g') :
    (n.withHygiene hygiene keep g).1.Twin K Head.Opens (n'.withHygiene hygiene keep' g').1 ∧
      (n.withHygiene hygiene keep g).2.1 = (n'.withHygiene hygiene keep' g').2.1 ∧
      (n.withHygiene hygiene keep g).2.2.Same (n'.withHygiene hygiene keep' g').2.2 := by
  cases hygiene with
  | capture | inject => exact ⟨h, rfl, hg⟩
  | isolate =>
    obtain ⟨trees, tables, states⟩ := isolate_twin same kept h (RenameTable.empty, g)
      (RenameTable.empty, g') ⟨rfl, hg⟩
    exact ⟨trees, congrArg some tables, states⟩

end

/-! ## Filling -/

/-- Results that correspond, or faults of any kind on both sides. -/
def outcome : Correspondence (Except ExpansionFault) := .except fun _ _ => True

/-- Twins to be put into the templates of one macro. -/
structure Filling.Twin (K : String → Prop) (f f' : Filling) : Prop where
  bindings : f.bindings.Rel (Node.Twin K Head.Opens) f'.bindings
  level : f.level = f'.level

section

variable {K L : String → Prop} {f f' : Filling} {t t' : Node}

theorem binder_twin (h : f.Twin K f') (receiver : String) (position : Head.BinderPosition)
    (name : String) : outcome.rel Eq (f.binder receiver position name)
      (f'.binder receiver position name) := by
  have bound := h.bindings.lookup name
  unfold Filling.binder
  generalize f.bindings.lookup name = o, f'.bindings.lookup name = o' at bound
  cases bound with
  | none => exact .ok rfl
  | @some n n' twin =>
    dsimp only
    by_cases name : ∃ x, n.head = .identifier x
    · obtain ⟨x, is⟩ := name
      rw [is, (twin.head_iff rfl).mp is]
      exact .ok rfl
    · have other : ¬ ∃ x, n'.head = .identifier x := by
        rintro ⟨x, is⟩
        exact name ⟨x, (twin.head_iff rfl).mpr is⟩
      split
      · exact absurd ⟨_, ‹_›⟩ name
      · split
        · exact absurd ⟨_, ‹_›⟩ other
        · exact .error trivial

theorem fill_marked (f : Filling) (span : Span) (x : String) (args : Slot Node) (depth : Nat) :
    (Node.mk span (.macroCall x false) [args]).transformM f.transform depth =
      (fun s => Node.mk span (.macroCall x false) [s]) <$>
        Node.transformSlotM f.transform depth args := by
  rw [Node.transformM]
  simp only [Node.transformSlotsM_eq]
  by_cases h : depth = 0 <;>
    simp [Filling.transform, Head.innerDepth, Head.mapBindersM, Node.span, Node.head, Node.slots, h]

/-- The callee of a plain call is left as it is if its name is not bound. -/
theorem fill_plain {f : Filling} {x : String} (free : f.bindings.lookup x = none)
    (span place : Span) (args : Slot Node) (depth : Nat) :
    (Node.mk span .call [.one (.mk place (.identifier x) []), args]).transformM f.transform depth =
      (fun s => Node.mk span .call [.one (.mk place (.identifier x) []), s]) <$>
        Node.transformSlotM f.transform depth args := by
  rw [Node.transformM]
  simp only [Node.transformSlotsM_eq]
  by_cases h : depth = 0 <;>
    simp [Filling.transform, Head.innerDepth, Head.mapBindersM, Node.span, Node.head, Node.slots, h,
      Node.transformSlotM, Node.transformM, free]

/-- Templates that are twins are filled alike if the calls that one of them marks are of names that
are not bound. -/
theorem substitute_twin (among : ∀ x, L x → K x) (free : ∀ x, L x → f.bindings.lookup x = none)
    (hf : f.Twin K f') (ht : t.Twin L Head.Opens t') :
    outcome.rel (Node.Twin K Head.Opens) (t.substitute f) (t'.substitute f') := by
  have free' : ∀ x, L x → f'.bindings.lookup x = none := by
    intro x hx
    have bound := hf.bindings.lookup x
    rw [free x hx] at bound
    cases h : f'.bindings.lookup x with
    | none => rfl
    | some n =>
      rw [h] at bound
      cases bound
  unfold Node.substitute
  rw [hf.level]
  refine outcome.transformM_twin (P := fun _ => True) (fun _ _ _ _ _ _ => trivial) ?_ ?_
    (fun _ _ h => .one h) ?_ ?_ t f'.level t' trivial ht
  · intro depth span span' head slots slots' here _ rel
    have both : (Node.mk span head slots).Twin K Head.Opens (.mk span' head slots') :=
      .same here (rel.imp fun _ _ r => r.imp fun _ _ h => h.mono among fun _ opened => opened)
    cases head
    case identifier name =>
      refine .ok (.done ?_)
      by_cases out : depth = 0
      · have bound := hf.bindings.lookup name
        rw [if_pos out, if_pos out]
        generalize f.bindings.lookup name = o, f'.bindings.lookup name = o' at bound
        cases bound with
        | none => exact both
        | some bound => exact bound
      · rw [if_neg out, if_neg out]
        exact both
    all_goals exact .ok .inside
  · intro depth span span' head slots slots' here rel
    have renamed : outcome.rel (Node.Twin K Head.Opens)
        (if depth = 0 then do
            return Node.mk span (← head.mapBindersM (f.binder head.className)) slots
          else return Node.mk span head slots)
        (if depth = 0 then do
            return Node.mk span' (← head.mapBindersM (f'.binder head.className)) slots'
          else return Node.mk span' head slots') := by
      by_cases out : depth = 0
      · rw [if_pos out, if_pos out]
        have heads := outcome.mapBindersM_sealed (binder_twin hf head.className) head
        refine outcome.bind heads fun k k' ⟨e, opened⟩ => outcome.pure ?_
        subst e
        exact .same (opened.trans here) rel
      · rw [if_neg out, if_neg out]
        exact outcome.pure (.same here rel)
    cases head
    case unquote =>
      rcases rel with _ | ⟨⟨⟩ | ⟨e⟩ | ⟨_⟩, _ | ⟨_, _⟩⟩
      case cons.one.nil =>
        dsimp only [Filling.transform, Node.head, Node.slots]
        rw [hf.level]
        split
        · exact outcome.pure e
        · exact outcome.pure (.same here (.cons (.one e) .nil))
      all_goals exact renamed
    all_goals exact renamed
  · intro depth span span' place x args args' hx _ _ below
    rw [fill_marked, fill_plain (free' x hx)]
    exact outcome.map (below depth) fun s s' r => .marked (among x hx) r
  · intro depth span span' place x args args' hx _ _ below
    rw [fill_marked, fill_plain (free x hx)]
    exact outcome.map (below depth) fun s s' r => .unmarked (among x hx) r

end

/-! ## Macros and calls -/

/-- Calls of one macro with arguments that are twins. -/
structure MacroCall.Twin (K : String → Prop) (c c' : MacroCall) : Prop where
  name : c.name = c'.name
  args : List.Forall₂ (Node.Twin K Head.Opens) c.args c'.args

/-- Rules with the same pattern and twins for templates. Calls that only one of these marks are of
names in `K` that stand for themselves in the template. -/
inductive RuleTwin (K : String → Prop) (params : List String) : Node → Node → Prop where
  | intro {span span' head pattern pattern' template template'} : pattern.Alike pattern' →
    template.Twin (fun x => K x ∧ x ∉ params ∧ x ∉ pattern.patternVariables) Head.Opens template' →
    RuleTwin K params (.mk span head [.one pattern, .one template])
      (.mk span' head [.one pattern', .one template'])

/-- Macros, not left to the back end, that differ in nothing but which calls their templates mark. -/
structure MacroDefinition.Twin (K : String → Prop) (d d' : MacroDefinition) : Prop where
  params : d.params = d'.params
  phase : d.phase = d'.phase
  hygiene : d.hygiene = d'.hygiene
  kept : d.phase ≠ .compile
  rules : List.Forall₂ (RuleTwin K d.params) d.rules d'.rules
  body : Option.Rel (Node.Twin (fun x => K x ∧ x ∉ d.params) Head.Opens) d.templateBody?
    d'.templateBody?

/-- Macros of the names in `K`, each like its counterpart, in any order. -/
structure Registry.Twin (K : String → Prop) (r r' : Registry) : Prop where
  known : ∀ x, K x ↔ r.contains x = true
  found : ∀ x, Option.Rel (MacroDefinition.Twin K) (r.find? x) (r'.find? x)

section

variable {K : String → Prop} {c c' : MacroCall} {d d' : MacroDefinition}

theorem Registry.Twin.contains {r r' : Registry} (h : r.Twin K r') : r.contains = r'.contains := by
  funext x
  have found := h.found x
  unfold Registry.contains
  generalize r.find? x = o, r'.find? x = o' at found
  cases found <;> rfl

theorem Registry.Twin.mem_names {r r' : Registry} (h : r.Twin K r') (x : String) :
    x ∈ r.names ↔ x ∈ r'.names := by
  rw [← contains_iff_mem_names, ← contains_iff_mem_names, h.contains]

/-- The same template, to be filled with twins. -/
structure Selection.Twin (K : String → Prop) (s s' : Selection) : Prop where
  template : s.template.Twin (fun x => K x ∧ x ∉ s.bindings.names) Head.Opens s'.template
  quoted : s.quoted = s'.quoted
  bindings : s.bindings.Rel (Node.Twin K Head.Opens) s'.bindings

theorem ruleSubject_twin {pattern pattern' : Node} (hp : pattern.Alike pattern')
    (hc : c.Twin K c') :
    (ruleSubject pattern c.args c.span).Twin K Head.Opens (ruleSubject pattern' c'.args c'.span) := by
  have tuple : (Node.tupleLiteral c.span c.args).Twin K Head.Opens
      (Node.tupleLiteral c'.span c'.args) := .same rfl (.cons (.many hc.args) .nil)
  have args := hc.args
  unfold ruleSubject
  rw [hp.head]
  generalize c.args = ns, c'.args = ns' at args tuple
  rcases args with _ | ⟨first, _ | ⟨_, _⟩⟩
  · exact tuple
  · dsimp only
    split
    · exact tuple
    · exact first
  · exact tuple

theorem tryRule_twin (hc : c.Twin K c') (sorted : c.Sorted) {params : List String} {rule rule' : Node}
    (h : RuleTwin K params rule rule') :
    Option.Rel (fun x x' => x.1.Twin (fun y => K y ∧ y ∉ params ∧ y ∉ x.2.names) Head.Opens x'.1 ∧
      x.2.Rel (Node.Twin K Head.Opens) x'.2) (c.tryRule rule) (c'.tryRule rule') := by
  obtain ⟨hp, ht⟩ := h
  rename_i pattern pattern' template template'
  have matched := (Node.matchable_twin K Head.Opens).matchInto pattern hp
    ⟨ruleSubject_expression sorted pattern, ruleSubject_twin hp hc⟩ (b := []) .nil
  have names : ∀ b, pattern.matchInto (ruleSubject pattern c.args c.span) [] = some b →
      ∀ y ∈ b.names, y ∈ pattern.patternVariables := by
    intro b hb y hy
    rcases Node.matchInto_names pattern hb y hy with old | new
    · cases old
    · exact new
  show Option.Rel _ ((pattern.matchInto _ []).map _) ((pattern'.matchInto _ []).map _)
  generalize pattern.matchInto _ [] = o, pattern'.matchInto _ [] = o' at matched names
  cases matched with
  | none => exact .none
  | some bound =>
    refine .some ⟨?_, bound.imp fun _ _ h => ⟨h.1, h.2.2⟩⟩
    exact ht.mono (fun y hy => ⟨hy.1, hy.2.1, fun mem => hy.2.2 (names _ rfl y mem)⟩)
      fun _ opened => opened

theorem select_twin (hd : d.Twin K d') (hc : c.Twin K c') (sorted : c.Sorted) :
    outcome.rel (Selection.Twin K) (d.select c) (d'.select c') := by
  have bindings : Bindings.Rel (Node.Twin K Head.Opens) (Bindings.extend [] (d.params.zip c.args))
      (Bindings.extend [] (d'.params.zip c'.args)) :=
    Bindings.Rel.extend .nil (hd.params ▸ Bindings.Rel.zip hc.args)
  have params : ∀ y ∈ (Bindings.extend [] (d.params.zip c.args)).names, y ∈ d.params := by
    intro y hy
    rcases Bindings.names_extend hy with old | given
    · cases old
    · obtain ⟨x, hx, rfl⟩ := List.mem_map.mp given
      exact (List.of_mem_zip hx).1
  have arity : d.arity = d'.arity := by rw [MacroDefinition.arity, MacroDefinition.arity, hd.params]
  have body := hd.body
  have rule := optionRel_findSome? hd.rules fun _ _ => tryRule_twin hc sorted
  unfold MacroDefinition.select
  rw [arity, hc.args.length_eq]
  split
  · exact .error trivial
  · generalize d.templateBody? = t, d'.templateBody? = t' at body
    cases body with
    | some template =>
      refine .ok ⟨template.mono (fun y hy => ⟨hy.1, fun bound => ?_⟩) fun _ opened => opened, rfl,
        bindings⟩
      exact hy.2 (params y bound)
    | none =>
      generalize d.rules.findSome? _ = o, d'.rules.findSome? _ = o' at rule
      cases rule with
      | none => exact .error trivial
      | some both =>
        obtain ⟨template, matched⟩ := both
        refine .ok ⟨template.mono (fun y hy => ⟨hy.1, fun bound => ?_⟩) fun _ opened => opened, rfl,
          bindings.extend matched⟩
        rcases Bindings.names_extend bound with given | new
        · exact hy.2.1 (params y given)
        · exact hy.2.2 new

end

end GlyphScript
