import GlyphScript.Proofs.Layout.Trees
import GlyphScript.Proofs.Macro.Equivalence
import GlyphScript.Proofs.Macro.Instances
import GlyphScript.Proofs.Safety.Expansion

/-!
# Matching and filling undo each other

A pattern without wildcards that is made of literals, variables, tuples and
tensors can be read as an expression. Filled with what the pattern has bound,
this expression is what was matched, and the pattern finds in the filled
expression what it was filled with. So a macro whose rules repeat their
patterns gives back what it is called with.
-/

namespace GlyphScript

theorem exists_between {α β γ : Type} {R : α → β → Prop} {S : β → γ → Prop} {as : List α}
    {cs : List γ} (h : List.Forall₂ (fun a c => ∃ b, R a b ∧ S b c) as cs) :
    ∃ bs, List.Forall₂ R as bs ∧ List.Forall₂ S bs cs := by
  induction h with
  | nil => exact ⟨[], .nil, .nil⟩
  | cons here _ ih =>
    obtain ⟨b, r, s⟩ := here
    obtain ⟨bs, rs, ss⟩ := ih
    exact ⟨b :: bs, .cons r rs, .cons s ss⟩

namespace Bindings

variable {b c : Bindings} {x : String} {n : Node}

theorem mem_iff_lookup (nodup : b.names.Nodup) : (x, n) ∈ b ↔ b.lookup x = some n := by
  refine ⟨fun h => ?_, mem_of_lookup⟩
  induction b with
  | nil => cases h
  | cons z b ih =>
    obtain ⟨z, m⟩ := z
    obtain ⟨new, nodup⟩ := List.nodup_cons.mp nodup
    rcases List.mem_cons.mp h with same | below
    · cases same
      exact List.lookup_cons_self
    · have other : x ≠ z := fun same => new (List.mem_map.mpr ⟨_, below, same⟩)
      rw [List.lookup_cons, beq_false_of_ne other]
      exact ih nodup below

theorem names_reverse (b : Bindings) : names b.reverse = b.names.reverse := List.map_reverse ..

theorem lookup_reverse (nodup : b.names.Nodup) : b.reverse.lookup x = b.lookup x := by
  have nodup' : (names b.reverse).Nodup := by
    rw [names_reverse]
    exact List.nodup_reverse.mpr nodup
  ext n
  rw [← mem_iff_lookup nodup, ← mem_iff_lookup nodup', List.mem_reverse]

/-- Bindings of the same names to the same trees, made in whatever order. -/
theorem perm_of_lookup (nodup : c.names.Nodup) (names : b.names.Perm c.names)
    (same : ∀ x ∈ c.names, c.lookup x = b.lookup x) : c.Perm b := by
  have nodup' : b.names.Nodup := names.symm.nodup nodup
  refine (List.perm_ext_iff_of_nodup (nodup.of_map _) (nodup'.of_map _)).mpr fun ⟨x, n⟩ => ?_
  rw [mem_iff_lookup nodup, mem_iff_lookup nodup']
  by_cases hx : x ∈ c.names
  · rw [same x hx]
  · rw [lookup_eq_none.mpr hx, lookup_eq_none.mpr fun hx' => hx (names.mem_iff.mp hx')]

end Bindings

/-! ## Patterns as expressions -/

namespace Head

/-- What a pattern is as an expression. -/
def asTemplate : Head → Head
  | .literalPattern value kind => .literal value kind
  | .bindPattern x => .identifier x
  | .tuplePattern => .tupleLiteral
  | .tensorShapePattern => .tensorLiteral
  | h => h

/-- The patterns that can be read as expressions. -/
def isConstructive : Head → Bool
  | .bindPattern x => x ≠ wildcard
  | .literalPattern .. | .tuplePattern | .tensorShapePattern => true
  | _ => false

/-- The pattern is one of those that have nothing but a list of elements. -/
def Lists (h : Head) : Prop := h = .tuplePattern ∨ h = .tensorShapePattern

end Head

namespace Node

/-- The pattern read as an expression. -/
def asTemplate : Node → Node := fold fun span head slots => mk span head.asTemplate slots

/-- A pattern of literals, variables, tuples and tensors, without wildcards. -/
def Constructive (p : Node) : Prop := ∀ m ∈ p.walk, m.head.isConstructive = true

instance (p : Node) : Decidable p.Constructive :=
  inferInstanceAs (Decidable (∀ m ∈ p.walk, m.head.isConstructive = true))

/-- The template is the pattern, read as an expression that may stand elsewhere. -/
inductive ReadAs : (pattern template : Node) → Prop where
  | literal {s s' value kind} :
    ReadAs (.mk s (.literalPattern value kind) []) (.mk s' (.literal value kind) [])
  | name {s s' x} : x ≠ wildcard → ReadAs (.mk s (.bindPattern x) []) (.mk s' (.identifier x) [])
  | list {s s' head ps ts} : head.Lists → List.Forall₂ ReadAs ps ts →
    ReadAs (.mk s head [.many ps]) (.mk s' head.asTemplate [.many ts])

variable {p t n m : Node} {b b' : Bindings}

theorem constructive_mk {span : Span} {head : Head} {slots : List (Slot Node)} :
    (mk span head slots).Constructive ↔
      head.isConstructive = true ∧ ∀ s ∈ slots, ∀ n ∈ s.toList, n.Constructive := by
  simp only [Constructive, mem_walk_mk, forall_eq_or_imp, forall_exists_index, and_imp]
  exact and_congr_right fun _ =>
    ⟨fun h s hs n hn m hm => h m s hs n hn hm, fun h m s hs n hn hm => h s hs n hn m hm⟩

/-- What is like a pattern read as an expression is so, too. -/
theorem readAs_of_alike (hp : p.OfSort .pattern) (constructive : p.Constructive)
    (h : t.Alike p.asTemplate) : p.ReadAs t := by
  induction p using induction_on generalizing t with
  | step span head slots ih =>
    obtain ⟨place, head', slots'⟩ := t
    rw [asTemplate, fold_mk] at h
    obtain ⟨rfl, below⟩ := Alike.iff_parts.mp h
    obtain ⟨own, inside⟩ := constructive_mk.mp constructive
    obtain ⟨rfl, ⟨x, rfl⟩ | ⟨value, kind, rfl⟩⟩ | ⟨name, literal, ps, rfl, hps⟩ := hp.pattern_cases
    · cases below
      exact .name (of_decide_eq_true own)
    · cases below
      exact .literal
    · have lists : head.Lists := by
        cases head
        case bindPattern x => exact absurd rfl (name x)
        case literalPattern value kind => exact absurd rfl (literal value kind)
        case tuplePattern => exact .inl rfl
        case tensorShapePattern => exact .inr rfl
        all_goals cases own
      obtain ⟨s, _, r, none, rfl⟩ := List.forall₂_cons_right_iff.mp below
      obtain rfl := List.forall₂_nil_right_iff.mp none
      cases r with
      | @many ts _ rel =>
        rw [List.forall₂_map_right_iff] at rel
        refine .list lists (forall₂_imp_of_mem rel.flip fun p hp t alike => ?_)
        exact ih _ List.mem_cons_self p hp (hps p hp) (inside _ List.mem_cons_self p hp) alike

/-- The names in the template are the variables of the pattern. -/
theorem ReadAs.names (h : p.ReadAs t) {m : Node} (hm : m ∈ t.walk) {x : String}
    (hx : x ∈ m.head.ownNames) : x ∈ p.patternVariables := by
  induction p using induction_on generalizing t with
  | step span head slots ih =>
    cases h with
    | literal =>
      rcases mem_walk_mk.mp hm with rfl | ⟨s, hs, -⟩
      · cases hx
      · cases hs
    | name tame =>
      rcases mem_walk_mk.mp hm with rfl | ⟨s, hs, -⟩
      · rw [patternVariables_name tame]
        exact hx
      · cases hs
    | @list _ _ _ ps ts lists rel =>
      have name : ∀ x, head ≠ .bindPattern x := by
        obtain rfl | rfl := lists <;> simp
      rcases mem_walk_mk.mp hm with rfl | ⟨s, hs, t, ht, hm⟩
      · obtain rfl | rfl := lists <;> cases hx
      · obtain rfl := List.mem_singleton.mp hs
        obtain ⟨p, hp, reads⟩ := exists_of_mem_right rel ht
        rw [patternVariables_composite name]
        exact List.mem_flatMap.mpr ⟨p, hp, ih _ List.mem_cons_self p hp reads hm⟩

end Node

/-! ## Filling what has been matched -/

/-- An expression that has the form of a pattern is the pattern read as an expression, as far as
its elements. -/
theorem Head.Holds.expression {head : Head} {n : Node} {es : List Node} (h : head.Holds n es)
    (hn : n.OfSort .expression) :
    n = .mk n.span head.asTemplate [.many es] ∧ ∀ e ∈ es, e.OfSort .expression := by
  cases h with
  | tuple | tensor =>
    obtain _ | ⟨field, ⟨⟩⟩ := Node.sorted_mk.mp hn.sorted
    exact ⟨rfl, field.children⟩
  | shape | network | stream => cases hn.admitted

theorem Scalar.agrees_self (value : Scalar) : value.agrees value = true := by
  cases value <;> simp [agrees, asInteger?]

theorem Head.Lists.holds {head : Head} (lists : head.Lists) (span : Span) (es : List Node) :
    head.Holds (.mk span head.asTemplate [.many es]) es := by
  obtain rfl | rfl := lists
  · exact .tuple
  · exact .tensor

namespace Filling

variable {f : Filling} {span : Span}

theorem fills_literal {value : Scalar} {kind : LiteralKind} :
    f.Fills (0, .mk span (.literal value kind) []) (.mk span (.literal value kind) []) :=
  (fills_node (by simp) (by simp)).mpr ⟨_, _, rfl, ⟨[], .nil, rfl⟩, .nil⟩

theorem fills_list {head : Head} (lists : head.Lists) {ts ms : List Node}
    (rel : List.Forall₂ (fun t m => f.Fills (0, t) m) ts ms) :
    f.Fills (0, .mk span head.asTemplate [.many ts]) (.mk span head.asTemplate [.many ms]) := by
  obtain rfl | rfl := lists <;>
    exact (fills_node (by simp [Head.asTemplate]) (by simp [Head.asTemplate])).mpr
      ⟨_, _, rfl, ⟨[], .nil, rfl⟩, .cons (.many rel) .nil⟩

end Filling

namespace Node

variable {p t n m : Node} {b b' : Bindings} {x : String}

theorem Typed.of_mem_walk (h : n.Typed) (hm : m ∈ n.walk) : m.Typed := fun k hk =>
  h k (mem_walk_trans hm hk)

/-- Filled with what stands in the places of the variables, the template is the instance. -/
theorem ReadAs.fills (h : p.ReadAs t) (inst : p.Instance b n) (hn : n.OfSort .expression)
    (hp : p.Typed) (typed : n.Typed) (name : String) :
    ∃ m, (Filling.mk b name 0).Fills (0, t) m ∧ m.Alike n := by
  induction p using induction_on generalizing t n with
  | step span head slots ih =>
    cases h with
    | @literal _ s' value kind =>
      cases inst with
      | @literal _ place _ value' _ _ is agrees =>
        rw [hn.unwrap] at is
        have own : kind.holds value = true := hp _ (mem_walk_self _)
        have other : kind.holds value' = true := by
          have := typed _ (mem_walk_self n)
          rwa [is] at this
        obtain rfl := (Scalar.agrees_iff own other).mp agrees
        exact ⟨_, Filling.fills_literal, is ▸ .mk .nil⟩
    | name tame =>
      have stands := (instance_name_iff tame).mp inst
      rw [hn.unwrap] at stands
      exact ⟨n, .bound stands, .refl n⟩
    | @list _ _ _ ps ts lists reads =>
      cases inst with
      | @composite _ _ _ _ es holds insts =>
        rw [hn.unwrap] at holds
        obtain ⟨is, hes⟩ := holds.expression hn
        have inside : ∀ e ∈ es, e ∈ n.walk := fun e he => by
          rw [is]
          exact mem_walk_child (s := .many es) List.mem_cons_self he
        have insts := (forall₂_imp_of_mem insts.flip fun e he p inst => And.intro he inst).flip
        have each : List.Forall₂ (fun t e => ∃ m, (Filling.mk b name 0).Fills (0, t) m ∧ m.Alike e)
            ts es := by
          refine forall₂_of_common reads insts fun q hq t e reads inst => ?_
          exact ih _ List.mem_cons_self q hq reads inst.2 (hes e inst.1)
            (hp.of_mem_walk (mem_walk_child (s := .many ps) List.mem_cons_self hq))
            (typed.of_mem_walk (inside e inst.1))
        obtain ⟨ms, filled, alike⟩ := exists_between each
        refine ⟨_, Filling.fills_list lists filled, ?_⟩
        rw [is]
        exact .mk (.cons (.many alike) .nil)

/-! ## Matching what has been filled -/

theorem ofSort_list {head : Head} (lists : head.Lists) (span : Span) {es : List Node}
    (hes : ∀ e ∈ es, e.OfSort .expression) :
    (mk span head.asTemplate [.many es]).OfSort .expression := by
  obtain rfl | rfl := lists <;> exact ⟨sorted_mk.mpr (.cons (.of_many hes) .nil), rfl⟩

/-- The filled template is an instance of the pattern, with what it is filled with in the places of
the variables. -/
theorem ReadAs.instance (h : p.ReadAs t) (name : String)
    (bound : ∀ x ∈ p.patternVariables, ∃ m, b.lookup x = some m ∧ m.OfSort .expression) :
    ∃ m, (Filling.mk b name 0).Fills (0, t) m ∧ p.Instance b m ∧ m.OfSort .expression := by
  induction p using induction_on generalizing t with
  | step span head slots ih =>
    cases h with
    | @literal _ s' value kind =>
      exact ⟨_, Filling.fills_literal, .literal rfl value.agrees_self, sorted_mk.mpr .nil, rfl⟩
    | name tame =>
      rw [patternVariables_name tame] at bound
      obtain ⟨m, found, hm⟩ := bound _ (List.mem_singleton_self _)
      exact ⟨m, .bound found, .name tame (by rw [found, hm.unwrap]), hm⟩
    | @list _ s' _ ps ts lists reads =>
      have name' : ∀ x, head ≠ .bindPattern x := by
        obtain rfl | rfl := lists <;> simp
      rw [patternVariables_composite name'] at bound
      have each : List.Forall₂ (fun t p => ∃ m, (Filling.mk b name 0).Fills (0, t) m ∧
          p.Instance b m ∧ m.OfSort .expression) ts ps :=
        (forall₂_imp_of_mem reads fun q hq t reads => ih _ List.mem_cons_self q hq reads
          fun x hx => bound x (List.mem_flatMap.mpr ⟨q, hq, hx⟩)).flip
      obtain ⟨ms, filled, insts⟩ := exists_between each
      have sorts : ∀ m ∈ ms, m.OfSort .expression := by
        intro m hm
        obtain ⟨p, -, inst⟩ := exists_of_mem_right insts.flip hm
        exact inst.2
      have sort := ofSort_list lists s' sorts
      refine ⟨_, Filling.fills_list lists filled, ?_, sort⟩
      refine .composite ?_ (insts.flip.imp fun _ _ inst => inst.1)
      rw [sort.unwrap]
      exact Head.Lists.holds lists s' ms

/-- The template is the pattern read as an expression. The pattern is one that the parser accepts,
without wildcards and made of literals, variables, tuples and tensors. -/
structure TemplateOf (t p : Node) : Prop where
  pattern : p.OfSort .pattern
  valid : p.patternFlaw? = none
  typed : p.Typed
  constructive : p.Constructive
  reads : t.Alike p.asTemplate

namespace TemplateOf

theorem readAs (h : t.TemplateOf p) : p.ReadAs t :=
  readAs_of_alike h.pattern h.constructive h.reads

theorem matchPattern_iff (h : t.TemplateOf p) (hn : n.Sorted) :
    p.matchPattern n = some b ↔ b.names = p.patternVariables ∧ p.Instance b n :=
  (validPattern_of_flaw h.valid).matchPattern_iff h.pattern.sorted hn

/-- Filling the template with what the pattern has bound gives what has been matched. -/
theorem substitute_matched (h : t.TemplateOf p) (hn : n.OfSort .expression) (typed : n.Typed)
    (matched : p.matchPattern n = some b) (name : String) :
    ∃ m, t.substitute ⟨b, name, 0⟩ = .ok m ∧ m.Alike n := by
  have inst := ((h.matchPattern_iff hn.sorted).mp matched).2
  obtain ⟨m, filled, alike⟩ := h.readAs.fills inst hn h.typed typed name
  exact ⟨m, Filling.transformM_eq_ok_iff.mpr filled, alike⟩

/-- The pattern finds in the filled template what it has been filled with. -/
theorem match_substituted (h : t.TemplateOf p) (names : b.names.Perm p.patternVariables)
    (hb : Expressions b) (name : String) :
    ∃ m c, t.substitute ⟨b, name, 0⟩ = .ok m ∧ p.matchPattern m = some c ∧ c.Perm b := by
  have bound : ∀ x ∈ p.patternVariables, ∃ m, b.lookup x = some m ∧ m.OfSort .expression := by
    intro x hx
    have known : b.lookup x ≠ none := fun none =>
      Bindings.lookup_eq_none.mp none (names.mem_iff.mpr hx)
    obtain ⟨m, hm⟩ := Option.ne_none_iff_exists'.mp known
    exact ⟨m, hm, hb _ (mem_of_lookup hm)⟩
  obtain ⟨m, filled, inst, hm⟩ := h.readAs.instance name bound
  obtain ⟨c, order, same, inst'⟩ := inst.ordered
  refine ⟨m, c, Filling.transformM_eq_ok_iff.mpr filled,
    (h.matchPattern_iff hm.sorted).mpr ⟨order, inst'⟩, ?_⟩
  rw [← order] at names same
  exact Bindings.perm_of_lookup (order ▸ (validPattern_of_flaw h.valid).nodup) names same

end TemplateOf

end Node

/-! ## Macros that repeat their patterns -/

/-- The macro has nothing but rules, and the template of each is its pattern. -/
structure MacroDefinition.RepeatsPatterns (d : MacroDefinition) : Prop where
  quote : d.template = none
  rules : ∀ r ∈ d.rules, ∃ p t, r.slots = [.one p, .one t] ∧ t.TemplateOf p

/-- A template of which all names are kept is prepared by doing nothing. -/
theorem Selection.prepared_of_kept {sel : Selection} {u : UnitState}
    (kept : ∀ m ∈ sel.template.walk, ∀ x ∈ m.head.ownNames, x ∈ sel.bindings.names)
    (hygiene : Hygiene) : sel.prepared hygiene u = sel.template := by
  unfold Selection.prepared
  cases hygiene with
  | capture | inject => rfl
  | isolate =>
    obtain ⟨t, g, isolated, -⟩ :=
      sel.template.withHygiene_isolatedBy (sel.bindings.names ++ u.registry.names) u.gensym
    rw [isolated]
    refine Node.mapNames_of_fixed fun x hx => ?_
    obtain ⟨m, hm, own⟩ := Node.mem_ownNames_of_mem_namesIn hx
    rw [RenameTable.respelling, if_neg]
    rintro ⟨-, unkept, -⟩
    exact unkept (List.mem_append_left _ (kept m hm _ own))

theorem ruleSubject_typed {c : MacroCall} (typed : ∀ a ∈ c.args, a.Typed) (pattern : Node) :
    (ruleSubject pattern c.args c.span).Typed := by
  have tuple : (Node.tupleLiteral c.span c.args).Typed := by
    intro m hm
    rcases Node.mem_walk_mk.mp hm with rfl | ⟨s, hs, a, ha, hm⟩
    · rfl
    · rw [List.mem_singleton.mp hs] at ha
      exact typed a ha m hm
  unfold ruleSubject
  split
  · rename_i arg made
    split
    · exact made ▸ tuple
    · exact typed arg (made ▸ List.mem_singleton_self arg)
  · exact tuple

theorem findSome?_of_find? {α β : Type} {f : α → Option β} {as : List α} {a : α}
    (h : as.find? (fun a => (f a).isSome) = some a) : as.findSome? f = f a := by
  induction as with
  | nil => cases h
  | cons b as ih =>
    rw [List.find?_cons] at h
    rw [List.findSome?_cons]
    cases found : f b with
    | none =>
      rw [found] at h
      exact ih h
    | some x =>
      rw [found] at h
      cases h
      exact found.symm

section

variable {c : MacroCall} {d : MacroDefinition} {u : UnitState} {rule p t : Node}

/-- A call selects the template of the first rule that fits, with what the rule's pattern binds. -/
theorem MacroDefinition.RepeatsPatterns.select (h : d.RepeatsPatterns)
    (count : d.arity.all (· = c.args.length) = true)
    (first : d.rules.find? (fun r => (c.tryRule r).isSome) = some rule)
    (parts : rule.slots = [.one p, .one t]) :
    ∃ b, p.matchPattern (ruleSubject p c.args c.span) = some b ∧
      d.select c = .ok ⟨t, false, (Bindings.extend [] (d.params.zip c.args)).extend b⟩ := by
  have tried : c.tryRule rule = (p.matchPattern (ruleSubject p c.args c.span)).map (t, ·) := by
    rw [MacroCall.tryRule, parts]
  have fits := List.find?_some first
  rw [tried, Option.isSome_map, Option.isSome_iff_exists] at fits
  obtain ⟨b, matched⟩ := fits
  have fixed : d.arity.any (· ≠ c.args.length) = false := by
    cases arity : d.arity <;> simp_all
  have quote : d.templateBody? = none := by
    rw [MacroDefinition.templateBody?, h.quote]
    rfl
  refine ⟨b, matched, ?_⟩
  rw [MacroDefinition.select, fixed, quote, findSome?_of_find? first, tried, matched]
  rfl

/-- A call expands to what the first rule that fits has been matched with. -/
theorem MacroDefinition.RepeatsPatterns.expandCall (h : d.RepeatsPatterns)
    (called : u.registry.find? c.name = some d) (args : c.Sorted)
    (typed : ∀ a ∈ c.args, a.Typed) (count : d.arity.all (· = c.args.length) = true)
    (first : d.rules.find? (fun r => (c.tryRule r).isSome) = some rule)
    (parts : rule.slots = [.one p, .one t]) :
    ∃ e u', (Work.expandCall c).run u = (.ok e, u') ∧
      e.node.Alike (ruleSubject p c.args c.span) := by
  obtain ⟨p', t', parts', template⟩ := h.rules rule (List.mem_of_find?_eq_some first)
  obtain ⟨rfl, rfl⟩ : p' = p ∧ t' = t := by simpa [parts'] using parts
  obtain ⟨b, matched, selected⟩ := h.select count first parts
  generalize made : (Bindings.extend [] (d.params.zip c.args)).extend b = bindings at selected
  have subject := ruleSubject_expression args p'
  obtain ⟨names, inst⟩ := (template.matchPattern_iff subject.sorted).mp matched
  have bound : ∀ x ∈ p'.patternVariables, b.lookup x = bindings.lookup x := by
    intro x hx
    obtain ⟨m, hm⟩ := inst.bound hx
    have once : b.names.Nodup := names ▸ (Node.validPattern_of_flaw template.valid).nodup
    rw [← made, Bindings.lookup_extend, Bindings.lookup_reverse once, hm]
    rfl
  -- Hygiene leaves the template alone since all its names are bound.
  have prepared : (Selection.mk t' false bindings).prepared d.hygiene u = t' := by
    refine Selection.prepared_of_kept (fun m hm x hx => ?_) d.hygiene
    have hx := template.readAs.names hm hx
    obtain ⟨m, hm⟩ := inst.bound hx
    by_contra unknown
    rw [bound x hx, Bindings.lookup_eq_none.mpr unknown] at hm
    cases hm
  obtain ⟨m, filled, alike⟩ := template.readAs.fills (inst.congr bound) subject template.typed
    (ruleSubject_typed typed p') c.name
  have substituted : t'.substitute ((Selection.mk t' false bindings).filling c.name) = .ok m :=
    Filling.transformM_eq_ok_iff.mpr filled
  have result := expandCall_result called
  rw [selected] at result
  dsimp only at result
  rw [prepared, substituted] at result
  exact ⟨_, _, Prod.ext result rfl, alike⟩

end

/-- For a pattern without wildcards that is made of literals, variables, tuples and tensors, and the
template that is the pattern read as an expression: filled with what the pattern has bound in an
expression the template is that expression again but for places, and filled with expressions for all
variables it is matched by the pattern, which binds the variables to these expressions. So macros
whose rules all repeat their patterns, whatever their hygiene, expand each call that a rule fits to
what the first such rule is matched with. -/
theorem matching_undoes_filling :
    (∀ (p t : Node) (name : String), t.TemplateOf p →
      (∀ (e : Node) (b : Bindings), e.OfSort .expression → e.Typed → p.matchPattern e = some b →
        ∃ e', t.substitute ⟨b, name, 0⟩ = .ok e' ∧ e'.Alike e ∧ e'.structurallyEqual e = true) ∧
      ∀ b : Bindings, b.names.Perm p.patternVariables → (∀ x ∈ b, x.2.OfSort .expression) →
        ∃ e b', t.substitute ⟨b, name, 0⟩ = .ok e ∧ p.matchPattern e = some b' ∧ b'.Perm b) ∧
    ∀ (d : MacroDefinition) (c : MacroCall) (u : UnitState) (rule p t : Node),
      d.RepeatsPatterns → u.registry.find? c.name = some d → c.Sorted → (∀ a ∈ c.args, a.Typed) →
      d.arity.all (· = c.args.length) = true →
      d.rules.find? (fun r => (c.tryRule r).isSome) = some rule → rule.slots = [.one p, .one t] →
      ∃ e u', (Work.expandCall c).run u = (.ok e, u') ∧
        e.node.Alike (ruleSubject p c.args c.span) ∧
        e.node.structurallyEqual (ruleSubject p c.args c.span) = true := by
  refine ⟨fun p t name h => ⟨fun e b he typed matched => ?_, fun b names hb => ?_⟩, ?_⟩
  · obtain ⟨m, filled, alike⟩ := h.substitute_matched he typed matched name
    exact ⟨m, filled, alike, alike.structurallyEqual⟩
  · exact h.match_substituted names hb name
  · intro d c u rule p t h called args typed count first parts
    obtain ⟨e, u', run, alike⟩ := h.expandCall called args typed count first parts
    exact ⟨e, u', run, alike, alike.structurallyEqual⟩

/-- `(( a 1 ))` as a pattern. -/
def echoPattern : Node :=
  .compositePattern default .tuplePattern
    [.bindPattern default "a", .literalPattern default (.integer 1) .number]

/-- `(( a 1 ))` as an expression. -/
def echoTemplate : Node :=
  .tupleLiteral default [.identifier default "a", .literal default (.integer 1) .number]

def echoMacro : MacroDefinition where
  name := "echo"
  params := []
  span := default
  phase := .expand
  hygiene := .isolate
  rules := [.macroRule default false echoPattern echoTemplate]
  template := none

/-- `echo(( y 1 ))` -/
def echoCall : MacroCall where
  name := "echo"
  args := [.identifier default "y", .literal default (.integer 1) .number]
  span := default

/-- A unit in which `echoMacro` is known. -/
def echoUnit : UnitState :=
  { UnitState.start (Gensym.ofNames "%" (.ofList ["echo", "a", "y"])) none with
    registry := ⟨[echoMacro]⟩ }

theorem echoTemplate_templateOf : echoTemplate.TemplateOf echoPattern where
  pattern := ⟨by decide, rfl⟩
  valid := by decide
  typed := by decide
  constructive := by decide
  reads := rfl

/-- The case of `echoCall`. -/
theorem matching_undoes_filling_echo :
    (∃ e', echoTemplate.substitute ⟨[("a", .identifier default "y")], "echo", 0⟩ = .ok e' ∧
      e'.Alike (.tupleLiteral default echoCall.args)) ∧
    (∃ e b', echoTemplate.substitute ⟨[("a", .literal default .nothing .null)], "echo", 0⟩ = .ok e ∧
      echoPattern.matchPattern e = some b' ∧ b'.Perm [("a", .literal default .nothing .null)]) ∧
    ∃ e u', (Work.expandCall echoCall).run echoUnit = (.ok e, u') ∧
      e.node.Alike (.tupleLiteral default echoCall.args) := by
  have args : ∀ a ∈ echoCall.args, a.OfSort .expression := by
    rintro a (_ | ⟨_, _ | ⟨_, ⟨⟩⟩⟩) <;> exact ⟨by decide, rfl⟩
  obtain ⟨matched, filled⟩ := matching_undoes_filling.1 _ _ "echo" echoTemplate_templateOf
  obtain ⟨e, substituted, alike, -⟩ := matched (.tupleLiteral default echoCall.args)
    [("a", .identifier default "y")] ⟨by decide, rfl⟩ (by decide) rfl
  refine ⟨⟨e, substituted, alike⟩, filled _ (.refl _) ?_, ?_⟩
  · rintro x (_ | ⟨_, ⟨⟩⟩)
    exact ⟨by decide, rfl⟩
  · have repeats : echoMacro.RepeatsPatterns :=
      ⟨rfl, List.forall_mem_singleton.mpr ⟨_, _, rfl, echoTemplate_templateOf⟩⟩
    obtain ⟨e, u', run, alike, -⟩ := matching_undoes_filling.2 echoMacro echoCall echoUnit _ _ _
      repeats rfl args (by decide) rfl rfl rfl
    exact ⟨e, u', run, alike⟩

end GlyphScript
