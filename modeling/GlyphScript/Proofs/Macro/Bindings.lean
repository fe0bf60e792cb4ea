import GlyphScript.Macro.Expansion
import GlyphScript.Proofs.Tree

/-!
# Where bindings come from

A match binds names to parts of what is matched, and a call selects a template
of its macro together with bindings to parts of its arguments.
-/

namespace GlyphScript

namespace Node

theorem unwrap_mem_walk (n : Node) : n.unwrap ∈ n.walk := by
  fun_induction unwrap n with
  | case1 span e ih => exact mem_walk_trans (mem_walk_child List.mem_cons_self List.mem_cons_self) ih
  | case2 n => exact mem_walk_self n

theorem mem_walk_of_mem_children {n m : Node} (h : m ∈ n.children) : m ∈ n.walk := by
  obtain ⟨s, hs, hm⟩ := List.mem_flatMap.mp h
  exact mem_walk_child hs hm

theorem statements_mem_walk {n m : Node} (h : m ∈ n.statements) : m ∈ n.walk := by
  unfold statements at h
  split at h
  · rename_i statements eq
    exact mem_walk_child (s := .many statements) (by rw [eq]; exact List.mem_cons_self) h
  · nomatch h

theorem elementsFor_mem_walk {pattern : Head} {n m : Node} {elements : List Node}
    (h : elementsFor pattern n = some elements) (hm : m ∈ elements) : m ∈ n.walk := by
  have child : ∀ {slots s c}, n.slots = slots → s ∈ slots → c ∈ Slot.toList s → c ∈ n.walk :=
    fun eq hs hc => mem_walk_child (eq ▸ hs) hc
  have statement : ∀ {slots body}, n.slots = slots → .one body ∈ slots → m ∈ body.statements →
      m ∈ n.walk := fun eq hb hm =>
    mem_walk_trans (child eq hb List.mem_cons_self) (statements_mem_walk hm)
  unfold elementsFor at h
  split at h
  case h_1 | h_2 | h_3 =>
    cases h
    rename_i eq
    exact child eq List.mem_cons_self hm
  case h_4 =>
    cases h
    rename_i eq
    exact statement eq List.mem_cons_self hm
  case h_5 =>
    cases h
    rename_i eq
    rcases List.mem_cons.mp hm with rfl | hm
    · exact child eq List.mem_cons_self List.mem_cons_self
    · exact statement eq (List.mem_cons_of_mem _ List.mem_cons_self) hm
  case h_6 => nomatch h

end Node

namespace Bindings

theorem mem_bind {name : String} {n : Node} {b : Bindings} {x : String × Node}
    (h : x ∈ b.bind name n) : x ∈ b ∨ x = (name, n) := by
  induction b with
  | nil => exact .inr (List.mem_singleton.mp h)
  | cons y b ih =>
    rw [bind] at h
    split at h
    · rcases List.mem_cons.mp h with rfl | h
      · exact .inr rfl
      · exact .inl (List.mem_cons_of_mem _ h)
    · rcases List.mem_cons.mp h with rfl | h
      · exact .inl List.mem_cons_self
      · exact (ih h).imp_left (List.mem_cons_of_mem _)

theorem mem_extend {b later : Bindings} {x : String × Node} (h : x ∈ b.extend later) :
    x ∈ b ∨ x ∈ later := by
  induction later generalizing b with
  | nil => exact .inl h
  | cons y later ih =>
    rcases ih h with h | h
    · refine (mem_bind h).imp_right fun e => ?_
      rw [e]
      exact List.mem_cons_self
    · exact .inr (List.mem_cons_of_mem _ h)

end Bindings

namespace Node

/-! ## Matching -/

/-- The bindings added are to parts of `n`. -/
def BindsParts (n : Node) (before after : Bindings) : Prop :=
  ∀ x ∈ after, x ∈ before ∨ ∃ m ∈ n.walk, x.2 = m.unwrap

theorem matchList_bindsParts {n : Node} {ps es : List Node} {b b' : Bindings}
    (step : ∀ p ∈ ps, ∀ {m : Node} {b b' : Bindings}, p.matchInto m b = some b' →
      m.BindsParts b b')
    (h : matchList ps es b = some b') (hes : ∀ e ∈ es, e ∈ n.walk) : n.BindsParts b b' := by
  induction ps generalizing es b with
  | nil =>
    cases es with
    | nil =>
      cases h
      exact fun x hx => .inl hx
    | cons e es => nomatch h
  | cons p ps ih =>
    cases es with
    | nil => nomatch h
    | cons e es =>
      rw [matchList] at h
      split at h
      · rename_i b₁ first
        obtain ⟨he, hes⟩ := List.forall_mem_cons.mp hes
        intro x hx
        rcases ih (fun p hp => step p (List.mem_cons_of_mem _ hp)) h hes x hx with hx | hx
        · refine (step p List.mem_cons_self first x hx).imp_right fun ⟨m, hm, e⟩ => ?_
          exact ⟨m, mem_walk_trans he hm, e⟩
        · exact .inr hx
      · nomatch h

theorem matchInto_bindsParts (pattern : Node) : ∀ {n : Node} {b b' : Bindings},
    pattern.matchInto n b = some b' → n.BindsParts b b' := by
  induction pattern using induction_on with
  | step span head slots ih =>
    intro n b b' h
    unfold matchInto at h
    dsimp only at h
    split at h
    case h_1 name =>
      split at h <;> cases h
      · exact fun x hx => .inl hx
      · intro x hx
        refine (Bindings.mem_bind hx).imp_right fun e => ?_
        rw [e]
        exact ⟨n, n.mem_walk_self, rfl⟩
    case h_2 value kind =>
      split at h
      · split at h <;> cases h
        exact fun x hx => .inl hx
      · nomatch h
    case h_3 =>
      split at h
      case h_2 => nomatch h
      case h_1 elements eq =>
        unfold matchSlots at h
        split at h
        case h_2 => nomatch h
        case h_1 ps =>
          exact matchList_bindsParts (ih _ List.mem_cons_self) h fun e he =>
            mem_walk_trans n.unwrap_mem_walk (elementsFor_mem_walk eq he)

end Node

/-! ## Selections -/

/-- The tree is in an argument of the call, or it is the tuple of its arguments. -/
def MacroCall.Offers (c : MacroCall) (n : Node) : Prop :=
  (∃ a ∈ c.args, n ∈ a.walk) ∨ n = Node.tupleLiteral c.span c.args

/-- The tree is an argument of the call, or what a name in a pattern is bound to. -/
def MacroCall.Passes (c : MacroCall) (n : Node) : Prop :=
  n ∈ c.args ∨ ∃ m, c.Offers m ∧ n = m.unwrap

theorem MacroCall.Passes.offers {c : MacroCall} {n : Node} (h : c.Passes n) : c.Offers n := by
  rcases h with h | ⟨m, ⟨a, ha, hm⟩ | rfl, rfl⟩
  · exact .inl ⟨n, h, n.mem_walk_self⟩
  · exact .inl ⟨a, ha, Node.mem_walk_trans hm m.unwrap_mem_walk⟩
  · exact .inr rfl

theorem MacroCall.offers_of_mem_subject (c : MacroCall) {pattern n : Node}
    (h : n ∈ (ruleSubject pattern c.args c.span).walk) : c.Offers n := by
  have tuple : n ∈ (Node.tupleLiteral c.span c.args).walk → c.Offers n := by
    intro h
    rcases Node.mem_walk_mk.mp h with h | ⟨s, hs, a, ha, h⟩
    · exact .inr h
    · rw [List.mem_singleton.mp hs] at ha
      exact .inl ⟨a, ha, h⟩
  unfold ruleSubject at h
  split at h
  · rename_i arg args
    split at h
    · exact tuple (args ▸ h)
    · exact .inl ⟨arg, by rw [args]; exact List.mem_singleton_self arg, h⟩
  · exact tuple h

namespace MacroDefinition

variable {d : MacroDefinition} {c : MacroCall} {sel : Selection}

/-- The template is the inside of the macro's quote, or it is that of a rule whose pattern fits. -/
theorem select_cases (h : d.select c = .ok sel) :
    (sel.quoted = true ∧ d.templateBody? = some sel.template ∧
      sel.bindings = Bindings.extend [] (d.params.zip c.args)) ∨
    sel.quoted = false ∧ ∃ r ∈ d.rules, ∃ pattern matched,
      r.slots = [.one pattern, .one sel.template] ∧
      pattern.matchPattern (ruleSubject pattern c.args c.span) = some matched ∧
      sel.bindings = (Bindings.extend [] (d.params.zip c.args)).extend matched := by
  unfold select at h
  split at h
  · cases h
  · dsimp only at h
    split at h
    · rename_i template body
      cases h
      exact .inl ⟨rfl, body, rfl⟩
    · split at h
      · rename_i template matched found
        cases h
        obtain ⟨r, hr, tried⟩ := List.exists_of_findSome?_eq_some found
        unfold MacroCall.tryRule at tried
        split at tried
        · rename_i pattern template slots
          obtain ⟨b, hb, e⟩ := Option.map_eq_some_iff.mp tried
          cases e
          exact .inr ⟨rfl, r, hr, pattern, matched, slots, hb, rfl⟩
        · cases tried
      · cases h

/-- A call gets a template with bindings to what it passes. -/
theorem select_ok (h : d.select c = .ok sel) :
    (if sel.quoted then ∃ q, d.template = some q ∧ sel.template ∈ q.children
      else ∃ r ∈ d.rules, sel.template ∈ r.children) ∧
    ∀ x ∈ sel.bindings, c.Passes x.2 := by
  have params : ∀ x ∈ Bindings.extend [] (d.params.zip c.args), c.Passes x.2 := by
    intro x hx
    rcases Bindings.mem_extend hx with hx | hx
    · cases hx
    · exact .inl (List.of_mem_zip hx).2
  rcases select_cases h with ⟨quoted, body, bindings⟩ |
    ⟨quoted, r, hr, pattern, matched, slots, hb, bindings⟩
  · obtain ⟨q, hq, hb⟩ := Option.bind_eq_some_iff.mp body
    rw [quoted, bindings]
    exact ⟨⟨q, hq, List.mem_of_head? hb⟩, params⟩
  · rw [quoted, bindings]
    refine ⟨⟨r, hr, ?_⟩, fun x hx => ?_⟩
    · simp [Node.children, slots, Slot.toList]
    · rcases Bindings.mem_extend hx with hx | hx
      · exact params x hx
      · rcases Node.matchInto_bindsParts _ hb x hx with hx | ⟨m, hm, e⟩
        · cases hx
        · exact .inr ⟨m, c.offers_of_mem_subject hm, e⟩

end MacroDefinition

end GlyphScript
