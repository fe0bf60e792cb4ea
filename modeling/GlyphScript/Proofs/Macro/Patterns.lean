import GlyphScript.Proofs.Macro.Clauses
import GlyphScript.Proofs.Macro.Fixpoint

/-!
# Patterns in expanded programs

Passes keep the patterns of a program valid, whatever calls they replace, if
the patterns in the templates of the macros let them.
-/

namespace GlyphScript

open Node (ValidPattern)

namespace PassM

variable {r : Registry} {g : Gensym} {α : Type}

/-- What becomes known in a pass while the registry stays `r`. -/
def course (r : Registry) : Assurance PassM Gensym where
  holds g x p := ∀ q, (Work.course r).holds g (x q) fun g a => p g a.1
  pure h _ := (Work.course r).pure h
  bind hx hf q := (Work.course r).bind (hx q) fun g' a le h => hf g' a.1 le h a.2

theorem course_work {w : Work α} {p : Gensym → α → Prop} (h : (Work.course r).holds g w p)
    (lasting : ∀ g g' a, g ≤ g' → p g a → p g' a) : (course r).holds g (liftM w) p :=
  fun _ => (Work.course r).bind h fun _ _ _ ha => (Work.course r).pure fun _ le =>
    lasting _ _ _ le ha

theorem course_modify (f : PassState → PassState) :
    (course r).holds g (modify f : PassM Unit) fun _ _ => True :=
  fun _ => (Work.course r).pure fun _ _ => trivial

theorem course_get : (course r).holds g (get : PassM PassState) fun _ _ => True :=
  fun _ => (Work.course r).pure fun _ _ => trivial

theorem course_unit : (course r).holds g (getThe UnitState : PassM UnitState)
    fun _ u => u.registry = r :=
  course_work (Work.course_same (fun _ => ⟨rfl, rfl⟩) fun _ _ hu _ e => Except.ok.inj e ▸ hu)
    fun _ _ _ _ h => h

theorem course_closeScope : (course r).holds g closeScope fun _ _ => True := by
  refine (course r).bind course_get fun g' q _ _ => ?_
  split
  · exact (course r).bind (fun _ => (Work.course r).pure fun _ _ => trivial) fun _ _ _ (_ : True) =>
      (course r).pure fun _ _ => trivial
  · exact course_work (Work.course_same (fun _ => ⟨rfl, rfl⟩) (by rintro _ _ _ _ ⟨⟩)) fun _ _ _ _ h => h

theorem course_countReplacement (settings : Settings) (c : MacroCall) :
    (course r).holds g (countReplacement settings c) fun _ _ => True := by
  refine (course r).bind course_get fun _ p _ _ => ?_
  refine (course r).bind (course_modify _) fun _ _ _ _ => ?_
  refine (course r).bind course_unit fun _ u _ _ => ?_
  dsimp only
  split
  · exact course_work (Work.course_same (fun _ => ⟨rfl, rfl⟩) (by rintro _ _ _ _ ⟨⟩)) fun _ _ _ _ h => h
  · exact (course r).pure fun _ _ => trivial

/-! ## Replacing calls -/

/-- What the macros and the arguments of a call have to be like. -/
structure Fit (r : Registry) (g : Gensym) (c : MacroCall) : Prop where
  known : r.Known g
  clear : ∀ d ∈ r.macros, d.Clear
  args : ∀ a ∈ c.args, a.Clauses ValidPattern

theorem Fit.mono {g' : Gensym} {c : MacroCall} (h : Fit r g c) (le : g ≤ g') : Fit r g' c :=
  ⟨h.known.mono le, h.clear, h.args⟩

theorem course_replaceCall {settings : Settings} {c : MacroCall} (fit : Fit r g c) :
    (course r).holds g (replaceCall settings c) fun _ o =>
      ∀ e, o = .expanded e → e.node.Clauses ValidPattern := by
  refine (course r).bind (course_work (Work.course_calledMacro c) fun _ _ _ _ h => h)
    fun g₁ d le₁ _ => ?_
  refine (course r).bind (course_countReplacement settings c) fun g₂ _ le₂ _ => ?_
  split
  · exact (course r).pure (by rintro _ _ _ ⟨⟩)
  · refine (course r).bind (course_work (Work.course_expandCall c) fun _ _ _ _ h => h)
      fun g₃ e le₃ valid => ?_
    refine (course r).bind (course_modify _) fun g₄ _ _ _ => (course r).pure ?_
    rintro _ _ _ ⟨⟩
    have fit := fit.mono (le_trans le₁ le₂)
    exact valid fit.known fit.clear fit.args

theorem clauses_deferredNode {c : MacroCall} (args : ∀ a ∈ c.args, a.Clauses ValidPattern) :
    c.deferredNode.Clauses ValidPattern := by
  refine Node.clauses_of_parts rfl fun s hs a ha => ?_
  rw [List.mem_singleton.mp hs] at ha
  exact args a ha

theorem clauses_expressionStmt {span : Span} {n : Node} (h : n.Clauses ValidPattern) :
    (Node.expressionStmt span n).Clauses ValidPattern := by
  refine Node.clauses_of_parts rfl fun s hs m hm => ?_
  rw [List.mem_singleton.mp hs] at hm
  rwa [List.mem_singleton.mp hm]

theorem asStatements_clauses {e : Expansion} (h : e.node.Clauses ValidPattern) (span : Span) :
    ∀ n ∈ e.asStatements span, n.Clauses ValidPattern := by
  intro n hn
  unfold Expansion.asStatements at hn
  split at hn
  · exact h.of_mem_walk (Node.statements_mem_walk hn)
  · rw [List.mem_singleton.mp hn]
    exact clauses_expressionStmt h

theorem asExpression_clauses {e : Expansion} {c : MacroCall} {n : Node}
    (h : e.node.Clauses ValidPattern) (hn : e.asExpression c = .ok n) :
    n.Clauses ValidPattern := by
  unfold Expansion.asExpression at hn
  split at hn
  · split at hn
    · rename_i span expression statements
      cases hn
      have statement : Node.mk span .expressionStmt [.one n] ∈ e.node.statements := by
        rw [statements]
        exact List.mem_cons_self
      exact h.of_mem_walk (Node.mem_walk_trans (Node.statements_mem_walk statement)
        (Node.mem_walk_child (s := .one n) List.mem_cons_self List.mem_cons_self))
    · cases hn
  · cases hn
    exact h

theorem course_replaceStatement {settings : Settings} {span : Span} {c : MacroCall}
    (fit : Fit r g c) : (course r).holds g (replaceStatement settings span c) fun _ s =>
      ∀ m ∈ s.toList, m.Clauses ValidPattern := by
  refine (course r).bind (course_replaceCall fit) fun g₁ o le valid => ?_
  cases o with
  | deferred =>
    refine (course r).pure fun _ _ m hm => ?_
    rw [List.mem_singleton.mp hm]
    exact clauses_expressionStmt (clauses_deferredNode fit.args)
  | expanded e => exact (course r).pure fun _ _ => asStatements_clauses (valid e rfl) span

theorem course_replaceExpression {settings : Settings} {c : MacroCall} (fit : Fit r g c) :
    (course r).holds g (replaceExpression settings c) fun _ s =>
      ∀ m ∈ s.toList, m.Clauses ValidPattern := by
  refine (course r).bind (course_replaceCall fit) fun g₁ o le valid => ?_
  cases o with
  | deferred =>
    refine (course r).pure fun _ _ m hm => ?_
    rw [List.mem_singleton.mp hm]
    exact clauses_deferredNode fit.args
  | expanded e =>
    refine (course r).bind (course_work (Work.course_ofExpansion _) fun _ _ _ _ h => h)
      fun g₂ n le₂ made => (course r).pure fun _ _ m hm => ?_
    rw [List.mem_singleton.mp hm]
    exact asExpression_clauses (valid e rfl) made

/-! ## Whole trees -/

theorem pending?_clauses {P : Node → Prop} {n : Node} {c : MacroCall}
    (h : MacroCall.pending? r n = some c) (hn : n.Clauses P) : ∀ a ∈ c.args, a.Clauses P := by
  obtain ⟨span, head, slots⟩ := n
  have below := (Node.clauses_mk.mp hn).2
  unfold MacroCall.pending? at h
  dsimp only [Node.head, Node.slots] at h
  split at h
  · split at h
    · split at h
      · cases h
        exact below _ (List.mem_cons_of_mem _ List.mem_cons_self)
      · cases h
    · cases h
  · unfold MacroCall.ofNode? at h
    dsimp only [Node.head, Node.slots] at h
    split at h
    · cases h
      exact below _ List.mem_cons_self
    · cases h

theorem isPattern_of_pending? {n : Node} {c : MacroCall} (h : MacroCall.pending? r n = some c) :
    n.head.isPattern = false := by
  obtain ⟨span, head, slots⟩ := n
  cases head <;> first | rfl | cases h

theorem course_enter {settings : Settings} {n : Node} (known : r.Known g)
    (clear : ∀ d ∈ r.macros, d.Clear) (hn : n.Clauses ValidPattern) :
    (course r).holds g (enter settings n) fun _ =>
      Step.Meets (n.Stands fun _ => True) fun _ => True := by
  refine (course r).bind course_unit fun g₁ u le hu => ?_
  subst hu
  have inside : ∀ g, (course u.registry).holds g (pure (Step.inside ()) : PassM (Step Unit (Slot Node)))
      fun _ => Step.Meets (n.Stands fun _ => True) fun _ => True :=
    fun _ => (course _).pure fun _ _ => trivial
  have same : (course u.registry).holds g₁ (pure (Step.done (.one n)) : PassM (Step Unit (Slot Node)))
      fun _ => Step.Meets (n.Stands fun _ => True) fun _ => True :=
    (course _).pure fun _ _ => Node.stands_self (Node.sound_of_clauses hn)
  have done : ∀ {s : Slot Node}, n.head.isPattern = false →
      (∀ m ∈ s.toList, m.Clauses ValidPattern) → n.Stands (fun _ => True) s :=
    fun hp h => Node.stands_of_not_pattern hp fun m hm => Node.sound_of_clauses (h m hm)
  dsimp only
  split
  · exact same
  · exact same
  · exact same
  · exact (course _).bind (course_modify _) fun _ _ _ _ => inside _
  · exact (course _).bind (course_modify _) fun _ _ _ _ => inside _
  · split
    · rename_i c hc
      obtain ⟨e, head, slots, pending⟩ := pendingStatement?_eq_some hc
      have he : e.Clauses ValidPattern := by
        refine hn.of_mem_walk (Node.mem_walk_child (s := .one e) ?_ List.mem_cons_self)
        rw [slots]
        exact List.mem_cons_self
      have fit : Fit u.registry g₁ c := ⟨known.mono le, clear, pending?_clauses pending he⟩
      exact (course _).bind (course_replaceStatement fit) fun _ s _ hs =>
        (course _).pure fun _ _ => done (by rw [head]; rfl) hs
    · rename_i c _ hc
      have fit : Fit u.registry g₁ c := ⟨known.mono le, clear, pending?_clauses hc hn⟩
      exact (course _).bind (course_replaceExpression fit) fun _ s _ hs =>
        (course _).pure fun _ _ => done (isPattern_of_pending? hc) hs
    · exact inside _

theorem course_leave {n : Node} {span : Span} {head : Head} {slots slots' : List (Slot Node)}
    (hn : n.Clauses ValidPattern) (eq : n = .mk span head slots)
    (rel : List.Forall₂ (Guarantee.Filled id (Node.Stands fun _ => True)) slots slots') :
    (course r).holds g (leave (.mk span head slots')) fun _ => n.Stands fun _ => True := by
  subst eq
  have sound := Node.sound_of_clauses hn
  cases head
  case block | program =>
    refine (course r).bind course_closeScope fun _ _ _ _ => (course r).pure fun _ _ => ?_
    exact Node.stands_node sound rel (.inr ⟨rfl, rfl, rfl⟩)
  all_goals exact (course r).pure fun _ _ => Node.stands_node sound rel (.inl rfl)

/-- A pass keeps the patterns valid. -/
theorem course_transform (settings : Settings) (clear : ∀ d ∈ r.macros, d.Clear) {n : Node}
    (known : r.Known g) (hn : n.Clauses ValidPattern) :
    (course r).holds g (n.transformM (transform settings) ()) fun _ => n.Stands fun _ => True := by
  refine (course r).transformM (I := fun g n => r.Known g ∧ n.Clauses ValidPattern)
    (R := fun _ _ n s => n.Stands (fun _ => True) s) (E := fun _ _ _ => True)
    (fun _ _ _ le h => ⟨h.1.mono le, h.2⟩) (fun _ _ _ _ _ _ h => h)
    (fun _ _ _ _ h s hs n hn => ⟨h.1, (Node.clauses_mk.mp h.2).2 s hs n hn⟩) ?_ ?_ n g ()
    ⟨known, hn⟩
  · exact fun g _ n h => course_enter h.1 clear h.2
  · exact fun g _ span head slots _ slots' h _ rel => course_leave h.2 rfl rel

end PassM

/-! ## Whole expansions -/

namespace Work

variable {r : Registry} {g : Gensym}

theorem course_pass (settings : Settings) (clear : ∀ d ∈ r.macros, d.Clear) {n : Node}
    (known : r.Known g) (hn : n.Clauses ValidPattern) :
    (course r).holds g (pass settings n) fun _ a => a.1.Clauses ValidPattern := by
  refine (course r).bind (PassM.course_transform settings clear known hn ⟨0, none, []⟩)
    fun g₁ done _ stands => ?_
  obtain ⟨slot, p⟩ := done
  have valid : (slot.toList.headD n).Clauses ValidPattern := by
    cases h : slot.toList with
    | nil => exact hn
    | cons m ms => exact (stands.sound m (by rw [h]; exact List.mem_cons_self)).clauses
  refine (course r).bind course_get fun _ _ _ _ => ?_
  refine (course r).bind (course_report _) fun _ _ _ _ => ?_
  dsimp only
  split
  · exact (course r).bind (course_modify _ fun _ => ⟨rfl, rfl⟩) fun _ _ _ _ =>
      (course r).pure fun _ _ => valid
  · exact (course r).pure fun _ _ => valid

theorem course_settle (settings : Settings) (clear : ∀ d ∈ r.macros, d.Clear) (k : Nat) {n : Node}
    (known : r.Known g) (hn : n.Clauses ValidPattern) :
    (course r).holds g (settle settings k n) fun _ n' => n'.Clauses ValidPattern := by
  induction k generalizing n g with
  | zero =>
    rw [settle]
    refine (course r).bind course_checkpoint fun g₁ _ le₁ _ => ?_
    refine (course r).bind (course_pass settings clear (known.mono le₁) hn) fun g₂ done le₂ hn' => ?_
    obtain ⟨n', last⟩ := done
    cases last with
    | none => exact (course r).pure fun _ _ => hn'
    | some c => exact course_same (fun _ => ⟨rfl, rfl⟩) (by rintro _ _ _ _ ⟨⟩)
  | succ k ih =>
    rw [settle]
    refine (course r).bind course_checkpoint fun g₁ _ le₁ _ => ?_
    refine (course r).bind (course_pass settings clear (known.mono le₁) hn) fun g₂ done le₂ hn' => ?_
    obtain ⟨n', last⟩ := done
    cases last with
    | none => exact (course r).pure fun _ _ => hn'
    | some c => exact ih (known.mono (le_trans le₁ le₂)) hn'

end Work

end GlyphScript
