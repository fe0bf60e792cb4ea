import GlyphScript.Proofs.Macro.Symbols
import GlyphScript.Proofs.Parsing.Written
import GlyphScript.Proofs.Safety.Expansion

/-!
# Expansions stay printable

What a well-formed node needs besides slots of the right sorts: names that are
identifiers, attributes that can be written, and lists that hold something. A
template keeps all of it when its names are renamed and its parameters filled.
-/

namespace GlyphScript

namespace Node

/-! ## What holds everywhere in a tree -/

def Everywhere (P : Node → Prop) (n : Node) : Prop := ∀ m ∈ n.walk, P m

instance {P : Node → Prop} [DecidablePred P] (n : Node) : Decidable (n.Everywhere P) :=
  inferInstanceAs (Decidable (∀ m ∈ n.walk, P m))

variable {P Q : Node → Prop}

theorem everywhere_mk {span : Span} {head : Head} {slots : List (Slot Node)} :
    (mk span head slots).Everywhere P ↔
      P (mk span head slots) ∧ ∀ s ∈ slots, ∀ n ∈ s.toList, n.Everywhere P := by
  simp only [Everywhere, mem_walk_mk, forall_eq_or_imp, forall_exists_index, and_imp]
  exact and_congr_right fun _ =>
    ⟨fun h s hs n hn m hm => h m s hs n hn hm, fun h m s hs n hn hm => h s hs n hn m hm⟩

namespace Everywhere

theorem self {n : Node} (h : n.Everywhere P) : P n := h n n.mem_walk_self

theorem of_mem_walk {n m : Node} (h : n.Everywhere P) (hm : m ∈ n.walk) : m.Everywhere P :=
  fun k hk => h k (mem_walk_trans hm hk)

theorem child {n m : Node} (h : n.Everywhere P) (hm : m ∈ n.children) : m.Everywhere P :=
  h.of_mem_walk (mem_walk_of_mem_children hm)

theorem imp {n : Node} (h : n.Everywhere P) (hPQ : ∀ m, P m → Q m) : n.Everywhere Q :=
  fun m hm => hPQ m (h m hm)

end Everywhere

/-! ## Tidy and clean trees -/

/-- The lists that have to hold something do. -/
def isFilled : Head → List (Slot Node) → Bool
  | .matchStmt, [_, list] | .comprehension, [_, list] => !list.toList.isEmpty
  | .tryStmt, [_, handlers, finallyBody] =>
    !(handlers.toList.isEmpty && finallyBody.toList.isEmpty)
  | .macroDef .., [rules, template] => rules.toList.isEmpty != template.toList.isEmpty
  | _, _ => true

/-- The node is as a well-formed node has to be, apart from the sorts of its slots and the names
that its pattern binds. -/
structure TidyAt (n : Node) : Prop where
  names : ∀ x ∈ n.head.names, lexesAsIdentifier x = true
  spelled : n.head.isSpelled = true
  filled : isFilled n.head n.slots = true

def Tidy : Node → Prop := Everywhere TidyAt

/-- Besides, the node is neither a macro definition nor a quote. -/
structure CleanAt (n : Node) : Prop extends n.TidyAt where
  plain : n.head.isTemplate = false

def Clean : Node → Prop := Everywhere CleanAt

theorem Clean.tidy {n : Node} (h : n.Clean) : n.Tidy := Everywhere.imp h fun _ => CleanAt.toTidyAt

/-- In both slots there is something, or in neither. -/
def SameFilling (s s' : Slot Node) : Prop := s'.toList.isEmpty = s.toList.isEmpty

theorem isFilled_congr {head : Head} {slots slots' : List (Slot Node)}
    (h : List.Forall₂ SameFilling slots slots') : isFilled head slots' = isFilled head slots := by
  obtain _ | @⟨a, a', _, _, ha, _ | @⟨b, b', _, _, hb, _ | @⟨c, c', _, _, hc, _ | _⟩⟩⟩ := h <;>
    cases head <;> simp_all [isFilled, SameFilling]

theorem sameFilling_of_rel {R : Node → Node → Prop} {s s' : Slot Node} (h : s.Rel R s') :
    SameFilling s s' := by
  have := h.toList.length_eq
  unfold SameFilling
  cases hs : s.toList <;> cases hs' : s'.toList <;> simp_all

end Node

/-- The second head may take the place of the first in a tidy node. -/
structure Head.Retouches (h' h : Head) : Prop where
  names : ∀ x ∈ h'.names, lexesAsIdentifier x = true
  spelled : h'.isSpelled = h.isSpelled
  filled : ∀ slots, Node.isFilled h' slots = Node.isFilled h slots
  template : h'.isTemplate = h.isTemplate

theorem Head.Retouches.refl {h : Head} (names : ∀ x ∈ h.names, lexesAsIdentifier x = true) :
    h.Retouches h :=
  ⟨names, rfl, fun _ => rfl, rfl⟩

/-- Names that a node binds may become any identifiers. -/
theorem Guarantee.mapBindersM_retouches {m : Type → Type} [Monad m] [LawfulMonad m]
    (G : Guarantee m) {f : Head.BinderPosition → String → m String}
    (hf : ∀ p x, lexesAsIdentifier x = true → G.holds (f p x) (lexesAsIdentifier · = true))
    {h : Head} (names : ∀ x ∈ h.names, lexesAsIdentifier x = true) :
    G.holds (h.mapBindersM f) (·.Retouches h) := by
  have params (xs : List String) (hxs : ∀ x ∈ xs, lexesAsIdentifier x = true) :
      G.holds (xs.mapM (f .params)) fun ys => ∀ y ∈ ys, lexesAsIdentifier y = true := by
    refine G.mono (G.mapM fun x hx => hf .params x (hxs x hx)) fun ys rel y hy => ?_
    obtain ⟨_, -, made⟩ := exists_of_mem_right rel hy
    exact made
  cases h
  case assignment | classDef | tensorDecl | neuralNet | comprehensionClause | bindPattern =>
    refine G.bind (hf _ _ (names _ List.mem_cons_self)) fun y hy => G.pure ?_
    exact ⟨List.forall_mem_singleton.mpr hy, rfl, fun _ => rfl, rfl⟩
  case functionDef | asyncFunctionDef =>
    obtain ⟨own, others⟩ := List.forall_mem_cons.mp names
    refine G.bind (hf _ _ own) fun y hy => G.bind (params _ others) fun ys hys => G.pure ?_
    exact ⟨List.forall_mem_cons.mpr ⟨hy, hys⟩, rfl, fun _ => rfl, rfl⟩
  case lambda =>
    exact G.bind (params _ names) fun ys hys => G.pure ⟨hys, rfl, fun _ => rfl, rfl⟩
  case importDecl path alias? =>
    cases alias? with
    | none => exact G.pure (.refl names)
    | some x =>
      obtain ⟨path', own⟩ := List.forall_mem_append.mp names
      refine G.bind (hf _ _ (own _ List.mem_cons_self)) fun y hy => G.pure ?_
      exact ⟨List.forall_mem_append.mpr ⟨path', List.forall_mem_singleton.mpr hy⟩, rfl,
        fun _ => rfl, rfl⟩
  case loopStmt target =>
    cases target with
    | none => exact G.pure (.refl names)
    | some x =>
      refine G.bind (hf _ _ (names _ List.mem_cons_self)) fun y hy => G.pure ?_
      exact ⟨List.forall_mem_singleton.mpr hy, rfl, fun _ => rfl, rfl⟩
  all_goals exact G.pure (.refl names)

namespace Node

variable {span span' : Span} {head head' : Head} {slots slots' : List (Slot Node)}

theorem TidyAt.retouched (h : (Node.mk span head slots).TidyAt) (same : head'.Retouches head)
    (filling : List.Forall₂ SameFilling slots slots') : (Node.mk span' head' slots').TidyAt where
  names := same.names
  spelled := same.spelled.trans h.spelled
  filled := (same.filled slots').trans ((isFilled_congr filling).trans h.filled)

/-- A clean node is clean after its children have been transformed, whatever its names are. -/
theorem Clean.retouched (h : (mk span head slots).Clean) (same : head'.Retouches head)
    (rel : List.Forall₂ (Slot.Rel fun _ m => m.Clean) slots slots') :
    (mk span' head' slots').Clean := by
  have own := h.self
  refine everywhere_mk.mpr ⟨⟨own.toTidyAt.retouched same (rel.imp fun _ _ => sameFilling_of_rel),
    same.template.trans own.plain⟩, fun s' hs' m hm => ?_⟩
  obtain ⟨s, hs, n, hn, clean⟩ := Slot.exists_of_mem_rel rel hs' hm
  exact clean

/-! ## Preparing and filling -/

/-- The symbols given out are identifiers. -/
def Spellable (s : RenameTable × Gensym) : Prop :=
  (∀ e ∈ s.1.entries, lexesAsIdentifier e.2 = true) ∧ s.2.separator = "%"

theorem rename_lexes {x : String} (h : lexesAsIdentifier x = true) :
    (Guarantee.state Spellable).holds (RenameTable.rename x) (lexesAsIdentifier · = true) := by
  rintro ⟨t, g⟩ ⟨entries, percent⟩
  rw [RenameTable.rename]
  cases found : t.find? x with
  | some y =>
    have lexes := entries _ (mem_of_lookup found)
    exact ⟨lexes, entries, percent⟩
  | none =>
    have lexes := Gensym.lexes_fresh percent h
    refine ⟨lexes, fun e he => ?_, percent⟩
    rcases List.mem_append.mp he with he | he
    · exact entries e he
    · rw [List.mem_singleton.mp he]
      exact lexes

theorem isolatedName_lexes (keep : List String) {x : String} (h : lexesAsIdentifier x = true) :
    (Guarantee.state Spellable).holds (isolatedName keep x) (lexesAsIdentifier · = true) := by
  unfold isolatedName
  split
  · exact (Guarantee.state Spellable).pure h
  · exact rename_lexes h

theorem isolatedHead_retouches (keep : List String) {h : Head}
    (names : ∀ x ∈ h.names, lexesAsIdentifier x = true) :
    (Guarantee.state Spellable).holds (isolatedHead keep h) (·.Retouches h) := by
  let G := Guarantee.state Spellable
  cases h
  case identifier x =>
    refine G.bind (isolatedName_lexes keep (names x List.mem_cons_self)) fun y hy => G.pure ?_
    exact ⟨List.forall_mem_singleton.mpr hy, rfl, fun _ => rfl, rfl⟩
  all_goals
    exact G.mapBindersM_retouches (f := fun _ => isolatedName keep)
      (fun _ _ hx => isolatedName_lexes keep hx) names

theorem Clean.below (h : (mk span head slots).Clean) {s : Slot Node} (hs : s ∈ slots) {n : Node}
    (hn : n ∈ s.toList) : n.Clean := (everywhere_mk.mp h).2 s hs n hn

/-- Renaming a clean template apart leaves it clean. -/
theorem isolate_clean (keep : List String) (n : Node) : ∀ depth, n.Clean →
    (Guarantee.state Spellable).holds (n.transformM (isolating keep) depth) Clean := by
  let G := Guarantee.state Spellable
  induction n using induction_on with
  | step span head slots ih =>
    intro depth h
    rw [transformM]
    refine G.bind (p := fun step => step = .inside (head.innerDepth depth)) (G.pure rfl) ?_
    rintro _ rfl
    refine G.bind (G.transformSlotsM (R := fun _ m => m.Clean) fun s hs n hn =>
      ih s hs n hn _ (h.below hs hn)) fun slots' rel => ?_
    have rel := rel.imp fun _ _ => Guarantee.Filled.rel
    have names := h.self.names
    by_cases hd : depth = 0
    · simp only [isolating, if_pos hd]
      exact G.bind (isolatedHead_retouches keep names) fun head' same =>
        G.pure (h.retouched same rel)
    · simp only [isolating, if_neg hd]
      exact G.pure (h.retouched (.refl names) rel)

/-- Filling a clean template with clean trees gives a clean tree. -/
theorem substitute_clean {f : Filling} (hf : ∀ x ∈ f.bindings, x.2.Clean) (n : Node) : ∀ depth,
    n.Clean → (Guarantee.except ExpansionFault).holds (n.transformM f.transform depth) Clean := by
  let G := Guarantee.except ExpansionFault
  have binder (receiver : String) (p : Head.BinderPosition) (x : String)
      (h : lexesAsIdentifier x = true) :
      G.holds (f.binder receiver p x) (lexesAsIdentifier · = true) := by
    unfold Filling.binder
    cases found : f.bindings.lookup x with
    | none => exact G.pure h
    | some bound =>
      dsimp only
      split
      · rename_i y name
        refine G.pure ((hf _ (mem_of_lookup found)).self.names y ?_)
        rw [name]
        exact List.mem_cons_self
      · intro _ failed
        cases failed
  induction n using induction_on with
  | step span head slots ih =>
    intro depth h
    have inside : G.holds (Node.transformSlotsM f.transform (head.innerDepth depth) slots >>=
        fun slots' => f.transform.leave depth (mk span head slots')) Clean := by
      refine G.bind (G.transformSlotsM (R := fun _ m => m.Clean) fun s hs n hn =>
        ih s hs n hn _ (h.below hs hn)) fun slots' rel => ?_
      have names := h.self.names
      have kept : (mk span head slots').Clean :=
        h.retouched (.refl names) (rel.imp fun _ _ => Guarantee.Filled.rel)
      unfold Filling.transform
      dsimp only
      split
      · rename_i e isUnquote made
        obtain rfl : slots' = [.one e] := made
        split
        · exact G.pure (kept.below List.mem_cons_self List.mem_cons_self)
        · exact G.pure kept
      · split
        · exact G.bind (G.mapBindersM_retouches (binder _) names) fun head' same =>
            G.pure (h.retouched same (rel.imp fun _ _ => Guarantee.Filled.rel))
        · exact G.pure kept
    rw [transformM]
    cases head
    case identifier x =>
      refine G.bind (p := fun step => ∃ m, step = .done m ∧ m.Clean) (G.pure ⟨_, rfl, ?_⟩) ?_
      · split
        · cases found : f.bindings.lookup x with
          | none => exact h
          | some bound => exact hf _ (mem_of_lookup found)
        · exact h
      · rintro _ ⟨m, rfl, hm⟩
        exact G.pure hm
    all_goals exact inside

end Node

/-! ## Expanding -/

/-- The rules are clean, and so is what the template quotes. -/
structure MacroDefinition.Clean (d : MacroDefinition) : Prop where
  rules : ∀ r ∈ d.rules, r.Clean
  template : ∀ q, d.template = some q → ∀ n ∈ q.children, n.Clean

/-- What is passed on by a call of clean trees is clean. -/
theorem passes_clean {c : MacroCall} (args : ∀ a ∈ c.args, a.Clean) {n : Node} (h : c.Passes n) :
    n.Clean := by
  rcases h.offers with ⟨a, ha, hn⟩ | rfl
  · exact (args a ha).of_mem_walk hn
  · refine Node.everywhere_mk.mpr ⟨⟨⟨List.forall_mem_nil _, rfl, rfl⟩, rfl⟩, fun s hs a ha => ?_⟩
    rw [List.mem_singleton.mp hs] at ha
    exact args a ha

theorem select_clean {d : MacroDefinition} {c : MacroCall} {sel : Selection}
    (selected : d.select c = .ok sel) (hd : d.Clean) : sel.template.Clean := by
  have h := (d.select_ok selected).1
  split at h
  · obtain ⟨q, hq, ht⟩ := h
    exact hd.template q hq _ ht
  · obtain ⟨r, hr, ht⟩ := h
    exact (hd.rules r hr).child ht

theorem prepared_clean {sel : Selection} (h : sel.template.Clean) (hygiene : Hygiene)
    {s : UnitState} (percent : s.gensym.separator = "%") :
    (sel.prepared hygiene s).Clean ∧ (sel.gensym hygiene s).separator = "%" := by
  cases hygiene with
  | isolate =>
    obtain ⟨clean, -, kept⟩ := Node.isolate_clean (sel.bindings.names ++ s.registry.names)
      sel.template 0 h (RenameTable.empty, s.gensym) ⟨List.forall_mem_nil _, percent⟩
    exact ⟨clean, kept⟩
  | capture | inject => exact ⟨h, percent⟩

section

variable {c : MacroCall} {s s' : UnitState} {e : Expansion}

/-- A call of clean trees expands to a clean tree. -/
theorem expandCall_clean (run : (Work.expandCall c).run s = (.ok e, s'))
    (percent : s.gensym.separator = "%") (hs : ∀ d ∈ s.registry.macros, d.Clean)
    (args : ∀ a ∈ c.args, a.Clean) : e.node.Clean ∧ s'.gensym.separator = "%" := by
  obtain ⟨d, sel, called, selected, filled, -, -, -, -, gensym⟩ := Work.expandCall_ok run
  have template := select_clean selected (hs d (List.mem_of_find?_eq_some called))
  have bound : ∀ x ∈ (sel.filling c.name).bindings, x.2.Clean := fun x hx =>
    passes_clean args ((d.select_ok selected).2 x hx)
  obtain ⟨prepared, kept⟩ := prepared_clean template d.hygiene percent
  exact ⟨Node.substitute_clean bound _ _ prepared _ filled, gensym ▸ kept⟩

namespace Expansion

theorem statements_clean (h : e.node.Clean) : ∀ n ∈ e.node.statements, n.Clean := by
  intro n hn
  unfold Node.statements at hn
  split at hn
  · rename_i ns slots
    refine h.child ?_
    simpa [Node.children, slots, Slot.toList] using hn
  · cases hn

theorem asStatements_clean (h : e.node.Clean) (span : Span) :
    ∀ n ∈ e.asStatements span, n.Clean := by
  intro n hn
  unfold asStatements at hn
  split at hn
  · exact statements_clean h n hn
  · rw [List.mem_singleton.mp hn]
    refine Node.everywhere_mk.mpr ⟨⟨⟨List.forall_mem_nil _, rfl, rfl⟩, rfl⟩, fun s hs a ha => ?_⟩
    rw [List.mem_singleton.mp hs] at ha
    rwa [List.mem_singleton.mp ha]

theorem asExpression_clean (h : e.node.Clean) {n : Node} (hn : e.asExpression c = .ok n) :
    n.Clean := by
  unfold asExpression at hn
  split at hn
  · split at hn
    · rename_i span expression statements
      cases hn
      have stmt := statements_clean h (.mk span .expressionStmt [.one n])
        (statements ▸ List.mem_cons_self)
      exact stmt.below List.mem_cons_self List.mem_cons_self
    · cases hn
  · cases hn
    exact h

end Expansion

end

end GlyphScript
