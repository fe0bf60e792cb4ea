import GlyphScript.Proofs.Assurance
import GlyphScript.Proofs.Macro.Expansion
import GlyphScript.Proofs.Pattern

/-!
# Patterns in templates

Renaming a template apart and filling it respell the patterns in it. A pattern
stays valid unless a variable of the macro stands in it next to another name.
-/

namespace GlyphScript

/-! ## Symbols to come -/

/-- More names are in use. -/
instance : Preorder Gensym where
  le g g' := ∀ x, g.isTaken x = true → g'.isTaken x = true
  le_refl _ _ h := h
  le_trans _ _ _ h h' x hx := h' x (h x hx)

/-- Symbols are only added. -/
instance : Preorder RenameTable where
  le t t' := t.entries ⊆ t'.entries
  le_refl t := List.Subset.refl t.entries
  le_trans _ _ _ h h' := List.Subset.trans h h'

namespace Gensym

variable {g g' : Gensym} {x : String}

/-- No symbol given out from now on is `x`. -/
def Avoids (g : Gensym) (x : String) : Prop := ∀ g', g ≤ g' → ∀ y, (g'.fresh y).1 ≠ x

theorem Avoids.mono (h : g.Avoids x) (le : g ≤ g') : g'.Avoids x :=
  fun g'' le' => h g'' (le_trans le le')

theorem avoids_of_isTaken (h : g.isTaken x = true) : g.Avoids x := by
  rintro g' le y rfl
  have free := g'.isTaken_fst_fresh y
  rw [le _ h] at free
  cases free

/-- A symbol ends with its number. -/
theorem symbol_ne_empty (g : Gensym) (base : String) (n : Nat) : g.symbol base n ≠ "" := by
  intro h
  have := congrArg String.toList h
  simp only [symbol, String.toList_append] at this
  simp at this

theorem avoids_empty (g : Gensym) : g.Avoids "" :=
  fun g' _ _ => g'.symbol_ne_empty _ _

theorem le_fresh (g : Gensym) (x : String) : g ≤ (g.fresh x).2 :=
  fun _ h => (g.isTaken_snd_fresh x _).mpr (.inr h)

end Gensym

/-! ## Heads -/

section

variable {W : Type} [Preorder W] {m : Type → Type} [Monad m] [LawfulMonad m]

theorem Assurance.mapBindersM (A : Assurance m W) {w : W} {h : Head}
    {f : Head.BinderPosition → String → m String} {R : W → String → String → Prop}
    (lasting : ∀ w w' x y, w ≤ w' → R w x y → R w' x y)
    (hf : ∀ w' p x, w ≤ w' → A.holds w' (f p x) fun w => R w x) :
    A.holds w (h.mapBindersM f) fun w' => Head.Respelled (R w') h := by
  have other : ∀ {w : W} {h h' : Head}, h.isPattern = false → h'.isClause = false →
      (∀ d, h'.innerDepth d = h.innerDepth d) →
      A.holds w (Pure.pure h') fun w' => Head.Respelled (R w') h := by
    intro w h h' hp hc hd
    exact A.pure fun _ _ => ⟨fun e => Bool.noConfusion (hp.symm.trans e),
      fun e => Bool.noConfusion (hc.symm.trans e), hd⟩
  have same : ∀ {h : Head}, (∀ x, h ≠ .bindPattern x) →
      A.holds w (Pure.pure h) fun w' => Head.Respelled (R w') h := by
    intro h hh
    exact A.pure fun _ _ => .refl fun x e => absurd e (hh x)
  have names : ∀ w' (xs : List String), w ≤ w' →
      A.holds w' (xs.mapM (f .params)) fun _ _ => True := by
    intro w' xs le
    have all := A.mapM (w := w') (l := xs) (f := f .params) (p := fun _ _ => True) (q := R)
      (fun _ _ _ _ h => h) lasting (fun x _ w'' le' _ => hf w'' _ x (le_trans le le')) fun _ _ => trivial
    simpa using A.map all (f := id) (q := fun _ _ => True) (fun _ _ _ _ => trivial) fun _ _ _ _ h => h
  cases h
  case bindPattern x =>
    refine A.bind (hf w _ x (le_refl _)) fun w₁ y le₁ hy => A.pure fun w₂ le₂ => ?_
    exact ⟨fun _ => ⟨rfl, .cons (lasting _ _ _ _ le₂ hy) .nil⟩, by rintro ⟨⟩, fun _ => rfl⟩
  case assignment x | classDef x | tensorDecl x | neuralNet x | comprehensionClause x =>
    exact A.bind (hf w _ x (le_refl _)) fun _ _ _ _ => other rfl rfl fun _ => rfl
  case functionDef x xs | asyncFunctionDef x xs =>
    refine A.bind (hf w _ x (le_refl _)) fun w₁ y le₁ _ => ?_
    exact A.bind (names w₁ xs le₁) fun _ _ _ _ => other rfl rfl fun _ => rfl
  case lambda xs => exact A.bind (names w xs (le_refl _)) fun _ _ _ _ => other rfl rfl fun _ => rfl
  case importDecl path alias? =>
    cases alias? with
    | none => exact same (by rintro _ ⟨⟩)
    | some x => exact A.bind (hf w _ x (le_refl _)) fun _ _ _ _ => other rfl rfl fun _ => rfl
  case loopStmt target =>
    cases target with
    | none => exact same (by rintro _ ⟨⟩)
    | some x => exact A.bind (hf w _ x (le_refl _)) fun _ _ _ _ => other rfl rfl fun _ => rfl
  all_goals exact same (by rintro _ ⟨⟩)

end

/-! ## Renaming apart -/

variable {keep : List String}

/-- What stands for `x` when the names at a quote level have been given the symbols of a table. -/
def Spelling (keep : List String) (t : RenameTable) (depth : Nat) (x y : String) : Prop :=
  if depth = 0 ∧ x ∉ keep ∧ x ≠ wildcard then (x, y) ∈ t.entries else y = x

theorem Spelling.mono {t t' : RenameTable} (le : t ≤ t') {depth : Nat} {x y : String}
    (h : Spelling keep t depth x y) : Spelling keep t' depth x y := by
  unfold Spelling at h ⊢
  split
  · rw [if_pos ‹_›] at h
    exact le h
  · rwa [if_neg ‹_›] at h

/-- The symbols of the table were given out after `g`, each for one name. -/
structure Named (g : Gensym) (s : RenameTable × Gensym) : Prop where
  later : g ≤ s.2
  given : ∀ e ∈ s.1.entries, ∃ g', g ≤ g' ∧ ∃ x, (g'.fresh x).1 = e.2
  used : ∀ e ∈ s.1.entries, s.2.isTaken e.2 = true
  apart : ∀ e ∈ s.1.entries, ∀ e' ∈ s.1.entries, e.2 = e'.2 → e.1 = e'.1

theorem Named.start (g : Gensym) : Named g (RenameTable.empty, g) := by
  refine ⟨le_refl g, ?_, ?_, ?_⟩ <;> exact fun _ h => (List.not_mem_nil h).elim

/-- What becomes known while symbols are made for the names of one template. -/
abbrev naming (g : Gensym) : Assurance IsolateM (RenameTable × Gensym) := .state id (Named g)

variable {g : Gensym} {w : RenameTable × Gensym}

theorem rename_named (x : String) :
    (naming g).holds w (RenameTable.rename x) fun w y => (x, y) ∈ w.1.entries := by
  rintro ⟨t, g'⟩ named _
  rw [RenameTable.rename]
  cases h : t.find? x with
  | some y => exact ⟨le_refl _, named, mem_of_lookup h⟩
  | none =>
    have old : ∀ e ∈ t.entries, e.2 ≠ (g'.fresh x).1 := by
      rintro e he same
      have used := named.used e he
      rw [same, show g'.isTaken _ = false from g'.isTaken_fst_fresh x] at used
      cases used
    have mem : ∀ {e}, e ∈ t.entries ++ [(x, (g'.fresh x).1)] →
        e ∈ t.entries ∨ e = (x, (g'.fresh x).1) := by simp
    refine ⟨⟨List.subset_append_left _ _, g'.le_fresh x⟩, ⟨?_, ?_, ?_, ?_⟩, ?_⟩
    · exact le_trans named.later (g'.le_fresh x)
    · intro e he
      rcases mem he with he | rfl
      · exact named.given e he
      · exact ⟨g', named.later, x, rfl⟩
    · intro e he
      rcases mem he with he | rfl
      · exact g'.le_fresh x _ (named.used e he)
      · exact (g'.isTaken_snd_fresh x _).mpr (.inl rfl)
    · intro e he e' he' same
      rcases mem he with he | rfl <;> rcases mem he' with he' | rfl
      · exact named.apart e he e' he' same
      · exact absurd same (old e he)
      · exact absurd same.symm (old e' he')
      · rfl
    · exact List.mem_append_right _ (List.mem_singleton_self _)

theorem isolatedName_spelling (x : String) :
    (naming g).holds w (Node.isolatedName keep x) fun w => Spelling keep w.1 0 x := by
  by_cases h : x ∈ keep ∨ x = wildcard
  · rw [Node.isolatedName, if_pos (by simpa using h)]
    refine (naming g).pure fun _ _ => ?_
    rw [Spelling, if_neg (by tauto)]
  · rw [Node.isolatedName, if_neg (by simpa using h)]
    have := (naming g).map (w := w) (rename_named x) (f := id)
      (q := fun w y => Spelling keep w.1 0 x y) (fun w' y _ hy => ?_)
      fun _ _ _ le h => h.mono le.1
    · simpa using this
    · rw [Spelling, if_pos (by tauto)]
      exact hy

theorem isolatedHead_respelled (h : Head) :
    (naming g).holds w (Node.isolatedHead keep h) fun w => Head.Respelled (Spelling keep w.1 0) h := by
  cases h
  case identifier x =>
    refine (naming g).bind (isolatedName_spelling x) fun w' y _ _ => ?_
    exact (naming g).pure fun _ _ => ⟨by rintro ⟨⟩, by rintro ⟨⟩, fun _ => rfl⟩
  all_goals
    exact (naming g).mapBindersM (fun _ _ _ _ le h => h.mono le.1) fun _ _ x _ => isolatedName_spelling x

namespace Node

/-- The second tree is the first, which stands at `depth`, with its names spelled by a table. -/
structure Reworded (keep : List String) (t : RenameTable) (depth : Nat) (n n' : Node) : Prop where
  follows : n.Follows (Spelling keep t depth) n'
  patterns : ∀ e d p', (d, p') ∈ n'.patternsAt e →
    ∃ p, (d, p) ∈ n.patternsAt e ∧ ∃ depth, p.Follows (Spelling keep t depth) p'

theorem Follows.imp {R R' : String → String → Prop} {p p' : Node} (h : p.Follows R p')
    (hR : ∀ x y, R x y → R' x y) : p.Follows R' p' :=
  fun hp => ⟨(h hp).1, (h hp).2.imp hR⟩

theorem Reworded.mono {t t' : RenameTable} (le : t ≤ t') {depth : Nat} {n n' : Node}
    (h : n.Reworded keep t depth n') : n.Reworded keep t' depth n' := by
  refine ⟨h.follows.imp fun _ _ => .mono le, fun e d p' hp' => ?_⟩
  obtain ⟨p, hp, depth, r⟩ := h.patterns e d p' hp'
  exact ⟨p, hp, depth, r.imp fun _ _ => .mono le⟩

theorem Reworded.node {t : RenameTable} {depth : Nat} {span : Span} {h h' : Head}
    {slots slots' : List (Slot Node)} (head : h.Respelled (Spelling keep t depth) h')
    (rel : List.Forall₂ (Slot.Rel (Reworded keep t (h.innerDepth depth))) slots slots') :
    (Node.mk span h slots).Reworded keep t depth (.mk span h' slots') where
  follows := by
    refine .node head fun hp => rel.imp fun _ _ r => r.imp fun _ _ r => ?_
    rw [← Head.innerDepth_of_isPattern hp depth]
    exact r.follows
  patterns e d p' hp' := by
    rcases mem_patternsAt_mk.mp hp' with ⟨rfl, clause, rest', rfl⟩ | ⟨s', hs', n', hn', hp'⟩
    · obtain rfl := head.clause clause
      obtain ⟨s, rest, one, -, rfl⟩ := List.forall₂_cons_right_iff.mp rel
      cases one with
      | one r => exact ⟨_, mem_patternsAt_mk.mpr (.inl ⟨rfl, clause, rest, rfl⟩), _, r.follows⟩
    · obtain ⟨s, hs, n, hn, r⟩ := Slot.exists_of_mem_rel rel hs' hn'
      obtain ⟨p, hp, spelled⟩ := r.patterns _ d p' hp'
      rw [head.depth] at hp
      exact ⟨p, mem_patternsAt_mk.mpr (.inr ⟨s, hs, n, hn, hp⟩), spelled⟩

theorem isolate_reworded (keep : List String) (n : Node) (depth : Nat) :
    (naming g).holds w (n.transformM (isolating keep) depth) fun w =>
      n.Reworded keep w.1 depth := by
  refine (naming g).transformM (I := fun _ _ => True)
    (R := fun w depth n n' => n.Reworded keep w.1 depth n')
    (E := fun d n d' => d' = n.head.innerDepth d) (fun _ _ _ _ h => h)
    (fun _ _ _ _ _ le h => h.mono le.1) (fun _ _ _ _ _ _ _ _ _ => trivial)
    ?_ ?_ n w depth trivial
  · intro w d n _
    refine Assurance.pure _ fun w' _ => ?_
    rfl
  rintro w d span head slots _ slots' - rfl rel
  have rel := rel.imp fun _ _ r => Guarantee.Filled.rel r
  have later : ∀ w', w ≤ w' → List.Forall₂
      (Slot.Rel (Reworded keep w'.1 (head.innerDepth d))) slots slots' :=
    fun w' le => rel.imp fun _ _ r => r.imp fun _ _ r => r.mono le.1
  by_cases hd : d = 0
  · subst hd
    refine (naming g).bind (isolatedHead_respelled head) fun w₁ head' le₁ hh => ?_
    exact (naming g).pure fun w₂ le₂ =>
      .node ⟨fun hp => ⟨(hh.pattern hp).1, (hh.pattern hp).2.imp fun _ _ => .mono le₂.1⟩,
        hh.clause, hh.depth⟩ (later w₂ (le_trans le₁ le₂))
  · simp only [isolating, if_neg hd]
    refine (naming g).pure fun w₁ le₁ => .node (.refl fun x _ => ?_) (later w₁ le₁)
    rw [Spelling, if_neg fun h => hd h.1]

end Node

/-! ## Variables in patterns -/

/-- If one of the names is a variable, it is the only one; wildcards do not count unless they are
vars. -/
def Lone (vars names : List String) : Prop :=
  (∀ x ∈ names, x ∉ vars) ∨
    (names.filter fun x => x ≠ wildcard ∨ x ∈ vars).length ≤ 1

instance (vars names : List String) : Decidable (Lone vars names) :=
  inferInstanceAs (Decidable (_ ∨ _))

theorem filter_length_le_of_forall₂ {R : String → String → Prop} {p q : String → Bool}
    {xs ys : List String} (rel : List.Forall₂ R xs ys)
    (h : ∀ x ∈ xs, ∀ y, R x y → q y = true → p x = true) :
    (ys.filter q).length ≤ (xs.filter p).length := by
  induction rel with
  | nil => exact Nat.le_refl _
  | @cons x y xs ys hxy rest ih =>
    have ih := ih fun x hx => h x (List.mem_cons_of_mem _ hx)
    by_cases hq : q y = true
    · rw [List.filter_cons_of_pos hq, List.filter_cons_of_pos (h x List.mem_cons_self y hxy hq)]
      exact Nat.succ_le_succ ih
    · rw [List.filter_cons_of_neg hq]
      exact Nat.le_trans ih ((List.sublist_cons_self x xs).filter p).length_le

theorem nodup_of_length_le_one {α : Type} {l : List α} (h : l.length ≤ 1) : l.Nodup := by
  rcases l with _ | ⟨a, _ | ⟨b, l⟩⟩
  · exact List.nodup_nil
  · exact List.nodup_singleton a
  · exact absurd h (by simp)

theorem Lone.anti {vars vars' names : List String} (h : Lone vars names)
    (sub : ∀ x ∈ vars', x ∈ vars) : Lone vars' names := by
  rcases h with none | one
  · exact .inl fun x hx hv => none x hx (sub x hv)
  · refine .inr (Nat.le_trans (filter_length_le_of_forall₂ (R := Eq) (by simp) ?_) one)
    rintro x - _ rfl hq
    simp only [decide_eq_true_eq] at hq ⊢
    exact hq.imp_right (sub x)

namespace Node

variable {p p' : Node} {depth : Nat}

/-- Names that have been renamed apart are told apart. -/
theorem ValidPattern.spelled (h : p.ValidPattern) {s : RenameTable × Gensym} (named : Named g s)
    (avoided : ∀ x ∈ keep, g.Avoids x) (r : p.Follows (Spelling keep s.1 depth) p') :
    p'.ValidPattern := by
  have fresh : ∀ {x y}, (x, y) ∈ s.1.entries → y ∉ keep := by
    intro x y hy hk
    obtain ⟨g', le, z, e⟩ := named.given _ hy
    exact avoided y hk g' le z e
  refine h.follows r (fun _ y hy => ?_) fun x _ x' _ y hy hy' tame => ?_
  · rwa [Spelling, if_neg fun h => h.2.2 rfl] at hy
  · unfold Spelling at hy hy'
    split at hy <;> rename_i first <;> split at hy' <;> rename_i second
    · exact named.apart _ hy _ hy' rfl
    · subst hy'
      exact absurd ⟨first.1, fresh hy, tame⟩ second
    · subst hy
      exact absurd ⟨second.1, fresh hy', tame⟩ first
    · exact hy.symm.trans hy'

theorem lone_spelled {vars : List String} {s : RenameTable × Gensym} (named : Named g s)
    (avoided : ∀ x ∈ keep, g.Avoids x) (sub : ∀ x ∈ vars, x ∈ keep) (hp : p.IsPattern)
    (r : p.Follows (Spelling keep s.1 depth) p') (h : Lone vars p.bindNames) :
    Lone vars p'.bindNames := by
  have names := (r hp).2
  have kept : ∀ {x y}, Spelling keep s.1 depth x y → y ∈ vars → y = x := by
    intro x y hy hv
    unfold Spelling at hy
    split at hy
    · obtain ⟨g', le, z, e⟩ := named.given _ hy
      exact absurd e (avoided y (sub y hv) g' le z)
    · exact hy
  have wild : ∀ {y}, Spelling keep s.1 depth wildcard y → y = wildcard := by
    intro y hy
    rwa [Spelling, if_neg fun h => h.2.2 rfl] at hy
  rcases h with none | one
  · refine .inl fun y hy hv => ?_
    obtain ⟨x, hx, r⟩ := exists_of_mem_right names hy
    exact none x hx (kept r hv ▸ hv)
  · refine .inr (Nat.le_trans (filter_length_le_of_forall₂ names fun x _ y r hq => ?_) one)
    simp only [decide_eq_true_eq] at hq ⊢
    rcases hq with tame | hv
    · exact .inl fun e => tame (wild (e ▸ r))
    · exact .inr (kept r hv ▸ hv)

end Node

/-! ## Filling -/

namespace Filling

/-- What becomes of a name at a quote level when a template is filled. -/
def Becomes (f : Filling) (depth : Nat) (x y : String) : Prop :=
  depth ≠ 0 ∨ f.bindings.lookup x = none → y = x

theorem becomes_self (f : Filling) (depth : Nat) (x : String) : f.Becomes depth x x := fun _ => rfl

theorem becomes_binder {f : Filling} {receiver : String} {position : Head.BinderPosition}
    {x y : String} (h : f.binder receiver position x = .ok y) : f.Becomes 0 x y := by
  rintro (h' | unbound)
  · exact absurd rfl h'
  · unfold binder at h
    rw [unbound] at h
    cases h
    rfl

end Filling

namespace Node

/-- The second tree is the first, which stands at `depth`, filled. -/
structure Filled (f : Filling) (depth : Nat) (n n' : Node) : Prop where
  follows : n.Follows (f.Becomes depth) n'
  patterns : ∀ p' ∈ n'.clausePatterns, (∃ b ∈ f.bindings, p' ∈ b.2.clausePatterns) ∨
    ∃ d p, (d, p) ∈ n.patternsAt depth ∧ p.Follows (f.Becomes d) p'

end Node

namespace Node

variable {f : Filling}

theorem filled_same {depth : Nat} {n : Node} (hn : n.head.isPattern = false) :
    n.Filled f depth n where
  follows hp := by
    have := hp n n.mem_walk_self
    rw [hn] at this
    cases this
  patterns p hp := by
    obtain ⟨d, hd⟩ := exists_mem_patternsAt depth hp
    exact .inr ⟨d, p, hd, fun pattern => ⟨pattern, List.forall₂_same.mpr fun _ _ _ => rfl⟩⟩

theorem filled_bound {depth : Nat} {n : Node} {b : String × Node} (hn : n.head.isPattern = false)
    (hb : b ∈ f.bindings) : n.Filled f depth b.2 where
  follows hp := by
    have := hp n n.mem_walk_self
    rw [hn] at this
    cases this
  patterns p hp := .inl ⟨b, hb, hp⟩

theorem Filled.node {depth : Nat} {span : Span} {h h' : Head} {slots slots' : List (Slot Node)}
    (head : h.Respelled (f.Becomes depth) h')
    (rel : List.Forall₂ (Slot.Rel (Filled f (h.innerDepth depth))) slots slots') :
    (Node.mk span h slots).Filled f depth (.mk span h' slots') where
  follows := by
    refine .node head fun hp => rel.imp fun _ _ r => r.imp fun _ _ r => ?_
    rw [← Head.innerDepth_of_isPattern hp depth]
    exact r.follows
  patterns p' hp' := by
    rcases mem_clausePatterns_mk.mp hp' with ⟨clause, rest', rfl⟩ | ⟨s', hs', n', hn', hp'⟩
    · obtain rfl := head.clause clause
      obtain ⟨s, rest, one, -, rfl⟩ := List.forall₂_cons_right_iff.mp rel
      cases one with
      | one r =>
        have inner : h'.innerDepth depth = depth := by
          cases h' <;> first | rfl | exact Bool.noConfusion clause
        refine .inr ⟨depth, _, mem_patternsAt_mk.mpr (.inl ⟨rfl, clause, rest, rfl⟩), ?_⟩
        rw [inner] at r
        exact r.follows
    · obtain ⟨s, hs, n, hn, r⟩ := Slot.exists_of_mem_rel rel hs' hn'
      refine (r.patterns p' hp').imp_right fun ⟨d, p, hp, r⟩ => ⟨d, p, ?_, r⟩
      exact mem_patternsAt_mk.mpr (.inr ⟨s, hs, n, hn, hp⟩)

/-- An unquote gives way to what it holds. -/
theorem filled_unquote {depth : Nat} {span : Span} {slots : List (Slot Node)} {e' : Node}
    (rel : List.Forall₂ (Slot.Rel (Filled f (depth - 1))) slots [.one e']) :
    (Node.mk span .unquote slots).Filled f depth e' where
  follows hp := Bool.noConfusion (isPattern_mk.mp hp).1
  patterns p' hp' := by
    obtain ⟨s, hs, n, hn, r⟩ := Slot.exists_of_mem_rel rel List.mem_cons_self (List.mem_singleton_self _)
    refine (r.patterns p' hp').imp_right fun ⟨d, p, hp, r⟩ => ⟨d, p, ?_, r⟩
    exact mem_patternsAt_mk.mpr (.inr ⟨s, hs, n, hn, hp⟩)

theorem substitute_filled (g : Gensym) (n : Node) (depth : Nat) :
    (Assurance.except ExpansionFault).holds g (n.transformM f.transform depth)
      fun _ => n.Filled f depth := by
  refine (Assurance.except _).transformM (I := fun _ _ => True) (R := fun _ depth => Filled f depth)
    (E := fun d n d' => d' = n.head.innerDepth d) (fun _ _ _ _ h => h) (fun _ _ _ _ _ _ h => h)
    (fun _ _ _ _ _ _ _ _ _ => trivial) ?_ ?_ n g depth trivial
  · rintro _ d ⟨span, head, slots⟩ -
    cases head
    case identifier x =>
      refine Assurance.pure _ fun _ _ => ?_
      show Filled f d _ (if d = 0 then (f.bindings.lookup x).getD _ else _)
      split
      · cases bound : f.bindings.lookup x with
        | none => exact filled_same rfl
        | some m => exact filled_bound rfl (mem_of_lookup bound)
      · exact filled_same rfl
    all_goals exact Assurance.pure _ fun _ _ => rfl
  · rintro _ d span head slots _ slots' - rfl rel
    have rel := rel.imp fun _ _ r => Guarantee.Filled.rel r
    unfold Filling.transform
    dsimp only
    split
    · rename_i e' heq slotsEq
      obtain rfl : head = .unquote := heq
      obtain rfl : slots' = [.one e'] := slotsEq
      split
      · exact Assurance.pure _ fun _ _ => filled_unquote rel
      · exact Assurance.pure _ fun _ _ => .node (.refl fun _ _ => f.becomes_self d _) rel
    · split
      · rename_i hd
        have hd : d = 0 := hd
        subst hd
        refine (Assurance.except _).bind ((Assurance.except _).mapBindersM (R := fun _ => f.Becomes 0)
          (fun _ _ _ _ _ h => h) fun _ p x _ y h => Filling.becomes_binder h) ?_
        exact fun _ head' _ hr => Assurance.pure _ fun _ _ => .node hr rel
      · exact Assurance.pure _ fun _ _ => .node (.refl fun _ _ => f.becomes_self d _) rel

/-- Filling a pattern keeps it valid if no variable stands in it next to another name. -/
theorem ValidPattern.filled {p p' : Node} {depth : Nat} (h : p.ValidPattern)
    (r : p.Follows (f.Becomes depth) p')
    (lone : depth = 0 → Lone f.bindings.names p.bindNames) : p'.ValidPattern := by
  by_cases kept : ∀ x ∈ p.bindNames, ∀ y, f.Becomes depth x y → y = x
  · refine h.follows r (fun hw y hy => kept _ hw y hy) fun x hx x' hx' y hy hy' _ => ?_
    exact (kept x hx y hy).symm.trans (kept x' hx' y hy')
  · obtain ⟨pattern, names⟩ := r h.pattern
    have other : ∀ {x y}, f.Becomes depth x y → y ≠ x → depth = 0 ∧ x ∈ f.bindings.names := by
      intro x y hy new
      by_contra out
      refine new (hy ?_)
      by_cases hd : depth = 0
      · refine .inr (List.lookup_eq_none_iff.mpr fun b hb => ?_)
        have : x ∉ f.bindings.names := fun hx => out ⟨hd, hx⟩
        simp only [bne_iff_ne, ne_eq]
        rintro rfl
        exact this (List.mem_map_of_mem hb)
      · exact .inl hd
    push Not at kept
    obtain ⟨x, hx, y, hy, new⟩ := kept
    obtain ⟨rfl, bound⟩ := other hy new
    have one := (lone rfl).resolve_left fun none => none x hx bound
    refine ⟨pattern, ?_⟩
    rw [patternVariables_eq]
    refine nodup_of_length_le_one (Nat.le_trans (filter_length_le_of_forall₂ names ?_) one)
    intro x _ y hy tame
    simp only [decide_eq_true_eq] at tame ⊢
    by_cases same : y = x
    · exact .inl (same ▸ tame)
    · exact .inr (other hy same).2

end Node

end GlyphScript
