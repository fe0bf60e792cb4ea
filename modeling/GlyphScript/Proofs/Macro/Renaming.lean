import GlyphScript.Proofs.Macro.Names

/-!
# Changing the names of a tree

The own names of a head as a list that can be read and replaced, and trees
whose names are changed one by one, each by where it stands among quotes.
-/

namespace GlyphScript

theorem Slot.rel_map_left {α β γ : Type} {f : α → β} {R : β → γ → Prop} {s : Slot α} {t : Slot γ} :
    (s.map f).Rel R t ↔ s.Rel (fun a => R (f a)) t := by
  cases s <;> simp [Slot.map]

theorem Slot.rel_map_right {α β γ : Type} {f : β → γ} {R : α → γ → Prop} {s : Slot α} {t : Slot β} :
    s.Rel R (t.map f) ↔ s.Rel (fun a b => R a (f b)) t := by
  cases s <;> cases t <;> simp [Slot.map]

theorem Slot.Rel.imp_of_mem {α β : Type} {R R' : α → β → Prop} {s : Slot α} {t : Slot β}
    (h : s.Rel R t) (hR : ∀ a ∈ s.toList, ∀ b, R a b → R' a b) : s.Rel R' t := by
  cases h with
  | absent => exact .absent
  | one r => exact .one (hR _ (List.mem_singleton_self _) _ r)
  | many r => exact .many (forall₂_imp_of_mem r hR)

theorem Slot.Rel.eq_map {α β : Type} {f : α → β} {s : Slot α} {t : Slot β}
    (h : s.Rel (fun a b => b = f a) t) : t = s.map f := by
  cases h with
  | absent => rfl
  | one r => rw [r, Slot.map]
  | many r =>
    rw [Slot.map, Slot.many.injEq, ← List.forall₂_eq_eq_eq, List.forall₂_map_right_iff]
    exact r.flip

namespace Head

/-! ## Heads -/

/-- The names that a node binds, with the attributes that hold them. -/
def binders : Head → List (BinderPosition × String)
  | .assignment x | .comprehensionClause x => [(.target, x)]
  | .importDecl _ alias? => alias?.toList.map (.importAlias, ·)
  | .functionDef x xs | .asyncFunctionDef x xs => (.name, x) :: xs.map (.params, ·)
  | .classDef x | .tensorDecl x | .neuralNet x | .bindPattern x => [(.name, x)]
  | .loopStmt target => target.toList.map (.target, ·)
  | .lambda xs => xs.map (.params, ·)
  | _ => []

/-- The head with other names of its own, as many as it has. -/
def withNames : Head → List String → Head
  | .identifier _, [x] => .identifier x
  | .assignment _, [x] => .assignment x
  | .comprehensionClause _, [x] => .comprehensionClause x
  | .importDecl path (some _), [x] => .importDecl path (some x)
  | .functionDef .., x :: xs => .functionDef x xs
  | .asyncFunctionDef .., x :: xs => .asyncFunctionDef x xs
  | .classDef _, [x] => .classDef x
  | .tensorDecl _, [x] => .tensorDecl x
  | .neuralNet _, [x] => .neuralNet x
  | .bindPattern _, [x] => .bindPattern x
  | .loopStmt (some _), [x] => .loopStmt (some x)
  | .lambda _, xs => .lambda xs
  | head, _ => head

/-- The head with each of its own names changed. -/
def mapNames (f : String → String) (h : Head) : Head := h.withNames (h.ownNames.map f)

/-- The second head is the first with related names. -/
def RenamedTo (R : String → String → Prop) (h h' : Head) : Prop :=
  ∃ ys, List.Forall₂ R h.ownNames ys ∧ h' = h.withNames ys

theorem map_snd_binders (h : Head) : h.binders.map (·.2) = h.boundNames := by
  cases h
  case importDecl path alias? => cases alias? <;> rfl
  case loopStmt target => cases target <;> rfl
  all_goals simp [binders, boundNames, Function.comp_def]

@[simp] theorem withNames_ownNames (h : Head) : h.withNames h.ownNames = h := by
  cases h
  case importDecl path alias? => cases alias? <;> rfl
  case loopStmt target => cases target <;> rfl
  all_goals rfl

theorem exists_of_length_one {ys : List String} (h : ys.length = 1) : ∃ y, ys = [y] :=
  List.length_eq_one_iff.mp h

/-- A head with as many names as it had has these names. -/
theorem ownNames_withNames {h : Head} {ys : List String} (length : ys.length = h.ownNames.length) :
    (h.withNames ys).ownNames = ys := by
  cases h
  case importDecl path alias? =>
    cases alias? with
    | none => exact (List.length_eq_zero_iff.mp length).symm
    | some x =>
      obtain ⟨y, rfl⟩ := exists_of_length_one length
      rfl
  case loopStmt target =>
    cases target with
    | none => exact (List.length_eq_zero_iff.mp length).symm
    | some x =>
      obtain ⟨y, rfl⟩ := exists_of_length_one length
      rfl
  case functionDef | asyncFunctionDef =>
    cases ys with
    | nil => cases length
    | cons y ys => rfl
  case lambda => rfl
  case identifier | assignment | classDef | tensorDecl | neuralNet | comprehensionClause |
      bindPattern =>
    obtain ⟨y, rfl⟩ := exists_of_length_one length
    rfl
  all_goals exact (List.length_eq_zero_iff.mp length).symm

/-- Of names put in one after the other the last ones count. -/
theorem withNames_withNames {h : Head} {ys zs : List String}
    (first : ys.length = h.ownNames.length) (second : zs.length = h.ownNames.length) :
    (h.withNames ys).withNames zs = h.withNames zs := by
  cases h
  case importDecl path alias? =>
    cases alias? with
    | none => rfl
    | some x =>
      obtain ⟨y, rfl⟩ := exists_of_length_one first
      obtain ⟨z, rfl⟩ := exists_of_length_one second
      rfl
  case loopStmt target =>
    cases target with
    | none => rfl
    | some x =>
      obtain ⟨y, rfl⟩ := exists_of_length_one first
      obtain ⟨z, rfl⟩ := exists_of_length_one second
      rfl
  case functionDef | asyncFunctionDef =>
    cases ys with
    | nil => cases first
    | cons y ys =>
      cases zs with
      | nil => cases second
      | cons z zs => rfl
  case lambda => rfl
  case identifier | assignment | classDef | tensorDecl | neuralNet | comprehensionClause |
      bindPattern =>
    obtain ⟨y, rfl⟩ := exists_of_length_one first
    obtain ⟨z, rfl⟩ := exists_of_length_one second
    rfl
  all_goals rfl

@[simp] theorem ownNames_mapNames (f : String → String) (h : Head) :
    (h.mapNames f).ownNames = h.ownNames.map f :=
  ownNames_withNames (by simp)

theorem mapNames_mapNames (f g : String → String) (h : Head) :
    (h.mapNames f).mapNames g = h.mapNames (g ∘ f) := by
  have same : (h.mapNames f).ownNames.map g = h.ownNames.map (g ∘ f) := by simp
  unfold mapNames at same ⊢
  rw [same]
  exact withNames_withNames (by simp) (by simp)

theorem mapNames_of_fixed {f : String → String} {h : Head} (fixed : ∀ x ∈ h.ownNames, f x = x) :
    h.mapNames f = h := by
  have same : h.ownNames.map f = h.ownNames := by
    simpa using List.map_congr_left (g := id) fixed
  rw [mapNames, same, withNames_ownNames]

/-- Names do not tell how deep in quotes the children are. -/
@[simp] theorem innerDepth_withNames (h : Head) (ys : List String) (depth : Nat) :
    (h.withNames ys).innerDepth depth = h.innerDepth depth := by
  unfold withNames
  split <;> rfl

@[simp] theorem innerDepth_mapNames (f : String → String) (h : Head) (depth : Nat) :
    (h.mapNames f).innerDepth depth = h.innerDepth depth :=
  innerDepth_withNames ..

/-! ## Acting on the binders -/

/-- Acting on the names that a node binds is acting on a list of names. -/
theorem mapBindersM_eq {m : Type → Type} [Monad m] [LawfulMonad m]
    (f : BinderPosition → String → m String) {h : Head} (hh : ∀ x, h ≠ .identifier x) :
    h.mapBindersM f = h.withNames <$> h.binders.mapM fun b => f b.1 b.2 := by
  cases h
  case identifier x => exact absurd rfl (hh x)
  case importDecl path alias? => cases alias? <;> simp [mapBindersM, binders, withNames]
  case loopStmt target => cases target <;> simp [mapBindersM, binders, withNames]
  case functionDef | asyncFunctionDef | lambda =>
    simp only [mapBindersM, binders, List.mapM_cons, List.mapM_map, bind_pure_comp, map_bind,
      Functor.map_map]
    rfl
  all_goals simp [mapBindersM, binders, withNames]

end Head

/-! ## Trees -/

namespace Node

/-- The tree with its names changed, each by the quote level at which it stands. -/
def mapNames (f : Nat → String → String) : Node → (depth : Nat) → Node :=
  fold fun span head slots depth =>
    mk span (head.mapNames (f depth)) (slots.map (Slot.map (· (head.innerDepth depth))))

/-- The second tree is the first, which stands at `depth`, with names related by their quote
levels. -/
def RenamedTo (R : Nat → String → String → Prop) : Node → (depth : Nat) → Node → Prop :=
  fold fun span head slots depth n' =>
    n'.span = span ∧ head.RenamedTo (R depth) n'.head ∧
      List.Forall₂ (Slot.Rel fun below m => below (head.innerDepth depth) m) slots n'.slots

variable {span : Span} {head : Head} {slots : List (Slot Node)} {depth : Nat}

theorem mapNames_mk (f : Nat → String → String) :
    (mk span head slots).mapNames f depth = mk span (head.mapNames (f depth))
      (slots.map (Slot.map fun n => n.mapNames f (head.innerDepth depth))) := by
  rw [mapNames, fold_mk]
  simp [Function.comp_def]

theorem renamedTo_mk {R : Nat → String → String → Prop} {n' : Node} :
    (mk span head slots).RenamedTo R depth n' ↔ ∃ head' slots', n' = mk span head' slots' ∧
      head.RenamedTo (R depth) head' ∧
      List.Forall₂ (Slot.Rel fun n m => n.RenamedTo R (head.innerDepth depth) m) slots slots' := by
  obtain ⟨span', head', slots'⟩ := n'
  rw [RenamedTo, fold_mk]
  constructor
  · rintro ⟨rfl, names, rel⟩
    refine ⟨head', slots', rfl, names, ?_⟩
    rw [List.forall₂_map_left_iff] at rel
    exact rel.imp fun _ _ r => (Slot.rel_map_left.mp r)
  · rintro ⟨head', slots', made, names, rel⟩
    cases made
    refine ⟨rfl, names, ?_⟩
    rw [List.forall₂_map_left_iff]
    exact rel.imp fun _ _ r => (Slot.rel_map_left.mpr r)

/-- The names of a tree, each with the quote level at which it stands. -/
abbrev namesAt (n : Node) (depth : Nat) : List (Nat × String) :=
  n.namesIn (fun head depth => head.innerDepth depth) depth

theorem mem_namesIn_own {δ : Type} {inner : Head → δ → δ} {d : δ} {x : String}
    (h : x ∈ head.ownNames) : (d, x) ∈ (mk span head slots).namesIn inner d := by
  rw [namesIn_mk]
  exact List.mem_append_left _ (List.mem_map_of_mem h)

theorem mem_namesIn_child {δ : Type} {inner : Head → δ → δ} {d : δ} {s : Slot Node} (hs : s ∈ slots)
    {n : Node} (hn : n ∈ s.toList) {p : δ × String} (h : p ∈ n.namesIn inner (inner head d)) :
    p ∈ (mk span head slots).namesIn inner d := by
  rw [namesIn_mk]
  apply List.mem_append_right
  exact List.mem_flatMap.mpr ⟨s, hs, List.mem_flatMap.mpr ⟨n, hn, h⟩⟩

theorem mem_namesOutside {n : Node} {x : String} :
    x ∈ n.namesOutside depth ↔ (0, x) ∈ n.namesAt depth := by
  simp only [namesOutside, List.mem_map, List.mem_filter, decide_eq_true_eq]
  constructor
  · rintro ⟨⟨d, y⟩, ⟨mem, rfl⟩, rfl⟩
    exact mem
  · intro mem
    exact ⟨(0, x), ⟨mem, rfl⟩, rfl⟩

theorem mapNames_congr {f g : Nat → String → String} {n : Node}
    (h : ∀ p ∈ n.namesAt depth, f p.1 p.2 = g p.1 p.2) : n.mapNames f depth = n.mapNames g depth := by
  induction n using induction_on generalizing depth with
  | step span head slots ih =>
    have own : head.mapNames (f depth) = head.mapNames (g depth) := by
      unfold Head.mapNames
      rw [List.map_congr_left fun x hx => h (depth, x) (mem_namesIn_own hx)]
    rw [mapNames_mk, mapNames_mk, own]
    congr 1
    apply List.map_congr_left
    intro s hs
    apply Slot.map_congr
    intro n hn
    exact ih s hs n hn fun p hp => h p (mem_namesIn_child hs hn hp)

theorem mapNames_mapNames (f g : Nat → String → String) (n : Node) :
    (n.mapNames f depth).mapNames g depth = n.mapNames (fun d x => g d (f d x)) depth := by
  induction n using induction_on generalizing depth with
  | step span head slots ih =>
    rw [mapNames_mk, mapNames_mk, mapNames_mk, Head.mapNames_mapNames, List.map_map]
    congr 1
    apply List.map_congr_left
    intro s hs
    rw [Function.comp_apply, Slot.map_map]
    apply Slot.map_congr
    intro n hn
    rw [Function.comp_apply, Head.innerDepth_mapNames]
    exact ih s hs n hn

theorem mapNames_of_fixed {f : Nat → String → String} {n : Node}
    (fixed : ∀ p ∈ n.namesAt depth, f p.1 p.2 = p.2) : n.mapNames f depth = n := by
  induction n using induction_on generalizing depth with
  | step span head slots ih =>
    have own : head.mapNames (f depth) = head :=
      Head.mapNames_of_fixed fun x hx => fixed (depth, x) (mem_namesIn_own hx)
    have below : slots.map (Slot.map fun n => n.mapNames f (head.innerDepth depth)) = slots := by
      conv_rhs => rw [← List.map_id slots]
      apply List.map_congr_left
      intro s hs
      have same : ∀ n ∈ s.toList, n.mapNames f (head.innerDepth depth) = id n := fun n hn =>
        ih s hs n hn fun p hp => fixed p (mem_namesIn_child hs hn hp)
      rw [Slot.map_congr same]
      cases s <;> simp [Slot.map]
    rw [mapNames_mk, own, below]

namespace RenamedTo

variable {R R' : Nat → String → String → Prop} {n n' : Node}

theorem imp (h : n.RenamedTo R depth n') (hR : ∀ d x y, R d x y → R' d x y) :
    n.RenamedTo R' depth n' := by
  induction n using induction_on generalizing depth n' with
  | step span head slots ih =>
    obtain ⟨head', slots', rfl, ⟨ys, names, same⟩, rel⟩ := renamedTo_mk.mp h
    refine renamedTo_mk.mpr ⟨head', slots', rfl, ⟨ys, names.imp fun _ _ => hR _ _ _, same⟩, ?_⟩
    exact forall₂_imp_of_mem rel fun s hs s' r => r.imp_of_mem fun n hn n' r => ih s hs n hn r

/-- Every name is related to the one that takes its place. -/
theorem related (h : n.RenamedTo R depth n') : ∀ p ∈ n.namesAt depth, ∃ y, R p.1 p.2 y := by
  induction n using induction_on generalizing depth n' with
  | step span head slots ih =>
    obtain ⟨head', slots', rfl, ⟨ys, names, same⟩, rel⟩ := renamedTo_mk.mp h
    intro p hp
    rw [namesAt, namesIn_mk] at hp
    rcases List.mem_append.mp hp with own | below
    · obtain ⟨x, hx, rfl⟩ := List.mem_map.mp own
      obtain ⟨y, -, r⟩ := exists_of_mem_right names.flip hx
      exact ⟨y, r⟩
    · obtain ⟨s, hs, hp⟩ := List.mem_flatMap.mp below
      obtain ⟨n, hn, hp⟩ := List.mem_flatMap.mp hp
      obtain ⟨s', -, r⟩ := exists_of_mem_right rel.flip hs
      obtain ⟨n', -, r⟩ := exists_of_mem_right r.toList.flip hn
      exact ih s hs n hn r p hp

/-- Where names give one answer each, the second tree is the first with these answers. -/
theorem eq_mapNames {f : Nat → String → String} (h : n.RenamedTo R depth n')
    (hf : ∀ p ∈ n.namesAt depth, ∀ y, R p.1 p.2 y → y = f p.1 p.2) : n' = n.mapNames f depth := by
  induction n using induction_on generalizing depth n' with
  | step span head slots ih =>
    obtain ⟨head', slots', rfl, ⟨ys, names, same⟩, rel⟩ := renamedTo_mk.mp h
    have own : ys = head.ownNames.map (f depth) := by
      rw [← List.forall₂_eq_eq_eq, List.forall₂_map_right_iff]
      exact (forall₂_imp_of_mem names fun x hx y r =>
        hf (depth, x) (mem_namesIn_own hx) y r).flip.imp fun _ _ e => e
    rw [mapNames_mk, same, Head.mapNames, own]
    congr 1
    rw [← List.forall₂_eq_eq_eq, List.forall₂_map_right_iff]
    refine (forall₂_imp_of_mem rel fun s hs s' r => ?_).flip
    have each : s.Rel (fun n m => m = n.mapNames f (head.innerDepth depth)) s' :=
      r.imp_of_mem fun n hn n' r => ih s hs n hn r fun p hp => hf p (mem_namesIn_child hs hn hp)
    exact each.eq_map

end RenamedTo

end Node

end GlyphScript
