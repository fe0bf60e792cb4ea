import GlyphScript.Proofs.Macro.Filling
import GlyphScript.Proofs.Macro.Matching

/-!
# Fillings of a template with other names

A template whose names have been changed can be filled if the names that
filling looks up stand for the same as before, and the result is the old one
with its names changed if what is put in keeps its names.
-/

namespace GlyphScript

theorem exists_forall₂ {α β : Type} {R : α → β → Prop} {as : List α} (h : ∀ a ∈ as, ∃ b, R a b) :
    ∃ bs, List.Forall₂ R as bs := by
  induction as with
  | nil => exact ⟨[], .nil⟩
  | cons a as ih =>
    obtain ⟨here, below⟩ := List.forall_mem_cons.mp h
    obtain ⟨b, r⟩ := here
    obtain ⟨bs, rest⟩ := ih below
    exact ⟨b :: bs, .cons r rest⟩

theorem forall₂_of_common {α β γ : Type} {R : α → β → Prop} {R' : α → γ → Prop} {T : β → γ → Prop}
    {as : List α} {bs : List β} {cs : List γ} (h : List.Forall₂ R as bs)
    (h' : List.Forall₂ R' as cs) (hT : ∀ a ∈ as, ∀ b c, R a b → R' a c → T b c) :
    List.Forall₂ T bs cs := by
  induction h generalizing cs with
  | nil =>
    cases h'
    exact .nil
  | cons r _ ih =>
    cases h' with
    | cons r' h' =>
      exact .cons (hT _ List.mem_cons_self _ _ r r')
        (ih h' fun a ha => hT a (List.mem_cons_of_mem _ ha))

theorem Slot.Rel.of_common {α β γ : Type} {R : α → β → Prop} {R' : α → γ → Prop} {T : β → γ → Prop}
    {s : Slot α} {t : Slot β} {u : Slot γ} (h : s.Rel R t) (h' : s.Rel R' u)
    (hT : ∀ a ∈ s.toList, ∀ b c, R a b → R' a c → T b c) : t.Rel T u := by
  cases h with
  | absent =>
    cases h'
    exact .absent
  | one r =>
    cases h' with
    | one r' => exact .one (hT _ (List.mem_singleton_self _) _ _ r r')
  | many r =>
    cases h' with
    | many r' => exact .many (forall₂_of_common r r' hT)

theorem Slot.rel_same {α : Type} {R : α → α → Prop} {s : Slot α} (h : ∀ a ∈ s.toList, R a a) :
    s.Rel R s := by
  cases s with
  | absent => exact .absent
  | one a => exact .one (h a (List.mem_singleton_self a))
  | many as => exact .many (List.forall₂_same.mpr h)

theorem Slot.exists_rel {α β : Type} {R : α → β → Prop} {s : Slot α}
    (h : ∀ a ∈ s.toList, ∃ b, R a b) : ∃ t, s.Rel R t := by
  cases s with
  | absent => exact ⟨.absent, .absent⟩
  | one a =>
    obtain ⟨b, r⟩ := h a (List.mem_singleton_self a)
    exact ⟨.one b, .one r⟩
  | many as =>
    obtain ⟨bs, rel⟩ := exists_forall₂ h
    exact ⟨.many bs, .many rel⟩

theorem eq_one_of_map {α β : Type} {g : α → β} {slots : List (Slot α)} {b : β}
    (h : slots.map (Slot.map g) = [.one b]) : ∃ a, slots = [.one a] := by
  obtain ⟨s, rfl, made⟩ := List.map_eq_singleton_iff.mp h
  cases s <;> simp [Slot.map] at made
  exact ⟨_, rfl⟩

namespace Head

variable {h h' : Head}

theorem mapNames_ne_identifier {g : String → String} (other : ∀ x, h ≠ .identifier x) (x : String) :
    h.mapNames g ≠ .identifier x := by
  intro e
  have same := h.className_mapNames g
  rw [e] at same
  cases h <;> first | exact other _ rfl | simp [className] at same

/-- A head without names is what a head is only if it was so before its names were changed. -/
theorem mapNames_eq_iff {g : String → String} {k : Head} (none : k.ownNames = []) :
    h.mapNames g = k ↔ h = k := by
  constructor
  · intro e
    have own : h.ownNames = [] := by
      have mapped := h.ownNames_mapNames g
      rw [e, none] at mapped
      exact List.map_eq_nil_iff.mp mapped.symm
    rw [← e, mapNames_of_fixed]
    rw [own]
    exact fun x hx => absurd hx List.not_mem_nil
  · rintro rfl
    apply mapNames_of_fixed
    rw [none]
    exact fun x hx => absurd hx List.not_mem_nil

theorem mapNames_eq_unquote {g : String → String} : h.mapNames g = .unquote ↔ h = .unquote :=
  mapNames_eq_iff rfl

/-- Names are related to others if they are related after both have been changed. -/
theorem RenamedTo.mapNames {R R' : String → String → Prop} {ρ σ : String → String}
    (r : h.RenamedTo R h') (hR : ∀ x ∈ h.ownNames, ∀ y, R x y → R' (ρ x) (σ y)) :
    (h.mapNames ρ).RenamedTo R' (h'.mapNames σ) := by
  obtain ⟨ys, names, rfl⟩ := r
  have length : ys.length = h.ownNames.length := names.length_eq.symm
  refine ⟨ys.map σ, ?_, ?_⟩
  · rw [ownNames_mapNames, List.forall₂_map_left_iff, List.forall₂_map_right_iff]
    exact forall₂_imp_of_mem names fun x hx y => hR x hx y
  · rw [Head.mapNames, ownNames_withNames length, withNames_withNames length (by simp [length]),
      Head.mapNames, withNames_withNames (by simp) (by simp [length])]

theorem exists_renamedTo {R : String → String → Prop} (related : ∀ x ∈ h.ownNames, ∃ y, R x y) :
    ∃ h', h.RenamedTo R h' := by
  obtain ⟨ys, names⟩ := exists_forall₂ related
  exact ⟨h.withNames ys, ys, names, rfl⟩

theorem RenamedTo.related {R : String → String → Prop} (r : h.RenamedTo R h') {x : String}
    (hx : x ∈ h.ownNames) : ∃ y, R x y := by
  obtain ⟨ys, names, -⟩ := r
  obtain ⟨y, -, hy⟩ := exists_of_mem_right names.flip hx
  exact ⟨y, hy⟩

theorem RenamedTo.of_mapNames {R : String → String → Prop} {g : String → String}
    (r : (h.mapNames g).RenamedTo R h') : h.RenamedTo (fun x => R (g x)) h' := by
  obtain ⟨ys, names, rfl⟩ := r
  rw [ownNames_mapNames, List.forall₂_map_left_iff] at names
  refine ⟨ys, names, ?_⟩
  exact withNames_withNames (by simp) names.length_eq.symm

/-- What a head can be made by giving it other names can be made so from each other. -/
theorem RenamedTo.of_common {R R' : String → String → Prop} {h₁ h₂ : Head}
    (r₁ : h.RenamedTo R h₁) (r₂ : h.RenamedTo R' h₂) : h₁.RenamedTo (fun _ _ => True) h₂ := by
  obtain ⟨ys, names, rfl⟩ := r₁
  obtain ⟨zs, names', rfl⟩ := r₂
  refine ⟨zs, ?_, (withNames_withNames names.length_eq.symm names'.length_eq.symm).symm⟩
  rw [ownNames_withNames names.length_eq.symm]
  exact forall₂_of_common names names' fun _ _ _ _ _ _ => trivial

theorem renamedTo_mapNames (g : String → String) (h : Head) :
    h.RenamedTo (fun x y => y = g x) (h.mapNames g) := by
  refine ⟨h.ownNames.map g, ?_, rfl⟩
  rw [List.forall₂_map_right_iff]
  exact List.forall₂_same.mpr fun _ _ => rfl

end Head

namespace Filling

variable {f f' : Filling} {n n' : Node} {d : Depths}

theorem exists_renames {x : String} :
    (∃ y, f.Renames x y) ↔ ∀ bound, f.bindings.lookup x = some bound → ∃ y, bound.head = .identifier y := by
  unfold Renames
  cases f.bindings.lookup x with
  | none => simp
  | some bound => simp

theorem exists_fills_identifier (f : Filling) (depth : Nat) (span : Span) (x : String)
    (slots : List (Slot Node)) : ∃ n, f.Fills (depth, .mk span (.identifier x) slots) n := by
  by_cases outside : depth = 0
  · cases found : f.bindings.lookup x with
    | none => exact ⟨_, fills_identifier.mpr (.inr ⟨.inr found, rfl⟩)⟩
    | some n => exact ⟨n, fills_identifier.mpr (.inl ⟨outside, found⟩)⟩
  · exact ⟨_, fills_identifier.mpr (.inr ⟨.inl outside, rfl⟩)⟩

/-- Of two templates that differ in names, and in which the names looked up stand for the same, one
can be filled if the other can. -/
theorem Fills.twin (level : f'.level = f.level) {φ φ' : Nat → String → String}
    (same : ∀ p ∈ n.namesIn (Depths.inside f.level) d, p.1.filling = 0 →
      f.bindings.lookup (φ p.1.isolation p.2) = f'.bindings.lookup (φ' p.1.isolation p.2))
    (h : f.Fills (d.filling, n.mapNames φ d.isolation) n') :
    ∃ m, f'.Fills (d.filling, n.mapNames φ' d.isolation) m := by
  induction n using Node.induction_on generalizing d n' with
  | step span head slots ih =>
    have below : ∀ s ∈ slots, ∀ m ∈ s.toList, ∀ {m'},
        f.Fills ((d.inside f.level head).filling,
          m.mapNames φ (d.inside f.level head).isolation) m' →
        ∃ k, f'.Fills ((d.inside f.level head).filling,
          m.mapNames φ' (d.inside f.level head).isolation) k := by
      intro s hs m hm m' h
      exact ih s hs m hm (fun p hp => same p (Node.mem_namesIn_child hs hm hp)) h
    rw [Node.mapNames_mk] at h ⊢
    obtain ⟨x, rfl⟩ | ⟨rfl, ⟨e, rfl⟩, shallow⟩ | ⟨other, deep⟩ :=
      f.template_cases d.filling head slots
    · exact f'.exists_fills_identifier ..
    · obtain ⟨k, hk⟩ := below _ List.mem_cons_self e (List.mem_singleton_self e)
        ((fills_unquote shallow).mp h)
      exact ⟨k, (fills_unquote (level ▸ shallow)).mpr hk⟩
    · have deep' : ∀ (g : String → String) (k : Node → Node) e, head.mapNames g = .unquote →
          slots.map (Slot.map k) = [.one e] → f.level < d.filling := by
        intro g k e unquote one
        obtain ⟨e', one⟩ := eq_one_of_map one
        exact deep e' (Head.mapNames_eq_unquote.mp unquote) one
      obtain ⟨head₁, slots₁, -, names, rel⟩ :=
        (fills_node (Head.mapNames_ne_identifier other) (deep' _ _)).mp h
      have heads : ∃ head', (head.mapNames (φ' d.isolation)).RenamedTo
          (fun x y => if d.filling = 0 then f'.Renames x y else y = x) head' := by
        apply Head.exists_renamedTo
        intro y hy
        by_cases outside : d.filling = 0
        · rw [Head.ownNames_mapNames] at hy
          obtain ⟨x, hx, rfl⟩ := List.mem_map.mp hy
          have own := same (d, x) (Node.mem_namesIn_own hx) outside
          have renamed := names.related (x := φ d.isolation x)
            (by rw [Head.ownNames_mapNames]; exact List.mem_map_of_mem hx)
          simp only [outside, if_true, exists_renames] at renamed ⊢
          rwa [← own]
        · simp only [outside, if_false]
          exact ⟨y, rfl⟩
      obtain ⟨head', names'⟩ := heads
      have slots' : ∃ slots', List.Forall₂ (Slot.Rel fun n m => f'.Fills
          ((head.mapNames (φ' d.isolation)).innerDepth d.filling, n) m)
          (slots.map (Slot.map fun n => n.mapNames φ' (head.innerDepth d.isolation))) slots' := by
        apply exists_forall₂
        intro s' hs'
        obtain ⟨s, hs, rfl⟩ := List.mem_map.mp hs'
        apply Slot.exists_rel
        intro m' hm'
        rw [Slot.toList_map] at hm'
        obtain ⟨m, hm, rfl⟩ := List.mem_map.mp hm'
        obtain ⟨s₁, -, r⟩ := exists_of_mem_right rel.flip (List.mem_map_of_mem hs)
        obtain ⟨m₁, -, r⟩ := exists_of_mem_right r.toList.flip
          (by rw [Slot.toList_map]; exact List.mem_map_of_mem hm)
        rw [Head.innerDepth_mapNames] at r ⊢
        exact below s hs m hm r
      obtain ⟨slots', rel'⟩ := slots'
      exact ⟨_, (fills_node (Head.mapNames_ne_identifier other) (level ▸ deep' _ _)).mpr
        ⟨head', slots', rfl, names', rel'⟩⟩

/-- Changing the names of a template changes those of the result in the same way, except in what is
put in. -/
theorem Fills.mapNames {ρ σ : Nat → String → String}
    (bound : ∀ p ∈ n.namesIn (Depths.inside f.level) d, p.1.filling = 0 → ∀ m,
      f.bindings.lookup p.2 = some m → ρ p.1.isolation p.2 = p.2 ∧ m.mapNames σ p.1.result = m)
    (unbound : ∀ p ∈ n.namesIn (Depths.inside f.level) d,
      p.1.filling ≠ 0 ∨ f.bindings.lookup p.2 = none →
      σ p.1.result p.2 = ρ p.1.isolation p.2 ∧
        (p.1.filling = 0 → f.bindings.lookup (ρ p.1.isolation p.2) = none))
    (shaped : n.Shaped) (h : f.Fills (d.filling, n) n') :
    f.Fills (d.filling, n.mapNames ρ d.isolation) (n'.mapNames σ d.result) := by
  induction n using Node.induction_on generalizing d n' with
  | step span head slots ih =>
    obtain ⟨fields, parts⟩ := Node.shaped_mk.mp shaped
    have below : ∀ s ∈ slots, ∀ m ∈ s.toList, ∀ {m'},
        f.Fills ((d.inside f.level head).filling, m) m' →
        f.Fills ((d.inside f.level head).filling,
          m.mapNames ρ (d.inside f.level head).isolation)
          (m'.mapNames σ (d.inside f.level head).result) := by
      intro s hs m hm m' h
      exact ih s hs m hm (fun p hp => bound p (Node.mem_namesIn_child hs hm hp))
        (fun p hp => unbound p (Node.mem_namesIn_child hs hm hp)) (parts s hs m hm) h
    rw [Node.mapNames_mk]
    obtain ⟨x, rfl⟩ | ⟨rfl, ⟨e, rfl⟩, shallow⟩ | ⟨other, deep⟩ :=
      f.template_cases d.filling head slots
    · have own : (d, x) ∈ (Node.mk span (.identifier x) slots).namesIn (Depths.inside f.level) d :=
        Node.mem_namesIn_own (List.mem_singleton_self x)
      have renamed : (Head.identifier x).mapNames (ρ d.isolation) = .identifier (ρ d.isolation x) :=
        rfl
      rw [renamed, fills_identifier]
      rw [fills_identifier] at h
      rcases h with ⟨outside, found⟩ | ⟨free, rfl⟩
      · obtain ⟨kept, fixed⟩ := bound _ own outside n' found
        rw [fixed, kept]
        exact .inl ⟨outside, found⟩
      · obtain ⟨same, other⟩ := unbound _ own free
        obtain rfl := fields.identifier
        refine .inr ⟨?_, ?_⟩
        · by_cases outside : d.filling = 0
          · exact .inr (other outside)
          · exact .inl outside
        · rw [← same]
          exact Node.mapNames_mk σ
    · have inner := below _ List.mem_cons_self e (List.mem_singleton_self e)
        ((fills_unquote shallow).mp h)
      have level : (d.inside f.level .unquote).result = d.result := by
        simp [Depths.inside, shallow]
      rw [level] at inner
      exact (fills_unquote shallow).mpr inner
    · obtain ⟨head', slots', rfl, names, rel⟩ := (fills_node other deep).mp h
      have level : (d.inside f.level head).result = head.innerDepth d.result := by
        rw [Depths.inside, if_neg]
        rintro ⟨rfl, shallow⟩
        obtain ⟨e, rfl⟩ := fields.unquote
        exact absurd (deep e rfl rfl) (Nat.not_lt.mpr shallow)
      have depths : head'.innerDepth d.result = head.innerDepth d.result := by
        obtain ⟨ys, -, rfl⟩ := names
        exact Head.innerDepth_withNames ..
      rw [Node.mapNames_mk, depths]
      refine (fills_node (Head.mapNames_ne_identifier other) ?_).mpr ⟨_, _, rfl, ?_, ?_⟩
      · intro e unquote one
        obtain ⟨e', one⟩ := eq_one_of_map one
        exact deep e' (Head.mapNames_eq_unquote.mp unquote) one
      · apply names.mapNames
        intro x hx y hy
        have own : (d, x) ∈ (Node.mk span head slots).namesIn (Depths.inside f.level) d :=
          Node.mem_namesIn_own hx
        by_cases outside : d.filling = 0
        · simp only [outside, if_true, Renames] at hy ⊢
          cases found : f.bindings.lookup x with
          | none =>
            obtain ⟨same, free⟩ := unbound _ own (.inr found)
            obtain rfl : y = x := by simpa [found] using hy
            simp only [free outside]
            exact same
          | some b =>
            obtain ⟨kept, fixed⟩ := bound _ own outside b found
            have put : b.head = .identifier y := by simpa [found] using hy
            have name : σ d.result y = y := by
              have heads := congrArg Node.head fixed
              obtain ⟨bspan, bhead, bslots⟩ := b
              obtain rfl : bhead = .identifier y := put
              rw [Node.mapNames_mk] at heads
              exact Head.identifier.inj heads
            simp only [kept, found, name]
            exact put
        · simp only [outside, if_false] at hy ⊢
          rw [hy]
          exact (unbound _ own (.inl outside)).1
      · rw [List.forall₂_map_left_iff, List.forall₂_map_right_iff]
        refine forall₂_imp_of_mem rel fun s hs s' r => ?_
        rw [Slot.rel_map_left, Slot.rel_map_right]
        apply r.imp_of_mem
        intro m hm m' h
        have inner := below s hs m hm h
        rw [level] at inner
        rw [Head.innerDepth_mapNames]
        exact inner

end Filling

namespace Node

/-! ## Trees in trees -/

/-- The second tree stands in the first, each in its context. -/
inductive Holds {δ : Type} (inner : Head → δ → δ) : δ × Node → δ × Node → Prop where
  | self {p} : Holds inner p p
  | inside {d span head slots s n p} : s ∈ slots → n ∈ s.toList → Holds inner (inner head d, n) p →
    Holds inner (d, mk span head slots) p

namespace Holds

variable {δ : Type} {inner : Head → δ → δ} {d e : δ} {n m : Node}

theorem mem_walk {p q : δ × Node} (h : Holds inner p q) : q.2 ∈ p.2.walk := by
  induction h with
  | self => exact mem_walk_self _
  | inside hs hn _ ih => exact mem_walk_mk.mpr (.inr ⟨_, hs, _, hn, ih⟩)

theorem mem_namesIn {p q : δ × Node} (h : Holds inner p q) {x : δ × String}
    (hx : x ∈ q.2.namesIn inner q.1) : x ∈ p.2.namesIn inner p.1 := by
  induction h with
  | self => exact hx
  | inside hs hn _ ih => exact mem_namesIn_child hs hn (ih hx)

/-- The contexts go over into others. -/
theorem map {ε : Type} {inner' : Head → ε → ε} {π : δ → ε}
    (hπ : ∀ head d, π (inner head d) = inner' head (π d)) {p q : δ × Node} (h : Holds inner p q) :
    Holds inner' (π p.1, p.2) (π q.1, q.2) := by
  induction h with
  | self => exact .self
  | inside hs hn _ ih =>
    refine .inside hs hn ?_
    rw [← hπ]
    exact ih

/-- What stands in a template and is neither an identifier nor an unquote is filled with it. -/
theorem fills {f : Filling} {φ : Nat → String → String} {p q : Depths × Node}
    (h : Holds (Depths.inside f.level) p q) (shaped : p.2.Shaped)
    (other : ∀ x, q.2.head ≠ .identifier x) (solid : q.2.head ≠ .unquote) {n' : Node}
    (filled : f.Fills (p.1.filling, p.2.mapNames φ p.1.isolation) n') :
    ∃ m ∈ n'.walk, f.Fills (q.1.filling, q.2.mapNames φ q.1.isolation) m := by
  induction h generalizing n' with
  | self => exact ⟨n', n'.mem_walk_self, filled⟩
  | @inside d span head slots s n q hs hn _ ih =>
    obtain ⟨fields, parts⟩ := shaped_mk.mp shaped
    have ih : ∀ {n'}, f.Fills ((d.inside f.level head).filling,
        n.mapNames φ (d.inside f.level head).isolation) n' → _ :=
      ih (parts s hs n hn) other solid
    dsimp only at filled
    rw [mapNames_mk] at filled
    obtain ⟨x, rfl⟩ | ⟨rfl, ⟨e, rfl⟩, shallow⟩ | ⟨name, deep⟩ := f.template_cases d.filling head slots
    · rw [fields.identifier] at hs
      cases hs
    · obtain rfl := List.mem_singleton.mp hs
      obtain rfl := List.mem_singleton.mp hn
      exact ih ((Filling.fills_unquote shallow).mp filled)
    · have deep' : ∀ e, head.mapNames (φ d.isolation) = .unquote →
          slots.map (Slot.map fun n => n.mapNames φ (head.innerDepth d.isolation)) = [.one e] →
          f.level < d.filling := by
        intro e unquote one
        obtain ⟨e', one⟩ := eq_one_of_map one
        exact deep e' (Head.mapNames_eq_unquote.mp unquote) one
      obtain ⟨head', slots', rfl, -, rel⟩ :=
        (Filling.fills_node (Head.mapNames_ne_identifier name) deep').mp filled
      obtain ⟨s', hs', r⟩ := exists_of_mem_right rel.flip (List.mem_map_of_mem hs)
      obtain ⟨n', hn', r⟩ := exists_of_mem_right r.toList.flip
        (by rw [Slot.toList_map]; exact List.mem_map_of_mem hn)
      rw [Head.innerDepth_mapNames] at r
      obtain ⟨m, hm, filled⟩ := ih r
      exact ⟨m, mem_walk_mk.mpr (.inr ⟨s', hs', n', hn', hm⟩), filled⟩

end Holds

/-! ## One template with two spellings -/

/-- Changes names outside quotes. -/
def outside (spell : String → String) (depth : Nat) (x : String) : String :=
  if depth = 0 then spell x else x

/-- The trees are one template filled with the same trees, with its names outside quotes spelled in
two ways that tell the same names apart. -/
def Varies (n n' : Node) : Prop :=
  ∃ (template : Node) (spell spell' : String → String) (f f' : Filling), f'.level = f.level ∧
    (∀ x ∈ template.namesOutside 0, ∀ y ∈ template.namesOutside 0,
      spell x = spell y ↔ spell' x = spell' y) ∧
    (∀ x ∈ template.namesOutside 0, f.bindings.lookup (spell x) = f'.bindings.lookup (spell' x)) ∧
    f.Fills (f.level, template.mapNames (outside spell) 0) n ∧
    f'.Fills (f.level, template.mapNames (outside spell') 0) n'

/-- Names that filling reaches stand outside the quotes that renaming counts. -/
theorem mem_namesOutside_of_reached {n : Node} {level : Nat} {p : Depths × String}
    (hp : p ∈ n.namesIn (Depths.inside level) (Depths.start level)) (reached : p.1.filling = 0) :
    p.1.isolation = 0 ∧ p.2 ∈ n.namesOutside 0 := by
  have deeper : p.1.isolation ≤ p.1.filling := by
    refine namesIn_invariant (I := fun d => d.isolation ≤ d.filling) (fun head d le => ?_) n _
      (Nat.zero_le _) p hp
    simp only [Depths.inside, Head.innerDepth]
    split <;> omega
  have outermost : p.1.isolation = 0 := by omega
  refine ⟨outermost, mem_namesOutside.mpr ?_⟩
  have projected : (p.1.isolation, p.2) ∈ n.namesAt 0 :=
    mem_namesIn_map (π := Depths.isolation) (fun _ _ => rfl) hp
  rwa [outermost] at projected

/-- The trees are equal but for their names. -/
def SameShape (n n' : Node) : Prop := ∀ depth, n.RenamedTo (fun _ _ _ => True) depth n'

theorem sameShape_mk {span : Span} {head head' : Head} {slots slots' : List (Slot Node)}
    (heads : head.RenamedTo (fun _ _ => True) head')
    (rel : List.Forall₂ (Slot.Rel SameShape) slots slots') :
    (mk span head slots).SameShape (mk span head' slots') := by
  intro depth
  refine renamedTo_mk.mpr ⟨head', slots', rfl, heads, ?_⟩
  exact rel.imp fun _ _ r => r.imp fun _ _ same => same _

theorem sameShape_mapNames (φ φ' : Nat → String → String) (n : Node) (depth : Nat) :
    (n.mapNames φ depth).SameShape (n.mapNames φ' depth) := by
  induction n using induction_on generalizing depth with
  | step span head slots ih =>
    rw [mapNames_mk, mapNames_mk]
    apply sameShape_mk
    · exact (head.renamedTo_mapNames _).of_common (head.renamedTo_mapNames _)
    · rw [List.forall₂_map_left_iff, List.forall₂_map_right_iff, List.forall₂_same]
      intro s hs
      rw [Slot.rel_map_left, Slot.rel_map_right]
      exact Slot.rel_same fun n hn => ih s hs n hn _

theorem SameShape.refl (n : Node) : n.SameShape n := by
  have same := n.sameShape_mapNames (fun _ x => x) (fun _ x => x) 0
  rwa [mapNames_of_fixed fun _ _ => rfl] at same

end Node

namespace Filling

variable {f f' : Filling} {n n₁ n₂ : Node} {d : Depths}

/-- One template with two spellings is filled to trees of one shape. -/
theorem Fills.sameShape (level : f'.level = f.level) {φ φ' : Nat → String → String}
    (same : ∀ p ∈ n.namesIn (Depths.inside f.level) d, p.1.filling = 0 →
      f.bindings.lookup (φ p.1.isolation p.2) = f'.bindings.lookup (φ' p.1.isolation p.2))
    (h : f.Fills (d.filling, n.mapNames φ d.isolation) n₁)
    (h' : f'.Fills (d.filling, n.mapNames φ' d.isolation) n₂) : n₁.SameShape n₂ := by
  induction n using Node.induction_on generalizing d n₁ n₂ with
  | step span head slots ih =>
    have below : ∀ s ∈ slots, ∀ m ∈ s.toList, ∀ {m₁ m₂},
        f.Fills ((d.inside f.level head).filling,
          m.mapNames φ (d.inside f.level head).isolation) m₁ →
        f'.Fills ((d.inside f.level head).filling,
          m.mapNames φ' (d.inside f.level head).isolation) m₂ → m₁.SameShape m₂ := by
      intro s hs m hm m₁ m₂ h h'
      exact ih s hs m hm (fun p hp => same p (Node.mem_namesIn_child hs hm hp)) h h'
    rw [Node.mapNames_mk] at h h'
    obtain ⟨x, rfl⟩ | ⟨rfl, ⟨e, rfl⟩, shallow⟩ | ⟨other, deep⟩ :=
      f.template_cases d.filling head slots
    · have own := same (d, x) (Node.mem_namesIn_own (List.mem_singleton_self x))
      have left := (Node.mk span (.identifier x) slots).sameShape_mapNames φ φ' d.isolation
      rw [Node.mapNames_mk, Node.mapNames_mk] at left
      rcases fills_identifier.mp h with ⟨outside, found⟩ | ⟨free, rfl⟩ <;>
        rcases fills_identifier.mp h' with ⟨outside', found'⟩ | ⟨free', rfl⟩
      · rw [own outside, found'] at found
        cases found
        exact .refl _
      · rw [own outside] at found
        rw [found] at free'
        simp [outside] at free'
      · rw [own outside', found'] at free
        simp [outside'] at free
      · exact left
    · exact below _ List.mem_cons_self e (List.mem_singleton_self e)
        ((fills_unquote shallow).mp h) ((fills_unquote (level ▸ shallow)).mp h')
    · have deep' : ∀ (g : String → String) (k : Node → Node) e, head.mapNames g = .unquote →
          slots.map (Slot.map k) = [.one e] → f.level < d.filling := by
        intro g k e unquote one
        obtain ⟨e', one⟩ := eq_one_of_map one
        exact deep e' (Head.mapNames_eq_unquote.mp unquote) one
      obtain ⟨head₁, slots₁, rfl, names, rel⟩ :=
        (fills_node (Head.mapNames_ne_identifier other) (deep' _ _)).mp h
      obtain ⟨head₂, slots₂, rfl, names', rel'⟩ :=
        (fills_node (Head.mapNames_ne_identifier other) (level ▸ deep' _ _)).mp h'
      rw [List.forall₂_map_left_iff] at rel rel'
      apply Node.sameShape_mk
      · exact names.of_mapNames.of_common names'.of_mapNames
      · apply forall₂_of_common rel rel'
        intro s hs s₁ s₂ r r'
        rw [Slot.rel_map_left] at r r'
        apply r.of_common r'
        intro m hm m₁ m₂ h h'
        rw [Head.innerDepth_mapNames] at h h'
        exact below s hs m hm h h'

end Filling

namespace Node

/-- What varies in names only is of one shape. -/
theorem Varies.sameShape {n n' : Node} (h : n.Varies n') : n.SameShape n' := by
  obtain ⟨template, spell, spell', f, f', level, -, bound, filled, filled'⟩ := h
  refine Filling.Fills.sameShape (d := Depths.start f.level) level (fun p hp filling => ?_) filled
    filled'
  obtain ⟨outermost, mem⟩ := mem_namesOutside_of_reached hp filling
  rw [outermost]
  exact bound p.2 mem

end Node

end GlyphScript
