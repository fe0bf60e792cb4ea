import GlyphScript.Node.Transform
import Mathlib.Data.List.Forall2

/-!
# Trees

Induction over trees whose children sit in slots, the equations of folding and
walking, and what a transformation makes of the slots of a node.
-/

namespace GlyphScript

theorem exists_of_mem_right {α β : Type} {R : α → β → Prop} {as : List α} {bs : List β}
    (h : List.Forall₂ R as bs) {b : β} (hb : b ∈ bs) : ∃ a ∈ as, R a b := by
  induction h with
  | nil => nomatch hb
  | cons r _ ih =>
    rcases List.mem_cons.mp hb with rfl | hb
    · exact ⟨_, List.mem_cons_self, r⟩
    · obtain ⟨a, ha, r⟩ := ih hb
      exact ⟨a, List.mem_cons_of_mem _ ha, r⟩

theorem forall₂_imp_of_mem {α β : Type} {R R' : α → β → Prop} {as : List α} {bs : List β}
    (h : List.Forall₂ R as bs) (hR : ∀ a ∈ as, ∀ b, R a b → R' a b) : List.Forall₂ R' as bs := by
  induction h with
  | nil => exact .nil
  | cons r _ ih =>
    exact .cons (hR _ List.mem_cons_self _ r) (ih fun a ha => hR a (List.mem_cons_of_mem _ ha))

theorem flatMap_eq_flatMap {α β γ : Type} {R : α → β → Prop} {f : α → List γ} {g : β → List γ}
    {as : List α} {bs : List β} (rel : List.Forall₂ R as bs)
    (h : ∀ a ∈ as, ∀ b, R a b → f a = g b) : as.flatMap f = bs.flatMap g := by
  induction rel with
  | nil => rfl
  | cons r _ ih =>
    rw [List.flatMap_cons, List.flatMap_cons, h _ List.mem_cons_self _ r,
      ih fun a ha => h a (List.mem_cons_of_mem _ ha)]

namespace Slot

variable {α β γ : Type}

@[simp] theorem toList_ofOption (o : Option α) : (ofOption o).toList = o.toList := by
  cases o <;> rfl

@[simp] theorem map_ofOption (f : α → β) (o : Option α) :
    (ofOption o).map f = ofOption (o.map f) := by
  cases o <;> rfl

@[simp] theorem toList_map (f : α → β) (s : Slot α) : (s.map f).toList = s.toList.map f := by
  cases s <;> rfl

@[simp] theorem map_map (f : α → β) (g : β → γ) (s : Slot α) :
    (s.map f).map g = s.map (g ∘ f) := by
  cases s <;> simp [map]

theorem map_congr {f g : α → β} {s : Slot α} (h : ∀ a ∈ s.toList, f a = g a) :
    s.map f = s.map g := by
  cases s with
  | absent => rfl
  | one a => simp [map, h a (by simp [toList])]
  | many as => simpa [map] using fun a ha => h a (by simpa [toList] using ha)

/-- Slots of one kind whose contents are related one by one. -/
inductive Rel (R : α → β → Prop) : Slot α → Slot β → Prop where
  | absent : Rel R .absent .absent
  | one {a b} : R a b → Rel R (.one a) (.one b)
  | many {as bs} : List.Forall₂ R as bs → Rel R (.many as) (.many bs)

theorem Rel.toList {R : α → β → Prop} {s : Slot α} {t : Slot β} (h : Rel R s t) :
    List.Forall₂ R s.toList t.toList := by
  cases h with
  | absent => exact .nil
  | one h => exact .cons h .nil
  | many h => exact h

theorem Rel.imp {R R' : α → β → Prop} {s : Slot α} {t : Slot β} (h : Rel R s t)
    (hR : ∀ a b, R a b → R' a b) : Rel R' s t := by
  cases h with
  | absent => exact .absent
  | one h => exact .one (hR _ _ h)
  | many h => exact .many (h.imp fun _ _ h => hR _ _ h)

@[simp] theorem rel_absent_left {R : α → β → Prop} {t : Slot β} :
    Rel R .absent t ↔ t = .absent := by
  constructor
  · rintro ⟨⟩
    rfl
  · rintro rfl
    exact .absent

@[simp] theorem rel_one_left {R : α → β → Prop} {a : α} {t : Slot β} :
    Rel R (.one a) t ↔ ∃ b, R a b ∧ t = .one b := by
  constructor
  · rintro ⟨⟩
    exact ⟨_, ‹_›, rfl⟩
  · rintro ⟨b, h, rfl⟩
    exact .one h

@[simp] theorem rel_many_left {R : α → β → Prop} {as : List α} {t : Slot β} :
    Rel R (.many as) t ↔ ∃ bs, List.Forall₂ R as bs ∧ t = .many bs := by
  constructor
  · rintro ⟨⟩
    exact ⟨_, ‹_›, rfl⟩
  · rintro ⟨bs, h, rfl⟩
    exact .many h

theorem exists_of_mem_rel {R : α → β → Prop} {slots : List (Slot α)} {slots' : List (Slot β)}
    (h : List.Forall₂ (Rel R) slots slots') {t : Slot β} (ht : t ∈ slots') {b : β}
    (hb : b ∈ t.toList) : ∃ s ∈ slots, ∃ a ∈ s.toList, R a b := by
  obtain ⟨s, hs, r⟩ := exists_of_mem_right h ht
  obtain ⟨a, ha, r⟩ := exists_of_mem_right r.toList hb
  exact ⟨s, hs, a, ha, r⟩

end Slot

namespace Node

/-! ## Induction -/

mutual

/-- What holds of a node as soon as it holds of its children holds of every node. -/
theorem induction_on {motive : Node → Prop}
    (step : ∀ span head slots, (∀ s ∈ slots, ∀ n ∈ s.toList, motive n) →
      motive (mk span head slots)) : ∀ n, motive n
  | mk span head slots => step span head slots (inductSlots step slots)

theorem inductSlots {motive : Node → Prop}
    (step : ∀ span head slots, (∀ s ∈ slots, ∀ n ∈ s.toList, motive n) →
      motive (mk span head slots)) :
    ∀ (slots : List (Slot Node)), ∀ s ∈ slots, ∀ n ∈ s.toList, motive n
  | [] => List.forall_mem_nil _
  | .absent :: slots => List.forall_mem_cons.mpr ⟨List.forall_mem_nil _, inductSlots step slots⟩
  | .one n :: slots =>
    List.forall_mem_cons.mpr
      ⟨List.forall_mem_singleton.mpr (induction_on step n), inductSlots step slots⟩
  | .many ns :: slots =>
    List.forall_mem_cons.mpr ⟨inductList step ns, inductSlots step slots⟩

theorem inductList {motive : Node → Prop}
    (step : ∀ span head slots, (∀ s ∈ slots, ∀ n ∈ s.toList, motive n) →
      motive (mk span head slots)) :
    ∀ (ns : List Node), ∀ n ∈ ns, motive n
  | [] => List.forall_mem_nil _
  | n :: ns => List.forall_mem_cons.mpr ⟨induction_on step n, inductList step ns⟩

end

/-! ## Folding -/

theorem foldList_eq_map {α : Type} (f : Span → Head → List (Slot α) → α) :
    ∀ ns, foldList f ns = ns.map (fold f)
  | [] => rfl
  | n :: ns => by rw [foldList, foldList_eq_map f ns, List.map_cons]

theorem foldSlots_eq_map {α : Type} (f : Span → Head → List (Slot α) → α) :
    ∀ slots, foldSlots f slots = slots.map (Slot.map (fold f))
  | [] => rfl
  | .absent :: slots => by rw [foldSlots, foldSlots_eq_map f slots]; rfl
  | .one n :: slots => by rw [foldSlots, foldSlots_eq_map f slots]; rfl
  | .many ns :: slots => by
    rw [foldSlots, foldSlots_eq_map f slots, foldList_eq_map]; rfl

theorem fold_mk {α : Type} (f : Span → Head → List (Slot α) → α) (span : Span) (head : Head)
    (slots : List (Slot Node)) :
    (mk span head slots).fold f = f span head (slots.map (Slot.map (fold f))) := by
  rw [fold, foldSlots_eq_map]

/-! ## Trees without their places -/

/-- The tree with every node put at one and the same place. -/
def unplaced : Node → Node := fold fun _ head slots => mk default head slots

@[simp] theorem unplaced_mk (span : Span) (head : Head) (slots : List (Slot Node)) :
    (mk span head slots).unplaced = mk default head (slots.map (Slot.map unplaced)) :=
  fold_mk ..

@[simp] theorem head_unplaced (n : Node) : n.unplaced.head = n.head := by
  cases n; simp [head]

@[simp] theorem slots_unplaced (n : Node) :
    n.unplaced.slots = n.slots.map (Slot.map unplaced) := by
  cases n; simp [slots]

@[simp] theorem unplaced_unplaced (n : Node) : n.unplaced.unplaced = n.unplaced := by
  induction n using induction_on with
  | step span head slots ih =>
    simp only [unplaced_mk, List.map_map, mk.injEq, true_and]
    refine List.map_congr_left fun s hs => ?_
    rw [Function.comp_apply, Slot.map_map]
    exact Slot.map_congr fun n hn => ih s hs n hn

/-! ## Walking -/

theorem walkList_eq (depth : Nat) : ∀ ns, walkList depth ns = ns.flatMap (walkAt depth)
  | [] => rfl
  | n :: ns => by
    rw [List.flatMap_cons, ← walkList_eq depth ns]
    rfl

theorem walkSlots_eq (depth : Nat) : ∀ slots,
    walkSlots depth slots = slots.flatMap fun s => s.toList.flatMap (walkAt depth)
  | [] => rfl
  | .absent :: slots => by
    rw [List.flatMap_cons, ← walkSlots_eq depth slots]
    rfl
  | .one n :: slots => by
    rw [List.flatMap_cons, ← walkSlots_eq depth slots, Slot.toList, List.flatMap_singleton]
    rfl
  | .many ns :: slots => by
    rw [List.flatMap_cons, ← walkSlots_eq depth slots, Slot.toList, ← walkList_eq]
    rfl

theorem walkAt_mk (depth : Nat) (span : Span) (head : Head) (slots : List (Slot Node)) :
    (mk span head slots).walkAt depth =
      (depth, mk span head slots) :: walkSlots (depth + 1) slots := rfl

theorem map_snd_walkAt (n : Node) : ∀ depth, (n.walkAt depth).map (·.2) = n.walk := by
  induction n using induction_on with
  | step span head slots ih =>
    have slot : ∀ d, (walkSlots d slots).map (·.2) =
        slots.flatMap fun s => s.toList.flatMap walk := by
      intro d
      rw [walkSlots_eq, List.map_flatMap]
      refine List.flatMap_congr fun s hs => ?_
      rw [List.map_flatMap]
      exact List.flatMap_congr fun n hn => ih s hs n hn d
    intro depth
    rw [walk, walkAt_mk, walkAt_mk, List.map_cons, List.map_cons, slot, slot]

theorem walk_mk (span : Span) (head : Head) (slots : List (Slot Node)) :
    (mk span head slots).walk =
      mk span head slots :: slots.flatMap fun s => s.toList.flatMap walk := by
  rw [walk, walkAt_mk, List.map_cons, walkSlots_eq, List.map_flatMap]
  simp only [List.map_flatMap, map_snd_walkAt]

theorem mem_walk_mk {span : Span} {head : Head} {slots : List (Slot Node)} {m : Node} :
    m ∈ (mk span head slots).walk ↔
      m = mk span head slots ∨ ∃ s ∈ slots, ∃ n ∈ s.toList, m ∈ n.walk := by
  simp only [walk_mk, List.mem_cons, List.mem_flatMap]

theorem mem_walk_self (n : Node) : n ∈ n.walk := by
  cases n
  rw [mem_walk_mk]
  exact .inl rfl

theorem mem_walk_child {n m : Node} {s : Slot Node} (hs : s ∈ n.slots) (hm : m ∈ s.toList) :
    m ∈ n.walk := by
  cases n
  rw [mem_walk_mk]
  exact .inr ⟨s, hs, m, hm, mem_walk_self m⟩

theorem mem_walk_trans {a b c : Node} (hb : b ∈ a.walk) (hc : c ∈ b.walk) : c ∈ a.walk := by
  induction a using induction_on with
  | step span head slots ih =>
    rw [mem_walk_mk] at hb
    rcases hb with rfl | ⟨s, hs, n, hn, hb⟩
    · exact hc
    · rw [mem_walk_mk]
      exact .inr ⟨s, hs, n, hn, ih s hs n hn hb⟩

/-! ## Transforming -/

section
variable {m : Type → Type} [Monad m] [LawfulMonad m] {δ ρ : Type}

attribute [local simp] transformListM transformSlotsM

theorem transformListM_eq (t : Transform m δ ρ) (context : δ) : ∀ ns,
    transformListM t context ns =
      (fun rs => rs.flatMap fun r => (t.toSlot r).toList) <$> ns.mapM (transformM t context)
  | [] => by simp
  | n :: ns => by simp [transformListM_eq t context ns]

/-- What a transformation makes of one slot. -/
def transformSlotM (t : Transform m δ ρ) (context : δ) : Slot Node → m (Slot Node)
  | .absent => return .absent
  | .one n => t.toSlot <$> transformM t context n
  | .many ns => .many <$> transformListM t context ns

theorem transformSlotsM_eq (t : Transform m δ ρ) (context : δ) : ∀ slots,
    transformSlotsM t context slots = slots.mapM (transformSlotM t context)
  | [] => by simp
  | .absent :: slots => by simp [transformSlotsM_eq t context slots, transformSlotM]
  | .one n :: slots => by simp [transformSlotsM_eq t context slots, transformSlotM]
  | .many ns :: slots => by simp [transformSlotsM_eq t context slots, transformSlotM]

end

end Node

end GlyphScript
