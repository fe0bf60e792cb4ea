import GlyphScript.Proofs.Macro.Bindings
import GlyphScript.Proofs.Macro.Isolation
import GlyphScript.Proofs.Run

/-!
# Where the names of an expansion come from

A name outside quotes in an expansion was written in the template or came in
with an argument. The names of the template are those that filling leaves
alone.
-/

namespace GlyphScript

inductive Origin where
  | template
  | argument
  deriving DecidableEq, Repr

/-- What stands outside quotes for a name of a template after filling. -/
def Filling.trace (f : Filling) (d : Depths) (x : String) : List (Origin × String) :=
  match if d.filling = 0 then f.bindings.lookup x else none with
  | some n => (n.namesOutside d.result).map (.argument, ·)
  | none => if d.result = 0 then [(.template, x)] else []

/-- The names outside quotes of the filled template, each with its origin. -/
def Node.trace (template : Node) (f : Filling) (d : Depths) : List (Origin × String) :=
  (template.namesIn (Depths.inside f.level) d).flatMap fun (d, x) => f.trace d x

namespace Node

variable {f : Filling}

theorem trace_mk (span : Span) (head : Head) (slots : List (Slot Node)) (d : Depths) :
    (mk span head slots).trace f d = head.ownNames.flatMap (f.trace d) ++
      slots.flatMap fun s => s.toList.flatMap (·.trace f (d.inside f.level head)) := by
  rw [trace, namesIn_mk, List.flatMap_append, List.flatMap_map, List.flatMap_assoc]
  simp only [List.flatMap_assoc, trace]

theorem mem_trace {template : Node} {d : Depths} {x : Origin × String} :
    x ∈ template.trace f d ↔
      ∃ y ∈ template.namesIn (Depths.inside f.level) d, x ∈ f.trace y.1 y.2 :=
  List.mem_flatMap

/-- A shaped identifier has its own name only. -/
theorem namesOutside_identifier {n : Node} {x : String} (h : n.Shaped) (hx : n.head = .identifier x)
    (depth : Nat) : n.namesOutside depth = if depth = 0 then [x] else [] := by
  obtain ⟨span, head, slots⟩ := n
  obtain rfl : head = .identifier x := hx
  obtain rfl := (shaped_mk.mp h).1.identifier
  rw [namesOutside_mk, List.flatMap_nil, List.append_nil]
  rfl

/-! ## Filling -/

/-- The names of the second tree are traced from the first, which stands at a quote level. -/
structure FilledWith (f : Filling) (depth : Nat) (n n' : Node) : Prop where
  shaped : n.Shaped → n'.Shaped
  names : n.Shaped → ∀ d : Depths, d.filling = depth →
    (n.trace f d).map (·.2) = n'.namesOutside d.result

end Node

namespace Filling

variable {f : Filling} {d : Depths} {x : String}

theorem trace_bound {n : Node} (hd : d.filling = 0) (hx : f.bindings.lookup x = some n) :
    f.trace d x = (n.namesOutside d.result).map (.argument, ·) := by
  rw [trace, if_pos hd, hx]

theorem trace_kept (h : d.filling ≠ 0 ∨ f.bindings.lookup x = none) :
    f.trace d x = if d.result = 0 then [(.template, x)] else [] := by
  have : (if d.filling = 0 then f.bindings.lookup x else none) = none := by
    rcases h with h | h
    · rw [if_neg h]
    · rw [h, ite_self]
  rw [trace, this]

theorem mem_trace_template {y : String} :
    (.template, y) ∈ f.trace d x ↔
      y = x ∧ d.result = 0 ∧ (d.filling ≠ 0 ∨ f.bindings.lookup x = none) := by
  by_cases h : d.filling ≠ 0 ∨ f.bindings.lookup x = none
  · rw [trace_kept h, and_iff_left h]
    by_cases result : d.result = 0
    · rw [if_pos result, List.mem_singleton, and_iff_left result, Prod.mk.injEq,
        and_iff_right rfl]
    · rw [if_neg result]
      exact ⟨fun h => (List.not_mem_nil h).elim, fun h => absurd h.2 result⟩
  · refine ⟨fun hy => ?_, fun hy => absurd hy.2.2 h⟩
    push Not at h
    obtain ⟨n, hn⟩ := Option.ne_none_iff_exists'.mp h.2
    rw [trace_bound h.1 hn] at hy
    obtain ⟨z, -, e⟩ := List.mem_map.mp hy
    nomatch e

theorem mem_trace_argument {y : String} (h : (.argument, y) ∈ f.trace d x) :
    ∃ b ∈ f.bindings, y ∈ b.2.namesOutside d.result := by
  by_cases kept : d.filling ≠ 0 ∨ f.bindings.lookup x = none
  · rw [trace_kept kept] at h
    split at h
    · nomatch List.mem_singleton.mp h
    · nomatch h
  · push Not at kept
    obtain ⟨n, hn⟩ := Option.ne_none_iff_exists'.mp kept.2
    rw [trace_bound kept.1 hn] at h
    obtain ⟨z, hz, e⟩ := List.mem_map.mp h
    cases e
    exact ⟨_, mem_of_lookup hn, hz⟩

theorem map_snd_trace_kept (h : d.filling ≠ 0 ∨ f.bindings.lookup x = none) :
    (f.trace d x).map (·.2) = if d.result = 0 then [x] else [] := by
  rw [trace_kept h]
  split <;> rfl

theorem map_snd_trace_bound {n : Node} (hd : d.filling = 0) (hx : f.bindings.lookup x = some n) :
    (f.trace d x).map (·.2) = n.namesOutside d.result := by
  rw [trace_bound hd hx, List.map_map]
  exact List.map_id _

theorem map_snd_trace_binder (hf : ∀ x ∈ f.bindings, x.2.Shaped) {receiver : String}
    {p : Head.BinderPosition} {y : String} (h : f.binder receiver p x = .ok y)
    (hd : d.filling = 0) :
    (f.trace d x).map (·.2) = if d.result = 0 then [y] else [] := by
  unfold binder at h
  split at h
  · rename_i unbound
    cases h
    exact map_snd_trace_kept (.inr unbound)
  · rename_i n bound
    split at h
    · rename_i new head
      cases h
      rw [map_snd_trace_bound hd bound]
      exact Node.namesOutside_identifier (hf _ (mem_of_lookup bound)) head _
    · nomatch h

end Filling

namespace Node

variable {f : Filling}

theorem FilledWith.node {depth : Nat} {span : Span} {h h' : Head} {slots slots' : List (Slot Node)}
    (head : Head.Renamed (fun x y => ∀ d : Depths, d.filling = depth →
      (f.trace d x).map (·.2) = if d.result = 0 then [y] else []) h h')
    (rel : List.Forall₂ (Slot.Rel (FilledWith f (h.innerDepth depth))) slots slots')
    (hu : (Node.mk span h slots).Shaped → h = .unquote → f.level < depth) :
    FilledWith f depth (.mk span h slots) (.mk span h' slots') where
  shaped hs := hs.of_rel head.fields rel fun _ _ r => r.shaped
  names hs d hd := by
    have result : (d.inside f.level h).result = h'.innerDepth d.result := by
      rw [head.innerDepth, Depths.inside, if_neg fun both => absurd (hu hs both.1) (by omega)]
    have own : (h.ownNames.flatMap (f.trace d)).map (·.2) =
        if d.result = 0 then h'.ownNames else [] := by
      have names := head.names
      generalize h.ownNames = xs, h'.ownNames = ys at names
      induction names with
      | nil => rw [ite_self]; rfl
      | cons r _ ih =>
        rw [List.flatMap_cons, List.map_append, r d hd, ih]
        split <;> rfl
    rw [trace_mk, namesOutside_mk, List.map_append, own, List.map_flatMap]
    refine congrArg _ (flatMap_eq_flatMap rel fun s hs' s' r => ?_)
    rw [List.map_flatMap]
    refine flatMap_eq_flatMap r.toList fun n hn n' r => ?_
    rw [← result]
    exact r.names ((shaped_mk.mp hs).2 s hs' n hn) _ (by rw [Depths.inside, hd])

theorem filledWith_identifier (hf : ∀ x ∈ f.bindings, x.2.Shaped) {depth : Nat} {span : Span}
    {x : String} {slots : List (Slot Node)} :
    FilledWith f depth (mk span (.identifier x) slots)
      (if depth = 0 then (f.bindings.lookup x).getD (mk span (.identifier x) slots)
        else mk span (.identifier x) slots) := by
  by_cases h : depth ≠ 0 ∨ f.bindings.lookup x = none
  · have kept : (if depth = 0 then (f.bindings.lookup x).getD (mk span (.identifier x) slots)
        else mk span (.identifier x) slots) = mk span (.identifier x) slots := by
      rcases h with h | h
      · rw [if_neg h]
      · rw [h, Option.getD_none, ite_self]
    rw [kept]
    refine ⟨id, fun hs d hd => ?_⟩
    obtain rfl := (shaped_mk.mp hs).1.identifier
    rw [namesOutside_identifier hs rfl, trace_mk, List.flatMap_nil, List.append_nil]
    rw [← Filling.map_snd_trace_kept (f := f) (by rwa [hd])]
    exact congrArg _ (List.flatMap_singleton ..)
  · push Not at h
    obtain ⟨rfl, h⟩ := h
    obtain ⟨n, hn⟩ := Option.ne_none_iff_exists'.mp h
    rw [if_pos rfl, hn, Option.getD_some]
    refine ⟨fun _ => hf _ (mem_of_lookup hn), fun hs d hd => ?_⟩
    obtain rfl := (shaped_mk.mp hs).1.identifier
    rw [trace_mk, List.flatMap_nil, List.append_nil, ← Filling.map_snd_trace_bound hd hn]
    exact congrArg _ (List.flatMap_singleton ..)

/-- An unquote at or below the level of the template gives way to what it holds. -/
theorem filledWith_unquote {depth : Nat} {span : Span} {slots : List (Slot Node)} {e' : Node}
    (le : depth ≤ f.level)
    (rel : List.Forall₂ (Slot.Rel (FilledWith f (depth - 1))) slots [.one e']) :
    FilledWith f depth (mk span .unquote slots) e' := by
  rcases rel with _ | ⟨one, rest⟩
  cases rest
  rcases one with _ | @⟨e, _, r⟩
  refine ⟨fun hs => ?_, fun hs d hd => ?_⟩
  · exact r.shaped ((shaped_mk.mp hs).2 _ List.mem_cons_self _ List.mem_cons_self)
  · have inner : (d.inside f.level .unquote).result = d.result :=
      if_pos ⟨rfl, hd ▸ le⟩
    have names := r.names ((shaped_mk.mp hs).2 _ List.mem_cons_self _ List.mem_cons_self)
      (d.inside f.level .unquote) (congrArg (· - 1) hd)
    rw [inner] at names
    rw [← names, trace_mk]
    simp only [Head.ownNames, Head.boundNames, List.flatMap_nil, List.nil_append, Slot.toList,
      List.flatMap_singleton]

theorem substitute_filledWith (hf : ∀ x ∈ f.bindings, x.2.Shaped) (n : Node) (depth : Nat) :
    (Guarantee.except ExpansionFault).holds (n.transformM f.transform depth)
      (FilledWith f depth n) := by
  refine (Guarantee.except _).transformM
    (E := fun d n d' => d' = n.head.innerDepth d ∧ ∀ x, n.head ≠ .identifier x) ?_ ?_ n depth
  · intro d n
    obtain ⟨span, head, slots⟩ := n
    cases head
    case identifier x => exact (Guarantee.except _).pure (filledWith_identifier hf)
    all_goals exact (Guarantee.except _).pure ⟨rfl, fun x h => nomatch h⟩
  · rintro d span head slots _ slots' ⟨rfl, hh⟩ rel
    have rel := rel.imp fun _ _ r => Guarantee.Filled.rel r
    unfold Filling.transform
    dsimp only
    split
    · rename_i e' heq slotsEq
      obtain rfl : head = .unquote := heq
      obtain rfl : slots' = [.one e'] := slotsEq
      split
      · rename_i le
        exact (Guarantee.except _).pure (filledWith_unquote le rel)
      · rename_i lt
        exact (Guarantee.except _).pure (.node (.refl fun _ h => nomatch h) rel fun _ _ => by omega)
    · rename_i other
      have hu : (mk span head slots).Shaped → head = .unquote → f.level < d := by
        rintro hs rfl
        obtain ⟨e, rfl⟩ := (shaped_mk.mp hs).1.unquote
        obtain _ | ⟨⟨_⟩, _ | _⟩ := rel
        exact absurd rfl (other _ rfl)
      split
      · rename_i hd
        refine (Guarantee.except _).bind ((Guarantee.except _).mapBindersM
          (R := fun x y => ∀ d' : Depths, d'.filling = d →
            (f.trace d' x).map (·.2) = if d'.result = 0 then [y] else []) ?_ hh) ?_
        · exact fun p x _ y h d' hd' => Filling.map_snd_trace_binder hf h (hd'.trans hd)
        · exact fun head' hr => (Guarantee.except _).pure (.node hr rel hu)
      · rename_i hd
        refine (Guarantee.except _).pure (.node (.refl fun x _ d' hd' => ?_) rel hu)
        exact Filling.map_snd_trace_kept (.inl (hd' ▸ hd))

end Node

end GlyphScript
