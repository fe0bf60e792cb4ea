import GlyphScript.Proofs.Parsing.Derivation
import GlyphScript.Proofs.Printing.Lexemes
import GlyphScript.Proofs.Printing.WellFormed

/-!
# Printing phrases

Words that are printed derive from phrases. What holds of the words printed for
the parts of a phrase is put together to what holds of the words of the phrase,
wherever no macro is known whose name is called.
-/

namespace GlyphScript

open Reserved

/-! ## Words -/

namespace Words

instance : Append Words where
  append p q := do return (← p) ++ (← q)

/-- One word. -/
def word (w : String) : Words := .ok [w]

/-- All words of a list, one after the other. -/
def join (ps : List Words) : Words := ps.foldr (· ++ ·) (.ok [])

/-- The words of items with separators between them up to and including `closer`. -/
def itemWords {α : Type} (closer : Reserved) (print : α → Words) : List α → Words
  | [] => word closer.spelling
  | x :: xs =>
    print x ++ (join (xs.map fun x => word separator.spelling ++ print x) ++ word closer.spelling)

theorem append_ok {p q : Words} {us vs : List String} (hp : p = .ok us) (hq : q = .ok vs) :
    p ++ q = .ok (us ++ vs) := by
  rw [hp, hq]
  rfl

@[simp] theorem append_nil (p : Words) : p ++ (.ok [] : Words) = p := by
  cases p with
  | error e => rfl
  | ok ws =>
    show Except.ok (ws ++ []) = _
    rw [List.append_nil]

@[simp] theorem nil_append (p : Words) : (.ok [] : Words) ++ p = p := by
  cases p <;> rfl

theorem append_assoc (p q r : Words) : p ++ q ++ r = p ++ (q ++ r) := by
  cases p with
  | error e => rfl
  | ok us =>
    cases q with
    | error e => rfl
    | ok vs =>
      cases r with
      | error e => rfl
      | ok ws =>
        show Except.ok (us ++ vs ++ ws) = Except.ok (us ++ (vs ++ ws))
        rw [List.append_assoc]

theorem join_cons (p : Words) (ps : List Words) : join (p :: ps) = p ++ join ps := rfl

end Words

/-! ## Macros on the way -/

/-- The macros of `k'` are known before or defined by one of the nodes. -/
def Macros.Gain (k : Macros) (t : List Node) (k' : Macros) : Prop :=
  ∀ e ∈ k', e ∈ k ∨ ∃ m ∈ t, m.definition? = some e

namespace Macros

variable {k k' k'' : Macros} {t u : List Node}

theorem Gain.refl : k.Gain t k := fun _ he => .inl he

theorem Gain.trans (h : k.Gain t k') (h' : k'.Gain u k'') : k.Gain (t ++ u) k'' := by
  intro e he
  rcases h' e he with he | ⟨m, hm, hd⟩
  · rcases h e he with he | ⟨m, hm, hd⟩
    · exact .inl he
    · exact .inr ⟨m, List.mem_append_left _ hm, hd⟩
  · exact .inr ⟨m, List.mem_append_right _ hm, hd⟩

theorem mem_after {n : Node} {e : String × Phase} (h : e ∈ k.after n) :
    e ∈ k ∨ n.definition? = some e := by
  obtain ⟨span, head, slots⟩ := n
  unfold after at h
  split at h
  · rename_i d hd
    rcases List.mem_cons.mp h with rfl | h
    · unfold MacroDefinition.ofNode? at hd
      split at hd
      · rename_i name params phase hygiene rules template hh hs
        cases hd
        right
        rw [Node.definition?, hh]
      · cases hd
    · exact .inl h
  · exact .inl h

theorem Gain.after {m : Node} (h : k.Gain t k') : k.Gain (t ++ [m]) (k'.after m.unplaced) := by
  intro e he
  rcases mem_after he with he | hd
  · exact h.trans .refl e he
  · refine .inr ⟨m, by simp, ?_⟩
    rwa [Node.definition?, Node.head_unplaced] at hd

theorem defines_iff {x : String} : k.defines x = true ↔ ∃ e ∈ k, e.1 = x := by
  simp [defines]

end Macros

/-- None of the nodes, when its text ends, calls a macro known by then by the macro's name. -/
structure CallsApart (k : Macros) (t : List Node) : Prop where
  known : ∀ c ∈ t, ∀ x, c.calledName? = some x → k.defines x = false
  among : t.Pairwise fun d c => d.isCalledBy c = false

namespace CallsApart

variable {k k' : Macros} {t u : List Node}

theorem left (h : CallsApart k (t ++ u)) : CallsApart k t where
  known c hc := h.known c (List.mem_append_left _ hc)
  among := (List.pairwise_append.mp h.among).1

theorem right (h : CallsApart k (t ++ u)) (gain : k.Gain t k') : CallsApart k' u where
  known c hc x hx := by
    by_contra defined
    rw [Bool.not_eq_false] at defined
    obtain ⟨e, he, rfl⟩ := Macros.defines_iff.mp defined
    rcases gain e he with he | ⟨m, hm, hd⟩
    · have := h.known c (List.mem_append_right _ hc) e.1 hx
      rw [Macros.defines_iff.mpr ⟨e, he, rfl⟩] at this
      cases this
    · have := (List.pairwise_append.mp h.among).2.2 m hm c hc
      simp [Node.isCalledBy, hd, hx] at this
  among := (List.pairwise_append.mp h.among).2.1

end CallsApart

/-! ## Phrases -/

section

variable (settings : Settings)

/-- What is printed are words that derive from the phrase, in which `f` is found. The nodes of `t`
come to their ends among them. -/
def Prints (a : Phrase) (t : List Node) (p : Words) (f : Found) : Prop :=
  ∀ k, CallsApart k t → ∃ ws k', p = .ok ws ∧ (∀ w ∈ ws, IsWord w) ∧
    Derives settings a k (ws.map lexed) k' f ∧ k.Gain t k'

end

namespace Prints

open Words

variable {settings : Settings} {a b : Phrase} {t u : List Node} {p q : Words} {f h : Found}
  {r : Reserved}

theorem of_derives {a' : Phrase} {f' : Found} (ha : Prints settings a t p f)
    (derives : ∀ k us k', Derives settings a k us k' f → Derives settings a' k us k' f') :
    Prints settings a' t p f' := by
  intro k apart
  obtain ⟨ws, k', hp, words, derived, gain⟩ := ha k apart
  exact ⟨ws, k', hp, words, derives _ _ _ derived, gain⟩

/-- Nodes may come to their ends where nothing more is printed. -/
theorem weaken (ha : Prints settings a t p f) : Prints settings a (t ++ u) p f := by
  intro k apart
  obtain ⟨ws, k', hp, words, derived, gain⟩ := ha k apart.left
  exact ⟨ws, k', hp, words, derived, gain.trans .refl⟩

theorem word {w : String} {kind : TokenKind} (lexeme : IsLexeme kind w.toList)
    (derived : ∀ k, Derives settings a k [(kind, w)] k f) :
    Prints settings a [] (word w) f := by
  intro k _
  obtain ⟨isWord, made⟩ := isWord_of_isLexeme lexeme
  refine ⟨[w], k, rfl, ?_, ?_, .refl⟩
  · intro v hv
    rwa [List.mem_singleton.mp hv]
  · rw [List.map_singleton, made]
    exact derived k

theorem mark : Prints settings (.mark r) [] (Words.word r.spelling) .nothing :=
  word (isLexeme_reserved r) fun _ => .mark

theorem kept : Prints settings (.kept r) [] (Words.word r.spelling) (.ofMark r) :=
  word (isLexeme_reserved r) fun _ => .kept

theorem spelled : Prints settings (.spelled r) [] (Words.word r.spelling) (.ofText r.spelling) :=
  word (isLexeme_reserved r) fun _ => .spelled

theorem name {what x : String} (hx : lexesAsIdentifier x = true) :
    Prints settings (.name what) [] (Words.word x) (.ofText x) :=
  word (isLexeme_name hx) fun _ => .name

theorem nothing (derived : ∀ k, Derives settings a k [] k f) : Prints settings a [] (.ok []) f := by
  intro k _
  refine ⟨[], k, rfl, ?_, derived k, .refl⟩
  intro w hw
  cases hw

theorem give : Prints settings (.give f) [] (.ok []) f.unplaced := nothing fun _ => .give

theorem seq (ha : Prints settings a t p f) (hb : Prints settings b u q h) :
    Prints settings (.seq a b) (t ++ u) (p ++ q) (f ++ h) := by
  intro k apart
  obtain ⟨us, k', hp, words, derived, gain⟩ := ha k apart.left
  obtain ⟨vs, k'', hq, words', derived', gain'⟩ := hb k' (apart.right gain)
  refine ⟨us ++ vs, k'', append_ok hp hq, ?_, ?_, gain.trans gain'⟩
  · intro w hw
    exact (List.mem_append.mp hw).elim (words w) (words' w)
  · rw [List.map_append]
    exact .seq derived derived'

theorem left (ha : Prints settings a t p f) : Prints settings (.either r a b) t p f :=
  ha.of_derives fun _ _ _ => .left

theorem right (hb : Prints settings b t p f) : Prints settings (.either r a b) t p f :=
  hb.of_derives fun _ _ _ => .right

theorem bound (ha : Prints settings a t p f) : Prints settings (.ahead a b) t p f :=
  ha.of_derives fun _ _ _ => .bound

theorem unbound (hb : Prints settings b t p f) : Prints settings (.ahead a b) t p f :=
  hb.of_derives fun _ _ _ => .unbound

theorem list (ha : Prints settings a t p f) : Prints settings (.list a) t p f.listed :=
  ha.of_derives fun _ _ _ => .list

theorem gather (ha : Prints settings a t p f) : Prints settings (.gather a) t p f.gathered :=
  ha.of_derives fun _ _ _ => .gather

theorem demand {what : String} (ha : Prints settings a t p f) (some : f.nodes ≠ []) :
    Prints settings (.demand a what) t p f :=
  ha.of_derives fun _ _ _ derived => .demand derived some

theorem node {head : Attributes → Head} {m : Node} (ha : Prints settings a t p f)
    (made : m.unplaced = .mk default (head f.attributes) f.slots) :
    Prints settings (.node head a) (t ++ [m]) p (.ofNode m.unplaced) := by
  intro k apart
  obtain ⟨ws, k', hp, words, derived, gain⟩ := ha k apart.left
  refine ⟨ws, k'.after m.unplaced, hp, words, ?_, gain.after⟩
  rw [made]
  exact .node derived

theorem construct {c : Construct} (ha : Prints settings a t p f) :
    Prints settings (.construct c a) t
      (Words.word c.opener.spelling ++ (p ++ Words.word c.closer.spelling)) f := by
  intro k apart
  obtain ⟨ws, k', hp, words, derived, gain⟩ := ha k apart
  obtain ⟨opens, opener⟩ := isWord_reserved c.opener
  obtain ⟨closes, closer⟩ := isWord_reserved c.closer
  refine ⟨c.opener.spelling :: ws ++ [c.closer.spelling], k', ?_, ?_, ?_, gain⟩
  · rw [hp]
    rfl
  · intro w hw
    simp only [List.cons_append, List.mem_cons, List.mem_append, List.not_mem_nil, or_false] at hw
    rcases hw with rfl | hw | rfl
    · exact opens
    · exact words w hw
    · exact closes
  · rw [List.map_append, List.map_cons, List.map_singleton, opener, closer]
    exact .construct derived

/-- An expression in parentheses. -/
theorem group (ha : Prints settings Phrase.expression t p f) :
    Prints settings (.part (.expression .primary)) t
      (Words.word groupOpen.spelling ++ (p ++ Words.word groupClose.spelling)) f := by
  have inner := (mark (r := groupOpen)).seq (ha.seq (mark (r := groupClose)))
  rw [List.append_nil, List.nil_append, Found.append_nothing, Found.nothing_append] at inner
  exact inner.of_derives fun _ _ _ => .operand (r := groupOpen) rfl

/-! ## Repetitions -/

section

variable {α : Type} {xs : List α} {print : α → Words} {ends : α → List Node} {found : α → Found}

theorem star (hx : ∀ x ∈ xs, Prints settings a (ends x) (print x) (found x)) :
    Prints settings (.star r a) (xs.flatMap ends) (join (xs.map print))
      (Found.join (xs.map found)) := by
  induction xs with
  | nil => exact nothing fun _ => .starNil
  | cons x xs ih =>
    obtain ⟨here, below⟩ := List.forall_mem_cons.mp hx
    intro k apart
    obtain ⟨us, k', hp, words, derived, gain⟩ := here k apart.left
    obtain ⟨vs, k'', hq, words', derived', gain'⟩ := ih below k' (apart.right gain)
    refine ⟨us ++ vs, k'', append_ok hp hq, ?_, ?_, gain.trans gain'⟩
    · intro w hw
      exact (List.mem_append.mp hw).elim (words w) (words' w)
    · rw [List.map_append]
      exact .starCons derived derived'

/-- One more item in front of a repetition and what follows it. -/
theorem starCons (ha : Prints settings a t p f)
    (more : Prints settings (.seq (.star r a) b) u q h) :
    Prints settings (.seq (.star r a) b) (t ++ u) (p ++ q) (f ++ h) := by
  intro k apart
  obtain ⟨us, k', hp, words, derived, gain⟩ := ha k apart.left
  obtain ⟨vs, k'', hq, words', derived', gain'⟩ := more k' (apart.right gain)
  refine ⟨us ++ vs, k'', append_ok hp hq, ?_, ?_, gain.trans gain'⟩
  · intro w hw
    exact (List.mem_append.mp hw).elim (words w) (words' w)
  · rw [List.map_append]
    generalize vs.map lexed = ws at derived'
    cases derived' with
    | seq items last =>
      rw [← List.append_assoc, ← Found.append_assoc]
      exact .seq (.starCons derived items) last

theorem items (closer : Reserved)
    (hx : ∀ x ∈ xs, Prints settings a (ends x) (print x) (found x)) :
    Prints settings (Phrase.items closer a) (xs.flatMap ends) (itemWords closer print xs)
      (Found.join (xs.map found)) := by
  cases xs with
  | nil => exact left mark
  | cons x xs =>
    obtain ⟨here, below⟩ := List.forall_mem_cons.mp hx
    have more : Prints settings (.star separator (Phrase.seqs [.mark separator, a]))
        (xs.flatMap ends) (join (xs.map fun x => Words.word separator.spelling ++ print x))
        (Found.join (xs.map found)) :=
      star fun x hx => mark.seq (below x hx)
    have all := here.seq (more.seq (mark (r := closer)))
    rw [List.append_nil, Found.append_nothing] at all
    exact right all

end

end Prints

end GlyphScript
