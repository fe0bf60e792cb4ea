import GlyphScript.Proofs.Macro.Registry
import GlyphScript.Proofs.Parsing.Reading

/-!
# The conduct of parsers

Parsing only adds to the log and to the macros known. What it reads and what it
registers is regular: every macro defined in it is known from then on.
-/

namespace GlyphScript

theorem Node.Regular.onward {r r' : Registry} {n : Node} (h : n.Regular r.scope) (le : r ≤ r') :
    n.Regular r'.scope :=
  h.mono (Registry.scope_le le)

theorem Node.Part.onward {r r' : Registry} {n : Node} (h : n.Part r.scope) (le : r ≤ r') :
    n.Part r'.scope :=
  h.mono (Registry.scope_le le)

theorem Node.Holder.onward {r r' : Registry} {n : Node} (h : n.Holder r.scope) (le : r ≤ r') :
    n.Holder r'.scope :=
  h.mono (Registry.scope_le le)

open GlyphScript.Parser

/-- In a state with a regular registry that comes after `r`, the parser moves on, keeps the
registry regular, and what it reads is as `post` says. -/
def Conducts {α : Type} (r : Registry) (x : Parser α) (post : Registry → α → Prop) : Prop :=
  ∀ s : ParserState, s.unit.registry.Regular → r ≤ s.unit.registry →
    s.unit.Onward (x s).2.unit ∧ (x s).2.unit.registry.Regular ∧
      ∀ a, (x s).1 = .ok a → post (x s).2.unit.registry a

namespace Conducts

variable {α β : Type} {r : Registry} {x : Parser α} {post : Registry → α → Prop}

theorem pure {a : α} (h : ∀ r', r ≤ r' → post r' a) : Conducts r (Pure.pure a) post :=
  fun _ hr le => ⟨.refl _, hr, fun _ e => Except.ok.inj e ▸ h _ le⟩

theorem bind {f : α → Parser β} {post' : Registry → β → Prop} (hx : Conducts r x post)
    (hf : ∀ a r', r ≤ r' → post r' a → Conducts r' (f a) post') :
    Conducts r (x >>= f) post' := by
  intro s hr le
  rw [run_bind]
  obtain ⟨on, regular, made⟩ := hx s hr le
  rcases h : x s with ⟨_ | a, s'⟩ <;> rw [h] at on regular made
  · exact ⟨on, regular, fun _ e => nomatch e⟩
  · obtain ⟨on', regular', made'⟩ :=
      hf a _ (le_trans le on.registry) (made a rfl) s' regular (le_refl _)
    exact ⟨on.trans on', regular', made'⟩

theorem map {f : α → β} {post' : Registry → β → Prop} (h : Conducts r x post)
    (hf : ∀ r' a, r ≤ r' → post r' a → post' r' (f a)) : Conducts r (f <$> x) post' := by
  intro s hr le
  rw [run_map]
  obtain ⟨on, regular, made⟩ := h s hr le
  rcases hx : x s with ⟨_ | a, s'⟩ <;> rw [hx] at on regular made
  · exact ⟨on, regular, fun _ e => nomatch e⟩
  · exact ⟨on, regular, fun _ e =>
      Except.ok.inj e ▸ hf _ a (le_trans le on.registry) (made a rfl)⟩

theorem onward {r' : Registry} (h : Conducts r x post) (le : r ≤ r') : Conducts r' x post :=
  fun s hr le' => h s hr (le_trans le le')

/-- A parser that leaves the unit alone. -/
theorem calm {p : α → Prop} (unit : ∀ s, (x s).2.unit = s.unit)
    (made : ∀ s a, (x s).1 = .ok a → p a) : Conducts r x fun _ => p := by
  intro s hr _
  rw [unit]
  exact ⟨.refl _, hr, made s⟩

theorem mono {post' : Registry → α → Prop} (h : Conducts r x post)
    (hf : ∀ r' a, r ≤ r' → post r' a → post' r' a) : Conducts r x post' := by
  simpa using h.map hf (f := id)

theorem of_get {f : ParserState → Parser β} {post : Registry → β → Prop}
    (h : ∀ s, Conducts r (f s) post) : Conducts r (get >>= f) post :=
  fun s => h s s

theorem ite {c : Prop} [Decidable c] {y : Parser α} (hx : Conducts r x post)
    (hy : Conducts r y post) : Conducts r (if c then x else y) post := by
  split
  · exact hx
  · exact hy

theorem throw (f : Fault) : Conducts r (throw f : Parser α) post :=
  fun _ hr _ => ⟨.refl _, hr, fun _ e => nomatch e⟩

theorem work {w : Work α} (h : w.OnlyReports) : Conducts r (ofWork w) fun _ _ => True := by
  intro s hr _
  have e : (ofWork w s).2.unit = (w s.unit).2 := rfl
  rw [e, (h s.unit).1]
  refine ⟨⟨(h s.unit).2, ?_⟩, hr, fun _ _ => trivial⟩
  rw [(h s.unit).1]

theorem repeatUpTo {test : Parser Bool} {p : Registry → α → Prop}
    (lasting : ∀ r r' a, r ≤ r' → p r a → p r' a)
    (ht : ∀ r', r ≤ r' → Conducts r' test fun _ _ => True) (hx : ∀ r', r ≤ r' → Conducts r' x p)
    (fuel : Nat) : Conducts r (repeatUpTo test x fuel) fun r' as => ∀ a ∈ as, p r' a := by
  induction fuel generalizing r with
  | zero => exact .throw _
  | succ fuel ih =>
    rw [Parser.repeatUpTo_succ]
    refine (ht r (le_refl _)).bind fun b r₁ le₁ _ => ?_
    cases b
    · exact .pure fun _ _ _ h => (List.not_mem_nil h).elim
    · refine (hx r₁ le₁).bind fun a r₂ le₂ ha => ?_
      have le := le_trans le₁ le₂
      refine (ih (fun r' le' => ht r' (le_trans le le')) fun r' le' => hx r' (le_trans le le')).bind
        fun as r₃ le₃ has => ?_
      refine .pure fun r₄ le₄ b hb => ?_
      rcases List.mem_cons.mp hb with rfl | hb
      · exact lasting _ _ _ (le_trans le₃ le₄) ha
      · exact lasting _ _ _ le₄ (has b hb)

theorem repeatWhile {test : Parser Bool} {p : Registry → α → Prop}
    (lasting : ∀ r r' a, r ≤ r' → p r a → p r' a)
    (ht : ∀ r', r ≤ r' → Conducts r' test fun _ _ => True)
    (hx : ∀ r', r ≤ r' → Conducts r' x p) :
    Conducts r (repeatWhile test x) fun r' as => ∀ a ∈ as, p r' a :=
  .of_get fun _ => repeatUpTo lasting ht hx _

end Conducts

/-! ## Tokens and scopes -/

section

variable {r : Registry}

theorem conducts_peek : Conducts r peek fun _ _ => True :=
  .calm (fun _ => rfl) fun _ _ _ => trivial

theorem conducts_check (m : Reserved) : Conducts r (check m) fun _ _ => True :=
  .calm (fun _ => rfl) fun _ _ _ => trivial

theorem conducts_advance : Conducts r advance fun _ _ => True := by
  refine .calm (fun s => ?_) fun _ _ _ => trivial
  rw [advance_run]
  by_cases h : s.next.isEnd <;> simp [h, passed]

theorem conducts_consume (m : Reserved) : Conducts r (consume m) fun _ _ => True := by
  refine .calm (fun s => ?_) fun _ _ _ => trivial
  rw [consume_run]
  by_cases h : s.next.isReserved m <;> simp [h, passed]

theorem conducts_consumeName (what : String) :
    Conducts r (consumeName what) fun _ _ => True := by
  refine .calm (fun s => ?_) fun _ _ _ => trivial
  rw [consumeName_run]
  by_cases h : s.next.kind = .identifier <;> simp [h, passed]

theorem conducts_fail {α : Type} {post : Registry → α → Prop} (e : Expected) :
    Conducts r (failExpecting e) post := by
  intro s hr _
  rw [failExpecting_run]
  exact ⟨.refl _, hr, fun _ e => nomatch e⟩

theorem conducts_spanFrom (start : Token) : Conducts r (spanFrom start) fun _ _ => True :=
  .calm (fun _ => rfl) fun _ _ _ => trivial

theorem conducts_checkBinding : Conducts r checkBinding fun _ _ => True :=
  .calm (fun s => by rw [checkBinding_run]) fun _ _ _ => trivial

theorem conducts_openConstruct (c : Construct) :
    Conducts r (openConstruct c) fun _ _ => True := by
  refine (conducts_consume c.opener).bind fun t r' _ _ => ?_
  have push : Conducts r' (modify fun s : ParserState => { s with frames := ⟨c, t⟩ :: s.frames })
      fun _ _ => True := .calm (fun _ => rfl) fun _ _ _ => trivial
  exact push.bind fun _ _ _ _ => .pure fun _ _ => trivial

theorem conducts_closeConstruct : Conducts r closeConstruct fun _ _ => True := by
  refine .calm (fun s => ?_) fun _ _ _ => trivial
  rw [closeConstruct_run]
  rcases s.frames with _ | ⟨frame, frames⟩
  · rfl
  · dsimp only
    cases Frames.closingFault? frame s.next <;> rfl

theorem conducts_openScope : Conducts r openScope fun _ _ => True :=
  .calm (fun _ => rfl) fun _ _ _ => trivial

theorem conducts_closeScope : Conducts r closeScope fun _ _ => True := by
  refine .calm (fun s => ?_) fun _ _ _ => trivial
  rw [closeScope_run]
  cases s.scopes <;> rfl

theorem conducts_inject (names : List String) : Conducts r (inject names) fun _ _ => True := by
  refine .calm (fun s => ?_) fun _ _ _ => trivial
  rw [inject, run_modify]
  dsimp only
  split <;> rfl

theorem conducts_pending (n : Nat) : Conducts r
    (modify fun s : ParserState => { s with pending := n }) fun _ _ => True :=
  .calm (fun _ => rfl) fun _ _ _ => trivial

theorem conducts_markOr {β : Type} (meaning : Reserved → Option β) (d : β) :
    Conducts r (Nonterminals.markOr meaning d) fun _ _ => True := by
  refine .calm (fun s => ?_) fun _ _ _ => trivial
  rw [markOr_run]
  split <;> rfl

theorem conducts_accept (m : Reserved) : Conducts r (accept m) fun _ _ => True := by
  refine .calm (fun s => ?_) fun _ _ _ => trivial
  rw [accept_run]
  split <;> rfl

theorem conducts_ruleArrow : Conducts r Nonterminals.ruleArrow fun _ _ => True := by
  refine (conducts_accept _).bind fun b r₁ _ _ => ?_
  cases b
  · refine (conducts_accept _).bind fun b r₂ _ _ => ?_
    cases b
    · exact conducts_fail _
    · exact .pure fun _ _ => trivial
  · exact .pure fun _ _ => trivial

theorem Conducts.discard {α : Type} {x : Parser α} {p : Registry → α → Prop}
    (h : Conducts r x p) : Conducts r (discard x) fun _ _ => True := by
  rw [Functor.discard, map_const]
  exact h.map fun _ _ _ _ => trivial

theorem conducts_parameterNames : Conducts r parameterNames fun _ _ => True := by
  refine (conducts_consume _).discard.bind fun _ r₁ _ _ => ?_
  refine (conducts_accept _).bind fun b r₂ _ _ => ?_
  cases b
  · refine (conducts_consumeName _).bind fun _ r₃ _ _ => ?_
    refine (Conducts.repeatWhile (p := fun _ _ => True) (fun _ _ _ _ _ => trivial)
      (fun r _ => conducts_accept _) fun r _ => conducts_consumeName _).bind fun _ r₄ _ _ => ?_
    exact (conducts_consume _).discard.bind fun _ r₅ _ _ => .pure fun _ _ => trivial
  · exact .pure fun _ _ => trivial

end

theorem Conducts.mapM {α β : Type} {f : α → Parser β} {q : Registry → α → Prop} {p : Registry → α → β → Prop}
    (qmono : ∀ r r' a, r ≤ r' → q r a → q r' a)
    (pmono : ∀ r r' a b, r ≤ r' → p r a b → p r' a b) :
    ∀ {as : List α} {r : Registry}, (∀ a ∈ as, ∀ r', r ≤ r' → q r' a → Conducts r' (f a) fun r b => p r a b) →
      (∀ a ∈ as, q r a) → Conducts r (as.mapM f) fun r bs => List.Forall₂ (p r) as bs
  | [], r, _, _ => by
    rw [List.mapM_nil]
    exact .pure fun _ _ => .nil
  | a :: as, r, hf, hq => by
    rw [List.mapM_cons]
    refine (hf a List.mem_cons_self r (le_refl _) (hq a List.mem_cons_self)).bind fun b r₁ le₁ hb => ?_
    refine (mapM qmono pmono (fun a ha r' le => hf a (List.mem_cons_of_mem _ ha) r' (le_trans le₁ le))
      fun a ha => qmono _ _ _ le₁ (hq a (List.mem_cons_of_mem _ ha))).bind fun bs r₂ le₂ hbs => ?_
    exact .pure fun r₃ le₃ => .cons (pmono _ _ _ _ (le_trans le₂ le₃) hb) (hbs.imp fun _ _ h => pmono _ _ _ _ le₃ h)

end GlyphScript
