import GlyphScript.Grammar.Basic
import GlyphScript.Proofs.Listing.Trees
import GlyphScript.Proofs.Macro.Expansion

/-!
# Words of a unit

The identifiers of a text are words, and so are all names in what the parser
knows when only such identifiers have been read. The names that an expansion
installs are among them.
-/

namespace GlyphScript

/-! ## Words of a text -/

theorem firstPiece_of_isLexeme {kind : TokenKind} {cs : List Char} (h : IsLexeme kind cs) :
    ∃ c rest, cs = c :: rest ∧ firstPiece default c rest = .ok ⟨kind, cs, []⟩ := by
  obtain ⟨c, rest, made, divided⟩ := h.divided
  refine ⟨c, rest, made, ?_⟩
  have := divided default [] fun _ h => nomatch h
  rwa [List.append_nil] at this

theorem isWordChar_of_isIdentifierChar {c : Char} (h : isIdentifierChar c = true) :
    isWordChar c = true := isWordChar_of_apart (by decide) h

theorem isIdentifierChar_of_mem_tail {rest tail after : List Char}
    (h : identifierTail rest = (tail, after)) : ∀ c ∈ tail, isIdentifierChar c = true := by
  fun_induction identifierTail rest generalizing tail after with
  | case1 => 
    cases h
    exact List.forall_mem_nil _
  | case2 c rest continues tail' after' split ih =>
    cases h
    exact List.forall_mem_cons.mpr ⟨(Bool.and_eq_true_iff.mp continues).1, ih split⟩
  | case3 => 
    cases h
    exact List.forall_mem_nil _

/-- A token is a word if it is an identifier, and a mark is as it is spelled. -/
structure Token.Worded (t : Token) : Prop where
  name : t.kind = .identifier → IsBare t.lexeme
  mark : ∀ r, t.kind = .reserved r → t.lexeme = r.spelling

theorem IsLexeme.worded {t : Token} (h : IsLexeme t.kind t.lexeme.toList) : t.Worded := by
  obtain ⟨c, rest, made, piece⟩ := firstPiece_of_isLexeme h
  have other {k : TokenKind} (kind : k = t.kind) (name : k ≠ .identifier)
      (mark : ∀ r, k ≠ .reserved r) : t.Worded :=
    ⟨fun h => absurd (kind.trans h) name, fun r h => absurd (kind.trans h) (mark r)⟩
  cases found : Reserved.longestMatch? (c :: rest) with
  | some r =>
    simp only [firstPiece, found] at piece
    obtain ⟨kind, chars, -⟩ := Piece.mk.inj (Except.ok.inj piece)
    refine ⟨fun h => (TokenKind.noConfusion (kind.trans h) :), fun r' h => ?_⟩
    obtain rfl := TokenKind.reserved.inj (kind.trans h)
    exact String.toList_inj.mp chars.symm
  | none =>
    simp only [firstPiece, found] at piece
    split at piece
    · split at piece
      · cases piece
      · exact other (Piece.mk.inj (Except.ok.inj piece)).1 (by rintro ⟨⟩) fun r => by rintro ⟨⟩
    · split at piece
      · split at piece
        · exact other (Piece.mk.inj (Except.ok.inj piece)).1 (by rintro ⟨⟩) fun r => by rintro ⟨⟩
        · cases piece
      · split at piece
        · rename_i start
          obtain ⟨kind, chars, -⟩ := Piece.mk.inj (Except.ok.inj piece)
          refine ⟨fun _ => ⟨by simp [made], ?_⟩, fun r h => (TokenKind.noConfusion (kind.trans h) :)⟩
          rw [← chars]
          refine List.forall_mem_cons.mpr ⟨?_, fun d hd => isWordChar_of_isIdentifierChar
            (isIdentifierChar_of_mem_tail rfl d hd)⟩
          exact isWordChar_of_isIdentifierChar (by rw [isIdentifierChar, start, Bool.true_or])
        · cases piece

theorem tokenize_worded {source file : String} {tokens : List Token}
    (h : tokenize source file = .ok tokens) : ∀ t ∈ tokens, t.Worded := by
  obtain ⟨inner, stop, rfl, lexemes⟩ := scanFrom_lexemes h
  refine List.forall_mem_append.mpr ⟨fun t ht => (lexemes t ht).worded, ?_⟩
  exact List.forall_mem_singleton.mpr ⟨by rintro ⟨⟩, fun r => by rintro ⟨⟩⟩

/-! ## Legible units -/

structure MacroDefinition.Legible (d : MacroDefinition) : Prop where
  rules : ∀ r ∈ d.rules, r.Legible
  template : ∀ q, d.template = some q → q.Legible

def UnitState.Legible (u : UnitState) : Prop := ∀ d ∈ u.registry.macros, d.Legible

/-- What is known and what is to be read is in words. -/
structure ParserState.Legible (s : ParserState) : Prop where
  unit : s.unit.Legible
  tokens : ∀ t ∈ s.rest, t.Worded
  scopes : ∀ names ∈ s.scopes, ∀ x ∈ names, IsBare x

/-- What holds of the result and of the state afterwards, if `I` holds of the state before. -/
def Guarantee.fallible {ε σ : Type} (I : σ → Prop) : Guarantee (ExceptT ε (StateM σ)) where
  holds x p := ∀ s, I s → I (x s).2 ∧ ∀ a, (x s).1 = .ok a → p a
  pure h _ hs := ⟨hs, fun _ e => Except.ok.inj e ▸ h⟩
  bind {_ _ x f _ _} hx hf s hs := by
    obtain ⟨kept, made⟩ := hx s hs
    rw [run_bind]
    rcases h : x s with ⟨e | a, s₁⟩ <;> rw [h] at kept made
    · exact ⟨kept, by rintro _ ⟨⟩⟩
    · exact hf a (made a rfl) s₁ kept

def legibleWork : Guarantee Work := .fallible UnitState.Legible

def legible : Guarantee Parser := .fallible ParserState.Legible

theorem MacroDefinition.legible_of_node {n : Node} {d : MacroDefinition} (h : n.Legible)
    (made : ofNode? n = some d) : d.Legible := by
  unfold ofNode? at made
  split at made
  · rename_i rules template _ slots
    cases made
    have child {s : Slot Node} (hs : s ∈ [rules, template]) {m : Node} (hm : m ∈ s.toList) :
        m.Legible := fun k hk => h k (Node.mem_walk_trans (Node.mem_walk_child (slots ▸ hs) hm) hk)
    exact ⟨fun r hr => child (by simp) hr, fun q hq => child (s := template) (by simp)
      (List.mem_of_head? hq)⟩
  · cases made

/-! ## Expansions -/

namespace Head

theorem mem_words_of_mem_boundNames {h : Head} {x : String} (hx : x ∈ h.boundNames) :
    x ∈ h.words := by
  cases h
  case importDecl path alias? =>
    cases alias? <;> simp_all [boundNames, words, attributes, Attribute.texts, Attribute.ofOption]
  case loopStmt target =>
    cases target <;> simp_all [boundNames, words, attributes, Attribute.texts, Attribute.ofOption]
  all_goals simp_all [boundNames, words, attributes, Attribute.texts]

end Head

/-- New words for the names that a node binds leave it legible. -/
theorem Guarantee.mapBindersM_legible {m : Type → Type} [Monad m] [LawfulMonad m]
    (G : Guarantee m) {f : Head.BinderPosition → String → m String} {h : Head} (legible : h.Legible)
    (hf : ∀ p x, IsBare x → G.holds (f p x) IsBare) : G.holds (h.mapBindersM f) Head.Legible := by
  obtain ⟨words, scalar⟩ := legible
  have params (xs : List String) (hxs : ∀ x ∈ xs, IsBare x) :
      G.holds (xs.mapM (f .params)) fun ys => ∀ y ∈ ys, IsBare y := by
    refine G.mono (G.mapM (R := fun _ y => IsBare y) fun x hx => hf .params x (hxs x hx)) ?_
    intro ys h y hy
    obtain ⟨x, -, hy⟩ := exists_of_mem_right h hy
    exact hy
  cases h
  case assignment | classDef | tensorDecl | neuralNet | comprehensionClause | bindPattern =>
    refine G.bind (hf _ _ (words _ List.mem_cons_self)) fun y hy => G.pure ⟨?_, rfl⟩
    exact List.forall_mem_singleton.mpr hy
  case functionDef name xs | asyncFunctionDef name xs =>
    have words : ∀ x ∈ name :: xs, IsBare x := by
      simpa [Head.words, Head.attributes, Head.Attribute.texts] using words
    obtain ⟨first, others⟩ := List.forall_mem_cons.mp words
    refine G.bind (hf _ _ first) fun y hy => G.bind (params _ others) fun ys hys => G.pure ⟨?_, rfl⟩
    simpa [Head.words, Head.attributes, Head.Attribute.texts] using ⟨hy, hys⟩
  case lambda xs =>
    have words : ∀ x ∈ xs, IsBare x := by
      simpa [Head.words, Head.attributes, Head.Attribute.texts] using words
    refine G.bind (params _ words) fun ys hys => G.pure ⟨?_, rfl⟩
    simpa [Head.words, Head.attributes, Head.Attribute.texts] using hys
  case importDecl path alias? =>
    cases alias? with
    | none => exact G.pure ⟨words, scalar⟩
    | some x =>
      have words : (∀ x ∈ path, IsBare x) ∧ IsBare x := by
        simpa [Head.words, Head.attributes, Head.Attribute.texts, Head.Attribute.ofOption, or_imp,
          forall_and] using words
      refine G.bind (hf _ _ words.2) fun y hy => G.pure ⟨?_, rfl⟩
      simpa [Head.words, Head.attributes, Head.Attribute.texts, Head.Attribute.ofOption, or_imp,
          forall_and] using ⟨words.1, hy⟩
  case loopStmt target =>
    cases target with
    | none => exact G.pure ⟨words, scalar⟩
    | some x =>
      refine G.bind (hf _ _ (words _ List.mem_cons_self)) fun y hy => G.pure ⟨?_, rfl⟩
      exact List.forall_mem_singleton.mpr hy
  all_goals exact G.pure ⟨words, scalar⟩

namespace Node

theorem Legible.of_mem_walk {n m : Node} (h : n.Legible) (hm : m ∈ n.walk) : m.Legible :=
  fun k hk => h k (mem_walk_trans hm hk)

theorem legible_identifier {n : Node} {x : String} (h : n.Legible) (is : n.head = .identifier x) :
    IsBare x := by
  have own := h n n.mem_walk_self
  rw [is] at own
  exact own.words x (List.mem_singleton_self x)

/-- A legible template that is filled with what is legible is so still. -/
theorem substitute_legible {f : Filling} (hf : ∀ x ∈ f.bindings, x.2.Legible) (n : Node)
    (depth : Nat) : (Guarantee.except ExpansionFault).holds (n.transformM f.transform depth)
      fun m : Node => n.Legible → m.Legible := by
  let G := Guarantee.except ExpansionFault
  have bound {x : String} {m : Node} (h : f.bindings.lookup x = some m) : m.Legible :=
    hf _ (mem_of_lookup h)
  have binder (receiver : String) (p : Head.BinderPosition) (x : String) (hx : IsBare x) :
      G.holds (f.binder receiver p x) IsBare := by
    unfold Filling.binder
    split
    · exact G.pure hx
    · rename_i m found
      split
      · rename_i y is
        exact G.pure (legible_identifier (bound found) is)
      · exact fun _ e => nomatch e
  refine G.transformM (R := fun _ n (m : Node) => n.Legible → m.Legible) (E := fun _ _ _ => True)
    ?_ ?_ n depth
  · intro d n
    obtain ⟨span, head, slots⟩ := n
    cases head
    case identifier x =>
      refine G.pure fun hn => ?_
      split
      · cases found : f.bindings.lookup x with
        | none => exact hn
        | some m => exact bound found
      · exact hn
    all_goals exact G.pure trivial
  · intro d span head slots _ slots' _ rel
    have below (h : (mk span head slots).Legible) : ∀ s ∈ slots', ∀ n ∈ s.toList, n.Legible := by
      intro s hs m hm
      obtain ⟨s₀, hs₀, n, hn, gives⟩ := Slot.exists_of_mem_rel (rel.imp fun _ _ => (·.rel)) hs hm
      exact gives ((legible_mk.mp h).2 s₀ hs₀ n hn)
    unfold Filling.transform
    dsimp only
    split
    · rename_i e' _ made
      obtain rfl : slots' = [.one e'] := made
      split
      · exact G.pure fun h => below h _ List.mem_cons_self e' List.mem_cons_self
      · exact G.pure fun h => legible_mk.mpr ⟨(legible_mk.mp h).1, below h⟩
    · split
      · by_cases own : head.Legible
        · refine G.bind (G.mapBindersM_legible own (binder head.className)) fun head' own' => ?_
          exact G.pure fun h => legible_mk.mpr ⟨own', below h⟩
        · exact G.bind (p := fun _ => True) (fun _ _ => trivial) fun head' _ =>
            G.pure fun h => absurd (legible_mk.mp h).1 own
      · exact G.pure fun h => legible_mk.mpr ⟨(legible_mk.mp h).1, below h⟩

theorem isBare_of_mem_boundInside {n : Node} (h : n.Legible) {x : String}
    (hx : x ∈ n.boundInside) : IsBare x := by
  induction n using induction_on with
  | step span head slots ih =>
    obtain ⟨own, below⟩ := legible_mk.mp h
    rw [boundInside, fold_mk] at hx
    split at hx
    · cases hx
    · rcases List.mem_append.mp hx with hx | hx
      · exact own.words x (Head.mem_words_of_mem_boundNames hx)
      · obtain ⟨names, hn, hx⟩ := List.mem_flatten.mp hx
        obtain ⟨t, ht, hn⟩ := List.mem_flatMap.mp hn
        obtain ⟨s, hs, rfl⟩ := List.mem_map.mp ht
        rw [Slot.toList_map] at hn
        obtain ⟨m, hm, rfl⟩ := List.mem_map.mp hn
        exact ih s hs m hm (below s hs m hm) hx

theorem isBare_of_mem_binderNames {n : Node} (h : n.Legible) {x : String}
    (hx : x ∈ n.binderNames) : IsBare x :=
  isBare_of_mem_boundInside h (List.mem_of_mem_filter (List.mem_eraseDups.mp hx))

end Node

theorem MacroCall.Passes.legible {c : MacroCall} (hc : ∀ a ∈ c.args, a.Legible) {n : Node}
    (h : c.Passes n) : n.Legible := by
  rcases h.offers with ⟨a, ha, hn⟩ | rfl
  · exact (hc a ha).of_mem_walk hn
  · exact Node.legible_mk.mpr ⟨⟨List.forall_mem_nil _, rfl⟩, List.forall_mem_singleton.mpr hc⟩

/-- The names that an expansion installs are words. -/
theorem Work.expandCall_injected {c : MacroCall} {u u' : UnitState} {e : Expansion} (hu : u.Legible)
    (hc : ∀ a ∈ c.args, a.Legible) (run : (Work.expandCall c).run u = (.ok e, u')) :
    ∀ x ∈ e.injected, IsBare x := by
  obtain ⟨d, sel, called, selected, filled, injected, -⟩ := Work.expandCall_ok run
  rw [injected]
  split
  · rename_i inject
    obtain ⟨template, bindings⟩ := d.select_ok selected
    have known := hu d (List.mem_of_find?_eq_some called)
    have legible : sel.template.Legible := by
      split at template
      · obtain ⟨q, hq, child⟩ := template
        exact (known.template q hq).of_mem_walk (Node.mem_walk_of_mem_children child)
      · obtain ⟨r, hr, child⟩ := template
        exact (known.rules r hr).of_mem_walk (Node.mem_walk_of_mem_children child)
    have kept : sel.prepared d.hygiene u = sel.template := by
      rw [inject]
      rfl
    rw [kept] at filled
    intro x hx
    refine Node.isBare_of_mem_binderNames ?_ hx
    exact Node.substitute_legible (f := sel.filling c.name)
      (fun x hx => (bindings x hx).legible hc) _ _ _ filled legible
  · exact List.forall_mem_nil _

end GlyphScript
