import GlyphScript.Proofs.Printing.Expressions

/-!
# Printing bodies

Statements one behind the other. No statement is printed with `((` in front, so
none is taken for the arguments of a call that the statement before it makes.
-/

namespace GlyphScript

open Reserved Words

/-! ## The first word -/

theorem firstPiece_reserved {start : Location} {c : Char} {rest : List Char} {r : Reserved}
    (h : longestMatch? (c :: rest) = some r) :
    firstPiece start c rest =
      .ok ⟨.reserved r, r.chars, (c :: rest).drop r.chars.length⟩ := by
  simp only [firstPiece, h]

/-- The spelling of a reserved token is the only one. -/
theorem IsLexeme.spelling {r : Reserved} {cs : List Char} (h : IsLexeme (.reserved r) cs) :
    cs = r.chars := by
  obtain ⟨c, rest, made, divided⟩ := h.divided
  have alone := divided default [] separated_nil
  rw [List.append_nil] at alone
  cases found : longestMatch? (c :: rest) with
  | some r' =>
    rw [firstPiece_reserved found] at alone
    simp only [Except.ok.injEq, Piece.mk.injEq, TokenKind.reserved.injEq] at alone
    obtain ⟨rfl, spelled, -⟩ := alone
    exact spelled.symm
  | none =>
    simp only [firstPiece, found] at alone
    split at alone
    · split at alone <;> simp at alone
    · split at alone
      · split at alone <;> simp at alone
      · split at alone <;> simp at alone

theorem kindOf_eq_listOpen {w : String} (h : IsWord w) :
    kindOf w = .reserved listOpen ↔ w.toList.takeWhile (· ≠ ' ') = listOpen.chars := by
  constructor
  · intro kind
    rw [IsWord, kind] at h
    rw [h.spelling]
    decide
  · intro first
    have apart : Separated (w.toList.dropWhile (· ≠ ' ')) := by
      intro c hc
      have space := List.head?_dropWhile_not (· ≠ ' ') w.toList
      rw [Option.mem_def.mp hc] at space
      obtain rfl : c = ' ' := by simpa using space
      decide
    have found : longestMatch? w.toList = some listOpen := by
      rw [← @List.takeWhile_append_dropWhile _ (· ≠ ' ') w.toList, first,
        longestMatch?_append_separated apart]
      exact listOpen.spelling_spec.2.2
    obtain ⟨c, rest, made, divided⟩ := h.divided
    have alone := divided default [] separated_nil
    rw [List.append_nil, firstPiece_reserved (made ▸ found)] at alone
    simp only [Except.ok.injEq, Piece.mk.injEq] at alone
    exact alone.1.symm

/-- A statement is put into parentheses where its first word is `((`. -/
theorem statement_words {p : Printed} {ws : List String} (hp : p.words = .ok ws)
    (words : ∀ w ∈ ws, IsWord w) : p.statement =
      if leading (ws.map lexed) = some listOpen then
        word groupOpen.spelling ++ (p.words ++ word groupClose.spelling)
      else p.words := by
  unfold Printed.statement
  rw [hp]
  have same : ((ws.headD "").toList.takeWhile (· ≠ ' ') = listOpen.chars) ↔
      leading (ws.map lexed) = some listOpen := by
    cases ws with
    | nil => simp [leading]; decide
    | cons w ws =>
      rw [List.headD_cons, ← kindOf_eq_listOpen (words w List.mem_cons_self)]
      show _ ↔ (kindOf w).reserved? = some listOpen
      cases kindOf w <;> simp [TokenKind.reserved?]
  show (.ok (if (ws.headD "").toList.takeWhile (· ≠ ' ') = listOpen.chars then
    List.flatten [[groupOpen.spelling], ws, [groupClose.spelling]] else ws) : Words) = _
  by_cases first : leading (ws.map lexed) = some listOpen
  · rw [if_pos (same.mpr first), if_pos first]
    rfl
  · rw [if_neg fun h => first (same.mp h), if_neg first]

section

variable {settings : Settings}

/-- A statement that starts with a reserved token other than `((` is printed as it is. -/
theorem Prints.statement {a : Phrase} {r : Reserved} {t : List Node} {p : Printed} {f : Found}
    (h : Phrase.statement? settings r = some a) (inner : Prints settings a t p.words f) :
    Prints settings a t p.statement f := by
  intro k apart
  obtain ⟨ws, k', hp, words, derived, gain⟩ := inner k apart
  have opens := derived.opener (Phrase.leads_statement h).opener
  have other : leading (ws.map lexed) ≠ some listOpen := by
    rw [opens]
    intro same
    cases same
    cases h
  refine ⟨ws, k', ?_, words, derived, gain⟩
  rw [statement_words hp words, if_neg other, hp]

/-- An expression that starts with `((` is put into parentheses where it is a statement. -/
theorem Prints.parenthesized {t : List Node} {p : Printed} {f : Found}
    (inner : Prints settings Phrase.expression t p.words f) :
    Prints settings Phrase.expression t p.statement f := by
  intro k apart
  obtain ⟨ws, k', hp, words, -⟩ := inner k apart
  have printed := statement_words hp words
  split at printed
  · rw [printed]
    exact inner.group.of_derives (fun _ _ _ => .tighter (by decide)) k apart
  · rw [printed]
    exact inner k apart

theorem Node.prints_expressionStmt {span : Span} {n : Node}
    (hn : n.PrintsAs settings Phrase.expression n.printed.words) :
    (expressionStmt span n).PrintsAs settings Phrase.expressionStmt
      (expressionStmt span n).printed.statement := by
  refine printsAs_node (Prints.parenthesized hn) ?_ ?_ rfl
  · simp [Slot.toList]
  · rw [expressionStmt, printed_mk]
    rfl

/-! ## Bodies -/

theorem leading_statement {p : Printed} {ws : List String} (h : p.statement = .ok ws)
    (words : ∀ w ∈ ws, IsWord w) : leading (ws.map lexed) ≠ some listOpen := by
  cases hp : p.words with
  | error e =>
    rw [Printed.statement, hp] at h
    cases h
  | ok us =>
    have bare : ws = us ∨ ws = groupOpen.spelling :: us ++ [groupClose.spelling] := by
      rw [Printed.statement, hp] at h
      replace h : (.ok (if (us.headD "").toList.takeWhile (· ≠ ' ') = listOpen.chars then
        List.flatten [[groupOpen.spelling], us, [groupClose.spelling]] else us) : Words) = .ok ws := h
      split at h
      · exact .inr (Except.ok.inj h).symm
      · exact .inl (Except.ok.inj h).symm
    rcases bare with rfl | rfl
    · have printed := statement_words hp words
      intro first
      rw [if_pos first, h, hp] at printed
      have longer : ws.length = ([_] ++ (ws ++ [_])).length :=
        congrArg List.length (Except.ok.inj printed)
      simp only [List.length_append, List.length_singleton] at longer
      omega
    · rw [List.cons_append, List.map_cons, (isWord_reserved groupOpen).2]
      intro first
      cases first

/-- Statements are read one by one. -/
theorem prints_statements {ns : List Node} (h : ∀ n ∈ ns, Category.statement.Prints settings n) :
    Prints settings (.part .statements) (ns.flatMap Node.finished)
      (join ((ns.map Node.printed).map Printed.statement)) (.ofNodes (ns.map Node.unplaced)) := by
  -- by induction with what is said of the first word
  have uncalled : ∀ k, CallsApart k (ns.flatMap Node.finished) → ∃ ws k',
      join (ns.map fun n => n.printed.statement) = .ok ws ∧ (∀ w ∈ ws, IsWord w) ∧
      Derives settings (.part .statements) k (ws.map lexed) k' (.ofNodes (ns.map Node.unplaced)) ∧
      k.Gain (ns.flatMap Node.finished) k' ∧ leading (ws.map lexed) ≠ some listOpen := by
    induction ns with
    | nil =>
      intro k _
      refine ⟨[], k, rfl, by simp, .noStatement, .refl, ?_⟩
      intro first
      cases first
    | cons n ns ih =>
      intro k apart
      obtain ⟨⟨a, here, kind⟩, below⟩ := List.forall_mem_cons.mp h
      obtain ⟨us, k', hp, words, derived, gain⟩ := here k apart.left
      obtain ⟨vs, k'', hq, words', derived', gain', free⟩ := ih below k' (apart.right gain)
      refine ⟨us ++ vs, k'', append_ok hp hq, ?_, ?_, gain.trans gain', ?_⟩
      · intro w hw
        exact (List.mem_append.mp hw).elim (words w) (words' w)
      · rw [List.map_append]
        rcases kind with ⟨r, hr⟩ | rfl
        · exact .statement hr derived derived'
        · exact .expressionStmt derived derived' free
      · have full : us.map lexed ≠ [] := by
          rcases kind with ⟨r, hr⟩ | rfl
          · exact ne_nil_of_leading (derived.opener (Phrase.leads_statement hr).opener)
          · exact derived.ne_nil rfl
        rw [List.map_append, leading_append full]
        exact leading_statement hp words
  intro k apart
  rw [List.map_map]
  obtain ⟨ws, k', hp, words, derived, gain, -⟩ := uncalled k apart
  exact ⟨ws, k', hp, words, derived, gain⟩

namespace Node

variable {span : Span}

/-- The words of a body are those of its statements in brackets. -/
theorem prints_block {ns : List Node} (h : ∀ n ∈ ns, Category.statement.Prints settings n) :
    (block span ns []).PrintsAs settings (.part .body) (block span ns []).printed.words := by
  intro k apart
  have ends : (block span ns []).finished = ns.flatMap finished ++ [block span ns []] := by
    rw [block, finished_mk]
    simp [Slot.toList]
  rw [ends] at apart ⊢
  obtain ⟨ws, k', hp, words, derived, gain⟩ := prints_statements h k apart.left
  obtain ⟨opens, opener⟩ := isWord_reserved bodyOpen
  obtain ⟨closes, closer⟩ := isWord_reserved bodyClose
  refine ⟨bodyOpen.spelling :: ws ++ [bodyClose.spelling], k', ?_, ?_, ?_, gain.trans .refl⟩
  · rw [block, printed_mk]
    obtain ⟨wss, each, rfl⟩ := join_ok hp
    show (do return List.flatten [_, (← (ns.map printed).mapM Printed.statement).flatten, _]) = _
    rw [each]
    rfl
  · intro w hw
    simp only [List.cons_append, List.mem_cons, List.mem_append, List.not_mem_nil, or_false] at hw
    rcases hw with rfl | hw | rfl
    · exact opens
    · exact words w hw
    · exact closes
  · rw [List.map_append, List.map_cons, List.map_singleton, opener, closer, block, unplaced_mk]
    exact .body derived

end Node

end

end GlyphScript
