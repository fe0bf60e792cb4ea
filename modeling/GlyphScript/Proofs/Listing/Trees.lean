import GlyphScript.Node.SExpr
import GlyphScript.Proofs.Listing.Items
import GlyphScript.Proofs.Safety.Sorts
import Mathlib.Data.List.Nodup

/-!
# Listings of trees

Trees with the same listing are the same but for their places and for one
spelling: what is absent is listed as a word that a name may have too.
-/

namespace GlyphScript

/-! ## Items of trees -/

namespace Item

def ofNames (xs : List String) : Item := row false (xs.map word)

def ofScalar (value : Scalar) : LiteralKind → Item
  | .string =>
    match value with
    | .text s => text s
    | value => word value.plain
  | kind => word (literalSpelling value kind)

end Item

namespace Head

def Attribute.item : Attribute → Item
  | .absent => .word "nil"
  | .text s => .word s
  | .flag b => .word (flagSpelling b)
  | .number n => .word (toString n)
  | .names ns => .ofNames ns

/-- What is listed of a node besides its kind and its slots. -/
def items : Head → List Item
  | .literal value kind | .literalPattern value kind => [.ofScalar value kind]
  | head => head.listedAttributes.map Attribute.item

theorem Attribute.written_item (a : Attribute) : a.item.written = a.sexpr.toList := by
  cases a
  case names ns =>
    simp [item, sexpr, Item.ofNames, Item.written, Item.spaced_eq_intercalate,
      String.toList_intercalate, Function.comp_def, Item.opener, Item.closer]
  all_goals rfl

theorem written_ofScalar (value : Scalar) (kind : LiteralKind) :
    (Item.ofScalar value kind).written = (literalSpelling value kind).toList := by
  cases kind
  case string => cases value <;> simp [Item.ofScalar, Item.written, literalSpelling, stringSpelling]
  all_goals rfl

end Head

def Slot.item : Slot Item → Item
  | .absent => .word "nil"
  | .one i => i
  | .many is => .row false is

/-- The listing of the tree as data. -/
def Node.item : Node → Item :=
  fold fun _ head slots => .row true (.word head.className :: head.items ++ slots.map Slot.item)

namespace Node

theorem item_mk (span : Span) (head : Head) (slots : List (Slot Node)) :
    (mk span head slots).item = .row true (.word head.className :: head.items ++
      slots.map fun s => (s.map item).item) := by
  rw [item, fold_mk, List.map_map]
  rfl

theorem sexpr_mk (span : Span) (head : Head) (slots : List (Slot Node)) :
    (mk span head slots).sexpr = listing head (slots.map (Slot.map sexpr)) := fold_mk ..

theorem written_slot {s : Slot Node} (h : ∀ n ∈ s.toList, n.item.written = n.sexpr.toList) :
    (s.map item).item.written = (s.map sexpr).sexpr.toList := by
  cases s with
  | absent => rfl
  | one n => exact h n List.mem_cons_self
  | many ns =>
    have same : ns.map (fun n => n.item.written) = ns.map fun n => n.sexpr.toList :=
      List.map_congr_left h
    simp [Slot.map, Slot.item, Slot.sexpr, Item.written, Item.spaced_eq_intercalate,
      String.toList_intercalate, Function.comp_def, Item.opener, Item.closer, same]

/-- A sorted tree is listed as its items are written. -/
theorem written_item {n : Node} (h : n.Sorted) : n.item.written = n.sexpr.toList := by
  induction n using induction_on with
  | step span head slots ih =>
    have inside : ∀ s ∈ slots, (s.map item).item.written = (s.map sexpr).sexpr.toList := by
      refine fun s hs => written_slot fun n hn => ih s hs n hn ?_
      exact h.of_mem_walk (mem_walk_child (n := mk span head slots) hs hn)
    have same : slots.map (fun s => (s.map item).item.written) =
        slots.map fun s => (s.map sexpr).sexpr.toList := List.map_congr_left inside
    rw [item_mk, sexpr_mk, Item.written, Item.spaced_eq_intercalate]
    cases head
    case literal value kind | literalPattern value kind => 
      obtain ⟨⟩ := sorted_mk.mp h
      simp [listing, Head.items, Item.written, Head.written_ofScalar, Head.className,
        List.intercalate, Item.opener, Item.closer]
    all_goals
      simp only [listing, Head.items]
      simp [Item.written, String.toList_intercalate, Function.comp_def, Item.opener, Item.closer,
        same, Head.Attribute.written_item]

end Node

/-! ## Reading items -/

namespace Item

def spelling : Item → String
  | word x => x
  | _ => ""

def names : Item → List String
  | row _ is => is.map spelling
  | _ => []

theorem names_ofNames (xs : List String) : (ofNames xs).names = xs := by
  simp [ofNames, names, Function.comp_def, spelling]

/-- The value that is listed, and its kind. -/
def scalar : Item → Scalar × LiteralKind
  | text s => (.text s, .string)
  | i =>
    if i.spelling = "#+" then (.flag true, .boolean)
    else if i.spelling = "#-" then (.flag false, .boolean)
    else if i.spelling = "#~" then (.nothing, .null)
    else (.integer (numeralValue i.spelling.toList), .number)

def phase (i : Item) : Phase :=
  ([Phase.parse, .expand, .compile].find? (·.name = i.spelling)).getD .parse

def hygiene (i : Item) : Hygiene :=
  ([Hygiene.capture, .isolate, .inject].find? (·.name = i.spelling)).getD .capture

end Item

namespace Head

/-- The head with the attributes that are listed in front of the slots, and the slots. Names
injected and deferral are not always listed. -/
def refill (h : Head) (is : List Item) : Head × List Item :=
  let first := is.getD 0 (.word "")
  let second := is.getD 1 (.word "")
  match h with
  | .program _ => if is.length = 1 then (.program [], is) else (.program first.names, is.drop 1)
  | .block _ => if is.length = 1 then (.block [], is) else (.block first.names, is.drop 1)
  | .assignment _ => (.assignment first.spelling, is.drop 1)
  | .importDecl .. => (.importDecl first.names (some second.spelling), is.drop 2)
  | .memoryStmt _ => (.memoryStmt first.spelling, is.drop 1)
  | .functionDef .. => (.functionDef first.spelling second.names, is.drop 2)
  | .asyncFunctionDef .. => (.asyncFunctionDef first.spelling second.names, is.drop 2)
  | .classDef _ => (.classDef first.spelling, is.drop 1)
  | .loopStmt _ => (.loopStmt (some first.spelling), is.drop 1)
  | .tensorDecl _ => (.tensorDecl first.spelling, is.drop 1)
  | .neuralNet _ => (.neuralNet first.spelling, is.drop 1)
  | .macroDef .. =>
    (.macroDef first.spelling second.names (is.getD 2 (.word "")).phase
      (is.getD 3 (.word "")).hygiene, is.drop 4)
  | .macroRule _ => (.macroRule (first.spelling = flagSpelling true), is.drop 1)
  | .comprehensionClause _ => (.comprehensionClause first.spelling, is.drop 1)
  | .literal .. => (.literal first.scalar.1 first.scalar.2, is.drop 1)
  | .identifier _ => (.identifier first.spelling, is.drop 1)
  | .macroCall .. =>
    if is.length = 2 then (.macroCall first.spelling false, is.drop 1)
    else (.macroCall first.spelling true, is.drop 2)
  | .lambda _ => (.lambda first.names, is.drop 1)
  | .binaryOp _ => (.binaryOp first.spelling, is.drop 1)
  | .unaryOp _ => (.unaryOp first.spelling, is.drop 1)
  | .literalPattern .. => (.literalPattern first.scalar.1 first.scalar.2, is.drop 1)
  | .bindPattern _ => (.bindPattern first.spelling, is.drop 1)
  | h => (h, is)

/-- What is absent is named as it is listed. -/
def nilled : Head → Head
  | .importDecl path none => .importDecl path (some "nil")
  | .loopStmt none => .loopStmt (some "nil")
  | h => h

/-- One head of each kind. -/
def kinds : List Head :=
  [.program [], .block [], .blockStmt, .assignment "", .importDecl [] none, .returnStmt, .yieldStmt,
   .breakStmt, .continueStmt, .expressionStmt, .memoryStmt "", .deviceStmt, .tryStmt, .matchStmt,
   .functionDef "" [], .asyncFunctionDef "" [], .classDef "", .ifStmt, .loopStmt none,
   .parallelStmt, .gpuStmt, .tensorDecl "", .neuralNet "", .streamStmt,
   .macroDef "" [] .parse .capture, .macroRule false, .exceptClause, .caseClause,
   .comprehensionClause "", .literal .nothing .null, .identifier "", .tupleLiteral,
   .tensorLiteral, .comprehension, .call, .macroCall "" false, .lambda [], .awaitExpr,
   .binaryOp "", .unaryOp "", .conditional, .quote, .unquote, .literalPattern .nothing .null,
   .bindPattern "", .tuplePattern, .tensorShapePattern, .graphPattern, .streamPattern]

/-- Heads that differ in their attributes only. -/
structure SameKind (h h' : Head) : Prop where
  className : h.className = h'.className
  refill : ∀ is, h.refill is = h'.refill is
  slots : h.sorts.length = h'.sorts.length

theorem exists_kind (h : Head) : ∃ k, kinds[h.ctorIdx]? = some k ∧ h.SameKind k := by
  cases h
  case loopStmt target => cases target <;> exact ⟨_, rfl, rfl, fun _ => rfl, rfl⟩
  case macroRule b => cases b <;> exact ⟨_, rfl, rfl, fun _ => rfl, rfl⟩
  all_goals exact ⟨_, rfl, rfl, fun _ => rfl, rfl⟩

/-- The names of the kinds are words, and no two are the same. -/
theorem className_kinds :
    (kinds.map className).Nodup ∧ ∀ k ∈ kinds, IsBare k.className := by decide +kernel

theorem sameKind_of_className {h h' : Head} (same : h.className = h'.className) : h.SameKind h' := by
  obtain ⟨k, found, kind⟩ := exists_kind h
  obtain ⟨k', found', kind'⟩ := exists_kind h'
  have index : h.ctorIdx = h'.ctorIdx := by
    have named : (kinds.map className)[h.ctorIdx]? = some h.className := by
      rw [List.getElem?_map, found, kind.className]
      rfl
    have named' : (kinds.map className)[h'.ctorIdx]? = some h.className := by
      rw [List.getElem?_map, found', same, kind'.className]
      rfl
    obtain ⟨_, named⟩ := List.getElem?_eq_some_iff.mp named
    obtain ⟨_, named'⟩ := List.getElem?_eq_some_iff.mp named'
    exact className_kinds.1.getElem_inj_iff.mp (named.trans named'.symm)
  rw [index, found'] at found
  obtain rfl := Option.some.inj found
  exact ⟨same, fun is => (kind.refill is).trans (kind'.refill is).symm,
    kind.slots.trans kind'.slots.symm⟩

theorem isBare_className (h : Head) : IsBare h.className := by
  obtain ⟨k, found, kind⟩ := exists_kind h
  exact kind.className ▸ className_kinds.2 k (List.mem_of_getElem? found)

end Head

/-! ## Legible trees -/

namespace Scalar

/-- A value that literals of the kind have. -/
def isOfKind : Scalar → LiteralKind → Bool
  | .integer n, .number => 0 ≤ n
  | .text _, .string | .flag _, .boolean | .nothing, .null => true
  | _, _ => false

end Scalar

namespace Head

def Attribute.texts : Attribute → List String
  | .text s => [s]
  | .names ns => ns
  | _ => []

/-- The words among the attributes. -/
def words : Head → List String
  | .literal .. | .literalPattern .. => []
  | head => head.attributes.flatMap fun a => a.2.texts

def isLegibleScalar : Head → Bool
  | .literal value kind | .literalPattern value kind => value.isOfKind kind
  | _ => true

/-- The attributes are listed in words. -/
structure Legible (h : Head) : Prop where
  words : ∀ x ∈ h.words, IsBare x
  scalar : h.isLegibleScalar = true

end Head

/-- The attributes of all nodes are listed in words. -/
def Node.Legible (n : Node) : Prop := ∀ m ∈ n.walk, m.head.Legible

theorem Node.legible_mk {span : Span} {head : Head} {slots : List (Slot Node)} :
    (mk span head slots).Legible ↔
      head.Legible ∧ ∀ s ∈ slots, ∀ n ∈ s.toList, n.Legible := by
  constructor
  · intro h
    exact ⟨h _ (mem_walk_self _), fun s hs n hn m hm => h m (mem_walk_mk.mpr (.inr ⟨s, hs, n, hn, hm⟩))⟩
  · rintro ⟨own, below⟩ m hm
    rcases mem_walk_mk.mp hm with rfl | ⟨s, hs, n, hn, hm⟩
    · exact own
    · exact below s hs n hn m hm

/-! ## Legible items -/

namespace Item

theorem legible_ofNames {xs : List String} (h : ∀ x ∈ xs, IsBare x) : (ofNames xs).Legible :=
  .row fun i hi => by
    obtain ⟨x, hx, rfl⟩ := List.mem_map.mp hi
    exact .word (h x hx)

theorem isBare_ofNat (n : Nat) : IsBare (toString n) := by
  rw [Nat.toString_eq_ofList_toDigits]
  refine ⟨by simp, fun c hc => ?_⟩
  rw [String.toList_ofList] at hc
  have digit := Nat.isDigit_of_mem_toDigits (by decide) (by decide) hc
  exact isWordChar_of_apart (by decide) digit

theorem isBare_ofInt : ∀ n : Int, IsBare (toString n)
  | .ofNat n => isBare_ofNat n
  | .negSucc n => by
    obtain ⟨-, chars⟩ := isBare_ofNat (n + 1)
    have minus : (toString (Int.negSucc n)).toList = '-' :: (toString (n + 1)).toList := by
      show ("-" ++ toString (n + 1)).toList = _
      rw [String.toList_append]
      rfl
    refine ⟨fun empty => List.cons_ne_nil _ _ (minus.symm.trans empty), ?_⟩
    rw [minus]
    exact List.forall_mem_cons.mpr ⟨by decide, chars⟩

theorem legible_flag (b : Bool) : (word (flagSpelling b)).Legible := by
  cases b <;> exact .word (by decide)

theorem legible_ofScalar {value : Scalar} {kind : LiteralKind} (h : value.isOfKind kind = true) :
    (ofScalar value kind).Legible := by
  cases value <;> cases kind <;> simp only [Scalar.isOfKind, Bool.false_eq_true] at h
  case integer.number n => exact .word (isBare_ofInt n)
  case text.string => exact .text
  case flag.boolean b => exact legible_flag b
  case nothing.null => exact .word (by decide)

end Item

namespace Head

theorem Attribute.legible_item {a : Attribute} (h : ∀ x ∈ a.texts, IsBare x) : a.item.Legible := by
  cases a with
  | absent => exact .word (by decide)
  | text s => exact .word (h s (List.mem_singleton_self s))
  | flag b => exact Item.legible_flag b
  | number n => exact .word (Item.isBare_ofInt n)
  | names ns => exact Item.legible_ofNames h

theorem legible_items {h : Head} (legible : h.Legible) : ∀ i ∈ h.items, i.Legible := by
  have scalar {value : Scalar} {kind : LiteralKind} (fits : value.isOfKind kind = true) :
      ∀ i ∈ [Item.ofScalar value kind], i.Legible :=
    List.forall_mem_singleton.mpr (Item.legible_ofScalar fits)
  unfold items
  split
  · exact scalar legible.scalar
  · exact scalar legible.scalar
  · rename_i noLiteral noPattern
    intro i hi
    obtain ⟨a, ha, rfl⟩ := List.mem_map.mp hi
    obtain ⟨⟨x, a⟩, listed, rfl⟩ := List.mem_map.mp ha
    refine Attribute.legible_item fun x hx => legible.words x ?_
    have among : x ∈ h.attributes.flatMap fun a => a.2.texts :=
      List.mem_flatMap.mpr ⟨_, List.mem_of_mem_filter listed, hx⟩
    unfold words
    split
    · exact absurd rfl (noLiteral _ _)
    · exact absurd rfl (noPattern _ _)
    · exact among

end Head

theorem Slot.legible_item {s : Slot Item} (h : ∀ i ∈ s.toList, i.Legible) : s.item.Legible := by
  cases s with
  | absent => exact .word (by decide)
  | one i => exact h i List.mem_cons_self
  | many is => exact .row h

theorem Node.Legible.item {n : Node} (h : n.Legible) : n.item.Legible := by
  induction n using induction_on with
  | step span head slots ih =>
    obtain ⟨own, below⟩ := legible_mk.mp h
    rw [item_mk]
    refine .row (List.forall_mem_cons.mpr ⟨.word head.isBare_className,
      List.forall_mem_append.mpr ⟨Head.legible_items own, fun i hi => ?_⟩⟩)
    obtain ⟨s, hs, rfl⟩ := List.mem_map.mp hi
    refine Slot.legible_item fun i hi => ?_
    rw [Slot.toList_map] at hi
    obtain ⟨n, hn, rfl⟩ := List.mem_map.mp hi
    exact ih s hs n hn (below s hs n hn)

namespace Head

theorem scalar_ofScalar {value : Scalar} {kind : LiteralKind} (h : value.isOfKind kind = true) :
    (Item.ofScalar value kind).scalar = (value, kind) := by
  cases value <;> cases kind <;> simp only [Scalar.isOfKind, Bool.false_eq_true] at h
  case integer.number n =>
    obtain ⟨m, rfl⟩ := Int.eq_ofNat_of_zero_le (of_decide_eq_true h)
    have spelled : (toString (m : Int)).toList = Nat.toDigits 10 m := by
      show (String.ofList (Nat.toDigits 10 m)).toList = _
      rw [String.toList_ofList]
    have value : numeralValue (Nat.toDigits 10 m) = m :=
      Nat.ofDigitChars_toDigits (by decide) (by decide)
    have other {x : String} (hash : '#' ∈ x.toList) : toString (m : Int) ≠ x := by
      rintro rfl
      rw [spelled] at hash
      exact absurd (Nat.isDigit_of_mem_toDigits (by decide) (by decide) hash) (by decide)
    show Item.scalar (.word (toString (m : Int))) = _
    simp only [Item.scalar, Item.spelling, other (x := "#+") (by decide),
      other (x := "#-") (by decide), other (x := "#~") (by decide), if_false, spelled, value]
  case text.string => rfl
  case flag.boolean b => cases b <;> rfl
  case nothing.null => rfl

/-- From the items the head is found again, but for what is absent. -/
theorem refill_items {h : Head} (scalar : h.isLegibleScalar = true) {rest : List Item}
    (slots : rest.length = h.sorts.length) : h.refill (h.items ++ rest) = (h.nilled, rest) := by
  cases h
  case literal value kind | literalPattern value kind =>
    obtain rfl := List.eq_nil_of_length_eq_zero slots
    simp [refill, items, scalar_ofScalar scalar, nilled]
  case program injected | block injected =>
    obtain ⟨i, rfl⟩ := List.length_eq_one_iff.mp slots
    cases injected <;> simp [refill, items, listedAttributes, attributes, isListed, Attribute.item,
      nilled, Item.names_ofNames]
  case macroDef name params phase hygiene =>
    cases phase <;> cases hygiene <;>
      simp [refill, items, listedAttributes, attributes, isListed, Attribute.item, nilled,
        Item.spelling, Item.names_ofNames, Item.phase, Item.hygiene, Phase.name, Hygiene.name]
  case macroRule isTransform =>
    cases isTransform <;> simp [refill, items, listedAttributes, attributes, isListed,
      Attribute.item, nilled, Item.spelling, flagSpelling]
  case macroCall name deferred =>
    obtain ⟨i, rfl⟩ := List.length_eq_one_iff.mp slots
    cases deferred <;> simp [refill, items, listedAttributes, attributes, isListed, Attribute.item,
      nilled, Item.spelling]
  case importDecl path alias? =>
    cases alias? <;> simp [refill, items, listedAttributes, attributes, isListed, Attribute.item,
      nilled, Item.spelling, Item.names_ofNames, Attribute.ofOption]
  case loopStmt target =>
    cases target <;> simp [refill, items, listedAttributes, attributes, isListed, Attribute.item,
      nilled, Item.spelling, Attribute.ofOption]
  all_goals
    simp [refill, items, listedAttributes, attributes, isListed, Attribute.item, nilled,
      Item.spelling, Item.names_ofNames]

/-- Heads of one kind are the same but for what is absent when the same is listed of them. -/
theorem nilled_inj {h h' : Head} (same : h.className = h'.className)
    (scalar : h.isLegibleScalar = true) (scalar' : h'.isLegibleScalar = true)
    {rest rest' : List Item} (slots : rest.length = h.sorts.length)
    (slots' : rest'.length = h'.sorts.length) (items : h.items ++ rest = h'.items ++ rest') :
    h.nilled = h'.nilled ∧ rest = rest' := by
  have kind := sameKind_of_className same
  have made := refill_items scalar slots
  rw [kind.refill, items, refill_items scalar' slots'] at made
  exact ⟨(Prod.mk.inj made).1.symm, (Prod.mk.inj made).2.symm⟩

end Head

/-! ## Reading listings -/

theorem map_eq_map_of_mem {α β γ : Type} {f : α → β} {g : α → γ} {as bs : List α}
    (h : as.map f = bs.map f) (hg : ∀ a ∈ as, ∀ b ∈ bs, f a = f b → g a = g b) :
    as.map g = bs.map g := by
  induction as generalizing bs with
  | nil =>
    obtain rfl := List.map_eq_nil_iff.mp h.symm
    rfl
  | cons a as ih =>
    cases bs with
    | nil => cases h
    | cons b bs =>
      obtain ⟨first, others⟩ := List.cons.inj h
      rw [List.map_cons, List.map_cons, hg a List.mem_cons_self b List.mem_cons_self first,
        ih others fun a ha b hb => hg a (List.mem_cons_of_mem _ ha) b (List.mem_cons_of_mem _ hb)]

namespace Node

/-- The tree without its places, and named where something is absent as it is listed. -/
def nilled : Node → Node := fold fun _ head slots => mk default head.nilled slots

theorem nilled_mk (span : Span) (head : Head) (slots : List (Slot Node)) :
    (mk span head slots).nilled = mk default head.nilled (slots.map (Slot.map nilled)) :=
  fold_mk ..

theorem exists_item (n : Node) : ∃ is, n.item = .row true is := by
  obtain ⟨span, head, slots⟩ := n
  exact ⟨_, item_mk span head slots⟩

/-- Slots are the same but for what is absent if the same is listed of them. -/
theorem map_nilled_inj {s s' : Slot Node}
    (inj : ∀ n ∈ s.toList, ∀ m ∈ s'.toList, n.item = m.item → n.nilled = m.nilled)
    (same : (s.map item).item = (s'.map item).item) : s.map nilled = s'.map nilled := by
  have row (n : Node) : n.item ≠ .word "nil" ∧ ∀ is, n.item ≠ .row false is := by
    obtain ⟨is, made⟩ := n.exists_item
    exact ⟨by rw [made]; rintro ⟨⟩, fun is => by rw [made]; rintro ⟨⟩⟩
  cases s with
  | absent =>
    cases s' with
    | absent => rfl
    | one m => exact absurd same.symm (row m).1
    | many ms => cases same
  | one n =>
    cases s' with
    | absent => exact absurd same (row n).1
    | one m => exact congrArg Slot.one (inj n List.mem_cons_self m List.mem_cons_self same)
    | many ms => exact absurd same ((row n).2 _)
  | many ns =>
    cases s' with
    | absent => cases same
    | one m => exact absurd same.symm ((row m).2 _)
    | many ms =>
      exact congrArg Slot.many (map_eq_map_of_mem (Item.row.inj same).2 inj)

theorem nilled_inj {a b : Node} (ha : a.Legible) (hb : b.Legible) (sa : a.Sorted) (sb : b.Sorted)
    (same : a.item = b.item) : a.nilled = b.nilled := by
  induction a using induction_on generalizing b with
  | step span head slots ih =>
    obtain ⟨span', head', slots'⟩ := b
    obtain ⟨ownA, belowA⟩ := legible_mk.mp ha
    obtain ⟨ownB, belowB⟩ := legible_mk.mp hb
    have count : slots.length = head.sorts.length := (sorted_mk.mp sa).length_eq.symm
    have count' : slots'.length = head'.sorts.length := (sorted_mk.mp sb).length_eq.symm
    rw [item_mk, item_mk] at same
    obtain ⟨kind, same⟩ := List.cons.inj (Item.row.inj same).2
    obtain ⟨heads, rest⟩ := Head.nilled_inj (Item.word.inj kind) ownA.scalar ownB.scalar
      (by rw [List.length_map, count]) (by rw [List.length_map, count']) same
    have slot : slots.map (Slot.map nilled) = slots'.map (Slot.map nilled) := by
      refine map_eq_map_of_mem rest fun s hs s' hs' same => map_nilled_inj ?_ same
      intro n hn m hm same
      exact ih s hs n hn (belowA s hs n hn) (belowB s' hs' m hm)
        (sa.of_mem_walk (mem_walk_child (n := mk span head slots) hs hn))
        (sb.of_mem_walk (mem_walk_child (n := mk span' head' slots') hs' hm)) same
    rw [nilled_mk, nilled_mk, heads, slot]

theorem sexpr_nilled (n : Node) : n.nilled.sexpr = n.sexpr := by
  have attributes (head : Head) (slots : List (Slot String)) :
      listing head.nilled slots = listing head slots := by
    unfold Head.nilled
    split <;> rfl
  induction n using induction_on with
  | step span head slots ih =>
    rw [nilled_mk, sexpr_mk, sexpr_mk, attributes, List.map_map]
    refine congrArg _ (List.map_congr_left fun s hs => ?_)
    rw [Function.comp_apply, Slot.map_map]
    exact Slot.map_congr fun n hn => ih s hs n hn

/-- Legible trees have the same listing if they are the same but for their places and for what is
absent. -/
theorem structurallyEqual_iff {a b : Node} (ha : a.Legible) (hb : b.Legible) (sa : a.Sorted)
    (sb : b.Sorted) : a.structurallyEqual b = true ↔ a.nilled = b.nilled := by
  rw [structurallyEqual, beq_iff_eq]
  constructor
  · intro same
    refine nilled_inj ha hb sa sb (Item.written_inj ha.item hb.item ?_)
    rw [written_item sa, written_item sb, same]
  · intro same
    rw [← sexpr_nilled a, ← sexpr_nilled b, same]

end Node

end GlyphScript
