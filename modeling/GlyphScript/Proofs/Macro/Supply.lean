import GlyphScript.Macro.RenameTable
import GlyphScript.Proofs.Macro.Symbols

/-!
# Symbols for a whole unit

A gensym serves any number of rename tables and requests of other kinds. What
it gives out was in no use before, whatever has been asked of it, and every
table gives one name one symbol and different names different symbols.
-/

namespace GlyphScript

/-! ## Searching -/

namespace Gensym

/-- The search passes over numbers in use only. -/
theorem freeNumber_first (g : Gensym) (base : String) (fuel number : Nat) :
    number ≤ g.freeNumber base fuel number ∧
      ∀ m, number ≤ m → m < g.freeNumber base fuel number → g.isTaken (g.symbol base m) = true := by
  induction fuel generalizing number with
  | zero =>
    refine ⟨Nat.le_refl number, fun m least less => ?_⟩
    exact absurd less (Nat.not_lt.mpr least)
  | succ fuel ih =>
    unfold freeNumber
    by_cases taken : g.isTaken (g.symbol base number) = true
    · obtain ⟨least, passed⟩ := ih (number + 1)
      simp only [taken, if_true]
      refine ⟨by omega, fun m from_ less => ?_⟩
      by_cases first : m = number
      · rw [first]
        exact taken
      · exact passed m (by omega) less
    · simp only [taken]
      refine ⟨Nat.le_refl number, fun m from_ less => ?_⟩
      exact absurd less (Nat.not_lt.mpr from_)

/-- A symbol ends with the first number behind the last one of its base that makes a free name. -/
theorem fresh_first (g : Gensym) (name : String) :
    ∃ n, g.counters.getD (g.symbolBase name) 0 < n ∧
      (g.fresh name).1 = g.symbol (g.symbolBase name) n ∧
      g.isTaken (g.symbol (g.symbolBase name) n) = false ∧
      ∀ m, g.counters.getD (g.symbolBase name) 0 < m → m < n →
        g.isTaken (g.symbol (g.symbolBase name) m) = true := by
  obtain ⟨least, passed⟩ := g.freeNumber_first (g.symbolBase name) g.taken.size
    (g.counters.getD (g.symbolBase name) 0 + 1)
  refine ⟨_, ?_, rfl, g.isTaken_symbol_freeNumber _ _, fun m from_ less => ?_⟩
  · omega
  · exact passed m from_ less

end Gensym

/-! ## Requests -/

/-- A gensym with the tables over it. -/
structure Supply where
  gensym : Gensym
  tables : Nat → RenameTable

namespace Supply

/-- What is asked of a supply. -/
inductive Request where
  | reserve (names : List String)
  | fresh (name : String)
  /-- The symbol of a name in one of the tables. -/
  | rename (table : Nat) (name : String)

/-- A request with what it has brought. -/
inductive Answer where
  | reserved (names : List String)
  | given (name symbol : String)
  | renamed (table : Nat) (name symbol : String)
  deriving DecidableEq, Repr

/-- Empty tables over a gensym that avoids some names. -/
def start (separator : String) (taken : Std.TreeSet String) : Supply :=
  ⟨Gensym.ofNames separator taken, fun _ => RenameTable.empty⟩

def serve (s : Supply) : Request → Answer × Supply
  | .reserve names => (.reserved names, { s with gensym := s.gensym.reserve names })
  | .fresh name =>
    let (symbol, gensym) := s.gensym.fresh name
    (.given name symbol, { s with gensym })
  | .rename table name =>
    let (symbol, renamed, gensym) := RenameTable.rename name (s.tables table, s.gensym)
    (.renamed table name symbol,
      { gensym, tables := fun t => if t = table then renamed else s.tables t })

/-- Serves one request after the other. -/
def serveAll (s : Supply) : List Request → List Answer
  | [] => []
  | r :: rs => (s.serve r).1 :: (s.serve r).2.serveAll rs

namespace Request

/-- The name that a symbol is asked for. -/
def name? : Request → Option String
  | .reserve _ => none
  | .fresh name | .rename _ name => some name

end Request

namespace Answer

def request : Answer → Request
  | .reserved names => .reserve names
  | .given name _ => .fresh name
  | .renamed table name _ => .rename table name

def symbol? : Answer → Option String
  | .reserved _ => none
  | .given _ symbol | .renamed _ _ symbol => some symbol

/-- The names that are in use from then on. -/
def names : Answer → List String
  | .reserved names => names
  | .given _ symbol | .renamed _ _ symbol => [symbol]

end Answer

/-- Neither a name from the start nor one that the answers so far have put into use. -/
def New (taken : Std.TreeSet String) (log : List Answer) (x : String) : Prop :=
  taken.contains x = false ∧ ∀ a ∈ log, x ∉ a.names

/-- The answer that follows others: a symbol is new, unless the table has given it to the same name
before. -/
def Sound (taken : Std.TreeSet String) (log : List Answer) : Answer → Prop
  | .reserved _ => True
  | .given _ y => New taken log y
  | .renamed t x y =>
    .renamed t x y ∈ log ∨ (∀ z, .renamed t x z ∉ log) ∧ New taken log y

/-! ## What a supply knows -/

/-- The supply has given these answers. -/
structure Recalls (taken : Std.TreeSet String) (log : List Answer) (s : Supply) : Prop where
  used : ∀ x, s.gensym.isTaken x = true ↔ taken.contains x = true ∨ ∃ a ∈ log, x ∈ a.names
  tables : ∀ t x y, (s.tables t).find? x = some y ↔ .renamed t x y ∈ log
  apart : ∀ t x x' y, .renamed t x y ∈ log → .renamed t x' y ∈ log → x = x'

variable {taken : Std.TreeSet String} {log : List Answer} {s : Supply}

theorem recalls_start (separator : String) (taken : Std.TreeSet String) :
    Recalls taken [] (start separator taken) := by
  constructor
  · intro x
    simp [start, Gensym.ofNames, Gensym.isTaken]
  · intro t x y
    simp [start, RenameTable.empty, RenameTable.find?]
  · intro t x x' y given
    simp at given

theorem Recalls.new (h : Recalls taken log s) {x : String} :
    New taken log x ↔ s.gensym.isTaken x = false := by
  rw [← Bool.not_eq_true, h.used x, not_or, not_exists, New, Bool.not_eq_true]
  simp only [not_and]

theorem Recalls.unique (h : Recalls taken log s) {t : Nat} {x y y' : String}
    (given : .renamed t x y ∈ log) (given' : .renamed t x y' ∈ log) : y = y' := by
  have found := (h.tables t x y).mpr given
  have found' := (h.tables t x y').mpr given'
  simpa using found.symm.trans found'

theorem mem_concat {a b : Answer} : a ∈ log ++ [b] ↔ a ∈ log ∨ a = b := by
  simp

/-- A symbol from the gensym is recalled with the answer that it makes. -/
theorem Recalls.used_fresh (h : Recalls taken log s) (name : String) {a : Answer}
    (names : a.names = [(s.gensym.fresh name).1]) (x : String) :
    (s.gensym.fresh name).2.isTaken x = true ↔
      taken.contains x = true ∨ ∃ b ∈ log ++ [a], x ∈ b.names := by
  rw [Gensym.isTaken_snd_fresh, h.used x]
  simp only [mem_concat, or_and_right, exists_or, exists_eq_left, names, List.mem_singleton]
  rw [or_comm, or_assoc]

theorem lookup_push (t : RenameTable) (name symbol x : String) :
    (t.push name symbol).find? x =
      (t.find? x).or (if x = name then some symbol else none) := by
  unfold RenameTable.find? RenameTable.push
  rw [List.lookup_append]
  by_cases same : x = name
  · simp [same]
  · have differs : (x == name) = false := by simp [same]
    simp [List.lookup_cons, same, differs]

/-- One request is answered as it should be, and the answer is recalled. -/
theorem Recalls.serve (h : Recalls taken log s) (r : Request) :
    (s.serve r).1.request = r ∧ Sound taken log (s.serve r).1 ∧
      Recalls taken (log ++ [(s.serve r).1]) (s.serve r).2 := by
  cases r with
  | reserve names =>
    refine ⟨rfl, trivial, ⟨fun x => ?_, fun t x y => ?_, fun t x x' y given given' => ?_⟩⟩
    · rw [Supply.serve, Gensym.isTaken_reserve, or_comm, h.used x]
      simp only [mem_concat, or_and_right, exists_or, exists_eq_left]
      exact or_assoc
    · simpa [Supply.serve, mem_concat] using h.tables t x y
    · simp only [Supply.serve, mem_concat, reduceCtorEq, or_false] at given given'
      exact h.apart t x x' y given given'
  | fresh name =>
    refine ⟨rfl, ?_, ⟨fun x => ?_, fun t x y => ?_, fun t x x' y given given' => ?_⟩⟩
    · exact h.new.mpr (s.gensym.isTaken_fst_fresh name)
    · exact h.used_fresh name rfl x
    · simpa [Supply.serve, mem_concat] using h.tables t x y
    · simp only [Supply.serve, mem_concat, reduceCtorEq, or_false] at given given'
      exact h.apart t x x' y given given'
  | rename table name =>
    cases known : (s.tables table).find? name with
    | some symbol =>
      have answered : .renamed table name symbol ∈ log := (h.tables _ _ _).mp known
      have served : s.serve (.rename table name) = (.renamed table name symbol, s) := by
        have same : (fun t => if t = table then s.tables table else s.tables t) = s.tables := by
          funext t
          by_cases here : t = table
          · rw [if_pos here, here]
          · rw [if_neg here]
        simp only [Supply.serve, RenameTable.rename, known, same]
      have within : ∀ a, a ∈ log ++ [Answer.renamed table name symbol] ↔ a ∈ log := by
        intro a
        rw [mem_concat]
        refine ⟨?_, Or.inl⟩
        rintro (old | rfl)
        · exact old
        · exact answered
      rw [served]
      refine ⟨rfl, .inl answered, ⟨fun x => ?_, fun t x y => ?_, fun t x x' y => ?_⟩⟩
      · simpa only [within] using h.used x
      · simpa only [within] using h.tables t x y
      · simpa only [within] using h.apart t x x' y
    | none =>
      have unasked : ∀ z, .renamed table name z ∉ log := by
        intro z given
        rw [(h.tables table name z).mpr given] at known
        cases known
      have new : New taken log (s.gensym.fresh name).1 :=
        h.new.mpr (s.gensym.isTaken_fst_fresh name)
      have served : s.serve (.rename table name) =
          (.renamed table name (s.gensym.fresh name).1,
            ⟨(s.gensym.fresh name).2, fun t =>
              if t = table then (s.tables table).push name (s.gensym.fresh name).1
              else s.tables t⟩) := by
        simp only [Supply.serve, RenameTable.rename, known]
      have unlisted : ∀ t x, .renamed t x (s.gensym.fresh name).1 ∉ log := by
        intro t x given
        exact new.2 _ given (List.mem_singleton_self _)
      rw [served]
      refine ⟨rfl, .inr ⟨unasked, new⟩, ⟨?_, fun t x y => ?_, fun t x x' y given given' => ?_⟩⟩
      · exact h.used_fresh name rfl
      · by_cases here : t = table
        · subst here
          simp only [if_true, lookup_push, mem_concat, ← h.tables t x y]
          by_cases same : x = name
          · simp [same, known, eq_comm]
          · simp [same]
        · simpa [here, mem_concat] using h.tables t x y
      · rw [mem_concat] at given given'
        rcases given with old | new' <;> rcases given' with old' | new''
        · exact h.apart t x x' y old old'
        · cases new''
          exact absurd old (unlisted _ _)
        · cases new'
          exact absurd old' (unlisted _ _)
        · cases new'
          cases new''
          rfl

/-! ## Runs -/

theorem request_serveAll (s : Supply) (rs : List Request) :
    (s.serveAll rs).map Answer.request = rs := by
  induction rs generalizing s with
  | nil => rfl
  | cons r rs ih =>
    have answered : (s.serve r).1.request = r := by cases r <;> rfl
    rw [serveAll, List.map_cons, ih, answered]

/-- Every answer of a run is as it should be after those before it. -/
theorem Recalls.serveAll (h : Recalls taken log s) (rs : List Request)
    (sound : ∀ before a, before ++ [a] <+: log → Sound taken before a) :
    (∃ s', Recalls taken (log ++ s.serveAll rs) s') ∧
      ∀ before a, before ++ [a] <+: log ++ s.serveAll rs → Sound taken before a := by
  induction rs generalizing s log with
  | nil =>
    simp only [Supply.serveAll, List.append_nil]
    exact ⟨⟨s, h⟩, sound⟩
  | cons r rs ih =>
    obtain ⟨-, here, recalls⟩ := h.serve r
    have sound' : ∀ before a, before ++ [a] <+: log ++ [(s.serve r).1] → Sound taken before a := by
      intro before a within
      rcases List.prefix_concat_iff.mp within with whole | earlier
      · obtain ⟨rfl, same⟩ := List.append_inj' whole rfl
        obtain rfl : a = (s.serve r).1 := by simpa using same
        exact here
      · exact sound before a earlier
    have rest := ih recalls sound'
    rw [List.append_assoc, List.singleton_append] at rest
    exact rest

/-- With the percent sign as the separator the symbols made from identifiers are identifiers. -/
theorem serveAll_lexes (percent : s.gensym.separator = "%")
    (known : ∀ t x y, (s.tables t).find? x = some y → lexesAsIdentifier y = true)
    {rs : List Request} (names : ∀ r ∈ rs, ∀ x ∈ r.name?, lexesAsIdentifier x = true) :
    ∀ a ∈ s.serveAll rs, ∀ y ∈ a.symbol?, lexesAsIdentifier y = true := by
  induction rs generalizing s with
  | nil =>
    intro a ha
    simp [serveAll] at ha
  | cons r rs ih =>
    obtain ⟨here, below⟩ := List.forall_mem_cons.mp names
    have step : (∀ y ∈ (s.serve r).1.symbol?, lexesAsIdentifier y = true) ∧
        (s.serve r).2.gensym.separator = "%" ∧
        ∀ t x y, ((s.serve r).2.tables t).find? x = some y → lexesAsIdentifier y = true := by
      cases r with
      | reserve names => exact ⟨fun y hy => by simp [serve, Answer.symbol?] at hy, percent, known⟩
      | fresh name =>
        have lexes := Gensym.lexes_fresh percent (here name rfl)
        refine ⟨fun y hy => ?_, percent, known⟩
        obtain rfl : (s.gensym.fresh name).1 = y := by simpa [serve, Answer.symbol?] using hy
        exact lexes
      | rename table name =>
        have lexes := Gensym.lexes_fresh percent (here name rfl)
        cases found : (s.tables table).find? name with
        | some symbol =>
          simp only [serve, RenameTable.rename, found]
          refine ⟨fun y hy => ?_, percent, fun t x y hy => ?_⟩
          · obtain rfl : symbol = y := by simpa [Answer.symbol?] using hy
            exact known _ _ _ found
          · by_cases at_ : t = table
            · simp only [at_, if_true] at hy
              exact known _ _ _ hy
            · simp only [at_, if_false] at hy
              exact known _ _ _ hy
        | none =>
          simp only [serve, RenameTable.rename, found]
          refine ⟨fun y hy => ?_, percent, fun t x y hy => ?_⟩
          · obtain rfl : (s.gensym.fresh name).1 = y := by simpa [Answer.symbol?] using hy
            exact lexes
          · by_cases at_ : t = table
            · simp only [at_, if_true, lookup_push, Option.or_eq_some_iff] at hy
              rcases hy with old | ⟨-, new⟩
              · exact known _ _ _ old
              · by_cases same : x = name
                · obtain rfl : (s.gensym.fresh name).1 = y := by simpa [same] using new
                  exact lexes
                · simp [same] at new
            · simp only [at_, if_false] at hy
              exact known _ _ _ hy
    intro a ha
    rcases List.mem_cons.mp ha with rfl | later
    · exact step.1
    · exact ih step.2.1 step.2.2 below a later

/-- All requests are answered. A symbol was neither in use from the start nor reserved or given out
before, unless its table has given it to the same name already; a table gives one name one symbol
and different names different ones; with the percent sign as the separator symbols made from
identifiers are identifiers. However much is in use, the search for a symbol ends, at the first free
number behind the last one given to the base. -/
theorem serveAll_fresh (separator : String) (taken : Std.TreeSet String)
    (requests : List Request) :
    ((start separator taken).serveAll requests).map Answer.request = requests ∧
    (∀ before a, before ++ [a] <+: (start separator taken).serveAll requests →
      Sound taken before a) ∧
    (∀ t x x' y y', .renamed t x y ∈ (start separator taken).serveAll requests →
      .renamed t x' y' ∈ (start separator taken).serveAll requests → (x = x' ↔ y = y')) ∧
    (separator = ({} : Settings).separator →
      (∀ r ∈ requests, ∀ x ∈ r.name?, lexesAsIdentifier x = true) →
      ∀ a ∈ (start separator taken).serveAll requests, ∀ y ∈ a.symbol?,
        lexesAsIdentifier y = true) ∧
    ∀ (g : Gensym) (x : String), ∃ n, g.counters.getD (g.symbolBase x) 0 < n ∧
      (g.fresh x).1 = g.symbol (g.symbolBase x) n ∧
      g.isTaken (g.symbol (g.symbolBase x) n) = false ∧
      ∀ m, g.counters.getD (g.symbolBase x) 0 < m → m < n →
        g.isTaken (g.symbol (g.symbolBase x) m) = true := by
  obtain ⟨⟨s', recalls⟩, sound⟩ := (recalls_start separator taken).serveAll requests (by simp)
  rw [List.nil_append] at recalls sound
  refine ⟨request_serveAll _ requests, sound, ?_, ?_, Gensym.fresh_first⟩
  · intro t x x' y y' given given'
    constructor
    · rintro rfl
      exact recalls.unique given given'
    · rintro rfl
      exact recalls.apart t x x' y given given'
  · intro percent names
    refine serveAll_lexes percent (fun t x y found => ?_) names
    simp [start, RenameTable.empty, RenameTable.find?] at found

/-- Two tables and other requests for one name, one of whose symbols is reserved meanwhile. -/
def sharedRequests : List Request :=
  [.fresh "tmp", .reserve ["tmp%2"], .rename 0 "tmp", .rename 1 "tmp", .rename 0 "tmp", .fresh "a<"]

theorem serveAll_shared :
    (start "%" (.ofList ["tmp%3"])).serveAll sharedRequests =
      [.given "tmp" "tmp%1", .reserved ["tmp%2"], .renamed 0 "tmp" "tmp%4",
        .renamed 1 "tmp" "tmp%5", .renamed 0 "tmp" "tmp%4", .given "a<" "a<_%1"] := by
  decide +kernel

/-- The case of `sharedRequests`, all of them for identifiers. -/
theorem serveAll_fresh_shared :
    (∀ r ∈ sharedRequests, ∀ x ∈ r.name?, lexesAsIdentifier x = true) ∧
    (∀ a ∈ (start "%" (.ofList ["tmp%3"])).serveAll sharedRequests, ∀ y ∈ a.symbol?,
      lexesAsIdentifier y = true) ∧
    Sound (.ofList ["tmp%3"]) [.given "tmp" "tmp%1", .reserved ["tmp%2"]]
      (.renamed 0 "tmp" "tmp%4") := by
  have names : ∀ r ∈ sharedRequests, ∀ x ∈ r.name?, lexesAsIdentifier x = true := by
    decide
  obtain ⟨-, sound, -, lexes, -⟩ := serveAll_fresh "%" (.ofList ["tmp%3"]) sharedRequests
  refine ⟨names, lexes rfl names, sound _ _ ?_⟩
  rw [serveAll_shared]
  exact ⟨[.renamed 1 "tmp" "tmp%5", .renamed 0 "tmp" "tmp%4", .given "a<" "a<_%1"], rfl⟩

end Supply

end GlyphScript
