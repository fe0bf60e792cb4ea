import GlyphScript.Proofs.Macro.Fixpoint
import GlyphScript.Proofs.Stability.Clean

/-!
# Names installed by a pass

A pass keeps a stack of scopes and lists names in the innermost one whenever it
replaces a call. Seen from the trees, with no stack, every body lists what the
calls install that stand in it and in no body inside it.
-/

namespace GlyphScript

/-! ## Lists without repetitions -/

/-- The names one after the other, each unless it is listed by then. -/
def listNames (listed names : List String) : List String :=
  names.foldl (fun listed x => if x ∈ listed then listed else listed ++ [x]) listed

section

variable {listed names more : List String} {x : String}

@[simp] theorem listNames_nil : listNames listed [] = listed := rfl

@[simp] theorem listNames_cons : listNames listed (x :: names) =
    listNames (if x ∈ listed then listed else listed ++ [x]) names := rfl

theorem listNames_append :
    listNames listed (names ++ more) = listNames (listNames listed names) more :=
  List.foldl_append

theorem mem_listNames : x ∈ listNames listed names ↔ x ∈ listed ∨ x ∈ names := by
  induction names generalizing listed with
  | nil => simp
  | cons y names ih =>
    rw [listNames_cons, ih]
    split <;> grind

theorem nodup_listNames (h : listed.Nodup) : (listNames listed names).Nodup := by
  induction names generalizing listed with
  | nil => exact h
  | cons y names ih =>
    rw [listNames_cons]
    split
    · exact ih h
    · rename_i new
      exact ih (List.nodup_append.mpr ⟨h, List.nodup_singleton y, by grind⟩)

/-- Names that do not repeat are listed as well all at once. -/
theorem addNames_eq_listNames (h : names.Nodup) : addNames listed names = listNames listed names := by
  induction names generalizing listed with
  | nil => exact List.append_nil listed
  | cons y names ih =>
    obtain ⟨new, rest⟩ := List.nodup_cons.mp h
    rw [listNames_cons]
    split
    · rename_i old
      rw [← ih rest, addNames, addNames, List.filter_cons_of_neg (by simpa using old)]
    · rename_i fresh
      rw [← ih rest, addNames, addNames, List.filter_cons_of_pos (by simpa using fresh),
        List.append_assoc, List.singleton_append]
      refine congrArg (listed ++ y :: ·) (List.filter_congr fun z hz => ?_)
      have : z ≠ y := fun e => new (e ▸ hz)
      simp [this]

/-- Nothing is lost when the names have been listed on their own before. -/
theorem listNames_listNames_nil : listNames listed (listNames [] names) = listNames listed names := by
  induction names using List.reverseRecOn with
  | nil => rfl
  | append_singleton names y ih =>
    rw [listNames_append, listNames_append, listNames_cons, listNames_cons, listNames_nil,
      listNames_nil]
    split
    · rename_i old
      have : y ∈ listNames listed names := by
        simpa [mem_listNames] using Or.inr (by simpa [mem_listNames] using old)
      rw [ih, if_pos this]
    · rw [listNames_append, ih, listNames_cons, listNames_nil]

end

theorem nodup_eraseDups (names : List String) : names.eraseDups.Nodup := by
  induction names using List.reverseRecOn with
  | nil => exact List.nodup_nil
  | append_singleton names y ih =>
    rw [List.eraseDups_append]
    by_cases old : y ∈ names
    · simpa [List.removeAll, old] using ih
    · have new : [y].removeAll names = [y] := by simp [List.removeAll, old]
      have alone : [y].eraseDups = [y] := by simp [List.eraseDups_cons]
      rw [new, alone]
      refine List.nodup_append.mpr ⟨ih, List.nodup_singleton y, fun x hx z hz => ?_⟩
      rintro rfl
      exact old (List.mem_singleton.mp hz ▸ List.mem_eraseDups.mp hx)

theorem Node.nodup_binderNames (n : Node) : n.binderNames.Nodup := nodup_eraseDups _

/-! ## Calls that are replaced -/

/-- A call that a pass replaces, and what by. -/
structure Site where
  call : MacroCall
  outcome : PassM.Outcome

namespace Site

/-- The names that the site installs in the scope around it. -/
def installed (x : Site) : List String :=
  match x.outcome with
  | .deferred => []
  | .expanded e => e.injected

/-- What the site is replaced by in a unit with the macros of `r`: a call of a macro of the back end
is deferred, any other expanded, and what it installs are the names that the expansion of a macro
that injects binds. -/
inductive Made (r : Registry) : Site → Prop where
  | deferred {c d} : r.find? c.name = some d → d.phase = .compile → Made r ⟨c, .deferred⟩
  | expanded {c d e u u'} : r.find? c.name = some d → d.phase ≠ .compile → u.registry = r →
    Work.expandCall c u = (.ok e, u') →
    e.injected = (if d.hygiene = .inject then e.node.binderNames else []) →
    Made r ⟨c, .expanded e⟩

theorem Made.nodup {r : Registry} {x : Site} (h : x.Made r) : x.installed.Nodup := by
  cases h with
  | deferred => exact List.nodup_nil
  | expanded _ _ _ _ injected =>
    show List.Nodup (Expansion.injected _)
    rw [injected]
    split
    · exact Node.nodup_binderNames _
    · exact List.nodup_nil

/-- What stands in the place of a statement that the site is. -/
def asStatement (x : Site) (span : Span) : Slot Node :=
  match x.outcome with
  | .deferred => .one (Node.expressionStmt span x.call.deferredNode)
  | .expanded e => .many (e.asStatements span)

def asExpression (x : Site) : Except ExpansionFault Node :=
  match x.outcome with
  | .deferred => .ok x.call.deferredNode
  | .expanded e => e.asExpression x.call

end Site

/-- The head of a scope in which the sites have installed their names. -/
def Head.listing (sites : List Site) : Head → Head
  | .program injected => .program (listNames injected (sites.flatMap Site.installed))
  | .block injected => .block (listNames injected (sites.flatMap Site.installed))
  | head => head

/-! ## What a pass makes of a tree -/

/-- Nodes give way one by one, and their sites come one after the other. -/
inductive RewrittenList (R : Node → Slot Node → List Site → Prop) :
    List Node → List Node → List Site → Prop where
  | nil : RewrittenList R [] [] []
  | cons {n s sites ns ns' rest} : R n s sites → RewrittenList R ns ns' rest →
    RewrittenList R (n :: ns) (s.toList ++ ns') (sites ++ rest)

inductive RewrittenSlots (R : Node → Slot Node → List Site → Prop) :
    List (Slot Node) → List (Slot Node) → List Site → Prop where
  | nil : RewrittenSlots R [] [] []
  | absent {slots slots' rest} : RewrittenSlots R slots slots' rest →
    RewrittenSlots R (.absent :: slots) (.absent :: slots') rest
  | one {n s sites slots slots' rest} : R n s sites → RewrittenSlots R slots slots' rest →
    RewrittenSlots R (.one n :: slots) (s :: slots') (sites ++ rest)
  | many {ns ns' sites slots slots' rest} : RewrittenList R ns ns' sites →
    RewrittenSlots R slots slots' rest →
    RewrittenSlots R (.many ns :: slots) (.many ns' :: slots') (sites ++ rest)

/-- What a pass puts into the place of a node, and the sites in the node that stand in no scope
inside it. A scope lists what its own sites install and hands on none of them. -/
inductive Node.Rewritten (r : Registry) : Node → Slot Node → List Site → Prop where
  | sealed {n} : n.head.isSealed = true → Rewritten r n (.one n) []
  | statement {n} {x : Site} : PassM.pendingStatement? r n = some x.call → x.Made r →
    Rewritten r n (x.asStatement n.span) [x]
  | expression {n m} {x : Site} : MacroCall.pending? r n = some x.call → x.Made r →
    x.asExpression = .ok m → Rewritten r n (.one m) [x]
  | scope {span head slots slots' sites} : head.isScope = true →
    RewrittenSlots (Rewritten r) slots slots' sites →
    Rewritten r (.mk span head slots) (.one (.mk span (head.listing sites) slots')) []
  | node {span head slots slots' sites} : head.isSealed = false → head.isScope = false →
    PassM.pendingStatement? r (.mk span head slots) = none →
    MacroCall.pending? r (.mk span head slots) = none →
    RewrittenSlots (Rewritten r) slots slots' sites →
    Rewritten r (.mk span head slots) (.one (.mk span head slots')) sites

/-! ## The stack of scopes -/

/-- The innermost scope lists further names. -/
def charge (names : List String) : List (List String) → List (List String)
  | [] => []
  | scope :: outer => listNames scope names :: outer

@[simp] theorem charge_nil (scopes : List (List String)) : charge [] scopes = scopes := by
  cases scopes <;> rfl

theorem charge_append (names more : List String) (scopes : List (List String)) :
    charge (names ++ more) scopes = charge more (charge names scopes) := by
  cases scopes with
  | nil => rfl
  | cons scope outer => simp only [charge, listNames_append]

namespace PassM

variable {α β : Type} {r : Registry}

/-- The computation leaves the macros alone and lists in the innermost scope what some sites
install. -/
def Charges (r : Registry) (x : PassM α) (p : α → List Site → Prop) : Prop :=
  ∀ q u a q' u', u.registry = r → Ends x q u a q' u' →
    u'.registry = r ∧
      ∃ sites, q'.scopes = charge (sites.flatMap Site.installed) q.scopes ∧ p a sites

namespace Charges

variable {x : PassM α} {f : α → PassM β} {p p' : α → List Site → Prop} {a : α}

theorem pure (h : p a []) : Charges r (Pure.pure a) p := by
  intro q u a q' u' hu run
  obtain ⟨rfl, rfl, rfl⟩ := ends_pure.mp run
  exact ⟨hu, [], (charge_nil _).symm, h⟩

theorem bind {p'' : β → List Site → Prop} (hx : Charges r x p)
    (hf : ∀ a sites, p a sites → Charges r (f a) fun b rest => p'' b (sites ++ rest)) :
    Charges r (x >>= f) p'' := by
  intro q u b q'' u'' hu run
  obtain ⟨a, q', u', first, second⟩ := ends_bind.mp run
  obtain ⟨hu', sites, charged, ha⟩ := hx q u a q' u' hu first
  obtain ⟨hu'', rest, charged', hb⟩ := hf a sites ha q' u' b q'' u'' hu' second
  refine ⟨hu'', sites ++ rest, ?_, hb⟩
  rw [List.flatMap_append, charge_append, ← charged, charged']

theorem mono (hx : Charges r x p) (h : ∀ a sites, p a sites → p' a sites) : Charges r x p' := by
  intro q u a q' u' hu run
  obtain ⟨hu', sites, charged, ha⟩ := hx q u a q' u' hu run
  exact ⟨hu', sites, charged, h a sites ha⟩

theorem map {g : α → β} {p'' : β → List Site → Prop} (hx : Charges r x p)
    (h : ∀ a sites, p a sites → p'' (g a) sites) : Charges r (g <$> x) p'' := by
  rw [map_eq_pure_bind]
  refine hx.bind fun a sites ha => Charges.pure ?_
  rw [List.append_nil]
  exact h a sites ha

end Charges

/-! ## Replacing calls -/

theorem inject_ends {c : MacroCall} {e : Expansion} {q q' : PassState} {u u' : UnitState} {a : Unit}
    (made : Site.Made r ⟨c, .expanded e⟩) (h : Ends (inject e.injected) q u a q' u') :
    q'.scopes = charge e.injected q.scopes ∧ u' = u := by
  have once (scope : List String) : addNames scope e.injected = listNames scope e.injected :=
    addNames_eq_listNames made.nodup
  obtain ⟨replacements, last, _ | ⟨scope, outer⟩⟩ := q
  · cases h
    exact ⟨rfl, rfl⟩
  · cases h
    exact ⟨by simp only [charge, once], rfl⟩

/-- The call gives way, and it is the one site. -/
theorem charges_replaceCall (settings : Settings) (c : MacroCall) :
    Charges r (replaceCall settings c) fun o sites =>
      sites = [⟨c, o⟩] ∧ Site.Made r ⟨c, o⟩ := by
  intro q u o q' u' hu run
  subst hu
  unfold replaceCall at run
  obtain ⟨d, q₁, u₁, called, run₁⟩ := ends_bind.mp run
  obtain ⟨find, rfl⟩ := ends_work.mp called
  obtain ⟨found, rfl⟩ := Work.calledMacro_ok.mp find
  obtain ⟨_, q₂, u₂, counted, run₂⟩ := ends_bind.mp run₁
  obtain ⟨rfl, rfl⟩ := countReplacement_ends counted
  split at run₂
  · rename_i compile
    obtain ⟨rfl, rfl, rfl⟩ := ends_pure.mp run₂
    exact ⟨rfl, [⟨c, .deferred⟩], (charge_nil _).symm, rfl, .deferred found compile⟩
  · rename_i phase
    obtain ⟨e, q₃, u₃, expanded, run₃⟩ := ends_bind.mp run₂
    obtain ⟨ran, rfl⟩ := ends_work.mp expanded
    obtain ⟨_, q₄, u₄, injected, run₄⟩ := ends_bind.mp run₃
    obtain ⟨rfl, rfl, rfl⟩ := ends_pure.mp run₄
    obtain ⟨d', -, found', -, -, names, registry, -⟩ := Work.expandCall_ok ran
    obtain rfl : d = d' := Option.some.inj (found.symm.trans found')
    have made : Site.Made u₂.registry ⟨c, .expanded e⟩ := .expanded found phase rfl ran names
    obtain ⟨charged, rfl⟩ := inject_ends made injected
    refine ⟨registry, [⟨c, .expanded e⟩], ?_, rfl, made⟩
    rw [charged, List.flatMap_singleton]
    rfl

theorem charges_replaceStatement (settings : Settings) (span : Span) (c : MacroCall) :
    Charges r (replaceStatement settings span c) fun s sites =>
      ∃ x : Site, sites = [x] ∧ x.call = c ∧ x.Made r ∧ s = x.asStatement span := by
  refine (charges_replaceCall settings c).bind fun o sites replaced => ?_
  obtain ⟨only, made⟩ := replaced
  cases o with
  | deferred => exact .pure ⟨⟨c, .deferred⟩, by rw [only]; rfl, rfl, made, rfl⟩
  | expanded e => exact .pure ⟨⟨c, .expanded e⟩, by rw [only]; rfl, rfl, made, rfl⟩

theorem charges_replaceExpression (settings : Settings) (c : MacroCall) :
    Charges r (replaceExpression settings c) fun s sites =>
      ∃ (x : Site) (m : Node), sites = [x] ∧ x.call = c ∧ x.Made r ∧ x.asExpression = .ok m ∧
        s = .one m := by
  refine (charges_replaceCall settings c).bind fun o sites replaced => ?_
  obtain ⟨only, made⟩ := replaced
  cases o with
  | deferred => exact .pure ⟨⟨c, .deferred⟩, _, by rw [only]; rfl, rfl, made, rfl, rfl⟩
  | expanded e =>
    refine Charges.bind (p := fun m none => e.asExpression c = .ok m ∧ none = []) ?_ ?_
    · intro q u m q' u' hu run
      obtain ⟨ran, rfl⟩ := ends_work.mp run
      obtain ⟨expression, rfl⟩ := Work.ofExpansion_ok.mp ran
      exact ⟨hu, [], (charge_nil _).symm, expression, rfl⟩
    · rintro m _ ⟨expression, rfl⟩
      exact .pure ⟨⟨c, .expanded e⟩, m, by rw [only]; rfl, rfl, made, expression, rfl⟩

/-! ## Whole trees -/

theorem charges_list {settings : Settings} {ns : List Node}
    (h : ∀ n ∈ ns, Charges r (n.transformM (transform settings) ()) (n.Rewritten r)) :
    Charges r (Node.transformListM (transform settings) () ns)
      (RewrittenList (Node.Rewritten r) ns) := by
  induction ns with
  | nil => exact .pure .nil
  | cons n ns ih =>
    rw [Node.transformListM]
    refine (h n List.mem_cons_self).bind fun s sites first => ?_
    refine (ih fun n hn => h n (List.mem_cons_of_mem _ hn)).bind fun ns' rest others => .pure ?_
    rw [List.append_nil]
    exact .cons first others

theorem charges_slots {settings : Settings} {slots : List (Slot Node)}
    (h : ∀ s ∈ slots, ∀ n ∈ s.toList,
      Charges r (n.transformM (transform settings) ()) (n.Rewritten r)) :
    Charges r (Node.transformSlotsM (transform settings) () slots)
      (RewrittenSlots (Node.Rewritten r) slots) := by
  induction slots with
  | nil => exact .pure .nil
  | cons s slots ih =>
    have others := ih fun s hs => h s (List.mem_cons_of_mem _ hs)
    have here := h s List.mem_cons_self
    cases s with
    | absent =>
      rw [Node.transformSlotsM]
      exact others.bind fun slots' rest done => .pure (by rw [List.append_nil]; exact .absent done)
    | one n =>
      rw [Node.transformSlotsM]
      refine (here n List.mem_cons_self).bind fun s' sites first => ?_
      refine others.bind fun slots' rest done => .pure ?_
      rw [List.append_nil]
      exact .one first done
    | many ns =>
      rw [Node.transformSlotsM]
      refine (charges_list here).bind fun ns' sites first => ?_
      refine others.bind fun slots' rest done => .pure ?_
      rw [List.append_nil]
      exact .many first done

/-- A node that is no scope is a site and gives way, or it is none. -/
def Entered (r : Registry) (n : Node) : Step Unit (Slot Node) → List Site → Prop
  | .done s, sites => n.Rewritten r s sites
  | .inside _, sites =>
    sites = [] ∧ pendingStatement? r n = none ∧ MacroCall.pending? r n = none

theorem charges_enter {settings : Settings} {n : Node} (hs : n.head.isSealed = false)
    (hh : n.head.isScope = false) : Charges r (enter settings n) (Entered r n) := by
  intro q u step q' u' hu run
  rw [Ends, enter_other hs hh, hu] at run
  refine (?_ : Charges r _ (Entered r n)) q u step q' u' hu run
  cases statement : pendingStatement? r n with
  | some c =>
    refine (charges_replaceStatement settings n.span c).bind fun s sites made => .pure ?_
    obtain ⟨x, rfl, rfl, made, rfl⟩ := made
    exact .statement statement made
  | none =>
    cases expression : MacroCall.pending? r n with
    | some c =>
      refine (charges_replaceExpression settings c).bind fun s sites made => .pure ?_
      obtain ⟨x, m, rfl, rfl, made, stands, rfl⟩ := made
      exact .expression expression made stands
    | none => exact .pure ⟨rfl, statement, expression⟩

theorem charges_other {settings : Settings} {span : Span} {head : Head} {slots : List (Slot Node)}
    (hs : head.isSealed = false) (hh : head.isScope = false)
    (inner : Charges r (Node.transformSlotsM (transform settings) () slots)
      (RewrittenSlots (Node.Rewritten r) slots)) :
    Charges r ((Node.mk span head slots).transformM (transform settings) ())
      (Node.Rewritten r (.mk span head slots)) := by
  rw [Node.transformM]
  refine (charges_enter (n := .mk span head slots) hs hh).bind fun step sites entered => ?_
  cases step with
  | done s =>
    refine .pure ?_
    rw [List.append_nil]
    exact entered
  | inside _ =>
    obtain ⟨rfl, statement, expression⟩ := entered
    refine inner.bind fun slots' sites done => ?_
    intro q u s q' u' hu run
    cases (leave_other (n := .mk span head slots') hh q u).symm.trans run
    refine ⟨hu, [], (charge_nil _).symm, ?_⟩
    simpa using Node.Rewritten.node hs hh statement expression done

/-- Between entering and leaving a scope the sites are charged to it, and none to the scope
around. -/
theorem charges_scope {settings : Settings} {span : Span} {head : Head} {slots : List (Slot Node)}
    (hh : head.isScope = true)
    (inner : Charges r (Node.transformSlotsM (transform settings) () slots)
      (RewrittenSlots (Node.Rewritten r) slots)) :
    Charges r ((Node.mk span head slots).transformM (transform settings) ())
      (Node.Rewritten r (.mk span head slots)) := by
  intro q u s q' u' hu run
  rw [Node.transformM] at run
  obtain ⟨step, q₁, u₁, entered, run₁⟩ := ends_bind.mp run
  cases (enter_scope (n := .mk span head slots) hh q u).symm.trans entered
  obtain ⟨slots', q₂, u₂, inside, run₂⟩ := ends_bind.mp run₁
  obtain ⟨registry, sites, charged, done⟩ := inner _ _ _ _ _ hu inside
  have made : (Node.mk span head slots).Rewritten r
      (.one (.mk span (head.listing sites) slots')) [] := .scope hh done
  cases head
  case program injected | block injected =>
    obtain ⟨names, q₃, u₃, closed, run₃⟩ := ends_bind.mp run₂
    obtain ⟨scopes, top, rfl, rfl⟩ := closeScope_ends.mp closed
    obtain ⟨rfl, rfl, rfl⟩ := ends_pure.mp run₃
    obtain ⟨rfl, rfl⟩ := List.cons.inj (top.symm.trans charged)
    refine ⟨registry, [], (charge_nil _).symm, ?_⟩
    rw [addNames_eq_listNames (nodup_listNames List.nodup_nil), listNames_listNames_nil]
    exact made
  all_goals cases hh

/-- A pass charges every call that it replaces to the innermost scope around the call. -/
theorem charges_transform (settings : Settings) (n : Node) :
    Charges r (n.transformM (transform settings) ()) (n.Rewritten r) := by
  induction n using Node.induction_on with
  | step span head slots ih =>
    have inner : Charges r (Node.transformSlotsM (transform settings) () slots)
        (RewrittenSlots (Node.Rewritten r) slots) := charges_slots ih
    cases hs : head.isSealed with
    | true =>
      intro q u s q' u' hu run
      rw [Node.transformM] at run
      obtain ⟨step, q₁, u₁, entered, run₁⟩ := ends_bind.mp run
      cases (enter_sealed (n := .mk span head slots) hs q u).symm.trans entered
      obtain ⟨rfl, rfl, rfl⟩ := ends_pure.mp run₁
      exact ⟨hu, [], (charge_nil _).symm, .sealed hs⟩
    | false =>
      cases hh : head.isScope with
      | true => exact charges_scope hh inner
      | false => exact charges_other hs hh inner

end PassM

/-! ## Names listed once -/

/-- The names that a scope lists. -/
def Head.injected : Head → List String
  | .program injected | .block injected => injected
  | _ => []

/-- No scope in the tree lists a name twice. -/
def Node.ListsOnce (n : Node) : Prop := n.Everywhere (·.head.injected.Nodup)

instance (n : Node) : Decidable n.ListsOnce :=
  inferInstanceAs (Decidable (n.Everywhere (·.head.injected.Nodup)))

/-- No scope in the rules and in the template does. -/
structure MacroDefinition.ListsOnce (d : MacroDefinition) : Prop where
  rules : ∀ rule ∈ d.rules, rule.ListsOnce
  template : ∀ q, d.template = some q → q.ListsOnce

theorem Head.injected_of_not_scope {h : Head} (hh : h.isScope = false) : h.injected = [] := by
  cases h
  case program | block => cases hh
  all_goals rfl

theorem Head.nodup_listing {h : Head} (once : h.injected.Nodup) (sites : List Site) :
    (h.listing sites).injected.Nodup := by
  cases h
  case program injected | block injected => exact nodup_listNames once
  all_goals exact once

/-- Renaming what a node binds is no matter for scopes. -/
theorem Head.Renamed.injected {R : String → String → Prop} {h h' : Head} (r : Renamed R h h') :
    h'.injected = h.injected := by
  rcases r.cases with rfl | ⟨own, own'⟩
  · rfl
  · rw [injected_of_not_scope (plain_of_ownNames own).2,
      injected_of_not_scope (plain_of_ownNames own').2]

namespace Node

variable {span span' : Span} {head head' : Head} {slots slots' : List (Slot Node)}

theorem ListsOnce.node (own : head'.injected = head.injected)
    (rel : List.Forall₂ (Slot.Rel fun n m => n.ListsOnce → m.ListsOnce) slots slots')
    (once : (mk span head slots).ListsOnce) : (mk span' head' slots').ListsOnce := by
  obtain ⟨here, below⟩ := everywhere_mk.mp once
  refine everywhere_mk.mpr ⟨own ▸ here, fun s' hs' m hm => ?_⟩
  obtain ⟨s, hs, r⟩ := exists_of_mem_right rel hs'
  obtain ⟨n, hn, kept⟩ := exists_of_mem_right r.toList hm
  exact kept (below s hs n hn)

theorem isolate_listsOnce {keep : List String} {g : Gensym} (n : Node) (depth : Nat) :
    (isolation g).holds (n.transformM (isolating keep) depth)
      fun (m : Node) => n.ListsOnce → m.ListsOnce := by
  refine (isolation g).transformM (R := fun _ n (m : Node) => n.ListsOnce → m.ListsOnce)
    (E := fun _ _ _ => True) (fun _ _ => (isolation g).pure trivial) ?_ n depth
  intro d span head slots _ slots' _ rel
  have rel := rel.imp fun _ _ r => Guarantee.Filled.rel r
  by_cases hd : d = 0
  · simp only [isolating, if_pos hd]
    refine (isolation g).bind (isolatedHead_renamed head) fun head' renamed => ?_
    exact (isolation g).pure (.node renamed.injected rel)
  · simp only [isolating, if_neg hd]
    exact (isolation g).pure (.node rfl rel)

theorem substitute_listsOnce {f : Filling} (hf : ∀ x ∈ f.bindings, x.2.ListsOnce) (n : Node)
    (depth : Nat) : (Guarantee.except ExpansionFault).holds (n.transformM f.transform depth)
      fun (m : Node) => n.ListsOnce → m.ListsOnce := by
  let G := Guarantee.except ExpansionFault
  refine G.transformM (R := fun _ n (m : Node) => n.ListsOnce → m.ListsOnce)
    (E := fun _ n _ => ∀ x, n.head ≠ .identifier x) ?_ ?_ n depth
  · intro d n
    obtain ⟨span, head, slots⟩ := n
    cases head
    case identifier x =>
      refine G.pure fun once => ?_
      by_cases hd : d = 0
      · rw [if_pos hd]
        cases bound : f.bindings.lookup x with
        | none => exact once
        | some m => exact hf _ (mem_of_lookup bound)
      · rw [if_neg hd]
        exact once
    all_goals exact G.pure fun x h => by cases h
  · intro d span head slots _ slots' hh rel
    have rel := rel.imp fun _ _ r => Guarantee.Filled.rel r
    unfold Filling.transform
    dsimp only
    split
    · rename_i e isUnquote made
      obtain rfl : slots' = [.one e] := made
      split
      · refine G.pure fun once => ?_
        have kept : (mk span head [.one e]).ListsOnce := once.node rfl rel
        exact (everywhere_mk.mp kept).2 _ List.mem_cons_self e List.mem_cons_self
      · exact G.pure (.node rfl rel)
    · split
      · refine G.bind (G.mapBindersM (R := fun _ _ => True) (fun _ _ _ _ _ => trivial) hh) ?_
        exact fun head' renamed => G.pure (.node renamed.injected rel)
      · exact G.pure (.node rfl rel)

end Node

section

variable {c : MacroCall} {s s' : UnitState} {e : Expansion} {r : Registry}

theorem passes_listsOnce (args : ∀ a ∈ c.args, a.ListsOnce) {n : Node} (h : c.Passes n) :
    n.ListsOnce := by
  rcases h.offers with ⟨a, ha, hn⟩ | rfl
  · exact (args a ha).of_mem_walk hn
  · refine Node.everywhere_mk.mpr ⟨List.nodup_nil, fun slot hs a ha => ?_⟩
    rw [List.mem_singleton.mp hs] at ha
    exact args a ha

/-- A call expands to a tree that lists names once if its macro and its arguments do. -/
theorem expandCall_listsOnce (run : (Work.expandCall c).run s = (.ok e, s'))
    (hr : ∀ d ∈ s.registry.macros, d.ListsOnce) (args : ∀ a ∈ c.args, a.ListsOnce) :
    e.node.ListsOnce := by
  obtain ⟨d, sel, called, selected, filled, -⟩ := Work.expandCall_ok run
  have hd := hr d (List.mem_of_find?_eq_some called)
  obtain ⟨from', passed⟩ := d.select_ok selected
  have template : sel.template.ListsOnce := by
    split at from'
    · obtain ⟨q, hq, ht⟩ := from'
      exact (hd.template q hq).child ht
    · obtain ⟨rule, hrule, ht⟩ := from'
      exact (hd.rules rule hrule).child ht
  have prepared : (sel.prepared d.hygiene s).ListsOnce := by
    cases d.hygiene with
    | isolate =>
      exact (Node.isolate_listsOnce sel.template 0 (RenameTable.empty, s.gensym)
        (.start s.gensym)).1 template
    | capture | inject => exact template
  have bound : ∀ x ∈ (sel.filling c.name).bindings, x.2.ListsOnce := fun x hx =>
    passes_listsOnce args (passed x hx)
  exact Node.substitute_listsOnce bound _ _ _ filled prepared

theorem listsOnce_deferredNode (args : ∀ a ∈ c.args, a.ListsOnce) : c.deferredNode.ListsOnce := by
  refine Node.everywhere_mk.mpr ⟨List.nodup_nil, fun slot hs a ha => ?_⟩
  rw [List.mem_singleton.mp hs] at ha
  exact args a ha

theorem listsOnce_expressionStmt {n : Node} (h : n.ListsOnce) (span : Span) :
    (Node.expressionStmt span n).ListsOnce := by
  refine Node.everywhere_mk.mpr ⟨List.nodup_nil, fun slot hs a ha => ?_⟩
  rw [List.mem_singleton.mp hs] at ha
  rwa [List.mem_singleton.mp ha]

namespace Site

variable {x : Site}

theorem Made.asStatement_listsOnce (h : x.Made r) (hr : ∀ d ∈ r.macros, d.ListsOnce)
    (args : ∀ a ∈ x.call.args, a.ListsOnce) (span : Span) :
    ∀ m ∈ (x.asStatement span).toList, m.ListsOnce := by
  cases h with
  | deferred =>
    refine List.forall_mem_singleton.mpr ?_
    exact listsOnce_expressionStmt (listsOnce_deferredNode args) span
  | expanded _ _ registry run _ =>
    have made := expandCall_listsOnce run (registry ▸ hr) args
    intro m hm
    dsimp only [asStatement, Slot.toList, Expansion.asStatements] at hm
    split at hm
    · exact made.of_mem_walk (Node.statements_mem_walk hm)
    · rw [List.mem_singleton.mp hm]
      exact listsOnce_expressionStmt made span

theorem Made.asExpression_listsOnce (h : x.Made r) (hr : ∀ d ∈ r.macros, d.ListsOnce)
    (args : ∀ a ∈ x.call.args, a.ListsOnce) {m : Node} (hm : x.asExpression = .ok m) :
    m.ListsOnce := by
  cases h with
  | deferred =>
    cases hm
    exact listsOnce_deferredNode args
  | @expanded _ _ e _ _ _ _ registry run _ =>
    have made := expandCall_listsOnce run (registry ▸ hr) args
    dsimp only [asExpression, Expansion.asExpression] at hm
    split at hm
    · split at hm
      · rename_i span expression statements
        cases hm
        have stmt : Node.mk span .expressionStmt [.one m] ∈ e.node.walk :=
          Node.statements_mem_walk (statements ▸ List.mem_cons_self)
        exact (made.of_mem_walk stmt).child List.mem_cons_self
      · cases hm
    · cases hm
      exact made

end Site

theorem RewrittenList.exists_of_mem {R : Node → Slot Node → List Site → Prop} {ns ns' : List Node}
    {sites : List Site} (h : RewrittenList R ns ns' sites) {m : Node} (hm : m ∈ ns') :
    ∃ n ∈ ns, ∃ s own, R n s own ∧ m ∈ s.toList := by
  induction h with
  | nil => cases hm
  | cons first _ ih =>
    rcases List.mem_append.mp hm with hm | hm
    · exact ⟨_, List.mem_cons_self, _, _, first, hm⟩
    · obtain ⟨n, hn, found⟩ := ih hm
      exact ⟨n, List.mem_cons_of_mem _ hn, found⟩

/-- Every tree after a pass stands for one before it. -/
theorem RewrittenSlots.exists_of_mem {R : Node → Slot Node → List Site → Prop}
    {slots slots' : List (Slot Node)} {sites : List Site} (h : RewrittenSlots R slots slots' sites)
    {t : Slot Node} (ht : t ∈ slots') {m : Node} (hm : m ∈ t.toList) :
    ∃ s ∈ slots, ∃ n ∈ s.toList, ∃ s' own, R n s' own ∧ m ∈ s'.toList := by
  induction h with
  | nil => cases ht
  | absent _ ih =>
    rcases List.mem_cons.mp ht with rfl | ht
    · cases hm
    · obtain ⟨s, hs, found⟩ := ih ht
      exact ⟨s, List.mem_cons_of_mem _ hs, found⟩
  | one first _ ih =>
    rcases List.mem_cons.mp ht with rfl | ht
    · exact ⟨_, List.mem_cons_self, _, List.mem_cons_self, _, _, first, hm⟩
    · obtain ⟨s, hs, found⟩ := ih ht
      exact ⟨s, List.mem_cons_of_mem _ hs, found⟩
  | many first _ ih =>
    rcases List.mem_cons.mp ht with rfl | ht
    · exact ⟨_, List.mem_cons_self, first.exists_of_mem hm⟩
    · obtain ⟨s, hs, found⟩ := ih ht
      exact ⟨s, List.mem_cons_of_mem _ hs, found⟩

/-- A pass brings in no scope that lists a name twice. -/
theorem Node.Rewritten.listsOnce (hr : ∀ d ∈ r.macros, d.ListsOnce) (n : Node) :
    ∀ {s : Slot Node} {sites : List Site}, n.Rewritten r s sites → n.ListsOnce →
      ∀ m ∈ s.toList, m.ListsOnce := by
  induction n using Node.induction_on with
  | step span head slots ih =>
    intro s sites h once
    obtain ⟨own, below⟩ := Node.everywhere_mk.mp once
    have node {head' : Head} {slots' : List (Slot Node)} {own' : List Site}
        (h' : head'.injected.Nodup) (inner : RewrittenSlots (Node.Rewritten r) slots slots' own') :
        ∀ m ∈ (Slot.one (mk span head' slots')).toList, m.ListsOnce := by
      refine List.forall_mem_singleton.mpr (Node.everywhere_mk.mpr ⟨h', fun t ht m hm => ?_⟩)
      obtain ⟨s, hs, n, hn, s', _, rewritten, hm⟩ := inner.exists_of_mem ht hm
      exact ih s hs n hn rewritten (below s hs n hn) m hm
    have args {k : Node} {c : MacroCall} (calls : k.Calls c) (hk : k.ListsOnce) :
        ∀ a ∈ c.args, a.ListsOnce := fun a ha => hk.of_mem_walk (calls.args a ha)
    cases h with
    | sealed => exact List.forall_mem_singleton.mpr once
    | statement statement made =>
      obtain ⟨e, -, stands, pending⟩ := PassM.pendingStatement?_eq_some statement
      obtain rfl : slots = [.one e] := stands
      have calls := MacroCall.calls_of_pending pending
      exact made.asStatement_listsOnce hr (args calls
        (below _ List.mem_cons_self e List.mem_cons_self)) span
    | expression pending made stands =>
      have calls := MacroCall.calls_of_pending pending
      exact List.forall_mem_singleton.mpr
        (made.asExpression_listsOnce hr (args calls once) stands)
    | scope _ inner => exact node (Head.nodup_listing own _) inner
    | node _ _ _ _ inner => exact node own inner

end

/-! ## Passes -/

/-- A scope stays where it is, and hands on no site. -/
theorem Node.Rewritten.of_scope {r : Registry} {n : Node} {s : Slot Node} {sites : List Site}
    (h : n.Rewritten r s sites) (scope : n.head.isScope = true) :
    ∃ m, s = .one m ∧ sites = [] := by
  cases h with
  | sealed => exact ⟨_, rfl, rfl⟩
  | statement statement =>
    obtain ⟨_, head, -⟩ := PassM.pendingStatement?_eq_some statement
    rw [head] at scope
    cases scope
  | expression pending =>
    cases pending.symm.trans (settledAt_of_scope scope).pending?_eq_none
  | scope => exact ⟨_, rfl, rfl⟩
  | node _ other => cases scope.symm.trans other

namespace Work

/-- Every call that a pass over a program replaces installs the names of its expansion in the
innermost scope around the call and nowhere else, call after call. No scope lists a name twice
afterwards if none did before. -/
theorem pass_charges_innermost {settings : Settings} {n n' : Node} {last : Option MacroCall}
    {u u' : UnitState} (program : n.head.isScope = true)
    (run : pass settings n u = (.ok (n', last), u')) :
    n.Rewritten u.registry (.one n') [] ∧
      ((∀ d ∈ u.registry.macros, d.ListsOnce) → n.ListsOnce → n'.ListsOnce) := by
  unfold pass at run
  obtain ⟨⟨s, q⟩, u₁, transformed, run₁⟩ := bind_ok.mp run
  obtain ⟨-, sites, -, rewritten⟩ :=
    PassM.charges_transform settings n ⟨0, none, []⟩ u s q u₁ rfl transformed
  obtain ⟨m, rfl, rfl⟩ := rewritten.of_scope program
  obtain ⟨state, u₂, got, run₂⟩ := bind_ok.mp run₁
  obtain ⟨_, u₃, reported, run₃⟩ := bind_ok.mp run₂
  cases got
  cases reported
  obtain rfl : n' = m := by
    dsimp only at run₃
    split at run₃
    · cases run₃
      rfl
    · cases run₃
      rfl
  exact ⟨rewritten, fun hr once => rewritten.listsOnce hr n once n' List.mem_cons_self⟩

/-- `<%| set ^< $> '[ [[ {[ x [=] 1 ]} ]] ]' |%>` -/
def setMacro : MacroDefinition where
  name := "set"
  params := []
  span := default
  phase := .expand
  hygiene := .inject
  rules := []
  template := some (.quote default (.block default
    [.assignment default "x" (.literal default (.integer 1) .number)] []))

/-- `{? a [[ set(( )) set(( )) ]] ?}` -/
def setTwice : Node :=
  let call := Node.expressionStmt default (.macroCall default "set" [] false)
  .program default [.ifStmt default (.identifier default "a") (.block default [call, call] []) none]
    []

/-- A unit in which `setMacro` is known. -/
def setUnit : UnitState :=
  { UnitState.start (Gensym.ofNames "%" (.ofList ["set", "x", "a"])) none with
    registry := ⟨[setMacro]⟩ }

/-- The case of `setTwice`: the body lists what both calls in it install, and the program
nothing. -/
theorem pass_charges_innermost_body : ∃ n' last u', pass {} setTwice setUnit = (.ok (n', last), u') ∧
    setTwice.Rewritten setUnit.registry (.one n') [] ∧ n'.ListsOnce ∧
    n'.walk.map Node.head = [.program [], .ifStmt, .identifier "a", .block ["x"],
      .assignment "x", .literal (.integer 1) .number,
      .assignment "x", .literal (.integer 1) .number] := by
  have once : ∀ d ∈ setUnit.registry.macros, d.ListsOnce := by
    refine List.forall_mem_singleton.mpr ⟨List.forall_mem_nil _, ?_⟩
    rintro q ⟨⟩
    decide
  have run : pass {} setTwice setUnit = _ := rfl
  obtain ⟨rewritten, still⟩ := pass_charges_innermost rfl run
  exact ⟨_, _, _, run, rewritten, still once (by decide), by decide⟩

end Work

end GlyphScript
