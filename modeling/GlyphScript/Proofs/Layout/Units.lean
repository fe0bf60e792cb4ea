import GlyphScript.Macro.Fixpoint
import GlyphScript.Proofs.Layout.Trees

/-!
# Units whose texts are laid out in other ways

Faults, macros and the states of units that differ in nothing but places. To
expand calls that are alike, with macros that are alike, comes to the same.
-/

namespace GlyphScript

/-! ## Faults -/

/-- The token, put at one and the same place. -/
def Token.unplaced (t : Token) : Token := { t with location := default, stop := none }

def LexFault.unplaced : LexFault → LexFault
  | .unexpectedCharacter c following _ => .unexpectedCharacter c following default
  | .unterminatedString _ => .unterminatedString default
  | .numeralTooLong digits => .numeralTooLong digits

def ParseFault.unplaced : ParseFault → ParseFault
  | .expectedToken expected found => .expectedToken expected found.unplaced
  | .unbalancedDelimiter opener found => .unbalancedDelimiter opener.unplaced found.unplaced
  | .unexpectedEnd expected found => .unexpectedEnd expected found.unplaced
  | .invalidPattern flaw _ => .invalidPattern flaw default

def ExpansionFault.unplaced : ExpansionFault → ExpansionFault
  | .undefinedMacro name _ known => .undefinedMacro name default known
  | .noMatchingRule name _ mismatch => .noMatchingRule name default mismatch
  | .nonTermination name _ limit excess => .nonTermination name default limit excess
  | .hygieneConflict name binder position given receiver _ =>
    .hygieneConflict name binder position given receiver default

namespace Fault

/-- The fault, as if everything stood at one and the same place. -/
def unplaced : Fault → Fault
  | .lex fault => .lex fault.unplaced
  | .parse fault => .parse fault.unplaced
  | .expansion fault => .expansion fault.unplaced
  | fault => fault

/-- The same fault, wherever it has been found. -/
def Alike (f f' : Fault) : Prop := f.unplaced = f'.unplaced

theorem Alike.refl (f : Fault) : f.Alike f := Eq.refl f.unplaced

theorem Alike.expansion {f f' : ExpansionFault} (h : f.unplaced = f'.unplaced) :
    Fault.Alike (.expansion f) (.expansion f') := congrArg Fault.expansion h

/-- What kind of fault it is does not depend on where it has been found. -/
theorem Alike.kind {f f' : Fault} (h : f.Alike f') :
    f.diagnostic?.map (·.kind) = f'.diagnostic?.map (·.kind) := by
  have kind (f : Fault) : f.unplaced.diagnostic?.map (·.kind) = f.diagnostic?.map (·.kind) := by
    rcases f with ⟨_ | _ | _⟩ | ⟨_ | _ | _ | _⟩ | ⟨_ | _ | _ | _⟩ | _ | _ | _ | _ <;> rfl
  rw [← kind f, ← kind f', show f.unplaced = f'.unplaced from h]

end Fault

/-! ## Macros and calls -/

namespace MacroCall

/-- Calls of one macro with arguments that are alike. -/
structure Alike (c c' : MacroCall) : Prop where
  name : c.name = c'.name
  args : List.Forall₂ Node.Alike c.args c'.args

theorem Alike.node {c c' : MacroCall} (h : c.Alike c') : c.node.Alike c'.node := by
  rw [MacroCall.node, MacroCall.node, h.name]
  exact .mk (.cons (.many h.args) .nil)

theorem Alike.deferredNode {c c' : MacroCall} (h : c.Alike c') :
    c.deferredNode.Alike c'.deferredNode := by
  rw [MacroCall.deferredNode, MacroCall.deferredNode, h.name]
  exact .mk (.cons (.many h.args) .nil)

theorem Alike.mismatch {c c' : MacroCall} (h : c.Alike c') (m : RuleMismatch) :
    (c.mismatch m).unplaced = (c'.mismatch m).unplaced := by
  simp [MacroCall.mismatch, ExpansionFault.unplaced, h.name]

end MacroCall

/-- The same macro, defined somewhere else. -/
structure MacroDefinition.Alike (d d' : MacroDefinition) : Prop where
  name : d.name = d'.name
  params : d.params = d'.params
  phase : d.phase = d'.phase
  hygiene : d.hygiene = d'.hygiene
  rules : List.Forall₂ Node.Alike d.rules d'.rules
  template : Option.Rel Node.Alike d.template d'.template

namespace Registry

def Alike (r r' : Registry) : Prop := List.Forall₂ MacroDefinition.Alike r.macros r'.macros

variable {r r' : Registry}

theorem Alike.names (h : r.Alike r') : r.names = r'.names := by
  have names {ds ds' : List MacroDefinition} (h : List.Forall₂ MacroDefinition.Alike ds ds') :
      ds.map (·.name) = ds'.map (·.name) := by
    induction h with
    | nil => rfl
    | cons d _ ih => rw [List.map_cons, List.map_cons, d.name, ih]
  exact names h

theorem Alike.find? (h : r.Alike r') (x : String) :
    Option.Rel MacroDefinition.Alike (r.find? x) (r'.find? x) := by
  have found {ds ds' : List MacroDefinition} (h : List.Forall₂ MacroDefinition.Alike ds ds') :
      Option.Rel MacroDefinition.Alike (ds.find? (·.name = x)) (ds'.find? (·.name = x)) := by
    induction h with
    | nil => exact .none
    | cons d _ ih =>
      rw [List.find?_cons, List.find?_cons, d.name]
      split
      · exact .some d
      · exact ih
  exact found h

theorem Alike.contains (h : r.Alike r') : r.contains = r'.contains := by
  funext x
  have found := h.find? x
  unfold Registry.contains
  revert found
  rcases r.find? x with _ | d <;> rcases r'.find? x with _ | d' <;> rintro ⟨⟩ <;> rfl

theorem Alike.insert (h : r.Alike r') {d d' : MacroDefinition} (hd : d.Alike d') :
    (r.insert d).Alike (r'.insert d') := by
  have insertInto {ds ds' : List MacroDefinition} (h : List.Forall₂ MacroDefinition.Alike ds ds') :
      List.Forall₂ MacroDefinition.Alike (insert.insertInto d ds) (insert.insertInto d' ds') := by
    induction h with
    | nil => exact .cons hd .nil
    | cons e rest ih =>
      unfold insert.insertInto
      rw [e.name, hd.name]
      split
      · exact .cons hd rest
      · exact .cons e ih
  exact insertInto h

end Registry

/-- States of units that have come to the same, if not with the same reports. -/
structure UnitState.Alike (u u' : UnitState) : Prop where
  registry : u.registry.Alike u'.registry
  gensym : u.gensym = u'.gensym
  checks : u.checks = u'.checks
  progress : u.progress = u'.progress

/-! ## Selecting -/

/-- Templates that are alike, to be filled alike. -/
structure Selection.Alike (s s' : Selection) : Prop where
  template : s.template.Alike s'.template
  quoted : s.quoted = s'.quoted
  bindings : s.bindings.Alike s'.bindings

/-- The alike results or faults of expanding alike. -/
def expanding : Correspondence (Except ExpansionFault) :=
  .except fun f f' => f.unplaced = f'.unplaced

theorem ruleSubject_alike {pattern pattern' : Node} {args args' : List Node} {span span' : Span}
    (hp : pattern.Alike pattern') (h : List.Forall₂ Node.Alike args args') :
    (ruleSubject pattern args span).Alike (ruleSubject pattern' args' span') := by
  have tuple : (Node.tupleLiteral span args).Alike (Node.tupleLiteral span' args') :=
    .mk (.cons (.many h) .nil)
  unfold ruleSubject
  rw [hp.head]
  rcases h with _ | ⟨first, _ | ⟨_, _⟩⟩
  · exact tuple
  · dsimp only
    split
    · exact tuple
    · exact first
  · exact tuple

theorem tryRule_alike {c c' : MacroCall} (hc : c.Alike c') {rule rule' : Node}
    (h : rule.Alike rule') :
    Option.Rel (fun x x' => x.1.Alike x'.1 ∧ x.2.Alike x'.2) (c.tryRule rule)
      (c'.tryRule rule') := by
  obtain ⟨span, head, slots⟩ := rule
  obtain ⟨span', head', slots'⟩ := rule'
  have rel : List.Forall₂ (Slot.Rel Node.Alike) slots slots' := h.slots
  unfold MacroCall.tryRule
  rcases rel with _ | ⟨⟨⟩ | ⟨pattern⟩ | ⟨_⟩, _ | ⟨⟨⟩ | ⟨template⟩ | ⟨_⟩, _ | ⟨_, _⟩⟩⟩
  case cons.one.cons.one.nil =>
    have subjects : (ruleSubject _ c.args c.span).Alike (ruleSubject _ c'.args c'.span) :=
      ruleSubject_alike pattern hc.args
    have matched := Node.matchPattern_alike pattern subjects
    exact optionRel_map matched fun _ _ h => ⟨template, h⟩
  all_goals exact .none

theorem templateBody?_alike {d d' : MacroDefinition} (h : d.Alike d') :
    Option.Rel Node.Alike d.templateBody? d'.templateBody? :=
  optionRel_bind h.template fun _ _ quote => optionRel_head? quote.children

theorem select_alike {d d' : MacroDefinition} {c c' : MacroCall} (hd : d.Alike d')
    (hc : c.Alike c') : expanding.rel Selection.Alike (d.select c) (d'.select c') := by
  have args : Bindings.Alike (d.params.zip c.args) (d'.params.zip c'.args) :=
    hd.params ▸ Bindings.Rel.zip hc.args
  have bindings := Bindings.Alike.extend .nil args
  have arity : d.arity = d'.arity := by rw [MacroDefinition.arity, MacroDefinition.arity, hd.params]
  have body := templateBody?_alike hd
  have rule := optionRel_findSome? hd.rules fun _ _ => tryRule_alike hc
  unfold MacroDefinition.select
  rw [arity, hc.args.length_eq, hd.params] at *
  split
  · exact .error (hc.mismatch _)
  · generalize d.templateBody? = t, d'.templateBody? = t' at body
    cases body with
    | some template => exact .ok ⟨template, rfl, bindings⟩
    | none =>
      generalize d.rules.findSome? _ = o, d'.rules.findSome? _ = o' at rule
      cases rule with
      | none => exact .error (hc.mismatch _)
      | some both => exact .ok ⟨both.1, rfl, bindings.extend both.2⟩

/-! ## Filling and isolating -/

structure Filling.Alike (f f' : Filling) : Prop where
  bindings : f.bindings.Alike f'.bindings
  name : f.name = f'.name
  level : f.level = f'.level

theorem binder_alike {f f' : Filling} (h : f.Alike f') (receiver : String)
    (position : Head.BinderPosition) (name : String) :
    expanding.rel Eq (f.binder receiver position name) (f'.binder receiver position name) := by
  have bound := h.bindings.lookup name
  unfold Filling.binder
  generalize f.bindings.lookup name = o, f'.bindings.lookup name = o' at bound
  cases bound with
  | none => exact .ok rfl
  | some bound =>
    dsimp only
    rw [bound.head]
    split
    · exact .ok rfl
    · refine .error ?_
      simp [ExpansionFault.unplaced, h.name, Node.className, bound.head]

theorem substitute_alike {t t' : Node} {f f' : Filling} (ht : t.Alike t') (hf : f.Alike f') :
    expanding.rel Node.Alike (t.substitute f) (t'.substitute f') := by
  unfold Node.substitute
  rw [hf.level]
  refine expanding.transformM (N := Node.Alike) (fun _ _ h => ⟨h.head, h.slots⟩)
    (fun _ _ _ _ _ h => .mk h) ?_ ?_ (fun _ _ h => .one h) t f'.level t' ht
  · intro depth n n' h
    obtain ⟨span, head, slots⟩ := n
    obtain ⟨span', head', slots'⟩ := n'
    obtain rfl : head = head' := h.head
    cases head
    case identifier name =>
      refine .ok (.done ?_)
      split
      · have bound := hf.bindings.lookup name
        generalize f.bindings.lookup name = o, f'.bindings.lookup name = o' at bound
        cases bound with
        | none => exact h
        | some bound => exact bound
      · exact h
    all_goals exact .ok .inside
  · intro depth n n' h
    obtain ⟨span, head, slots⟩ := n
    obtain ⟨span', head', slots'⟩ := n'
    obtain rfl : head = head' := h.head
    have rel : List.Forall₂ (Slot.Rel Node.Alike) slots slots' := h.slots
    have renamed : expanding.rel Node.Alike
        (if depth = 0 then do
            return Node.mk span (← head.mapBindersM (f.binder head.className)) slots
          else return Node.mk span head slots)
        (if depth = 0 then do
            return Node.mk span' (← head.mapBindersM (f'.binder head.className)) slots'
          else return Node.mk span' head slots') := by
      split
      · have heads := expanding.mapBindersM (binder_alike hf head.className) head
        exact expanding.bind heads fun k k' same => expanding.pure (same ▸ .mk rel)
      · exact expanding.pure h
    cases head
    case unquote =>
      rcases rel with _ | ⟨⟨⟩ | ⟨e⟩ | ⟨_⟩, _ | ⟨_, _⟩⟩
      case cons.one.nil =>
        dsimp only [Filling.transform, Node.head, Node.slots]
        rw [hf.level]
        split
        · exact expanding.pure e
        · exact expanding.pure h
      all_goals exact renamed
    all_goals exact renamed

/-- To be given the same symbols. -/
def symbolizing : Correspondence IsolateM := .state Eq

theorem isolate_alike {n n' : Node} (h : n.Alike n') (keep : List String) :
    symbolizing.rel Node.Alike (n.isolate keep) (n'.isolate keep) := by
  refine symbolizing.transformM (N := Node.Alike) (fun _ _ h => ⟨h.head, h.slots⟩)
    (fun _ _ _ _ _ h => .mk h) ?_ ?_ (fun _ _ h => .one h) n 0 n' h
  · intro depth n n' h
    show symbolizing.rel _ (pure _) (pure _)
    rw [h.head]
    exact symbolizing.pure .inside
  · intro depth n n' h
    obtain ⟨span, head, slots⟩ := n
    obtain ⟨span', head', slots'⟩ := n'
    obtain rfl : head = head' := h.head
    have same : symbolizing.rel Eq (Node.isolatedHead keep head)
        (Node.isolatedHead keep head) := fun s s' hs => by rw [hs]; exact ⟨rfl, rfl⟩
    show symbolizing.rel _
      (if depth = 0 then Node.isolatedHead keep head >>= fun k => pure (Node.mk span k slots)
        else pure (Node.mk span head slots))
      (if depth = 0 then Node.isolatedHead keep head >>= fun k => pure (Node.mk span' k slots')
        else pure (Node.mk span' head slots'))
    split
    · exact symbolizing.bind same fun k k' e =>
        symbolizing.pure (e ▸ .mk h.slots)
    · exact symbolizing.pure h

end GlyphScript
