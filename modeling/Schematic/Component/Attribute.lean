import Schematic.Failure

/-! Attributes of components. Main statement: a component is left as it was by an attribute that is
refused. -/
namespace Schematic

/-- The words that introduce attributes. -/
inductive AttributeName
  | bounds
  | color
  | start
  | stop
  | label
  | number
  | position
  | type
  | value
  | row
deriving DecidableEq, Repr

namespace AttributeName

def all : List AttributeName :=
  [bounds, color, start, stop, label, number, position, type, value, row]

def text : AttributeName → String
  | bounds => "bounds"
  | color => "color"
  | start => "from"
  | stop => "to"
  | label => "label"
  | number => "num"
  | position => "pos"
  | type => "type"
  | value => "value"
  | row => "y"

def ofText? (s : String) : Option AttributeName := all.find? fun a => a.text == s

end AttributeName

/-- An attribute as read, not yet part of a component. -/
inductive Attribute
  | bounds (v : Vec)
  | color (c : Color)
  | start (p : Vec)
  | stop (p : Vec)
  | label (s : String)
  | number (n : Int)
  | position (p : Vec)
  | type (s : String)
  | value (v : Value)
  | row (y : Int)
deriving DecidableEq, Repr

namespace Attribute

def name : Attribute → AttributeName
  | bounds _ => .bounds
  | color _ => .color
  | start _ => .start
  | stop _ => .stop
  | label _ => .label
  | number _ => .number
  | position _ => .position
  | type _ => .type
  | value _ => .value
  | row _ => .row

/-- The component with the attribute set, where components of its kind have the attribute. -/
def set? : Attribute → Component → Option Component
  | bounds v, .canvas c => some (.canvas { c with bounds := v })
  | type s, .chip c => some (.chip { c with type := s })
  | position p, .chip c => some (.chip { c with region := { c.region with position := p } })
  | type s, .net n => some (.net { n with type := s })
  | row y, .net n => some (.net { n with region := { n.region with position := ⟨0, y⟩ } })
  | label s, .pin p => some (.pin { p with label := s })
  | value v, .pin p => some (.pin { p with value := v })
  | position q, .pin p => some (.pin { p with region := { p.region with position := q } })
  | number n, .pin p => some (.pin { p with number := some n })
  | color c, .wire w => some (.wire { w with color := some c })
  | start p, .wire w => some (.wire { w with start := p })
  | stop p, .wire w => some (.wire { w with stop := p })
  | _, _ => none

/-- Sets the attribute, or refuses it as not meaningful for the kind of the component. What it has done to the
component stays when it fails. -/
def apply (a : Attribute) : EStateM Failure Component Unit := fun c =>
  match c.kind with
  | .error e => .error e c
  | .ok k =>
    match a.set? c with
    | some c' => .ok () c'
    | none => .error (Cause.inapplicableAttribute a.name.text k.name) c

variable {a : Attribute} {c c' : Component}

theorem kind?_of_set? (h : a.set? c = some c') : c'.kind? = c.kind? := by
  cases c <;> cases a <;> cases h <;> rfl

theorem apply_eq_ok_iff_set? : a.apply c = .ok () c' ↔ a.set? c = some c' := by
  cases c with
  | foreign text => cases a <;> exact iff_of_false nofun nofun
  | canvas | chip | net | pin | wire =>
    simp only [apply, Component.kind]
    split <;> simp_all

/-- An attribute that is refused has not been set, and nothing else has been changed. -/
theorem eq_of_apply_eq_error {e : Failure} (h : a.apply c = .error e c') : c' = c := by
  unfold apply at h
  split at h
  · cases h
    rfl
  · split at h
    · cases h
    · cases h
      rfl

end Attribute

/-- The check of a single component, before the rest of the schematic is known. -/
def Component.verify : Component → Except Failure Unit
  | .canvas _ => .ok ()
  | .chip c => if c.type = "" then .error (Cause.missingAttribute "type") else .ok ()
  | .net n => if n.type = "" then .error (Cause.missingAttribute "type") else .ok ()
  | .pin p =>
    if p.value.isLogic ∧ p.value.labels = [] then .error (Cause.invalidAttribute "value")
    else .ok ()
  | .wire w => if w.color = none then .error (Cause.missingAttribute "color") else .ok ()
  | .foreign text => .error (Fault.notComponent text)

end Schematic
