import Schematic.Limits
import Schematic.Region

/-! What a schematic is made of. -/
namespace Schematic

inductive Color
  | red
  | green
  | yellow
  | blue
  | magenta
  | cyan
deriving DecidableEq, Repr, Inhabited

namespace Color

def all : List Color := [red, green, yellow, blue, magenta, cyan]

def name : Color → String
  | red => "red"
  | green => "green"
  | yellow => "yellow"
  | blue => "blue"
  | magenta => "magenta"
  | cyan => "cyan"

def ofName? (s : String) : Option Color := all.find? fun c => c.name == s

end Color

/-- A power rail. -/
inductive Rail
  | vcc
  | gnd
deriving DecidableEq, Repr, Inhabited

namespace Rail

def all : List Rail := [vcc, gnd]

def name : Rail → String
  | vcc => "vcc"
  | gnd => "gnd"

def ofName? (s : String) : Option Rail := all.find? fun r => r.name == s

end Rail

/-- The electrical state of a pin. -/
inductive Voltage
  | floating
  | high
  | low
deriving DecidableEq, Repr, Inhabited

namespace Voltage

def all : List Voltage := [floating, high, low]

def name : Voltage → String
  | floating => "floating"
  | high => "high"
  | low => "low"

def ofName? (s : String) : Option Voltage := all.find? fun v => v.name == s

end Voltage

inductive Gate
  | and
  | or
deriving DecidableEq, Repr, Inhabited

/-- What a pin is declared to hold. -/
inductive Content
  | unset
  | gnd
  | vcc
  | gate (g : Gate)
deriving DecidableEq, Repr, Inhabited

namespace Content

def all : List Content := [unset, gnd, vcc, gate .and, gate .or]

def name : Content → String
  | unset => "none"
  | gnd => "gnd"
  | vcc => "vcc"
  | gate .and => "and"
  | gate .or => "or"

def ofName? (s : String) : Option Content := all.find? fun c => c.name == s

def gate? : Content → Option Gate
  | gate g => some g
  | _ => none

end Content

/-- The value of a pin. Only a gate refers to the labels. -/
structure Value where
  content : Content := .unset
  labels : List String := []
deriving DecidableEq, Repr, Inhabited

namespace Value

def isLogic (v : Value) : Bool := v.content.gate?.isSome

end Value

/-- The line of the source text that declares a component, and the file it stands in. -/
structure Origin where
  line : Int
  path : Option String := none
deriving DecidableEq, Repr, Inhabited

/-- The drawing area. A project declares exactly one. -/
structure Canvas where
  bounds : Vec := {}
  origin : Option Origin := none
deriving DecidableEq, Repr, Inhabited

/-- A placed template. Its size follows from the template. -/
structure Chip where
  type : String := ""
  region : Region := { size := ⟨0, chipHeight⟩ }
  origin : Option Origin := none
deriving DecidableEq, Repr, Inhabited

/-- A rail, one row high and as wide as the canvas. -/
structure Net where
  type : String := ""
  region : Region := { size := ⟨0, 1⟩ }
  origin : Option Origin := none
deriving DecidableEq, Repr, Inhabited

structure Pin where
  label : String := ""
  value : Value := {}
  voltage : Voltage := .floating
  region : Region := {}
  number : Option Int := none
  origin : Option Origin := none
deriving DecidableEq, Repr, Inhabited

/-- A connection of two cells. Its label is the letter that it gets among the wires of its color. -/
structure Wire where
  color : Option Color := none
  start : Vec := {}
  stop : Vec := {}
  label : String := ""
  origin : Option Origin := none
deriving DecidableEq, Repr, Inhabited

inductive Kind
  | chip
  | canvas
  | net
  | pin
  | wire
deriving DecidableEq, Repr, Inhabited

namespace Kind

def all : List Kind := [chip, canvas, net, pin, wire]

def name : Kind → String
  | chip => "chip"
  | canvas => "meta"
  | net => "net"
  | pin => "pin"
  | wire => "wire"

def ofName? (s : String) : Option Kind := all.find? fun k => k.name == s

end Kind

/-- An entry of a schematic. A foreign entry is no component: it takes part in nothing, and what needs
a component refuses it. -/
inductive Component
  | canvas (c : Canvas)
  | chip (c : Chip)
  | net (n : Net)
  | pin (p : Pin)
  | wire (w : Wire)
  | foreign (text : String)
deriving DecidableEq, Repr, Inhabited

namespace Component

/-- The component of kind `k` before any attribute is applied. -/
def ofKind : Kind → Component
  | .chip => .chip {}
  | .canvas => .canvas {}
  | .net => .net {}
  | .pin => .pin {}
  | .wire => .wire {}

def kind? : Component → Option Kind
  | .canvas _ => some .canvas
  | .chip _ => some .chip
  | .net _ => some .net
  | .pin _ => some .pin
  | .wire _ => some .wire
  | .foreign _ => none

@[simp] theorem kind?_ofKind (k : Kind) : (ofKind k).kind? = some k := by cases k <;> rfl

/-- The region that a chip, a net or a pin covers. -/
def region? : Component → Option Region
  | .chip c => some c.region
  | .net n => some n.region
  | .pin p => some p.region
  | .canvas _ | .wire _ | .foreign _ => none

def origin? : Component → Option Origin
  | .canvas c => c.origin
  | .chip c => c.origin
  | .net n => n.origin
  | .pin p => p.origin
  | .wire w => w.origin
  | .foreign _ => none

def withOrigin (o : Origin) : Component → Component
  | .canvas c => .canvas { c with origin := some o }
  | .chip c => .chip { c with origin := some o }
  | .net n => .net { n with origin := some o }
  | .pin p => .pin { p with origin := some o }
  | .wire w => .wire { w with origin := some o }
  | .foreign s => .foreign s

def canvas? : Component → Option Canvas
  | .canvas c => some c
  | _ => none

def net? : Component → Option Net
  | .net n => some n
  | _ => none

def pin? : Component → Option Pin
  | .pin p => some p
  | _ => none

def wire? : Component → Option Wire
  | .wire w => some w
  | _ => none

end Component

/-- The pins of a schematic, in order. -/
def pins (cs : List Component) : List Pin := cs.filterMap Component.pin?

def wires (cs : List Component) : List Wire := cs.filterMap Component.wire?

def nets (cs : List Component) : List Net := cs.filterMap Component.net?

theorem mem_pins {cs : List Component} {p : Pin} : p ∈ pins cs ↔ .pin p ∈ cs := by
  constructor
  · intro h
    obtain ⟨c, hc, hp⟩ := List.mem_filterMap.mp h
    cases c <;> cases hp
    exact hc
  · intro h
    exact List.mem_filterMap.mpr ⟨_, h, rfl⟩

theorem mem_wires {cs : List Component} {w : Wire} : w ∈ wires cs ↔ .wire w ∈ cs := by
  constructor
  · intro h
    obtain ⟨c, hc, hw⟩ := List.mem_filterMap.mp h
    cases c <;> cases hw
    exact hc
  · intro h
    exact List.mem_filterMap.mpr ⟨_, h, rfl⟩

theorem mem_nets {cs : List Component} {n : Net} : n ∈ nets cs ↔ .net n ∈ cs := by
  constructor
  · intro h
    obtain ⟨c, hc, hn⟩ := List.mem_filterMap.mp h
    cases c <;> cases hn
    exact hc
  · intro h
    exact List.mem_filterMap.mpr ⟨_, h, rfl⟩

/-- Puts `ps` in the places of the pins of a schematic, in order. -/
def setPins : List Component → List Pin → List Component
  | .pin _ :: cs, p :: ps => .pin p :: setPins cs ps
  | c :: cs, ps => c :: setPins cs ps
  | [], _ => []

theorem pins_cons_pin (p : Pin) (cs : List Component) : pins (.pin p :: cs) = p :: pins cs := rfl

theorem pins_cons_of_none {c : Component} (h : c.pin? = none) (cs : List Component) :
    pins (c :: cs) = pins cs := List.filterMap_cons_none h

theorem setPins_cons_of_none {c : Component} (h : c.pin? = none) (cs : List Component)
    (ps : List Pin) : setPins (c :: cs) ps = c :: setPins cs ps := by
  cases c with
  | pin p => cases h
  | canvas | chip | net | wire | foreign => simp [setPins]

theorem pins_setPins (cs : List Component) (ps : List Pin) (h : ps.length = (pins cs).length) :
    pins (setPins cs ps) = ps := by
  induction cs generalizing ps with
  | nil => exact (List.eq_nil_of_length_eq_zero h).symm
  | cons c cs ih =>
    cases hc : c.pin? with
    | none =>
      rw [pins_cons_of_none hc] at h
      rw [setPins_cons_of_none hc, pins_cons_of_none hc, ih ps h]
    | some p =>
      cases c <;> cases hc
      cases ps with
      | nil => cases h
      | cons q qs => rw [setPins, pins_cons_pin, ih qs (Nat.succ.inj h)]

theorem setPins_pins (cs : List Component) : setPins cs (pins cs) = cs := by
  induction cs with
  | nil => rfl
  | cons c cs ih =>
    cases hc : c.pin? with
    | none => rw [pins_cons_of_none hc, setPins_cons_of_none hc, ih]
    | some p =>
      cases c <;> cases hc
      rw [pins_cons_pin, setPins, ih]

end Schematic
