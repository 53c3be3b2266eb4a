import Schematic.Load.State
import Schematic.Region.Overlap

/-! Pins on rails. A pin with a wire on its cell takes the level of the first net that the wire
reaches. -/
namespace Schematic

def Rail.voltage : Rail → Voltage
  | .vcc => .high
  | .gnd => .low

/-- The level that a net gives, by its type. -/
def Net.voltage (n : Net) : Voltage :=
  match Rail.ofName? n.type with
  | some r => r.voltage
  | none => .floating

/-- One end of the wire is on the cell. -/
def Wire.Touches (w : Wire) (p : Vec) : Prop := w.start = p ∨ w.stop = p

instance (w : Wire) (p : Vec) : Decidable (w.Touches p) := inferInstanceAs (Decidable (_ ∨ _))

/-- Whether an end of `w` is on the net, its start looked at first. -/
def Net.reachedBy (n : Net) (w : Wire) : Except Failure Bool :=
  match n.region.covers w.start with
  | .error e => .error e
  | .ok true => .ok true
  | .ok false => n.region.covers w.stop

/-- The first net that the wire reaches. -/
def Wire.net? (w : Wire) : List Net → Except Failure (Option Net)
  | [] => .ok none
  | n :: ns =>
    match n.reachedBy w with
    | .error e => .error e
    | .ok true => .ok (some n)
    | .ok false => w.net? ns

/-- A pin without a wire, or with one that reaches no net, keeps its voltage. -/
def Pin.connect (wires : List Wire) (nets : List Net) (p : Pin) : Except Failure Pin :=
  match wires.find? fun w => decide (w.Touches p.region.position) with
  | none => .ok p
  | some w =>
    match w.net? nets with
    | .error e => .error e
    | .ok none => .ok p
    | .ok (some n) => .ok { p with voltage := n.voltage }

/-- Connects the pins one after the other; those before a failure are connected. -/
def connectAll (wires : List Wire) (nets : List Net) (ps : List Pin) : Sweep Unit Pin :=
  sweep (fun p s =>
    match p.connect wires nets with
    | .ok q => .ok q s
    | .error e => .error e s) ps ()

end Schematic
