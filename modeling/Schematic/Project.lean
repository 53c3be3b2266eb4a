import Schematic.Failure

/-! Loaded projects and what an editor asks about them. -/
namespace Schematic

/-- The covering that a cursor sees. A wire covers its two ends only. -/
def Component.covers (c : Component) (p : Vec) : Except Failure Bool :=
  match c with
  | .wire w => .ok (decide (p = w.start ∨ p = w.stop))
  | c =>
    match c.region with
    | .error e => .error e
    | .ok none => .ok false
    | .ok (some r) => .ok (decide (p ∈ r))

structure Project where
  canvas : Canvas
  components : List Component
deriving DecidableEq, Repr

namespace Project

def bounds (j : Project) : Vec := j.canvas.bounds

/-- The first pin with the label. -/
def pin? (j : Project) (label : String) : Option Pin :=
  (pins j.components).find? fun p => p.label == label

/-- The place, counted from `i` on, of the first of the components that covers the cell. -/
def firstCovering (p : Vec) : Nat → List Component → Except Failure (Option (Nat × Component))
  | _, [] => .ok none
  | i, c :: cs =>
    match c.covers p with
    | .error e => .error e
    | .ok true => .ok (some (i, c))
    | .ok false => firstCovering p (i + 1) cs

/-- The component under the cursor, with its place. -/
def componentAt (j : Project) (p : Vec) : Except Failure (Option (Nat × Component)) :=
  firstCovering p 0 j.components

/-- The status line for a cell. -/
def report (j : Project) (p : Vec) : Except Failure String :=
  match j.componentAt p with
  | .error e => .error e
  | .ok none => .ok p.describe
  | .ok (some (_, c)) => c.describe

/-- The wires of a color, or those of them with the given label. -/
def findWires (j : Project) (color : Color) (label : Option String) : List Wire :=
  (wires j.components).filter fun w => w.color == some color && label.all (· == w.label)

end Project
end Schematic
