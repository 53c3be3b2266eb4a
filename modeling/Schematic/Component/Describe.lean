import Schematic.Component

/-! One-line descriptions, as for a status line. -/
namespace Schematic

def Vec.describe (p : Vec) : String :=
  "(" ++ toString p.x ++ ", " ++ toString p.y ++ ")"

/-- An extent, width first. -/
def Vec.describeExtent (v : Vec) : String := toString v.x ++ "x" ++ toString v.y

def Value.describe (v : Value) : String :=
  if v.isLogic then v.content.name ++ " " ++ " ".intercalate v.labels else v.content.name

/-- The name of a pin in a report. -/
def Pin.displayName (p : Pin) : String := if p.label = "" then "(unlabeled)" else p.label

/-- A foreign entry has no description. -/
def Component.describe? : Component → Option String
  | .canvas c => some ("meta " ++ c.bounds.describeExtent)
  | .chip c => some ("chip " ++ c.type ++ " at " ++ c.region.position.describe)
  | .net n => some ("net " ++ n.type ++ " at y " ++ toString n.region.position.y)
  | .pin p => some ("pin " ++ p.displayName ++ " at " ++ p.region.position.describe ++ ": " ++
      p.value.describe ++ ", " ++ p.voltage.name)
  | .wire w => some ("wire " ++ (w.color.map Color.name).getD "uncolored" ++ " " ++ w.label ++
      " from " ++ w.start.describe ++ " to " ++ w.stop.describe)
  | .foreign _ => none

end Schematic
