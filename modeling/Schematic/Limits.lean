/-! The fixed measures of a drawing. -/
namespace Schematic

def version : String := "0.1.0"

/-- Cells that the frame around the canvas adds to its width and to its height. -/
def border : Nat := 2

/-- A chip has a row of pins, its body, and another row of pins. -/
def chipHeight : Nat := 3

/-- Wires of a color are lettered `a` to `z`, then `A` to `Z`. -/
def maxWiresPerColor : Nat := 52

/-- The largest number that a source text may write. -/
def maxCoordinate : Nat := 0xFFFF

end Schematic
