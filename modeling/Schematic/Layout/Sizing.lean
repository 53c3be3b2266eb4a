import Schematic.Load.State

/-! Derived sizes: a chip is half as wide as its template has pins, and a net spans the canvas. -/
namespace Schematic

def Chip.sized (c : Chip) (template : List Pin) : Chip :=
  { c with region := { c.region with size := ⟨(template.length / 2 : Nat), chipHeight⟩ } }

def Net.sized (n : Net) (bounds : Vec) : Net :=
  { n with region := ⟨⟨0, n.region.position.y⟩, ⟨bounds.x, 1⟩⟩ }

def Component.sized (read : TemplateReader) (bounds : Vec) : Component → Loader Component
  | .chip c => do
    let ps ← Loader.template read c.type
    pure (.chip (c.sized ps))
  | .net n => pure (.net (n.sized bounds))
  | c => pure c

/-- Sizes the chips and nets of a schematic. -/
def sizeAll (read : TemplateReader) (canvas : Canvas) (cs : List Component) (s : LoadState) :
    Sweep LoadState Component :=
  sweep (Component.sized read canvas.bounds) cs s

end Schematic
