import Schematic.Circuit.Resolution
import Schematic.Layout.Expansion
import Schematic.Layout.Sizing
import Schematic.Layout.Validity
import Schematic.Layout.WireLetter

/-! The stages between reading a schematic and showing it. -/
namespace Schematic

inductive Stage
  | size
  | letter
  | validate
  | expand
  | resolve
deriving DecidableEq, Repr

/-- What the stages of one load have in common. -/
structure StageContext where
  read : TemplateReader
  canvas : Canvas
  viewport : Option Vec := none

namespace Stage

/-- Where a stage fails, the components are left as far as it got. -/
def apply (x : StageContext) (cs : List Component) (s : LoadState) :
    Stage → Sweep LoadState Component
  | size => sizeAll x.read x.canvas cs s
  | letter => letterAll cs s
  | validate => validateAll x.canvas x.viewport cs s
  | expand => expandAll x.read cs s
  | resolve => resolveAll cs s

/-- A stage that stops the load where it fails. -/
def run (x : StageContext) (stage : Stage) (cs : List Component) : Loader (List Component) :=
  fun s =>
    let r := stage.apply x cs s
    match r.failure with
    | none => .ok r.items r.state
    | some e => .error e r.state

/-- The stages of a load, in order. Only sized regions and lettered wires are validated, and only
valid schematics are expanded. -/
def inOrder : List Stage := [size, letter, validate, expand, resolve]

/-- Runs stages one after the other. -/
def runAll (x : StageContext) : List Stage → List Component → Loader (List Component)
  | [], cs => pure cs
  | stage :: rest, cs => do
    let cs ← stage.run x cs
    runAll x rest cs

end Stage
end Schematic
