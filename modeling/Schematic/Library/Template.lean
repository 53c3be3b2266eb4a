import Schematic.Library.Index
import Schematic.Source.Document

/-! Templates: an even number of pins, set out in two rows. -/
namespace Schematic

/-- The cell of the `i`-th pin of a template `width` cells wide: the first half of the pins runs left
to right along the bottom row, the second half back along the top row. -/
def footprint (width i : Nat) : Vec :=
  if i < width then ⟨i, 2⟩ else ⟨2 * (width : Int) - i - 1, 0⟩

/-- Sets the pins out, two rows of half as many cells as there are pins. -/
def placePins (ps : List Pin) : List Pin :=
  ps.mapIdx fun i p => { p with region := .single (footprint (ps.length / 2) i) }

@[simp] theorem length_placePins (ps : List Pin) : (placePins ps).length = ps.length := by
  simp [placePins]

namespace Library

/-- The pins of the template text of a type. -/
def readTemplate (type text : String) : Except Failure (List Pin) :=
  match Source.readText none text with
  | .error (.diagnostic d) => .error (Cause.invalidTemplate type d.message)
  | .error (.fault f) => .error f
  | .ok cs =>
    match cs.find? (·.pin?.isNone) with
    | some c =>
      match c.kind with
      | .ok k => .error (Cause.invalidTemplate type (k.name ++ " object in template"))
      | .error e => .error e
    | none =>
      if cs = [] then .error (Cause.invalidTemplate type "no pins")
      else if cs.length % 2 = 1 then
        .error (Cause.invalidTemplate type ("odd number of pins (" ++ toString cs.length ++ ")"))
      else .ok (placePins (pins cs))

/-- The pins of the template of a type, as it reads now. -/
def template (l : Library) (files : Files.Tree) (type : String) : Except Failure (List Pin) :=
  match l.text files type with
  | .error e => .error e
  | .ok text => readTemplate type text

end Library
end Schematic
