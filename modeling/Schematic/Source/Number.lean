import Schematic.Failure
import Schematic.Text.Numeral

/-! Numbers of a source text. -/
namespace Schematic.Source

/-- The number that `text` writes, at most `maxCoordinate`. -/
def number (text : String) : Except Failure Int :=
  match Text.numeral? text with
  | none => .error (Cause.invalidNumber text)
  | some n => if n < 0 ∨ maxCoordinate < n then .error (Cause.numberOutOfRange n) else .ok n

theorem number_bounds {text : String} {n : Int} (h : number text = .ok n) :
    0 ≤ n ∧ n ≤ maxCoordinate := by
  unfold number at h
  split at h
  · cases h
  · split at h
    · cases h
    · cases h
      omega

end Schematic.Source
