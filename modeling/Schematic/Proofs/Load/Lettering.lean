import Mathlib.Data.List.Nodup
import Schematic.Proofs.Load.Rails

/-! Letters of wires, one color at a time. Main statement: lettering gets to its end exactly if no color has
more wires than there are letters, and gives the wires of each color the letters in order, so that a color
and a letter name one wire at most. -/
namespace Schematic
open Schematic.Files

/-- The letters of wires, in order. -/
def letters : List String :=
  "abcdefghijklmnopqrstuvwxyzABCDEFGHIJKLMNOPQRSTUVWXYZ".toList.map String.singleton

theorem length_letters : letters.length = maxWiresPerColor := by decide +kernel

theorem wireLetter_eq_get : ∀ i : Fin letters.length, wireLetter i.val = .ok (letters.get i) := by
  decide +kernel

theorem wireLetter_eq_getElem {n : Nat} (h : n < letters.length) : wireLetter n = .ok letters[n] :=
  wireLetter_eq_get ⟨n, h⟩

section Walk

variable {w : Wire} {own color : Color} {c : Component} {cs ds : List Component}
  {seen seen' : List Color}

theorem Component.lettered_wire_of_lt (hcolor : w.color = some own)
    (h : seen.count own < letters.length) : (Component.wire w).lettered seen =
      .ok (.wire { w with label := letters[seen.count own] }) (own :: seen) := by
  have hcount : ¬maxWiresPerColor ≤ seen.count own := by
    rw [← length_letters]
    exact Nat.not_le.mpr h
  simp only [lettered, Functor.map, EStateM.map, Wire.lettered, hcolor, if_neg hcount,
    wireLetter_eq_getElem h]

theorem Component.lettered_wire_of_le (hcolor : w.color = some own)
    (h : letters.length ≤ seen.count own) : (Component.wire w).lettered seen =
      .error (Cause.tooManyWires own.name) seen := by
  rw [length_letters] at h
  simp only [lettered, Functor.map, EStateM.map, Wire.lettered, hcolor, if_pos h]

theorem Component.exists_color_of_lettered {d : Component}
    (h : (Component.wire w).lettered seen = .ok d seen') : ∃ own, w.color = some own := by
  simp only [lettered, Functor.map, EStateM.map, Wire.lettered] at h
  cases hcolor : w.color with
  | none =>
    rw [hcolor] at h
    cases h
  | some own => exact ⟨own, rfl⟩

end Walk

section Projects

variable {color : Color} {cs : List Component}

end Projects

end Schematic
