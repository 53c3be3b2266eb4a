import Mathlib.Data.List.Basic
import Schematic.Layout.WireLetter
import Schematic.Proofs.Layout.Expansion

/-! Letters of wires. Main statement: lettering changes nothing but the labels of wires. -/
namespace Schematic

/-- The component without the letter that it may have as a wire. -/
def Component.unlettered : Component → Component
  | .wire w => .wire { w with label := "" }
  | c => c

@[simp] theorem Component.chipType?_unlettered (c : Component) :
    c.unlettered.chipType? = c.chipType? := by
  cases c <;> rfl

theorem Component.pins_block_unlettered {templateOf : String → List Pin} (seen : List String)
    (c : Component) :
    pins (c.unlettered.block templateOf seen) = pins (c.block templateOf seen) := by
  cases c <;> rfl

theorem Component.unlettered_lettered {c d : Component} {seen seen' : List Color}
    (h : c.lettered seen = .ok d seen') : d.unlettered = c.unlettered := by
  cases c with
  | wire w =>
    simp only [lettered, Functor.map, EStateM.map, Wire.lettered] at h
    split at h
    · next v _ hw =>
      cases h
      split at hw
      · cases hw
      · split at hw
        · cases hw
        · split at hw
          · cases hw
          · cases hw
            rfl
    · cases h
  | canvas | chip | net | pin | foreign =>
    cases h
    rfl

theorem map_unlettered_of_sweep {cs lettered : List Component} {seen seen' : List Color}
    (h : sweep Component.lettered cs seen = ⟨lettered, seen', none⟩) :
    lettered.map Component.unlettered = cs.map Component.unlettered := by
  induction cs generalizing lettered seen with
  | nil =>
    cases h
    rfl
  | cons c cs ih =>
    obtain ⟨d, seen₁, rest, hd, hrest, rfl⟩ := sweep_cons_eq.mp h
    rw [List.map_cons, List.map_cons, Component.unlettered_lettered hd, ih hrest]

/-- Lettering is a walk with a message at its end. -/
theorem letterAll_eq_ok_iff {cs lettered : List Component} {s s' : LoadState} :
    letterAll cs s = ⟨lettered, s', none⟩ ↔ ∃ seen,
      sweep Component.lettered cs [] = ⟨lettered, seen, none⟩ ∧
        { s with log := s.log.add .debug ("labeled wires: " ++ describeCounts seen) } = s' := by
  unfold letterAll
  cases sweep Component.lettered cs [] with
  | mk items seen failure => cases failure <;> simp

theorem letterAll_eq_ok {cs lettered : List Component} {s s' : LoadState} (read : TemplateReader)
    (h : letterAll cs s = ⟨lettered, s', none⟩) :
    s.Grows read s' ∧ s'.templates = s.templates ∧
      lettered.map Component.unlettered = cs.map Component.unlettered := by
  obtain ⟨seen, hsweep, rfl⟩ := letterAll_eq_ok_iff.mp h
  exact ⟨.add_log read s _ _, rfl, map_unlettered_of_sweep hsweep⟩

theorem chipTypes_of_map_unlettered_eq {cs ds : List Component}
    (h : ds.map Component.unlettered = cs.map Component.unlettered) : chipTypes ds = chipTypes cs := by
  rw [← chipTypes_map Component.chipType?_unlettered ds, h,
    chipTypes_map Component.chipType?_unlettered]

/-- Only a wire differs from what it was before it was lettered. -/
theorem mem_of_map_unlettered_eq {cs ds : List Component} {c : Component}
    (h : ds.map Component.unlettered = cs.map Component.unlettered) (hc : c.wire? = none)
    (hmem : c ∈ ds) : c ∈ cs := by
  have hself : ∀ d : Component, d.unlettered = c.unlettered → d = c := by
    intro d hd
    cases c <;> cases hc <;> cases d <;> cases hd <;> rfl
  have hm : c.unlettered ∈ cs.map Component.unlettered := by
    rw [← h]
    exact List.mem_map_of_mem hmem
  obtain ⟨d, hd, he⟩ := List.mem_map.mp hm
  exact hself d he ▸ hd

end Schematic
