import Schematic.Proofs.Circuit.Renaming
import Schematic.Proofs.Circuit.Solution
import Schematic.Proofs.Load.Passage

/-! Loaded projects as solutions of their circuits. Main statement: a project with distinct labels that
loads without a warning about an early reference is one. -/
namespace Schematic
open Schematic.Files

variable {files : Tree} {input : Source.Input} {options : LoadOptions}
  {library? : Option Library} {log : Log} {p : Project}

/-- No reference is empty, in the source or in a template, and renaming does not make it so. -/
theorem Passage.reference_ne_empty (t : Passage files input options library? p) :
    ∀ q ∈ pins p.components, ∀ l ∈ q.value.labels, l ≠ "" := by
  intro q hq
  rw [t.resolves.pins_eq] at hq
  obtain ⟨r, hr, he⟩ := Pin.exists_of_map_unpowered t.resolves.map_unpowered_pins hq
  rw [← Pin.value_eq_of_unpowered_eq he]
  obtain ⟨a, ha, hcopy⟩ := t.exists_drafted hr
  have hlabel : ∀ l ∈ a.value.labels, l ≠ "" := fun l hl => (ha.value.1 l hl).1
  rcases hcopy with rfl | ⟨c, index, hexpand⟩
  · exact hlabel
  · rw [List.mem_singleton.mp hexpand]
    intro l hl
    obtain ⟨m, hm, rfl⟩ := List.mem_map.mp hl
    intro hempty
    exact hlabel m hm (renameLabel_eq_empty.mp hempty)

/-- In a project with distinct labels that loads without a warning about an early reference, each gate has
the level that the pins it refers to give it, and the levels found last are those of the pins. -/
theorem load_solves (h : (load files input options library? log).project = .ok (some p))
    (hlabels : DistinctLabels (pins p.components))
    (hquiet : Unhurried (load files input options library? log).warnings) :
    (∀ q ∈ pins p.components, ∀ g, q.value.content.gate? = some g →
      (q.voltage = .high ↔ g.Holds (pins p.components) q.value.labels) ∧
        (q.voltage ≠ .high → q.voltage = .low)) ∧
    ∃ t : Passage files input options library? p, ∀ l, l ≠ "" →
      (Pin.settleAll t.connected).2.levels.get? l = (p.pin? l).map Pin.voltage := by
  obtain ⟨t, hwarnings⟩ := exists_passage h
  rw [hwarnings] at hquiet
  have hreferences := t.reference_ne_empty
  have hpins := t.resolves.pins_eq
  have hdistinct : DistinctLabels t.connected := by
    rw [hpins] at hlabels
    exact hlabels.congr (Pin.map_label_settleFrom _ _).symm
  constructor
  · rw [hpins] at hreferences ⊢
    exact settleAll_solves hdistinct hquiet hreferences
  · refine ⟨t, fun l hl => ?_⟩
    rw [(Pin.shows_settleAll hdistinct).get?_eq_find? hl, ← hpins]
    rfl

theorem load_solves_buffers :
    ∃ t : Passage .fresh buffers {} none bufferProject,
      (∀ q ∈ pins bufferProject.components, ∀ g, q.value.content.gate? = some g →
        (q.voltage = .high ↔ g.Holds (pins bufferProject.components) q.value.labels) ∧
          (q.voltage ≠ .high → q.voltage = .low)) ∧
      ∀ l, l ≠ "" →
        (Pin.settleAll t.connected).2.levels.get? l = (bufferProject.pin? l).map Pin.voltage := by
  obtain ⟨hp, hw⟩ := load_buffers
  have hlabels : DistinctLabels (pins bufferProject.components) := by
    unfold DistinctLabels
    decide +kernel
  have hquiet : Unhurried (load .fresh buffers {} none []).warnings := by
    rw [hw]
    intro pin label hm
    cases hm
  obtain ⟨hgates, t, hlevels⟩ := load_solves hp hlabels hquiet
  exact ⟨t, hgates, hlevels⟩

end Schematic
