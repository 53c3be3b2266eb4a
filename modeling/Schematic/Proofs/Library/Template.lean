import Mathlib.Tactic.SplitIfs
import Schematic.Library.Template
import Schematic.Proofs.Source.Declared

/-! Templates as libraries give them: at least one pin, an even number of them, each where the footprint
puts it. Main statement: the cells of a footprint are distinct and lie in the rectangle that chips of the
template are given. -/
namespace Schematic

/-- Each half of the pins fills its row. -/
theorem footprint_bounds {width i : Nat} (h : i < 2 * width) :
    0 ≤ (footprint width i).x ∧ (footprint width i).x < width ∧
      0 ≤ (footprint width i).y ∧ (footprint width i).y < chipHeight := by
  unfold footprint chipHeight
  split_ifs with hi
  · dsimp only
    omega
  · dsimp only
    omega

theorem footprint_injective {width i j : Nat} (h : footprint width i = footprint width j) :
    i = j := by
  have hx := congrArg Vec.x h
  have hy := congrArg Vec.y h
  unfold footprint at hx hy
  split_ifs at hx hy <;> dsimp only at hx hy <;> omega

/-- What a library gives for a chip type. -/
structure IsTemplate (ps : List Pin) : Prop where
  ne_nil : ps ≠ []
  even : ps.length % 2 = 0
  placed : placePins ps = ps

theorem placePins_placePins (ps : List Pin) : placePins (placePins ps) = placePins ps := by
  refine List.ext_getElem (by simp) fun i h₁ h₂ => ?_
  simp [placePins]

theorem isTemplate_placePins {ps : List Pin} (hn : ps ≠ []) (he : ps.length % 2 = 0) :
    IsTemplate (placePins ps) where
  ne_nil h := hn (List.eq_nil_of_length_eq_zero (by rw [← length_placePins, h]; rfl))
  even := by rwa [length_placePins]
  placed := placePins_placePins ps

namespace IsTemplate

variable {ps : List Pin}

theorem two_mul_half (h : IsTemplate ps) : 2 * (ps.length / 2) = ps.length := by
  have := h.even
  omega

theorem region_getElem (h : IsTemplate ps) {i : Nat} (hi : i < ps.length) :
    ps[i].region = .single (footprint (ps.length / 2) i) := by
  have hp : (placePins ps)[i]? = some ps[i] := by
    rw [h.placed, List.getElem?_eq_getElem hi]
  simp only [placePins, List.getElem?_mapIdx, List.getElem?_eq_getElem hi, Option.map_some,
    Option.some.injEq] at hp
  exact (congrArg Pin.region hp).symm

end IsTemplate

namespace Library

theorem length_pins_of_forall {cs : List Component} (h : ∀ c ∈ cs, c.pin?.isSome) :
    (pins cs).length = cs.length := by
  induction cs with
  | nil => rfl
  | cons c cs ih =>
    obtain ⟨hc, hcs⟩ := List.forall_mem_cons.mp h
    obtain ⟨p, hp⟩ := Option.isSome_iff_exists.mp hc
    rw [pins, List.filterMap_cons_some hp, List.length_cons, List.length_cons]
    exact congrArg Nat.succ (ih hcs)

/-- A template text that is accepted declares pins only, and these make the template. -/
theorem readTemplate_eq_ok {type text : String} {ps : List Pin}
    (h : readTemplate type text = .ok ps) :
    ∃ cs, Source.readText none text = .ok cs ∧ (∀ c ∈ cs, c.pin?.isSome) ∧ cs ≠ [] ∧
      cs.length % 2 = 0 ∧ ps = placePins (pins cs) := by
  unfold readTemplate at h
  split at h
  · cases h
  · cases h
  · next cs hcs =>
    split at h
    · split at h <;> cases h
    · next hf =>
      split_ifs at h with hn ho
      cases h
      refine ⟨cs, hcs, ?_, hn, by omega, rfl⟩
      intro c hc
      have hc' := List.find?_eq_none.mp hf c hc
      simpa [Option.isSome_iff_ne_none] using hc'

theorem isTemplate_of_readTemplate {type text : String} {ps : List Pin}
    (h : readTemplate type text = .ok ps) : IsTemplate ps := by
  obtain ⟨cs, -, hp, hn, he, rfl⟩ := readTemplate_eq_ok h
  have hl := length_pins_of_forall hp
  refine isTemplate_placePins ?_ (by rwa [hl])
  intro h
  rw [h, List.length_nil] at hl
  exact hn (List.eq_nil_of_length_eq_zero hl.symm)

theorem template_eq_ok {l : Library} {files : Files.Tree} {type : String} {ps : List Pin}
    (h : l.template files type = .ok ps) :
    ∃ text, l.text files type = .ok text ∧ readTemplate type text = .ok ps := by
  unfold template at h
  split at h
  · cases h
  · next text ht => exact ⟨text, ht, h⟩

theorem isTemplate_of_template {l : Library} {files : Files.Tree} {type : String} {ps : List Pin}
    (h : l.template files type = .ok ps) : IsTemplate ps := by
  obtain ⟨text, -, hr⟩ := template_eq_ok h
  exact isTemplate_of_readTemplate hr

theorem drafted_placePins {ps : List Pin} (h : ∀ p ∈ ps, p.Drafted) :
    ∀ p ∈ placePins ps, p.Drafted := by
  intro p hp
  obtain ⟨i, hi, rfl⟩ := List.mem_mapIdx.mp hp
  obtain ⟨hl, hv, hf, hn⟩ := h ps[i] (List.getElem_mem hi)
  exact ⟨hl, hv, hf, hn⟩

/-- The pins of a template are as lines declare them, their places apart. -/
theorem drafted_of_template {l : Library} {files : Files.Tree} {type : String} {ps : List Pin}
    (h : l.template files type = .ok ps) : ∀ p ∈ ps, p.Drafted := by
  obtain ⟨text, -, hr⟩ := template_eq_ok h
  obtain ⟨cs, hcs, -, -, -, rfl⟩ := readTemplate_eq_ok hr
  refine drafted_placePins fun p hp => ?_
  obtain ⟨hd, -⟩ := Source.declared_of_readText hcs _ (mem_pins.mp hp)
  exact hd.1

end Library
end Schematic
