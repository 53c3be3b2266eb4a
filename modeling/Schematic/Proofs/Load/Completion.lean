import Mathlib.Tactic.SplitIfs
import Schematic.Proofs.Load.Stages
import Schematic.Proofs.Load.Uncached

/-! When stages get to their ends. Sizing asks for templates, and lettering for colors that are not used up.
Main statement: lettering gets to its end exactly if no color has more wires than there are letters. -/
namespace Schematic

section Sizing

variable {read : TemplateReader}

theorem exists_template {type : String} (h : ∃ ps, read type = .ok ps) (s : LoadState) :
    ∃ ps s', Loader.template read type s = .ok ps s' := by
  obtain ⟨ps, hread⟩ := h
  unfold Loader.template
  cases hlookup : s.templates.lookup type with
  | some known => exact ⟨known, s, rfl⟩
  | none =>
    rw [hread]
    exact ⟨ps, _, rfl⟩

theorem exists_sizeAll (canvas : Canvas) {cs : List Component}
    (h : ∀ type ∈ chipTypes cs, ∃ ps, read type = .ok ps) (s : LoadState) :
    ∃ sized s', sizeAll read canvas cs s = ⟨sized, s', none⟩ := by
  refine exists_sweep (fun c hc s => ?_) s
  cases c with
  | chip c =>
    obtain ⟨ps, s', hps⟩ := exists_template (h c.type (mem_chipTypes hc)) s
    exact ⟨_, s', bind_eq_ok_iff.mpr ⟨ps, s', hps, rfl⟩⟩
  | canvas | net | pin | wire | foreign => exact ⟨_, s, rfl⟩

end Sizing

section Lettering

/-- The color of a wire. -/
def Component.color? (c : Component) : Option Color := c.wire?.bind Wire.color

/-- The colors of the wires of a schematic, in order. -/
def wireColors (cs : List Component) : List Color := cs.filterMap Component.color?

variable {seen : List Color} {cs : List Component}

theorem Component.lettered_of_color?_eq_none {c : Component} (hc : c.Verified)
    (h : c.color? = none) (seen : List Color) : c.lettered seen = .ok c seen := by
  cases c with
  | wire w =>
    have hcolor : w.color = none := h
    exact absurd hcolor (hc.colored w rfl)
  | canvas | chip | net | pin | foreign => rfl

/-- A wire is lettered if its color is not used up, and uses up one more. -/
theorem Component.exists_lettered_iff {c : Component} {color : Color} {seen' : List Color}
    (h : c.color? = some color) : (∃ d, c.lettered seen = .ok d seen') ↔
      seen.count color < maxWiresPerColor ∧ seen' = color :: seen := by
  cases c with
  | wire w =>
    have hcolor : w.color = some color := h
    simp only [lettered, Functor.map, EStateM.map, Wire.lettered, hcolor]
    by_cases hcount : seen.count color < maxWiresPerColor
    · obtain ⟨letter, hletter⟩ := wireLetter_of_lt hcount
      rw [if_neg (Nat.not_le.mpr hcount), hletter]
      simp [hcount, eq_comm]
    · rw [if_pos (Nat.not_lt.mp hcount)]
      simp [hcount]
  | canvas | chip | net | pin | foreign => cases h

/-- Of each color there are wires before and in a schematic, and all of them need letters. -/
theorem exists_sweep_lettered_iff (h : ∀ c ∈ cs, c.Verified)
    (hseen : ∀ color, seen.count color ≤ maxWiresPerColor) :
    (∃ ds seen', sweep Component.lettered cs seen = ⟨ds, seen', none⟩) ↔
      ∀ color, seen.count color + (wireColors cs).count color ≤ maxWiresPerColor := by
  induction cs generalizing seen with
  | nil => simpa [wireColors, sweep] using hseen
  | cons c cs ih =>
    obtain ⟨hc, hcs⟩ := List.forall_mem_cons.mp h
    simp only [sweep_cons_eq]
    cases hcolor : c.color? with
    | none =>
      have hcolors : wireColors (c :: cs) = wireColors cs := List.filterMap_cons_none hcolor
      rw [hcolors, ← ih hcs hseen]
      constructor
      · rintro ⟨_, seen', d, seen₁, rest, hd, hrest, -⟩
        rw [Component.lettered_of_color?_eq_none hc hcolor] at hd
        cases hd
        exact ⟨rest, seen', hrest⟩
      · rintro ⟨rest, seen', hrest⟩
        exact ⟨_, seen', c, seen, rest, Component.lettered_of_color?_eq_none hc hcolor seen, hrest, rfl⟩
    | some own =>
      have hcolors : wireColors (c :: cs) = own :: wireColors cs := List.filterMap_cons_some hcolor
      have hsum : ∀ color, (own :: seen).count color + (wireColors cs).count color =
          seen.count color + (own :: wireColors cs).count color := by
        intro color
        rw [List.count_cons, List.count_cons]
        omega
      have hnext : seen.count own < maxWiresPerColor →
          ∀ color, (own :: seen).count color ≤ maxWiresPerColor := by
        intro hlt color
        have hle := hseen color
        rw [List.count_cons]
        split_ifs with heq
        · rw [← eq_of_beq heq]
          omega
        · omega
      rw [hcolors]
      constructor
      · rintro ⟨_, seen', d, seen₁, rest, hd, hrest, -⟩
        obtain ⟨hlt, rfl⟩ := (Component.exists_lettered_iff hcolor).mp ⟨d, hd⟩
        intro color
        rw [← hsum]
        exact (ih hcs (hnext hlt)).mp ⟨rest, seen', hrest⟩ color
      · intro hcount
        have hlt : seen.count own < maxWiresPerColor := by
          have hown := hcount own
          rw [List.count_cons_self] at hown
          omega
        obtain ⟨d, hd⟩ := (Component.exists_lettered_iff hcolor).mpr ⟨hlt, rfl⟩
        obtain ⟨rest, seen', hrest⟩ := (ih hcs (hnext hlt)).mpr fun color => by
          rw [hsum]
          exact hcount color
        exact ⟨_, seen', d, _, rest, hd, hrest, rfl⟩

theorem exists_letterAll_iff (h : ∀ c ∈ cs, c.Verified) (s : LoadState) :
    (∃ lettered s', letterAll cs s = ⟨lettered, s', none⟩) ↔
      ∀ color, (wireColors cs).count color ≤ maxWiresPerColor := by
  have hsweep := @exists_sweep_lettered_iff [] cs h (by simp)
  simp only [List.count_nil, Nat.zero_add] at hsweep
  rw [← hsweep]
  simp only [letterAll_eq_ok_iff]
  constructor
  · rintro ⟨lettered, _, seen, hlettered, -⟩
    exact ⟨lettered, seen, hlettered⟩
  · rintro ⟨lettered, seen, hlettered⟩
    exact ⟨lettered, _, seen, hlettered, rfl⟩

end Lettering

end Schematic
