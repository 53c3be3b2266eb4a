import Mathlib.Data.List.Pairwise
import Schematic.Proofs.Load.Rails

/-! Cells under the cursor. In a loaded project, a cell belongs to one pin or net at most, so that wires alone can
stand before it. Main statement: the cursor finds the pin or net of a cell unless a wire with an end there comes
first, the first such wire otherwise, and nothing where there is neither. -/
namespace Schematic
open Schematic.Files

namespace Component

/-- The component is a pin or a net that covers the cell. -/
def Occupies (q : Vec) : Component → Prop
  | .net n => q ∈ n.region
  | .pin p => q ∈ p.region
  | .canvas _ | .chip _ | .wire _ | .foreign _ => False

instance (q : Vec) : (c : Component) → Decidable (c.Occupies q)
  | .net n => inferInstanceAs (Decidable (q ∈ n.region))
  | .pin p => inferInstanceAs (Decidable (q ∈ p.region))
  | .canvas _ | .chip _ | .wire _ | .foreign _ => .isFalse id

/-- The component is a wire with an end at the cell. -/
def EndsAt (q : Vec) : Component → Prop
  | .wire w => q = w.start ∨ q = w.stop
  | .canvas _ | .chip _ | .net _ | .pin _ | .foreign _ => False

instance (q : Vec) : (c : Component) → Decidable (c.EndsAt q)
  | .wire w => inferInstanceAs (Decidable (q = w.start ∨ q = w.stop))
  | .canvas _ | .chip _ | .net _ | .pin _ | .foreign _ => .isFalse id

/-- The cursor sees the component at the cell. -/
def Touches (q : Vec) (c : Component) : Prop := c.Occupies q ∨ c.EndsAt q

/-- Components as projects have them: a chip is none of them. -/
def Drawn (c : Component) : Prop := c.kind?.isSome ∧ c.chipType? = none

variable {c : Component} {q : Vec}

theorem Occupies.exists_region (h : c.Occupies q) : ∃ r, c.region? = some r ∧ q ∈ r := by
  cases c with
  | net n => exact ⟨n.region, rfl, h⟩
  | pin p => exact ⟨p.region, rfl, h⟩
  | canvas | chip | wire | foreign => cases h

theorem covers_eq_ok_iff (hc : c.Drawn) {b : Bool} : c.covers q = .ok b ↔ (b = true ↔ c.Touches q) := by
  obtain ⟨hkind, hchip⟩ := hc
  cases c with
  | canvas c => cases b <;> simp [covers, region, region?, Touches, Occupies, EndsAt]
  | chip c => cases hchip
  | net n => cases b <;> simp [covers, region, region?, Touches, Occupies, EndsAt]
  | pin p => cases b <;> simp [covers, region, region?, Touches, Occupies, EndsAt]
  | wire w => cases b <;> simp [covers, Touches, Occupies, EndsAt]
  | foreign text => cases hkind

end Component

section FirstCovering

variable {cs ds : List Component} {d : Component} {q : Vec}

theorem firstCovering_of_touches (hd : d.Drawn) (h : d.Touches q) (i : Nat) :
    Project.firstCovering q i (d :: ds) = .ok (some (i, d)) := by
  rw [Project.firstCovering, (Component.covers_eq_ok_iff hd).mpr (iff_of_true rfl h)]

theorem firstCovering_of_not_touches (hd : d.Drawn) (h : ¬d.Touches q) (i : Nat) :
    Project.firstCovering q i (d :: ds) = Project.firstCovering q (i + 1) ds := by
  rw [Project.firstCovering, (Component.covers_eq_ok_iff hd).mpr (iff_of_false Bool.false_ne_true h)]

variable (hcs : ∀ c ∈ cs, c.Drawn)
include hcs

theorem firstCovering_eq_some_iff {i j : Nat} {c : Component} :
    Project.firstCovering q i cs = .ok (some (j, c)) ↔
      ∃ k, j = i + k ∧ cs[k]? = some c ∧ c.Touches q ∧ ∀ m < k, ∀ d, cs[m]? = some d → ¬d.Touches q := by
  induction cs generalizing i with
  | nil => simp [Project.firstCovering]
  | cons d ds ih =>
    obtain ⟨hd, hds⟩ := List.forall_mem_cons.mp hcs
    by_cases ht : d.Touches q
    · rw [firstCovering_of_touches hd ht]
      constructor
      · rintro ⟨⟩
        exact ⟨0, rfl, rfl, ht, nofun⟩
      · rintro ⟨k, rfl, hk, -, hbefore⟩
        cases k with
        | zero =>
          cases hk
          rfl
        | succ k => exact absurd ht (hbefore 0 k.succ_pos d rfl)
    · rw [firstCovering_of_not_touches hd ht, ih hds]
      constructor
      · rintro ⟨k, rfl, hk, hc, hbefore⟩
        refine ⟨k + 1, by omega, hk, hc, fun m hm e he => ?_⟩
        cases m with
        | zero =>
          cases he
          exact ht
        | succ m => exact hbefore m (Nat.lt_of_succ_lt_succ hm) e he
      · rintro ⟨k, rfl, hk, hc, hbefore⟩
        cases k with
        | zero =>
          cases hk
          exact absurd hc ht
        | succ k =>
          exact ⟨k, by omega, hk, hc, fun m hm e he => hbefore (m + 1) (Nat.succ_lt_succ hm) e he⟩

theorem firstCovering_eq_none_iff {i : Nat} :
    Project.firstCovering q i cs = .ok none ↔ ∀ c ∈ cs, ¬c.Touches q := by
  induction cs generalizing i with
  | nil => simp [Project.firstCovering]
  | cons d ds ih =>
    obtain ⟨hd, hds⟩ := List.forall_mem_cons.mp hcs
    rw [List.forall_mem_cons]
    by_cases ht : d.Touches q
    · rw [firstCovering_of_touches hd ht]
      simp [ht]
    · rw [firstCovering_of_not_touches hd ht, ih hds, and_iff_right ht]

theorem exists_firstCovering_eq_ok (i : Nat) : ∃ found, Project.firstCovering q i cs = .ok found := by
  induction cs generalizing i with
  | nil => exact ⟨none, rfl⟩
  | cons d ds ih =>
    obtain ⟨hd, hds⟩ := List.forall_mem_cons.mp hcs
    by_cases ht : d.Touches q
    · exact ⟨_, firstCovering_of_touches hd ht i⟩
    · rw [firstCovering_of_not_touches hd ht]
      exact ih hds (i + 1)

end FirstCovering

section Descriptions

/-- The first letter of a description is that of the kind. -/
theorem Component.head?_of_describe {c : Component} {k : Kind} (hk : c.kind? = some k) {text : String}
    (h : c.describe = .ok text) : text.toList.head? = k.name.toList.head? := by
  cases c <;> cases hk <;> cases h <;> simp [describe?, Kind.name, String.toList_append]

theorem Kind.eq_of_head?_name {k m : Kind} (h : k.name.toList.head? = m.name.toList.head?) : k = m := by
  revert h
  cases k <;> cases m <;> decide

theorem Vec.head?_describe (q : Vec) : q.describe.toList.head? = some '(' := by
  simp [describe, String.toList_append]

/-- The text describes no chip and no canvas. -/
structure Undescribed (text : String) : Prop where
  chip : ∀ c : Chip, (Component.chip c).describe ≠ .ok text
  canvas : ∀ c : Canvas, (Component.canvas c).describe ≠ .ok text

theorem undescribed_vec (q : Vec) : Undescribed q.describe := by
  constructor <;>
  · intro c h
    have hhead := Component.head?_of_describe rfl h
    rw [Vec.head?_describe] at hhead
    revert hhead
    decide

theorem undescribed_of_touches {c : Component} {q : Vec} (hc : c.Touches q) {text : String}
    (h : c.describe = .ok text) : Undescribed text := by
  obtain ⟨k, hk, hchip, hcanvas⟩ : ∃ k, c.kind? = some k ∧ k ≠ .chip ∧ k ≠ .canvas := by
    cases c with
    | net | pin | wire => exact ⟨_, rfl, nofun, nofun⟩
    | canvas | chip | foreign => rcases hc with hc | hc <;> cases hc
  have hhead := Component.head?_of_describe hk h
  constructor
  · intro d hd
    exact hchip (Kind.eq_of_head?_name (hhead.symm.trans (Component.head?_of_describe rfl hd)))
  · intro d hd
    exact hcanvas (Kind.eq_of_head?_name (hhead.symm.trans (Component.head?_of_describe rfl hd)))

end Descriptions

/-- The component is what the cursor sees at the cell: its pin or net unless a wire with an end there comes first,
and otherwise the first such wire. -/
def Project.Sees (p : Project) (q : Vec) (i : Nat) (c : Component) : Prop :=
  p.components[i]? = some c ∧
    ((c.Occupies q ∧ ∀ j < i, ∀ d, p.components[j]? = some d → ¬d.EndsAt q) ∨
      (c.EndsAt q ∧ ∀ j < i, ∀ d, p.components[j]? = some d → ¬d.EndsAt q ∧ ¬d.Occupies q))

/-- No pin stands on the row between the two rows of a footprint. -/
theorem footprint_row_ne (width i : Nat) : (footprint width i).y ≠ 1 := by
  unfold footprint
  split_ifs
  · exact (by decide : (2 : Int) ≠ 1)
  · exact Int.zero_ne_one

/-- The row of a chip between its rows of pins, as wide as half of the pins of the template. -/
def Chip.Body (c : Chip) (template : List Pin) (q : Vec) : Prop :=
  c.region.position.x ≤ q.x ∧ q.x < c.region.position.x + (template.length / 2 : Nat) ∧
    q.y = c.region.position.y + 1

theorem Chip.SizedFor.mem_of_body {c : Chip} {template : List Pin} (h : c.SizedFor template) {q : Vec}
    (hq : c.Body template q) : q ∈ c.region := by
  obtain ⟨hleft, hright, hrow⟩ := hq
  rw [Region.mem_def, h]
  unfold chipHeight
  dsimp only
  omega

/-- The pins of a chip cover the cells of its footprint. -/
theorem Chip.exists_footprint_of_expand {c : Chip} {template : List Pin} {index : Int}
    (ht : IsTemplate template) {a : Pin} (ha : a ∈ c.expand template index) {q : Vec} (hq : q ∈ a.region) :
    ∃ i < template.length, q = footprint (template.length / 2) i + c.region.position := by
  obtain ⟨i, hi, rfl⟩ := List.getElem_of_mem ha
  have hi' := hi
  rw [Chip.length_expand] at hi'
  rw [Chip.region_getElem_expand ht hi' hi, Region.mem_single] at hq
  exact ⟨i, hi', hq⟩

theorem Chip.Body.ne_footprint {c : Chip} {template : List Pin} {q : Vec} (h : c.Body template q)
    (width i : Nat) : q ≠ footprint width i + c.region.position := by
  rintro rfl
  obtain ⟨-, -, hrow⟩ := h
  rw [Vec.add_y] at hrow
  have hne := footprint_row_ne width i
  omega

namespace Component

@[simp] theorem occupies_unpowered (q : Vec) (c : Component) : c.unpowered.Occupies q ↔ c.Occupies q := by
  cases c <;> rfl

theorem Apart.not_occupies {c d : Component} (h : c.Apart d) {r : Region} (hr : c.region? = some r) {q : Vec}
    (hq : q ∈ r) : ¬d.Occupies q := by
  intro hd
  obtain ⟨r', hr', hq'⟩ := hd.exists_region
  exact h.not_mem hr hr' q ⟨hq, hq'⟩

end Component

namespace Passage

variable {files : Tree} {input : Source.Input} {options : LoadOptions}
  {library? : Option Library} {p : Project} (t : Passage files input options library? p)
include t

theorem drawn {c : Component} (h : c ∈ p.components) : c.Drawn := by
  obtain ⟨-, hcheck, -⟩ := validate_eq_ok_iff.mp t.validate_components
  exact ⟨Component.isSome_kind?_of_check (hcheck c h), (t.boxed_components h).2⟩

theorem not_degenerate {c : Component} (h : c ∈ p.components) {r : Region} (hr : c.region? = some r) :
    ¬r.Degenerate := by
  obtain ⟨hboxed, hchip⟩ := t.boxed_components h
  have hpos := t.bounds_pos.1
  cases c with
  | chip c => cases hchip
  | net n =>
    cases hr
    obtain ⟨y, -, hregion⟩ := hboxed
    rw [hregion]
    rintro (hwidth | hheight)
    · exact Int.ne_of_gt hpos hwidth
    · cases hheight
  | pin a =>
    cases hr
    obtain ⟨q, hregion⟩ := hboxed
    rw [hregion]
    exact Region.not_degenerate_single q
  | canvas | wire | foreign => cases hr

/-- A cell has one occupant at most. -/
theorem occupies_unique {q : Vec} {i j : Nat} {c d : Component} (hi : p.components[i]? = some c)
    (hj : p.components[j]? = some d) (hc : c.Occupies q) (hd : d.Occupies q) : i = j := by
  have hapart : ∀ (i j : Nat) (c d : Component), p.components[i]? = some c → p.components[j]? = some d →
      c.Occupies q → d.Occupies q → ¬i < j := by
    intro i j c d hi hj hc hd hij
    obtain ⟨r, hr, hqr⟩ := hc.exists_region
    obtain ⟨r', hr', hqr'⟩ := hd.exists_region
    obtain ⟨hi', rfl⟩ := List.getElem?_eq_some_iff.mp hi
    obtain ⟨hj', rfl⟩ := List.getElem?_eq_some_iff.mp hj
    exact List.pairwise_iff_getElem.mp t.drawable.disjoint i j hi' hj' hij r hr r' hr' q ⟨hqr, hqr'⟩
  have hij := Nat.not_lt.mp (hapart i j c d hi hj hc hd)
  have hji := Nat.not_lt.mp (hapart j i d c hj hi hd hc)
  exact Nat.le_antisymm hji hij

theorem componentAt_eq_none_iff {q : Vec} :
    p.componentAt q = .ok none ↔ ∀ c ∈ p.components, ¬c.Occupies q ∧ ¬c.EndsAt q := by
  rw [Project.componentAt, firstCovering_eq_none_iff fun c hc => t.drawn hc]
  simp only [Component.Touches, not_or]

theorem componentAt_eq_some_iff {q : Vec} {i : Nat} {c : Component} :
    p.componentAt q = .ok (some (i, c)) ↔ p.Sees q i c := by
  rw [Project.componentAt, Project.Sees, firstCovering_eq_some_iff fun c hc => t.drawn hc]
  constructor
  · rintro ⟨k, rfl, hc, htouches, hbefore⟩
    rw [Nat.zero_add]
    refine ⟨hc, ?_⟩
    rcases htouches with h | h
    · exact .inl ⟨h, fun j hj d hd hends => hbefore j hj d hd (.inr hends)⟩
    · refine .inr ⟨h, fun j hj d hd => ⟨fun hends => hbefore j hj d hd (.inr hends), fun hd' => ?_⟩⟩
      exact hbefore j hj d hd (.inl hd')
  · rintro ⟨hc, ⟨h, hbefore⟩ | ⟨h, hbefore⟩⟩
    · refine ⟨i, (Nat.zero_add i).symm, hc, .inl h, fun j hj d hd htouches => ?_⟩
      rcases htouches with h' | h'
      · exact absurd (t.occupies_unique hd hc h' h) (Nat.ne_of_lt hj)
      · exact hbefore j hj d hd h'
    · refine ⟨i, (Nat.zero_add i).symm, hc, .inr h, fun j hj d hd htouches => ?_⟩
      rcases htouches with h' | h'
      · exact (hbefore j hj d hd).2 h'
      · exact (hbefore j hj d hd).1 h'

theorem componentAt_outside {q : Vec} (hq : ¬q.Within p.bounds) : p.componentAt q = .ok none := by
  refine t.componentAt_eq_none_iff.mpr fun c hc => ⟨fun h => ?_, fun h => ?_⟩
  · obtain ⟨r, hr, hqr⟩ := h.exists_region
    exact hq (t.drawable.within c hc r hr q hqr)
  · cases c with
    | wire w =>
      obtain ⟨hstart, hstop, -⟩ := t.drawable.wires w hc
      rcases h with rfl | rfl
      · exact hq hstart
      · exact hq hstop
    | canvas | chip | net | pin | foreign => cases h

/-- A chip keeps its type and its place when it is sized. -/
theorem exists_chip_mem_lettered {c : Chip} (h : .chip c ∈ t.source) :
    ∃ d : Chip, .chip d ∈ t.lettered ∧ d.type = c.type ∧ d.region.position = c.region.position := by
  obtain ⟨-, -, hletters⟩ := letterAll_eq_ok (t.library.template files) t.letter_eq
  have hsized := List.mem_map_of_mem (f := Component.resize t.sizedState.templateOf p.canvas.bounds) h
  rw [← t.sized_eq] at hsized
  exact ⟨_, mem_of_map_unlettered_eq hletters.symm rfl hsized, rfl, rfl⟩

/-- Only wires touch the body of a chip. -/
theorem not_occupies_body {c : Chip} (hc : .chip c ∈ t.lettered) {q : Vec}
    (hq : c.Body (t.templateOf c.type) q) {x : Component} (hx : x ∈ p.components) : ¬x.Occupies q := by
  obtain ⟨-, -, hapart⟩ := validate_eq_ok_iff.mp t.validate_lettered
  have hsymm : Std.Symm Component.Apart := ⟨fun _ _ h => h.symm⟩
  obtain ⟨-, hsize⟩ := t.fitsTemplate hc
  have hmem := hsize.mem_of_body hq
  obtain ⟨y, hy, hxy⟩ := exists_of_map_unpowered_eq t.resolves.map_unpowered hx
  rw [← Component.occupies_unpowered, ← hxy, Component.occupies_unpowered]
  rw [t.flat_eq] at hy
  rcases exists_of_mem_flatten_blocks hy with ⟨hy, hchip⟩ | ⟨d, index, a, hd, ha, rfl⟩
  · have hne : Component.chip c ≠ y := by
      rintro rfl
      cases hchip
    exact (hapart.forall hc hy hne).not_occupies rfl hmem
  · obtain ⟨ht, hsize'⟩ := t.fitsTemplate hd
    intro ha'
    obtain ⟨i, hi, hcell⟩ := Chip.exists_footprint_of_expand ht ha ha'
    -- The pins of the chip itself stand on other rows, and those of another chip in a region apart.
    by_cases hsame : d = c
    · rw [hsame] at hcell
      exact hq.ne_footprint _ _ hcell
    · have hmem' : q ∈ d.region := by
        rw [hcell]
        exact Chip.mem_region_of_expand ht hsize' hi
      exact (hapart.forall hc hd (by simpa using Ne.symm hsame)).not_mem rfl rfl q ⟨hmem, hmem'⟩

theorem componentAt_body {c : Chip} (hc : .chip c ∈ t.lettered) {q : Vec}
    (hq : c.Body (t.templateOf c.type) q) (hends : ∀ x ∈ p.components, ¬x.EndsAt q) :
    p.componentAt q = .ok none :=
  t.componentAt_eq_none_iff.mpr fun x hx => ⟨t.not_occupies_body hc hq hx, hends x hx⟩

theorem covers_eq {c : Component} (h : c ∈ p.components) {r : Region} (hr : c.region? = some r) (q : Vec) :
    r.covers q = .ok (decide (q ∈ r)) := Region.covers_of_not_degenerate (t.not_degenerate h hr) q

theorem report_of_sees {q : Vec} {i : Nat} {c : Component} (h : p.Sees q i c) : p.report q = c.describe := by
  rw [Project.report, t.componentAt_eq_some_iff.mpr h]

theorem exists_report (q : Vec) : ∃ text, p.report q = .ok text ∧ Undescribed text := by
  obtain ⟨found, hfound⟩ := exists_firstCovering_eq_ok (q := q) (fun c hc => t.drawn hc) 0
  rcases found with _ | ⟨i, c⟩
  · refine ⟨q.describe, ?_, undescribed_vec q⟩
    rw [Project.report, Project.componentAt, hfound]
  · have hsees := t.componentAt_eq_some_iff.mp hfound
    have htouches : c.Touches q := hsees.2.imp And.left And.left
    obtain ⟨text, htext⟩ : ∃ text, c.describe = .ok text := by
      cases c with
      | net | pin | wire => exact ⟨_, rfl⟩
      | canvas | chip | foreign => rcases htouches with h | h <;> cases h
    exact ⟨text, (t.report_of_sees hsees).trans htext, undescribed_of_touches htouches htext⟩

end Passage

/-- In a loaded project, a cell has one pin or net at most. The cursor always finds that, the first wire with an end
at the cell, or nothing: nothing outside the canvas, and on the body of a chip only wires. No region of the project
is degenerate, and no chip and no canvas is reported. -/
theorem cursor_finds {files : Tree} {input : Source.Input} {options : LoadOptions} {library? : Option Library}
    {log : Log} {p : Project} (h : (load files input options library? log).project = .ok (some p)) (q : Vec) :
    (∀ (i j : Nat) (c d : Component), p.components[i]? = some c → p.components[j]? = some d →
      c.Occupies q → d.Occupies q → i = j) ∧
    (∃ found, p.componentAt q = .ok found) ∧
    (∀ i c, p.componentAt q = .ok (some (i, c)) ↔ p.Sees q i c) ∧
    (p.componentAt q = .ok none ↔ ∀ c ∈ p.components, ¬c.Occupies q ∧ ¬c.EndsAt q) ∧
    (¬q.Within p.bounds → p.componentAt q = .ok none) ∧
    (∀ source, input.read files = .ok source →
      ∃ library, chosenLibrary files options library? = .ok library ∧
        ∀ chip : Chip, .chip chip ∈ source →
          ∃ template, library.template files chip.type = .ok template ∧
            (chip.Body template q → (∀ c ∈ p.components, ¬c.EndsAt q) → p.componentAt q = .ok none)) ∧
    (∀ c ∈ p.components, ∀ r, c.region? = some r → r.covers q = .ok (decide (q ∈ r))) ∧
    (∀ i c, p.Sees q i c → p.report q = c.describe) ∧
    ∃ text, p.report q = .ok text ∧ Undescribed text := by
  obtain ⟨t, -⟩ := exists_passage h
  refine ⟨fun i j c d hi hj hc hd => t.occupies_unique hi hj hc hd,
    exists_firstCovering_eq_ok (fun c hc => t.drawn hc) 0, fun i c => t.componentAt_eq_some_iff,
    t.componentAt_eq_none_iff, t.componentAt_outside, ?_, fun c hc r hr => t.covers_eq hc hr q,
    fun i c => t.report_of_sees, t.exists_report q⟩
  intro source hread
  have hsource : t.source = source := Except.ok.inj (t.read_eq.symm.trans hread)
  refine ⟨t.library, t.library_eq, fun chip hchip => ?_⟩
  rw [← hsource] at hchip
  obtain ⟨d, hd, htype, hposition⟩ := t.exists_chip_mem_lettered hchip
  refine ⟨t.templateOf chip.type, ?_, fun hbody hends => ?_⟩
  · rw [← htype]
    exact t.template_eq (mem_chipTypes hd)
  · refine t.componentAt_body hd ?_ hends
    rw [Chip.Body, htype, hposition]
    exact hbody

/-- A buffer whose input is on a wire from the rail, where the wire is declared first. -/
def wireFirst : Source.Input := .text (String.join [
  ":meta bounds 4 5\n",
  ":wire color red from 1 3 to 3 0\n",
  ":net type vcc y 0\n",
  ":chip type gates/buf pos 1 1\n"])

def railWire : Component := .wire ⟨some .red, ⟨1, 3⟩, ⟨3, 0⟩, "a", some ⟨2, none⟩⟩

def rail : Component := .net ⟨"vcc", ⟨⟨0, 0⟩, ⟨4, 1⟩⟩, some ⟨3, none⟩⟩

def wireFirstProject : Project where
  canvas := ⟨⟨4, 5⟩, some ⟨1, none⟩⟩
  components := [.canvas ⟨⟨4, 5⟩, some ⟨1, none⟩⟩, railWire, rail] ++ bufferPins "_buf_1" 1 4 .high .high

theorem load_wireFirst : (load .fresh wireFirst {} none []).project = .ok (some wireFirstProject) := by
  decide +kernel

theorem cursor_finds_wireFirst :
    wireFirstProject.componentAt ⟨3, 0⟩ = .ok (some (1, railWire)) ∧
    wireFirstProject.report ⟨3, 0⟩ = .ok "wire red a from (1, 3) to (3, 0)" ∧
    wireFirstProject.componentAt ⟨2, 0⟩ = .ok (some (2, rail)) ∧
    wireFirstProject.componentAt ⟨1, 2⟩ = .ok none ∧
    wireFirstProject.componentAt ⟨4, 0⟩ = .ok none ∧
    (⟨⟨0, 0⟩, ⟨4, 1⟩⟩ : Region).covers ⟨2, 0⟩ = .ok true ∧
    ∀ i, wireFirstProject.components[i]? = some rail → i = 2 := by
  have hload := load_wireFirst
  have hread : wireFirst.read .fresh = .ok [
      .canvas ⟨⟨4, 5⟩, some ⟨1, none⟩⟩, .wire ⟨some .red, ⟨1, 3⟩, ⟨3, 0⟩, "", some ⟨2, none⟩⟩,
      .net ⟨"vcc", ⟨⟨0, 0⟩, ⟨0, 1⟩⟩, some ⟨3, none⟩⟩,
      .chip ⟨"gates/buf", ⟨⟨1, 1⟩, ⟨0, chipHeight⟩⟩, some ⟨4, none⟩⟩] := by decide +kernel
  obtain ⟨-, -, hwire, -, -, -, -, hreport, -⟩ := cursor_finds hload ⟨3, 0⟩
  obtain ⟨hunique, -, hrail, -, -, -, hcovers, -, -⟩ := cursor_finds hload ⟨2, 0⟩
  obtain ⟨-, -, -, -, -, hbody, -, -, -⟩ := cursor_finds hload ⟨1, 2⟩
  obtain ⟨-, -, -, -, houtside, -, -, -, -⟩ := cursor_finds hload ⟨4, 0⟩
  have hoccupies : rail.Occupies ⟨2, 0⟩ := by decide
  have hseesWire : wireFirstProject.Sees ⟨3, 0⟩ 1 railWire := by
    refine ⟨rfl, .inr ⟨.inr rfl, fun j hj d hd => ?_⟩⟩
    obtain rfl : j = 0 := by omega
    cases hd
    exact ⟨id, id⟩
  have hseesRail : wireFirstProject.Sees ⟨2, 0⟩ 2 rail := by
    refine ⟨rfl, .inl ⟨hoccupies, fun j hj d hd => ?_⟩⟩
    obtain rfl | rfl : j = 0 ∨ j = 1 := by omega
    · cases hd
      exact id
    · cases hd
      rintro (h | h) <;> cases h
  refine ⟨(hwire 1 railWire).mpr hseesWire, ?_, (hrail 2 rail).mpr hseesRail, ?_, houtside (by decide), ?_, ?_⟩
  · rw [hreport 1 railWire hseesWire]
    decide +kernel
  · obtain ⟨library, -, hchips⟩ := hbody _ hread
    obtain ⟨template, htemplate, hnone⟩ := hchips _ (List.mem_cons_of_mem _ (List.mem_cons_of_mem _
      (List.mem_cons_of_mem _ (List.mem_singleton_self _))))
    obtain ⟨hne, heven, -⟩ := Library.isTemplate_of_template htemplate
    have hlength := List.length_pos_of_ne_nil hne
    refine hnone ⟨by decide, ?_, by decide⟩ ?_
    · dsimp only
      omega
    · decide +kernel
  · exact hcovers rail (by decide +kernel) _ rfl
  · exact fun i hi => hunique i 2 rail rail hi rfl hoccupies hoccupies

end Schematic
