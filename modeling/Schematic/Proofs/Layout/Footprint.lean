import Mathlib.Data.List.Nodup
import Mathlib.Tactic.SplitIfs
import Schematic.Proofs.Library.Template
import Schematic.Proofs.Load.Recall
import Schematic.Proofs.Region

/-! Footprints of templates. Main statement: an even number of pins fills two rows of cells, out along the bottom
row and back along the top row, and a chip is sized so that its region is the least one that holds them. -/
namespace Schematic

/-- The cells of a row, from left to right. -/
def cellRow (width : Nat) (y : Int) : List Vec := (List.range width).map fun x : Nat => ⟨x, y⟩

/-- The cells that the pins of a template take, in the order of the pins: out along the bottom row and back along
the top row. -/
def course (width : Nat) : List Vec := cellRow width 2 ++ (cellRow width 0).reverse

namespace Pin

/-- The cell that the pin stands on. -/
def cell (p : Pin) : Vec := p.region.position

def movedTo (p : Pin) (q : Vec) : Pin := { p with region := .single q }

@[simp] theorem cell_movedTo (p : Pin) (q : Vec) : (p.movedTo q).cell = q := rfl

end Pin

section Course

variable {width : Nat} {y : Int} {q : Vec}

theorem mem_cellRow : q ∈ cellRow width y ↔ 0 ≤ q.x ∧ q.x < width ∧ q.y = y := by
  unfold cellRow
  simp only [List.mem_map, List.mem_range]
  constructor
  · intro h
    obtain ⟨x, hx, hq⟩ := h
    rw [← hq]
    dsimp only
    omega
  · intro h
    obtain ⟨hleft, hright, hy⟩ := h
    have hx : ((q.x.toNat : Nat) : Int) = q.x := Int.toNat_of_nonneg hleft
    refine ⟨q.x.toNat, by omega, ?_⟩
    rw [hx, ← hy]

theorem nodup_cellRow (width : Nat) (y : Int) : (cellRow width y).Nodup := by
  refine List.Nodup.map ?_ List.nodup_range
  intro i j h
  have hx := congrArg Vec.x h
  dsimp only at hx
  omega

theorem mem_course : q ∈ course width ↔ 0 ≤ q.x ∧ q.x < width ∧ (q.y = 0 ∨ q.y = 2) := by
  unfold course
  rw [List.mem_append, List.mem_reverse, mem_cellRow, mem_cellRow]
  omega

theorem nodup_course (width : Nat) : (course width).Nodup := by
  refine List.Nodup.append (nodup_cellRow width 2) (List.nodup_reverse.mpr (nodup_cellRow width 0)) ?_
  intro q hbottom htop
  have hlow := (mem_cellRow.mp hbottom).2.2
  have hhigh := (mem_cellRow.mp (List.mem_reverse.mp htop)).2.2
  omega

@[simp] theorem length_course (width : Nat) : (course width).length = 2 * width := by
  simp only [course, cellRow, List.length_append, List.length_reverse, List.length_map, List.length_range]
  omega

/-- The places of the pins, one by one, are the course. -/
theorem getElem_course {i : Nat} (h : i < (course width).length) : (course width)[i] = footprint width i := by
  have hi := h
  rw [length_course] at hi
  unfold footprint
  split_ifs with hhalf
  · simp only [course, cellRow]
    rw [List.getElem_append_left (by simpa using hhalf)]
    simp
  · simp only [course, cellRow]
    rw [List.getElem_append_right (by simpa using hhalf)]
    simp only [List.getElem_reverse, List.getElem_map, List.getElem_range, List.length_map,
      List.length_range]
    congr 1
    omega

/-- The pin as far from the end as the `i`-th from the start has the cell across. -/
theorem footprint_across {i : Nat} (h : i < 2 * width) :
    (footprint width (2 * width - 1 - i)).x = (footprint width i).x ∧
      (footprint width (2 * width - 1 - i)).y ≠ (footprint width i).y := by
  unfold footprint
  split_ifs <;> dsimp only <;> omega

end Course

/-- `placed` are the pins `ps` on two rows of `width` cells each. -/
structure InTwoRows (width : Nat) (ps placed : List Pin) : Prop where
  /-- The pins stay what they are and keep their order. -/
  along : placed = List.zipWith Pin.movedTo ps (course width)
  distinct : (placed.map Pin.cell).Nodup
  fills : ∀ q, q ∈ placed.map Pin.cell ↔ 0 ≤ q.x ∧ q.x < width ∧ (q.y = 0 ∨ q.y = 2)
  /-- Pins as far from the start as from the end face each other. -/
  facing : ∀ i p p', placed[i]? = some p → placed[2 * width - 1 - i]? = some p' →
    p'.cell.x = p.cell.x ∧ p'.cell.y ≠ p.cell.y

/-- A region at the origin holds all pins exactly if it is no smaller than that size. -/
def LeastExtent (ps : List Pin) (size : Vec) : Prop :=
  ∀ extent : Vec, (∀ p ∈ ps, p.region ⊆ ⟨{}, extent⟩) ↔ size.x ≤ extent.x ∧ size.y ≤ extent.y

section Placed

variable {ps : List Pin} {width : Nat}

theorem placePins_eq_zipWith (h : ps.length = 2 * width) :
    placePins ps = List.zipWith Pin.movedTo ps (course width) := by
  have hhalf : ps.length / 2 = width := by omega
  refine List.ext_getElem (by simp [h]) ?_
  intro i hi hi'
  simp only [placePins, List.getElem_mapIdx, List.getElem_zipWith, getElem_course, hhalf, Pin.movedTo]

theorem map_cell_placePins (h : ps.length = 2 * width) : (placePins ps).map Pin.cell = course width := by
  refine List.ext_getElem (by simp [h]) ?_
  intro i hi hi'
  simp only [placePins_eq_zipWith h, List.getElem_map, List.getElem_zipWith, Pin.cell_movedTo]

theorem cell_of_getElem? (h : ps.length = 2 * width) {i : Nat} {p : Pin} (hp : (placePins ps)[i]? = some p) :
    i < 2 * width ∧ p.cell = footprint width i := by
  have hcell : (course width)[i]? = some p.cell := by
    rw [← map_cell_placePins h, List.getElem?_map, hp, Option.map_some]
  obtain ⟨hi, hcell⟩ := List.getElem?_eq_some_iff.mp hcell
  rw [getElem_course hi] at hcell
  rw [length_course] at hi
  exact ⟨hi, hcell.symm⟩

theorem inTwoRows_placePins (h : ps.length = 2 * width) : InTwoRows width ps (placePins ps) where
  along := placePins_eq_zipWith h
  distinct := by
    rw [map_cell_placePins h]
    exact nodup_course width
  fills q := by
    rw [map_cell_placePins h]
    exact mem_course
  facing := by
    intro i p p' hp hp'
    obtain ⟨hi, hcell⟩ := cell_of_getElem? h hp
    obtain ⟨-, hcell'⟩ := cell_of_getElem? h hp'
    rw [hcell, hcell']
    exact footprint_across hi

namespace InTwoRows

variable {placed : List Pin}

theorem region_of_mem (h : InTwoRows width ps placed) {p : Pin} (hp : p ∈ placed) :
    p.region = .single p.cell := by
  rw [h.along] at hp
  obtain ⟨i, hi, rfl⟩ := List.getElem_of_mem hp
  rw [List.getElem_zipWith]
  rfl

/-- The last pin of the bottom row keeps the extent from being any less. -/
theorem leastExtent (h : InTwoRows width ps placed) (hwidth : 0 < width) :
    LeastExtent placed ⟨width, chipHeight⟩ := by
  intro extent
  have hcells : (∀ p ∈ placed, p.region ⊆ ⟨{}, extent⟩) ↔
      ∀ q ∈ placed.map Pin.cell, q ∈ (⟨{}, extent⟩ : Region) := by
    rw [List.forall_mem_map]
    refine forall₂_congr fun p hp => ?_
    rw [h.region_of_mem hp, Region.single_subset_iff]
  simp only [hcells, h.fills, Region.mem_def, chipHeight]
  constructor
  · intro hall
    have hcorner := hall ⟨width - 1, 2⟩ ⟨by dsimp only; omega, by dsimp only; omega, .inr rfl⟩
    dsimp only at hcorner
    omega
  · intro hsize q hq
    omega

end InTwoRows

end Placed

/-- Sizing gets to a chip if it can have the templates of all chips before it and of the chip itself, and gives
it the width of half of its template. -/
theorem getElem?_sizeAll {read : TemplateReader} (canvas : Canvas) {before : List Component} {c : Chip}
    {s : LoadState} {ps : List Pin} (hbefore : Offered (s.recalling read) before)
    (hread : s.recalling read c.type = .ok ps) (after : List Component) :
    (sizeAll read canvas (before ++ .chip c :: after) s).items[before.length]? = some (.chip (c.sized ps)) := by
  obtain ⟨front, s₁, hfront⟩ := exists_sizeAll_of_offered canvas hbefore
  obtain ⟨hgrows, -, -⟩ := sizeAll_eq_ok hfront
  rw [← hgrows.recalling_eq] at hread
  obtain ⟨s₂, htemplate⟩ := exists_template_of_recalling hread
  have hsized : Component.sized read canvas.bounds (.chip c) s₁ = .ok (.chip (c.sized ps)) s₂ :=
    bind_eq_ok_iff.mpr ⟨ps, s₂, htemplate, rfl⟩
  have hlength : front.length = before.length := by
    have hitems := length_sweep (Component.sized read canvas.bounds) before s
    rw [← hitems]
    exact congrArg (fun r => r.items.length) hfront.symm
  unfold sizeAll at hfront ⊢
  rw [sweep_append_of_eq hfront, sweep, hsized, ← hlength]
  dsimp only
  rw [List.getElem?_append_right (Nat.le_refl _), Nat.sub_self, List.getElem?_cons_zero]

/-- A template of `2 * width` pins fills the two outer rows of three, each cell once, and a chip that sizing gets to
with such a template is given the extent of the least region at the origin that holds the pins. -/
theorem footprint_fills_two_rows {ps : List Pin} {width : Nat} (hne : ps ≠ [])
    (hlength : ps.length = 2 * width) : InTwoRows width ps (placePins ps) ∧
      ∀ (read : TemplateReader) (canvas : Canvas) (s : LoadState) (before after : List Component) (c : Chip),
        Offered (s.recalling read) before → s.recalling read c.type = .ok (placePins ps) →
        ∃ size, LeastExtent (placePins ps) size ∧
          (sizeAll read canvas (before ++ .chip c :: after) s).items[before.length]? =
            some (.chip { c with region := { c.region with size := size } }) := by
  have hrows := inTwoRows_placePins hlength
  refine ⟨hrows, ?_⟩
  intro read canvas s before after c hbefore hread
  have hwidth : 0 < width := by
    have hpos := List.length_pos_iff.mpr hne
    omega
  have hhalf : (placePins ps).length / 2 = width := by
    rw [length_placePins, hlength]
    omega
  have hchip := getElem?_sizeAll canvas hbefore hread after
  rw [Chip.sized, hhalf] at hchip
  exact ⟨_, hrows.leastExtent hwidth, hchip⟩

/-- The pins of a gate with four inputs, named out of order. -/
def sixPins : List Pin := ["d", "y", "a", "vcc", "b", "c"].map fun label => { label }

theorem footprint_fills_two_rows_sixPins :
    let read : TemplateReader := fun type =>
      if type = "six" then .ok (placePins sixPins) else .error (Cause.unknownType type)
    InTwoRows 3 sixPins (placePins sixPins) ∧
      ∃ size, LeastExtent (placePins sixPins) size ∧
        (sizeAll read { bounds := ⟨9, 5⟩ } [.chip { type := "six" }, .net { type := "vcc" },
          .chip { type := "six", region := ⟨⟨4, 1⟩, ⟨7, 7⟩⟩ }, .chip { type := "gone" }] {}).items[2]? =
            some (.chip { type := "six", region := ⟨⟨4, 1⟩, size⟩ }) := by
  intro read
  obtain ⟨hrows, hsized⟩ := @footprint_fills_two_rows sixPins 3 (by decide) rfl
  have hsix : LoadState.recalling {} read "six" = .ok (placePins sixPins) := rfl
  have hbefore : Offered (LoadState.recalling {} read) [.chip { type := "six" }, .net { type := "vcc" }] := by
    intro type htype
    rw [List.mem_singleton.mp htype]
    exact ⟨_, hsix⟩
  exact ⟨hrows, hsized read _ {} _ [.chip { type := "gone" }]
    { type := "six", region := ⟨⟨4, 1⟩, ⟨7, 7⟩⟩ } hbefore hsix⟩

end Schematic
