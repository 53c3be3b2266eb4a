import Schematic.Proofs.Load.Rails

/-! Validation, cell by cell. The checks look at corners, at rows and at edges, and this is as good as looking
at every cell once a source has been sized. Main statement: a sized source is valid exactly if its canvas and
terminal are large enough, its nets are rails, and each cell of a chip, a net or a pin is a cell of the canvas
that none of the others has, as are the two ends of each wire. -/
namespace Schematic
open Schematic.Files

/-- What sizing makes of a declared component: it has cells, if it has a region at all. -/
def Component.Sized (bounds : Vec) : Component → Prop
  | .chip c => c.type ≠ "" ∧ 1 ≤ c.region.size.x ∧ 1 ≤ c.region.size.y
  | c => c.Boxed bounds

/-- The component has its place on the canvas, whatever stands beside it. -/
def Component.Placed (bounds : Vec) : Component → Prop
  | .canvas _ => True
  | .chip c => ∀ q ∈ c.region, q.Within bounds
  | .net n => (n.type = "vcc" ∨ n.type = "gnd") ∧ ∀ q ∈ n.region, q.Within bounds
  | .pin p => ∀ q ∈ p.region, q.Within bounds
  | .wire w => w.start.Within bounds ∧ w.stop.Within bounds ∧ w.start ≠ w.stop
  | .foreign _ => False

/-- No cell belongs to both components. -/
def Component.Disjoint (c d : Component) : Prop :=
  ∀ r, c.region? = some r → ∀ r', d.region? = some r' → ∀ q, ¬(q ∈ r ∧ q ∈ r')

/-- The region of the component, if it has one, has no negative extent. -/
def Component.Measured (c : Component) : Prop :=
  ∀ r, c.region? = some r → 0 ≤ r.size.x ∧ 0 ≤ r.size.y

theorem Rail.isNone_ofName?_iff {s : String} :
    (ofName? s).isNone ↔ ¬(s = "vcc" ∨ s = "gnd") := by
  rw [← not_iff_not, not_not, Bool.not_eq_true, Option.isNone_eq_false_iff, Option.isSome_iff_exists]
  constructor
  · rintro ⟨r, hr⟩
    rw [ofName?_eq_some_iff.mp hr]
    cases r with
    | vcc => exact .inl rfl
    | gnd => exact .inr rfl
  · rintro (rfl | rfl)
    · exact ⟨.vcc, rfl⟩
    · exact ⟨.gnd, rfl⟩

namespace Region

variable {r : Region} {bounds : Vec}

theorem solid_of_not_degenerate (h : 0 ≤ r.size.x ∧ 0 ≤ r.size.y) (hr : ¬r.Degenerate) :
    1 ≤ r.size.x ∧ 1 ≤ r.size.y := by
  unfold Degenerate at hr
  omega

/-- The corners of a rectangle speak for all of its cells. -/
theorem forall_mem_within_iff (hx : 1 ≤ r.size.x) (hy : 1 ≤ r.size.y) :
    (∀ q ∈ r, q.Within bounds) ↔ r.position.Within bounds ∧
      (r.position + r.size + ⟨-1, -1⟩).Within bounds := by
  simp only [mem_def, Vec.Within, Vec.add_x, Vec.add_y]
  constructor
  · intro h
    have hnear := h r.position ⟨by omega, by omega, by omega, by omega⟩
    have hfar := h ⟨r.position.x + r.size.x - 1, r.position.y + r.size.y - 1⟩
      ⟨by dsimp only; omega, by dsimp only; omega, by dsimp only; omega, by dsimp only; omega⟩
    dsimp only at hfar
    omega
  · intro h q hq
    omega

/-- All cells of a row are on the canvas exactly if the row is above its lower side. -/
theorem forall_mem_row_within_iff {y : Int} (hy : 0 ≤ y) (hx : 0 < bounds.x) :
    (∀ q ∈ (⟨⟨0, y⟩, ⟨bounds.x, 1⟩⟩ : Region), q.Within bounds) ↔ ¬bounds.y ≤ y := by
  rw [forall_mem_within_iff (by dsimp only; omega) (by dsimp only; omega)]
  simp only [Vec.Within, Vec.add_x, Vec.add_y]
  omega

end Region

namespace Component

variable {bounds : Vec} {c d : Component}

theorem Sized.solid (h : c.Sized bounds) (hx : 0 < bounds.x) {r : Region} (hr : c.region? = some r) :
    1 ≤ r.size.x ∧ 1 ≤ r.size.y := by
  cases c with
  | chip c =>
    cases hr
    exact h.2
  | net n =>
    cases hr
    obtain ⟨y, -, hn⟩ := h
    rw [hn]
    exact ⟨hx, Int.le_refl 1⟩
  | pin p =>
    cases hr
    obtain ⟨q, hp⟩ := h
    rw [hp]
    exact ⟨Int.le_refl 1, Int.le_refl 1⟩
  | canvas | wire | foreign => cases hr

/-- The checks of a component look at no more cells than its region has, and miss none. -/
theorem check_eq_ok_iff (h : c.Sized bounds) (hx : 0 < bounds.x) :
    c.check bounds = .ok () ↔ c.Placed bounds := by
  cases c with
  | canvas c => exact ⟨fun _ => trivial, fun _ => rfl⟩
  | chip c =>
    obtain ⟨htype, hwidth, hheight⟩ := h
    rw [Placed, Region.forall_mem_within_iff hwidth hheight]
    simp only [check, if_neg htype]
    split_ifs with hin
    · simp [hin]
    · simp [hin]
  | net n =>
    obtain ⟨y, hy, hn⟩ := h
    rw [Placed, hn, Region.forall_mem_row_within_iff hy hx]
    simp only [check, hn, Rail.isNone_ofName?_iff]
    split_ifs with htype hrow
    · simp [hrow]
    · simp [htype, hrow]
    · simp [htype]
  | pin p =>
    obtain ⟨q, hp⟩ := h
    have hposition : (Region.single q).position = q := rfl
    simp only [Placed, check, hp, hposition, Region.mem_single, forall_eq]
    split_ifs with hin
    · simp [hin]
    · simp [hin]
  | wire w =>
    simp only [Placed, check]
    split_ifs with hstart hstop hsame
    · simp [hsame]
    · simp [hstart, hstop, hsame]
    · simp [hstop]
    · simp [hstart]
  | foreign text => exact ⟨fun hcheck => (by cases hcheck), fun hplaced => hplaced.elim⟩

theorem Sized.measured (h : c.Sized bounds) (hx : 0 < bounds.x) : c.Measured := by
  intro r hr
  obtain ⟨hwidth, hheight⟩ := h.solid hx hr
  omega

/-- The comparison of edges finds the common cells, and regions that are left out of it have no cells. -/
theorem apart_iff_disjoint_of_measured (hc : c.Measured) (hd : d.Measured) :
    c.Apart d ↔ c.Disjoint d := by
  constructor
  · intro h r hr r' hr' q
    exact h.not_mem hr hr' q
  · intro h r hr r' hr' hmeets
    obtain ⟨hr, hcovers⟩ := cover?_eq_some_iff.mp hr
    obtain ⟨hr', hcovers'⟩ := cover?_eq_some_iff.mp hr'
    have hsolid := Region.solid_of_not_degenerate (hc r hr) hcovers
    have hsolid' := Region.solid_of_not_degenerate (hd r' hr') hcovers'
    obtain ⟨q, hq⟩ := (Region.meets_iff_exists_mem hsolid hsolid').mp hmeets
    exact h r hr r' hr' q hq

theorem apart_iff_disjoint (hc : c.Sized bounds) (hd : d.Sized bounds) (hx : 0 < bounds.x) :
    c.Apart d ↔ c.Disjoint d :=
  apart_iff_disjoint_of_measured (hc.measured hx) (hd.measured hx)

/-- Templates have pins, so that chips get a width. -/
theorem Declared.sized_resize {templateOf : String → List Pin} (h : c.Declared)
    (htemplate : ∀ type ∈ c.chipType?, IsTemplate (templateOf type)) (bounds : Vec) :
    (c.resize templateOf bounds).Sized bounds := by
  have hboxed := Declared.boxed_resize h templateOf bounds
  cases c with
  | chip c =>
    obtain ⟨-, hverify⟩ := h
    obtain ⟨hne, heven, -⟩ := htemplate c.type rfl
    have hlength := List.length_pos_iff.mpr hne
    refine ⟨?_, ?_, ?_⟩
    · intro htype
      change c.type = "" at htype
      rw [verify, if_pos htype] at hverify
      cases hverify
    · simp only [Chip.sized]
      omega
    · simp [Chip.sized, chipHeight]
  | canvas | net | pin | wire | foreign => exact hboxed

end Component

/-- The canvas has an extent, and the terminal holds it and its frame. -/
theorem Canvas.fits_iff {canvas : Canvas} {viewport : Option Vec} : canvas.Fits viewport ↔
    canvas.bounds.x ≠ 0 ∧ canvas.bounds.y ≠ 0 ∧
      ∀ v ∈ viewport, canvas.bounds.x + border ≤ v.x ∧ canvas.bounds.y + border ≤ v.y := by
  have hbounds : canvas.checkBounds = .ok () ↔ canvas.bounds.x ≠ 0 ∧ canvas.bounds.y ≠ 0 := by
    unfold checkBounds
    split_ifs with hboth hone
    · simp [hboth]
    · simp only [false_iff]
      omega
    · simp only [true_iff]
      omega
  have hviewport : ∀ v, canvas.checkViewport v = .ok () ↔
      canvas.bounds.x + border ≤ v.x ∧ canvas.bounds.y + border ≤ v.y := by
    intro v
    rw [checkViewport_eq]
    split_ifs with hfits
    · exact iff_of_true rfl hfits
    · exact iff_of_false nofun hfits
  unfold Fits
  simp only [hbounds, hviewport, and_assoc]

/-- A source that has been sized is valid exactly if its canvas has an extent that fits the terminal, each of
its components has its place on the canvas, and no cell belongs to two of them. -/
theorem validate_iff_disjoint_cells {files files' : Tree} {input : Source.Input} {library : Library}
    {canvas : Canvas} {viewport : Option Vec} {cs sized : List Component} {s s' : LoadState}
    (hread : input.read files = .ok cs) (hcanvas : .canvas canvas ∈ cs)
    (hs : ∀ e ∈ s.templates, IsTemplate e.2)
    (hsize : sizeAll (library.template files') canvas cs s = ⟨sized, s', none⟩) :
    validate sized canvas viewport = .ok () ↔
      (canvas.bounds.x ≠ 0 ∧ canvas.bounds.y ≠ 0 ∧
        ∀ v ∈ viewport, canvas.bounds.x + border ≤ v.x ∧ canvas.bounds.y + border ≤ v.y) ∧
      (∀ c ∈ sized, c.Placed canvas.bounds) ∧ sized.Pairwise Component.Disjoint := by
  have hdeclared := Source.declared_of_read hread
  obtain ⟨hgrows, hknows, rfl⟩ := sizeAll_eq_ok hsize
  have htemplates := hgrows.forall_templates (fun _ _ hr => Library.isTemplate_of_template hr) hs
  have hsized : ∀ c ∈ cs.map (Component.resize s'.templateOf canvas.bounds),
      c.Sized canvas.bounds := by
    intro c hc
    obtain ⟨d, hd, rfl⟩ := List.mem_map.mp hc
    refine Component.Declared.sized_resize (hdeclared d hd) (fun type htype => ?_) canvas.bounds
    exact isTemplate_templateOf htemplates (hknows type (List.mem_filterMap.mpr ⟨d, hd, htype⟩))
  rw [validate_eq_ok_iff, Canvas.fits_iff]
  refine and_congr_right fun hfits => ?_
  have hx : 0 < canvas.bounds.x := by
    obtain ⟨hrange, -⟩ := (hdeclared _ hcanvas).1
    have hnonneg := hrange.1
    have hne := hfits.1
    omega
  refine and_congr (forall₂_congr fun c hc => Component.check_eq_ok_iff (hsized c hc) hx) ?_
  exact List.Pairwise.iff_of_mem fun {c d} hc hd =>
    Component.apart_iff_disjoint (hsized c hc) (hsized d hd) hx

/-- The source `buffers`, as its lines declare it. -/
def bufferSource : List Component := [
  .canvas ⟨⟨4, 5⟩, some ⟨1, none⟩⟩,
  .net ⟨"vcc", ⟨⟨0, 0⟩, ⟨0, 1⟩⟩, some ⟨2, none⟩⟩,
  .chip ⟨"gates/buf", ⟨⟨1, 1⟩, ⟨0, chipHeight⟩⟩, some ⟨3, none⟩⟩,
  .wire ⟨some .red, ⟨1, 3⟩, ⟨3, 0⟩, "", some ⟨4, none⟩⟩,
  .chip ⟨"gates/buf", ⟨⟨2, 1⟩, ⟨0, chipHeight⟩⟩, some ⟨5, none⟩⟩]

theorem validate_iff_disjoint_cells_buffers :
    ∃ sized s', buffers.read .fresh = .ok bufferSource ∧
      sizeAll (Library.onlyBundled.template .fresh) bufferProject.canvas bufferSource {} =
        ⟨sized, s', none⟩ ∧
      validate sized bufferProject.canvas (some ⟨6, 7⟩) = .ok () ∧
      (∀ c ∈ sized, c.Placed ⟨4, 5⟩) ∧ sized.Pairwise Component.Disjoint ∧
      validate sized bufferProject.canvas (some ⟨6, 6⟩) ≠ .ok () := by
  have hread : buffers.read .fresh = .ok bufferSource := by decide +kernel
  let r := sizeAll (Library.onlyBundled.template .fresh) bufferProject.canvas bufferSource {}
  have hfailure : r.failure = none := by decide +kernel
  have hsize : sizeAll (Library.onlyBundled.template .fresh) bufferProject.canvas bufferSource {} =
      ⟨r.items, r.state, none⟩ := Sweep.eq_of_failure_eq_none hfailure
  have hvalid : validate r.items bufferProject.canvas (some ⟨6, 7⟩) = .ok () := by decide +kernel
  have hcells : ∀ viewport, validate r.items bufferProject.canvas viewport = .ok () ↔ _ :=
    fun viewport => validate_iff_disjoint_cells hread (by decide) (by simp) hsize
  obtain ⟨-, hplaced, hdisjoint⟩ := (hcells (some ⟨6, 7⟩)).mp hvalid
  refine ⟨r.items, r.state, hread, hsize, hvalid, hplaced, hdisjoint, fun h => ?_⟩
  obtain ⟨⟨-, -, hviewport⟩, -⟩ := (hcells (some ⟨6, 6⟩)).mp h
  exact absurd (hviewport ⟨6, 6⟩ rfl).2 (by decide)

end Schematic
