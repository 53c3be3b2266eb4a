import Mathlib.Data.List.Basic
import Schematic.Layout.Validity

/-! Valid schematics, without the order of the checks. Main statement: a schematic passes validation
exactly if its canvas does, each component does by itself, and no two components meet. -/
namespace Schematic

/-- Checks in a row pass exactly if each of them does. -/
theorem Except.unit_bind_eq_ok {ε β : Type} {x : Except ε Unit} {f : Unit → Except ε β} {b : β} :
    (x >>= f) = .ok b ↔ x = .ok () ∧ f () = .ok b := by
  cases x with
  | ok a => simp [bind, Except.bind]
  | error e => simp [bind, Except.bind]

namespace Component

/-- The region of a component that counts when two components are compared. -/
def cover? (c : Component) : Option Region :=
  c.region?.filter fun r => !decide r.Degenerate

/-- The components do not meet. -/
def Apart (a b : Component) : Prop :=
  ∀ r, a.cover? = some r → ∀ q, b.cover? = some q → ¬r.Meets q

theorem Apart.symm {a b : Component} (h : a.Apart b) : b.Apart a :=
  fun r hr q hq hm => h q hq r hr hm.symm

theorem cover?_eq_some_iff {c : Component} {r : Region} :
    c.cover? = some r ↔ c.region? = some r ∧ ¬r.Degenerate := by
  simp [cover?, Option.filter_eq_some_iff]

theorem region_eq_ok {c : Component} (h : c.kind?.isSome) : c.region = .ok c.region? := by
  cases c with
  | foreign text => cases h
  | canvas | chip | net | pin | wire => rfl

theorem isSome_kind?_of_check {bounds : Vec} {c : Component} (h : c.check bounds = .ok ()) :
    c.kind?.isSome := by
  cases c with
  | foreign text => cases h
  | canvas | chip | net | pin | wire => rfl

end Component

theorem checkEach_eq_ok_iff {bounds : Vec} {cs : List Component} :
    checkEach bounds cs = .ok () ↔ ∀ c ∈ cs, c.check bounds = .ok () := by
  unfold checkEach
  induction cs with
  | nil => simp [pure, Except.pure]
  | cons c cs ih =>
    rw [List.forM_eq_forM, List.forM_cons, Except.unit_bind_eq_ok, List.forall_mem_cons, ← ih,
      List.forM_eq_forM]

/-- What is compared, in order: the covering regions and their places. -/
def placedCovers (cs : List Component) : List (Nat × Region) :=
  cs.zipIdx.filterMap fun e => e.1.cover?.map fun r => (e.2, r)

theorem mapM_region_eq_ok {cs : List Component} (h : ∀ c ∈ cs, c.kind?.isSome) :
    cs.mapM Component.region = .ok (cs.map Component.region?) := by
  induction cs with
  | nil => rfl
  | cons c cs ih =>
    obtain ⟨hc, hcs⟩ := List.forall_mem_cons.mp h
    rw [List.mapM_cons, Component.region_eq_ok hc, ih hcs]
    rfl

theorem coveringRegions_eq_ok {cs : List Component} (h : ∀ c ∈ cs, c.kind?.isSome) :
    coveringRegions cs = .ok (placedCovers cs) := by
  unfold coveringRegions placedCovers
  rw [mapM_region_eq_ok h]
  change Except.ok _ = Except.ok _
  rw [List.zipIdx_map, List.filterMap_map]
  refine congrArg Except.ok (List.filterMap_congr ?_)
  rintro ⟨c, i⟩ -
  simp only [Function.comp_apply, Prod.map_apply, id_eq, Component.cover?]
  cases c.region? with
  | none => rfl
  | some r => by_cases hr : r.Degenerate <;> simp [Option.filter, hr]

theorem firstOverlap_eq_none_iff {rs : List (Nat × Region)} :
    firstOverlap rs = none ↔ rs.Pairwise fun a b => ¬a.2.Meets b.2 := by
  induction rs with
  | nil => simp [firstOverlap]
  | cons a rs ih =>
    rw [firstOverlap, List.pairwise_cons, ← ih]
    cases hf : rs.find? fun b => decide (a.2.Meets b.2) with
    | none =>
      have hn := List.find?_eq_none.mp hf
      simp only [decide_eq_true_eq] at hn
      exact (and_iff_right hn).symm
    | some b =>
      have hm : a.2.Meets b.2 := by simpa using List.find?_some hf
      have hb := List.mem_of_find?_eq_some hf
      simp only [reduceCtorEq, false_iff, not_and]
      exact fun h => absurd hm (h b hb)

theorem pairwise_placedCovers_iff {cs : List Component} :
    ((placedCovers cs).Pairwise fun a b => ¬a.2.Meets b.2) ↔ cs.Pairwise Component.Apart := by
  have hfst : cs.zipIdx.map Prod.fst = cs := List.zipIdx_map_fst 0 cs
  conv_rhs => rw [← hfst]
  rw [placedCovers, List.pairwise_filterMap, List.pairwise_map]
  refine List.Pairwise.iff fun a b => ?_
  simp only [Option.map_eq_some_iff, Component.Apart]
  constructor
  · intro h r hr q hq
    exact h _ ⟨r, hr, rfl⟩ _ ⟨q, hq, rfl⟩
  · rintro h _ ⟨r, hr, rfl⟩ _ ⟨q, hq, rfl⟩
    exact h r hr q hq

theorem checkOverlaps_eq_ok_iff {cs : List Component} (h : ∀ c ∈ cs, c.kind?.isSome) :
    checkOverlaps cs = .ok () ↔ cs.Pairwise Component.Apart := by
  rw [← pairwise_placedCovers_iff, ← firstOverlap_eq_none_iff]
  unfold checkOverlaps
  rw [coveringRegions_eq_ok h]
  cases hf : firstOverlap (placedCovers cs) with
  | none => simp [bind, Except.bind, hf]
  | some e => simp [bind, Except.bind, hf]

theorem soleCanvas_eq_ok_iff {cs : List Component} {c : Canvas} :
    soleCanvas cs = .ok c ↔ cs.filterMap Component.canvas? = [c] := by
  unfold soleCanvas
  split
  · next h => simp [h]
  · next h => simp [h]
  · next hnone hone =>
    constructor
    · intro h
      cases h
    · intro h
      exact absurd h (hone c)

/-- The terminal holds the canvas and its frame, or it is too small. -/
theorem Canvas.checkViewport_eq {canvas : Canvas} {v : Vec} : canvas.checkViewport v =
    if canvas.bounds.x + border ≤ v.x ∧ canvas.bounds.y + border ≤ v.y then .ok ()
    else .error (Cause.terminalTooSmall (canvas.bounds + ⟨border, border⟩) v) := by
  unfold checkViewport
  simp only [Vec.add_x, Vec.add_y]
  split_ifs with hsmall hfits hfits
  · omega
  · rfl
  · rfl
  · omega

/-- The checks of the canvas, by itself and against the terminal. -/
def Canvas.Fits (canvas : Canvas) (viewport : Option Vec) : Prop :=
  canvas.checkBounds = .ok () ∧ ∀ v ∈ viewport, canvas.checkViewport v = .ok ()

theorem validate_eq_ok_iff {cs : List Component} {canvas : Canvas} {viewport : Option Vec} :
    validate cs canvas viewport = .ok () ↔ canvas.Fits viewport ∧
      (∀ c ∈ cs, c.check canvas.bounds = .ok ()) ∧ cs.Pairwise Component.Apart := by
  have hrest : checkEach canvas.bounds cs = .ok () ∧ checkOverlaps cs = .ok () ↔
      (∀ c ∈ cs, c.check canvas.bounds = .ok ()) ∧ cs.Pairwise Component.Apart := by
    rw [checkEach_eq_ok_iff]
    refine and_congr_right fun hc => checkOverlaps_eq_ok_iff fun c h => ?_
    exact Component.isSome_kind?_of_check (hc c h)
  unfold validate Canvas.Fits
  rw [Except.unit_bind_eq_ok, ← hrest, and_assoc]
  cases viewport with
  | none => simp [Except.unit_bind_eq_ok]
  | some v => simp [Except.unit_bind_eq_ok]

section Changes

variable {cs ds : List Component} {canvas : Canvas} {viewport : Option Vec}

/-- A change that shows neither in the checks nor in the regions is nothing to validation. -/
theorem validate_of_map_eq {f : Component → Component}
    (hcheck : ∀ bounds c, (f c).check bounds = c.check bounds)
    (hregion : ∀ c, (f c).region? = c.region?) (h : ds.map f = cs.map f)
    (hv : validate cs canvas viewport = .ok ()) : validate ds canvas viewport = .ok () := by
  have hapart : ∀ c d, (f c).Apart (f d) ↔ c.Apart d := by
    intro c d
    simp only [Component.Apart, Component.cover?, hregion]
  have hmap : ∀ es : List Component,
      validate (es.map f) canvas viewport = .ok () ↔ validate es canvas viewport = .ok () := by
    intro es
    rw [validate_eq_ok_iff, validate_eq_ok_iff, List.forall_mem_map, List.pairwise_map]
    simp only [hcheck, hapart]
  rw [← hmap, h, hmap]
  exact hv

theorem validate_of_perm (h : cs.Perm ds) (hv : validate cs canvas viewport = .ok ()) :
    validate ds canvas viewport = .ok () := by
  obtain ⟨hfits, hcheck, hapart⟩ := validate_eq_ok_iff.mp hv
  refine validate_eq_ok_iff.mpr ⟨hfits, fun d hd => hcheck d (h.mem_iff.mpr hd), ?_⟩
  exact h.pairwise hapart fun hcd => hcd.symm

theorem validate_of_sublist (h : ds.Sublist cs) (hv : validate cs canvas viewport = .ok ()) :
    validate ds canvas viewport = .ok () := by
  obtain ⟨hfits, hcheck, hapart⟩ := validate_eq_ok_iff.mp hv
  exact validate_eq_ok_iff.mpr ⟨hfits, fun d hd => hcheck d (h.subset hd), hapart.sublist h⟩

end Changes

end Schematic
