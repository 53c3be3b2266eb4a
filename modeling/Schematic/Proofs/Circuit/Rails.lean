import Mathlib.Tactic.SplitIfs
import Schematic.Circuit.Connection
import Schematic.Proofs.Circuit.Resolution

/-! Levels of rails. The circuit looks for the first net that one of the two ends of a wire is on. Main
statement: on a canvas that nets span row by row, a cell beside all nets gets the level of the net on the
row of the other end. -/
namespace Schematic

theorem Rail.ofName?_eq_some_iff {s : String} {r : Rail} : Rail.ofName? s = some r ↔ s = r.name := by
  constructor
  · intro h
    have hf := List.find?_some h
    exact (beq_iff_eq.mp hf).symm
  · rintro rfl
    cases r <;> rfl

theorem Rail.voltage_eq_high_iff {r : Rail} : r.voltage = .high ↔ r = .vcc := by cases r <;> decide

theorem Rail.voltage_eq_low_iff {r : Rail} : r.voltage = .low ↔ r = .gnd := by cases r <;> decide

theorem Voltage.eq_floating_iff {v : Voltage} : v = .floating ↔ v ≠ .high ∧ v ≠ .low := by
  cases v <;> decide

/-- The end of the wire that is not on the cell, if the other one is. -/
def Wire.otherEnd (w : Wire) (cell : Vec) : Vec := if w.start = cell then w.stop else w.start

/-- The wire that connects a cell: of those with an end on it, the first. -/
def wireAt? (ws : List Wire) (cell : Vec) : Option Wire := ws.find? fun w => decide (w.Touches cell)

namespace Net

def row (n : Net) : Int := n.region.position.y

/-- The net covers its row of a canvas, and no cell else. -/
def Spans (n : Net) (bounds : Vec) : Prop := n.region = ⟨⟨0, n.row⟩, ⟨bounds.x, 1⟩⟩

theorem Spans.mem_region_iff {n : Net} {bounds p : Vec} (h : n.Spans bounds) (hp : p.Within bounds) :
    p ∈ n.region ↔ n.row = p.y := by
  obtain ⟨hx₀, hx₁, -, -⟩ := hp
  rw [h, Region.mem_def]
  dsimp only
  omega

theorem Spans.covers_eq {n : Net} {bounds p : Vec} (h : n.Spans bounds) (hp : p.Within bounds) :
    n.region.covers p = .ok (decide (n.row = p.y)) := by
  have hd : ¬n.region.Degenerate := by
    obtain ⟨hx₀, hx₁, -, -⟩ := hp
    rw [h]
    unfold Region.Degenerate
    dsimp only
    omega
  rw [Region.covers_of_not_degenerate hd]
  simp only [h.mem_region_iff hp]

theorem Spans.reachedBy_eq {n : Net} {bounds : Vec} {w : Wire} (h : n.Spans bounds)
    (hs : w.start.Within bounds) (ht : w.stop.Within bounds) :
    n.reachedBy w = .ok (decide (n.row = w.start.y ∨ n.row = w.stop.y)) := by
  unfold reachedBy
  rw [h.covers_eq hs, h.covers_eq ht]
  by_cases hstart : n.row = w.start.y <;> simp [hstart]

end Net

/-- The wire of the cell leads to a net of the rail. -/
def Feeds (r : Rail) (ws : List Wire) (ns : List Net) (cell : Vec) : Prop :=
  ∃ w, wireAt? ws cell = some w ∧ ∃ n ∈ ns, n.type = r.name ∧ n.row = (w.otherEnd cell).y

theorem feeds_perm_iff {r : Rail} {ws : List Wire} {ns ms : List Net} {cell : Vec} (h : ms.Perm ns) :
    Feeds r ws ms cell ↔ Feeds r ws ns cell := by
  simp only [Feeds, h.mem_iff]

/-- Wires end on the canvas. Nets are of rails, span the canvas, have a row each, and pass the cell by. -/
structure Clear (bounds : Vec) (ws : List Wire) (ns : List Net) (cell : Vec) : Prop where
  ends : ∀ w ∈ ws, w.start.Within bounds ∧ w.stop.Within bounds
  rails : ∀ n ∈ ns, ∃ r : Rail, n.type = r.name
  spans : ∀ n ∈ ns, n.Spans bounds
  rows : ∀ n ∈ ns, ∀ m ∈ ns, n.row = m.row → n = m
  aside : ∀ n ∈ ns, n.row ≠ cell.y

namespace Clear

variable {bounds cell : Vec} {ws : List Wire} {ns ms : List Net} {w : Wire} {p : Pin}

/-- The order of the nets does not matter. -/
theorem perm (h : Clear bounds ws ns cell) (hp : ms.Perm ns) : Clear bounds ws ms cell where
  ends := h.ends
  rails n hn := h.rails n (hp.mem_iff.mp hn)
  spans n hn := h.spans n (hp.mem_iff.mp hn)
  rows n hn m hm := h.rows n (hp.mem_iff.mp hn) m (hp.mem_iff.mp hm)
  aside n hn := h.aside n (hp.mem_iff.mp hn)

/-- The end on the cell is on no net, so that the other one decides. -/
theorem net?_eq (h : Clear bounds ws ns cell) (hw : w ∈ ws) (ht : w.Touches cell) :
    w.net? ns = .ok (ns.find? fun n => decide (n.row = (w.otherEnd cell).y)) := by
  obtain ⟨hstart, hstop⟩ := h.ends w hw
  have hspans := h.spans
  have haside := h.aside
  clear h
  induction ns with
  | nil => rfl
  | cons n ns ih =>
    obtain ⟨hn, hns⟩ := List.forall_mem_cons.mp hspans
    obtain ⟨ha, has⟩ := List.forall_mem_cons.mp haside
    have hother : (n.row = w.start.y ∨ n.row = w.stop.y) ↔ n.row = (w.otherEnd cell).y := by
      unfold Wire.otherEnd
      split_ifs with hs
      · rw [hs]
        exact or_iff_right ha
      · have he : w.stop = cell := ht.resolve_left hs
        rw [he]
        exact or_iff_left ha
    have hreached : n.reachedBy w = .ok (decide (n.row = (w.otherEnd cell).y)) := by
      rw [hn.reachedBy_eq hstart hstop]
      simp only [hother]
    rw [Wire.net?, hreached, ih hns has]
    by_cases hr : n.row = (w.otherEnd cell).y <;> simp [hr]

/-- A net that is found on a row is the only one there, and its rail gives the level. -/
theorem exists_rail (h : Clear bounds ws ns cell) {n : Net} {y : Int}
    (hn : ns.find? (fun n => decide (n.row = y)) = some n) :
    ∃ r : Rail, n.voltage = r.voltage ∧
      ∀ r' : Rail, (∃ m ∈ ns, m.type = r'.name ∧ m.row = y) ↔ r = r' := by
  have hmem := List.mem_of_find?_eq_some hn
  have hrow : n.row = y := by simpa using List.find?_some hn
  obtain ⟨r, hr⟩ := h.rails n hmem
  have hname : Rail.ofName? n.type = some r := Rail.ofName?_eq_some_iff.mpr hr
  refine ⟨r, by rw [Net.voltage, hname], fun r' => ?_⟩
  constructor
  · rintro ⟨m, hm, htype, hmrow⟩
    have he : m = n := h.rows m hm n hmem (hmrow.trans hrow.symm)
    rw [he, ← Rail.ofName?_eq_some_iff, hname] at htype
    exact Option.some.inj htype
  · rintro rfl
    exact ⟨n, hmem, hr, hrow⟩

/-- The level of a pin that has none yet. -/
theorem connect_eq (h : Clear bounds ws ns p.region.position) (hf : p.voltage = .floating) :
    ∃ v, p.connect ws ns = .ok (p.powered v) ∧ (v = .high ↔ Feeds .vcc ws ns p.region.position) ∧
      (v = .low ↔ Feeds .gnd ws ns p.region.position) := by
  have hself : p.powered .floating = p := by
    rw [← hf]
    rfl
  unfold Pin.connect
  cases hw : ws.find? fun w => decide (w.Touches p.region.position) with
  | none =>
    have hfeeds : ∀ r, ¬Feeds r ws ns p.region.position := by simp [Feeds, wireAt?, hw]
    refine ⟨.floating, by rw [hself], ?_, ?_⟩
    · exact iff_of_false (by decide) (hfeeds .vcc)
    · exact iff_of_false (by decide) (hfeeds .gnd)
  | some w =>
    have ht : w.Touches p.region.position := by simpa using List.find?_some hw
    have hfeeds : ∀ r, Feeds r ws ns p.region.position ↔
        ∃ n ∈ ns, n.type = r.name ∧ n.row = (w.otherEnd p.region.position).y := by
      simp [Feeds, wireAt?, hw]
    dsimp only
    rw [h.net?_eq (List.mem_of_find?_eq_some hw) ht, hfeeds, hfeeds]
    cases hn : ns.find? fun n => decide (n.row = (w.otherEnd p.region.position).y) with
    | none =>
      have hnone : ∀ r : Rail, ¬∃ n ∈ ns, n.type = r.name ∧
          n.row = (w.otherEnd p.region.position).y := by
        rintro r ⟨n, hmem, -, hrow⟩
        simpa [hrow] using List.find?_eq_none.mp hn n hmem
      refine ⟨.floating, by rw [hself], ?_, ?_⟩
      · exact iff_of_false (by decide) (hnone .vcc)
      · exact iff_of_false (by decide) (hnone .gnd)
    | some n =>
      obtain ⟨r, hv, honly⟩ := h.exists_rail hn
      refine ⟨n.voltage, rfl, ?_, ?_⟩
      · rw [hv, honly, Rail.voltage_eq_high_iff]
      · rw [hv, honly, Rail.voltage_eq_low_iff]

end Clear
end Schematic
