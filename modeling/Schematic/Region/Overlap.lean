import Schematic.Failure

/-! Shared cells of regions. Main statements: regions of at least one cell pass the edge test exactly
if they share a cell, and the test against a single cell is membership. -/
namespace Schematic.Region

/-- The edges of a region that has any. -/
def edgesOrFault (r : Region) : Except Failure Edges :=
  if r.Degenerate then .error (Fault.degenerateRegion r) else .ok r.edges

/-- Whether `a` and `b` share a cell. A degenerate region is a fault, that of `a` first. -/
def overlaps (a b : Region) : Except Failure Bool :=
  if a.Degenerate then .error (Fault.degenerateRegion a)
  else if b.Degenerate then .error (Fault.degenerateRegion b)
  else .ok (decide (a.Meets b))

/-- Whether `r` covers the cell `p`. -/
def covers (r : Region) (p : Vec) : Except Failure Bool := r.overlaps (single p)

theorem not_degenerate_single (p : Vec) : ¬(single p).Degenerate := by
  simp [Degenerate, single]

theorem overlaps_of_not_degenerate {a b : Region} (ha : ¬a.Degenerate) (hb : ¬b.Degenerate) :
    a.overlaps b = .ok (decide (a.Meets b)) := by
  rw [overlaps, if_neg ha, if_neg hb]

theorem meets_single_iff {r : Region} {p : Vec} : r.Meets (single p) ↔ p ∈ r := by
  simp only [Meets, edges, single, mem_def]
  omega

theorem covers_of_not_degenerate {r : Region} (hr : ¬r.Degenerate) (p : Vec) :
    r.covers p = .ok (decide (p ∈ r)) := by
  rw [covers, overlaps_of_not_degenerate hr (not_degenerate_single p)]
  simp only [meets_single_iff]

theorem meets_iff_exists_mem {a b : Region} (ha : 1 ≤ a.size.x ∧ 1 ≤ a.size.y)
    (hb : 1 ≤ b.size.x ∧ 1 ≤ b.size.y) : a.Meets b ↔ ∃ p, p ∈ a ∧ p ∈ b := by
  simp only [Meets, edges, mem_def]
  constructor
  · intro h
    refine ⟨⟨max a.position.x b.position.x, max a.position.y b.position.y⟩, ?_⟩
    simp only
    omega
  · rintro ⟨p, hp⟩
    omega

end Schematic.Region
