import Schematic.Region.Overlap

/-! Regions as sets of cells. Main statement: comparing edges finds out whether two regions share a cell, wherever
they lie, and a larger region shares no fewer. -/
namespace Schematic.Region

instance : HasSubset Region := ⟨fun a b => ∀ p, p ∈ a → p ∈ b⟩

theorem subset_def {a b : Region} : a ⊆ b ↔ ∀ p, p ∈ a → p ∈ b := Iff.rfl

variable {a b a' b' : Region}

theorem single_subset_iff {p : Vec} : single p ⊆ a ↔ p ∈ a := by
  simp only [subset_def, mem_single, forall_eq]

/-- A region that has any cell has the one at its position. -/
theorem exists_mem_iff : (∃ p, p ∈ a) ↔ 1 ≤ a.size.x ∧ 1 ≤ a.size.y := by
  simp only [mem_def]
  constructor
  · intro h
    obtain ⟨p, hp⟩ := h
    omega
  · intro h
    have hfirst : a.position.x < a.position.x + a.size.x ∧ a.position.y < a.position.y + a.size.y := by
      omega
    exact ⟨a.position, Int.le_refl _, hfirst.1, Int.le_refl _, hfirst.2⟩

theorem not_degenerate_of_solid (h : 1 ≤ a.size.x ∧ 1 ≤ a.size.y) : ¬a.Degenerate := by
  unfold Degenerate
  omega

theorem solid_of_subset (h : 1 ≤ a.size.x ∧ 1 ≤ a.size.y) (hsub : a ⊆ a') :
    1 ≤ a'.size.x ∧ 1 ≤ a'.size.y := by
  obtain ⟨p, hp⟩ := exists_mem_iff.mpr h
  exact exists_mem_iff.mp ⟨p, hsub p hp⟩

section Solid

variable (ha : 1 ≤ a.size.x ∧ 1 ≤ a.size.y) (hb : 1 ≤ b.size.x ∧ 1 ≤ b.size.y)
include ha hb

theorem overlaps_of_solid : a.overlaps b = .ok (decide (a.Meets b)) :=
  overlaps_of_not_degenerate (not_degenerate_of_solid ha) (not_degenerate_of_solid hb)

theorem overlaps_eq_true_iff : a.overlaps b = .ok true ↔ ∃ p, p ∈ a ∧ p ∈ b := by
  rw [overlaps_of_solid ha hb, Except.ok.injEq, decide_eq_true_iff, meets_iff_exists_mem ha hb]

theorem overlaps_comm : b.overlaps a = a.overlaps b := by
  have hcomm : b.Meets a ↔ a.Meets b := ⟨Meets.symm, Meets.symm⟩
  rw [overlaps_of_solid hb ha, overlaps_of_solid ha hb, decide_eq_decide.mpr hcomm]

/-- The shared cell stays where it is when the regions around it grow. -/
theorem overlaps_mono (hsub : a ⊆ a') (hsub' : b ⊆ b') (h : a.overlaps b = .ok true) :
    a'.overlaps b' = .ok true := by
  have ha' := solid_of_subset ha hsub
  have hb' := solid_of_subset hb hsub'
  obtain ⟨p, hpa, hpb⟩ := (overlaps_eq_true_iff ha hb).mp h
  exact (overlaps_eq_true_iff ha' hb').mpr ⟨p, hsub p hpa, hsub' p hpb⟩

end Solid

theorem overlaps_self (ha : 1 ≤ a.size.x ∧ 1 ≤ a.size.y) : a.overlaps a = .ok true := by
  obtain ⟨p, hp⟩ := exists_mem_iff.mpr ha
  exact (overlaps_eq_true_iff ha ha).mpr ⟨p, hp, hp⟩

/-- Of regions with at least one cell it is always known whether they overlap, and they do exactly if some cell
is in both. This does not depend on which of them comes first, holds of a region and itself, and goes on to hold
when the regions grow; a cell is covered by the regions that it is in. -/
theorem overlaps_iff_shared_cell (ha : 1 ≤ a.size.x ∧ 1 ≤ a.size.y) (hb : 1 ≤ b.size.x ∧ 1 ≤ b.size.y) :
    (∃ answer, a.overlaps b = .ok answer ∧ (answer = true ↔ ∃ p, p ∈ a ∧ p ∈ b)) ∧
    b.overlaps a = a.overlaps b ∧
    a.overlaps a = .ok true ∧
    (∀ a' b', a ⊆ a' → b ⊆ b' → a.overlaps b = .ok true → a'.overlaps b' = .ok true) ∧
    ∀ p, a.covers p = .ok (decide (p ∈ a)) := by
  refine ⟨?_, overlaps_comm ha hb, overlaps_self ha, ?_, ?_⟩
  · have hshared := overlaps_eq_true_iff ha hb
    rw [overlaps_of_solid ha hb, Except.ok.injEq] at hshared
    exact ⟨_, overlaps_of_solid ha hb, hshared⟩
  · intro a' b' hsub hsub' h
    exact overlaps_mono ha hb hsub hsub' h
  · intro p
    exact covers_of_not_degenerate (not_degenerate_of_solid ha) p

/-- A row and a column that cross in one cell, the column next to the one that would miss the row, and a
rectangle around both. -/
theorem overlaps_iff_shared_cell_crossing :
    let row : Region := ⟨⟨-3, 2⟩, ⟨8, 1⟩⟩
    let column : Region := ⟨⟨4, -1⟩, ⟨1, 4⟩⟩
    let beside : Region := ⟨⟨5, -1⟩, ⟨1, 4⟩⟩
    (∃ p, p ∈ row ∧ p ∈ column) ∧ (¬∃ p, p ∈ row ∧ p ∈ beside) ∧
      Region.overlaps ⟨⟨-5, -5⟩, ⟨20, 20⟩⟩ column = .ok true ∧ row.covers ⟨5, 2⟩ = .ok false := by
  intro row column beside
  obtain ⟨⟨answer, hanswer, hshared⟩, -, -, hgrow, -⟩ :=
    @overlaps_iff_shared_cell row column (by decide) (by decide)
  obtain ⟨⟨answer', hanswer', hshared'⟩, -, -, -, hcovers⟩ :=
    @overlaps_iff_shared_cell row beside (by decide) (by decide)
  have hcross : row.overlaps column = .ok true := by rfl
  have hmiss : row.overlaps beside = .ok false := by rfl
  refine ⟨?_, ?_, ?_, ?_⟩
  · rw [hcross] at hanswer
    exact hshared.mp (Except.ok.inj hanswer).symm
  · rw [hmiss] at hanswer'
    intro h
    exact absurd ((Except.ok.inj hanswer').trans (hshared'.mpr h)) Bool.false_ne_true
  · refine hgrow ⟨⟨-5, -5⟩, ⟨20, 20⟩⟩ column ?_ (fun p hp => hp) hcross
    intro p hp
    simp only [mem_def, row] at hp ⊢
    omega
  · exact hcovers ⟨5, 2⟩

end Schematic.Region
