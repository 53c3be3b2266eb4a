import Mathlib.Data.Prod.Lex
import Mathlib.Order.Bounds.Basic
import Schematic.Proofs.Load.Cells

/-! The overlap that validation names. The search compares each region with those behind it, so that it meets the pairs
of places in lexicographic order. Main statement: what it names is the least pair of places whose components have a
common cell, counted among all components, and it names nothing where there is no such pair. -/
namespace Schematic

/-- The components at the two places, the front one first, have a common cell. -/
def Clash (cs : List Component) (e : Nat ×ₗ Nat) : Prop :=
  (ofLex e).1 < (ofLex e).2 ∧ ∃ c d, cs[(ofLex e).1]? = some c ∧ cs[(ofLex e).2]? = some d ∧
    ¬c.Disjoint d

/-- The regions that stand under the two places, the smaller one first, meet. -/
def Encounter (rs : List (Nat × Region)) (e : Nat ×ₗ Nat) : Prop :=
  (ofLex e).1 < (ofLex e).2 ∧ ∃ r q, ((ofLex e).1, r) ∈ rs ∧ ((ofLex e).2, q) ∈ rs ∧ r.Meets q

section Search

variable {a : Nat × Region} {rs : List (Nat × Region)}

/-- The first of the regions meets one of the others, or two of these meet. -/
theorem encounter_cons_iff (h : (a :: rs).Pairwise fun a b => a.1 < b.1) {e : Nat ×ₗ Nat} :
    Encounter (a :: rs) e ↔
      ((ofLex e).1 = a.1 ∧ ∃ q, ((ofLex e).2, q) ∈ rs ∧ a.2.Meets q) ∨ Encounter rs e := by
  have hbehind : ∀ b ∈ rs, a.1 < b.1 := fun b hb => List.rel_of_pairwise_cons h hb
  constructor
  · rintro ⟨hlt, r, q, hr, hq, hmeets⟩
    have hle : ∀ b ∈ a :: rs, a.1 ≤ b.1 := fun b hb => by
      rcases List.mem_cons.mp hb with rfl | hb
      · exact Nat.le_refl _
      · exact Nat.le_of_lt (hbehind b hb)
    have hsecond : ((ofLex e).2, q) ∈ rs := by
      refine (List.mem_cons.mp hq).resolve_left fun hfirst => ?_
      have hfront := hle _ hr
      rw [← hfirst] at hfront
      exact absurd hlt (Nat.not_lt.mpr hfront)
    rcases List.mem_cons.mp hr with rfl | hr
    · exact .inl ⟨rfl, q, hsecond, hmeets⟩
    · exact .inr ⟨hlt, r, q, hr, hsecond, hmeets⟩
  · rintro (⟨hfirst, q, hq, hmeets⟩ | ⟨hlt, r, q, hr, hq, hmeets⟩)
    · have hlt := hbehind _ hq
      refine ⟨hfirst ▸ hlt, a.2, q, ?_, List.mem_cons_of_mem a hq, hmeets⟩
      rw [hfirst]
      exact List.mem_cons_self
    · exact ⟨hlt, r, q, List.mem_cons_of_mem a hr, List.mem_cons_of_mem a hq, hmeets⟩

/-- Among the regions behind `a`, the one that is found first has the least place. -/
theorem le_of_find? (h : rs.Pairwise fun a b => a.1 < b.1) {b : Nat × Region}
    (hb : rs.find? (fun b => decide (a.2.Meets b.2)) = some b) {c : Nat × Region} (hc : c ∈ rs)
    (hmeets : a.2.Meets c.2) : b.1 ≤ c.1 := by
  obtain ⟨-, front, back, rfl, hfront⟩ := List.find?_eq_some_iff_append.mp hb
  rcases List.mem_append.mp hc with hc | hc
  · have hapart := hfront c hc
    rw [decide_eq_true hmeets] at hapart
    cases hapart
  · rcases List.mem_cons.mp hc with rfl | hc
    · exact Nat.le_refl _
    · have hbehind := (List.pairwise_append.mp h).2.1
      exact Nat.le_of_lt (List.rel_of_pairwise_cons hbehind hc)

theorem firstOverlap_cases (h : rs.Pairwise fun a b => a.1 < b.1) :
    (firstOverlap rs = none ∧ ∀ e, ¬Encounter rs e) ∨
    ∃ i j, firstOverlap rs = some (i, j) ∧ IsLeast {e | Encounter rs e} (toLex (i, j)) := by
  induction rs with
  | nil => exact .inl ⟨rfl, by simp [Encounter]⟩
  | cons a rs ih =>
    have hcons : ∀ e, Encounter (a :: rs) e ↔ _ := fun e => encounter_cons_iff h
    rw [firstOverlap]
    cases hfind : rs.find? fun b => decide (a.2.Meets b.2) with
    | none =>
      have hapart : ∀ i q, (i, q) ∈ rs → ¬a.2.Meets q := fun i q hq => by
        simpa using List.find?_eq_none.mp hfind _ hq
      have hsame : ∀ e, Encounter (a :: rs) e ↔ Encounter rs e := by
        intro e
        rw [hcons, or_iff_right]
        rintro ⟨-, q, hq, hmeets⟩
        exact hapart _ q hq hmeets
      simp only [hsame]
      exact ih h.tail
    | some b =>
      have hb := List.mem_of_find?_eq_some hfind
      have hmeets : a.2.Meets b.2 := by simpa using List.find?_some hfind
      refine .inr ⟨a.1, b.1, rfl, (hcons _).mpr (.inl ⟨rfl, b.2, hb, hmeets⟩), ?_⟩
      intro e he
      rw [Prod.Lex.le_iff]
      rcases (hcons e).mp he with ⟨hfirst, q, hq, hmeets'⟩ | ⟨-, r, q, hr, -⟩
      · exact .inr ⟨hfirst.symm, le_of_find? h.tail hfind hq hmeets'⟩
      · exact .inl (List.rel_of_pairwise_cons h hr)

end Search

section Places

variable {cs : List Component}

theorem mem_placedCovers_iff {i : Nat} {r : Region} :
    (i, r) ∈ placedCovers cs ↔ ∃ c, cs[i]? = some c ∧ c.cover? = some r := by
  simp only [placedCovers, List.mem_filterMap, List.mem_zipIdx_iff_getElem?, Prod.exists,
    Option.map_eq_some_iff, Prod.mk.injEq]
  constructor
  · rintro ⟨c, _, hc, r, hr, rfl, rfl⟩
    exact ⟨c, hc, hr⟩
  · rintro ⟨c, hc, hr⟩
    exact ⟨c, i, hc, r, hr, rfl, rfl⟩

theorem pairwise_lt_placedCovers (cs : List Component) :
    (placedCovers cs).Pairwise fun a b => a.1 < b.1 := by
  have hplaces : cs.zipIdx.Pairwise fun a b => a.2 < b.2 := by
    rw [← List.pairwise_map (f := Prod.snd), List.zipIdx_map_snd]
    exact List.pairwise_lt_range' 1
  refine hplaces.filterMap _ fun a b hlt => ?_
  rintro _ ha _ hb
  obtain ⟨-, -, rfl⟩ := Option.map_eq_some_iff.mp ha
  obtain ⟨-, -, rfl⟩ := Option.map_eq_some_iff.mp hb
  exact hlt

/-- What is compared keeps the places that it has in the whole list. -/
theorem encounter_placedCovers_iff (h : ∀ c ∈ cs, c.Measured) {e : Nat ×ₗ Nat} :
    Encounter (placedCovers cs) e ↔ Clash cs e := by
  have hclash : ∀ c d, cs[(ofLex e).1]? = some c → cs[(ofLex e).2]? = some d →
      (¬c.Disjoint d ↔ ∃ r q, c.cover? = some r ∧ d.cover? = some q ∧ r.Meets q) := by
    intro c d hc hd
    rw [← Component.apart_iff_disjoint_of_measured (h c (List.mem_of_getElem? hc))
      (h d (List.mem_of_getElem? hd))]
    simp only [Component.Apart, not_forall, not_not, exists_prop, exists_and_left]
  refine and_congr_right fun _ => ?_
  simp only [mem_placedCovers_iff]
  constructor
  · rintro ⟨r, q, ⟨c, hc, hr⟩, ⟨d, hd, hq⟩, hmeets⟩
    exact ⟨c, d, hc, hd, (hclash c d hc hd).mpr ⟨r, q, hr, hq, hmeets⟩⟩
  · rintro ⟨c, d, hc, hd, hcells⟩
    obtain ⟨r, q, hr, hq, hmeets⟩ := (hclash c d hc hd).mp hcells
    exact ⟨r, q, ⟨c, hc, hr⟩, ⟨d, hd, hq⟩, hmeets⟩

theorem pairwise_disjoint_iff : cs.Pairwise Component.Disjoint ↔ ∀ e, ¬Clash cs e := by
  rw [List.pairwise_iff_getElem]
  constructor
  · rintro h e ⟨hlt, c, d, hc, hd, hcells⟩
    obtain ⟨hi, rfl⟩ := List.getElem?_eq_some_iff.mp hc
    obtain ⟨hj, rfl⟩ := List.getElem?_eq_some_iff.mp hd
    exact hcells (h _ _ hi hj hlt)
  · intro h i j hi hj hlt
    by_contra hcells
    exact h (toLex (i, j)) ⟨hlt, cs[i], cs[j], List.getElem?_eq_getElem hi,
      List.getElem?_eq_getElem hj, hcells⟩

/-- The search that validation makes, in terms of the components. -/
theorem checkOverlaps_cases (hkind : ∀ c ∈ cs, c.kind?.isSome) (hsize : ∀ c ∈ cs, c.Measured) :
    (checkOverlaps cs = .ok () ∧ ∀ e, ¬Clash cs e) ∨
    ∃ i j : Nat, checkOverlaps cs = .error (Cause.overlap i j) ∧
      IsLeast {e | Clash cs e} (toLex (i, j)) := by
  have hsearch := firstOverlap_cases (pairwise_lt_placedCovers cs)
  simp only [encounter_placedCovers_iff hsize] at hsearch
  unfold checkOverlaps
  rw [coveringRegions_eq_ok hkind]
  rcases hsearch with ⟨hnone, hcells⟩ | ⟨i, j, hsome, hleast⟩
  · refine .inl ⟨?_, hcells⟩
    simp [bind, Except.bind, hnone]
  · refine .inr ⟨i, j, ?_, hleast⟩
    simp [bind, Except.bind, hsome]

end Places

/-- Validation of overlaps names the least pair of places at which components have a common cell, and passes exactly
if there is none. No comparison that it makes is refused. -/
theorem checkOverlaps_names_least {cs : List Component} (hkind : ∀ c ∈ cs, c.kind?.isSome)
    (hsize : ∀ c ∈ cs, c.Measured) :
    (∀ i j : Nat, checkOverlaps cs = .error (Cause.overlap i j) ↔
      IsLeast {e | Clash cs e} (toLex (i, j))) ∧
    (checkOverlaps cs = .ok () ↔ cs.Pairwise Component.Disjoint) ∧
    (∀ e, checkOverlaps cs = .error e → ∃ i j : Nat, e = Cause.overlap i j) ∧
    ∀ rs, coveringRegions cs = .ok rs → ∀ a ∈ rs, ∀ b ∈ rs,
      a.2.overlaps b.2 = .ok (decide (a.2.Meets b.2)) := by
  have hanswers : ∀ rs, coveringRegions cs = .ok rs → ∀ a ∈ rs, ∀ b ∈ rs,
      a.2.overlaps b.2 = .ok (decide (a.2.Meets b.2)) := by
    rw [coveringRegions_eq_ok hkind]
    rintro _ ⟨⟩ ⟨i, r⟩ hr ⟨j, q⟩ hq
    obtain ⟨c, -, hc⟩ := mem_placedCovers_iff.mp hr
    obtain ⟨d, -, hd⟩ := mem_placedCovers_iff.mp hq
    exact Region.overlaps_of_not_degenerate (Component.cover?_eq_some_iff.mp hc).2
      (Component.cover?_eq_some_iff.mp hd).2
  rw [pairwise_disjoint_iff]
  rcases checkOverlaps_cases hkind hsize with ⟨hpass, hnone⟩ | ⟨i, j, herror, hleast⟩
  · rw [hpass]
    refine ⟨fun i j => ⟨nofun, fun hleast => absurd hleast.1 (hnone _)⟩, ?_, nofun, hanswers⟩
    exact ⟨fun _ => hnone, fun _ => rfl⟩
  · rw [herror]
    refine ⟨fun i' j' => ⟨fun he => ?_, fun hleast' => ?_⟩, ?_, ?_, hanswers⟩
    · cases he
      exact hleast
    · obtain ⟨rfl, rfl⟩ : i = i' ∧ j = j' := by simpa using hleast.unique hleast'
      rfl
    · exact ⟨nofun, fun hnone => absurd hleast.1 (hnone _)⟩
    · rintro _ ⟨⟩
      exact ⟨i, j, rfl⟩

/-- A canvas, a rail that has no cells yet, and pins, chips and rails on each other's cells, with a wire in between.
The chip that comes first meets only the last rail, and two pins in front of that rail meet each other. -/
def crowdedPlaces : List Component := [
  .canvas ⟨⟨9, 9⟩, none⟩,
  .net ⟨"vcc", ⟨⟨0, 4⟩, ⟨0, 1⟩⟩, none⟩,
  .chip ⟨"gates/or2", ⟨⟨2, 4⟩, ⟨2, 3⟩⟩, none⟩,
  .wire ⟨some .red, ⟨2, 4⟩, ⟨3, 4⟩, "a", none⟩,
  .pin { region := .single ⟨8, 8⟩ },
  .pin { region := .single ⟨8, 8⟩ },
  .net ⟨"gnd", ⟨⟨0, 6⟩, ⟨9, 1⟩⟩, none⟩]

theorem checkOverlaps_names_least_crowdedPlaces :
    checkOverlaps crowdedPlaces = .error (Cause.overlap 2 6) ∧
    IsLeast {e | Clash crowdedPlaces e} (toLex (2, 6)) ∧
    (checkOverlaps (crowdedPlaces.take 4) = .ok () ∧
      (crowdedPlaces.take 4).Pairwise Component.Disjoint) := by
  have hkind : ∀ c ∈ crowdedPlaces, c.kind?.isSome := by decide
  have hsize : ∀ c ∈ crowdedPlaces, c.Measured := by
    simp [crowdedPlaces, Component.Measured, Component.region?, Region.single]
  have herror : checkOverlaps crowdedPlaces = .error (Cause.overlap 2 6) := by decide +kernel
  have hpass : checkOverlaps (crowdedPlaces.take 4) = .ok () := by decide +kernel
  refine ⟨herror, ((checkOverlaps_names_least hkind hsize).1 2 6).mp herror, hpass, ?_⟩
  refine (checkOverlaps_names_least (fun c hc => ?_) fun c hc => ?_).2.1.mp hpass
  · exact hkind c (List.mem_of_mem_take hc)
  · exact hsize c (List.mem_of_mem_take hc)

end Schematic
