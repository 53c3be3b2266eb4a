import Mathlib.Data.List.Rotate
import Schematic.Proofs.Circuit.Solution

/-! Orders of the pins. The levels that a pass ends with solve a system of equations, one for each pin, that does
not depend on the order of the pins. Where each gate stands behind the gates that it reads, the system has one
solution. Main statement: in all orders in which no reference is early, the pins settle alike. -/
namespace Schematic

theorem DistinctLabels.perm {ps qs : List Pin} (h : DistinctLabels ps) (hp : qs.Perm ps) :
    DistinctLabels qs := (((hp.map Pin.label).filter _).nodup_iff).mpr h

theorem Pin.label_settledAt (m : Levels) (p : Pin) : (p.settledAt m).label = p.label := by
  cases hg : p.value.content.gate? with
  | none => rw [settledAt_of_none hg]
  | some g =>
    rw [settledAt_of_gate hg]
    rfl

namespace Levels

variable {m n : Levels} {ps qs : List Pin}

theorem Shows.perm (h : m.Shows ps) (hp : qs.Perm ps) : m.Shows qs := by
  intro l hl v
  rw [h l hl v]
  simp only [hp.mem_iff]

/-- The levels are those of the pins under these levels, and of no other labels. -/
structure Solves (m : Levels) (ps : List Pin) : Prop where
  shows : m.Shows (ps.map (Pin.settledAt m))
  unnamed : m.get? "" = none

namespace Solves

theorem perm (h : m.Solves ps) (hp : qs.Perm ps) : m.Solves qs :=
  ⟨h.shows.perm (hp.map _), h.unnamed⟩

/-- A label has the level of the pins that carry it. -/
theorem get?_eq_some_iff (h : m.Solves ps) {l : String} (hl : l ≠ "") (v : Voltage) :
    m.get? l = some v ↔ ∃ p ∈ ps, p.label = l ∧ (p.settledAt m).voltage = v := by
  rw [h.shows l hl v]
  simp only [List.mem_map, exists_exists_and_eq_and, Pin.label_settledAt]

/-- Solutions agree on a label if they agree on the pins that carry it. -/
theorem get?_congr (hm : m.Solves ps) (hn : n.Solves ps) {l : String}
    (h : ∀ p ∈ ps, p.label = l → p.settledAt m = p.settledAt n) : m.get? l = n.get? l := by
  by_cases hl : l = ""
  · rw [hl, hm.unnamed, hn.unnamed]
  · apply Option.ext
    intro v
    rw [hm.get?_eq_some_iff hl, hn.get?_eq_some_iff hl]
    refine exists_congr fun p => and_congr_right fun hp => and_congr_right fun hlabel => ?_
    rw [h p hp hlabel]

/-- A gate is the same in both solutions if the gates that it reads are. -/
theorem settledAt_congr (hm : m.Solves ps) (hn : n.Solves ps) {p : Pin}
    (h : ∀ q ∈ ps, p.Reads q → q.settledAt m = q.settledAt n) : p.settledAt m = p.settledAt n := by
  cases hg : p.value.content.gate? with
  | none => rw [Pin.settledAt_of_none hg, Pin.settledAt_of_none hg]
  | some g =>
    have hread : ∀ l ∈ p.value.labels, m.get? l = n.get? l := by
      intro l hl
      by_cases hempty : l = ""
      · rw [hempty, hm.unnamed, hn.unnamed]
      · apply hm.get?_congr hn
        intro q hq hlabel
        cases hgate : q.value.content.gate? with
        | none => rw [Pin.settledAt_of_none hgate, Pin.settledAt_of_none hgate]
        | some g' =>
          apply h q hq
          exact ⟨Pin.isLogic_of_gate hg, Pin.isLogic_of_gate hgate, hlabel ▸ hempty, hlabel ▸ hl⟩
    rw [Pin.settledAt_of_gate hg, Pin.settledAt_of_gate hg, List.map_congr_left hread]

/-- The pins of a beginning on which the solutions agree may be extended one by one. -/
theorem settledAt_eq (hm : m.Solves ps) (hn : n.Solves ps) {done rest : List Pin}
    (hps : ps = done ++ rest) (hrest : Pin.InOrder rest)
    (hdone : ∀ p ∈ done, p.settledAt m = p.settledAt n) :
    ∀ p ∈ ps, p.settledAt m = p.settledAt n := by
  induction rest generalizing done with
  | nil =>
    rw [hps, List.append_nil]
    exact hdone
  | cons p rest ih =>
    have hp : p.settledAt m = p.settledAt n := by
      apply hm.settledAt_congr hn
      intro q hq hreads
      rw [hps] at hq
      have hfront : q ∈ done := (List.mem_append.mp hq).resolve_right fun hback =>
        hrest.1 q hback hreads
      exact hdone q hfront
    have hsplit : ps = (done ++ [p]) ++ rest := by
      rw [hps, List.append_assoc, List.singleton_append]
    apply ih hsplit hrest.2
    intro q hq
    rcases List.mem_append.mp hq with hfront | hlast
    · exact hdone q hfront
    · rw [List.mem_singleton.mp hlast]
      exact hp

theorem unique (hm : m.Solves ps) (hn : n.Solves ps) (h : Pin.InOrder ps) :
    (∀ p ∈ ps, p.settledAt m = p.settledAt n) ∧ ∀ l, m.get? l = n.get? l := by
  have hpins : ∀ p ∈ ps, p.settledAt m = p.settledAt n :=
    hm.settledAt_eq hn (List.nil_append ps).symm h (by simp)
  refine ⟨hpins, ?_⟩
  intro l
  exact hm.get?_congr hn fun p hp _ => hpins p hp

end Solves

end Levels

namespace Pin

variable {ps qs : List Pin}

/-- No pass gives the empty label a level. -/
theorem get?_empty_settleAll (ps : List Pin) : (settleAll ps).2.levels.get? "" = none := by
  unfold settleAll
  rw [get?_levels_settleFrom fun p _ _ hp => hp.symm]
  exact Levels.get?_empty_ofPins ps

variable (hlabels : DistinctLabels ps) (hquiet : Unhurried (settleAll ps).2.warnings)
include hlabels hquiet

theorem inOrder_of_settleAll : InOrder ps :=
  inOrder_of_unhurried (Settling.awaits_ofPins hlabels) hlabels hquiet

theorem settleAll_eq_map : (settleAll ps).1 = ps.map (settledAt (settleAll ps).2.levels) :=
  settleFrom_eq_map (inOrder_of_settleAll hlabels hquiet) _

theorem solves_settleAll : (settleAll ps).2.levels.Solves ps := by
  have hshows := shows_settleAll hlabels
  rw [settleAll_eq_map hlabels hquiet] at hshows
  exact ⟨hshows, get?_empty_settleAll ps⟩

end Pin

/-- In two orders of pins with distinct labels, neither of them with an early reference, each pin gets the same
level, and so does each label. -/
theorem settleAll_of_perm {ps qs : List Pin} (h : qs.Perm ps) (hlabels : DistinctLabels ps)
    (hps : Unhurried (Pin.settleAll ps).2.warnings)
    (hqs : Unhurried (Pin.settleAll qs).2.warnings) :
    (∀ (i j : Nat) (p : Pin), ps[i]? = some p → qs[j]? = some p →
      (Pin.settleAll qs).1[j]? = (Pin.settleAll ps).1[i]?) ∧
    ∀ l, (Pin.settleAll qs).2.levels.get? l = (Pin.settleAll ps).2.levels.get? l := by
  have hlabels' : DistinctLabels qs := hlabels.perm h
  have hsolves : (Pin.settleAll ps).2.levels.Solves ps := Pin.solves_settleAll hlabels hps
  have hsolves' : (Pin.settleAll qs).2.levels.Solves ps :=
    (Pin.solves_settleAll hlabels' hqs).perm h.symm
  obtain ⟨hpins, hlevels⟩ := hsolves'.unique hsolves (Pin.inOrder_of_settleAll hlabels hps)
  refine ⟨?_, hlevels⟩
  intro i j p hi hj
  have hp : p ∈ ps := List.mem_of_getElem? hi
  rw [Pin.settleAll_eq_map hlabels hps, Pin.settleAll_eq_map hlabels' hqs, List.getElem?_map,
    List.getElem?_map, hi, hj, Option.map_some, Option.map_some, hpins p hp]

/-- A gate on an input, a gate on both of them, and one without a label that refers to an unknown label. -/
def cascade : List Pin := [
  { label := "a", voltage := .high },
  { label := "y", value := ⟨.gate .and, ["a"]⟩ },
  { label := "z", value := ⟨.gate .or, ["y", "a", "y"]⟩ },
  { value := ⟨.gate .and, ["z", "x"]⟩ }]

theorem settleAll_of_perm_cascade :
    (Pin.settleAll (cascade.rotate 1)).1[1]? = (Pin.settleAll cascade).1[2]? ∧
    (Pin.settleAll (cascade.rotate 1)).1[2]? = (Pin.settleAll cascade).1[3]? ∧
    ∀ l, (Pin.settleAll (cascade.rotate 1)).2.levels.get? l =
      (Pin.settleAll cascade).2.levels.get? l := by
  have hlabels : DistinctLabels cascade := by
    unfold DistinctLabels
    decide
  have hwarnings : (Pin.settleAll cascade).2.warnings = [.unknownLabel "(unlabeled)" "x"] := by
    decide +kernel
  have hwarnings' : (Pin.settleAll (cascade.rotate 1)).2.warnings =
      [.unknownLabel "(unlabeled)" "x"] := by decide +kernel
  have hquiet : Unhurried (Pin.settleAll cascade).2.warnings := by
    rw [hwarnings]
    simp [Unhurried]
  have hquiet' : Unhurried (Pin.settleAll (cascade.rotate 1)).2.warnings := by
    rw [hwarnings']
    simp [Unhurried]
  obtain ⟨hpins, hlevels⟩ := settleAll_of_perm (List.rotate_perm cascade 1) hlabels hquiet hquiet'
  exact ⟨hpins 2 1 _ rfl rfl, hpins 3 2 _ rfl rfl, hlevels⟩

end Schematic
