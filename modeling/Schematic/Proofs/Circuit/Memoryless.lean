import Mathlib.Data.List.Forall2
import Schematic.Proofs.Circuit.Solution
import Schematic.Proofs.Circuit.Suspicion

/-! Voltages that gates have before the pass. They stand in the levels that the pass starts with, but under labels
that are pending, and only an early reference reads one of those. Main statement: without early references, pins
settle alike whatever their gates held. -/
namespace Schematic

/-- The same pin, but for the voltage that a gate holds. -/
structure Pin.Alike (q p : Pin) : Prop where
  unpowered : q.unpowered = p.unpowered
  plain : p.value.isLogic = false → q = p

/-- Passes that have the same labels before them, and agree about all others. -/
structure Settling.Agrees (r s : Settling) : Prop where
  pending : r.pending = s.pending
  levels : ∀ l, l ∉ s.pending → r.levels.get? l = s.levels.get? l

namespace Levels

theorem get?_record_congr {m n : Levels} {l : String} (h : m.get? l = n.get? l) (p : Pin) :
    (m.record p).get? l = (n.record p).get? l := by
  by_cases hp : p.label = ""
  · rw [record_of_eq_empty hp, record_of_eq_empty hp, h]
  · rw [get?_record hp, get?_record hp, h]

/-- Under a label that no logic pin has, alike pins record the same level. -/
theorem get?_foldl_record_of_alike {ps qs : List Pin} {m n : Levels} {l : String}
    (h : List.Forall₂ Pin.Alike qs ps) (hl : ¬Driven ps l) (hm : m.get? l = n.get? l) :
    (qs.foldl record m).get? l = (ps.foldl record n).get? l := by
  induction h generalizing m n with
  | nil => exact hm
  | @cons q p qs ps hq _ ih =>
    have hrest : ¬Driven ps l := by
      rintro ⟨hne, r, hr, hr'⟩
      exact hl ⟨hne, r, List.mem_cons_of_mem p hr, hr'⟩
    apply ih hrest
    cases hlogic : p.value.isLogic with
    | false =>
      rw [hq.plain hlogic]
      exact get?_record_congr hm p
    | true =>
      have hlabel := Pin.label_eq_of_unpowered_eq hq.unpowered
      have hother : p.label ≠ "" → l ≠ p.label := by
        rintro hne rfl
        exact hl ⟨hne, p, List.mem_cons_self, hlogic, rfl⟩
      rw [get?_record_of_ne hother, get?_record_of_ne (hlabel ▸ hother), hm]

end Levels

theorem Settling.agrees_ofPins {ps qs : List Pin} (h : List.Forall₂ Pin.Alike qs ps) :
    (ofPins qs).Agrees (ofPins ps) where
  pending := by
    unfold ofPins
    dsimp only
    induction h with
    | nil => rfl
    | cons hq _ ih =>
      have hlabel := Pin.label_eq_of_unpowered_eq hq.unpowered
      have hvalue := Pin.value_eq_of_unpowered_eq hq.unpowered
      simp only [List.filter_cons, hlabel, hvalue]
      split
      · rw [List.map_cons, List.map_cons, ih, hlabel]
      · exact ih
  levels l hl := by
    have hdriven : ¬Driven ps l := by
      rwa [(tracks_ofPins ps).pending, and_iff_left not_driven_nil] at hl
    change (Levels.ofPins qs).get? l = (Levels.ofPins ps).get? l
    rw [Levels.ofPins_eq_foldl, Levels.ofPins_eq_foldl]
    exact Levels.get?_foldl_record_of_alike h hdriven rfl

namespace Pin

variable {p q : Pin} {s r : Settling} {ps done rest others : List Pin}

theorem powered_eq_of_unpowered_eq (h : q.unpowered = p.unpowered) (v : Voltage) :
    q.powered v = p.powered v := by
  have hpowered := congrArg (powered · v) h
  exact hpowered

/-- A gate that is not warned about reads no pending label. -/
theorem notMem_pending_of_unhurried (h : s.Tracks ps done) (hlogic : p.value.isLogic = true)
    (hquiet : Unhurried (p.settle s).2.warnings) {l : String} (hl : l ∈ p.value.labels) :
    l ∉ s.pending := by
  intro hpending
  obtain ⟨hdriven, hbefore⟩ := (h.pending l).mp hpending
  have hwarning : p.suspicion? ps done l = some (.earlyReference p.displayName l) := by
    unfold suspicion?
    rw [if_neg (not_not.mpr hdriven.carried), if_pos ⟨hdriven, hbefore⟩]
  rw [h.warnings_settle, suspicions, if_pos hlogic] at hquiet
  exact hquiet _ _ (List.mem_append_right _ (List.mem_filterMap.mpr ⟨l, hl, hwarning⟩))

theorem settle_of_alike (hq : q.Alike p) (hr : r.Agrees s) (h : s.Tracks ps done)
    (hquiet : Unhurried (p.settle s).2.warnings) :
    (q.settle r).1 = (p.settle s).1 ∧ (q.settle r).2.Agrees (p.settle s).2 := by
  have hvalue := value_eq_of_unpowered_eq hq.unpowered
  have hlabel := label_eq_of_unpowered_eq hq.unpowered
  cases hg : p.value.content.gate? with
  | none =>
    rw [hq.plain (isLogic_eq_false_iff.mpr hg), settle_of_none hg, settle_of_none hg]
    exact ⟨rfl, hr⟩
  | some g =>
    have hg' : q.value.content.gate? = some g := by rw [hvalue, hg]
    have hinputs : q.value.labels.map r.levels.get? = p.value.labels.map s.levels.get? := by
      rw [hvalue]
      refine List.map_congr_left fun l hl => hr.levels l ?_
      exact notMem_pending_of_unhurried h (isLogic_of_gate hg) hquiet hl
    have hout : (q.settle r).1 = (p.settle s).1 := by
      rw [settle_of_gate hg, settle_of_gate hg', hinputs]
      exact powered_eq_of_unpowered_eq hq.unpowered _
    refine ⟨hout, ?_, ?_⟩
    · rw [pending_settle_of_gate hg, pending_settle_of_gate hg', hlabel, hr.pending]
    · intro l hl
      rw [levels_settle_of_gate hg, levels_settle_of_gate hg', hout]
      rw [pending_settle_of_gate hg] at hl
      by_cases hne : p.label = ""
      · rw [if_pos hne] at hl
        exact Levels.get?_record_congr (hr.levels l hl) _
      · -- A label that is pending no longer is that of `p`, whose level is recorded.
        by_cases hown : l = p.label
        · have hne' : (p.settle s).1.label ≠ "" := by rwa [label_settle]
          rw [Levels.get?_record hne', Levels.get?_record hne', label_settle, if_pos hown, if_pos hown]
        · rw [if_neg hne, List.mem_filter, decide_eq_true_eq, and_iff_left hown] at hl
          exact Levels.get?_record_congr (hr.levels l hl) _

theorem settleFrom_of_alike (hothers : List.Forall₂ Alike others rest) (hr : r.Agrees s)
    (h : s.Tracks ps done) (hps : ps = done ++ rest)
    (hquiet : Unhurried (settleFrom rest s).2.warnings) :
    (settleFrom others r).1 = (settleFrom rest s).1 ∧
      (settleFrom others r).2.Agrees (settleFrom rest s).2 := by
  induction hothers generalizing s r done with
  | nil => exact ⟨rfl, hr⟩
  | @cons q p others rest hq _ ih =>
    have hp : p ∈ ps := by simp [hps]
    have hsplit : ps = done ++ [p] ++ rest := hps.trans (List.append_cons done p rest)
    rw [settleFrom_cons] at hquiet
    have hstep : Unhurried (p.settle s).2.warnings :=
      fun pin label hm => hquiet pin label (subset_warnings_settleFrom rest _ hm)
    obtain ⟨hpin, hagrees⟩ := settle_of_alike hq hr h hstep
    obtain ⟨hpins, hend⟩ := ih hagrees (h.settle hp) hsplit hquiet
    rw [settleFrom_cons, settleFrom_cons, hpin, hpins]
    exact ⟨rfl, hend⟩

/-- Nothing is pending in the end, so that the levels agree about all labels. -/
theorem settleAll_of_alike {ps qs : List Pin} (h : List.Forall₂ Alike qs ps)
    (hquiet : Unhurried (settleAll ps).2.warnings) : (settleAll qs).1 = (settleAll ps).1 ∧
      ∀ l, (settleAll qs).2.levels.get? l = (settleAll ps).2.levels.get? l := by
  obtain ⟨hpins, hagrees⟩ := settleFrom_of_alike h (Settling.agrees_ofPins h)
    (Settling.tracks_ofPins ps) rfl hquiet
  exact ⟨hpins, fun l => hagrees.levels l (Settling.pending_settleAll ps l)⟩

theorem alike_settle (p : Pin) (s : Settling) : (p.settle s).1.Alike p where
  unpowered := unpowered_settle p s
  plain hplain := by rw [settle_of_none (isLogic_eq_false_iff.mp hplain)]

/-- Settling changes voltages of gates only. -/
theorem forall₂_alike_settleFrom (ps : List Pin) (s : Settling) :
    List.Forall₂ Alike (settleFrom ps s).1 ps := by
  induction ps generalizing s with
  | nil => exact .nil
  | cons p ps ih =>
    rw [settleFrom_cons]
    exact .cons (alike_settle p s) (ih _)

end Pin
end Schematic
