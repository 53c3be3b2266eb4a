import Schematic.Proofs.Circuit.Levels
import Schematic.Proofs.Layout.Expansion

/-! Renamed pins among others. Main statement: pins whose labels have an ending that no other pin uses
settle as they do alone and under the old labels. -/
namespace Schematic

variable {ending : String}

/-- `q` is `p` with its labels and references renamed, and has the same voltage. -/
structure Pin.Copies (ending : String) (q p : Pin) : Prop where
  label : q.label = renameLabel ending p.label
  content : q.value.content = p.value.content
  labels : q.value.labels = p.value.labels.map (renameLabel ending)
  voltage : q.voltage = p.voltage

/-- The label of the pin is not one that was renamed. -/
def Pin.Outside (ending : String) (q : Pin) : Prop := ∀ l, l ≠ "" → q.label ≠ l ++ ending

theorem Pin.Outside.label_ne {q : Pin} (h : q.Outside ending) (hq : q.label ≠ "") (l : String) :
    renameLabel ending l ≠ q.label := by
  by_cases hl : l = ""
  · rw [renameLabel_eq_empty.mpr hl]
    exact hq.symm
  · rw [renameLabel, if_neg hl]
    exact (h l hl).symm

/-- `m` has for renamed labels the levels that `n` has for the labels. -/
def Levels.Agree (ending : String) (m n : Levels) : Prop :=
  ∀ l, m.get? (renameLabel ending l) = n.get? l

namespace Levels.Agree

variable {m n : Levels} {p q : Pin} {ps qs : List Pin}

theorem record_outside (h : m.Agree ending n) (hq : q.Outside ending) :
    (m.record q).Agree ending n := by
  intro l
  rw [get?_record_of_ne fun hl => hq.label_ne hl l]
  exact h l

theorem record_copies (h : m.Agree ending n) (hq : q.Copies ending p) :
    (m.record q).Agree ending (n.record p) := by
  by_cases hp : p.label = ""
  · have hl : q.label = "" := hq.label.trans (renameLabel_eq_empty.mpr hp)
    rw [record_of_eq_empty hl, record_of_eq_empty hp]
    exact h
  · have hl : q.label ≠ "" := by
      rw [hq.label]
      exact fun he => hp (renameLabel_eq_empty.mp he)
    intro l
    rw [get?_record hl, get?_record hp, hq.label, hq.voltage, h l]
    by_cases he : l = p.label
    · rw [if_pos (congrArg _ he), if_pos he]
    · rw [if_neg fun hr => he (renameLabel_injective hr), if_neg he]

theorem foldl_outside (h : m.Agree ending n) (hqs : ∀ q ∈ qs, q.Outside ending) :
    (qs.foldl record m).Agree ending n := by
  induction qs generalizing m with
  | nil => exact h
  | cons q qs ih =>
    obtain ⟨hq, hqs⟩ := List.forall_mem_cons.mp hqs
    exact ih (h.record_outside hq) hqs

theorem foldl_copies (h : m.Agree ending n) (hqs : List.Forall₂ (Pin.Copies ending) qs ps) :
    (qs.foldl record m).Agree ending (ps.foldl record n) :=
  List.rel_foldl (R := Pin.Copies ending) (fun _ _ hlevels _ _ hq => record_copies hlevels hq) h hqs

end Levels.Agree

namespace Pin

variable {s r : Settling} {p q : Pin} {front own back ps qs : List Pin}

theorem Copies.powered (h : q.Copies ending p) (v : Voltage) :
    (q.powered v).Copies ending (p.powered v) :=
  ⟨h.label, h.content, h.labels, rfl⟩

theorem settle_outside {n : Levels} (h : s.levels.Agree ending n) (hq : q.Outside ending) :
    (q.settle s).2.levels.Agree ending n := by
  cases hg : q.value.content.gate? with
  | none =>
    rw [settle_of_none hg]
    exact h
  | some g =>
    have hq' : (q.settle s).1.Outside ending := by
      rw [settle_of_gate hg]
      exact hq
    rw [levels_settle_of_gate hg]
    exact h.record_outside hq'

/-- A step on a pin and a step on its copy see the same inputs. -/
theorem settle_copies (h : s.levels.Agree ending r.levels) (hq : q.Copies ending p) :
    (q.settle s).1.Copies ending (p.settle r).1 ∧
      (q.settle s).2.levels.Agree ending (p.settle r).2.levels := by
  cases hg : p.value.content.gate? with
  | none =>
    have hg' : q.value.content.gate? = none := by rw [hq.content, hg]
    rw [settle_of_none hg, settle_of_none hg']
    exact ⟨hq, h⟩
  | some g =>
    have hg' : q.value.content.gate? = some g := by rw [hq.content, hg]
    have hin : q.value.labels.map s.levels.get? = p.value.labels.map r.levels.get? := by
      rw [hq.labels, List.map_map]
      exact List.map_congr_left fun l _ => h l
    have hout : (q.settle s).1.Copies ending (p.settle r).1 := by
      rw [settle_of_gate hg, settle_of_gate hg', hin]
      exact hq.powered _
    rw [levels_settle_of_gate hg, levels_settle_of_gate hg']
    exact ⟨hout, h.record_copies hout⟩

theorem settleFrom_outside {n : Levels} (h : s.levels.Agree ending n)
    (hqs : ∀ q ∈ qs, q.Outside ending) : (settleFrom qs s).2.levels.Agree ending n := by
  induction qs generalizing s with
  | nil => exact h
  | cons q qs ih =>
    obtain ⟨hq, hqs⟩ := List.forall_mem_cons.mp hqs
    rw [settleFrom_cons]
    exact ih (settle_outside h hq) hqs

theorem settleFrom_copies (h : s.levels.Agree ending r.levels)
    (hqs : List.Forall₂ (Copies ending) qs ps) :
    List.Forall₂ (Copies ending) (settleFrom qs s).1 (settleFrom ps r).1 :=
  (forall₂_settleFrom (fun hq hlevels => settle_copies hlevels hq) hqs h).1

theorem map_voltage_of_copies (h : List.Forall₂ (Copies ending) qs ps) :
    qs.map voltage = ps.map voltage := by
  induction h with
  | nil => rfl
  | cons hq _ ih => rw [List.map_cons, List.map_cons, hq.voltage, ih]

/-- Copies settle among pins outside as the pins that they copy do alone. -/
theorem settleAll_copies (hfront : ∀ q ∈ front, q.Outside ending)
    (hown : List.Forall₂ (Copies ending) own ps) (hback : ∀ q ∈ back, q.Outside ending) :
    ∃ front' own' back', (settleAll (front ++ own ++ back)).1 = front' ++ own' ++ back' ∧
      front'.map unpowered = front.map unpowered ∧ own'.map unpowered = own.map unpowered ∧
      back'.map unpowered = back.map unpowered ∧
      own'.map voltage = (settleAll ps).1.map voltage := by
  have hstart : (Levels.ofPins (front ++ own ++ back)).Agree ending (Levels.ofPins ps) := by
    have hempty : ({} : Levels).Agree ending {} := fun _ => rfl
    rw [Levels.ofPins_eq_foldl, Levels.ofPins_eq_foldl, List.foldl_append, List.foldl_append]
    exact ((hempty.foldl_outside hfront).foldl_copies hown).foldl_outside hback
  -- The copies are reached with levels that agree with those that the pins start with alone.
  have hreached := settleFrom_outside (s := .ofPins (front ++ own ++ back)) hstart hfront
  unfold settleAll
  rw [settleFrom_append, settleFrom_append]
  refine ⟨_, _, _, rfl, map_unpowered_settleFrom _ _, map_unpowered_settleFrom _ _,
    map_unpowered_settleFrom _ _, ?_⟩
  exact map_voltage_of_copies (settleFrom_copies hreached hown)

end Pin
end Schematic
