import Mathlib.Tactic.SplitIfs
import Schematic.Proofs.Circuit.Resolution

/-! Levels during the pass over the logic pins. The levels that the pass starts with and those that it
makes known are recorded in one way. Main statement: what one step of the pass records. -/
namespace Schematic

namespace Levels

/-- The levels together with that of a pin. A pin without a label has none. -/
def record (m : Levels) (p : Pin) : Levels :=
  if p.label = "" then m else m.set p.label p.voltage

variable {m : Levels} {p : Pin} {l : String}

@[simp] theorem get?_empty (l : String) : ({} : Levels).get? l = none := rfl

theorem record_of_eq_empty (h : p.label = "") : m.record p = m := if_pos h

theorem get?_record (hp : p.label ≠ "") :
    (m.record p).get? l = if l = p.label then some p.voltage else m.get? l := by
  rw [record, if_neg hp, get?_set]

theorem get?_record_of_ne (h : p.label ≠ "" → l ≠ p.label) : (m.record p).get? l = m.get? l := by
  by_cases hp : p.label = ""
  · rw [record_of_eq_empty hp]
  · rw [get?_record hp, if_neg (h hp)]

theorem ofPins_eq_foldl (ps : List Pin) : ofPins ps = ps.foldl record {} := rfl

/-- The empty label has no level. -/
theorem get?_empty_ofPins (ps : List Pin) : (ofPins ps).get? "" = none := by
  rw [ofPins_eq_foldl]
  refine List.foldlRecOn ps record (motive := fun m => m.get? "" = none) (get?_empty "") ?_
  intro m hm p _
  rw [get?_record_of_ne fun hp => hp.symm, hm]

end Levels

namespace Pin

variable {p : Pin} {s : Settling} {g : Gate}

theorem settle_of_none (h : p.value.content.gate? = none) : p.settle s = (p, s) := by
  unfold settle
  rw [h]

theorem settle_of_gate (h : p.value.content.gate? = some g) :
    (p.settle s).1 = p.powered (g.output (p.value.labels.map s.levels.get?)) := by
  unfold settle
  rw [h]
  rfl

theorem levels_settle_of_gate (h : p.value.content.gate? = some g) :
    (p.settle s).2.levels = s.levels.record (p.settle s).1 := by
  unfold settle Levels.record
  rw [h]
  dsimp only
  split_ifs <;> rfl

theorem pending_settle_of_gate (h : p.value.content.gate? = some g) : (p.settle s).2.pending =
    if p.label = "" then s.pending else s.pending.filter (· ≠ p.label) := by
  unfold settle
  rw [h]
  dsimp only
  split_ifs <;> rfl

theorem warnings_settle_of_gate (h : p.value.content.gate? = some g) : (p.settle s).2.warnings =
    s.warnings ++ p.value.labels.filterMap (p.warning? s) := by
  unfold settle
  rw [h]
  dsimp only
  split_ifs <;> rfl

theorem label_settle (p : Pin) (s : Settling) : (p.settle s).1.label = p.label :=
  label_eq_of_unpowered_eq (unpowered_settle p s)

theorem map_label_settleFrom (ps : List Pin) (s : Settling) :
    (settleFrom ps s).1.map label = ps.map label := by
  induction ps generalizing s with
  | nil => rfl
  | cons p ps ih => rw [settleFrom_cons, List.map_cons, List.map_cons, label_settle, ih]

theorem isLogic_of_gate (h : p.value.content.gate? = some g) : p.value.isLogic := by
  rw [Value.isLogic, h]
  rfl

theorem isLogic_eq_false_iff : p.value.isLogic = false ↔ p.value.content.gate? = none := by
  rw [Value.isLogic, Option.isSome_eq_false_iff, Option.isNone_iff_eq_none]

/-- A step records at most the level of its own pin. -/
theorem get?_levels_settle {l : String} (h : p.value.isLogic → p.label ≠ "" → l ≠ p.label) :
    (p.settle s).2.levels.get? l = s.levels.get? l := by
  cases hg : p.value.content.gate? with
  | none => rw [settle_of_none hg]
  | some g =>
    rw [levels_settle_of_gate hg]
    apply Levels.get?_record_of_ne
    rw [label_settle]
    exact h (isLogic_of_gate hg)

theorem get?_levels_settleFrom {l : String} {ps : List Pin}
    (h : ∀ p ∈ ps, p.value.isLogic → p.label ≠ "" → l ≠ p.label) :
    (settleFrom ps s).2.levels.get? l = s.levels.get? l := by
  induction ps generalizing s with
  | nil => rfl
  | cons p ps ih =>
    obtain ⟨hp, hps⟩ := List.forall_mem_cons.mp h
    rw [settleFrom_cons, ih hps, get?_levels_settle hp]

/-- What a step makes of pins that are related, the passes make of lists of them. -/
theorem forall₂_settleFrom {R R' : Pin → Pin → Prop} {S : Levels → Levels → Prop}
    (hstep : ∀ {p q : Pin} {s r : Settling}, R p q → S s.levels r.levels →
      R' (p.settle s).1 (q.settle r).1 ∧ S (p.settle s).2.levels (q.settle r).2.levels)
    {ps qs : List Pin} {s r : Settling} (hps : List.Forall₂ R ps qs) (h : S s.levels r.levels) :
    List.Forall₂ R' (settleFrom ps s).1 (settleFrom qs r).1 ∧
      S (settleFrom ps s).2.levels (settleFrom qs r).2.levels := by
  induction hps generalizing s r with
  | nil => exact ⟨.nil, h⟩
  | cons hp _ ih =>
    obtain ⟨hpin, hlevels⟩ := hstep hp h
    obtain ⟨hpins, hend⟩ := ih hlevels
    rw [settleFrom_cons, settleFrom_cons]
    exact ⟨.cons hpin hpins, hend⟩

theorem subset_warnings_settle (p : Pin) (s : Settling) :
    s.warnings ⊆ (p.settle s).2.warnings := by
  cases hg : p.value.content.gate? with
  | none =>
    rw [settle_of_none hg]
    exact List.Subset.refl _
  | some g =>
    rw [warnings_settle_of_gate hg]
    exact List.subset_append_left _ _

theorem subset_warnings_settleFrom (ps : List Pin) (s : Settling) :
    s.warnings ⊆ (settleFrom ps s).2.warnings := by
  induction ps generalizing s with
  | nil => exact List.Subset.refl _
  | cons p ps ih => exact List.Subset.trans (subset_warnings_settle p s) (ih _)

end Pin
end Schematic
