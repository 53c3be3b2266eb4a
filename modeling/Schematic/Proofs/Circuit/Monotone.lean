import Mathlib.Data.List.Forall2
import Schematic.Proofs.Circuit.Solution

/-! High levels. There is no inverter: a gate whose inputs are high where they were high before is itself high if it
was so before, whichever levels it reads, stale ones included. Main statement: pins that start high in more places
end high in more places. -/
namespace Schematic

/-- The same label and value, and high where the other pin is. -/
structure Pin.Below (p q : Pin) : Prop where
  label : q.label = p.label
  value : q.value = p.value
  high : p.voltage = .high → q.voltage = .high

/-- Labels that are high in `m` are high in `n`. -/
def Levels.Below (m n : Levels) : Prop := ∀ l, m.get? l = some .high → n.get? l = some .high

theorem Gate.output_ne_floating (g : Gate) (inputs : List (Option Voltage)) :
    g.output inputs ≠ .floating := by
  intro h
  have hlow : g.output inputs = .low := output_eq_low (by simp [h])
  rw [h] at hlow
  cases hlow

namespace Levels.Below

variable {m n : Levels} {p q : Pin} {ps qs : List Pin}

theorem record (h : m.Below n) (hp : p.Below q) : (m.record p).Below (n.record q) := by
  by_cases hl : p.label = ""
  · rw [record_of_eq_empty hl, record_of_eq_empty (hp.label.trans hl)]
    exact h
  · have hl' : q.label ≠ "" := hp.label ▸ hl
    intro l hhigh
    rw [get?_record hl] at hhigh
    rw [get?_record hl', hp.label]
    split at hhigh
    · next hown => rw [if_pos hown, hp.high (Option.some.inj hhigh)]
    · next hother =>
      rw [if_neg hother]
      exact h l hhigh

theorem ofPins (h : List.Forall₂ Pin.Below ps qs) : (Levels.ofPins ps).Below (Levels.ofPins qs) := by
  have hempty : ({} : Levels).Below {} := fun _ hl => hl
  rw [ofPins_eq_foldl, ofPins_eq_foldl]
  exact List.rel_foldl (R := Pin.Below) (fun _ _ hlevels _ _ hp => record hlevels hp) hempty h

/-- More inputs are high, and with them the output. -/
theorem output (h : m.Below n) {g : Gate} {ls : List String}
    (hhigh : g.output (ls.map m.get?) = .high) : g.output (ls.map n.get?) = .high := by
  cases g with
  | and =>
    rw [Gate.output_and_eq_high, List.forall_mem_map] at hhigh ⊢
    exact fun l hl => h l (hhigh l hl)
  | or =>
    rw [Gate.output_or_eq_high] at hhigh ⊢
    obtain ⟨i, hi, hv⟩ := hhigh
    obtain ⟨l, hl, rfl⟩ := List.mem_map.mp hi
    exact ⟨n.get? l, List.mem_map_of_mem hl, h l hv⟩

end Levels.Below

namespace Pin

variable {p q : Pin} {s r : Settling} {ps qs : List Pin}

theorem Below.settle (hp : p.Below q) (h : s.levels.Below r.levels) :
    (p.settle s).1.Below (q.settle r).1 ∧ (p.settle s).2.levels.Below (q.settle r).2.levels := by
  cases hg : p.value.content.gate? with
  | none =>
    have hg' : q.value.content.gate? = none := by rw [hp.value, hg]
    rw [settle_of_none hg, settle_of_none hg']
    exact ⟨hp, h⟩
  | some g =>
    have hg' : q.value.content.gate? = some g := by rw [hp.value, hg]
    have hout : (p.settle s).1.Below (q.settle r).1 := by
      rw [settle_of_gate hg, settle_of_gate hg', hp.value]
      exact ⟨hp.label, hp.value, h.output⟩
    rw [levels_settle_of_gate hg, levels_settle_of_gate hg']
    exact ⟨hout, h.record hout⟩

theorem Below.settleAll (h : List.Forall₂ Below ps qs) :
    List.Forall₂ Below (settleAll ps).1 (settleAll qs).1 ∧
      (settleAll ps).2.levels.Below (settleAll qs).2.levels :=
  forall₂_settleFrom Below.settle h (.ofPins h)

/-- Pins that are below each other are high in the same places. -/
theorem map_high_of_below (h : List.Forall₂ Below ps qs) (h' : List.Forall₂ Below qs ps) :
    ps.map (fun p => decide (p.voltage = .high)) = qs.map fun q => decide (q.voltage = .high) := by
  induction h with
  | nil => rfl
  | cons hp _ ih =>
    cases h' with
    | cons hq hrest =>
      rw [List.map_cons, List.map_cons, ih hrest, decide_eq_decide.mpr ⟨hp.high, hq.high⟩]

/-- A gate has an output, and what is no gate is left as it was. -/
theorem forall₂_settled (ps : List Pin) (s : Settling) : List.Forall₂
    (fun p q => if p.value.isLogic then q.voltage ≠ .floating else q = p) ps
      (Pin.settleFrom ps s).1 := by
  induction ps generalizing s with
  | nil => exact .nil
  | cons p ps ih =>
    rw [settleFrom_cons]
    refine .cons ?_ (ih _)
    cases hg : p.value.content.gate? with
    | none => simp [settle_of_none hg, isLogic_eq_false_iff.mpr hg]
    | some g =>
      rw [settle_of_gate hg, if_pos (isLogic_of_gate hg)]
      exact Gate.output_ne_floating g _

end Pin

/-- The more pins start high, the more pins and labels are high in the end. What does not start high may float or be
low, with the same pins high in the end. Gates end with levels, and all other pins keep theirs. -/
theorem high_levels_rise :
    (∀ ps qs : List Pin, List.Forall₂ Pin.Below ps qs →
      List.Forall₂ Pin.Below (Pin.settleAll ps).1 (Pin.settleAll qs).1 ∧
        (Pin.settleAll ps).2.levels.Below (Pin.settleAll qs).2.levels) ∧
    (∀ ps qs : List Pin, List.Forall₂ Pin.Below ps qs → List.Forall₂ Pin.Below qs ps →
      (Pin.settleAll ps).1.map (fun p => decide (p.voltage = .high)) =
        (Pin.settleAll qs).1.map (fun q => decide (q.voltage = .high)) ∧
      ∀ l, (Pin.settleAll ps).2.levels.get? l = some .high ↔
        (Pin.settleAll qs).2.levels.get? l = some .high) ∧
    ∀ ps : List Pin, List.Forall₂
      (fun p q => if p.value.isLogic then q.voltage ≠ .floating else q = p) ps
        (Pin.settleAll ps).1 := by
  refine ⟨fun ps qs h => Pin.Below.settleAll h, fun ps qs h h' => ?_, fun ps => ?_⟩
  · obtain ⟨hpins, hlevels⟩ := Pin.Below.settleAll h
    obtain ⟨hpins', hlevels'⟩ := Pin.Below.settleAll h'
    exact ⟨Pin.map_high_of_below hpins hpins', fun l => ⟨hlevels l, hlevels' l⟩⟩
  · exact Pin.forall₂_settled ps _

/-- A gate that reads itself, two that read each other, one of them an unknown label too, and two inputs of one
label. -/
def tangle (input held : Voltage) : List Pin := [
  { label := "y", value := ⟨.gate .and, ["y", "a"]⟩, voltage := held },
  { label := "z", value := ⟨.gate .or, ["x", "w", "y"]⟩ },
  { label := "a", voltage := input },
  { label := "w", value := ⟨.gate .or, ["z"]⟩, voltage := held },
  { label := "a", voltage := input }]

theorem high_levels_rise_tangle :
    (Pin.settleAll (tangle .floating .high)).2.levels.Below
      (Pin.settleAll (tangle .high .high)).2.levels ∧
    (Pin.settleAll (tangle .floating .low)).1.map (fun p => decide (p.voltage = .high)) =
      (Pin.settleAll (tangle .low .floating)).1.map fun q => decide (q.voltage = .high) := by
  have hbelow : ∀ v w v' w' : Voltage, (v = .high → w = .high) → (v' = .high → w' = .high) →
      List.Forall₂ Pin.Below (tangle v v') (tangle w w') := by
    intro v w v' w' hinput hheld
    exact .cons ⟨rfl, rfl, hheld⟩ <| .cons ⟨rfl, rfl, id⟩ <| .cons ⟨rfl, rfl, hinput⟩ <|
      .cons ⟨rfl, rfl, hheld⟩ <| .cons ⟨rfl, rfl, hinput⟩ .nil
  have hrise := hbelow .floating .high .high .high (by decide) (by decide)
  have hthere := hbelow .floating .low .low .floating (by decide) (by decide)
  have hback := hbelow .low .floating .floating .low (by decide) (by decide)
  exact ⟨(high_levels_rise.1 _ _ hrise).2, (high_levels_rise.2.1 _ _ hthere hback).1⟩

end Schematic
