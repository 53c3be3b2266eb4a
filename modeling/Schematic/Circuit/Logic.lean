import Schematic.Failure
import Schematic.Warning

/-! Logic pins, evaluated once each and in order against the levels known so far. A pin that refers to
a logic pin further on sees the level which that one had before; such references are warned about. -/
namespace Schematic

/-- Only a high input counts as high, be it unknown, floating or low otherwise. -/
def Gate.output (g : Gate) (inputs : List (Option Voltage)) : Voltage :=
  match g with
  | .and => if inputs.all (· == some .high) then .high else .low
  | .or => if inputs.any (· == some .high) then .high else .low

def Content.evaluate (c : Content) (inputs : List (Option Voltage)) : Except Failure Voltage :=
  match c.gate? with
  | some g => .ok (g.output inputs)
  | none => .error (Fault.notLogic c)

/-- The levels of labels, the newest first. -/
structure Levels where
  entries : List (String × Voltage) := []
deriving DecidableEq, Repr

namespace Levels

def get? (m : Levels) (label : String) : Option Voltage := m.entries.lookup label

def set (m : Levels) (label : String) (v : Voltage) : Levels := ⟨(label, v) :: m.entries⟩

@[simp] theorem get?_set (m : Levels) (a b : String) (v : Voltage) :
    (m.set a v).get? b = if b = a then some v else m.get? b := by
  by_cases h : b = a
  · simp [get?, set, h]
  · simp [get?, set, List.lookup_cons, beq_eq_false_iff_ne.2 h, h]

/-- The labels that have a level, in order. -/
def labels (m : Levels) : List String :=
  (m.entries.map Prod.fst).eraseDups.mergeSort fun a b => decide (¬b < a)

/-- The levels by label, in order. -/
def toList (m : Levels) : List (String × Voltage) :=
  m.labels.filterMap fun l => (m.get? l).map fun v => (l, v)

/-- The number of labels that are high. -/
def countHigh (m : Levels) : Nat := m.labels.countP fun l => m.get? l == some .high

/-- The level of a label is that of the last pin that has it. -/
def ofPins (ps : List Pin) : Levels :=
  ps.foldl (fun m p => if p.label = "" then m else m.set p.label p.voltage) {}

end Levels

/-- A pass over the logic pins: the levels known, the labels of logic pins still to come, and the
warnings given. -/
structure Settling where
  levels : Levels
  pending : List String
  warnings : List Warning := []
deriving DecidableEq, Repr

namespace Settling

def ofPins (ps : List Pin) : Settling where
  levels := .ofPins ps
  pending := (ps.filter fun p => p.label ≠ "" ∧ p.value.isLogic).map Pin.label

end Settling

namespace Pin

/-- The warning about the reference of `p` to `label`, if there is reason for one. -/
def warning? (p : Pin) (s : Settling) (label : String) : Option Warning :=
  if (s.levels.get? label).isNone then some (.unknownLabel p.displayName label)
  else if label ∈ s.pending then some (.earlyReference p.displayName label)
  else none

/-- Evaluates a logic pin, and makes its level known under its label. -/
def settle (p : Pin) (s : Settling) : Pin × Settling :=
  match p.value.content.gate? with
  | none => (p, s)
  | some g =>
    let v := g.output (p.value.labels.map s.levels.get?)
    let warnings := s.warnings ++ p.value.labels.filterMap (p.warning? s)
    ({ p with voltage := v },
      if p.label = "" then { s with warnings }
      else ⟨s.levels.set p.label v, s.pending.filter (· ≠ p.label), warnings⟩)

/-- Settles pins in order. -/
def settleFrom : List Pin → Settling → List Pin × Settling
  | [], s => ([], s)
  | p :: ps, s =>
    let (q, s') := p.settle s
    let (qs, s'') := settleFrom ps s'
    (q :: qs, s'')

/-- One pass over the pins of a schematic. -/
def settleAll (ps : List Pin) : List Pin × Settling := settleFrom ps (.ofPins ps)

end Pin
end Schematic
