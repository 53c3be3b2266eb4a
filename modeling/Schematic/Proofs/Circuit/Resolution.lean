import Mathlib.Data.List.Forall2
import Schematic.Circuit.Resolution
import Schematic.Proofs.Load.Templates

/-! What resolution changes. Main statement: resolution that gets to its end connects the pins and settles
them, and components differ from what they were by the voltages of pins only. -/
namespace Schematic

/-- The pin with another voltage. -/
def Pin.powered (p : Pin) (v : Voltage) : Pin := { p with voltage := v }

/-- The pin before any voltage is known. -/
def Pin.unpowered (p : Pin) : Pin := p.powered .floating

def Component.unpowered : Component → Component
  | .pin p => .pin p.unpowered
  | c => c

namespace Pin

section

variable {p q : Pin} (h : p.unpowered = q.unpowered)
include h

theorem label_eq_of_unpowered_eq : p.label = q.label := by
  have hl := congrArg label h
  exact hl

theorem value_eq_of_unpowered_eq : p.value = q.value := by
  have hv := congrArg value h
  exact hv

theorem origin_eq_of_unpowered_eq : p.origin = q.origin := by
  have ho := congrArg origin h
  exact ho

end

theorem exists_of_map_unpowered {ps qs : List Pin} {q : Pin}
    (h : qs.map unpowered = ps.map unpowered) (hq : q ∈ qs) :
    ∃ p ∈ ps, p.unpowered = q.unpowered := by
  have hm := List.mem_map_of_mem (f := unpowered) hq
  rw [h] at hm
  exact List.mem_map.mp hm

variable {wires : List Wire} {nets : List Net}

theorem unpowered_of_connect {p q : Pin} (h : p.connect wires nets = .ok q) :
    q.unpowered = p.unpowered := by
  unfold connect at h
  split at h
  · cases h
    rfl
  · split at h
    · cases h
    · cases h
      rfl
    · cases h
      rfl

theorem unpowered_settle (p : Pin) (s : Settling) : (p.settle s).1.unpowered = p.unpowered := by
  unfold settle
  cases p.value.content.gate? with
  | none => rfl
  | some g => rfl

theorem settleFrom_cons (p : Pin) (ps : List Pin) (s : Settling) : settleFrom (p :: ps) s =
    ((p.settle s).1 :: (settleFrom ps (p.settle s).2).1, (settleFrom ps (p.settle s).2).2) := rfl

theorem map_unpowered_settleFrom (ps : List Pin) (s : Settling) :
    (settleFrom ps s).1.map unpowered = ps.map unpowered := by
  induction ps generalizing s with
  | nil => rfl
  | cons p ps ih =>
    rw [settleFrom_cons, List.map_cons, List.map_cons, unpowered_settle, ih]

theorem settleFrom_append (ps qs : List Pin) (s : Settling) : settleFrom (ps ++ qs) s =
    ((settleFrom ps s).1 ++ (settleFrom qs (settleFrom ps s).2).1,
      (settleFrom qs (settleFrom ps s).2).2) := by
  induction ps generalizing s with
  | nil => rfl
  | cons p ps ih =>
    rw [List.cons_append, settleFrom_cons, ih, settleFrom_cons, List.cons_append]

end Pin

/-- Each pin is connected by itself. -/
theorem connectAll_eq_ok {wires : List Wire} {nets : List Net} {ps qs : List Pin}
    (h : connectAll wires nets ps = ⟨qs, (), none⟩) :
    List.Forall₂ (fun p q => p.connect wires nets = .ok q) ps qs := by
  unfold connectAll at h
  induction ps generalizing qs with
  | nil =>
    cases h
    exact .nil
  | cons p ps ih =>
    obtain ⟨q, ⟨⟩, rest, hq, hrest, rfl⟩ := sweep_cons_eq.mp h
    refine .cons ?_ (ih hrest)
    split at hq
    · next hp =>
      cases hq
      exact hp
    · cases hq

theorem map_unpowered_of_connectAll {wires : List Wire} {nets : List Net} {ps qs : List Pin}
    (h : List.Forall₂ (fun p q => p.connect wires nets = .ok q) ps qs) :
    qs.map Pin.unpowered = ps.map Pin.unpowered := by
  induction h with
  | nil => rfl
  | cons hp _ ih => rw [List.map_cons, List.map_cons, Pin.unpowered_of_connect hp, ih]

theorem map_unpowered_setPins {cs : List Component} {ps : List Pin}
    (h : ps.map Pin.unpowered = (pins cs).map Pin.unpowered) :
    (setPins cs ps).map Component.unpowered = cs.map Component.unpowered := by
  induction cs generalizing ps with
  | nil => rfl
  | cons c cs ih =>
    cases hc : c.pin? with
    | none =>
      rw [pins_cons_of_none hc] at h
      rw [setPins_cons_of_none hc, List.map_cons, List.map_cons, ih h]
    | some p =>
      cases c <;> cases hc
      cases ps with
      | nil => cases h
      | cons q qs =>
        rw [pins_cons_pin, List.map_cons, List.map_cons, List.cons.injEq] at h
        obtain ⟨hq, hqs⟩ := h
        rw [setPins, List.map_cons, List.map_cons, ih hqs]
        exact congrArg (· :: _) (congrArg Component.pin hq)

/-- The parts of a resolution that gets to its end. `ps` are the pins after the levels of rails are
known. -/
structure Resolves (cs : List Component) (ps : List Pin) (ds : List Component) : Prop where
  connect : List.Forall₂ (fun p q => p.connect (wires cs) (nets cs) = .ok q) (pins cs) ps
  settle : ds = setPins cs (Pin.settleAll ps).1

theorem resolveAll_eq_ok {cs ds : List Component} {s s' : LoadState}
    (h : resolveAll cs s = ⟨ds, s', none⟩) :
    ∃ ps, Resolves cs ps ds ∧ s'.warnings = s.warnings ++ (Pin.settleAll ps).2.warnings := by
  unfold resolveAll at h
  dsimp only at h
  split at h
  · cases h
  · next hf =>
    have hc : connectAll (wires cs) (nets cs) (pins cs) =
        ⟨(connectAll (wires cs) (nets cs) (pins cs)).items, (), none⟩ := by rw [← hf]
    cases h
    exact ⟨_, ⟨connectAll_eq_ok hc, rfl⟩, rfl⟩

namespace Resolves

variable {cs ds : List Component} {ps : List Pin}

theorem map_unpowered_pins (h : Resolves cs ps ds) :
    (Pin.settleAll ps).1.map Pin.unpowered = (pins cs).map Pin.unpowered :=
  (Pin.map_unpowered_settleFrom ps _).trans (map_unpowered_of_connectAll h.connect)

theorem pins_eq (h : Resolves cs ps ds) : pins ds = (Pin.settleAll ps).1 := by
  have hl := congrArg List.length h.map_unpowered_pins
  rw [List.length_map, List.length_map] at hl
  rw [h.settle, pins_setPins cs _ hl]

theorem map_unpowered (h : Resolves cs ps ds) :
    ds.map Component.unpowered = cs.map Component.unpowered := by
  rw [h.settle]
  exact map_unpowered_setPins h.map_unpowered_pins

end Resolves
end Schematic
