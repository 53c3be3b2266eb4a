import Schematic.Proofs.Circuit.Memoryless
import Schematic.Proofs.Load.Rails
import Schematic.Proofs.Load.Stages

/-! Resolution of what is resolved. Connecting a pin again gives it the level that it has got, or, to a gate, the
level of its rail in place of its own. Main statement: voltages that gates hold are nothing to a pass without early
references, so that resolution that gives no such warning changes nothing when it is repeated. -/
namespace Schematic

section Connections

variable {ws : List Wire} {ns : List Net}

theorem Pin.connect_of_connect {p q : Pin} (h : p.connect ws ns = .ok q) : q.connect ws ns = .ok q := by
  unfold connect at h ⊢
  cases hw : ws.find? fun w => decide (w.Touches p.region.position) with
  | none =>
    rw [hw] at h
    cases h
    rw [hw]
  | some w =>
    rw [hw] at h
    dsimp only at h
    cases hn : w.net? ns with
    | error e =>
      rw [hn] at h
      cases h
    | ok n? =>
      rw [hn] at h
      cases n? with
      | none =>
        cases h
        simp only [hw, hn]
      | some n =>
        cases h
        simp only [hw, hn]

/-- Where a pin is as its wire leaves it, one that is alike is again alike when it has been connected. -/
theorem Pin.Alike.connect {p q r : Pin} (h : q.Alike p) (hp : p.connect ws ns = .ok p)
    (hq : q.connect ws ns = .ok r) : r.Alike p where
  unpowered := (unpowered_of_connect hq).trans h.unpowered
  plain hplain := by
    rw [h.plain hplain, hp] at hq
    exact (Except.ok.inj hq).symm

theorem forall₂_alike_connect {ps qs rs : List Pin} (h : List.Forall₂ Pin.Alike qs ps)
    (hps : ∀ p ∈ ps, p.connect ws ns = .ok p)
    (hqs : List.Forall₂ (fun q r => q.connect ws ns = .ok r) qs rs) :
    List.Forall₂ Pin.Alike rs ps := by
  induction h generalizing rs with
  | nil =>
    cases hqs
    exact .nil
  | cons hq _ ih =>
    obtain ⟨hp, hrest⟩ := List.forall_mem_cons.mp hps
    cases hqs with
    | cons hr hrs => exact .cons (hq.connect hp hr) (ih hrest hrs)

end Connections

namespace Resolves

variable {cs ds es : List Component} {ps qs : List Pin}

theorem wires_eq (h : Resolves cs ps ds) : wires ds = wires cs := by
  rw [← wires_map_unpowered ds, h.map_unpowered, wires_map_unpowered]

theorem nets_eq (h : Resolves cs ps ds) : nets ds = nets cs := by
  rw [← nets_map_unpowered ds, h.map_unpowered, nets_map_unpowered]

/-- The pins that are connected again differ from those connected first in what gates hold. -/
theorem alike_again (h : Resolves cs ps ds) (h' : Resolves ds qs es) :
    List.Forall₂ Pin.Alike qs ps := by
  have hconnect := h'.connect
  rw [h.wires_eq, h.nets_eq, h.pins_eq] at hconnect
  refine forall₂_alike_connect (Pin.forall₂_alike_settleFrom ps _) (fun p hp => ?_) hconnect
  obtain ⟨c, -, hc⟩ := h.exists_connect hp
  exact Pin.connect_of_connect hc

theorem eq_again (h : Resolves cs ps ds) (hquiet : Unhurried (Pin.settleAll ps).2.warnings)
    (h' : Resolves ds qs es) : es = ds := by
  obtain ⟨hpins, -⟩ := Pin.settleAll_of_alike (h.alike_again h') hquiet
  rw [h'.settle, hpins, ← h.pins_eq, setPins_pins]

end Resolves

/-- Without early references, what gates hold before a pass does not show after it, and resolution changes nothing
about a schematic that it has resolved. -/
theorem gates_keep_nothing :
    (∀ ps qs : List Pin, List.Forall₂ Pin.Alike qs ps → Unhurried (Pin.settleAll ps).2.warnings →
      (Pin.settleAll qs).1 = (Pin.settleAll ps).1 ∧
        ∀ l, (Pin.settleAll qs).2.levels.get? l = (Pin.settleAll ps).2.levels.get? l) ∧
    ∀ (cs : List Component) (s : LoadState), (∀ n ∈ nets cs, ¬n.region.Degenerate) →
      ∃ ds s' ws, resolveAll cs s = ⟨ds, s', none⟩ ∧ s'.warnings = s.warnings ++ ws ∧
        (Unhurried ws → ∀ t, ∃ t', resolveAll ds t = ⟨ds, t', none⟩) := by
  constructor
  · intro ps qs h hquiet
    exact Pin.settleAll_of_alike h hquiet
  · intro cs s hnets
    obtain ⟨ds, s', hfirst⟩ := exists_resolveAll hnets s
    obtain ⟨ps, hresolves, hwarnings⟩ := resolveAll_eq_ok hfirst
    refine ⟨ds, s', _, hfirst, hwarnings, fun hquiet t => ?_⟩
    have hnets' : ∀ n ∈ nets ds, ¬n.region.Degenerate := by rwa [hresolves.nets_eq]
    obtain ⟨es, t', hagain⟩ := exists_resolveAll hnets' t
    obtain ⟨qs, hresolves', -⟩ := resolveAll_eq_ok hagain
    rw [hresolves.eq_again hquiet hresolves'] at hagain
    exact ⟨t', hagain⟩

/-- Two gates of one label, the first of them on a wire from the rail, and a gate between them that reads it. -/
def wiredGates (held : Voltage) : List Component := [
  .net ⟨"vcc", ⟨⟨0, 0⟩, ⟨4, 1⟩⟩, none⟩,
  .pin { label := "a", region := .single ⟨0, 2⟩ },
  .pin { label := "y", value := ⟨.gate .or, ["a"]⟩, voltage := held, region := .single ⟨1, 2⟩ },
  .pin { label := "z", value := ⟨.gate .and, ["y", "y"]⟩, region := .single ⟨2, 2⟩ },
  .pin { label := "y", value := ⟨.gate .or, ["z", "x"]⟩, voltage := held, region := .single ⟨3, 2⟩ },
  .wire ⟨some .red, ⟨1, 2⟩, ⟨1, 0⟩, "", none⟩]

theorem gates_keep_nothing_wiredGates :
    (Pin.settleAll (pins (wiredGates .high))).1 = (Pin.settleAll (pins (wiredGates .low))).1 ∧
    ∃ ds s', resolveAll (wiredGates .high) {} = ⟨ds, s', none⟩ ∧
      ∃ t', resolveAll ds s' = ⟨ds, t', none⟩ := by
  have hquiet : Unhurried (Pin.settleAll (pins (wiredGates .low))).2.warnings := by
    have hwarnings : (Pin.settleAll (pins (wiredGates .low))).2.warnings = [.unknownLabel "y" "x"] := by
      decide +kernel
    rw [hwarnings]
    simp [Unhurried]
  have halike : List.Forall₂ Pin.Alike (pins (wiredGates .high)) (pins (wiredGates .low)) :=
    .cons ⟨rfl, fun _ => rfl⟩ <| .cons ⟨rfl, nofun⟩ <| .cons ⟨rfl, nofun⟩ <| .cons ⟨rfl, nofun⟩ .nil
  have hnets : ∀ n ∈ nets (wiredGates .high), ¬n.region.Degenerate := by decide
  obtain ⟨hpins, -⟩ := gates_keep_nothing.1 _ _ halike hquiet
  obtain ⟨ds, s', ws, hfirst, hwarnings, hagain⟩ := gates_keep_nothing.2 _ {} hnets
  have hgiven : (resolveAll (wiredGates .high) {}).state.warnings = [.unknownLabel "y" "x"] := by
    decide +kernel
  rw [hfirst] at hgiven
  have hws : ws = [.unknownLabel "y" "x"] := hwarnings.symm.trans hgiven
  refine ⟨hpins, ds, s', hfirst, hagain ?_ s'⟩
  rw [hws]
  simp [Unhurried]

end Schematic
