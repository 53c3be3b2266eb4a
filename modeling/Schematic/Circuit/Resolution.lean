import Schematic.Circuit.Connection
import Schematic.Circuit.Logic

/-! The voltages of a schematic: the levels of rails first, then one pass over the logic pins. -/
namespace Schematic

/-- Each warning is given, and logged. -/
def LoadState.warn (s : LoadState) (ws : List Warning) : LoadState :=
  { s with
    log := s.log ++ ws.map fun w => .ofMessage .warning w.message
    warnings := s.warnings ++ ws }

/-- Sets the voltage of every pin. -/
def resolveAll (cs : List Component) (s : LoadState) : Sweep LoadState Component :=
  let connected := connectAll (wires cs) (nets cs) (pins cs)
  match connected.failure with
  | some e => ⟨setPins cs connected.items, s, some e⟩
  | none =>
    let (ps, settled) := Pin.settleAll connected.items
    let s := s.warn settled.warnings
    ⟨setPins cs ps, { s with
      log := s.log.add .debug ("resolved " ++ toString ps.length ++ " pins, " ++
        toString settled.levels.countHigh ++ " labels high") }, none⟩

end Schematic
