import Schematic.Load.State

/-! Letters of wires. The wires of one color are lettered in order, `a` to `z` and then `A` to `Z`. -/
namespace Schematic

/-- The letter behind `count` others. A count below zero goes back from `a` in the order of character
codes. A code that does not fit in 32 bits is refused as such. -/
def wireLetter (count : Int) : Except Failure String :=
  if count < 26 then
    if 0 ≤ 97 + count then .ok (String.singleton (Char.ofNat (97 + count).toNat))
    else if -2147483648 ≤ 97 + count then .error Fault.noCharacter
    else .error Fault.codeTooLarge
  else if count < maxWiresPerColor then
    .ok (String.singleton (Char.ofNat (65 + (count - 26)).toNat))
  else .error (Fault.noWireLetter count)

/-- Letters a wire behind wires of the colors `seen`. -/
def Wire.lettered (w : Wire) : EStateM Failure (List Color) Wire := fun seen =>
  match w.color with
  | none => .error Fault.uncoloredWire seen
  | some c =>
    if maxWiresPerColor ≤ seen.count c then .error (Cause.tooManyWires c.name) seen
    else match wireLetter (seen.count c) with
      | .error e => .error e seen
      | .ok letter => .ok { w with label := letter } (c :: seen)

def Component.lettered : Component → EStateM Failure (List Color) Component
  | .wire w => Component.wire <$> w.lettered
  | c => pure c

/-- The counts of the colors in use, for the log. -/
def describeCounts (seen : List Color) : String :=
  let used := Color.all.filter fun c => 0 < seen.count c
  "\x7b" ++ ", ".intercalate (used.map fun c =>
    "'" ++ c.name ++ "': " ++ toString (seen.count c)) ++ "\x7d"

/-- Letters the wires of a schematic. -/
def letterAll (cs : List Component) (s : LoadState) : Sweep LoadState Component :=
  let r := sweep Component.lettered cs []
  match r.failure with
  | some e => ⟨r.items, s, some e⟩
  | none =>
    ⟨r.items, { s with log := s.log.add .debug ("labeled wires: " ++ describeCounts r.state) }, none⟩

end Schematic
