import Schematic.Load.State
import Schematic.Region.Overlap

/-! Checks of a sized schematic, in a fixed order: the canvas, the terminal, each component by itself,
then every pair. The first failure is the answer. -/
namespace Schematic

/-- The canvas of a schematic, of which there has to be exactly one. -/
def soleCanvas (cs : List Component) : Except Failure Canvas :=
  match cs.filterMap Component.canvas? with
  | [] => .error Cause.missingCanvas
  | [c] => .ok c
  | more => .error (Cause.severalCanvases more.length)

/-- The place of the first canvas. -/
def canvasIndex? (cs : List Component) : Option Nat :=
  cs.findIdx? fun c => c.canvas?.isSome

def Canvas.checkBounds (c : Canvas) : Except Failure Unit :=
  if c.bounds.x = 0 ∧ c.bounds.y = 0 then .error (Cause.missingAttribute "bounds")
  else if c.bounds.x = 0 ∨ c.bounds.y = 0 then .error (Cause.invalidAttribute "bounds")
  else .ok ()

/-- The terminal has to hold the canvas and its border. -/
def Canvas.checkViewport (c : Canvas) (viewport : Vec) : Except Failure Unit :=
  let needed := c.bounds + ⟨border, border⟩
  if viewport.x < needed.x ∨ viewport.y < needed.y then
    .error (Cause.terminalTooSmall needed viewport)
  else .ok ()

def Component.check (bounds : Vec) : Component → Except Failure Unit
  | .canvas _ => .ok ()
  | .chip c =>
    if c.type = "" then .error (Cause.missingAttribute "type")
    else
      let p := c.region.position
      if p.Within bounds ∧ (p + c.region.size + ⟨-1, -1⟩).Within bounds then .ok ()
      else .error (Cause.outOfBounds Kind.chip.name p)
  | .net n =>
    if (Rail.ofName? n.type).isNone then
      .error (Cause.invalidAttributeValue (.text n.type) "type")
    else if bounds.y ≤ n.region.position.y then
      .error (Cause.outOfBounds Kind.net.name n.region.position)
    else .ok ()
  | .pin p =>
    if p.region.position.Within bounds then .ok ()
    else .error (Cause.outOfBounds Kind.pin.name p.region.position)
  | .wire w =>
    if ¬w.start.Within bounds then .error (Cause.outOfBounds Kind.wire.name w.start)
    else if ¬w.stop.Within bounds then .error (Cause.outOfBounds Kind.wire.name w.stop)
    else if w.start = w.stop then .error (Cause.pointWire w.start)
    else .ok ()
  | .foreign text => .error (Fault.notComponent text)

/-- The regions that cover cells, each with the place of its component in the list. -/
def coveringRegions (cs : List Component) : Except Failure (List (Nat × Region)) := do
  let rs ← cs.mapM Component.region
  pure (rs.zipIdx.filterMap fun e =>
    match e.1 with
    | some r => if r.Degenerate then none else some (e.2, r)
    | none => none)

/-- The first pair, in the order of the list, of regions that share a cell. -/
def firstOverlap : List (Nat × Region) → Option (Nat × Nat)
  | [] => none
  | a :: rest =>
    match rest.find? fun b => decide (a.2.Meets b.2) with
    | some b => some (a.1, b.1)
    | none => firstOverlap rest

def checkOverlaps (cs : List Component) : Except Failure Unit := do
  let rs ← coveringRegions cs
  match firstOverlap rs with
  | none => .ok ()
  | some (i, j) => .error (Cause.overlap i j)

def checkEach (bounds : Vec) (cs : List Component) : Except Failure Unit :=
  cs.forM (Component.check bounds)

/-- Checks a schematic; without a terminal size, on a terminal of any size. -/
def validate (cs : List Component) (canvas : Canvas) (viewport : Option Vec) :
    Except Failure Unit := do
  canvas.checkBounds
  match viewport with
  | none => pure ()
  | some v => canvas.checkViewport v
  checkEach canvas.bounds cs
  checkOverlaps cs

/-- Validation as a step of loading, which changes no component. -/
def validateAll (canvas : Canvas) (viewport : Option Vec) (cs : List Component) (s : LoadState) :
    Sweep LoadState Component :=
  match validate cs canvas viewport with
  | .error e => ⟨cs, s, some e⟩
  | .ok () =>
    ⟨cs, { s with
      log := s.log.add .debug ("validated " ++ toString cs.length ++ " objects") }, none⟩

end Schematic
