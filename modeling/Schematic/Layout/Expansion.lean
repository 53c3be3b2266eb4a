import Schematic.Load.State

/-! Expansion of chips into the pins of their templates. -/
namespace Schematic

/-- The last segment of a chip type. -/
def shortType (type : String) : String := Text.afterLast '/' type

/-- What the labels of an instance of a chip type end in. -/
def instanceSuffix (type : String) (index : Int) : String :=
  "_" ++ shortType type ++ "_" ++ toString index

/-- An empty label stays empty. -/
def renameLabel (ending label : String) : String :=
  if label = "" then label else label ++ ending

def Pin.rename (ending : String) (p : Pin) : Pin :=
  { p with
    label := renameLabel ending p.label
    value := { p.value with labels := p.value.labels.map (renameLabel ending) } }

/-- The pins of the `index`-th chip of its type, counted from one. They stand where the chip stands and
come from where the chip comes from. -/
def Chip.expand (c : Chip) (template : List Pin) (index : Int) : List Pin :=
  template.map fun p =>
    { p.rename (instanceSuffix c.type index) with
      region := .single (p.region.position + c.region.position)
      origin := c.origin }

/-- Replaces the chips behind chips of the types `seen` by their pins. -/
def expandFrom (read : TemplateReader) : List String → List Component → Loader (List Component)
  | _, [] => pure []
  | seen, c :: cs =>
    match c with
    | .chip chip => do
      let template ← Loader.template read chip.type
      let rest ← expandFrom read (chip.type :: seen) cs
      pure ((chip.expand template (seen.count chip.type + 1 : Nat)).map .pin ++ rest)
    | c => do
      let rest ← expandFrom read seen cs
      pure (c :: rest)

def Component.isChip : Component → Bool
  | .chip _ => true
  | _ => false

/-- Replaces the chips of a schematic by their pins, all of them or none. -/
def expandAll (read : TemplateReader) (cs : List Component) (s : LoadState) :
    Sweep LoadState Component :=
  match expandFrom read [] cs s with
  | .error e s => ⟨cs, s, some e⟩
  | .ok flat s =>
    ⟨flat, { s with
      log := s.log.add .debug ("flattened " ++ toString (cs.countP Component.isChip) ++
        " chips into " ++ toString flat.length ++ " objects") }, none⟩

end Schematic
