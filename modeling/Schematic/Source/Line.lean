import Schematic.Component.Attribute
import Schematic.Source.Cursor

/-! The grammar of a line. A line declares one component: a colon, its kind, and its attributes, each
with its arguments behind it. A list of labels is closed by a dot. -/
namespace Schematic.Source.Reader

/-- Labels up to the dot that closes them. -/
def labelsBefore : List Token → Option Token → EStateM.Result Failure Cursor (List String)
  | [], current => .error (Cause.outOfTokens "'.'") ⟨current, []⟩
  | t :: ts, current =>
    if t.kind = .ender then .ok [] ⟨some t, ts⟩
    else if t.kind = .identifier then
      match labelsBefore ts (some t) with
      | .ok ls s => .ok (labelOf t.text :: ls) s
      | .error e s => .error e s
    else .error (Cause.unexpectedToken t.text "label") ⟨current, t :: ts⟩

def labels : Reader (List String) := fun s => labelsBefore s.rest s.current

def value : Reader Value := do
  let name ← expect .keyword "value"
  if name = "gnd" then pure { content := .gnd }
  else if name = "vcc" then pure { content := .vcc }
  else if name = "and" then
    let ls ← labels
    pure ⟨.gate .and, ls⟩
  else if name = "or" then
    let ls ← labels
    pure ⟨.gate .or, ls⟩
  else throw (Cause.unknownValue name : Failure)

def color : Reader Color := do
  let name ← expect .keyword "color"
  match Color.ofName? name with
  | some c => pure c
  | none => throw (Cause.unknownColor name : Failure)

/-- The arguments of an attribute. -/
def arguments : AttributeName → Reader Attribute
  | .bounds => do
    let v ← expectVec
    pure (.bounds v)
  | .position => do
    let p ← expectVec
    pure (.position p)
  | .start => do
    let p ← expectVec
    pure (.start p)
  | .stop => do
    let p ← expectVec
    pure (.stop p)
  | .row => do
    let y ← expectNumber
    pure (.row y)
  | .number => do
    let n ← expectNumber
    pure (.number n)
  | .type => do
    let s ← expect .keyword "type"
    pure (.type s)
  | .color => do
    let c ← color
    pure (.color c)
  | .label => do
    let s ← expectLabel
    pure (.label s)
  | .value => do
    let v ← value
    pure (.value v)

/-- The name of an attribute, and its arguments. -/
def attributeGroup : Reader Attribute := do
  let name ← expect .keyword "attribute"
  match AttributeName.ofText? name with
  | some a => arguments a
  | none => throw (Cause.unknownAttribute name : Failure)

theorem keeps_labels : Keeps labels := by
  intro s a s' h
  obtain ⟨current, rest⟩ := s
  unfold labels at h
  simp only at h ⊢
  induction rest generalizing current a with
  | nil => cases h
  | cons t ts ih =>
    rw [labelsBefore] at h
    split at h
    · cases h
      simp
    · split at h
      · split at h
        · next hr =>
          cases h
          exact Nat.le_succ_of_le (ih _ _ hr)
        · cases h
      · cases h

theorem takes_value : Takes value := by
  refine (takes_expect _ _).bind fun name => ?_
  split
  · exact keeps_pure _
  split
  · exact keeps_pure _
  split
  · intro s b s'' h
    obtain ⟨a, s', h₁, h₂⟩ := bind_eq_ok h
    exact Nat.le_trans (keeps_pure _ s' b s'' h₂) (keeps_labels s a s' h₁)
  split
  · intro s b s'' h
    obtain ⟨a, s', h₁, h₂⟩ := bind_eq_ok h
    exact Nat.le_trans (keeps_pure _ s' b s'' h₂) (keeps_labels s a s' h₁)
  · exact keeps_throw _

theorem takes_color : Takes color := by
  refine (takes_expect _ _).bind fun name => ?_
  split
  · exact keeps_pure _
  · exact keeps_throw _

theorem takes_arguments (a : AttributeName) : Takes (arguments a) := by
  cases a with
  | bounds | position | start | stop => exact takes_expectVec.bind fun _ => keeps_pure _
  | row | number => exact takes_expectNumber.bind fun _ => keeps_pure _
  | type => exact (takes_expect _ _).bind fun _ => keeps_pure _
  | color => exact takes_color.bind fun _ => keeps_pure _
  | label => exact takes_expectLabel.bind fun _ => keeps_pure _
  | value => exact takes_value.bind fun _ => keeps_pure _

theorem takes_attributeGroup : Takes attributeGroup := by
  refine (takes_expect _ _).bind fun name => ?_
  split
  · exact (takes_arguments _).keeps
  · exact keeps_throw _

/-- Applies the attributes of the line to `c`, each as soon as it is read. -/
def attributes (c : Component) (s : Cursor) : EStateM.Result Failure Cursor Component :=
  match s.rest with
  | [] => .ok c s
  | _ :: _ =>
    match _h : attributeGroup s with
    | .error e s' => .error e s'
    | .ok a s' =>
      match a.apply c with
      | .error e _ => .error e s'
      | .ok () c' => attributes c' s'
termination_by s.rest.length
decreasing_by exact takes_attributeGroup _ _ _ _h

/-- The component that the rest of the line declares, if the line goes on at all. -/
def component : Reader (Option Component) := fun s =>
  match s.rest with
  | [] => .ok none s
  | _ :: _ => declaration s
where
  declaration : Reader (Option Component) := do
    let _ ← expect .separator "':'"
    let name ← expect .keyword "object type"
    match Kind.ofName? name with
    | none => throw (Cause.unknownKind name : Failure)
    | some k =>
      let c ← attributes (.ofKind k)
      match c.verify with
      | .error e => throw e
      | .ok () => pure (some c)

end Schematic.Source.Reader
