import Mathlib.Data.List.Induction
import Mathlib.Tactic.SplitIfs
import Schematic.Proofs.Source.Diagnosis

/-! The grammar of lines, apart from how lines are read. A declaration is a colon, the name of a kind, and
groups of an attribute name with its arguments. Main statement: an attribute is applied to a component exactly
if components of its kind have the attribute, and of all that are applied the last of each name stays. -/
namespace Schematic

theorem Color.ofName?_eq_some_iff {s : String} {c : Color} : Color.ofName? s = some c ↔ s = c.name := by
  constructor
  · intro h
    have hf := List.find?_some h
    exact (beq_iff_eq.mp hf).symm
  · rintro rfl
    cases c <;> rfl

theorem AttributeName.ofText?_eq_some_iff {s : String} {a : AttributeName} :
    AttributeName.ofText? s = some a ↔ s = a.text := by
  constructor
  · intro h
    have hf := List.find?_some h
    exact (beq_iff_eq.mp hf).symm
  · rintro rfl
    cases a <;> rfl

/-- The attributes that components of a kind have. -/
def Kind.attributes : Kind → List AttributeName
  | .chip => [.type, .position]
  | .canvas => [.bounds]
  | .net => [.type, .row]
  | .pin => [.label, .value, .position, .number]
  | .wire => [.color, .start, .stop]

theorem Kind.ofName?_eq_some_iff {s : String} {k : Kind} : Kind.ofName? s = some k ↔ s = k.name := by
  constructor
  · intro h
    have hf := List.find?_some h
    exact (beq_iff_eq.mp hf).symm
  · rintro rfl
    cases k <;> rfl

/-- The component behind an attempt to set the attribute, whether or not it has the attribute. -/
def Component.set (c : Component) (a : Attribute) : Component :=
  match a.apply c with
  | .ok () c' => c'
  | .error _ c' => c'

/-- A component without the attribute stays as it is. -/
theorem Component.set_eq_getD (c : Component) (a : Attribute) : c.set a = (a.set? c).getD c := by
  unfold set
  split
  · next h => rw [Attribute.apply_eq_ok_iff_set?.mp h, Option.getD_some]
  · next h =>
    have hnone : a.set? c = none := by
      rw [Option.eq_none_iff_forall_ne_some]
      intro c₁ hset
      rw [Attribute.apply_eq_ok_iff_set?.mpr hset] at h
      cases h
    rw [Attribute.eq_of_apply_eq_error h, hnone, Option.getD_none]

theorem Component.kind?_set (c : Component) (a : Attribute) : (c.set a).kind? = c.kind? := by
  rw [set_eq_getD]
  cases h : a.set? c with
  | none => rfl
  | some c' => exact Attribute.kind?_of_set? h

theorem Attribute.apply_eq_ok_iff {a : Attribute} {c c' : Component} {k : Kind}
    (hk : c.kind? = some k) : a.apply c = .ok () c' ↔ a.name ∈ k.attributes ∧ c' = c.set a := by
  have hset : (a.set? c).isSome ↔ a.name ∈ k.attributes := by
    cases c <;> cases hk <;> cases a <;> simp [set?, name, Kind.attributes]
  rw [apply_eq_ok_iff_set?, ← hset, Component.set_eq_getD]
  cases a.set? c <;> simp [eq_comm]

/-- What the last of the attributes says that `f` is about. -/
def lastOf {α : Type} (f : Attribute → Option α) (as : List Attribute) : Option α :=
  (as.filterMap f).getLast?

/-- The component of the kind that has of each name what the last attribute of the name says, and its default
where there is none. -/
def Kind.built (k : Kind) (as : List Attribute) : Component :=
  let bounds := lastOf (fun | .bounds v => some v | _ => none) as
  let color := lastOf (fun | .color c => some c | _ => none) as
  let start := lastOf (fun | .start p => some p | _ => none) as
  let stop := lastOf (fun | .stop p => some p | _ => none) as
  let label := lastOf (fun | .label l => some l | _ => none) as
  let number := lastOf (fun | .number n => some n | _ => none) as
  let position := lastOf (fun | .position p => some p | _ => none) as
  let type := lastOf (fun | .type s => some s | _ => none) as
  let value := lastOf (fun | .value v => some v | _ => none) as
  let row := lastOf (fun | .row y => some y | _ => none) as
  match k with
  | .canvas => .canvas ⟨bounds.getD ⟨0, 0⟩, none⟩
  | .chip => .chip ⟨type.getD "", ⟨position.getD ⟨0, 0⟩, ⟨0, 3⟩⟩, none⟩
  | .net => .net ⟨type.getD "", ⟨⟨0, row.getD 0⟩, ⟨0, 1⟩⟩, none⟩
  | .pin => .pin ⟨label.getD "", value.getD ⟨.unset, []⟩, .floating, ⟨position.getD ⟨0, 0⟩, ⟨1, 1⟩⟩, number,
      none⟩
  | .wire => .wire ⟨color, start.getD ⟨0, 0⟩, stop.getD ⟨0, 0⟩, "", none⟩

/-- The component has what its kind cannot do without: chips and nets a type, gates labels, and wires a color. -/
def Component.Complete : Component → Prop
  | .canvas _ => True
  | .chip c => c.type ≠ ""
  | .net n => n.type ≠ ""
  | .pin p => p.value.content = .gate .and ∨ p.value.content = .gate .or → p.value.labels ≠ []
  | .wire w => w.color ≠ none
  | .foreign _ => False

theorem lastOf_concat {α : Type} (f : Attribute → Option α) (as : List Attribute) (a : Attribute) :
    lastOf f (as ++ [a]) = (f a).or (lastOf f as) := by
  unfold lastOf
  rw [List.filterMap_append, List.getLast?_append]
  cases h : f a <;> simp [h]

/-- Attributes that are set one after the other leave the last of each name. -/
theorem Component.foldl_set_eq_built (k : Kind) (as : List Attribute) :
    as.foldl Component.set (.ofKind k) = k.built as := by
  induction as using List.reverseRecOn with
  | nil => cases k <;> rfl
  | append_singleton as a ih =>
    rw [List.foldl_append, ih, List.foldl_cons, List.foldl_nil, set_eq_getD]
    cases k <;> cases a <;> simp [Kind.built, lastOf_concat, Attribute.set?]

theorem Value.isLogic_iff (v : Value) :
    v.isLogic = true ↔ v.content = .gate .and ∨ v.content = .gate .or := by
  obtain ⟨content, labels⟩ := v
  rcases content with _ | _ | _ | (_ | _) <;> simp [isLogic, Content.gate?]

theorem Component.verify_eq_ok_iff (c : Component) : c.verify = .ok () ↔ c.Complete := by
  have hif {P : Prop} [Decidable P] (e : Failure) :
      (if P then .error e else .ok () : Except Failure Unit) = .ok () ↔ ¬P := by
    split_ifs with h
    · exact iff_of_false nofun (not_not_intro h)
    · exact iff_of_true rfl h
  cases c with
  | canvas => exact iff_of_true rfl trivial
  | chip c => exact hif _
  | net n => exact hif _
  | wire w => exact hif _
  | pin p =>
    rw [Complete, ← Value.isLogic_iff, ← not_and]
    exact hif _
  | foreign => exact iff_of_false nofun id

namespace Source

/-- The keyword `s`. -/
def Token.word (s : String) : Token := ⟨.keyword, s⟩

/-- An identifier is a label behind a tick. -/
def unticked (text : String) : String := String.ofList (text.toList.drop 1)

theorem Reader.labelOf_eq_unticked : labelOf = unticked := by
  funext text
  rw [labelOf, unticked, List.drop_one]

section Spelling

variable (ts : List Token)

def SpellsNumber (n : Int) : Prop := ∃ text, ts = [⟨.number, text⟩] ∧ number text = .ok n

def SpellsVec (v : Vec) : Prop := ∃ us vs, ts = us ++ vs ∧ SpellsNumber us v.x ∧ SpellsNumber vs v.y

def SpellsLabel (l : String) : Prop := ∃ text, ts = [⟨.identifier, text⟩] ∧ l = unticked text

/-- A dot closes the list. -/
def SpellsLabels (ls : List String) : Prop :=
  ∃ (texts : List String) (dot : String), ts = texts.map (Token.mk .identifier) ++ [⟨.ender, dot⟩] ∧
    ls = texts.map unticked

/-- A rail stands alone, and a gate before its list of labels. -/
def SpellsValue (v : Value) : Prop :=
  match v.content with
  | .unset => False
  | .gnd | .vcc => ts = [.word v.content.name] ∧ v.labels = []
  | .gate _ => ∃ us, ts = .word v.content.name :: us ∧ SpellsLabels us v.labels

def SpellsArguments : Attribute → Prop
  | .bounds v | .start v | .stop v | .position v => SpellsVec ts v
  | .number n | .row n => SpellsNumber ts n
  | .type s => ts = [.word s]
  | .color c => ts = [.word c.name]
  | .label l => SpellsLabel ts l
  | .value v => SpellsValue ts v

/-- The name of the attribute, and exactly its arguments. -/
def SpellsAttribute (a : Attribute) : Prop :=
  ∃ us, ts = .word a.name.text :: us ∧ SpellsArguments us a

end Spelling

/-- The tokens are groups of the attributes, one behind the other. -/
inductive SpellsAttributes : List Token → List Attribute → Prop
  | nil : SpellsAttributes [] []
  | cons {ts us : List Token} {a : Attribute} {as : List Attribute} :
    SpellsAttribute ts a → SpellsAttributes us as → SpellsAttributes (ts ++ us) (a :: as)

/-- The tokens declare the component: a colon, a kind, and groups of attributes that the kind has, the last of each
name saying what the component has, which is complete then. -/
def Declares (ts : List Token) (c : Component) : Prop :=
  ∃ (colon : String) (k : Kind) (us : List Token) (as : List Attribute),
    ts = ⟨.separator, colon⟩ :: .word k.name :: us ∧ SpellsAttributes us as ∧
    (∀ a ∈ as, a.name ∈ k.attributes) ∧ c = k.built as ∧ c.Complete

/-- The attributes can as well be set one after the other. -/
theorem declares_iff_foldl_set {ts : List Token} {c : Component} : Declares ts c ↔
    ∃ colon k us as, ts = ⟨.separator, colon⟩ :: .word k.name :: us ∧ SpellsAttributes us as ∧
      (∀ a ∈ as, a.name ∈ k.attributes) ∧ c = as.foldl Component.set (.ofKind k) ∧ c.verify = .ok () := by
  simp only [Declares, Component.foldl_set_eq_built, Component.verify_eq_ok_iff]

theorem spellsLabels_cons_iff {kind : TokenKind} {text : String} {ts : List Token} {ls : List String} :
    SpellsLabels (⟨kind, text⟩ :: ts) ls ↔ (kind = .ender ∧ ts = [] ∧ ls = []) ∨
      (kind = .identifier ∧ ∃ ms, SpellsLabels ts ms ∧ ls = unticked text :: ms) := by
  constructor
  · rintro ⟨texts, dot, hts, rfl⟩
    cases texts with
    | nil =>
      cases hts
      exact .inl ⟨rfl, rfl, rfl⟩
    | cons text' texts =>
      cases hts
      exact .inr ⟨rfl, _, ⟨texts, dot, rfl, rfl⟩, rfl⟩
  · rintro (⟨rfl, rfl, rfl⟩ | ⟨rfl, _, ⟨texts, dot, rfl, rfl⟩, rfl⟩)
    · exact ⟨[], text, rfl, rfl⟩
    · exact ⟨text :: texts, dot, rfl, rfl⟩

theorem not_spellsLabels_nil (ls : List String) : ¬SpellsLabels [] ls := by
  rintro ⟨texts, dot, hts, -⟩
  simp at hts

/-- The first word of a value decides what it is and what stands behind it. -/
theorem spellsValue_word_iff {name : String} {ts : List Token} {v : Value} :
    SpellsValue (.word name :: ts) v ↔
      (name = "gnd" ∧ ts = [] ∧ v = { content := .gnd }) ∨
      (name = "vcc" ∧ ts = [] ∧ v = { content := .vcc }) ∨
      (name = "and" ∧ ∃ ls, SpellsLabels ts ls ∧ v = ⟨.gate .and, ls⟩) ∨
      (name = "or" ∧ ∃ ls, SpellsLabels ts ls ∧ v = ⟨.gate .or, ls⟩) := by
  obtain ⟨content, ls⟩ := v
  rcases content with _ | _ | _ | (_ | _) <;> simp [SpellsValue, Content.name, Token.word, and_assoc]

theorem ne_nil_of_spellsAttribute {ts : List Token} {a : Attribute} (h : SpellsAttribute ts a) :
    ts ≠ [] := by
  obtain ⟨us, rfl, -⟩ := h
  exact List.cons_ne_nil _ us

theorem not_declares_nil (c : Component) : ¬Declares [] c := by
  rintro ⟨_, _, _, _, h, -⟩
  cases h

end Source
end Schematic
