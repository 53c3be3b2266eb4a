import Schematic.Source.Number
import Schematic.Source.Token

/-! Reading the tokens of a line from left to right, with a look at the next one. Main statement: a
reader that takes a token on success leaves fewer behind. -/
namespace Schematic.Source

/-- A place among the tokens of a line: the last token taken and those still to come. -/
structure Cursor where
  current : Option Token := none
  rest : List Token
deriving DecidableEq, Repr

namespace Cursor

def ofTokens (ts : List Token) : Cursor := { rest := ts }

def next? (s : Cursor) : Option Token := s.rest.head?

/-- Takes a token. Past the end there is none. -/
def advance (s : Cursor) : Cursor := ⟨s.rest.head?, s.rest.tail⟩

end Cursor

/-- A reader keeps its place when it fails. -/
abbrev Reader (α : Type) := EStateM Failure Cursor α

namespace Reader

/-- The text of the next token, which has to be of the kind; `what` names it in diagnostics. -/
def expect (kind : TokenKind) (what : String) : Reader String := fun s =>
  match s.rest with
  | [] => .error (Cause.outOfTokens what) s
  | t :: ts =>
    if t.kind = kind then .ok t.text ⟨some t, ts⟩
    else .error (Cause.unexpectedToken t.text what) s

/-- The next number. It is taken before its value is looked at. -/
def expectNumber : Reader Int := fun s =>
  match s.rest with
  | [] => .error Cause.outOfTokensForNumber s
  | t :: ts =>
    if t.kind = .number then
      match number t.text with
      | .ok n => .ok n ⟨some t, ts⟩
      | .error e => .error e ⟨some t, ts⟩
    else .error (Cause.expectedNumber t.text) s

def expectVec : Reader Vec := do
  let x ← expectNumber
  let y ← expectNumber
  pure ⟨x, y⟩

/-- The label that an identifier writes behind its tick. -/
def labelOf (text : String) : String := String.ofList text.toList.tail

def expectLabel : Reader String := do
  let text ← expect .identifier "label"
  pure (labelOf text)

/-- The reader takes at least one token when it succeeds. -/
def Takes {α : Type} (m : Reader α) : Prop :=
  ∀ s a s', m s = .ok a s' → s'.rest.length < s.rest.length

/-- The reader gives no token back when it succeeds. -/
def Keeps {α : Type} (m : Reader α) : Prop :=
  ∀ s a s', m s = .ok a s' → s'.rest.length ≤ s.rest.length

theorem Takes.keeps {α : Type} {m : Reader α} (h : Takes m) : Keeps m :=
  fun s a s' hm => Nat.le_of_lt (h s a s' hm)

theorem keeps_pure {α : Type} (a : α) : Keeps (pure a) := by
  intro s b s' h
  cases h
  exact Nat.le_refl _

theorem keeps_throw {α : Type} (e : Failure) : Keeps (throw e : Reader α) := by
  intro s a s' h
  cases h

theorem bind_eq_ok {α β : Type} {m : Reader α} {f : α → Reader β} {s s'' : Cursor} {b : β}
    (h : (m >>= f) s = .ok b s'') : ∃ a s', m s = .ok a s' ∧ f a s' = .ok b s'' := by
  simp only [bind, EStateM.bind] at h
  split at h
  · next a s' hm => exact ⟨a, s', hm, h⟩
  · cases h

theorem Takes.bind {α β : Type} {m : Reader α} {f : α → Reader β} (hm : Takes m)
    (hf : ∀ a, Keeps (f a)) : Takes (m >>= f) := by
  intro s b s'' h
  obtain ⟨a, s', h₁, h₂⟩ := bind_eq_ok h
  exact Nat.lt_of_le_of_lt (hf a s' b s'' h₂) (hm s a s' h₁)

theorem takes_expect (kind : TokenKind) (what : String) : Takes (expect kind what) := by
  intro s a s' h
  unfold expect at h
  split at h
  · cases h
  · next t ts hs =>
    split at h
    · cases h
      simp [hs]
    · cases h

theorem takes_expectNumber : Takes expectNumber := by
  intro s a s' h
  unfold expectNumber at h
  split at h
  · cases h
  · next t ts hs =>
    split at h
    · split at h
      · cases h
        simp [hs]
      · cases h
    · cases h

theorem takes_expectVec : Takes expectVec :=
  takes_expectNumber.bind fun _ => (takes_expectNumber.bind fun _ => keeps_pure _).keeps

theorem takes_expectLabel : Takes expectLabel :=
  (takes_expect _ _).bind fun _ => keeps_pure _

end Reader
end Schematic.Source
