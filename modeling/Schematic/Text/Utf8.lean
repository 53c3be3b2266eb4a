import Schematic.Text.Hexadecimal

/-! UTF-8: reading bytes as text, and the place and kind of the first fault. -/
namespace Schematic.Text.Utf8

inductive Problem
  | startByte
  | continuationByte
  | endOfData
deriving DecidableEq, Repr

/-- The first fault in a byte string: the `count` bytes from `position` on, the first of them `byte`,
begin no character. -/
structure Fault where
  problem : Problem
  byte : UInt8
  position : Nat
  count : Nat
deriving DecidableEq, Repr

/-- What the first byte of a character says: how many bytes follow, its share of the code point, and
the bounds of the second byte, which keep out overlong forms, surrogates and what lies past the last
code point. -/
structure Lead where
  following : Nat
  payload : Nat
  low : Nat
  high : Nat

def lead? (b : Nat) : Option Lead :=
  if b < 0x80 then some ⟨0, b, 0, 0⟩
  else if b < 0xC2 then none
  else if b < 0xE0 then some ⟨1, b - 0xC0, 0x80, 0xBF⟩
  else if b = 0xE0 then some ⟨2, 0, 0xA0, 0xBF⟩
  else if b = 0xED then some ⟨2, 0xD, 0x80, 0x9F⟩
  else if b < 0xF0 then some ⟨2, b - 0xE0, 0x80, 0xBF⟩
  else if b = 0xF0 then some ⟨3, 0, 0x90, 0xBF⟩
  else if b < 0xF4 then some ⟨3, b - 0xF0, 0x80, 0xBF⟩
  else if b = 0xF4 then some ⟨3, 4, 0x80, 0x8F⟩
  else none

/-- Adds `n` continuation bytes to `code`; the first of them lies between `low` and `high`. A fault
comes with the number of bytes before it, counted from `seen`. -/
def extend : (n low high code seen : Nat) → List UInt8 → Except (Problem × Nat) (Nat × List UInt8)
  | 0, _, _, code, _, rest => .ok (code, rest)
  | _ + 1, _, _, _, seen, [] => .error (.endOfData, seen)
  | n + 1, low, high, code, seen, b :: rest =>
    if low ≤ b.toNat ∧ b.toNat ≤ high then
      extend n 0x80 0xBF (code * 64 + (b.toNat - 0x80)) (seen + 1) rest
    else .error (.continuationByte, seen)

theorem length_extend {n low high code seen : Nat} {bytes : List UInt8} {r : Nat × List UInt8}
    (h : extend n low high code seen bytes = .ok r) : r.2.length + n = bytes.length := by
  induction n generalizing low high code seen bytes with
  | zero => cases h; rfl
  | succ n ih =>
    cases bytes with
    | nil => cases h
    | cons b rest =>
      rw [extend] at h
      split at h
      · have := ih h
        simp only [List.length_cons]
        omega
      · cases h

/-- Reads `bytes`, which start at `position`, behind the characters `done` in reverse order. -/
def decodeFrom (position : Nat) (done : List Char) (bytes : List UInt8) :
    Except Fault (List Char) :=
  match bytes with
  | [] => .ok done.reverse
  | b :: rest =>
    match lead? b.toNat with
    | none => .error ⟨.startByte, b, position, 1⟩
    | some l =>
      match h : extend l.following l.low l.high l.payload 1 rest with
      | .error (problem, count) => .error ⟨problem, b, position, count⟩
      | .ok (code, rest') =>
        decodeFrom (position + 1 + l.following) (Char.ofNat code :: done) rest'
termination_by bytes.length
decreasing_by
  have hr : rest'.length + _ = _ := length_extend h
  simp only [List.length_cons]
  omega

/-- The text that `bytes` encode. -/
def decode (bytes : List UInt8) : Except Fault (List Char) := decodeFrom 0 [] bytes

def Problem.message : Problem → String
  | .startByte => "invalid start byte"
  | .continuationByte => "invalid continuation byte"
  | .endOfData => "unexpected end of data"

/-- A single bad byte is shown, several are given by their first and last position. -/
def Fault.message (f : Fault) : String :=
  let place :=
    if f.count = 1 then
      "byte 0x" ++ String.ofList (hexadecimal 2 f.byte.toNat) ++ " in position " ++
        toString f.position
    else
      "bytes in position " ++ toString f.position ++ "-" ++ toString (f.position + f.count - 1)
  "'utf-8' codec can't decode " ++ place ++ ": " ++ f.problem.message

end Schematic.Text.Utf8
