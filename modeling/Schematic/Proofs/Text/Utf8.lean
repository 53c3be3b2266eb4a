import Mathlib.Tactic.IntervalCases
import Mathlib.Tactic.SplitIfs
import Schematic.Text.Utf8

/-! UTF-8 read back. The first byte of an encoded character says how many follow and bounds the second, and
an encoded character keeps to that. Main statement: an encoded text is read as the text. -/
namespace Schematic.Text.Utf8

/-- A character as its first byte announces it. -/
theorem decodeFrom_cons {b : UInt8} {bytes rest : List UInt8} {l : Lead} {code : Nat}
    (hl : lead? b.toNat = some l)
    (he : extend l.following l.low l.high l.payload 1 bytes = .ok (code, rest)) (position : Nat)
    (done : List Char) : decodeFrom position done (b :: bytes) =
      decodeFrom (position + 1 + l.following) (Char.ofNat code :: done) rest := by
  rw [decodeFrom]
  split
  · next h =>
    rw [hl] at h
    cases h
  · next l' h =>
    rw [hl] at h
    cases h
    split
    · next h =>
      rw [he] at h
      cases h
    · next h =>
      rw [he] at h
      cases h
      rfl

/-- A continuation byte adds its share to the code point. -/
theorem extend_succ {n low high code seen share : Nat} {rest : List UInt8}
    (hlow : low ≤ share + 128) (hhigh : share + 128 ≤ high) (hshare : share < 64) :
    extend (n + 1) low high code seen (UInt8.ofNat (share + 128) :: rest) =
      extend n 0x80 0xBF (code * 64 + share) (seen + 1) rest := by
  have hbyte : (UInt8.ofNat (share + 128)).toNat = share + 128 := by
    rw [UInt8.toNat_ofNat']
    omega
  rw [extend, hbyte, if_pos ⟨hlow, hhigh⟩, Nat.add_sub_cancel]

theorem lead?_of_one {b : Nat} (h : b < 0x80) : lead? b = some ⟨0, b, 0, 0⟩ := if_pos h

theorem lead?_of_two {b : Nat} (hlow : 0xC2 ≤ b) (hhigh : b < 0xE0) :
    lead? b = some ⟨1, b - 0xC0, 0x80, 0xBF⟩ := by
  interval_cases b <;> rfl

theorem lead?_of_three {b : Nat} (hlow : 0xE0 ≤ b) (hhigh : b < 0xF0) :
    lead? b = some ⟨2, b - 0xE0, if b = 0xE0 then 0xA0 else 0x80, if b = 0xED then 0x9F else 0xBF⟩ := by
  interval_cases b <;> rfl

theorem lead?_of_four {b : Nat} (hlow : 0xF0 ≤ b) (hhigh : b ≤ 0xF4) :
    lead? b = some ⟨3, b - 0xF0, if b = 0xF0 then 0x90 else 0x80, if b = 0xF4 then 0x8F else 0xBF⟩ := by
  interval_cases b <;> rfl

theorem toNat_ofNat_of_lt {n : Nat} (h : n < 256) : (UInt8.ofNat n).toNat = n := by
  rw [UInt8.toNat_ofNat']
  omega

/-- The bytes are those of the code point `v`, told by the first of them. -/
def Opens (bytes : List UInt8) (v : Nat) : Prop :=
  ∃ b bs l, bytes = b :: bs ∧ lead? b.toNat = some l ∧
    ∀ rest, extend l.following l.low l.high l.payload 1 (bs ++ rest) = .ok (v, rest)

section

variable {v : Nat}

theorem opens_one (h : v ≤ 127) : Opens [UInt8.ofNat v] v := by
  have hb : (UInt8.ofNat v).toNat = v := toNat_ofNat_of_lt (by omega)
  have hl := lead?_of_one (b := v) (by omega)
  exact ⟨_, [], _, rfl, by rw [hb, hl], fun rest => rfl⟩

theorem opens_two (hlow : 127 < v) (hhigh : v ≤ 2047) :
    Opens [UInt8.ofNat (v / 64 % 32 + 192), UInt8.ofNat (v % 64 + 128)] v := by
  have hb : (UInt8.ofNat (v / 64 % 32 + 192)).toNat = v / 64 % 32 + 192 :=
    toNat_ofNat_of_lt (by omega)
  have hl := lead?_of_two (b := v / 64 % 32 + 192) (by omega) (by omega)
  refine ⟨_, [_], _, rfl, by rw [hb, hl], fun rest => ?_⟩
  have hv : (v / 64 % 32 + 192 - 0xC0) * 64 + v % 64 = v := by omega
  dsimp only
  rw [List.singleton_append, extend_succ (by omega) (by omega) (by omega), extend, hv]

theorem opens_three (hlow : 2047 < v) (hhigh : v ≤ 65535) (hvalid : v < 0xD800 ∨ 0xDFFF < v) :
    Opens [UInt8.ofNat (v / 4096 % 16 + 224), UInt8.ofNat (v / 64 % 64 + 128),
      UInt8.ofNat (v % 64 + 128)] v := by
  have hb : (UInt8.ofNat (v / 4096 % 16 + 224)).toNat = v / 4096 % 16 + 224 :=
    toNat_ofNat_of_lt (by omega)
  have hl := lead?_of_three (b := v / 4096 % 16 + 224) (by omega) (by omega)
  refine ⟨_, [_, _], _, rfl, by rw [hb, hl], fun rest => ?_⟩
  have hv : ((v / 4096 % 16 + 224 - 0xE0) * 64 + v / 64 % 64) * 64 + v % 64 = v := by omega
  dsimp only
  rw [List.cons_append, extend_succ (by split_ifs <;> omega) (by split_ifs <;> omega) (by omega),
    List.singleton_append, extend_succ (by omega) (by omega) (by omega), extend, hv]

theorem opens_four (hlow : 65535 < v) (hvalid : v < 0x110000) :
    Opens [UInt8.ofNat (v / 262144 % 8 + 240), UInt8.ofNat (v / 4096 % 64 + 128),
      UInt8.ofNat (v / 64 % 64 + 128), UInt8.ofNat (v % 64 + 128)] v := by
  have hb : (UInt8.ofNat (v / 262144 % 8 + 240)).toNat = v / 262144 % 8 + 240 :=
    toNat_ofNat_of_lt (by omega)
  have hl := lead?_of_four (b := v / 262144 % 8 + 240) (by omega) (by omega)
  refine ⟨_, [_, _, _], _, rfl, by rw [hb, hl], fun rest => ?_⟩
  have hv : (((v / 262144 % 8 + 240 - 0xF0) * 64 + v / 4096 % 64) * 64 + v / 64 % 64) * 64 + v % 64 =
      v := by omega
  dsimp only
  rw [List.cons_append, extend_succ (by split_ifs <;> omega) (by split_ifs <;> omega) (by omega),
    List.cons_append, extend_succ (by omega) (by omega) (by omega),
    List.singleton_append, extend_succ (by omega) (by omega) (by omega), extend, hv]

end

theorem opens_utf8EncodeChar (c : Char) : Opens (String.utf8EncodeChar c) c.val.toNat := by
  have hvalid : c.val.toNat < 0xD800 ∨ 0xDFFF < c.val.toNat ∧ c.val.toNat < 0x110000 := c.valid
  unfold String.utf8EncodeChar
  dsimp only
  split_ifs with h₁ h₂ h₃
  · exact opens_one h₁
  · exact opens_two (by omega) h₂
  · exact opens_three (by omega) h₃ (by omega)
  · exact opens_four (by omega) (by omega)

theorem decodeFrom_utf8EncodeChar (c : Char) (position : Nat) (done : List Char) (rest : List UInt8) :
    ∃ position', decodeFrom position done (String.utf8EncodeChar c ++ rest) =
      decodeFrom position' (c :: done) rest := by
  obtain ⟨b, bs, l, hbytes, hl, he⟩ := opens_utf8EncodeChar c
  have hc : Char.ofNat c.val.toNat = c := Char.ofNat_toNat c
  refine ⟨position + 1 + l.following, ?_⟩
  rw [hbytes, List.cons_append, decodeFrom_cons hl (he rest), hc]

theorem decodeFrom_encoded (cs : List Char) (position : Nat) (done : List Char) :
    decodeFrom position done (cs.flatMap String.utf8EncodeChar) = .ok (done.reverse ++ cs) := by
  induction cs generalizing position done with
  | nil => rw [List.flatMap_nil, decodeFrom, List.append_nil]
  | cons c cs ih =>
    obtain ⟨position', h⟩ := decodeFrom_utf8EncodeChar c position done (cs.flatMap String.utf8EncodeChar)
    rw [List.flatMap_cons, h, ih, List.reverse_cons, List.append_assoc, List.singleton_append]

/-- The bytes of a text are read as the text. -/
theorem decode_toUTF8 (text : String) : decode text.toUTF8.data.toList = .ok text.toList := by
  have hbytes : text.toUTF8.data.toList = text.toList.flatMap String.utf8EncodeChar := by
    conv_lhs => rw [← String.ofList_toList (s := text)]
    exact congrArg Array.toList List.data_toByteArray
  rw [decode, hbytes, decodeFrom_encoded]
  rfl

end Schematic.Text.Utf8
