import Mathlib.Data.List.TakeWhile
import Mathlib.Tactic.SplitIfs
import Schematic.Source.Token

/-! Words on both sides of a blank. No word goes on over a blank, so that what stands behind one is nothing
to the words before it. Main statement: a line cut at a blank has the words of its two parts. -/
namespace Schematic.Source
open Schematic.Text

section Blanks

variable {w : Char} (hw : isBlank w = true)
include hw

theorem isLabelChar_of_isBlank : isLabelChar w = false := by
  have hcode : w = '_' ↔ w.toNat = 95 := by rw [← Char.toNat_inj]; rfl
  simp only [isBlank, Bool.or_eq_true, Bool.and_eq_true, beq_iff_eq, decide_eq_true_eq] at hw
  simp only [isLabelChar, isLower, isAsciiDigit, Bool.or_eq_false_iff, Bool.and_eq_false_iff,
    decide_eq_false_iff_not, beq_eq_false_iff_ne, Ne, hcode, Char.le_def, UInt32.le_iff_toNat_le,
    Char.toNat_val]
  change ((¬97 ≤ w.toNat ∨ ¬w.toNat ≤ 122) ∧ _) ∧ _
  omega

theorem isTypeChar_of_isBlank : isTypeChar w = false := by
  have hcode : w = '/' ↔ w.toNat = 47 := by rw [← Char.toNat_inj]; rfl
  simp only [isBlank, Bool.or_eq_true, Bool.and_eq_true, beq_iff_eq, decide_eq_true_eq] at hw
  simp only [isTypeChar, isLower, isAsciiDigit, Bool.or_eq_false_iff, Bool.and_eq_false_iff,
    decide_eq_false_iff_not, beq_eq_false_iff_ne, Ne, hcode, Char.le_def, UInt32.le_iff_toNat_le,
    Char.toNat_val]
  change ((¬97 ≤ w.toNat ∨ ¬w.toNat ≤ 122) ∧ _) ∧ _
  omega

/-- Only blanks go on over a blank. -/
theorem continues_eq_false_of_isBlank {k : TokenKind} (hk : k ≠ .blank) : k.continues w = false := by
  have hlabel := isLabelChar_of_isBlank hw
  cases k with
  | blank => exact absurd rfl hk
  | identifier => exact hlabel
  | keyword => exact isTypeChar_of_isBlank hw
  | number =>
    simp only [isLabelChar, Bool.or_eq_false_iff] at hlabel
    exact hlabel.1.2
  | ender | separator | other => rfl
  | error => simp [TokenKind.continues, hw]

/-- A blank is as good as the end of the line to the kind of a word before it. -/
theorem ofStart_append (c : Char) (cs ds : List Char) :
    TokenKind.ofStart c (cs ++ w :: ds) = TokenKind.ofStart c cs := by
  have hhead : (cs ++ w :: ds).head?.any isLabelChar = cs.head?.any isLabelChar := by
    cases cs with
    | nil => exact isLabelChar_of_isBlank hw
    | cons d cs => rfl
  unfold TokenKind.ofStart
  rw [hhead]

end Blanks

theorem ofStart_ne_blank {c : Char} (h : isBlank c = false) (cs : List Char) :
    TokenKind.ofStart c cs ≠ .blank := by
  unfold TokenKind.ofStart
  rw [if_neg (by simp [h])]
  split_ifs <;> simp

theorem takeWhile_append_cons {p : Char → Bool} {w : Char} (h : p w = false) (cs ds : List Char) :
    (cs ++ w :: ds).takeWhile p = cs.takeWhile p := by
  rw [List.takeWhile_append, List.takeWhile_cons_of_neg (by simp [h]), List.append_nil]
  split_ifs with hall
  · exact ((List.takeWhile_prefix p).eq_of_length hall).symm
  · rfl

theorem dropWhile_append_cons {p : Char → Bool} {w : Char} (h : p w = false) (cs ds : List Char) :
    (cs ++ w :: ds).dropWhile p = cs.dropWhile p ++ w :: ds := by
  rw [List.dropWhile_append, List.dropWhile_cons_of_neg (by simp [h])]
  split_ifs with hnone
  · rw [List.isEmpty_iff.mp hnone, List.nil_append]
  · rfl

theorem isBlank_eq_false_of_dropWhile {cs rest : List Char} {c : Char}
    (h : cs.dropWhile isBlank = c :: rest) : isBlank c = false := by
  have hne : cs.dropWhile isBlank ≠ [] := by simp [h]
  have hhead := List.head_dropWhile_not isBlank hne
  simpa [h] using hhead

theorem word?_eq_none_iff {cs : List Char} : word? cs = none ↔ ∀ c ∈ cs, isBlank c = true := by
  rw [← List.dropWhile_eq_nil_iff]
  unfold word?
  cases cs.dropWhile isBlank <;> simp

theorem word?_gap {gap : List Char} (hgap : ∀ c ∈ gap, isBlank c = true) (cs : List Char) :
    word? (gap ++ cs) = word? cs := by
  unfold word?
  rw [List.dropWhile_append_of_pos hgap]

theorem word?_append_of_none {a : List Char} (ha : word? a = none) {w : Char} (hw : isBlank w = true)
    (b : List Char) : word? (a ++ w :: b) = word? b := by
  have hgap : ∀ c ∈ a ++ [w], isBlank c = true :=
    List.forall_mem_append.mpr ⟨word?_eq_none_iff.mp ha, List.forall_mem_singleton.mpr hw⟩
  rw [List.append_cons, word?_gap hgap]

theorem word?_append_of_some {a : List Char} {v : Word} (ha : word? a = some v) {w : Char}
    (hw : isBlank w = true) (b : List Char) :
    word? (a ++ w :: b) = some { v with rest := v.rest ++ w :: b } := by
  unfold word? at ha
  split at ha
  · cases ha
  · next c cs hdrop =>
    cases ha
    have hk := ofStart_ne_blank (isBlank_eq_false_of_dropWhile hdrop) cs
    have hgoes := continues_eq_false_of_isBlank hw hk
    unfold word?
    rw [List.dropWhile_append, hdrop, if_neg (by simp), List.cons_append]
    dsimp only
    rw [ofStart_append hw, takeWhile_append_cons hgoes, dropWhile_append_cons hgoes]

theorem tokenize_of_none {cs : List Char} (h : word? cs = none) : tokenize cs = .ok [] := by
  rw [tokenize]
  split
  · rfl
  · next h' =>
    rw [h] at h'
    cases h'

theorem tokenize_nil : tokenize [] = .ok [] := tokenize_of_none rfl

theorem tokenize_of_some {cs : List Char} {w : Word} (h : word? cs = some w) :
    tokenize cs = if w.kind = .error then .error (Cause.unrecognizedToken (String.ofList w.text))
      else (tokenize w.rest).map fun ts => ⟨w.kind, String.ofList w.text⟩ :: ts := by
  rw [tokenize]
  split
  · next h' =>
    rw [h] at h'
    cases h'
  · next w' h' =>
    rw [h] at h'
    cases h'
    split_ifs
    · rfl
    · cases tokenize w.rest <;> rfl

/-- What stands at the front decides about all words. -/
theorem tokenize_congr {cs ds : List Char} (h : word? cs = word? ds) : tokenize cs = tokenize ds := by
  cases hd : word? ds with
  | none => rw [tokenize_of_none hd, tokenize_of_none (h.trans hd)]
  | some w => rw [tokenize_of_some hd, tokenize_of_some (h.trans hd)]

/-- Blanks in front of a line are nothing to it. -/
theorem tokenize_gap {gap : List Char} (hgap : ∀ c ∈ gap, isBlank c = true) (cs : List Char) :
    tokenize (gap ++ cs) = tokenize cs := tokenize_congr (word?_gap hgap cs)

/-- The words of a line are those before a blank of it and those behind it. -/
theorem tokenize_append {w : Char} (hw : isBlank w = true) (a b : List Char) :
    tokenize (a ++ w :: b) = (do
      let ts ← tokenize a
      let us ← tokenize b
      pure (ts ++ us)) := by
  induction hn : a.length using Nat.strongRecOn generalizing a with
  | ind n ih =>
    cases ha : word? a with
    | none =>
      rw [tokenize_congr (word?_append_of_none ha hw b), tokenize_of_none ha]
      cases tokenize b <;> rfl
    | some v =>
      rw [tokenize_of_some ha, tokenize_of_some (word?_append_of_some ha hw b)]
      dsimp only
      split_ifs with he
      · rfl
      · rw [ih _ (hn ▸ length_rest_lt ha) v.rest rfl]
        cases tokenize v.rest with
        | error e => rfl
        | ok ts => cases tokenize b <;> rfl

/-- A blank at its end is nothing to a line. -/
theorem tokenize_append_blank {w : Char} (hw : isBlank w = true) (a : List Char) :
    tokenize (a ++ [w]) = tokenize a := by
  rw [tokenize_append hw, tokenize_nil]
  cases tokenize a with
  | error e => rfl
  | ok ts => exact congrArg Except.ok (List.append_nil ts)

end Schematic.Source
