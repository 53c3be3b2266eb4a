import Mathlib.Data.List.TakeWhile
import Mathlib.Tactic.SplitIfs
import Schematic.Source.Number

/-! Runs of digits as numerals. Nothing is stripped from them and nothing cuts them, so that only their length
decides whether they are read. Main statement: a number in range is read from its decimal digits. -/
namespace Schematic

namespace Text

section Digits

variable {c : Char} {ds : List Char}

theorem plain_of_isAsciiDigit (h : isAsciiDigit c = true) : plain c = c := by
  simp only [isAsciiDigit, Bool.and_eq_true, decide_eq_true_eq] at h
  exact if_pos (by omega)

theorem isAsciiBlank_eq_false_of_isAsciiDigit (h : isAsciiDigit c = true) : isAsciiBlank c = false := by
  simp only [isAsciiDigit, Bool.and_eq_true, decide_eq_true_eq] at h
  simp only [isAsciiBlank, Bool.or_eq_false_iff, Bool.and_eq_false_iff, beq_eq_false_iff_ne,
    decide_eq_false_iff_not]
  omega

theorem ne_of_isAsciiDigit (h : isAsciiDigit c = true) {d : Char} (hd : isAsciiDigit d = false) :
    c ≠ d := by
  rintro rfl
  rw [h] at hd
  cases hd

variable (hd : ∀ c ∈ ds, isAsciiDigit c = true)
include hd

theorem dropWhile_isAsciiBlank_of_digits : ds.dropWhile isAsciiBlank = ds := by
  refine List.dropWhile_eq_self_iff.mpr fun hlength => ?_
  simp [isAsciiBlank_eq_false_of_isAsciiDigit (hd _ (List.getElem_mem hlength))]

theorem strip_of_digits : strip ds = ds := by
  have hreverse : ∀ c ∈ ds.reverse, isAsciiDigit c = true := fun c hc =>
    hd c (List.mem_reverse.mp hc)
  rw [strip, dropWhile_isAsciiBlank_of_digits hd, dropWhile_isAsciiBlank_of_digits hreverse,
    List.reverse_reverse]

theorem digits?_of_digits (hne : ds ≠ []) : digits? ds = some ds := by
  have hwhole : ds.splitOn '_' = [ds] :=
    List.splitOn_eq_singleton fun hmem => ne_of_isAsciiDigit (hd _ hmem) (by decide) rfl
  have hall : ([ds].all fun g => !g.isEmpty && g.all isAsciiDigit) = true := by
    simpa [hne] using hd
  rw [digits?, hwhole, if_pos hall, List.flatten_singleton]

/-- A run of digits is a numeral if it is not too long. -/
theorem numeral?_of_digits (hne : ds ≠ []) : numeral? (String.ofList ds) =
    if ds.length ≤ maxDigits then some (digitsValue ds : Int) else none := by
  have hplain : ds.map plain = ds := by
    refine (List.map_congr_left fun c hc => plain_of_isAsciiDigit (hd c hc)).trans ?_
    exact List.map_id' ds
  have hmagnitude : (magnitude? ds).map Int.ofNat =
      if ds.length ≤ maxDigits then some (digitsValue ds : Int) else none := by
    rw [magnitude?, digits?_of_digits hd hne]
    dsimp only
    split_ifs <;> rfl
  unfold numeral?
  rw [String.toList_ofList, hplain, strip_of_digits hd]
  -- The first character is a digit, and so no sign.
  split
  · exact absurd rfl (ne_of_isAsciiDigit (hd '-' List.mem_cons_self) (by decide))
  · exact absurd rfl (ne_of_isAsciiDigit (hd '+' List.mem_cons_self) (by decide))
  · exact hmagnitude

end Digits

theorem isAsciiDigit_of_mem_toDigits {n : Nat} {c : Char} (h : c ∈ Nat.toDigits 10 n) :
    isAsciiDigit c = true := by
  have hdigit := Nat.isDigit_of_mem_toDigits (by decide) (by decide) h
  simp only [Char.isDigit, Bool.and_eq_true, decide_eq_true_eq] at hdigit
  simp only [isAsciiDigit, Bool.and_eq_true, decide_eq_true_eq]
  exact hdigit

theorem toList_toString_natCast (n : Nat) : (toString (n : Int)).toList = Nat.toDigits 10 n :=
  Nat.toList_repr

theorem digitsValue_toDigits (n : Nat) : digitsValue (Nat.toDigits 10 n) = n :=
  Nat.ofDigitChars_toDigits (by decide) (by decide)

end Text

namespace Source

/-- A number in range is read from its decimal digits. -/
theorem number_toString {n : Int} (hn : 0 ≤ n) (hmax : n ≤ maxCoordinate) :
    number (toString n) = .ok n := by
  obtain ⟨m, rfl⟩ := Int.eq_ofNat_of_zero_le hn
  have hfew : (Nat.toDigits 10 m).length ≤ 5 := by
    refine (Nat.length_toDigits_le_iff (by decide) (by decide)).mpr ?_
    unfold maxCoordinate at hmax
    omega
  have hlength : (Nat.toDigits 10 m).length ≤ Text.maxDigits :=
    Nat.le_trans hfew (by decide)
  have hvalue := Text.numeral?_of_digits
    (fun c hc => Text.isAsciiDigit_of_mem_toDigits hc) (Nat.toDigits_ne_nil (n := m) (b := 10))
  rw [if_pos hlength, Text.digitsValue_toDigits] at hvalue
  have htext : toString (m : Int) = String.ofList (Nat.toDigits 10 m) := by
    rw [← Text.toList_toString_natCast, String.ofList_toList]
  have hrange : ¬((m : Int) < 0 ∨ (maxCoordinate : Int) < m) := by omega
  rw [number, htext, hvalue]
  exact if_neg hrange

end Source
end Schematic
