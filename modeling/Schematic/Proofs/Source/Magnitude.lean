import Mathlib.Data.Nat.Digits.Defs
import Mathlib.Tactic.SplitIfs
import Schematic.Proofs.Source.Writing
import Schematic.Proofs.Text.Numeral

/-! What numbers of a line are read as. Digits count by their place, and zeros in front count for nothing, but all
of them count towards the length that a numeral may have. Main statement: a number is read as its decimal value if
that is in range, and is out of range otherwise, exactly if it is not too long; a longer one is no numeral, however
small its value. -/
namespace Schematic

namespace Text

/-- The decimal value of digits: each counts by its place from the right. -/
def decimal (ds : List Char) : Nat := Nat.ofDigits 10 (ds.reverse.map fun c => c.toNat - '0'.toNat)

theorem digitsValue_eq_decimal (ds : List Char) : digitsValue ds = decimal ds := by
  rw [digitsValue, decimal, Nat.ofDigits_eq_foldr, List.foldr_map, List.foldr_reverse]
  congr 1
  funext n c
  exact Nat.add_comm _ _

theorem decimal_zeros (n : Nat) (ds : List Char) : decimal (List.replicate n '0' ++ ds) = decimal ds := by
  rw [decimal, List.reverse_append, List.reverse_replicate, List.map_append, List.map_replicate, Nat.sub_self,
    Nat.ofDigits_append_replicate_zero, decimal]

end Text

namespace Source
open Schematic.Text

theorem exists_number_mem_tokens_iff {text : String} :
    (∃ line ts, tokens line = .ok ts ∧ ⟨.number, text⟩ ∈ ts) ↔ TokenKind.number.Matches text.toList := by
  constructor
  · rintro ⟨line, ts, hts, hmem⟩
    exact matches_of_tokens hts _ hmem
  · intro h
    have hwritable : Token.Writable ⟨.number, text⟩ := ⟨h, nofun, nofun⟩
    exact ⟨text, _, hwritable.tokenize_text, List.mem_singleton_self _⟩

/-- The decimal value of digits if it is in range, however many they are. -/
def decimalNumber (text : String) : Except Failure Int :=
  if decimal text.toList ≤ maxCoordinate then .ok (decimal text.toList)
  else .error (Cause.numberOutOfRange (decimal text.toList))

section Reading

variable {text : String} (h : TokenKind.number.Matches text.toList)
include h

theorem number_of_length_le (hlength : text.length ≤ maxDigits) : number text = decimalNumber text := by
  have hvalue := numeral?_of_digits h.2 h.1
  rw [String.ofList_toList, String.length_toList, if_pos hlength, digitsValue_eq_decimal] at hvalue
  rw [number, hvalue, decimalNumber]
  dsimp only
  by_cases hin : decimal text.toList ≤ maxCoordinate
  · rw [if_pos hin, if_neg (by omega)]
  · rw [if_neg hin, if_pos (by omega)]

theorem number_of_lt_length (hlength : maxDigits < text.length) :
    number text = .error (Cause.invalidNumber text) := by
  have hvalue := numeral?_of_digits h.2 h.1
  rw [String.ofList_toList, String.length_toList, if_neg (Nat.not_le.mpr hlength)] at hvalue
  rw [number, hvalue]

theorem number_eq_decimalNumber_iff : number text = decimalNumber text ↔ text.length ≤ maxDigits := by
  refine ⟨fun heq => ?_, number_of_length_le h⟩
  by_contra hlength
  rw [number_of_lt_length h (Nat.not_le.mp hlength), decimalNumber] at heq
  split_ifs at heq
  cases heq

end Reading

/-- The text with zeros in front. -/
def padded (n : Nat) (text : String) : String := String.ofList (List.replicate n '0') ++ text

section Padding

variable {n : Nat} {text : String}

theorem toList_padded : (padded n text).toList = List.replicate n '0' ++ text.toList := by
  rw [padded, String.toList_append, String.toList_ofList]

theorem length_padded : (padded n text).length = n + text.length := by
  rw [← String.length_toList, toList_padded, List.length_append, List.length_replicate, String.length_toList]

theorem matches_padded (h : TokenKind.number.Matches text.toList) :
    TokenKind.number.Matches (padded n text).toList := by
  rw [toList_padded]
  refine ⟨List.append_ne_nil_of_right_ne_nil _ h.1, fun c hc => ?_⟩
  rcases List.mem_append.mp hc with hc | hc
  · rw [List.eq_of_mem_replicate hc]
    rfl
  · exact h.2 c hc

theorem decimalNumber_padded : decimalNumber (padded n text) = decimalNumber text := by
  rw [decimalNumber, toList_padded, decimal_zeros, decimalNumber]

theorem number_padded (h : TokenKind.number.Matches text.toList) (hn : n + text.length ≤ maxDigits) :
    number (padded n text) = number text := by
  have hlength : (padded n text).length ≤ maxDigits := by rwa [length_padded]
  rw [number_of_length_le (matches_padded h) hlength, decimalNumber_padded,
    number_of_length_le h (Nat.le_of_add_left_le hn)]

end Padding

/-- The numbers of lines are the runs of digits. One is its decimal value if that is in range, and out of range
otherwise, exactly if it is not too long, and so far zeros in front change nothing. A longer one is no numeral. -/
theorem number_reads_decimal (text : String) :
    ((∃ line ts, tokens line = .ok ts ∧ ⟨.number, text⟩ ∈ ts) ↔ TokenKind.number.Matches text.toList) ∧
    (TokenKind.number.Matches text.toList →
      (number text = decimalNumber text ↔ text.length ≤ maxDigits) ∧
      (maxDigits < text.length → number text = .error (Cause.invalidNumber text)) ∧
      ∀ n, n + text.length ≤ maxDigits → number (padded n text) = number text) :=
  ⟨exists_number_mem_tokens_iff, fun h => ⟨number_eq_decimalNumber_iff h, number_of_lt_length h,
    fun _ hn => number_padded h hn⟩⟩

/-- A small number is read behind as many zeros as a numeral may have, and no longer behind one more. -/
theorem number_reads_decimal_seven :
    TokenKind.number.Matches "7".toList ∧ number (padded 4299 "7") = .ok 7 ∧
    decimalNumber (padded 4300 "7") = .ok 7 ∧
    number (padded 4300 "7") = .error (Cause.invalidNumber (padded 4300 "7")) ∧
    number "65536" = .error (Cause.numberOutOfRange 65536) := by
  have hseven : TokenKind.number.Matches "7".toList := ⟨by decide, List.all_eq_true.mp (by decide)⟩
  have hover : TokenKind.number.Matches "65536".toList := ⟨by decide, List.all_eq_true.mp (by decide)⟩
  have hlong : maxDigits < (padded 4300 "7").length := by
    rw [length_padded]
    decide
  obtain ⟨hread, -, hzeros⟩ := (number_reads_decimal "7").2 hseven
  obtain ⟨hread', -, -⟩ := (number_reads_decimal "65536").2 hover
  obtain ⟨-, hinvalid, -⟩ := (number_reads_decimal (padded 4300 "7")).2 (matches_padded hseven)
  refine ⟨hseven, ?_, ?_, hinvalid hlong, ?_⟩
  · rw [hzeros 4299 (by decide), hread.mpr (by decide)]
    decide
  · rw [decimalNumber_padded]
    decide
  · rw [hread'.mpr (by decide)]
    decide +kernel

end Source
end Schematic
