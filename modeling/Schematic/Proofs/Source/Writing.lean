import Schematic.Proofs.Source.Separation
import Schematic.Proofs.Source.Words

/-! Lines that write words. A word stops before white space, and a separator before anything. Main statement: a
line that writes tokens one behind the other has exactly these tokens. -/
namespace Schematic.Source
open Schematic.Text

/-- White space that does not end the line. -/
def IsGap (gap : List Char) : Prop := ∀ c ∈ gap, isBlank c = true ∧ c ≠ '\n'

/-- The token is one that a line can have: an unrecognized word is none, and neither are blanks. -/
structure Token.Writable (t : Token) : Prop where
  spelled : t.Matches
  ne_blank : t.kind ≠ .blank
  ne_error : t.kind ≠ .error

/-- The characters are those of the tokens in order, with white space between them. Behind a separator there
may be none. -/
inductive Writes : List Token → List Char → Prop
  | last (t : Token) : Writes [t] t.text.toList
  | cons {t : Token} {ts : List Token} {gap cs : List Char} : IsGap gap →
    (gap = [] → t.kind = .separator) → Writes ts cs → Writes (t :: ts) (t.text.toList ++ (gap ++ cs))

theorem isGap_of_all {gap : List Char} (h : (gap.all fun c => isBlank c && c != '\n') = true) :
    IsGap gap := by
  intro c hc
  simpa using List.all_eq_true.mp h c hc

section Characters

variable {c : Char}

theorem isBlank_eq_false_of_isTypeChar (h : isTypeChar c = true) : isBlank c = false := by
  by_contra hb
  rw [isTypeChar_of_isBlank (by simpa using hb)] at h
  cases h

theorem isTypeChar_of_isAsciiDigit (h : isAsciiDigit c = true) : isTypeChar c = true := by
  simp [isTypeChar, h]

theorem ne_tick_of_isTypeChar (h : isTypeChar c = true) : c ≠ tick := by
  rintro rfl
  revert h
  decide

theorem isLower_eq_false_of_isAsciiDigit (h : isAsciiDigit c = true) : isLower c = false := by
  simp only [isAsciiDigit, Bool.and_eq_true, decide_eq_true_eq] at h
  simp only [isLower, Bool.and_eq_false_iff, decide_eq_false_iff_not, Char.le_def,
    UInt32.le_iff_toNat_le, Char.toNat_val]
  change ¬97 ≤ c.toNat ∨ _
  omega

theorem TokenKind.ofStart_of_isLower (h : isLower c = true) (cs : List Char) :
    ofStart c cs = keyword := by
  have htype := isTypeChar_of_isLower h
  unfold ofStart
  rw [if_neg (by simp [isBlank_eq_false_of_isTypeChar htype]),
    if_neg (fun htick => ne_tick_of_isTypeChar htype htick.1), if_pos h]

theorem TokenKind.ofStart_of_isAsciiDigit (h : isAsciiDigit c = true) (cs : List Char) :
    ofStart c cs = number := by
  have htype := isTypeChar_of_isAsciiDigit h
  unfold ofStart
  rw [if_neg (by simp [isBlank_eq_false_of_isTypeChar htype]),
    if_neg (fun htick => ne_tick_of_isTypeChar htype htick.1),
    if_neg (by simp [isLower_eq_false_of_isAsciiDigit h]), if_pos h]

theorem TokenKind.ofStart_tick {d : Char} (h : isLabelChar d = true) (cs : List Char) :
    ofStart tick (d :: cs) = identifier := by
  unfold ofStart
  rw [if_neg (by decide), if_pos ⟨rfl, h⟩]

end Characters

/-- The first character of a word tells its kind, and it goes as far as the characters go on with it. -/
theorem word?_cons {k : TokenKind} {c : Char} {body rest : List Char} (hc : isBlank c = false)
    (hkind : TokenKind.ofStart c (body ++ rest) = k) (hbody : ∀ d ∈ body, k.continues d = true)
    (hstop : ∀ d ∈ rest.head?, k.continues d = false) :
    word? (c :: body ++ rest) = some ⟨k, c :: body, rest⟩ := by
  have htake : rest.takeWhile k.continues = [] := by
    cases rest with
    | nil => rfl
    | cons d rest => exact List.takeWhile_cons_of_neg (by simp [hstop d rfl])
  have hdrop : rest.dropWhile k.continues = rest := by
    cases rest with
    | nil => rfl
    | cons d rest => exact List.dropWhile_cons_of_neg (by simp [hstop d rfl])
  unfold word?
  rw [List.cons_append, List.dropWhile_cons_of_neg (by simp [hc])]
  dsimp only
  rw [hkind, List.takeWhile_append_of_pos hbody, List.dropWhile_append_of_pos hbody, htake, hdrop,
    List.append_nil]

namespace Token.Writable

variable {t : Token} (ht : t.Writable)
include ht

/-- The first character of a word tells its kind, whatever stands behind it, and the others go on with it. -/
theorem exists_cons : ∃ c body, t.text.toList = c :: body ∧ isBlank c = false ∧
    (∀ d ∈ body, t.kind.continues d = true) ∧ ∀ rest, TokenKind.ofStart c (body ++ rest) = t.kind := by
  obtain ⟨kind, text⟩ := t
  obtain ⟨hm, hblank, herror⟩ := ht
  change kind.Matches text.toList at hm
  cases kind with
  | blank => exact absurd rfl hblank
  | error => exact absurd rfl herror
  | other name => cases hm
  | identifier =>
    obtain ⟨body, htext, hne, hbody⟩ := hm
    refine ⟨tick, body, htext, by decide, hbody, fun rest => ?_⟩
    obtain ⟨d, body, rfl⟩ := List.exists_cons_of_ne_nil hne
    exact TokenKind.ofStart_tick (hbody d List.mem_cons_self) _
  | keyword =>
    obtain ⟨c, body, htext, hc, hbody⟩ := hm
    exact ⟨c, body, htext, isBlank_eq_false_of_isTypeChar (isTypeChar_of_isLower hc), hbody,
      fun rest => TokenKind.ofStart_of_isLower hc _⟩
  | number =>
    obtain ⟨hne, hdigits⟩ := hm
    obtain ⟨c, body, htext⟩ := List.exists_cons_of_ne_nil hne
    rw [htext] at hdigits
    obtain ⟨hc, hbody⟩ := List.forall_mem_cons.mp hdigits
    exact ⟨c, body, htext, isBlank_eq_false_of_isTypeChar (isTypeChar_of_isAsciiDigit hc), hbody,
      fun rest => TokenKind.ofStart_of_isAsciiDigit hc _⟩
  | ender => exact ⟨'.', [], hm, by decide, by simp, fun rest => rfl⟩
  | separator => exact ⟨':', [], hm, by decide, by simp, fun rest => rfl⟩

theorem word?_append {rest : List Char} (hstop : ∀ c ∈ rest.head?, t.kind.continues c = false) :
    word? (t.text.toList ++ rest) = some ⟨t.kind, t.text.toList, rest⟩ := by
  obtain ⟨c, body, htext, hc, hbody, hkind⟩ := ht.exists_cons
  rw [htext]
  exact word?_cons hc (hkind rest) hbody hstop

theorem tokenize_append {rest : List Char} (hstop : ∀ c ∈ rest.head?, t.kind.continues c = false) :
    tokenize (t.text.toList ++ rest) = (tokenize rest).map fun ts => t :: ts := by
  rw [tokenize_of_some (ht.word?_append hstop)]
  dsimp only
  rw [if_neg ht.ne_error, String.ofList_toList]

theorem tokenize_text : tokenize t.text.toList = .ok [t] := by
  have hend : tokenize (t.text.toList ++ []) = (tokenize []).map fun ts => t :: ts :=
    ht.tokenize_append (by simp)
  rwa [List.append_nil, tokenize_nil] at hend

/-- A word goes over no white space. -/
theorem isBlank_eq_false_of_mem {c : Char} (hc : c ∈ t.text.toList) : isBlank c = false := by
  obtain ⟨d, body, htext, hd, hbody, -⟩ := ht.exists_cons
  rw [htext] at hc
  rcases List.mem_cons.mp hc with rfl | hc
  · exact hd
  · by_contra hb
    have hgoes := continues_eq_false_of_isBlank (by simpa using hb : isBlank c = true) ht.ne_blank
    rw [hbody c hc] at hgoes
    cases hgoes

end Token.Writable

section Lines

variable {ts : List Token} {cs : List Char}

theorem tokenize_of_writes (h : Writes ts cs) (hts : ∀ t ∈ ts, t.Writable) : tokenize cs = .ok ts := by
  induction h with
  | last t => exact (hts t List.mem_cons_self).tokenize_text
  | @cons t ts gap cs hgap hnone _ ih =>
    obtain ⟨ht, hts⟩ := List.forall_mem_cons.mp hts
    have hstop : ∀ c ∈ (gap ++ cs).head?, t.kind.continues c = false := by
      intro c hc
      cases gap with
      | nil =>
        rw [hnone rfl]
        rfl
      | cons w gap =>
        cases hc
        exact continues_eq_false_of_isBlank (hgap _ List.mem_cons_self).1 ht.ne_blank
    rw [ht.tokenize_append hstop, tokenize_gap fun c hc => (hgap c hc).1, ih hts]
    rfl

theorem newline_notMem_of_writes (h : Writes ts cs) (hts : ∀ t ∈ ts, t.Writable) : '\n' ∉ cs := by
  have hword : ∀ t ∈ ts, '\n' ∉ t.text.toList := by
    intro t ht hmem
    have hblank := (hts t ht).isBlank_eq_false_of_mem hmem
    revert hblank
    decide
  clear hts
  induction h with
  | last t => exact hword t List.mem_cons_self
  | cons hgap _ _ ih =>
    obtain ⟨ht, hts⟩ := List.forall_mem_cons.mp hword
    simp only [List.mem_append, not_or]
    exact ⟨ht, fun hmem => (hgap _ hmem).2 rfl, ih hts⟩

/-- Single spaces will do. -/
theorem exists_writes (hne : ts ≠ []) : ∃ cs, Writes ts cs := by
  have hspace : IsGap [' '] := isGap_of_all (by decide)
  induction ts with
  | nil => exact absurd rfl hne
  | cons t ts ih =>
    cases ts with
    | nil => exact ⟨_, .last t⟩
    | cons u ts =>
      obtain ⟨cs, hcs⟩ := ih (List.cons_ne_nil u ts)
      exact ⟨_, .cons hspace (fun h => absurd h (List.cons_ne_nil ' ' [])) hcs⟩

end Lines

end Schematic.Source
