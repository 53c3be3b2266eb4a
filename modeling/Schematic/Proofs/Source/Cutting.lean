import Schematic.Proofs.Source.Writing

/-! Lines cut into words. A cut says what stands where in a line, without saying how it is found. Main statement:
each line has one cut, which the scan finds from left to right, and the tokens of the line are the words of the cut
if all of them are recognized. -/
namespace Schematic.Source
open Schematic.Text

/-- The kinds of words that a line gives as tokens. -/
def TokenKind.IsToken (k : TokenKind) : Prop := k ≠ .blank ∧ k ≠ .error

/-- A token of some kind is written at the front of the characters. -/
def StartsToken (cs : List Char) : Prop :=
  ∃ (k : TokenKind) (text : List Char), k.IsToken ∧ k.Matches text ∧ text <+: cs

/-- The word is one of its kind, and with the character behind it would not be. Where it is not recognized, no
token starts. -/
structure Word.Munched (w : Word) : Prop where
  ne_blank : w.kind ≠ .blank
  spelled : w.kind.Matches w.text
  longest : ∀ c ∈ w.rest.head?, ¬w.kind.Matches (w.text ++ [c])
  stray : w.kind = .error → ¬StartsToken (w.text ++ w.rest)

/-- The characters are those of the words in order, each with the text that is left behind it, and white space
around them. -/
inductive Cut : List Char → List Word → Prop
  | blanks {cs : List Char} : (∀ c ∈ cs, isBlank c = true) → Cut cs []
  | word {gap : List Char} {w : Word} {ws : List Word} : (∀ c ∈ gap, isBlank c = true) → w.Munched →
    Cut w.rest ws → Cut (gap ++ (w.text ++ w.rest)) (w :: ws)

theorem Cut.munched {cs : List Char} {ws : List Word} (h : Cut cs ws) : ∀ w ∈ ws, w.Munched := by
  induction h with
  | blanks => simp
  | word _ hw _ ih => exact List.forall_mem_cons.mpr ⟨hw, ih⟩

namespace Word

def token (w : Word) : Token := ⟨w.kind, String.ofList w.text⟩

/-- The diagnostic of a word that is not recognized. -/
def stranger (w : Word) : Failure := Cause.unrecognizedToken (String.ofList w.text)

end Word

theorem forall_mem_append_singleton {p : Char → Bool} {body : List Char}
    (h : ∀ d ∈ body, p d = true) (c : Char) : (∀ d ∈ body ++ [c], p d = true) ↔ p c = true := by
  rw [List.forall_mem_append, List.forall_mem_singleton]
  exact and_iff_right h

/-- A word goes on with a character exactly if it is of its kind with the character as well. -/
theorem TokenKind.matches_append_singleton {k : TokenKind} {text : List Char} (h : k.Matches text)
    (c : Char) : k.Matches (text ++ [c]) ↔ k.continues c = true := by
  have hne : text ++ [c] ≠ [] := List.append_ne_nil_of_right_ne_nil _ (List.cons_ne_nil c [])
  cases k with
  | blank | number =>
    exact (and_iff_right hne).trans (forall_mem_append_singleton h.2 c)
  | error =>
    have hcs : ∀ d ∈ text, (!isBlank d) = true := fun d hd => by simpa using h.2 d hd
    rw [show continues error c = !isBlank c from rfl, ← forall_mem_append_singleton hcs c]
    simp [Matches]
  | identifier =>
    obtain ⟨body, rfl, -, hbody⟩ := h
    rw [show continues identifier = isLabelChar from rfl, ← forall_mem_append_singleton hbody c]
    simp [Matches]
  | keyword =>
    obtain ⟨d, body, rfl, hd, hbody⟩ := h
    rw [show continues keyword = isTypeChar from rfl, ← forall_mem_append_singleton hbody c]
    constructor
    · rintro ⟨_, _, ⟨⟩, -, hgoes⟩
      exact hgoes
    · intro hgoes
      exact ⟨d, body ++ [c], rfl, hd, hgoes⟩
  | ender | separator =>
    rw [show text = [_] from h]
    exact iff_of_false (by rintro ⟨⟩) Bool.false_ne_true
  | other name => cases h

/-- A character that is not blank starts an unrecognized word exactly if no token starts with it. -/
theorem TokenKind.ofStart_eq_error_iff {c : Char} (hc : isBlank c = false) (cs : List Char) :
    ofStart c cs = error ↔ ¬StartsToken (c :: cs) := by
  constructor
  · rintro herror ⟨k, text, hk, hm, rest, hcs⟩
    have ht : (Token.mk k (String.ofList text)).Writable :=
      ⟨by rwa [Token.Matches, String.toList_ofList], hk.1, hk.2⟩
    obtain ⟨d, body, htext, -, -, hkind⟩ := ht.exists_cons
    rw [String.toList_ofList] at htext
    rw [htext, List.cons_append, List.cons.injEq] at hcs
    obtain ⟨rfl, rfl⟩ := hcs
    exact hk.2 ((hkind rest).symm.trans herror)
  · intro hnone
    by_contra herror
    exact hnone ⟨_, _, ⟨ofStart_ne_blank hc cs, herror⟩, matches_ofStart c cs,
      List.prefix_cons_inj c |>.mpr (List.takeWhile_prefix _)⟩

namespace Word

variable {w : Word}

theorem Munched.continues_eq_false (h : w.Munched) {c : Char} (hc : c ∈ w.rest.head?) :
    w.kind.continues c = false := by
  have hstops := h.longest c hc
  rwa [TokenKind.matches_append_singleton h.spelled, Bool.not_eq_true] at hstops

/-- A word that is recognized is one that a line can have as a token. -/
theorem Munched.writable (h : w.Munched) (he : w.kind ≠ .error) : w.token.Writable :=
  ⟨by rw [Token.Matches, token, String.toList_ofList]; exact h.spelled, h.ne_blank, he⟩

theorem Munched.word?_eq (h : w.Munched) : word? (w.text ++ w.rest) = some w := by
  by_cases he : w.kind = .error
  · obtain ⟨kind, text, rest⟩ := w
    obtain rfl : kind = .error := he
    obtain ⟨hne, hblank⟩ := h.spelled
    obtain ⟨c, body, rfl⟩ := List.exists_cons_of_ne_nil hne
    obtain ⟨hc, hbody⟩ := List.forall_mem_cons.mp hblank
    have hkind : TokenKind.ofStart c (body ++ rest) = .error :=
      (TokenKind.ofStart_eq_error_iff (by simpa using hc) _).mpr (h.stray rfl)
    have hgoes : ∀ d ∈ body, TokenKind.error.continues d = true := fun d hd => by
      simpa [TokenKind.continues] using hbody d hd
    exact word?_cons (by simpa using hc) hkind hgoes fun d hd => h.continues_eq_false hd
  · have hword := (h.writable he).word?_append fun c hc => h.continues_eq_false hc
    rwa [token, String.toList_ofList] at hword

end Word

/-- The word that the scan finds, and the white space that it goes over before. -/
theorem munched_of_word? {cs : List Char} {w : Word} (h : word? cs = some w) : w.Munched ∧
    ∃ gap, (∀ c ∈ gap, isBlank c = true) ∧ cs = gap ++ (w.text ++ w.rest) := by
  have htext := text_append_rest h
  constructor
  · unfold word? at h
    split at h
    · cases h
    · next c cs' hdrop =>
      cases h
      have hc := isBlank_eq_false_of_dropWhile hdrop
      have hspelled := TokenKind.matches_ofStart c cs'
      refine ⟨ofStart_ne_blank hc cs', hspelled, fun d hd => ?_, fun he => ?_⟩
      · have hstops := List.head?_dropWhile_not (TokenKind.ofStart c cs').continues cs'
        rw [Option.mem_def.mp hd] at hstops
        rw [TokenKind.matches_append_singleton hspelled, Bool.not_eq_true]
        exact hstops
      · rw [htext, hdrop]
        exact (TokenKind.ofStart_eq_error_iff hc cs').mp he
  · refine ⟨cs.takeWhile isBlank, fun c hc => List.mem_takeWhile_imp hc, ?_⟩
    rw [htext, List.takeWhile_append_dropWhile]

/-- All words of a line, the unrecognized ones too. -/
def words (cs : List Char) : List Word :=
  match _hw : word? cs with
  | none => []
  | some w => w :: words w.rest
termination_by cs.length
decreasing_by exact length_rest_lt _hw

theorem words_of_none {cs : List Char} (h : word? cs = none) : words cs = [] := by
  rw [words]
  split
  · rfl
  · next h' =>
    rw [h] at h'
    cases h'

theorem words_of_some {cs : List Char} {w : Word} (h : word? cs = some w) :
    words cs = w :: words w.rest := by
  rw [words]
  split
  · next h' =>
    rw [h] at h'
    cases h'
  · next h' =>
    rw [h] at h'
    cases h'
    rfl

theorem cut_words (cs : List Char) : Cut cs (words cs) := by
  fun_induction words cs with
  | case1 cs hw => exact .blanks (word?_eq_none_iff.mp hw)
  | case2 cs w hw ih =>
    obtain ⟨hmunched, gap, hgap, hcs⟩ := munched_of_word? hw
    rw [hcs]
    exact .word hgap hmunched ih

theorem length_words_le (cs : List Char) : (words cs).length ≤ cs.length := by
  fun_induction words cs with
  | case1 cs hw => exact Nat.zero_le _
  | case2 cs w hw ih =>
    have hlt := length_rest_lt hw
    rw [List.length_cons]
    omega

theorem Cut.words_eq {cs : List Char} {ws : List Word} (h : Cut cs ws) : words cs = ws := by
  induction h with
  | blanks hblank => exact words_of_none (word?_eq_none_iff.mpr hblank)
  | word hgap hmunched _ ih =>
    rw [words_of_some ((word?_gap hgap _).trans hmunched.word?_eq), ih]

theorem cut_iff {cs : List Char} {ws : List Word} : Cut cs ws ↔ words cs = ws := by
  constructor
  · exact Cut.words_eq
  · rintro rfl
    exact cut_words cs

section Tokens

variable {cs : List Char}

theorem tokenize_eq_ok_iff {ts : List Token} : tokenize cs = .ok ts ↔
    (∀ w ∈ words cs, w.kind ≠ .error) ∧ ts = (words cs).map Word.token := by
  fun_induction words cs generalizing ts with
  | case1 cs hw =>
    rw [tokenize_of_none hw]
    simp [eq_comm]
  | case2 cs w hw ih =>
    rw [tokenize_of_some hw, List.forall_mem_cons]
    constructor
    · intro h
      split_ifs at h with he
      cases hrest : tokenize w.rest with
      | error e =>
        rw [hrest] at h
        cases h
      | ok us =>
        rw [hrest] at h
        cases h
        obtain ⟨hknown, hus⟩ := ih.mp hrest
        exact ⟨⟨he, hknown⟩, congrArg (w.token :: ·) hus⟩
    · rintro ⟨⟨he, hknown⟩, rfl⟩
      rw [if_neg he, ih.mpr ⟨hknown, rfl⟩]
      rfl

/-- The first unrecognized word is the one that is reported. -/
theorem tokenize_eq_error_iff {e : Failure} : tokenize cs = .error e ↔
    ∃ before w after, words cs = before ++ w :: after ∧ (∀ v ∈ before, v.kind ≠ .error) ∧
      w.kind = .error ∧ e = w.stranger := by
  fun_induction words cs with
  | case1 cs hw =>
    rw [tokenize_of_none hw]
    simp
  | case2 cs w hw ih =>
    rw [tokenize_of_some hw]
    constructor
    · intro h
      split_ifs at h with he
      · cases h
        exact ⟨[], w, _, rfl, by simp, he, rfl⟩
      · cases hrest : tokenize w.rest with
        | ok us =>
          rw [hrest] at h
          cases h
        | error e' =>
          rw [hrest] at h
          cases h
          obtain ⟨before, v, after, hwords, hbefore, hv, rfl⟩ := ih.mp hrest
          exact ⟨w :: before, v, after, congrArg (w :: ·) hwords,
            List.forall_mem_cons.mpr ⟨he, hbefore⟩, hv, rfl⟩
    · rintro ⟨before, v, after, hwords, hbefore, hv, rfl⟩
      cases before with
      | nil =>
        obtain ⟨rfl, -⟩ := List.cons.inj hwords
        rw [if_pos hv]
        rfl
      | cons u before =>
        obtain ⟨rfl, hrest⟩ := List.cons.inj hwords
        obtain ⟨he, hbefore⟩ := List.forall_mem_cons.mp hbefore
        rw [if_neg he, ih.mpr ⟨before, v, after, hrest, hbefore, hv, rfl⟩]
        rfl

end Tokens

/-- Each step of the scan finds a word and leaves less behind it, or has come to the end. A line has one cut, and is
read as its words if all of them are recognized. Otherwise the first one that is not recognized is reported. -/
theorem tokens_cut :
    (∀ cs : List Char, match word? cs with
      | none => ∀ c ∈ cs, isBlank c = true
      | some w => w.rest.length < cs.length) ∧
    ∀ line : String, ∃ ws, (∀ vs, Cut line.toList vs ↔ vs = ws) ∧ ws.length ≤ line.length ∧
      (∀ ts, tokens line = .ok ts ↔ (∀ w ∈ ws, w.kind ≠ .error) ∧ ts = ws.map Word.token) ∧
      ∀ e, tokens line = .error e ↔ ∃ before w after, ws = before ++ w :: after ∧
        (∀ v ∈ before, v.kind ≠ .error) ∧ w.kind = .error ∧
        e = Cause.unrecognizedToken (String.ofList w.text) := by
  constructor
  · intro cs
    split
    · next hnone => exact word?_eq_none_iff.mp hnone
    · next hw => exact length_rest_lt hw
  · intro line
    refine ⟨words line.toList, fun vs => ?_, ?_, fun ts => tokenize_eq_ok_iff,
      fun e => tokenize_eq_error_iff⟩
    · exact cut_iff.trans eq_comm
    · rw [← String.length_toList]
      exact length_words_le _

/-- A numeral that a word is written to, a line separator, and a label with a capital in it. -/
def misfit : String := "12abc\u2028:'Ab . "

theorem tokens_cut_misfit :
    tokens misfit = .error (Cause.unrecognizedToken "'Ab") ∧
    ∃ before w after, Cut misfit.toList (before ++ w :: after) ∧
      (∀ v ∈ before, v.kind ≠ .error) ∧ w.text = ['\'', 'A', 'b'] := by
  have hmisfit : tokens misfit = .error (Cause.unrecognizedToken "'Ab") := by decide +kernel
  obtain ⟨ws, hcut, -, -, hreported⟩ := tokens_cut.2 misfit
  obtain ⟨before, w, after, hws, hbefore, -, he⟩ := (hreported _).mp hmisfit
  refine ⟨hmisfit, before, w, after, (hcut _).mpr hws.symm, hbefore, ?_⟩
  have htext : "'Ab" = String.ofList w.text := by
    injection he with he
    injection he with he
    injection he
  rw [← String.toList_ofList (l := w.text), ← htext]
  rfl

end Schematic.Source
