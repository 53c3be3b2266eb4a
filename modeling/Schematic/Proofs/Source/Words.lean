import Mathlib.Data.List.TakeWhile
import Mathlib.Tactic.SplitIfs
import Schematic.Source.Token

/-! Texts of words. Main statement: each word of a line is written as words of its kind are. -/
namespace Schematic.Source
open Schematic.Text

/-- The texts that words of a kind have. -/
def TokenKind.Matches : TokenKind → List Char → Prop
  | blank, cs => cs ≠ [] ∧ ∀ c ∈ cs, isBlank c
  | identifier, cs => ∃ body, cs = tick :: body ∧ body ≠ [] ∧ ∀ c ∈ body, isLabelChar c
  | keyword, cs => ∃ c body, cs = c :: body ∧ isLower c ∧ ∀ d ∈ body, isTypeChar d
  | number, cs => cs ≠ [] ∧ ∀ c ∈ cs, isAsciiDigit c
  | ender, cs => cs = ['.']
  | separator, cs => cs = [':']
  | error, cs => cs ≠ [] ∧ ∀ c ∈ cs, ¬isBlank c
  | other _, _ => False

theorem isTypeChar_of_isLower {c : Char} (h : isLower c = true) : isTypeChar c = true := by
  simp [isTypeChar, h]

/-- A keyword has type characters only. -/
theorem TokenKind.isTypeChar_of_matches {cs : List Char} (h : keyword.Matches cs) :
    ∀ c ∈ cs, isTypeChar c = true := by
  obtain ⟨first, body, hcs, hfirst, hbody⟩ := h
  rw [hcs]
  exact List.forall_mem_cons.mpr ⟨isTypeChar_of_isLower hfirst, hbody⟩

theorem takeWhile_ne_nil_of_head? {p : Char → Bool} {cs : List Char} (h : cs.head?.any p) :
    cs.takeWhile p ≠ [] := by
  cases cs with
  | nil => cases h
  | cons c cs =>
    have hc : p c = true := h
    simp [hc]

theorem TokenKind.matches_ofStart (c : Char) (cs : List Char) :
    (ofStart c cs).Matches (c :: cs.takeWhile (ofStart c cs).continues) := by
  have htake : ∀ d ∈ cs.takeWhile (ofStart c cs).continues, (ofStart c cs).continues d :=
    fun d hd => List.mem_takeWhile_imp hd
  unfold ofStart at htake ⊢
  split_ifs at htake ⊢ with hb hi hl hd he hs
  · exact ⟨List.cons_ne_nil _ _, List.forall_mem_cons.mpr ⟨hb, htake⟩⟩
  · rw [hi.1]
    exact ⟨_, rfl, takeWhile_ne_nil_of_head? hi.2, htake⟩
  · exact ⟨c, _, rfl, hl, htake⟩
  · exact ⟨List.cons_ne_nil _ _, List.forall_mem_cons.mpr ⟨hd, htake⟩⟩
  · rw [he]
    cases cs <;> rfl
  · rw [hs]
    cases cs <;> rfl
  · refine ⟨List.cons_ne_nil _ _, List.forall_mem_cons.mpr ⟨hb, ?_⟩⟩
    intro d hd'
    simpa [TokenKind.continues] using htake d hd'

theorem matches_of_word? {cs : List Char} {w : Word} (h : word? cs = some w) :
    w.kind.Matches w.text := by
  unfold word? at h
  split at h
  · cases h
  · cases h
    exact TokenKind.matches_ofStart _ _

/-- The token is written as words of its kind are. -/
def Token.Matches (t : Token) : Prop := t.kind.Matches t.text.toList

theorem matches_of_tokenize {cs : List Char} {ts : List Token} (h : tokenize cs = .ok ts) :
    ∀ t ∈ ts, t.Matches := by
  induction hn : cs.length using Nat.strongRecOn generalizing cs ts with
  | ind n ih =>
    rw [tokenize] at h
    split at h
    · cases h
      simp
    · next w hw =>
      split_ifs at h with he
      split at h
      · cases h
      · next us hus =>
        cases h
        refine List.forall_mem_cons.mpr ⟨?_, ih _ ?_ hus rfl⟩
        · rw [Token.Matches, String.toList_ofList]
          exact matches_of_word? hw
        · exact hn ▸ length_rest_lt hw

theorem matches_of_tokens {line : String} {ts : List Token} (h : tokens line = .ok ts) :
    ∀ t ∈ ts, t.Matches := matches_of_tokenize h

end Schematic.Source
