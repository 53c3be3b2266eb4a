import Schematic.Proofs.Source.Cutting
import Schematic.Source.Document

/-! Lines with other white space. Main statement: white space parts a line into two that are read by themselves, and
is itself nothing to what is read, so that the tokens of a line can be spaced in any way. -/
namespace Schematic.Source
open Schematic.Text

/-- White space that parts what stands around it. -/
def IsBreak (gap : List Char) : Prop := gap ≠ [] ∧ ∀ c ∈ gap, isBlank c = true

/-- The characters are those of the tokens in order, with white space between every two of them. -/
inductive Spaced : List Token → List Char → Prop
  | nil : Spaced [] []
  | single (t : Token) : Spaced [t] t.text.toList
  | cons {t u : Token} {ts : List Token} {gap cs : List Char} : IsBreak gap → Spaced (u :: ts) cs →
    Spaced (t :: u :: ts) (t.text.toList ++ (gap ++ cs))

theorem tokenize_append_break {gap : List Char} (h : IsBreak gap) (a b : List Char) :
    tokenize (a ++ (gap ++ b)) = (do
      let ts ← tokenize a
      let us ← tokenize b
      pure (ts ++ us)) := by
  obtain ⟨hne, hblank⟩ := h
  obtain ⟨w, gap, rfl⟩ := List.exists_cons_of_ne_nil hne
  obtain ⟨hw, hgap⟩ := List.forall_mem_cons.mp hblank
  rw [List.cons_append, tokenize_append hw, tokenize_gap hgap]

/-- White space keeps the words of a line apart from those that are written behind it. -/
theorem tokens_append_break {w : String} (hw : IsBreak w.toList) (a b : String) :
    tokens (a ++ w ++ b) = (do
      let ts ← tokens a
      let us ← tokens b
      pure (ts ++ us)) := by
  rw [tokens, String.toList_append, String.toList_append, List.append_assoc]
  exact tokenize_append_break hw a.toList b.toList

section Tokens

variable {cs : List Char} {ts : List Token}

theorem writable_of_tokenize (h : tokenize cs = .ok ts) : ∀ t ∈ ts, t.Writable := by
  obtain ⟨hknown, rfl⟩ := tokenize_eq_ok_iff.mp h
  intro t ht
  obtain ⟨w, hw, rfl⟩ := List.mem_map.mp ht
  exact ((cut_words cs).munched w hw).writable (hknown w hw)

theorem tokenize_of_spaced (h : Spaced ts cs) (hts : ∀ t ∈ ts, t.Writable) : tokenize cs = .ok ts := by
  induction h with
  | nil => exact tokenize_nil
  | single t => exact (hts t List.mem_cons_self).tokenize_text
  | cons hgap _ ih =>
    obtain ⟨ht, hts⟩ := List.forall_mem_cons.mp hts
    rw [tokenize_append_break hgap, ht.tokenize_text, ih hts]
    rfl

theorem spaced_intercalate {gap : List Char} (h : IsBreak gap) (ts : List Token) :
    Spaced ts (gap.intercalate (ts.map fun t => t.text.toList)) := by
  induction ts with
  | nil => exact .nil
  | cons t ts ih =>
    cases ts with
    | nil =>
      rw [List.map_singleton, List.intercalate_singleton]
      exact .single t
    | cons u ts =>
      rw [List.map_cons, List.map_cons, List.intercalate_cons_cons, List.append_assoc]
      exact .cons h ih

end Tokens

theorem readLine_congr {line line' : String} (h : tokens line = tokens line') :
    readLine line = readLine line' := by
  rw [readLine, readLine, h]

/-- A line that is parted by white space has the tokens of its parts, and the first of the parts that cannot be read
is the one that fails. The tokens of a line can be spaced in any way: they are read again, and declare the same
component. -/
theorem tokens_across_breaks :
    (∀ a w b : String, IsBreak w.toList → tokens (a ++ w ++ b) = (do
      let ts ← tokens a
      let us ← tokens b
      pure (ts ++ us))) ∧
    ∀ (line : String) (ts : List Token), tokens line = .ok ts →
      (∀ s : String, Spaced ts s.toList → tokens s = .ok ts ∧ readLine s = readLine line) ∧
      ∀ w : String, IsBreak w.toList → Spaced ts (w.intercalate (ts.map Token.text)).toList := by
  constructor
  · exact fun a w b hw => tokens_append_break hw a b
  · intro line ts h
    refine ⟨fun s hs => ?_, fun w hw => ?_⟩
    · have hsame : tokens s = .ok ts := tokenize_of_spaced hs (writable_of_tokenize h)
      exact ⟨hsame, readLine_congr (hsame.trans h.symm)⟩
    · rw [String.toList_intercalate, List.map_map]
      exact spaced_intercalate hw ts

/-- A line that spaces only what would run together otherwise. -/
def dense : String := ":pin label'a num 12"

theorem tokens_across_breaks_dense :
    IsBreak "\u2003\n".toList ∧
    tokens (dense ++ "\u2003\n" ++ "y.Z") = .error (Cause.unrecognizedToken "Z") ∧
    tokens ":\u2003\npin\u2003\nlabel\u2003\n'a\u2003\nnum\u2003\n12" = tokens dense ∧
    readLine ":\u2003\npin\u2003\nlabel\u2003\n'a\u2003\nnum\u2003\n12" =
      .ok (some (.pin { label := "a", number := some 12 })) := by
  have hbreak : IsBreak "\u2003\n".toList := ⟨by decide, List.all_eq_true.mp (by decide)⟩
  have hdense : tokens dense = .ok [⟨.separator, ":"⟩, ⟨.keyword, "pin"⟩, ⟨.keyword, "label"⟩,
      ⟨.identifier, "'a"⟩, ⟨.keyword, "num"⟩, ⟨.number, "12"⟩] := by decide +kernel
  have hstray : tokens "y.Z" = .error (Cause.unrecognizedToken "Z") := by decide +kernel
  have hpin : readLine dense = .ok (some (.pin { label := "a", number := some 12 })) := by
    decide +kernel
  obtain ⟨hpart, hspace⟩ := tokens_across_breaks
  obtain ⟨hread, hjoin⟩ := hspace dense _ hdense
  obtain ⟨htokens, hline⟩ := hread _ (hjoin _ hbreak)
  refine ⟨hbreak, ?_, htokens.trans hdense.symm, hline.trans hpin⟩
  rw [hpart _ _ _ hbreak, hdense, hstray]
  rfl

end Schematic.Source
