import Mathlib.Data.List.Basic
import Schematic.Proofs.Source.Declared
import Schematic.Proofs.Source.Following
import Schematic.Proofs.Source.Separation

/-! Lines of a source, taken together. Each is read by itself, and its place is all that a component takes
from the lines around it. Main statements: a source is read exactly if each of its lines is, and a source
with further lines behind it is read as before, with further components. -/
namespace Schematic

namespace Text

theorem lines_append (a b : String) : lines (a ++ "\n" ++ b) = lines a ++ lines b := by
  have hchars : (a ++ "\n" ++ b).toList = a.toList ++ '\n' :: b.toList := by simp
  rw [lines, hchars, List.splitOn_append_cons_self, List.map_append]
  rfl

end Text

namespace Component

/-- The component, wherever it stands. -/
def unplaced : Component → Component
  | .canvas c => .canvas { c with origin := none }
  | .chip c => .chip { c with origin := none }
  | .net n => .net { n with origin := none }
  | .pin p => .pin { p with origin := none }
  | .wire w => .wire { w with origin := none }
  | .foreign s => .foreign s

@[simp] theorem unplaced_withOrigin (o : Origin) (c : Component) :
    (c.withOrigin o).unplaced = c.unplaced := by
  cases c <;> rfl

end Component

namespace Source
open Schematic.Text

/-- The line can be read. -/
def Readable (line : String) : Prop := ∃ c?, readLine line = .ok c?

/-- The component that a line declares. A line that cannot be read declares none. -/
def declared? (line : String) : Option Component := (readLine line).toOption.join

theorem declared?_of_readLine {line : String} {c? : Option Component} (h : readLine line = .ok c?) :
    declared? line = c? := by
  rw [declared?, h]
  rfl

section Numbered

variable {path : Option String} {n : Int} {line : String} {lines more : List String}
  {cs : List Component}

/-- A line without a component only counts. -/
theorem readLines_cons_eq_ok : readLines path n (line :: lines) = .ok cs ↔
    ∃ c? rest, readLine line = .ok c? ∧ readLines path (n + 1) lines = .ok rest ∧
      cs = (c?.map (Component.withOrigin ⟨n, path⟩)).toList ++ rest := by
  rw [readLines]
  cases readLine line with
  | error e => simp
  | ok c? =>
    cases c? with
    | none => simp
    | some c =>
      cases readLines path (n + 1) lines with
      | error e => simp
      | ok rest => simp [eq_comm]

/-- Lines behind others are read behind them, and only if these can be read. -/
theorem readLines_append : readLines path n (lines ++ more) = (do
    let front ← readLines path n lines
    let back ← readLines path (n + lines.length) more
    pure (front ++ back)) := by
  induction lines generalizing n with
  | nil =>
    rw [List.nil_append, List.length_nil, Int.natCast_zero, Int.add_zero]
    exact (bind_pure _).symm
  | cons line lines ih =>
    have hlength : n + ((line :: lines).length : Int) = n + 1 + (lines.length : Int) := by
      rw [List.length_cons]
      omega
    rw [List.cons_append, readLines, readLines, ih, hlength]
    cases readLine line with
    | error e => rfl
    | ok c? =>
      cases c? with
      | none => rfl
      | some c =>
        cases readLines path (n + 1) lines with
        | error e => rfl
        | ok front => cases readLines path (n + 1 + lines.length) more <;> rfl

theorem readLines_append_eq_ok : readLines path n (lines ++ more) = .ok cs ↔
    ∃ front back, readLines path n lines = .ok front ∧
      readLines path (n + lines.length) more = .ok back ∧ cs = front ++ back := by
  rw [readLines_append]
  cases readLines path n lines with
  | error e => simp [bind, Except.bind]
  | ok front =>
    cases readLines path (n + lines.length) more with
    | error e => simp [bind, Except.bind]
    | ok back => simp [bind, Except.bind, pure, Except.pure, eq_comm]

theorem exists_readLines_iff :
    (∃ cs, readLines path n lines = .ok cs) ↔ ∀ line ∈ lines, Readable line := by
  induction lines generalizing n with
  | nil => simp [readLines]
  | cons line lines ih =>
    rw [List.forall_mem_cons, ← ih (n := n + 1)]
    simp only [readLines_cons_eq_ok, Readable]
    constructor
    · rintro ⟨_, c?, rest, hline, hrest, -⟩
      exact ⟨⟨c?, hline⟩, rest, hrest⟩
    · rintro ⟨⟨c?, hline⟩, rest, hrest⟩
      exact ⟨_, c?, rest, hline, hrest, rfl⟩

/-- What a source is read as are the components that its lines declare, each with its place. -/
theorem map_unplaced_of_readLines (h : readLines path n lines = .ok cs) :
    cs.map Component.unplaced = (lines.filterMap declared?).map Component.unplaced := by
  induction lines generalizing n cs with
  | nil =>
    cases h
    rfl
  | cons line lines ih =>
    obtain ⟨c?, rest, hline, hrest, rfl⟩ := readLines_cons_eq_ok.mp h
    have hdeclared := declared?_of_readLine hline
    cases c? with
    | none =>
      rw [List.filterMap_cons_none hdeclared, ← ih hrest]
      rfl
    | some c =>
      rw [List.filterMap_cons_some hdeclared, List.map_cons, ← ih hrest,
        ← Component.unplaced_withOrigin ⟨n, path⟩ c]
      rfl

end Numbered

/-- The line has nothing but blanks. -/
def isBlankLine (line : String) : Bool := line.toList.all isBlank

theorem isBlankLine_iff_word? {line : String} :
    isBlankLine line = true ↔ word? line.toList = none := by
  rw [isBlankLine, List.all_eq_true, word?_eq_none_iff]

theorem readLine_of_isBlankLine {line : String} (h : isBlankLine line = true) :
    readLine line = .ok none := by
  rw [readLine, tokens, tokenize_of_none (isBlankLine_iff_word?.mp h)]
  rfl

/-- Only a blank line declares nothing. -/
theorem isBlankLine_of_readLine {line : String} (h : readLine line = .ok none) :
    isBlankLine line = true := by
  unfold readLine at h
  split at h
  · cases h
  · next ts hts =>
    split at h
    · cases h
    · next c? s hcomponent =>
      cases h
      have hnil : ts = [] := by
        simpa using component_ofTokens_eq_ok_iff.mp ⟨s, hcomponent⟩
      rw [isBlankLine_iff_word?]
      cases hword : word? line.toList with
      | none => rfl
      | some w =>
        rw [tokens, tokenize_of_some hword, hnil] at hts
        split_ifs at hts
        cases hrest : tokenize w.rest <;> rw [hrest] at hts <;> cases hts

/-- The lines of a text that are not blank. -/
def writtenLines (text : String) : List String := (lines text).filter fun line => !isBlankLine line

/-- Blank lines are nothing to what a text is read as. -/
theorem forall_readable_writtenLines {text : String} :
    (∀ line ∈ writtenLines text, Readable line) ↔ ∀ line ∈ lines text, Readable line := by
  constructor
  · intro h line hline
    by_cases hblank : isBlankLine line = true
    · exact ⟨none, readLine_of_isBlankLine hblank⟩
    · exact h line (List.mem_filter.mpr ⟨hline, by simpa using hblank⟩)
  · intro h line hline
    exact h line (List.mem_filter.mp hline).1

theorem filterMap_declared?_writtenLines (text : String) :
    (writtenLines text).filterMap declared? = (lines text).filterMap declared? := by
  rw [writtenLines, List.filterMap_filter]
  refine List.filterMap_congr fun line _ => ?_
  cases hblank : isBlankLine line with
  | false => rfl
  | true => exact (declared?_of_readLine (readLine_of_isBlankLine hblank)).symm

/-- The lines of a text that are not blank, each with its number. -/
def writtenAt (text : String) : List (String × Nat) :=
  ((Text.lines text).zipIdx 1).filter fun e => !isBlankLine e.1

/-- The component is the one that the line declares, in its place. -/
def StandsAt (path : Option String) (e : String × Nat) (c : Component) : Prop :=
  ∃ d, readLine e.1 = .ok (some d) ∧ c = d.withOrigin ⟨e.2, path⟩

section Placed

variable {path : Option String} {n : Nat} {lines : List String} {cs : List Component}

theorem standsAt_of_readLines (h : readLines path n lines = .ok cs) :
    List.Forall₂ (StandsAt path) ((lines.zipIdx n).filter fun e => !isBlankLine e.1) cs := by
  induction lines generalizing n cs with
  | nil =>
    cases h
    exact .nil
  | cons line lines ih =>
    obtain ⟨c?, rest, hline, hrest, rfl⟩ := readLines_cons_eq_ok.mp h
    have hlines := ih (n := n + 1) hrest
    rw [List.zipIdx_cons]
    cases c? with
    | none =>
      rw [List.filter_cons_of_neg (by simp [isBlankLine_of_readLine hline])]
      exact hlines
    | some c =>
      have hwritten : isBlankLine line = false := by
        by_contra hblank
        rw [readLine_of_isBlankLine (by simpa using hblank)] at hline
        cases hline
      rw [List.filter_cons_of_pos (by simp [hwritten])]
      exact .cons ⟨c, hline, rfl⟩ hlines

/-- Lines are numbered in order. -/
theorem pairwise_writtenAt (text : String) : (writtenAt text).Pairwise fun d e => d.2 < e.2 := by
  refine List.Pairwise.filter _ (List.pairwise_map.mp ?_)
  rw [List.zipIdx_map_snd]
  exact List.pairwise_lt_range'

end Placed

end Source
end Schematic
