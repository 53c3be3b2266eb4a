import Mathlib.Tactic.SplitIfs
import Schematic.Files.Tree

/-! Reading at paths. Main statement: a path is refused for a null character exactly if the text that it
was made from holds one, whatever files there are. -/
namespace Schematic

namespace Files
open Schematic.Text

/-- Empty components and dots are all that a path leaves out. -/
theorem Path.hasNull_ofText {s : String} : (Path.ofText s).hasNull = true ↔ '\x00' ∈ s.toList := by
  have hparts : '\x00' ∈ s.toList ↔ ∃ p ∈ s.toList.splitOn '/', '\x00' ∈ p := by
    rw [← List.mem_flatten, flatten_splitOn]
    simp
  rw [hparts]
  simp only [hasNull, ofText, List.any_map, List.any_eq_true, List.mem_filter, Function.comp_apply,
    String.toList_ofList, List.contains_iff_mem, decide_eq_true_eq]
  constructor
  · rintro ⟨p, ⟨hp, -⟩, hnull⟩
    exact ⟨p, hp, hnull⟩
  · rintro ⟨p, hp, hnull⟩
    refine ⟨p, ⟨hp, ?_, ?_⟩, hnull⟩
    · rintro rfl
      cases hnull
    · rintro rfl
      simp at hnull

namespace Tree

theorem walk_ne_nullInPath (above : List Tree) (here : Tree) (parts : List String) :
    walk above here parts ≠ .error .nullInPath := by
  induction parts generalizing above here with
  | nil => simp [walk]
  | cons part rest ih =>
    unfold walk
    split
    · simp
    · split_ifs
      · split
        · exact ih _ _
        · exact ih _ _
      · simp
      · split
        · simp
        · exact ih _ _

theorem locate_eq_nullInPath_iff {root : Tree} {path : Path} :
    root.locate path = .error .nullInPath ↔ path.hasNull = true := by
  unfold locate
  split_ifs with hnull hlong
  · exact iff_of_true rfl hnull
  · exact iff_of_false (by simp) hnull
  · exact iff_of_false (walk_ne_nullInPath _ _ _) hnull

theorem readText_eq_nullInPath_iff {root : Tree} {path : Path} :
    root.readText path = .error (.access .nullInPath) ↔ path.hasNull = true := by
  have hlocate := @locate_eq_nullInPath_iff root path
  rw [← hlocate]
  unfold readText bytes
  cases root.locate path with
  | error e => simp
  | ok t =>
    cases t with
    | dir es => simp
    | file bs =>
      dsimp only
      cases Utf8.decode bs <;> simp

end Tree
end Files
end Schematic
