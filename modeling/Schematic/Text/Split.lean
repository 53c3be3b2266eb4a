/-! Lines of a text, and what is left of cutting a text at a separator. Main statement: joining lines gives the
text back, and cutting what lines without line feeds were joined to gives the lines back. -/
namespace Schematic.Text

theorem splitOn_cons_self (sep : Char) (cs : List Char) :
    (sep :: cs).splitOn sep = [] :: cs.splitOn sep :=
  (List.splitOn_append_cons_self [] cs).trans (by rw [List.splitOn_nil, List.singleton_append])

theorem splitOn_cons_of_ne {sep c : Char} (h : c ≠ sep) (cs : List Char) :
    ∃ p ps, cs.splitOn sep = p :: ps ∧ (c :: cs).splitOn sep = (c :: p) :: ps := by
  obtain ⟨p, ps, hsplit⟩ := List.exists_cons_of_ne_nil (List.splitOn_ne_nil sep cs)
  refine ⟨p, ps, hsplit, ?_⟩
  rw [List.splitOn_cons_eq_if_modifyHead, if_neg (by simpa using h), hsplit, List.modifyHead_cons]

/-- What is added behind, without a separator, lengthens the last part. -/
theorem exists_splitOn_append {sep : Char} {b : List Char} (hb : sep ∉ b) (a : List Char) :
    ∃ ps p, a.splitOn sep = ps ++ [p] ∧ (a ++ b).splitOn sep = ps ++ [p ++ b] := by
  induction a with
  | nil => exact ⟨[], [], rfl, List.splitOn_eq_singleton hb⟩
  | cons c a ih =>
    obtain ⟨ps, p, ha, hab⟩ := ih
    by_cases hc : c = sep
    · refine ⟨[] :: ps, p, ?_, ?_⟩
      · rw [hc, splitOn_cons_self, ha, List.cons_append]
      · rw [hc, List.cons_append, splitOn_cons_self, hab, List.cons_append]
    · obtain ⟨q, qs, ha', hca⟩ := splitOn_cons_of_ne hc a
      obtain ⟨r, rs, hab', hcab⟩ := splitOn_cons_of_ne hc (a ++ b)
      rw [ha] at ha'
      rw [hab] at hab'
      rw [List.cons_append, hca, hcab]
      cases ps with
      | nil =>
        cases ha'
        cases hab'
        exact ⟨[], c :: p, rfl, rfl⟩
      | cons p' ps =>
        obtain ⟨rfl, rfl⟩ := List.cons.inj ha'
        obtain ⟨rfl, rfl⟩ := List.cons.inj hab'
        exact ⟨(c :: p') :: ps, p, rfl, rfl⟩

/-- The parts of a text are the text without its separators. -/
theorem flatten_splitOn (sep : Char) (cs : List Char) :
    (cs.splitOn sep).flatten = cs.filter (· ≠ sep) := by
  induction cs with
  | nil => rfl
  | cons c cs ih =>
    by_cases hc : c = sep
    · subst hc
      rw [splitOn_cons_self]
      simpa using ih
    · obtain ⟨p, ps, hcs, hsplit⟩ := splitOn_cons_of_ne hc cs
      rw [hcs, List.flatten_cons] at ih
      rw [hsplit, List.flatten_cons, List.cons_append, ih, List.filter_cons_of_pos (by simpa using hc)]

theorem notMem_of_mem_splitOn {sep : Char} {cs p : List Char} (h : p ∈ cs.splitOn sep) : sep ∉ p := by
  intro hsep
  have hmem : sep ∈ (cs.splitOn sep).flatten := List.mem_flatten.mpr ⟨p, h, hsep⟩
  rw [flatten_splitOn] at hmem
  simp at hmem

/-- The lines of `s`, cut at line feeds only. -/
def lines (s : String) : List String :=
  (s.toList.splitOn '\n').map String.ofList

theorem lines_of_notMem {s : String} (h : '\n' ∉ s.toList) : lines s = [s] := by
  rw [lines, List.splitOn_eq_singleton h, List.map_singleton, String.ofList_toList]

/-- The text whose lines are `ls`. -/
def unlines (ls : List String) : String :=
  String.ofList (['\n'].intercalate (ls.map String.toList))

theorem unlines_lines (s : String) : unlines (lines s) = s := by
  simp [unlines, lines, Function.comp_def, List.intercalate_splitOn]

theorem lines_ne_nil (s : String) : lines s ≠ [] := by
  rw [lines, Ne, List.map_eq_nil_iff]
  exact List.splitOn_ne_nil '\n' s.toList

theorem newline_notMem_of_mem_lines {s line : String} (h : line ∈ lines s) : '\n' ∉ line.toList := by
  obtain ⟨p, hp, hline⟩ := List.mem_map.mp h
  rw [← hline, String.toList_ofList]
  exact notMem_of_mem_splitOn hp

/-- Lines without line feeds are got back from the text that they make. -/
theorem lines_unlines {ls : List String} (hne : ls ≠ []) (h : ∀ l ∈ ls, '\n' ∉ l.toList) :
    lines (unlines ls) = ls := by
  have hparts : ∀ p ∈ ls.map String.toList, '\n' ∉ p := List.forall_mem_map.mpr h
  rw [lines, unlines, String.toList_ofList, List.splitOn_intercalate '\n' hparts (by simpa using hne),
    List.map_map]
  simp [Function.comp_def]

/-- The part after the last `sep`, or all of `s`. -/
def afterLast (sep : Char) (s : String) : String :=
  String.ofList (s.toList.reverse.takeWhile (· ≠ sep)).reverse

end Schematic.Text
