import Schematic.Proofs.Files.Reading
import Schematic.Proofs.Source.Lines
import Schematic.Proofs.Text.Newline
import Schematic.Proofs.Text.Utf8

/-! Sources in files. A carriage return ends a line of a file, but is a blank of a text as any other. Main
statement: a file is read as the text that it encodes, apart from the path, if nothing is written behind a
carriage return that no line feed follows; and only then if the text can be read at all. -/
namespace Schematic
open Schematic.Files Schematic.Text

/-- The component, in the file that it comes from. -/
def Component.inFile (path : String) (c : Component) : Component :=
  match c.origin? with
  | some o => c.withOrigin { o with path := some path }
  | none => c

theorem Component.origin?_inFile {c : Component} {o : Origin} (h : c.origin? = some o) (path : String) :
    (c.inFile path).origin? = some { o with path := some path } := by
  rw [inFile, h]
  cases c with
  | foreign text => cases h
  | canvas | chip | net | pin | wire => rfl

theorem Component.inFile_withOrigin (path : String) (n : Int) (c : Component) :
    (c.withOrigin ⟨n, none⟩).inFile path = c.withOrigin ⟨n, some path⟩ := by
  cases c <;> rfl

namespace Source

/-- The path is nothing to how lines are read. -/
theorem readLines_inFile (path : String) (n : Int) (lines : List String) :
    readLines (some path) n lines =
      (readLines none n lines).map (List.map (Component.inFile path)) := by
  induction lines generalizing n with
  | nil => rfl
  | cons line lines ih =>
    rw [readLines, readLines]
    cases readLine line with
    | error e => rfl
    | ok c? =>
      cases c? with
      | none => exact ih (n + 1)
      | some c =>
        dsimp only
        rw [ih]
        cases readLines none (n + 1) lines with
        | error e => rfl
        | ok cs =>
          change Except.ok _ = Except.ok _
          rw [List.map_cons, Component.inFile_withOrigin]

theorem tokenize_append_of_blank {w : List Char} (hw : ∀ c ∈ w, isBlank c = true) (a : List Char) :
    tokenize (a ++ w) = tokenize a := by
  induction w generalizing a with
  | nil => rw [List.append_nil]
  | cons c w ih =>
    obtain ⟨hc, hw⟩ := List.forall_mem_cons.mp hw
    rw [List.append_cons, ih hw, tokenize_append_blank hc]

/-- Blanks at its end are nothing to a line. -/
theorem readLine_append_of_blank {w : List Char} (hw : ∀ c ∈ w, isBlank c = true) (a : List Char) :
    readLine (String.ofList (a ++ w)) = readLine (String.ofList a) := by
  have htokens : tokens (String.ofList (a ++ w)) = tokens (String.ofList a) := by
    rw [tokens, tokens, String.toList_ofList, String.toList_ofList, tokenize_append_of_blank hw]
  rw [readLine, readLine, htokens]

/-- The lists of lines are read alike, wherever they stand. -/
def ReadAlike (ls ms : List (List Char)) : Prop :=
  ∀ path n, readLines path n (ls.map String.ofList) = readLines path n (ms.map String.ofList)

theorem ReadAlike.cons {l m : List Char} {ls ms : List (List Char)}
    (hline : readLine (String.ofList l) = readLine (String.ofList m)) (hlines : ReadAlike ls ms) :
    ReadAlike (l :: ls) (m :: ms) := by
  intro path n
  rw [List.map_cons, List.map_cons, readLines, readLines, hline, hlines path (n + 1)]

theorem blank_of_mem_splitOn {cs : List Char} (h : ∀ c ∈ cs, isBlank c = true) :
    ∀ l ∈ cs.splitOn '\n', ∀ c ∈ l, isBlank c = true := by
  intro l hl c hc
  have hmem : c ∈ (cs.splitOn '\n').flatten := List.mem_flatten.mpr ⟨l, hl, hc⟩
  rw [flatten_splitOn] at hmem
  exact h c (List.mem_filter.mp hmem).1

theorem readLines_of_blank {ls : List (List Char)} (h : ∀ l ∈ ls, ∀ c ∈ l, isBlank c = true)
    (path : Option String) (n : Int) : readLines path n (ls.map String.ofList) = .ok [] := by
  induction ls generalizing n with
  | nil => rfl
  | cons l ls ih =>
    obtain ⟨hl, hls⟩ := List.forall_mem_cons.mp h
    have hblank : isBlankLine (String.ofList l) = true := by
      rw [isBlankLine, String.toList_ofList, List.all_eq_true]
      exact hl
    rw [List.map_cons, readLines, readLine_of_isBlankLine hblank]
    exact ih hls (n + 1)

/-- The first line of a file may lack blanks at the end of that of its text, and the lines behind them are
read alike. -/
theorem exists_splitOn_unifyNewlines {cs : List Char} (h : ReturnsSettled cs) :
    ∃ l w ls ms, cs.splitOn '\n' = (l ++ w) :: ls ∧ (unifyNewlines cs).splitOn '\n' = l :: ms ∧
      (∀ c ∈ w, isBlank c = true) ∧ ReadAlike ls ms := by
  induction cs with
  | nil => exact ⟨[], [], [], [], rfl, rfl, by simp, fun _ _ => rfl⟩
  | cons c cs ih =>
    obtain ⟨hreturn, hcs⟩ := h
    obtain ⟨l, w, ls, ms, htext, hfile, hw, halike⟩ := ih hcs
    by_cases hfeed : c = '\n'
    · have hunify := unifyNewlines_cons_of_ne (show '\n' ≠ '\r' by decide) cs
      subst hfeed
      rw [splitOn_cons_self, hunify, splitOn_cons_self, htext, hfile]
      exact ⟨[], [], _, _, rfl, rfl, by simp, halike.cons (readLine_append_of_blank hw l)⟩
    · obtain ⟨p, ps, hcs', hsplit⟩ := splitOn_cons_of_ne hfeed cs
      obtain ⟨rfl, rfl⟩ := List.cons.inj (hcs'.symm.trans htext)
      rw [hsplit]
      by_cases hc : c = '\r'
      · subst hc
        by_cases hn : cs.head? = some '\n'
        · -- The line feed ends the line right behind the carriage return.
          have hnil : l ++ w = [] := by
            cases cs with
            | nil => cases hn
            | cons d cs =>
              rw [Option.some.inj hn, splitOn_cons_self] at htext
              exact (List.cons.inj htext).1.symm
          obtain ⟨rfl, rfl⟩ := List.append_eq_nil_iff.mp hnil
          rw [unifyNewlines_return hn, hfile]
          have hone : ∀ c ∈ ['\r'], isBlank c = true := List.forall_mem_cons.mpr ⟨rfl, by simp⟩
          exact ⟨[], ['\r'], _, _, rfl, rfl, hone, halike⟩
        · have hblank := List.all_eq_true.mp ((hreturn rfl).resolve_left hn)
          have hunified := blank_unifyNewlines hblank
          have hlines := blank_of_mem_splitOn hblank
          rw [htext] at hlines
          obtain ⟨hfirst, hrest⟩ := List.forall_mem_cons.mp hlines
          rw [unifyNewlines_lone_return hn, splitOn_cons_self]
          refine ⟨[], '\r' :: (l ++ w), _, _, rfl, rfl, List.forall_mem_cons.mpr ⟨rfl, hfirst⟩, ?_⟩
          intro path n
          rw [readLines_of_blank hrest, readLines_of_blank (blank_of_mem_splitOn hunified)]
      · have hunify : (unifyNewlines (c :: cs)).splitOn '\n' = (c :: l) :: ms := by
          obtain ⟨q, qs, hq, hcons⟩ := splitOn_cons_of_ne hfeed (unifyNewlines cs)
          obtain ⟨rfl, rfl⟩ := List.cons.inj (hq.symm.trans hfile)
          rw [unifyNewlines_cons_of_ne hc, hcons]
        exact ⟨c :: l, w, _, _, rfl, hunify, hw, halike⟩

section Last

variable {path : Option String} {n : Int} {c : Char} {a b : List Char} {cs : List Component}

/-- The last component stands on the line of the last written character. `u` is what the line has before
the characters `p`. -/
theorem exists_getLast?_of_splitOn (hc : isBlank c = false) (hb : ∀ d ∈ b, isBlank d = true)
    {u p : List Char} {ps : List (List Char)} (hsplit : (a ++ c :: b).splitOn '\n' = p :: ps)
    (h : readLines path n (((u ++ p) :: ps).map String.ofList) = .ok cs) :
    ∃ x, cs.getLast? = some x ∧ x.origin? = some ⟨n + a.count '\n', path⟩ := by
  induction a generalizing n u p ps cs with
  | nil =>
    have hfeed : c ≠ '\n' := by
      rintro rfl
      cases hc
    obtain ⟨q, qs, hq, hcons⟩ := splitOn_cons_of_ne hfeed b
    obtain ⟨rfl, rfl⟩ := List.cons.inj (hsplit.symm.trans hcons)
    have hlines := blank_of_mem_splitOn hb
    rw [hq] at hlines
    obtain ⟨-, hrest⟩ := List.forall_mem_cons.mp hlines
    rw [List.map_cons, readLines_cons_eq_ok] at h
    obtain ⟨c?, rest, hline, hbehind, rfl⟩ := h
    rw [readLines_of_blank hrest, Except.ok.injEq] at hbehind
    subst hbehind
    cases c? with
    | none =>
      have hblank := isBlankLine_of_readLine hline
      rw [isBlankLine, String.toList_ofList, List.all_eq_true] at hblank
      rw [hblank c (by simp)] at hc
      cases hc
    | some x =>
      have horigin := origin?_withOrigin (declared_of_readLine hline) ⟨n, path⟩
      exact ⟨_, rfl, by simpa using horigin⟩
  | cons d a ih =>
    by_cases hd : d = '\n'
    · subst hd
      rw [List.cons_append, splitOn_cons_self] at hsplit
      obtain ⟨rfl, rfl⟩ := List.cons.inj hsplit
      rw [List.map_cons, readLines_cons_eq_ok] at h
      obtain ⟨c?, rest, -, hrest, rfl⟩ := h
      cases hps : (a ++ c :: b).splitOn '\n' with
      | nil => exact absurd hps (List.splitOn_ne_nil _ _)
      | cons q qs =>
        rw [hps] at hrest
        obtain ⟨x, hx, horigin⟩ := ih (u := []) hps hrest
        refine ⟨x, by rw [List.getLast?_append, hx, Option.some_or], ?_⟩
        rw [horigin, List.count_cons_self]
        simp only [Option.some.injEq, Origin.mk.injEq, and_true]
        omega
    · obtain ⟨q, qs, hq, hcons⟩ := splitOn_cons_of_ne hd (a ++ c :: b)
      obtain ⟨rfl, rfl⟩ := List.cons.inj (hsplit.symm.trans hcons)
      rw [List.append_cons] at h
      rw [List.count_cons_of_ne hd]
      exact ih hq h

/-- The number of the line that the last component of a text stands on counts the line feeds before the
last written character. -/
theorem exists_getLast?_of_readText {text : String} (htext : text.toList = a ++ c :: b)
    (hc : isBlank c = false) (hb : ∀ d ∈ b, isBlank d = true) (h : readText path text = .ok cs) :
    ∃ x, cs.getLast? = some x ∧ x.origin? = some ⟨1 + a.count '\n', path⟩ := by
  unfold readText lines at h
  rw [htext] at h
  cases hsplit : (a ++ c :: b).splitOn '\n' with
  | nil => exact absurd hsplit (List.splitOn_ne_nil _ _)
  | cons p ps =>
    rw [hsplit] at h
    exact exists_getLast?_of_splitOn (u := []) hc hb hsplit h

end Last

/-- The text of a file that encodes `text`. -/
def unified (text : String) : String := String.ofList (unifyNewlines text.toList)

theorem readText_unified {text : String} (h : ReturnsSettled text.toList) (path : Option String) :
    readText path (unified text) = readText path text := by
  obtain ⟨l, w, ls, ms, htext, hfile, hw, halike⟩ := exists_splitOn_unifyNewlines h
  have hlike := halike.cons (readLine_append_of_blank hw l)
  unfold readText lines unified
  rw [String.toList_ofList, htext, hfile]
  exact (hlike path 1).symm

theorem returnsSettled_of_readText {text path : String} {cs : List Component}
    (htext : readText none text = .ok cs)
    (hfile : readText (some path) (unified text) = .ok (cs.map (Component.inFile path))) :
    ReturnsSettled text.toList := by
  obtain hblank | ⟨a, c, b, ha, hc, hb⟩ := blank_or_exists_last text.toList
  · exact returnsSettled_of_blank hblank
  · obtain ⟨x, hx, hplace⟩ := exists_getLast?_of_readText ha hc hb htext
    have hunified : (unified text).toList = unifyNewlines a ++ c :: unifyNewlines b := by
      rw [unified, String.toList_ofList, ha, unifyNewlines_append hc]
    obtain ⟨y, hy, hplace'⟩ := exists_getLast?_of_readText hunified hc (blank_unifyNewlines hb) hfile
    -- The two numbers differ by the carriage returns that stand alone before the character.
    rw [List.getLast?_map, hx, Option.map_some, Option.some.injEq] at hy
    rw [← hy, Component.origin?_inFile hplace, Option.some.injEq, Origin.mk.injEq,
      count_unifyNewlines] at hplace'
    have hnone : loneReturns a = 0 := by
      obtain ⟨hnumber, -⟩ := hplace'
      dsimp only at hnumber
      omega
    rw [ha]
    exact returnsSettled_append hnone hc hb

/-- A file that encodes a text. -/
theorem readProject_of_bytes {files : Tree} {path : Path} {text : String}
    (hsuffix : path.suffix = projectSuffix)
    (hbytes : files.bytes path = .ok text.toUTF8.data.toList) :
    readProject files path = readText (some path.toText) (unified text) := by
  have htext : files.readText path = .ok (unified text) := by
    rw [Tree.readText, hbytes]
    dsimp only
    rw [Utf8.decode_toUTF8]
    rfl
  rw [readProject, if_neg (not_not_intro hsuffix), htext]

/-- A file is read as the lines that carriage returns and line feeds make of its text. This is how the text
itself is read if nothing is written behind a carriage return that no line feed follows, and of the texts
that can be read it is so of no others. -/
theorem file_reads_as_text {files : Tree} {path : Path} {text : String}
    (hsuffix : path.suffix = projectSuffix)
    (hbytes : files.bytes path = .ok text.toUTF8.data.toList) :
    (Input.file path).read files =
        ((Input.text (unified text)).read files).map (List.map (Component.inFile path.toText)) ∧
      (ReturnsSettled text.toList → (Input.file path).read files =
        ((Input.text text).read files).map (List.map (Component.inFile path.toText))) ∧
      ∀ cs, (Input.text text).read files = .ok cs →
        (Input.file path).read files = .ok (cs.map (Component.inFile path.toText)) →
        ReturnsSettled text.toList := by
  have hfile := readProject_of_bytes hsuffix hbytes
  refine ⟨?_, ?_, ?_⟩
  · exact hfile.trans (readLines_inFile _ _ _)
  · intro h
    have hplain := readText_unified h (some path.toText)
    exact (hfile.trans hplain).trans (readLines_inFile _ _ _)
  · intro cs htext h
    exact returnsSettled_of_readText htext (hfile.symm.trans h)

/-- A working directory that holds the text as the project `p.cip`. -/
def holding (text : String) : Tree :=
  Tree.workingDirectory.foldr (fun name t => .dir [(name, t)])
    (.dir [("p.cip", .file text.toUTF8.data.toList)])

theorem file_reads_as_text_returns :
    (Input.file ⟨"", ["p.cip"]⟩).read (holding ":meta bounds 4 4\r\n:pin label 'a\r") =
        ((Input.text ":meta bounds 4 4\r\n:pin label 'a\r").read .fresh).map
          (List.map (Component.inFile "p.cip")) ∧
      (Input.text ":meta\rbounds 4 4\n").read .fresh = .ok [.canvas ⟨⟨4, 4⟩, some ⟨1, none⟩⟩] ∧
      (Input.file ⟨"", ["p.cip"]⟩).read (holding ":meta\rbounds 4 4\n") ≠
        .ok [.canvas ⟨⟨4, 4⟩, some ⟨1, some "p.cip"⟩⟩] := by
  have hpaired := @file_reads_as_text (holding ":meta bounds 4 4\r\n:pin label 'a\r") ⟨"", ["p.cip"]⟩
    ":meta bounds 4 4\r\n:pin label 'a\r" (by decide +kernel) (by decide +kernel)
  have hlone := @file_reads_as_text (holding ":meta\rbounds 4 4\n") ⟨"", ["p.cip"]⟩
    ":meta\rbounds 4 4\n" (by decide +kernel) (by decide +kernel)
  have htext : (Input.text ":meta\rbounds 4 4\n").read .fresh =
      .ok [.canvas ⟨⟨4, 4⟩, some ⟨1, none⟩⟩] := by decide +kernel
  refine ⟨hpaired.2.1 (by decide +kernel), htext, ?_⟩
  intro hfile
  have hsettled := hlone.2.2 _ htext hfile
  exact absurd hsettled (by decide +kernel)

end Source
end Schematic
