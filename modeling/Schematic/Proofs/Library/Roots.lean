import Mathlib.Tactic.SplitIfs
import Schematic.Library.Template
import Schematic.Proofs.Library.Walk
import Schematic.Proofs.Source.Diagnosis

/-! Diagnoses of libraries. Whatever a template file holds, its template is read or a diagnostic says why
not. Main statement: a library is a matter of diagnostics too, up to the first root that is refused. -/
namespace Schematic
open Schematic.Files

namespace Files.Tree

/-- What is asked about the directory at `root` is answered: no path is too long for that, neither its own
nor that of an entry. -/
def Answers (files : Tree) (root : Path) : Prop :=
  files.locate root ≠ .error .tooLong ∧ ∀ es, files.locate root = .ok (.dir es) →
    ∀ names ∈ (dir es).paths, (root.below names).isTooLong = false

/-- The entries of the directory at `root` are at most `depth` names below it. -/
def Shallow (files : Tree) (depth : Nat) (root : Path) : Prop :=
  ∀ es, files.locate root = .ok (.dir es) → ∀ names ∈ (dir es).paths, names.length ≤ depth

/-- The directory at `root` can be read, with all that is in it. -/
structure Readable (files : Tree) (root : Path) : Prop where
  answers : files.Answers root
  isDir : files.isDir root = true

/-- The directory at `root` can be read in one walk. -/
structure Walkable (files : Tree) (depth : Nat) (root : Path) : Prop extends files.Readable root where
  shallow : files.Shallow depth root

/-- Of the roots in order, one gets no answer or is too deep, and those before it can be walked. -/
def Refuses (files : Tree) (depth : Nat) (roots : List Path) : Prop :=
  ∃ before root after, roots = before ++ root :: after ∧ (∀ r ∈ before, files.Walkable depth r) ∧
    ¬(files.Answers root ∧ files.Shallow depth root)

variable {files : Tree} {depth : Nat} {root : Path} {roots : List Path}

theorem isDir_iff : files.isDir root = true ↔ ∃ es, files.locate root = .ok (.dir es) := by
  unfold isDir
  split
  · next es hes => simp [hes]
  · next hne => simpa using hne

/-- What is no directory has no entries that could be too deep or have paths that are too long. -/
theorem answers_and_shallow_of_isDir_eq_false (hdir : files.isDir root = false)
    (hlocate : files.locate root ≠ .error .tooLong) (depth : Nat) :
    files.Answers root ∧ files.Shallow depth root := by
  have hnone : ∀ es, files.locate root ≠ .ok (.dir es) := by
    intro es hes
    rw [isDir_iff.mpr ⟨es, hes⟩] at hdir
    cases hdir
  exact ⟨⟨hlocate, fun es hes => absurd hes (hnone es)⟩, fun es hes => absurd hes (hnone es)⟩

theorem walkable_iff : files.Walkable depth root ↔
    (files.Answers root ∧ files.Shallow depth root) ∧ files.isDir root = true :=
  ⟨fun h => ⟨⟨h.answers, h.shallow⟩, h.isDir⟩, fun h => ⟨⟨h.1.1, h.2⟩, h.1.2⟩⟩

theorem refuses_cons_iff : files.Refuses depth (root :: roots) ↔
    ¬(files.Answers root ∧ files.Shallow depth root) ∨
      files.isDir root = true ∧ files.Refuses depth roots := by
  constructor
  · rintro ⟨before, r, after, hroots, hbefore, hr⟩
    cases before with
    | nil =>
      cases hroots
      exact .inl hr
    | cons b before =>
      cases hroots
      obtain ⟨hb, hbefore⟩ := List.forall_mem_cons.mp hbefore
      exact .inr ⟨hb.isDir, before, r, after, rfl, hbefore, hr⟩
  · intro h
    by_cases ha : files.Answers root ∧ files.Shallow depth root
    · obtain ⟨hdir, before, r, after, rfl, hbefore, hr⟩ := h.resolve_left (not_not_intro ha)
      have hroot := walkable_iff.mpr ⟨ha, hdir⟩
      exact ⟨root :: before, r, after, rfl, List.forall_mem_cons.mpr ⟨hroot, hbefore⟩, hr⟩
    · exact ⟨[], root, roots, rfl, by simp, ha⟩

/-- Where no path is too long, roots are refused for their depth alone. -/
theorem refuses_iff_of_readable (h : ∀ root ∈ roots, files.Readable root) :
    files.Refuses depth roots ↔ ∃ root ∈ roots, ¬files.Shallow depth root := by
  induction roots with
  | nil => simp [Refuses]
  | cons root roots ih =>
    obtain ⟨hroot, hroots⟩ := List.forall_mem_cons.mp h
    rw [refuses_cons_iff, ih hroots, List.exists_mem_cons_iff]
    simp [hroot.answers, hroot.isDir]

/-- `n` directories, one inside the other. -/
def nested : Nat → Tree
  | 0 => empty
  | n + 1 => .dir [("a", nested n)]

/-- A working directory of nested directories. -/
def sunken (n : Nat) : Tree := workingDirectory.foldr (fun name t => .dir [(name, t)]) (nested n)

theorem mem_paths_nested {n : Nat} {names : List String} :
    names ∈ (nested n).paths ↔ ∃ k < n, names = List.replicate (k + 1) "a" := by
  induction n generalizing names with
  | zero => simp [nested, empty, paths_dir]
  | succ n ih =>
    rw [nested, paths_dir, List.flatMap_singleton, List.mem_cons, List.mem_map]
    simp only [ih]
    constructor
    · rintro (rfl | ⟨_, ⟨k, hk, rfl⟩, rfl⟩)
      · exact ⟨0, Nat.succ_pos n, rfl⟩
      · exact ⟨k + 1, Nat.succ_lt_succ hk, rfl⟩
    · rintro ⟨k, hk, rfl⟩
      cases k with
      | zero => exact .inl rfl
      | succ k => exact .inr ⟨_, ⟨k, Nat.lt_of_succ_lt_succ hk, rfl⟩, rfl⟩

theorem utf8ByteSize_toText_replicate (k : Nat) :
    (Path.mk "" (List.replicate (k + 1) "a")).toText.utf8ByteSize = 2 * k + 1 := by
  have hne : List.replicate (k + 1) "a" ≠ [] := by simp
  rw [Path.toText, if_neg fun h => hne h.2, String.empty_append]
  induction k with
  | zero => rfl
  | succ k ih =>
    rw [List.replicate_succ, List.replicate_succ, String.intercalate_cons_cons,
      String.utf8ByteSize_append, String.utf8ByteSize_append, ← List.replicate_succ, ih (by simp)]
    have hone : "a".utf8ByteSize = 1 ∧ "/".utf8ByteSize = 1 := by decide
    omega

theorem exists_nested_eq (n : Nat) : ∃ es, nested n = .dir es := by
  cases n <;> exact ⟨_, rfl⟩

theorem locate_sunken (n : Nat) : (sunken n).locate ⟨"", []⟩ = .ok (nested n) := rfl

/-- The bound is that of the length of paths. -/
theorem readable_sunken {n : Nat} (h : n ≤ 2048) : (sunken n).Readable ⟨"", []⟩ := by
  refine ⟨⟨by simp [locate_sunken], ?_⟩, ?_⟩
  · rw [locate_sunken]
    intro es hes names hnames
    rw [← Except.ok.inj hes, mem_paths_nested] at hnames
    obtain ⟨k, hk, rfl⟩ := hnames
    have hsize := utf8ByteSize_toText_replicate k
    simp only [Path.isTooLong, Path.below, List.nil_append, hsize, decide_eq_false_iff_not,
      Path.maxBytes]
    omega
  · rw [isDir_iff, locate_sunken]
    obtain ⟨es, hes⟩ := exists_nested_eq n
    exact ⟨es, by rw [hes]⟩

theorem not_shallow_sunken {n : Nat} (h : depth < n) : ¬(sunken n).Shallow depth ⟨"", []⟩ := by
  intro hshallow
  obtain ⟨es, hes⟩ := exists_nested_eq n
  have hpath : List.replicate (depth + 1) "a" ∈ (dir es).paths := by
    rw [← hes]
    exact mem_paths_nested.mpr ⟨depth, h, rfl⟩
  have hdeep := hshallow es (by rw [locate_sunken, hes]) _ hpath
  rw [List.length_replicate] at hdeep
  exact Nat.not_succ_le_self depth hdeep

end Files.Tree

namespace Library

variable {files : Tree} {depth : Nat} {l : Library} {root : Path} {roots : List Path}

theorem reaches_iff {es : List (String × Tree)} (hlocate : files.locate root = .ok (.dir es)) :
    Reaches depth root (.dir es) ↔ files.Answers root ∧ files.Shallow depth root := by
  unfold Tree.Answers Tree.Shallow
  rw [hlocate, Reaches]
  constructor
  · intro h
    refine ⟨⟨nofun, ?_⟩, ?_⟩
    · rintro es' ⟨⟩ names hnames
      exact (h names hnames).2
    · rintro es' ⟨⟩ names hnames
      exact (h names hnames).1
  · rintro ⟨⟨-, hshort⟩, hshallow⟩ names hnames
    exact ⟨hshallow es rfl names hnames, hshort es rfl names hnames⟩

/-- A root adds its templates, is not a library, or is refused. -/
theorem addRoot_cases (depth : Nat) (files : Tree) (l : Library) (root : Path) :
    (files.Walkable depth root ∧ ∃ l', addRoot depth files l root = .ok l') ∨
    (files.Answers root ∧ files.Shallow depth root ∧ files.isDir root = false ∧
      addRoot depth files l root = .error (Cause.unreadableLibrary root.toText)) ∨
    (¬(files.Answers root ∧ files.Shallow depth root) ∧ ∃ f, addRoot depth files l root =
      .error (.fault f) ∧ (files.Answers root → f = .nestedTooDeeply)) := by
  unfold addRoot
  cases hlocate : files.locate root with
  | error e =>
    have hdir : files.isDir root = false := by simp [Tree.isDir, hlocate]
    by_cases he : e = .tooLong
    · subst he
      have hanswers : ¬files.Answers root := fun h => h.1 hlocate
      exact .inr (.inr ⟨fun h => hanswers h.1, _, rfl, fun h => absurd h hanswers⟩)
    · obtain ⟨hanswers, hshallow⟩ :=
        Tree.answers_and_shallow_of_isDir_eq_false hdir (by simpa [hlocate] using he) depth
      refine .inr (.inl ⟨hanswers, hshallow, hdir, ?_⟩)
      cases e with
      | tooLong => exact absurd rfl he
      | missing | occupied | notDirectory | isDirectory | nullInPath => rfl
  | ok t =>
    cases t with
    | file bs =>
      have hdir : files.isDir root = false := by simp [Tree.isDir, hlocate]
      obtain ⟨hanswers, hshallow⟩ :=
        Tree.answers_and_shallow_of_isDir_eq_false hdir (by simp [hlocate]) depth
      exact .inr (.inl ⟨hanswers, hshallow, hdir, rfl⟩)
    | dir es =>
      have hreaches : Reaches depth root (.dir es) ↔ files.Answers root ∧ files.Shallow depth root :=
        reaches_iff hlocate
      cases hwalk : filesBelow depth root (.dir es) with
      | ok found =>
        have h := hreaches.mp (exists_filesBelow_eq_ok_iff.mp ⟨found, hwalk⟩)
        refine .inl ⟨Tree.walkable_iff.mpr ⟨h, Tree.isDir_iff.mpr ⟨es, hlocate⟩⟩, ?_⟩
        simp [templatesBelow, hwalk, Except.map]
      | error failure =>
        have hnot : ¬(files.Answers root ∧ files.Shallow depth root) := by
          rw [← hreaches, ← exists_filesBelow_eq_ok_iff, hwalk]
          nofun
        refine .inr (.inr ⟨hnot, ?_⟩)
        rcases of_filesBelow_eq_error hwalk with rfl | ⟨names, hnames, hlong, rfl⟩
        · exact ⟨.nestedTooDeeply, by simp [templatesBelow, hwalk, Except.map], fun _ => rfl⟩
        · refine ⟨.denied ⟨.tooLong, root.below names⟩,
            by simp [templatesBelow, hwalk, Except.map], fun h => ?_⟩
          rw [h.2 es hlocate names hnames] at hlong
          cases hlong

theorem ofRoots_fault_iff :
    (∃ f, ofRoots depth files roots = .error (.fault f)) ↔ files.Refuses depth roots := by
  unfold ofRoots
  -- What the roots so far have provided has no part in whether the next one is refused.
  generalize onlyBundled = l
  induction roots generalizing l with
  | nil => simp [Tree.Refuses, pure, Except.pure]
  | cons root roots ih =>
    rw [List.foldlM_cons, Tree.refuses_cons_iff]
    rcases addRoot_cases depth files l root with ⟨hw, l', h⟩ | ⟨ha, hs, hd, h⟩ | ⟨ha, f, h, -⟩
    · rw [h]
      change (∃ f, roots.foldlM (addRoot depth files) l' = _) ↔ _
      simp [ih l', hw.answers, hw.shallow, hw.isDir]
    · rw [h]
      simp [ha, hs, hd, bind, Except.bind]
    · rw [h]
      simp only [bind, Except.bind]
      exact iff_of_true ⟨f, rfl⟩ (.inl ha)

/-- Files that answer about every root leave a library nothing to be refused for but its depth. -/
theorem fault_of_ofRoots {f : Fault} (h : ∀ root ∈ roots, files.Answers root)
    (hfault : ofRoots depth files roots = .error (.fault f)) : f = .nestedTooDeeply := by
  unfold ofRoots at hfault
  generalize onlyBundled = l at hfault
  induction roots generalizing l with
  | nil => cases hfault
  | cons root roots ih =>
    obtain ⟨hroot, hroots⟩ := List.forall_mem_cons.mp h
    rw [List.foldlM_cons] at hfault
    rcases addRoot_cases depth files l root with ⟨-, l', h'⟩ | ⟨-, -, -, h'⟩ | ⟨-, f', h', hf'⟩
    · rw [h'] at hfault
      exact ih hroots l' hfault
    · rw [h'] at hfault
      cases hfault
    · rw [h'] at hfault
      cases hfault
      exact hf' hroot

theorem ofRoots_eq_fault_iff {f : Fault} (h : ∀ root ∈ roots, files.Answers root) :
    ofRoots depth files roots = .error (.fault f) ↔ f = .nestedTooDeeply ∧ files.Refuses depth roots := by
  constructor
  · intro hfault
    exact ⟨fault_of_ofRoots h hfault, ofRoots_fault_iff.mp ⟨f, hfault⟩⟩
  · rintro ⟨rfl, hrefuses⟩
    obtain ⟨f, hfault⟩ := ofRoots_fault_iff.mpr hrefuses
    rw [hfault, fault_of_ofRoots h hfault]

theorem ofRoots_of_not_shallow (h : ∀ root ∈ roots, files.Readable root)
    (hdeep : ∃ root ∈ roots, ¬files.Shallow depth root) :
    ofRoots depth files roots = .error (.fault .nestedTooDeeply) := by
  have hanswers : ∀ root ∈ roots, files.Answers root := fun root hroot => (h root hroot).answers
  exact (ofRoots_eq_fault_iff hanswers).mpr ⟨rfl, (Tree.refuses_iff_of_readable h).mpr hdeep⟩

theorem diagnosed_text (l : Library) (files : Tree) (type : String) :
    Diagnosed (l.text files type) := by
  unfold text
  split
  · exact diagnosed_cause _
  · exact diagnosed_ok _
  · split
    · exact diagnosed_ok _
    · exact diagnosed_cause _

theorem diagnosed_readTemplate (type text : String) : Diagnosed (readTemplate type text) := by
  unfold readTemplate
  split
  · exact diagnosed_cause _
  · next f hf => exact absurd hf (Source.diagnosed_readText none text f)
  · next cs hcs =>
    split
    · next c hc =>
      have hdrafted := (Source.declared_of_readText hcs c (List.mem_of_find?_eq_some hc)).1
      obtain ⟨k, hk⟩ := Option.isSome_iff_exists.mp hdrafted.isSome_kind?
      rw [Component.kind_eq_ok hk]
      exact diagnosed_cause _
    · split_ifs
      · exact diagnosed_cause _
      · exact diagnosed_cause _
      · exact diagnosed_ok _

theorem diagnosed_template (l : Library) (files : Tree) (type : String) :
    Diagnosed (l.template files type) := by
  unfold template
  split
  · next e he => exact (diagnosed_text l files type).rethrow he
  · exact diagnosed_readTemplate type _

end Library
end Schematic
