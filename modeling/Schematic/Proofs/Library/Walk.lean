import Mathlib.Tactic.SplitIfs
import Schematic.Library.Index
import Schematic.Proofs.Files.Entries

/-! The walk below a root. It tries every entry, and gives up at the first one that is too deep for it or whose path
is too long. Main statements: it gets to its end exactly if there is no such entry, it has found the files then, and
where no path is too long it gives up for the depth alone. -/
namespace Schematic
open Schematic.Files

section Traversal

variable {α β ε : Type} {f : α → Except ε β} {a : α} {as : List α} {b : β} {bs : List β} {e : ε}

theorem map_eq_ok_iff {x : Except ε α} {g : α → β} : x.map g = .ok b ↔ ∃ a, x = .ok a ∧ g a = b := by
  cases x <;> simp [Except.map]

theorem map_eq_error_iff {x : Except ε α} {g : α → β} : x.map g = .error e ↔ x = .error e := by
  cases x <;> simp [Except.map]

theorem mapM_cons_eq_ok : (a :: as).mapM f = .ok bs ↔
    ∃ b rest, f a = .ok b ∧ as.mapM f = .ok rest ∧ bs = b :: rest := by
  rw [List.mapM_cons]
  cases f a with
  | error e => simp [bind, Except.bind]
  | ok b =>
    cases as.mapM f with
    | error e => simp [bind, Except.bind]
    | ok rest => simp [bind, Except.bind, pure, Except.pure, eq_comm]

theorem mem_of_mapM_eq_ok (h : as.mapM f = .ok bs) : b ∈ bs ↔ ∃ a ∈ as, f a = .ok b := by
  induction as generalizing bs with
  | nil =>
    cases h
    simp
  | cons a as ih =>
    obtain ⟨b', rest, hb', hrest, rfl⟩ := mapM_cons_eq_ok.mp h
    rw [List.mem_cons, ih hrest, List.exists_mem_cons_iff, hb', Except.ok.injEq, eq_comm]

theorem exists_mapM_eq_ok_iff : (∃ bs, as.mapM f = .ok bs) ↔ ∀ a ∈ as, ∃ b, f a = .ok b := by
  induction as with
  | nil => exact iff_of_true ⟨[], rfl⟩ (by simp)
  | cons a as ih =>
    rw [List.forall_mem_cons, ← ih]
    constructor
    · rintro ⟨bs, h⟩
      obtain ⟨b, rest, hb, hrest, -⟩ := mapM_cons_eq_ok.mp h
      exact ⟨⟨b, hb⟩, rest, hrest⟩
    · rintro ⟨⟨b, hb⟩, rest, hrest⟩
      exact ⟨b :: rest, mapM_cons_eq_ok.mpr ⟨b, rest, hb, hrest, rfl⟩⟩

theorem exists_of_mapM_eq_error (h : as.mapM f = .error e) : ∃ a ∈ as, f a = .error e := by
  induction as with
  | nil => cases h
  | cons a as ih =>
    rw [List.mapM_cons] at h
    rw [List.exists_mem_cons_iff]
    cases hb : f a with
    | error e' =>
      rw [hb] at h
      cases h
      exact .inl rfl
    | ok b =>
      rw [hb] at h
      cases hrest : as.mapM f with
      | error e' =>
        rw [hrest] at h
        cases h
        exact .inr (ih hrest)
      | ok rest =>
        rw [hrest] at h
        cases h

end Traversal

namespace Library

/-- No entry below `tree`, which stands at `here`, is too deep or has a path that is too long. -/
def Reaches (depth : Nat) (here : Path) (tree : Tree) : Prop :=
  ∀ names ∈ tree.paths, names.length ≤ depth ∧ (here.below names).isTooLong = false

variable {depth : Nat} {here : Path} {t : Tree} {es : List (String × Tree)} {e : String × Tree}
  {names : List String} {found : List (List String)} {failure : Failure}

theorem mem_inOrder : e ∈ inOrder es ↔ e ∈ es := List.mem_mergeSort

theorem filesBelow_dir (depth : Nat) (here : Path) (es : List (String × Tree)) :
    filesBelow (depth + 1) here (.dir es) =
      ((inOrder es).mapM (filesAt (filesBelow depth) here)).map List.flatten := by
  rw [filesBelow]

theorem filesAt_eq_ok {walk : Path → Tree → Except Failure (List (List String))} :
    filesAt walk here e = .ok found ↔ (here.below [e.1]).isTooLong = false ∧
      ∃ below, walk (here.below [e.1]) e.2 = .ok below ∧ below.map (e.1 :: ·) = found := by
  unfold filesAt
  dsimp only
  split_ifs with hlong
  · simp [hlong]
  · simp [hlong, map_eq_ok_iff]

theorem filesAt_eq_error {walk : Path → Tree → Except Failure (List (List String))} :
    filesAt walk here e = .error failure ↔
      (here.below [e.1]).isTooLong = true ∧ failure = Fault.denied ⟨.tooLong, here.below [e.1]⟩ ∨
      (here.below [e.1]).isTooLong = false ∧ walk (here.below [e.1]) e.2 = .error failure := by
  unfold filesAt
  dsimp only
  split_ifs with hlong
  · simp [hlong, eq_comm]
  · simp [hlong, map_eq_error_iff]

theorem mem_of_filesBelow_eq_ok (h : filesBelow depth here t = .ok found) :
    names ∈ found ↔ names ∈ t.files := by
  induction depth generalizing here t found names with
  | zero =>
    cases t with
    | file bs =>
      cases h
      rw [Tree.files]
    | dir es =>
      cases es with
      | nil =>
        cases h
        rw [Tree.files_dir, List.flatMap_nil]
      | cons e es => cases h
  | succ depth ih =>
    cases t with
    | file bs =>
      cases h
      rw [Tree.files]
    | dir es =>
      rw [filesBelow_dir, map_eq_ok_iff] at h
      obtain ⟨parts, hparts, rfl⟩ := h
      rw [Tree.files_dir, List.mem_flatten, List.mem_flatMap]
      constructor
      · rintro ⟨part, hpart, hnames⟩
        obtain ⟨e, he, hat⟩ := (mem_of_mapM_eq_ok hparts).mp hpart
        obtain ⟨-, below, hbelow, rfl⟩ := filesAt_eq_ok.mp hat
        obtain ⟨rest, hrest, rfl⟩ := List.mem_map.mp hnames
        exact ⟨e, mem_inOrder.mp he, List.mem_map.mpr ⟨rest, (ih hbelow).mp hrest, rfl⟩⟩
      · rintro ⟨e, he, hnames⟩
        obtain ⟨rest, hrest, rfl⟩ := List.mem_map.mp hnames
        have he' := mem_inOrder.mpr he
        obtain ⟨part, hat⟩ := exists_mapM_eq_ok_iff.mp ⟨parts, hparts⟩ e he'
        obtain ⟨-, below, hbelow, rfl⟩ := filesAt_eq_ok.mp hat
        exact ⟨_, (mem_of_mapM_eq_ok hparts).mpr ⟨e, he', hat⟩,
          List.mem_map.mpr ⟨rest, (ih hbelow).mpr hrest, rfl⟩⟩

theorem below_below (here : Path) (name : String) (names : List String) :
    (here.below [name]).below names = here.below (name :: names) := by
  simp [Path.below]

theorem mem_paths_dir : names ∈ (Tree.dir es).paths ↔
    ∃ e ∈ es, names = [e.1] ∨ ∃ rest ∈ e.2.paths, e.1 :: rest = names := by
  simp only [Tree.paths_dir, List.mem_flatMap, List.mem_cons, List.mem_map]

theorem reaches_file (depth : Nat) (here : Path) (bs : List UInt8) : Reaches depth here (.file bs) := by
  intro names hnames
  rw [Tree.paths] at hnames
  cases hnames

theorem reaches_zero_iff : Reaches 0 here (.dir es) ↔ es = [] := by
  constructor
  · intro h
    cases es with
    | nil => rfl
    | cons e es =>
      have hdeep := (h [e.1] (mem_paths_dir.mpr ⟨e, List.mem_cons_self, .inl rfl⟩)).1
      simp at hdeep
  · rintro rfl names hnames
    rw [Tree.paths_dir] at hnames
    cases hnames

theorem reaches_dir_iff : Reaches (depth + 1) here (.dir es) ↔
    ∀ e ∈ es, (here.below [e.1]).isTooLong = false ∧ Reaches depth (here.below [e.1]) e.2 := by
  constructor
  · intro h e he
    refine ⟨(h [e.1] (mem_paths_dir.mpr ⟨e, he, .inl rfl⟩)).2, fun names hnames => ?_⟩
    have hentry := h (e.1 :: names) (mem_paths_dir.mpr ⟨e, he, .inr ⟨names, hnames, rfl⟩⟩)
    rw [below_below]
    exact ⟨Nat.le_of_succ_le_succ hentry.1, hentry.2⟩
  · intro h names hnames
    obtain ⟨e, he, rfl | ⟨rest, hrest, rfl⟩⟩ := mem_paths_dir.mp hnames
    · exact ⟨Nat.le_add_left 1 depth, (h e he).1⟩
    · have hentry := (h e he).2 rest hrest
      rw [below_below] at hentry
      exact ⟨Nat.succ_le_succ hentry.1, hentry.2⟩

/-- The walk gets to its end exactly if it can try every entry. -/
theorem exists_filesBelow_eq_ok_iff :
    (∃ found, filesBelow depth here t = .ok found) ↔ Reaches depth here t := by
  induction depth generalizing here t with
  | zero =>
    cases t with
    | file bs => exact iff_of_true ⟨_, rfl⟩ (reaches_file _ _ bs)
    | dir es =>
      rw [reaches_zero_iff]
      cases es with
      | nil => exact iff_of_true ⟨[], rfl⟩ rfl
      | cons e es => exact iff_of_false nofun nofun
  | succ depth ih =>
    cases t with
    | file bs => exact iff_of_true ⟨_, rfl⟩ (reaches_file _ _ bs)
    | dir es =>
      have hwalk : (∃ found, filesBelow (depth + 1) here (.dir es) = .ok found) ↔
          ∃ parts, (inOrder es).mapM (filesAt (filesBelow depth) here) = .ok parts := by
        simp [filesBelow_dir, map_eq_ok_iff]
      rw [hwalk, exists_mapM_eq_ok_iff, reaches_dir_iff]
      -- Both sides are about single entries now, each with one name less to go.
      simp only [mem_inOrder, filesAt_eq_ok, ← ih]
      refine forall₂_congr fun e he => ?_
      constructor
      · rintro ⟨_, hlong, below, hbelow, -⟩
        exact ⟨hlong, below, hbelow⟩
      · rintro ⟨hlong, below, hbelow⟩
        exact ⟨_, hlong, below, hbelow, rfl⟩

/-- Where the walk gives up, an entry is too deep, or the path of one is too long. -/
theorem of_filesBelow_eq_error (h : filesBelow depth here t = .error failure) :
    failure = Fault.nestedTooDeeply ∨ ∃ names ∈ t.paths, (here.below names).isTooLong = true ∧
      failure = Fault.denied ⟨.tooLong, here.below names⟩ := by
  induction depth generalizing here t with
  | zero =>
    cases t with
    | file bs => cases h
    | dir es =>
      cases es with
      | nil => cases h
      | cons e es =>
        cases h
        exact .inl rfl
  | succ depth ih =>
    cases t with
    | file bs => cases h
    | dir es =>
      rw [filesBelow_dir, map_eq_error_iff] at h
      obtain ⟨e, he, hat⟩ := exists_of_mapM_eq_error h
      have he := mem_inOrder.mp he
      rcases filesAt_eq_error.mp hat with ⟨hlong, rfl⟩ | ⟨-, hbelow⟩
      · exact .inr ⟨[e.1], mem_paths_dir.mpr ⟨e, he, .inl rfl⟩, hlong, rfl⟩
      · refine (ih hbelow).imp_right ?_
        rintro ⟨names, hnames, hlong, rfl⟩
        rw [below_below] at hlong ⊢
        exact ⟨_, mem_paths_dir.mpr ⟨e, he, .inr ⟨names, hnames, rfl⟩⟩, hlong, rfl⟩

end Library
end Schematic
