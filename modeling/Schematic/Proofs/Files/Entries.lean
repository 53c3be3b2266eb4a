import Mathlib.Data.List.Nodup
import Schematic.Proofs.Files.Reading

/-! Entries of trees. In a directory a name is that of one entry, so that the names on the way to an entry say which
one it is. Main statements: the files listed of a tree are those that names lead to, and where a path leads to a
directory, the path with further names leads to what the names lead to from there. -/
namespace Schematic

section Lookup

variable {α β : Type} [BEq α] [LawfulBEq α] {es : List (α × β)} {a : α} {b : β}

theorem mem_of_lookup_eq_some (h : es.lookup a = some b) : (a, b) ∈ es := by
  obtain ⟨l₁, l₂, rfl, -⟩ := List.lookup_eq_some_iff.mp h
  simp

theorem lookup_eq_some_iff_mem (hunique : ∀ b', (a, b) ∈ es → (a, b') ∈ es → b' = b) :
    es.lookup a = some b ↔ (a, b) ∈ es := by
  refine ⟨mem_of_lookup_eq_some, fun h => ?_⟩
  have hsome : (es.lookup a).isSome := List.lookup_isSome_iff.mpr ⟨(a, b), h, beq_self_eq_true a⟩
  obtain ⟨b', hb'⟩ := Option.isSome_iff_exists.mp hsome
  rw [hb', hunique b' h (mem_of_lookup_eq_some hb')]

end Lookup

namespace Files

/-- What the file system can find as the name of an entry, other than the way back up. -/
def IsName (name : String) : Prop :=
  name ≠ ".." ∧ name.utf8ByteSize ≤ Path.maxNameBytes ∧ '\x00' ∉ name.toList

instance (name : String) : Decidable (IsName name) := inferInstanceAs (Decidable (_ ∧ _))

namespace Tree

/-- What `names` lead to from a tree, each being that of an entry. -/
def subtree? (t : Tree) : List String → Option Tree
  | [] => some t
  | name :: rest => (t.entries.lookup name).bind fun next => next.subtree? rest

/-- The bytes of the file that `names` lead to. -/
def file? (t : Tree) (names : List String) : Option (List UInt8) :=
  match t.subtree? names with
  | some (.file bs) => some bs
  | _ => none

/-- The names that lead to files. -/
def files : Tree → List (List String)
  | .file _ => [[]]
  | .dir es => es.attach.flatMap fun ⟨(name, t), _⟩ => (files t).map (name :: ·)
termination_by t => sizeOf t
decreasing_by
  rename_i h
  have := List.sizeOf_lt_of_mem h
  simp_all only [Prod.mk.sizeOf_spec, dir.sizeOf_spec]
  omega

/-- The names that lead to files and directories below this one. -/
def paths : Tree → List (List String)
  | .file _ => []
  | .dir es => es.attach.flatMap fun ⟨(name, t), _⟩ => [name] :: (paths t).map (name :: ·)
termination_by t => sizeOf t
decreasing_by
  rename_i h
  have := List.sizeOf_lt_of_mem h
  simp_all only [Prod.mk.sizeOf_spec, dir.sizeOf_spec]
  omega

/-- The names in a directory are distinct, and none holds a slash. -/
inductive WellNamed : Tree → Prop
  | file (bs : List UInt8) : WellNamed (.file bs)
  | dir {es : List (String × Tree)} (noSlash : ∀ e ∈ es, '/' ∉ e.1.toList)
      (distinct : (es.map Prod.fst).Nodup) (entries : ∀ e ∈ es, WellNamed e.2) : WellNamed (.dir es)

variable {t s here : Tree} {above : List Tree} {name part : String} {names parts : List String}

theorem lookup_eq_some_iff_of_distinct {es : List (String × Tree)} (h : (es.map Prod.fst).Nodup) :
    es.lookup name = some t ↔ (name, t) ∈ es := by
  refine lookup_eq_some_iff_mem fun t' ht ht' => ?_
  exact (Prod.mk.inj (List.inj_on_of_nodup_map h ht' ht rfl)).2

theorem WellNamed.of_mem_entries (h : t.WellNamed) : ∀ e ∈ t.entries, e.2.WellNamed := by
  cases h with
  | file bs => simp [entries]
  | dir _ _ hentries => exact hentries

theorem file?_nil_dir (es : List (String × Tree)) : (dir es).file? [] = none := rfl

theorem file?_cons (t : Tree) (name : String) (rest : List String) :
    t.file? (name :: rest) = (t.entries.lookup name).bind fun next => next.file? rest := by
  unfold file?
  rw [subtree?]
  cases t.entries.lookup name <;> rfl

theorem file?_eq_some_iff {bs : List UInt8} :
    t.file? names = some bs ↔ t.subtree? names = some (.file bs) := by
  unfold file?
  split
  · next bs' h => rw [h, Option.some.injEq, Option.some.injEq, file.injEq]
  · next hne => exact iff_of_false (by simp) (hne bs)

theorem files_dir (es : List (String × Tree)) :
    (dir es).files = es.flatMap fun e => e.2.files.map (e.1 :: ·) := by
  rw [files]
  conv => rhs; rw [← List.attach_map_subtype_val es]
  rw [List.flatMap_map]

theorem mem_files_iff (h : t.WellNamed) : names ∈ t.files ↔ (t.file? names).isSome := by
  induction h generalizing names with
  | file bs =>
    rw [files, List.mem_singleton]
    cases names with
    | nil => exact iff_of_true rfl rfl
    | cons name rest => exact iff_of_false (by simp) (by simp [file?_cons, entries])
  | @dir es _ hdistinct _ ih =>
    rw [files_dir, List.mem_flatMap]
    cases names with
    | nil => simp [file?_nil_dir]
    | cons name rest =>
      rw [file?_cons, Option.isSome_bind]
      constructor
      · rintro ⟨⟨name', next⟩, he, hrest⟩
        obtain ⟨rest', hrest', ⟨⟩⟩ := List.mem_map.mp hrest
        rw [entries, (lookup_eq_some_iff_of_distinct hdistinct).mpr he]
        exact (ih _ he).mp hrest'
      · intro hsome
        obtain ⟨next, hnext, hrest⟩ := (Option.any_eq_true _ _).mp hsome
        have he := (lookup_eq_some_iff_of_distinct hdistinct).mp hnext
        exact ⟨_, he, List.mem_map.mpr ⟨rest, (ih _ he).mpr hrest, rfl⟩⟩

theorem noSlash_of_mem_files (h : t.WellNamed) (hnames : names ∈ t.files) :
    ∀ name ∈ names, '/' ∉ name.toList := by
  induction h generalizing names with
  | file bs =>
    rw [files, List.mem_singleton] at hnames
    simp [hnames]
  | dir hslash _ _ ih =>
    rw [files_dir, List.mem_flatMap] at hnames
    obtain ⟨e, he, hrest⟩ := hnames
    obtain ⟨rest, hrest', rfl⟩ := List.mem_map.mp hrest
    exact List.forall_mem_cons.mpr ⟨hslash e he, ih e he hrest'⟩

theorem paths_dir (es : List (String × Tree)) :
    (dir es).paths = es.flatMap fun e => [e.1] :: e.2.paths.map (e.1 :: ·) := by
  rw [paths]
  conv => rhs; rw [← List.attach_map_subtype_val es]
  rw [List.flatMap_map]

theorem mem_paths_of_subtree? (hne : names ≠ []) (h : t.subtree? names = some s) : names ∈ t.paths := by
  induction names generalizing t with
  | nil => exact absurd rfl hne
  | cons name rest ih =>
    obtain ⟨next, hnext, hrest⟩ := Option.bind_eq_some_iff.mp h
    cases t with
    | file bs => cases hnext
    | dir es =>
      have he : (name, next) ∈ es := mem_of_lookup_eq_some hnext
      rw [paths_dir, List.mem_flatMap]
      refine ⟨_, he, ?_⟩
      by_cases hnil : rest = []
      · rw [hnil]
        exact List.mem_cons_self
      · exact List.mem_cons_of_mem _ (List.mem_map.mpr ⟨rest, ih hnil hrest, rfl⟩)

theorem walk_dir_cons (above : List Tree) (es : List (String × Tree)) (part : String)
    (rest : List String) : walk above (dir es) (part :: rest) =
      if part = ".." then walk above.tail (above.headD (dir es)) rest
      else if Path.maxNameBytes < part.utf8ByteSize then .error .tooLong
      else match es.lookup part with
        | none => .error .missing
        | some next => walk (dir es :: above) next rest := by
  cases above <;> rfl

/-- One step of a way that leads somewhere is the same whatever comes behind it. -/
theorem exists_walk_cons (h : walk above here (part :: parts) = .ok t) :
    ∃ above' next, (∀ rest, walk above here (part :: rest) = walk above' next rest) ∧
      ((∀ u ∈ here :: above, u.WellNamed) → ∀ u ∈ next :: above', u.WellNamed) := by
  cases here with
  | file bs => cases h
  | dir es =>
    simp only [walk_dir_cons] at h ⊢
    split_ifs at h with hup hlong
    · refine ⟨above.tail, above.headD (dir es), fun rest => if_pos hup, ?_⟩
      cases above with
      | nil => exact id
      | cons up above => exact fun hu => (List.forall_mem_cons.mp hu).2
    · cases hnext : es.lookup part with
      | none =>
        rw [hnext] at h
        cases h
      | some next =>
        refine ⟨dir es :: above, next, fun rest => by rw [if_neg hup, if_neg hlong], fun hu => ?_⟩
        have he := mem_of_lookup_eq_some hnext
        exact List.forall_mem_cons.mpr ⟨(hu _ List.mem_cons_self).of_mem_entries _ he, hu⟩

theorem wellNamed_of_walk (h : walk above here parts = .ok t)
    (hu : ∀ u ∈ here :: above, u.WellNamed) : t.WellNamed := by
  induction parts generalizing above here with
  | nil =>
    cases h
    exact hu t List.mem_cons_self
  | cons part rest ih =>
    obtain ⟨above', next, hstep, hkeep⟩ := exists_walk_cons h
    rw [hstep] at h
    exact ih h (hkeep hu)

theorem exists_walk_append (h : walk above here parts = .ok t) :
    ∃ above', ∀ rest, walk above here (parts ++ rest) = walk above' t rest := by
  induction parts generalizing above here with
  | nil =>
    cases h
    exact ⟨above, fun _ => rfl⟩
  | cons part parts ih =>
    obtain ⟨above', next, hstep, -⟩ := exists_walk_cons h
    rw [hstep] at h
    obtain ⟨above'', happend⟩ := ih h
    refine ⟨above'', fun rest => ?_⟩
    rw [List.cons_append, hstep, happend]

theorem walk_of_subtree? (h : t.subtree? names = some s) (hnames : ∀ name ∈ names, IsName name)
    (above : List Tree) : walk above t names = .ok s := by
  induction names generalizing t above with
  | nil =>
    cases h
    rfl
  | cons name rest ih =>
    obtain ⟨next, hnext, hrest⟩ := Option.bind_eq_some_iff.mp h
    obtain ⟨⟨hup, hshort, -⟩, hnames⟩ := List.forall_mem_cons.mp hnames
    cases t with
    | file bs => cases hnext
    | dir es =>
      rw [entries] at hnext
      rw [walk_dir_cons, if_neg hup, if_neg (Nat.not_lt.mpr hshort), hnext]
      exact ih hrest hnames _

theorem locate_eq_ok_iff {files : Tree} {path : Path} : files.locate path = .ok t ↔
    path.hasNull = false ∧ path.isTooLong = false ∧ walk [] files (steps path) = .ok t := by
  unfold locate
  split_ifs with hnull hlong
  · exact iff_of_false (by simp) (by simp [hnull])
  · exact iff_of_false (by simp) (by simp [hlong])
  · simp [hnull, hlong]

theorem wellNamed_of_locate {files : Tree} {path : Path} (h : files.WellNamed)
    (hlocate : files.locate path = .ok t) : t.WellNamed := by
  obtain ⟨-, -, hwalk⟩ := locate_eq_ok_iff.mp hlocate
  exact wellNamed_of_walk hwalk (by simpa using h)

theorem steps_below (root : Path) (names : List String) :
    steps (root.below names) = steps root ++ names := by
  unfold steps Path.below
  split_ifs with h
  · rw [List.append_assoc]
  · rfl

theorem locate_below {files : Tree} {root : Path} (hlocate : files.locate root = .ok t)
    (hentry : t.subtree? names = some s) (hnames : ∀ name ∈ names, IsName name)
    (hshort : (root.below names).isTooLong = false) : files.locate (root.below names) = .ok s := by
  obtain ⟨hnull, -, hwalk⟩ := locate_eq_ok_iff.mp hlocate
  refine locate_eq_ok_iff.mpr ⟨?_, hshort, ?_⟩
  · have hnames' : names.any (fun s => s.toList.contains '\x00') = false := by
      rw [List.any_eq_false]
      intro name hname
      simpa using (hnames name hname).2.2
    unfold Path.hasNull at hnull ⊢
    rw [Path.below, List.any_append, hnull, hnames', Bool.or_false]
  · obtain ⟨above, happend⟩ := exists_walk_append hwalk
    rw [steps_below, happend]
    exact walk_of_subtree? hentry hnames above

end Tree
end Files
end Schematic
