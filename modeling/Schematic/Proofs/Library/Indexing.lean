import Mathlib.Tactic.SplitIfs
import Schematic.Proofs.Files.Entries
import Schematic.Proofs.Library.Shadowing
import Schematic.Proofs.Text.Utf8

/-! What a library holds. The names on the way to a template file and the type of the template can be had from each
other, so that a root gives each type at most once, from a file that the type alone tells. Main statement: a library
is an index of its roots, where of each type there is the template of the first root that has one. -/
namespace Schematic
open Schematic.Files

namespace Library

theorem stem?_eq_some_iff {ending name stem : String} :
    stem? ending name = some stem ↔ name = stem ++ ending := by
  unfold stem?
  rw [← String.toList_inj, String.toList_append]
  split_ifs with h
  · obtain ⟨front, hfront⟩ := List.isSuffixOf_iff_suffix.mp h
    have htake : name.toList.take (name.length - ending.length) = front := by
      rw [← String.length_toList, ← String.length_toList, ← hfront, List.length_append,
        Nat.add_sub_cancel, List.take_left]
    rw [htake, ← hfront, List.append_cancel_right_eq, Option.some.injEq, ← String.toList_inj,
      String.toList_ofList]
  · refine iff_of_false (by simp) fun hname => h ?_
    exact List.isSuffixOf_iff_suffix.mpr ⟨stem.toList, hname.symm⟩

/-- The names on the way from a root to the template file of a type. -/
def templatePath (type : String) : List String :=
  ((type ++ templateSuffix).toList.splitOn '/').map String.ofList

section TemplatePath

variable {type : String} {names : List String}

theorem templatePath_ne_nil (type : String) : templatePath type ≠ [] := by
  simp [templatePath]

theorem templatePath_injective {type' : String} (h : templatePath type = templatePath type') :
    type = type' := by
  have hparts := (List.map_inj_right fun _ _ => String.ofList_injective).mp h
  have hjoined := congrArg ['/'].intercalate hparts
  rw [List.intercalate_splitOn, List.intercalate_splitOn, String.toList_append, String.toList_append,
    List.append_cancel_right_eq] at hjoined
  exact String.toList_inj.mp hjoined

/-- Only the last part of a type differs from the way to its file. -/
theorem exists_templatePath_eq (type : String) : ∃ ps p, type.toList.splitOn '/' = ps ++ [p] ∧
    templatePath type = ps.map String.ofList ++ [String.ofList p ++ templateSuffix] := by
  have hsuffix : '/' ∉ templateSuffix.toList := by decide
  obtain ⟨ps, p, hsplit, happend⟩ := Text.exists_splitOn_append hsuffix type.toList
  refine ⟨ps, p, hsplit, ?_⟩
  rw [templatePath, String.toList_append, happend, List.map_append, List.map_singleton,
    String.ofList_append, String.ofList_toList]

theorem templateType?_eq_some_iff (hslash : ∀ name ∈ names, '/' ∉ name.toList) :
    templateType? names = some type ↔ names = templatePath type := by
  have hconcat : ∀ (init : List String) (name : String), templateType? (init ++ [name]) =
      (stem? templateSuffix name).map fun stem => "/".intercalate (init ++ [stem]) := by
    intro init name
    simp [templateType?]
  obtain ⟨ps, p, hsplit, hpath⟩ := exists_templatePath_eq type
  rw [hpath]
  constructor
  · intro h
    obtain rfl | ⟨init, name, rfl⟩ := List.eq_nil_or_concat' names
    · cases h
    · rw [hconcat] at h
      obtain ⟨stem, hstem, htype⟩ := Option.map_eq_some_iff.mp h
      rw [stem?_eq_some_iff] at hstem
      subst hstem
      have hparts : ∀ q ∈ (init ++ [stem]).map String.toList, '/' ∉ q := by
        intro q hq
        obtain ⟨part, hpart, rfl⟩ := List.mem_map.mp hq
        rcases List.mem_append.mp hpart with hinit | hlast
        · exact hslash part (List.mem_append_left _ hinit)
        · rw [List.mem_singleton.mp hlast]
          have hname := hslash (stem ++ templateSuffix) (by simp)
          rw [String.toList_append] at hname
          exact fun hmem => hname (List.mem_append_left _ hmem)
      have hsame := List.splitOn_intercalate '/' hparts (by simp)
      rw [← htype, String.toList_intercalate] at hsplit
      change (['/'].intercalate _).splitOn '/' = _ at hsplit
      rw [hsame, List.map_append, List.map_singleton, List.append_singleton_inj] at hsplit
      obtain ⟨rfl, rfl⟩ := hsplit
      simp
  · rintro rfl
    rw [hconcat, stem?_eq_some_iff.mpr rfl, Option.map_some, Option.some.injEq, ← String.toList_inj,
      String.toList_intercalate]
    have hmap : (ps.map String.ofList ++ [String.ofList p]).map String.toList = ps ++ [p] := by
      simp [Function.comp_def]
    rw [hmap, ← hsplit]
    exact List.intercalate_splitOn '/'

end TemplatePath

/-- The templates below a directory are the files at the paths of types. -/
theorem lookup_templatesBelow {depth : Nat} {root : Path} {t : Tree}
    {es : List (String × TemplateSource)} (h : t.WellNamed) (hes : templatesBelow depth root t = .ok es)
    (type : String) : es.lookup type =
      (t.file? (templatePath type)).map fun _ => .file (root.below (templatePath type)) := by
  have hmem : ∀ source, (type, source) ∈ es ↔
      (t.file? (templatePath type)).isSome ∧ source = .file (root.below (templatePath type)) := by
    intro source
    obtain ⟨found, hfound, rfl⟩ := map_eq_ok_iff.mp hes
    rw [List.mem_filterMap, ← Tree.mem_files_iff h]
    simp only [mem_of_filesBelow_eq_ok hfound]
    constructor
    · rintro ⟨names, hnames, htype⟩
      obtain ⟨type', htype', ⟨⟩⟩ := Option.map_eq_some_iff.mp htype
      have hpath := (templateType?_eq_some_iff (Tree.noSlash_of_mem_files h hnames)).mp htype'
      rw [← hpath]
      exact ⟨hnames, rfl⟩
    · rintro ⟨hnames, rfl⟩
      refine ⟨_, hnames, ?_⟩
      rw [(templateType?_eq_some_iff (Tree.noSlash_of_mem_files h hnames)).mpr rfl]
      rfl
  refine Option.ext fun source => ?_
  rw [lookup_eq_some_iff_mem fun source' hs hs' => ?_, hmem]
  · cases t.file? (templatePath type) <;> simp [eq_comm]
  · rw [((hmem _).mp hs).2, ((hmem _).mp hs').2]

def bundledEntry (e : String × String) : String × Tree :=
  ((Path.ofText e.1).name ++ templateSuffix, .file e.2.toUTF8.data.toList)

/-- The bundled templates in files. -/
def bundledFiles : Tree := .dir [("gates", .dir (bundled.map bundledEntry))]

/-- A directory of templates. -/
inductive Root
  | bundled
  | directory (path : Path)

namespace Root

/-- The files that the root stands in. Those that come with every library do not change. -/
def files (now : Tree) : Root → Tree
  | bundled => bundledFiles
  | directory _ => now

def path : Root → Path
  | bundled => { anchor := "/" }
  | directory path => path

def templateFile (root : Root) (type : String) : Path := root.path.below (templatePath type)

/-- Where the template of a type is, if the root has one. -/
def source (root : Root) (type : String) : TemplateSource :=
  match root with
  | bundled => .bundled ((Library.bundled.lookup type).getD "")
  | directory path => .file (path.below (templatePath type))

/-- The bytes of the template of a type, if the root has one. -/
def template? (now : Tree) (root : Root) (type : String) : Option (List UInt8) :=
  match (root.files now).locate root.path with
  | .ok t => t.file? (templatePath type)
  | .error _ => none

/-- The roots of a library, the bundled one before the others. -/
def all (roots : List Path) : List Root := bundled :: roots.map directory

/-- The first root that has a template of the type. -/
def provider? (now : Tree) (roots : List Path) (type : String) : Option Root :=
  (all roots).find? fun root => (root.template? now type).isSome

/-- The text of a type as it reads now. Only the first root that had it in `files` is tried. -/
def firstText (files : Tree) (roots : List Path) (now : Tree) (type : String) : Except Failure String :=
  match provider? files roots type with
  | none => .error (Cause.unknownType type)
  | some root =>
    match (root.files now).readText (root.templateFile type) with
    | .ok text => .ok text
    | .error e => .error (Cause.invalidTemplate type (e.message (root.templateFile type)))

variable {now : Tree} {root : Root} {roots : List Path} {type : String} {bs : List UInt8}

theorem template?_eq_some_iff : root.template? now type = some bs ↔
    ∃ t, (root.files now).locate root.path = .ok t ∧ t.subtree? (templatePath type) = some (.file bs) := by
  unfold template?
  cases (root.files now).locate root.path with
  | error e => simp
  | ok t => simp [Tree.file?_eq_some_iff]

/-- As long as nothing changes, the template is found by its path too. -/
theorem bytes_of_template? (h : root.template? now type = some bs)
    (hnames : ∀ name ∈ templatePath type, IsName name)
    (hshort : (root.templateFile type).isTooLong = false) :
    (root.files now).bytes (root.templateFile type) = .ok bs := by
  obtain ⟨t, hlocate, hentry⟩ := template?_eq_some_iff.mp h
  have hfile : (root.files now).locate (root.templateFile type) = .ok (.file bs) :=
    Tree.locate_below hlocate hentry hnames hshort
  rw [Tree.bytes, hfile]

theorem isTooLong_templateFile {path : Path} (hreadable : now.Readable path)
    (h : (directory path).template? now type = some bs) :
    ((directory path).templateFile type).isTooLong = false := by
  obtain ⟨t, hlocate, hentry⟩ := template?_eq_some_iff.mp h
  have hlocate' : now.locate path = .ok t := hlocate
  have hdir := hreadable.isDir
  rw [Tree.isDir, hlocate'] at hdir
  cases t with
  | file bs' => cases hdir
  | dir es =>
    have hlisted := Tree.mem_paths_of_subtree? (templatePath_ne_nil type) hentry
    exact hreadable.answers.2 es hlocate' _ hlisted

theorem provider?_eq (now : Tree) (roots : List Path) (type : String) :
    provider? now roots type =
      if (bundled.template? now type).isSome then some bundled
      else (roots.find? fun path => ((directory path).template? now type).isSome).map directory := by
  unfold provider? all
  rw [List.find?_cons, List.find?_map]
  cases (bundled.template? now type).isSome <;> rfl

end Root

section Bundled

variable {type text : String}

theorem templatePath_of_mem_bundled {e : String × String} (h : e ∈ bundled) :
    templatePath e.1 = ["gates", (bundledEntry e).1] := by
  have hall : ∀ e ∈ bundled, templatePath e.1 = ["gates", (bundledEntry e).1] := by decide +kernel
  exact hall e h

theorem distinct_bundledEntry : ((bundled.map bundledEntry).map Prod.fst).Nodup := by decide +kernel

theorem wellNamed_bundledFiles : bundledFiles.WellNamed := by
  refine .dir (by decide) (by decide) fun e he => ?_
  rw [List.mem_singleton.mp he]
  refine .dir (by decide +kernel) distinct_bundledEntry fun e he => ?_
  obtain ⟨e', -, rfl⟩ := List.mem_map.mp he
  exact .file _

theorem files_bundledFiles : bundledFiles.files = bundled.map fun e => templatePath e.1 := by
  have hfiles : ∀ e ∈ bundled, (bundledEntry e).2.files.map ((bundledEntry e).1 :: ·) =
      [[(bundledEntry e).1]] := by
    intro e _
    rw [bundledEntry, Tree.files]
    rfl
  rw [bundledFiles, Tree.files_dir, List.flatMap_singleton, Tree.files_dir, List.flatMap_map,
    List.flatMap_congr hfiles, List.map_flatMap]
  refine List.map_eq_flatMap.symm.trans (List.map_congr_left fun e he => ?_)
  exact (templatePath_of_mem_bundled he).symm

theorem isSome_template?_bundled (now : Tree) (type : String) :
    (Root.bundled.template? now type).isSome ↔ (bundled.lookup type).isSome := by
  change (bundledFiles.file? (templatePath type)).isSome ↔ _
  rw [← Tree.mem_files_iff wellNamed_bundledFiles, files_bundledFiles, lookup_isSome_iff_mem,
    List.mem_map, List.mem_map]
  exact exists_congr fun e => and_congr_right fun _ => ⟨templatePath_injective, congrArg templatePath⟩

theorem template?_bundled (h : bundled.lookup type = some text) (now : Tree) :
    Root.bundled.template? now type = some text.toUTF8.data.toList := by
  have hmem := mem_of_lookup_eq_some h
  have hentry : (bundled.map bundledEntry).lookup (bundledEntry (type, text)).1 =
      some (bundledEntry (type, text)).2 :=
    (Tree.lookup_eq_some_iff_of_distinct distinct_bundledEntry).mpr (List.mem_map.mpr ⟨_, hmem, rfl⟩)
  change bundledFiles.file? (templatePath type) = _
  rw [templatePath_of_mem_bundled hmem, Tree.file?_cons]
  change (Tree.dir (bundled.map bundledEntry)).file? _ = _
  rw [Tree.file?_cons, Tree.entries, hentry]
  rfl

theorem lookup_onlyBundled (type : String) :
    onlyBundled.index.lookup type = (bundled.lookup type).map .bundled := by
  rw [onlyBundled, lookup_extend, List.lookup_nil, Option.none_or]
  induction bundled with
  | nil => rfl
  | cons e es ih =>
    rw [List.map_cons, List.lookup_cons, List.lookup_cons, ih]
    cases type == e.1 <;> rfl

theorem noReturn_of_mem_bundled {e : String × String} (h : e ∈ bundled) : '\r' ∉ e.2.toList := by
  have hlines : ∀ e ∈ bundled, ∃ ls : List String, (∀ l ∈ ls, '\r' ∉ l.toList) ∧
      e.2 = String.join (ls.map (· ++ "\n")) := by
    simp only [bundled, List.forall_mem_cons]
    refine ⟨⟨_, ?_, rfl⟩, ⟨_, ?_, rfl⟩, ⟨_, ?_, rfl⟩, ⟨_, ?_, rfl⟩, ⟨_, ?_, rfl⟩, by simp⟩
    all_goals decide +kernel
  obtain ⟨ls, hls, htext⟩ := hlines e h
  rw [htext, String.toList_join]
  simpa using hls

theorem bytes_bundled (h : bundled.lookup type = some text) (now : Tree) :
    (Root.bundled.files now).bytes (Root.bundled.templateFile type) =
      .ok text.toUTF8.data.toList := by
  have hall : ∀ e ∈ bundled, (∀ name ∈ templatePath e.1, IsName name) ∧
      (Root.bundled.templateFile e.1).isTooLong = false := by decide +kernel
  obtain ⟨hnames, hshort⟩ := hall (type, text) (mem_of_lookup_eq_some h)
  exact Root.bytes_of_template? (template?_bundled h now) hnames hshort

theorem readText_bundled (h : bundled.lookup type = some text) (now : Tree) :
    (Root.bundled.files now).readText (Root.bundled.templateFile type) = .ok text := by
  have hreturn := noReturn_of_mem_bundled (mem_of_lookup_eq_some h)
  simp only [Tree.readText, bytes_bundled h, Text.Utf8.decode_toUTF8,
    Text.unifyNewlines_of_no_return hreturn, String.ofList_toList]

end Bundled

/-- `l` holds the templates of the bundled root and of the directories `roots`, as these were in `files`. -/
structure Indexes (files : Tree) (roots : List Path) (l : Library) : Prop where
  increasing : l.types.Pairwise (· < ·)
  mem_types : ∀ type, type ∈ l.types ↔ ∃ root ∈ Root.all roots, (root.template? files type).isSome
  /-- Which root provides a template does not depend on what becomes of the files. -/
  text : ∀ type now, l.text now type = Root.firstText files roots now type
  bytes : ∀ type, ∀ root ∈ Root.all roots, ∀ bs, root.template? files type = some bs →
    (∀ name ∈ templatePath type, IsName name) → (root.files files).bytes (root.templateFile type) = .ok bs

section Roots

variable {depth : Nat} {files : Tree} {l l' : Library} {root : Path} {roots : List Path}

theorem nodup_extend (h : (l.index.map Prod.fst).Nodup) (es : List (String × TemplateSource)) :
    ((l.extend es).index.map Prod.fst).Nodup := by
  unfold extend
  refine List.foldlRecOn (motive := fun index : List (String × TemplateSource) =>
    (index.map Prod.fst).Nodup) es _ h ?_
  intro index hindex e _
  split_ifs with hknown
  · exact hindex
  · rw [lookup_isSome_iff_mem] at hknown
    rw [List.map_append, List.map_singleton, ← List.concat_eq_append]
    exact hindex.concat hknown

theorem nodup_addRoots (hl : roots.foldlM (addRoot depth files) l = .ok l')
    (h : (l.index.map Prod.fst).Nodup) : (l'.index.map Prod.fst).Nodup := by
  induction roots generalizing l with
  | nil =>
    cases hl
    exact h
  | cons root roots ih =>
    obtain ⟨l₁, hroot, hroots⟩ := addRoots_cons_eq_ok.mp hl
    obtain ⟨t, es, -, -, rfl⟩ := addRoot_eq_ok hroot
    exact ih hroots (nodup_extend h es)

theorem pairwise_types (h : (l.index.map Prod.fst).Nodup) : l.types.Pairwise (· < ·) := by
  have hsorted : l.types.Pairwise fun a b => decide (¬b < a) = true := by
    refine List.pairwise_mergeSort ?_ ?_ _
    · intro a b c hab hbc
      simp only [String.not_lt, decide_eq_true_eq] at hab hbc ⊢
      exact String.le_trans hab hbc
    · intro a b
      simpa only [String.not_lt, Bool.or_eq_true, decide_eq_true_eq] using String.le_total a b
  have hdistinct : l.types.Nodup := (List.mergeSort_perm _ _).nodup_iff.mpr h
  refine (hsorted.and hdistinct).imp ?_
  rintro a b ⟨hle, hne⟩
  rw [decide_eq_true_eq, String.not_lt] at hle
  by_contra hlt
  exact hne (String.le_antisymm hle (String.not_lt.mp hlt))

theorem lookup_addRoot (hnames : files.WellNamed) (h : addRoot depth files l root = .ok l')
    (type : String) : l'.index.lookup type = (l.index.lookup type).or
      (((Root.directory root).template? files type).map fun _ =>
        .file ((Root.directory root).templateFile type)) := by
  obtain ⟨t, es, hlocate, hes, rfl⟩ := addRoot_eq_ok h
  have htemplate : (Root.directory root).template? files type = t.file? (templatePath type) := by
    change (match files.locate root with | .ok t => _ | .error _ => none) = _
    rw [hlocate]
  rw [lookup_extend, lookup_templatesBelow (Tree.wellNamed_of_locate hnames hlocate) hes, htemplate]
  rfl

theorem lookup_addRoots (hnames : files.WellNamed) (h : roots.foldlM (addRoot depth files) l = .ok l')
    (type : String) : l'.index.lookup type = (l.index.lookup type).or
      ((roots.find? fun root => ((Root.directory root).template? files type).isSome).map fun root =>
        .file ((Root.directory root).templateFile type)) := by
  induction roots generalizing l with
  | nil =>
    cases h
    exact Option.or_none.symm
  | cons root roots ih =>
    obtain ⟨l₁, hroot, hroots⟩ := addRoots_cons_eq_ok.mp h
    rw [ih hroots, lookup_addRoot hnames hroot, Option.or_assoc, List.find?_cons]
    cases (Root.directory root).template? files type <;> rfl

/-- The first root with a template of the type is where the index finds it. -/
theorem lookup_ofRoots (hnames : files.WellNamed) (h : ofRoots depth files roots = .ok l) (type : String) :
    l.index.lookup type = (Root.provider? files roots type).map (·.source type) := by
  rw [lookup_addRoots hnames h, lookup_onlyBundled, Root.provider?_eq]
  have hbundled := isSome_template?_bundled files type
  cases hlookup : bundled.lookup type with
  | some text =>
    rw [hlookup, Option.isSome_some] at hbundled
    rw [if_pos (hbundled.mpr rfl)]
    simp only [Option.map_some, Option.some_or, Root.source, hlookup, Option.getD_some]
  | none =>
    rw [hlookup, Option.isSome_none] at hbundled
    rw [if_neg (mt hbundled.mp Bool.false_ne_true), Option.map_none, Option.none_or, Option.map_map]
    rfl

theorem text_ofRoots (hnames : files.WellNamed) (h : ofRoots depth files roots = .ok l) (type : String)
    (now : Tree) : l.text now type = Root.firstText files roots now type := by
  unfold Library.text Root.firstText
  rw [lookup_ofRoots hnames h]
  cases hprovider : Root.provider? files roots type with
  | none => rfl
  | some root =>
    cases root with
    | directory path => rfl
    | bundled =>
      have htemplate := List.find?_some hprovider
      obtain ⟨text, htext⟩ := Option.isSome_iff_exists.mp ((isSome_template?_bundled _ _).mp htemplate)
      simp only [Option.map_some, Root.source, readText_bundled htext, htext, Option.getD_some]

theorem mem_types_ofRoots (hnames : files.WellNamed) (h : ofRoots depth files roots = .ok l)
    (type : String) :
    type ∈ l.types ↔ ∃ root ∈ Root.all roots, (root.template? files type).isSome := by
  rw [mem_types_iff, lookup_ofRoots hnames h, Option.isSome_map, Root.provider?, List.find?_isSome]

/-- A library of readable roots that the walk can get through holds just what is in them. For any other readable
roots there is no library. -/
theorem ofRoots_indexes (depth : Nat) (hnames : files.WellNamed)
    (hreadable : ∀ root ∈ roots, files.Readable root) :
    ((∀ root ∈ roots, files.Shallow depth root) →
      ∃ l, ofRoots depth files roots = .ok l ∧ Indexes files roots l) ∧
    ((∃ root ∈ roots, ¬files.Shallow depth root) →
      ofRoots depth files roots = .error (.fault .nestedTooDeeply)) := by
  refine ⟨fun hshallow => ?_, ofRoots_of_not_shallow hreadable⟩
  obtain ⟨l, hl⟩ : ∃ l, ofRoots depth files roots = .ok l :=
    exists_ofRoots_iff.mpr fun root hroot => ⟨hreadable root hroot, hshallow root hroot⟩
  have hnodup : (l.index.map Prod.fst).Nodup :=
    nodup_addRoots hl (nodup_extend (l := ⟨[]⟩) List.nodup_nil _)
  refine ⟨l, hl, pairwise_types hnodup, mem_types_ofRoots hnames hl, text_ofRoots hnames hl, ?_⟩
  intro type root hroot bs hbs hpath
  rcases List.mem_cons.mp hroot with rfl | hroot
  · obtain ⟨text, htext⟩ := Option.isSome_iff_exists.mp
      ((isSome_template?_bundled files type).mp (Option.isSome_of_mem hbs))
    rw [template?_bundled htext, Option.some.injEq] at hbs
    rw [← hbs, bytes_bundled htext]
  · obtain ⟨path, hpathmem, rfl⟩ := List.mem_map.mp hroot
    exact Root.bytes_of_template? hbs hpath (Root.isTooLong_templateFile (hreadable path hpathmem) hbs)

end Roots

/-- Two roots with the same type, which cannot be read in the first. In a directory that is called like a template
there is a file without a name of its own. -/
def layered : Tree := .dir [("", .dir [("", .dir [
  ("first", .dir [("t.cic", .file [0xFF]), ("d.cic", .dir [(".cic", .file [])])]),
  ("second", .dir [("t.cic", .file [])])])])]

theorem wellNamed_layered : layered.WellNamed := by
  have hfirst : Tree.WellNamed (.dir [("t.cic", .file [0xFF]), ("d.cic", .dir [(".cic", .file [])])]) := by
    refine .dir (by decide) (by decide) (List.forall_mem_cons.mpr ⟨.file _, ?_⟩)
    exact List.forall_mem_singleton.mpr
      (.dir (by decide) (by decide) (List.forall_mem_singleton.mpr (.file _)))
  have hsecond : Tree.WellNamed (.dir [("t.cic", .file [])]) :=
    .dir (by decide) (by decide) (List.forall_mem_singleton.mpr (.file _))
  refine .dir (by decide) (by decide) (List.forall_mem_singleton.mpr ?_)
  refine .dir (by decide) (by decide) (List.forall_mem_singleton.mpr ?_)
  refine .dir (by decide) (by decide) (List.forall_mem_cons.mpr ⟨hfirst, ?_⟩)
  exact List.forall_mem_singleton.mpr hsecond

theorem walkable_layered :
    ∀ root ∈ [Path.ofText "first", .ofText "second"], layered.Walkable usualDepth root := by
  have hfirst : Reaches usualDepth (.ofText "first")
      (.dir [("t.cic", .file [0xFF]), ("d.cic", .dir [(".cic", .file [])])]) := by
    intro names hnames
    simp only [Tree.paths_dir, Tree.paths, List.flatMap_cons, List.flatMap_nil, List.map_nil,
      List.map_cons, List.append_nil, List.cons_append, List.nil_append] at hnames
    revert names
    decide +kernel
  have hsecond : Reaches usualDepth (.ofText "second") (.dir [("t.cic", .file [])]) := by
    intro names hnames
    simp only [Tree.paths_dir, Tree.paths, List.flatMap_cons, List.flatMap_nil, List.map_nil,
      List.append_nil] at hnames
    revert names
    decide +kernel
  refine List.forall_mem_cons.mpr ⟨?_, List.forall_mem_singleton.mpr ?_⟩
  · exact Tree.walkable_iff.mpr ⟨(reaches_iff (by rfl)).mp hfirst, by decide +kernel⟩
  · exact Tree.walkable_iff.mpr ⟨(reaches_iff (by rfl)).mp hsecond, by decide +kernel⟩

theorem wellNamed_sunken (n : Nat) : (Tree.sunken n).WellNamed := by
  have hnested : (Tree.nested n).WellNamed := by
    induction n with
    | zero => exact .dir (by simp) (by simp) (by simp)
    | succ n ih => exact .dir (by simp) (by simp) (List.forall_mem_singleton.mpr ih)
  refine .dir (by simp) (by simp) (List.forall_mem_singleton.mpr ?_)
  exact .dir (by simp) (by simp) (List.forall_mem_singleton.mpr hnested)

theorem ofRoots_indexes_layered :
    (∃ l, ofRoots usualDepth layered [.ofText "first", .ofText "second"] = .ok l ∧ "d.cic/" ∈ l.types ∧
      l.text layered "t" = .error (Cause.invalidTemplate "t"
        "'utf-8' codec can't decode byte 0xff in position 0: invalid start byte") ∧
      l.text layered "d.cic" = .error (Cause.unknownType "d.cic")) ∧
    (Tree.sunken (usualDepth + 1)).Readable ⟨"", []⟩ ∧
    ofRoots usualDepth (Tree.sunken (usualDepth + 1)) [⟨"", []⟩] = .error (.fault .nestedTooDeeply) := by
  constructor
  · obtain ⟨hindexes, -⟩ := ofRoots_indexes usualDepth wellNamed_layered
      fun root hroot => (walkable_layered root hroot).toReadable
    obtain ⟨l, hl, h⟩ := hindexes fun root hroot => (walkable_layered root hroot).shallow
    refine ⟨l, hl, ?_, ?_, ?_⟩
    · rw [h.mem_types]
      exact ⟨.directory (.ofText "first"), by simp [Root.all], by decide +kernel⟩
    · rw [h.text]
      decide +kernel
    · rw [h.text]
      decide +kernel
  · have hreadable : (Tree.sunken (usualDepth + 1)).Readable ⟨"", []⟩ := Tree.readable_sunken (by decide)
    obtain ⟨-, hrefused⟩ := ofRoots_indexes usualDepth (wellNamed_sunken (usualDepth + 1))
      (List.forall_mem_singleton.mpr hreadable)
    exact ⟨hreadable, hrefused ⟨_, List.mem_singleton_self _, Tree.not_shallow_sunken (Nat.lt_succ_self _)⟩⟩

end Library
end Schematic
