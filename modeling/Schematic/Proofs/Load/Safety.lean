import Schematic.Proofs.Library.Shadowing
import Schematic.Proofs.Load.Stages

/-! Safety of loads. Main statements: a load meets a fault in reading the project file or in putting the
library together, or not at all; a source text is loaded, or a diagnostic says why not, or the walk of a root has
given up. -/
namespace Schematic
open Schematic.Files

section Load

variable {files : Tree} {input : Source.Input} {options : LoadOptions} {library? : Option Library}
  {log : Log}

theorem ofExcept_eq_error {α : Type} {x : Except Failure α} {s s' : LoadState} {e : Failure} :
    Loader.ofExcept x s = .error e s' ↔ x = .error e ∧ s' = s := by
  cases x with
  | ok a => simp [Loader.ofExcept, pure, EStateM.pure]
  | error e' => simp [Loader.ofExcept, throw_apply, eq_comm]

theorem diagnosed_soleCanvas (cs : List Component) : Diagnosed (soleCanvas cs) := by
  unfold soleCanvas
  split
  · exact diagnosed_cause _
  · exact diagnosed_ok _
  · exact diagnosed_cause _

theorem load_eq_fault_iff {f : Fault} :
    (load files input options library? log).project = .error (.fault f) ↔
      ∃ s, assemble files input options library? { log } = .error (.fault f) s := by
  unfold load
  cases assemble files input options library? { log } with
  | ok p s => simp
  | error e s =>
    cases e with
    | fault f' => simp
    | diagnostic d => cases options.errorMode <;> simp

/-- A project that cannot be read is not loaded, for the same reason. -/
theorem load_of_read_eq_error {e : Failure} (h : input.read files = .error e) :
    (load files input { options with errorMode := .raise } library? log).project = .error e := by
  have hassemble : assemble files input { options with errorMode := .raise } library? { log } =
      .error e { log } := by
    rw [assemble_eq]
    exact bind_eq_error.mpr (.inl (ofExcept_eq_error.mpr ⟨h, rfl⟩))
  unfold load
  rw [hassemble]
  cases e <;> rfl

/-- A fault of a load is one of reading the project file, or of the library that it asks for. -/
theorem load_fault_iff {f : Fault} :
    (load files input options library? log).project = .error (.fault f) ↔
      input.read files = .error (.fault f) ∨
        ∃ cs canvas, input.read files = .ok cs ∧ soleCanvas cs = .ok canvas ∧
          chosenLibrary files options library? = .error (.fault f) := by
  rw [load_eq_fault_iff, assemble_eq]
  constructor
  · rintro ⟨s, h⟩
    rcases bind_eq_error.mp h with h | ⟨cs, _, hinput, h⟩
    · exact .inl (ofExcept_eq_error.mp h).1
    obtain ⟨hread, rfl⟩ := Loader.ofExcept_eq_ok.mp hinput
    rcases bind_eq_error.mp h with h | ⟨⟨⟩, _, -, h⟩
    · cases h
    rcases bind_eq_error.mp h with h | ⟨canvas, _, hsole, h⟩
    · exact absurd (ofExcept_eq_error.mp h).1 (diagnosed_soleCanvas cs f)
    obtain ⟨hcanvas, rfl⟩ := Loader.ofExcept_eq_ok.mp hsole
    rcases bind_eq_error.mp h with h | ⟨library, _, -, h⟩
    · exact .inr ⟨cs, canvas, hread, hcanvas, (ofExcept_eq_error.mp h).1⟩
    rcases bind_eq_error.mp h with h | ⟨flat, _, -, h⟩
    · exact absurd h (diagnoses_runAll (Library.diagnosed_template library files)
        (Source.declared_of_read hread) _ f s)
    · cases h
  · rintro (hread | ⟨cs, canvas, hread, hcanvas, hlibrary⟩)
    · rw [hread]
      exact ⟨_, rfl⟩
    · refine ⟨{ log := log.add .debug ("parsed " ++ toString cs.length ++ " objects") }, ?_⟩
      refine bind_eq_error.mpr (.inr ⟨cs, _, Loader.ofExcept_eq_ok.mpr ⟨hread, rfl⟩, ?_⟩)
      refine bind_eq_error.mpr (.inr ⟨(), _, rfl, ?_⟩)
      refine bind_eq_error.mpr (.inr ⟨canvas, _, Loader.ofExcept_eq_ok.mpr ⟨hcanvas, rfl⟩, ?_⟩)
      exact bind_eq_error.mpr (.inl (ofExcept_eq_error.mpr ⟨hlibrary, rfl⟩))

/-- Files that answer about every root leave a source text one fault to fail with, that of a root that is nested
too deeply. -/
theorem load_text_fault_iff {text : String} {f : Fault}
    (h : ∀ root ∈ options.roots, files.Answers root) :
    (load files (.text text) options library? log).project = .error (.fault f) ↔
      f = .nestedTooDeeply ∧ library? = none ∧ files.Refuses options.walkDepth options.roots ∧
        ∃ cs canvas, Source.readText none text = .ok cs ∧ soleCanvas cs = .ok canvas := by
  rw [load_fault_iff]
  change Source.readText none text = _ ∨ _ ↔ _
  cases library? with
  | some l =>
    refine iff_of_false ?_ (by simp)
    rintro (hread | ⟨_, _, -, -, hlibrary⟩)
    · exact Source.diagnosed_readText none text f hread
    · cases hlibrary
  | none =>
    have hroots : chosenLibrary files options none = .error (.fault f) ↔
        f = .nestedTooDeeply ∧ files.Refuses options.walkDepth options.roots :=
      Library.ofRoots_eq_fault_iff h
    constructor
    · rintro (hread | ⟨cs, canvas, hread, hcanvas, hlibrary⟩)
      · exact absurd hread (Source.diagnosed_readText none text f)
      · obtain ⟨hf, hrefuses⟩ := hroots.mp hlibrary
        exact ⟨hf, rfl, hrefuses, cs, canvas, hread, hcanvas⟩
    · rintro ⟨hf, -, hrefuses, cs, canvas, hread, hcanvas⟩
      exact .inr ⟨cs, canvas, hread, hcanvas, hroots.mpr ⟨hf, hrefuses⟩⟩

/-- The modes differ in what becomes of a diagnostic, and in nothing else. -/
theorem load_store_eq : (load files input { options with errorMode := .store } library? log).project =
    match (load files input { options with errorMode := .raise } library? log).project with
    | .error (.diagnostic _) => .ok none
    | answer => answer := by
  have hsame : assemble files input { options with errorMode := .store } library? { log } =
      assemble files input { options with errorMode := .raise } library? { log } := rfl
  unfold load
  rw [hsame]
  cases assemble files input { options with errorMode := .raise } library? { log } with
  | ok p s => rfl
  | error e s => cases e <;> rfl

theorem load_raise_ne_none :
    (load files input { options with errorMode := .raise } library? log).project ≠ .ok none := by
  unfold load
  split
  · simp
  · simp
  · simp

end Load

/-- Whatever the text and the templates hold, a load that raises gives a project or a diagnostic, and a load that
stores gives no failure: it gives the same projects, and none exactly where the other one raises. Both fail alike
where the text reads with its canvas and a root is nested too deeply to be walked. -/
theorem load_text_answers {files : Tree} {options : LoadOptions}
    (h : ∀ root ∈ options.roots, files.Answers root) (text : String) (library? : Option Library)
    (log : Log) :
    (∀ mode f, (load files (.text text) { options with errorMode := mode } library? log).project =
        .error (.fault f) ↔
      f = .nestedTooDeeply ∧ library? = none ∧ files.Refuses options.walkDepth options.roots ∧
        ∃ cs canvas, Source.readText none text = .ok cs ∧ soleCanvas cs = .ok canvas) ∧
    ((∃ p, (load files (.text text) { options with errorMode := .raise } library? log).project =
        .ok (some p)) ∨
      (∃ d, (load files (.text text) { options with errorMode := .raise } library? log).project =
        .error (.diagnostic d)) ∨
      (load files (.text text) { options with errorMode := .raise } library? log).project =
        .error (.fault .nestedTooDeeply)) ∧
    ((∃ p?, (load files (.text text) { options with errorMode := .store } library? log).project =
        .ok p?) ∨
      (load files (.text text) { options with errorMode := .store } library? log).project =
        .error (.fault .nestedTooDeeply)) ∧
    ((load files (.text text) { options with errorMode := .store } library? log).project = .ok none ↔
      ∃ d, (load files (.text text) { options with errorMode := .raise } library? log).project =
        .error (.diagnostic d)) ∧
    ∀ p, (load files (.text text) { options with errorMode := .store } library? log).project =
        .ok (some p) ↔
      (load files (.text text) { options with errorMode := .raise } library? log).project =
        .ok (some p) := by
  have hfault : ∀ mode f, (load files (.text text) { options with errorMode := mode } library? log).project =
      .error (.fault f) ↔ _ := fun mode f =>
    @load_text_fault_iff files { options with errorMode := mode } library? log text f h
  have hnone := @load_raise_ne_none files (.text text) options library? log
  refine ⟨hfault, ?_⟩
  rw [load_store_eq]
  cases hraise : (load files (.text text) { options with errorMode := .raise } library? log).project with
  | ok p? =>
    cases p? with
    | none => exact absurd hraise hnone
    | some p => simp
  | error e =>
    cases e with
    | fault f =>
      obtain ⟨rfl, -⟩ := (hfault .raise f).mp hraise
      simp
    | diagnostic d => simp

/-- A library with a template of one pin. -/
def oddLibrary : Tree := .dir [("", .dir [("", .dir [
  ("lib", .dir [("odd.cic", .file ":pin label 'a\n".toUTF8.toList)])])])]

/-- The root of the library of one pin. -/
def oddRoots : LoadOptions := { roots := [⟨"", ["lib"]⟩] }

theorem load_text_answers_odd :
    ((∀ root ∈ oddRoots.roots, oddLibrary.Answers root) ∧
      (load oddLibrary (.text ":meta bounds 4 5\n:chip type odd pos 1 1\n")
        { oddRoots with errorMode := .store } none []).project = .ok none) ∧
    (Tree.sunken (Library.usualDepth + 1)).Answers ⟨"", []⟩ ∧
      (load (.sunken (Library.usualDepth + 1)) (.text ":meta bounds 1 1\n")
        { roots := [⟨"", []⟩], errorMode := .store } none []).project =
          .error (.fault .nestedTooDeeply) := by
  constructor
  · have hwalkable : ∀ root ∈ oddRoots.roots, oddLibrary.Walkable oddRoots.walkDepth root :=
      Library.walkable_of_isSome (by decide +kernel)
    have hanswers : ∀ root ∈ oddRoots.roots, oddLibrary.Answers root := fun root hroot =>
      (hwalkable root hroot).answers
    have hraise : (load oddLibrary (.text ":meta bounds 4 5\n:chip type odd pos 1 1\n")
        { oddRoots with errorMode := .raise } none []).project =
          .error (Cause.invalidTemplate "odd" "odd number of pins (1)") := by decide +kernel
    obtain ⟨-, -, -, hnone, -⟩ :=
      load_text_answers hanswers ":meta bounds 4 5\n:chip type odd pos 1 1\n" none []
    exact ⟨hanswers, hnone.mpr ⟨_, hraise⟩⟩
  · have hreadable : (Tree.sunken (Library.usualDepth + 1)).Readable ⟨"", []⟩ :=
      Tree.readable_sunken (by decide)
    have hdeep : ¬(Tree.sunken (Library.usualDepth + 1)).Shallow Library.usualDepth ⟨"", []⟩ :=
      Tree.not_shallow_sunken (Nat.lt_succ_self _)
    have hroots : ∀ root ∈ ({ roots := [⟨"", []⟩] } : LoadOptions).roots,
        (Tree.sunken (Library.usualDepth + 1)).Answers root := List.forall_mem_singleton.mpr hreadable.answers
    obtain ⟨hfault, -⟩ := load_text_answers hroots ":meta bounds 1 1\n" none []
    refine ⟨hreadable.answers, (hfault .store .nestedTooDeeply).mpr ⟨rfl, rfl, ?_, ?_⟩⟩
    · exact ⟨[], _, [], rfl, by simp, fun h => hdeep h.2⟩
    · exact ⟨[.canvas ⟨⟨1, 1⟩, some ⟨1, none⟩⟩], ⟨⟨1, 1⟩, some ⟨1, none⟩⟩, by decide +kernel, by decide⟩

end Schematic
