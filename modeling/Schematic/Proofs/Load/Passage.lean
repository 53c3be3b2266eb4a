import Schematic.Load.Project
import Schematic.Proofs.Circuit.Resolution
import Schematic.Proofs.Layout.Flattening
import Schematic.Proofs.Layout.WireLetter
import Schematic.Proofs.Source.Declared

/-! The way of a project through the stages of a load. Main statements: every loaded project has such a
way, and is valid at its end. -/
namespace Schematic
open Schematic.Files

/-- What a load that gives the project `p` has read, and what each stage has made of it. -/
structure Passage (files : Tree) (input : Source.Input) (options : LoadOptions)
    (library? : Option Library) (p : Project) where
  source : List Component
  library : Library
  sized : List Component
  lettered : List Component
  flat : List Component
  connected : List Pin
  start : LoadState
  sizedState : LoadState
  letteredState : LoadState
  validState : LoadState
  flatState : LoadState
  read_eq : input.read files = .ok source
  canvas_eq : soleCanvas source = .ok p.canvas
  library_eq : library?.elim (Library.ofRoots options.walkDepth files options.roots) .ok = .ok library
  start_templates : start.templates = []
  size_eq : sizeAll (library.template files) p.canvas source start = ⟨sized, sizedState, none⟩
  letter_eq : letterAll sized sizedState = ⟨lettered, letteredState, none⟩
  validate_eq : validateAll p.canvas options.viewport lettered letteredState =
    ⟨lettered, validState, none⟩
  expand_eq : expandAll (library.template files) lettered validState = ⟨flat, flatState, none⟩
  resolves : Resolves flat connected p.components

theorem Stage.run_eq_ok {x : StageContext} {stage : Stage} {cs ds : List Component}
    {s s' : LoadState} : stage.run x cs s = .ok ds s' ↔ stage.apply x cs s = ⟨ds, s', none⟩ := by
  unfold run
  cases h : stage.apply x cs s with
  | mk items state failure => cases failure <;> simp

theorem validateAll_eq_ok {canvas : Canvas} {viewport : Option Vec} {cs ds : List Component}
    {s s' : LoadState} (read : TemplateReader)
    (h : validateAll canvas viewport cs s = ⟨ds, s', none⟩) :
    s.Grows read s' ∧ s'.templates = s.templates ∧ ds = cs ∧ validate cs canvas viewport = .ok () := by
  unfold validateAll at h
  split at h
  · cases h
  · next hv =>
    cases h
    exact ⟨.add_log read s _ _, rfl, rfl, hv⟩

/-- The pins of an expanded schematic are pins of it, or come from the templates of its chips. -/
theorem mem_pins_flatten_blocks {templateOf : String → List Pin} {cs : List Component} {q : Pin}
    (h : q ∈ pins (blocks templateOf cs).flatten) : .pin q ∈ cs ∨
      ∃ c index, .chip c ∈ cs ∧ q ∈ c.expand (templateOf c.type) index := by
  rcases exists_of_mem_flatten_blocks (mem_pins.mp h) with ⟨hq, -⟩ | ⟨c, index, r, hc, hr, he⟩
  · exact .inl hq
  · cases he
    exact .inr ⟨c, index, hc, hr⟩

section Load

variable {files : Tree} {input : Source.Input} {options : LoadOptions}
  {library? : Option Library} {log : Log} {p : Project}

theorem runAll_inOrder_eq_ok {x : StageContext} {cs ds : List Component} {s s' : LoadState}
    (h : Stage.runAll x Stage.inOrder cs s = .ok ds s') :
    ∃ sized s₁ lettered s₂ valid s₃ flat s₄,
      sizeAll x.read x.canvas cs s = ⟨sized, s₁, none⟩ ∧
      letterAll sized s₁ = ⟨lettered, s₂, none⟩ ∧
      validateAll x.canvas x.viewport lettered s₂ = ⟨valid, s₃, none⟩ ∧
      expandAll x.read valid s₃ = ⟨flat, s₄, none⟩ ∧ resolveAll flat s₄ = ⟨ds, s', none⟩ := by
  obtain ⟨sized, s₁, h₁, h⟩ := bind_eq_ok_iff.mp h
  obtain ⟨lettered, s₂, h₂, h⟩ := bind_eq_ok_iff.mp h
  obtain ⟨valid, s₃, h₃, h⟩ := bind_eq_ok_iff.mp h
  obtain ⟨flat, s₄, h₄, h⟩ := bind_eq_ok_iff.mp h
  obtain ⟨resolved, s₅, h₅, h⟩ := bind_eq_ok_iff.mp h
  obtain ⟨rfl, rfl⟩ := Loader.pure_eq_ok.mp h
  exact ⟨sized, s₁, lettered, s₂, valid, s₃, flat, s₄, Stage.run_eq_ok.mp h₁,
    Stage.run_eq_ok.mp h₂, Stage.run_eq_ok.mp h₃, Stage.run_eq_ok.mp h₄, Stage.run_eq_ok.mp h₅⟩

/-- The library that a load uses. -/
def chosenLibrary (files : Tree) (options : LoadOptions) (library? : Option Library) :
    Except Failure Library := library?.elim (Library.ofRoots options.walkDepth files options.roots) .ok

theorem assemble_eq (files : Tree) (input : Source.Input) (options : LoadOptions)
    (library? : Option Library) : assemble files input options library? = (do
      let cs ← Loader.ofExcept (input.read files)
      Loader.log .debug ("parsed " ++ toString cs.length ++ " objects")
      let canvas ← Loader.ofExcept (soleCanvas cs)
      let library ← Loader.ofExcept (chosenLibrary files options library?)
      let flat ← Stage.runAll ⟨library.template files, canvas, options.viewport⟩ Stage.inOrder cs
      Loader.log .info ("loaded " ++ toString flat.length ++ " objects on a " ++
        canvas.bounds.describeExtent ++ " canvas")
      pure ⟨canvas, flat⟩) := by
  unfold assemble
  cases library? <;> rfl

theorem assemble_eq_ok {s' : LoadState}
    (h : assemble files input options library? { log } = .ok p s') :
    ∃ t : Passage files input options library? p,
      s'.warnings = (Pin.settleAll t.connected).2.warnings := by
  rw [assemble_eq] at h
  obtain ⟨source, s₁, hinput, h⟩ := bind_eq_ok_iff.mp h
  obtain ⟨hread, rfl⟩ := Loader.ofExcept_eq_ok.mp hinput
  obtain ⟨⟨⟩, start, hstart, h⟩ := bind_eq_ok_iff.mp h
  obtain ⟨canvas, s₂, hsole, h⟩ := bind_eq_ok_iff.mp h
  obtain ⟨hcanvas, rfl⟩ := Loader.ofExcept_eq_ok.mp hsole
  obtain ⟨library, s₃, hchosen, h⟩ := bind_eq_ok_iff.mp h
  obtain ⟨hlibrary, rfl⟩ := Loader.ofExcept_eq_ok.mp hchosen
  obtain ⟨components, s₃, hstages, h⟩ := bind_eq_ok_iff.mp h
  obtain ⟨⟨⟩, s₄, hend, h⟩ := bind_eq_ok_iff.mp h
  obtain ⟨rfl, rfl⟩ := Loader.pure_eq_ok.mp h
  obtain ⟨sized, s₁, lettered, s₂, valid, s₃, flat, s₄, hsize, hletter, hvalidate, hexpand,
    hresolve⟩ := runAll_inOrder_eq_ok hstages
  obtain ⟨hg₁, -, -⟩ := sizeAll_eq_ok hsize
  obtain ⟨hg₂, -, -⟩ := letterAll_eq_ok (library.template files) hletter
  obtain ⟨hg₃, -, rfl, -⟩ := validateAll_eq_ok (library.template files) hvalidate
  obtain ⟨hg₄, -, -⟩ := expandAll_eq_ok hexpand
  obtain ⟨connected, hresolves, hwarnings⟩ := resolveAll_eq_ok hresolve
  have hquiet := (((hg₁.trans hg₂).trans hg₃).trans hg₄).warnings
  cases hstart
  cases hend
  refine ⟨⟨source, library, sized, _, flat, connected, _, s₁, s₂, s₃, s₄, hread, hcanvas, hlibrary,
    rfl, hsize, hletter, hvalidate, hexpand, hresolves⟩, ?_⟩
  rw [hquiet, List.nil_append] at hwarnings
  exact hwarnings

/-- A load that gives a project got to its end. -/
theorem assemble_of_load (h : (load files input options library? log).project = .ok (some p)) :
    ∃ s', assemble files input options library? { log } = .ok p s' := by
  unfold load at h
  split at h
  · next p' s' ha =>
    cases h
    exact ⟨s', ha⟩
  · cases h
  · dsimp only at h
    split at h <;> cases h

theorem exists_passage (h : (load files input options library? log).project = .ok (some p)) :
    ∃ t : Passage files input options library? p,
      (load files input options library? log).warnings =
        (Pin.settleAll t.connected).2.warnings := by
  obtain ⟨s', ha⟩ := assemble_of_load h
  unfold load
  rw [ha]
  exact assemble_eq_ok ha

end Load

/-- Two buffers, the first of them on a wire from the rail. -/
def buffers : Source.Input := .text (String.join [
  ":meta bounds 4 5\n",
  ":net type vcc y 0\n",
  ":chip type gates/buf pos 1 1\n",
  ":wire color red from 1 3 to 3 0\n",
  ":chip type gates/buf pos 2 1\n"])

/-- The pins of a buffer, as a load leaves them. -/
def bufferPins (ending : String) (x line : Int) (input output : Voltage) : List Component := [
  .pin ⟨"a" ++ ending, {}, input, .single ⟨x, 3⟩, some 1, some ⟨line, none⟩⟩,
  .pin ⟨"y" ++ ending, ⟨.gate .and, ["a" ++ ending]⟩, output, .single ⟨x, 1⟩, some 2,
    some ⟨line, none⟩⟩]

def bufferProject : Project where
  canvas := ⟨⟨4, 5⟩, some ⟨1, none⟩⟩
  components := [
      .canvas ⟨⟨4, 5⟩, some ⟨1, none⟩⟩,
      .net ⟨"vcc", ⟨⟨0, 0⟩, ⟨4, 1⟩⟩, some ⟨2, none⟩⟩] ++
    bufferPins "_buf_1" 1 3 .high .high ++
    .wire ⟨some .red, ⟨1, 3⟩, ⟨3, 0⟩, "a", some ⟨4, none⟩⟩ ::
    bufferPins "_buf_2" 2 5 .floating .low

theorem load_buffers : (load .fresh buffers {} none []).project = .ok (some bufferProject) ∧
    (load .fresh buffers {} none []).warnings = [] := by decide +kernel

namespace Passage

variable {files : Tree} {input : Source.Input} {options : LoadOptions}
  {library? : Option Library} {p : Project} (t : Passage files input options library? p)

/-- The template that the load has used for a type. -/
def templateOf (type : String) : List Pin := t.flatState.templateOf type

theorem grows_expand : t.sizedState.Grows (t.library.template files) t.flatState := by
  obtain ⟨hg₁, -, -⟩ := letterAll_eq_ok (t.library.template files) t.letter_eq
  obtain ⟨hg₂, -, -⟩ := validateAll_eq_ok (t.library.template files) t.validate_eq
  obtain ⟨hg₃, -, -⟩ := expandAll_eq_ok t.expand_eq
  exact (hg₁.trans hg₂).trans hg₃

theorem forall_start_templates (P : List Pin → Prop) : ∀ e ∈ t.start.templates, P e.2 := by
  rw [t.start_templates]
  simp

theorem mem_sized_of_mem_lettered {c : Component} (hc : c.wire? = none) (h : c ∈ t.lettered) :
    c ∈ t.sized := by
  obtain ⟨-, -, hl⟩ := letterAll_eq_ok (t.library.template files) t.letter_eq
  exact mem_of_map_unlettered_eq hl hc h

theorem sized_eq :
    t.sized = t.source.map (Component.resize t.sizedState.templateOf p.canvas.bounds) := by
  obtain ⟨-, -, hs⟩ := sizeAll_eq_ok t.size_eq
  exact hs

theorem flat_eq : t.flat = (blocks t.templateOf t.lettered).flatten := by
  obtain ⟨-, -, hf⟩ := expandAll_eq_ok t.expand_eq
  exact hf

/-- Sizes and letters are nothing to the pins that chips expand to. -/
theorem pins_flat : pins t.flat = pins (blocks t.templateOf t.source).flatten := by
  obtain ⟨-, -, hletters⟩ := letterAll_eq_ok (t.library.template files) t.letter_eq
  have hunlettered : ∀ cs, pins (blocksFrom t.templateOf [] (cs.map Component.unlettered)).flatten =
      pins (blocksFrom t.templateOf [] cs).flatten :=
    pins_flatten_blocksFrom_map Component.chipType?_unlettered Component.pins_block_unlettered []
  rw [t.flat_eq, blocks, ← hunlettered, hletters, hunlettered, t.sized_eq, blocks]
  exact pins_flatten_blocksFrom_map (Component.chipType?_resize _ _) (pins_block_resize _ _) [] t.source

theorem chipTypes_lettered : chipTypes t.lettered = chipTypes t.source := by
  obtain ⟨-, -, hletters⟩ := letterAll_eq_ok (t.library.template files) t.letter_eq
  rw [chipTypes_of_map_unlettered_eq hletters, t.sized_eq,
    chipTypes_map (Component.chipType?_resize _ _)]

theorem validate_lettered : validate t.lettered p.canvas options.viewport = .ok () := by
  obtain ⟨-, -, -, hv⟩ := validateAll_eq_ok (t.library.template files) t.validate_eq
  exact hv

theorem knowsAll_lettered : t.flatState.KnowsAll t.lettered := by
  obtain ⟨-, hk, -⟩ := expandAll_eq_ok t.expand_eq
  exact hk

/-- Every template that a load uses is one that its library gives. -/
theorem template_eq {type : String} (h : type ∈ chipTypes t.lettered) :
    t.library.template files type = .ok (t.templateOf type) := by
  obtain ⟨hgrows, -, -⟩ := sizeAll_eq_ok t.size_eq
  exact (hgrows.trans t.grows_expand).read_eq t.start_templates (t.knowsAll_lettered type h)

/-- Every pin is as some line declares it, or is the copy of such a pin in the expansion of a chip. -/
theorem exists_drafted {q : Pin} (hq : q ∈ pins t.flat) :
    ∃ a : Pin, a.Drafted ∧ (q = a ∨ ∃ (c : Chip) (index : Int), q ∈ c.expand [a] index) := by
  rw [t.pins_flat] at hq
  rcases mem_pins_flatten_blocks hq with hfree | ⟨c, index, hc, hexpand⟩
  · obtain ⟨hd, -⟩ := Source.declared_of_read t.read_eq _ hfree
    exact ⟨q, hd.1, .inl rfl⟩
  · obtain ⟨a, ha, rfl⟩ := List.mem_map.mp hexpand
    have htype : c.type ∈ chipTypes t.lettered := by
      rw [t.chipTypes_lettered]
      exact mem_chipTypes hc
    have hd := Library.drafted_of_template (t.template_eq htype) a ha
    exact ⟨a, hd, .inr ⟨c, index, List.mem_singleton.mpr rfl⟩⟩

theorem fitsTemplate {c : Component} (h : c ∈ t.lettered) : c.FitsTemplate t.templateOf := by
  obtain ⟨hknows, hfits⟩ := fitsTemplate_of_sizeAll (t.forall_start_templates IsTemplate) t.size_eq
  cases c with
  | chip c =>
    have hsized := t.mem_sized_of_mem_lettered rfl h
    have hsame := t.grows_expand.templateOf_eq (hknows c.type (mem_chipTypes hsized))
    change IsTemplate (t.flatState.templateOf c.type) ∧
      c.SizedFor (t.flatState.templateOf c.type)
    rw [hsame]
    exact hfits _ hsized
  | canvas | net | pin | wire | foreign => trivial

theorem validate_flat : validate t.flat p.canvas options.viewport = .ok () := by
  rw [t.flat_eq]
  exact validate_flatten_blocks (fun c hc => t.fitsTemplate hc) t.validate_lettered

end Passage
end Schematic
