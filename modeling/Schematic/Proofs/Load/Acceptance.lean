import Mathlib.Data.List.Perm.Basic
import Schematic.Proofs.Load.Completion
import Schematic.Proofs.Source.Lines

/-! Sources that load. What a load asks of a source is asked of its components in no order, and components
other than the canvas are never asked for. Main statement: whether a text loads depends only on its written
lines, in any order, and does not change for the worse when lines are left out that declare no canvas. -/
namespace Schematic
open Schematic.Files

/-- The extent that a canvas is declared with. -/
def Component.bounds? (c : Component) : Option Vec := c.canvas?.map Canvas.bounds

/-- What a load asks of the components of a source: one canvas, templates for all chips, letters for all
wires, and that the components are valid as they are sized. -/
structure Accepts (read : TemplateReader) (viewport : Option Vec) (cs : List Component)
    (bounds : Vec) : Prop where
  canvas : cs.filterMap Component.bounds? = [bounds]
  templates : ∀ type ∈ chipTypes cs, ∃ ps, read type = .ok ps
  letters : ∀ color, (wireColors cs).count color ≤ maxWiresPerColor
  valid : validate (cs.map (Component.resize (templateBy read) bounds)) { bounds } viewport = .ok ()

section Changes

variable {read : TemplateReader} {viewport : Option Vec} {cs ds : List Component} {bounds : Vec}

theorem Accepts.perm (h : Accepts read viewport cs bounds) (hp : cs.Perm ds) :
    Accepts read viewport ds bounds where
  canvas := by
    have hcanvas := hp.filterMap Component.bounds?
    rw [h.canvas] at hcanvas
    exact List.perm_singleton.mp hcanvas.symm
  templates type htype := h.templates type ((hp.filterMap Component.chipType?).mem_iff.mpr htype)
  letters color := by
    have hcount := (hp.filterMap Component.color?).count_eq color
    exact hcount ▸ h.letters color
  valid := validate_of_perm (hp.map _) h.valid

/-- Components that are no canvas can be left out. -/
theorem Accepts.of_append (h : Accepts read viewport (cs ++ ds) bounds)
    (hcs : ∀ c ∈ cs, c.canvas? = none) : Accepts read viewport ds bounds where
  canvas := by
    have hnone : cs.filterMap Component.bounds? = [] := by
      refine List.filterMap_eq_nil_iff.mpr fun c hc => ?_
      rw [Component.bounds?, hcs c hc]
      rfl
    have hcanvas := h.canvas
    rw [List.filterMap_append, hnone, List.nil_append] at hcanvas
    exact hcanvas
  templates type htype := by
    refine h.templates type ?_
    rw [chipTypes_append]
    exact List.mem_append_right _ htype
  letters color := by
    have hcount := h.letters color
    rw [wireColors, List.filterMap_append, List.count_append] at hcount
    exact Nat.le_trans (Nat.le_add_left _ _) hcount
  valid := validate_of_sublist ((List.sublist_append_right cs ds).map _) h.valid

namespace Component

theorem bounds?_unplaced (c : Component) : c.unplaced.bounds? = c.bounds? := by cases c <;> rfl

theorem chipType?_unplaced (c : Component) : c.unplaced.chipType? = c.chipType? := by
  cases c <;> rfl

theorem color?_unplaced (c : Component) : c.unplaced.color? = c.color? := by cases c <;> rfl

theorem check_unplaced (bounds : Vec) (c : Component) :
    c.unplaced.check bounds = c.check bounds := by
  cases c <;> rfl

theorem region?_unplaced (c : Component) : c.unplaced.region? = c.region? := by cases c <;> rfl

theorem resize_unplaced (templateOf : String → List Pin) (bounds : Vec) (c : Component) :
    c.unplaced.resize templateOf bounds = (c.resize templateOf bounds).unplaced := by
  cases c <;> rfl

end Component

theorem filterMap_of_map_unplaced_eq {α : Type} {f : Component → Option α}
    (hf : ∀ c, f c.unplaced = f c) (h : ds.map Component.unplaced = cs.map Component.unplaced) :
    ds.filterMap f = cs.filterMap f := by
  have hmap : ∀ es : List Component, (es.map Component.unplaced).filterMap f = es.filterMap f := by
    intro es
    rw [List.filterMap_map]
    exact List.filterMap_congr fun c _ => hf c
  rw [← hmap, h, hmap]

/-- It does not matter on which lines the components stand. -/
theorem Accepts.of_map_unplaced_eq (h : Accepts read viewport cs bounds)
    (he : ds.map Component.unplaced = cs.map Component.unplaced) :
    Accepts read viewport ds bounds where
  canvas := (filterMap_of_map_unplaced_eq Component.bounds?_unplaced he).trans h.canvas
  templates := by
    have htypes : chipTypes ds = chipTypes cs :=
      filterMap_of_map_unplaced_eq Component.chipType?_unplaced he
    rw [htypes]
    exact h.templates
  letters := by
    have hcolors : wireColors ds = wireColors cs :=
      filterMap_of_map_unplaced_eq Component.color?_unplaced he
    rw [hcolors]
    exact h.letters
  valid := by
    refine validate_of_map_eq Component.check_unplaced Component.region?_unplaced ?_ h.valid
    have hmap : ∀ es : List Component,
        (es.map (Component.resize (templateBy read) bounds)).map Component.unplaced =
          (es.map Component.unplaced).map (Component.resize (templateBy read) bounds) := by
      intro es
      rw [List.map_map, List.map_map]
      exact List.map_congr_left fun c _ => (Component.resize_unplaced _ _ c).symm
    rw [hmap, hmap, he]

end Changes

section Load

variable {files : Tree} {input : Source.Input} {options : LoadOptions} {library? : Option Library}
  {log : Log} {cs : List Component} {bounds : Vec}

theorem filterMap_bounds? (cs : List Component) :
    cs.filterMap Component.bounds? = (cs.filterMap Component.canvas?).map Canvas.bounds :=
  List.map_filterMap.symm

theorem Component.check_unlettered (bounds : Vec) (c : Component) :
    c.unlettered.check bounds = c.check bounds := by
  cases c <;> rfl

theorem Component.region?_unlettered (c : Component) : c.unlettered.region? = c.region? := by
  cases c <;> rfl

theorem wireColors_resize (templateOf : String → List Pin) (cs : List Component) :
    wireColors (cs.map (Component.resize templateOf bounds)) = wireColors cs := by
  rw [wireColors, List.filterMap_map]
  refine List.filterMap_congr fun c _ => ?_
  cases c <;> rfl

/-- What the stages get through is accepted. -/
theorem Passage.accepts {p : Project} (t : Passage files input options library? p) :
    Accepts (t.library.template files) options.viewport t.source p.canvas.bounds := by
  have hverified := verified_map_resize (Source.declared_of_read t.read_eq) t.sizedState.templateOf
    p.canvas.bounds
  rw [← t.sized_eq] at hverified
  obtain ⟨-, -, hletters⟩ := letterAll_eq_ok (t.library.template files) t.letter_eq
  refine ⟨?_, ?_, ?_, ?_⟩
  · rw [filterMap_bounds?, soleCanvas_eq_ok_iff.mp t.canvas_eq]
    rfl
  · intro type htype
    rw [← t.chipTypes_lettered] at htype
    exact ⟨_, t.template_eq htype⟩
  · have hcount := (exists_letterAll_iff hverified t.sizedState).mp ⟨_, _, t.letter_eq⟩
    rw [t.sized_eq, wireColors_resize] at hcount
    exact hcount
  · rw [← t.sized_eq_map]
    exact validate_of_map_eq Component.check_unlettered Component.region?_unlettered hletters.symm
      t.validate_lettered

/-- On what is accepted, the stages get to their ends. -/
theorem exists_runAll_of_accepts (x : StageContext)
    (h : Accepts x.read x.viewport cs x.canvas.bounds) (hcs : ∀ c ∈ cs, c.Declared) {s : LoadState}
    (hs : s.templates = []) : ∃ ds s', Stage.runAll x Stage.inOrder cs s = .ok ds s' := by
  obtain ⟨sized, s₁, hsize⟩ := exists_sizeAll x.canvas h.templates s
  obtain ⟨-, hknows, -⟩ := sizeAll_eq_ok hsize
  obtain ⟨-, rfl⟩ := sizeAll_of_empty hs hsize
  have hletters : ∀ color, (wireColors (cs.map
      (Component.resize (templateBy x.read) x.canvas.bounds))).count color ≤ maxWiresPerColor := by
    rw [wireColors_resize]
    exact h.letters
  obtain ⟨lettered, s₂, hletter⟩ := (exists_letterAll_iff (verified_map_resize hcs _ _) s₁).mpr hletters
  obtain ⟨-, htemplates, hsame⟩ := letterAll_eq_ok x.read hletter
  have hvalid : validate lettered x.canvas x.viewport = .ok () :=
    validate_of_map_eq Component.check_unlettered Component.region?_unlettered hsame h.valid
  obtain ⟨s₃, hvalidate, hkept⟩ : ∃ s₃, validateAll x.canvas x.viewport lettered s₂ =
      ⟨lettered, s₃, none⟩ ∧ s₃.templates = s₂.templates := by
    rw [validateAll, hvalid]
    exact ⟨_, rfl, rfl⟩
  have hknown : s₃.KnowsAll lettered := by
    intro type htype
    rw [chipTypes_of_map_unlettered_eq hsame, chipTypes_map (Component.chipType?_resize _ _)] at htype
    rw [LoadState.Knows, hkept, htemplates]
    exact hknows type htype
  obtain ⟨s₄, hexpand⟩ := expandAll_of_knowsAll x.read hknown
  obtain ⟨⟨hbounds, -⟩, -⟩ := validate_eq_ok_iff.mp hvalid
  obtain ⟨ds, s₅, hresolve⟩ := exists_resolveAll (not_degenerate_of_mem_nets_flatten hbounds hsame) s₄
  refine ⟨ds, s₅, ?_⟩
  refine bind_eq_ok_iff.mpr ⟨_, s₁, Stage.run_eq_ok.mpr hsize, ?_⟩
  refine bind_eq_ok_iff.mpr ⟨_, s₂, Stage.run_eq_ok.mpr hletter, ?_⟩
  refine bind_eq_ok_iff.mpr ⟨_, s₃, Stage.run_eq_ok.mpr hvalidate, ?_⟩
  refine bind_eq_ok_iff.mpr ⟨_, s₄, Stage.run_eq_ok.mpr hexpand, ?_⟩
  exact bind_eq_ok_iff.mpr ⟨_, s₅, Stage.run_eq_ok.mpr hresolve, rfl⟩

/-- A load gives a project exactly if its source can be read, its library put together, and its components
are accepted. -/
theorem exists_project_iff :
    (∃ p, (load files input options library? log).project = .ok (some p)) ↔
      ∃ cs library bounds, input.read files = .ok cs ∧
        chosenLibrary files options library? = .ok library ∧
        Accepts (library.template files) options.viewport cs bounds := by
  constructor
  · rintro ⟨p, h⟩
    obtain ⟨t, -⟩ := exists_passage h
    exact ⟨t.source, t.library, p.canvas.bounds, t.read_eq, t.library_eq, t.accepts⟩
  · rintro ⟨cs, library, bounds, hread, hlibrary, haccepts⟩
    obtain ⟨canvas, hsole, rfl⟩ : ∃ canvas, soleCanvas cs = .ok canvas ∧ canvas.bounds = bounds := by
      have hcanvas := haccepts.canvas
      rw [filterMap_bounds?] at hcanvas
      obtain ⟨canvas, hcanvas, hbounds⟩ := List.map_eq_singleton_iff.mp hcanvas
      exact ⟨canvas, soleCanvas_eq_ok_iff.mpr hcanvas, hbounds⟩
    -- The stages start with the message that follows the reading.
    let message := "parsed " ++ toString cs.length ++ " objects"
    have hempty : ({ log := log.add .debug message } : LoadState).templates = [] := rfl
    obtain ⟨flat, s', hstages⟩ := exists_runAll_of_accepts
      ⟨library.template files, canvas, options.viewport⟩ haccepts (Source.declared_of_read hread) hempty
    have hassemble : ∃ s'', assemble files input options library? { log } = .ok ⟨canvas, flat⟩ s'' := by
      let final := s'.log.add .info ("loaded " ++ toString flat.length ++ " objects on a " ++
        canvas.bounds.describeExtent ++ " canvas")
      refine ⟨{ s' with log := final }, ?_⟩
      rw [assemble_eq]
      refine bind_eq_ok_iff.mpr ⟨cs, { log }, Loader.ofExcept_eq_ok.mpr ⟨hread, rfl⟩, ?_⟩
      refine bind_eq_ok_iff.mpr ⟨(), _, rfl, ?_⟩
      refine bind_eq_ok_iff.mpr ⟨canvas, _, Loader.ofExcept_eq_ok.mpr ⟨hsole, rfl⟩, ?_⟩
      refine bind_eq_ok_iff.mpr ⟨library, _, Loader.ofExcept_eq_ok.mpr ⟨hlibrary, rfl⟩, ?_⟩
      exact bind_eq_ok_iff.mpr ⟨flat, s', hstages, rfl⟩
    obtain ⟨s'', hs''⟩ := hassemble
    refine ⟨⟨canvas, flat⟩, ?_⟩
    rw [load, hs'']

end Load

section Texts
open Source

variable {files : Tree} {options : LoadOptions} {library? : Option Library} {log log' : Log}
  {text text' : String}

/-- A load of the text gives a project. -/
def Loads (files : Tree) (options : LoadOptions) (library? : Option Library) (log : Log)
    (text : String) : Prop :=
  ∃ p, (load files (.text text) options library? log).project = .ok (some p)

/-- The line declares a component other than the canvas. -/
def DeclaresPart (line : String) : Prop :=
  ∃ c k, readLine line = .ok (some c) ∧ c.kind? = some k ∧ k ≠ .canvas

/-- Written lines are all that a text is asked for. -/
theorem loads_iff : Loads files options library? log text ↔
    (∀ line ∈ writtenLines text, Readable line) ∧
      ∃ library bounds, chosenLibrary files options library? = .ok library ∧
        Accepts (library.template files) options.viewport ((writtenLines text).filterMap declared?)
          bounds := by
  rw [Loads, exists_project_iff, forall_readable_writtenLines, filterMap_declared?_writtenLines]
  constructor
  · rintro ⟨cs, library, bounds, hread, hlibrary, haccepts⟩
    have hplaces := map_unplaced_of_readLines hread
    exact ⟨exists_readLines_iff.mp ⟨cs, hread⟩, library, bounds, hlibrary,
      haccepts.of_map_unplaced_eq hplaces.symm⟩
  · rintro ⟨hreadable, library, bounds, hlibrary, haccepts⟩
    obtain ⟨cs, hread⟩ := exists_readLines_iff.mpr hreadable
    have hplaces := map_unplaced_of_readLines hread
    exact ⟨cs, library, bounds, hread, hlibrary, haccepts.of_map_unplaced_eq hplaces⟩

theorem Loads.of_perm (h : Loads files options library? log text)
    (hp : (writtenLines text).Perm (writtenLines text')) :
    Loads files options library? log' text' := by
  obtain ⟨hreadable, library, bounds, hlibrary, haccepts⟩ := loads_iff.mp h
  refine loads_iff.mpr ⟨?_, library, bounds, hlibrary, haccepts.perm (hp.filterMap declared?)⟩
  intro line hline
  exact hreadable line (hp.mem_iff.mpr hline)

theorem Loads.of_dropped (h : Loads files options library? log text) {dropped : List String}
    (hp : (writtenLines text).Perm (dropped ++ writtenLines text'))
    (hdropped : ∀ line ∈ dropped, DeclaresPart line) : Loads files options library? log' text' := by
  obtain ⟨hreadable, library, bounds, hlibrary, haccepts⟩ := loads_iff.mp h
  refine loads_iff.mpr ⟨?_, library, bounds, hlibrary, ?_⟩
  · intro line hline
    exact hreadable line (hp.mem_iff.mpr (List.mem_append_right dropped hline))
  · have hsplit := haccepts.perm (hp.filterMap declared?)
    rw [List.filterMap_append] at hsplit
    refine hsplit.of_append fun c hc => ?_
    obtain ⟨line, hline, hdeclared⟩ := List.mem_filterMap.mp hc
    obtain ⟨d, k, hread, hkind, hcanvas⟩ := hdropped line hline
    rw [declared?_of_readLine hread] at hdeclared
    cases hdeclared
    cases c with
    | canvas c =>
      cases hkind
      exact absurd rfl hcanvas
    | chip | net | pin | wire | foreign => rfl

/-- Whether a text loads depends only on how often it has each written line, and it still loads when any of
those that declare no canvas are left out. -/
theorem loads_by_written_lines (files : Tree) (options : LoadOptions) (library? : Option Library)
    (log log' : Log) (text text' : String) :
    ((writtenLines text).Perm (writtenLines text') →
      (Loads files options library? log text ↔ Loads files options library? log' text')) ∧
    ∀ dropped, (writtenLines text).Perm (dropped ++ writtenLines text') →
      (∀ line ∈ dropped, DeclaresPart line) →
      Loads files options library? log text → Loads files options library? log' text' := by
  constructor
  · intro hp
    exact ⟨fun h => h.of_perm hp, fun h => h.of_perm hp.symm⟩
  · intro dropped hp hdropped h
    exact h.of_dropped hp hdropped

/-- The text of the source `buffers`. -/
def buffersText : String := String.join [
  ":meta bounds 4 5\n",
  ":net type vcc y 0\n",
  ":chip type gates/buf pos 1 1\n",
  ":wire color red from 1 3 to 3 0\n",
  ":chip type gates/buf pos 2 1\n"]

/-- Its lines in another order, and blank ones. -/
def buffersShuffled : String := String.join [
  "\n",
  ":wire color red from 1 3 to 3 0\n",
  ":chip type gates/buf pos 2 1\n",
  ":chip type gates/buf pos 1 1\n",
  " \n",
  ":net type vcc y 0\n",
  ":meta bounds 4 5"]

/-- Its lines without the wire and the first chip. -/
def buffersReduced : String := String.join [
  ":meta bounds 4 5\n",
  ":net type vcc y 0\n",
  ":chip type gates/buf pos 2 1\n"]

theorem loads_by_written_lines_buffers :
    Loads .fresh {} none [] buffersShuffled ∧ Loads .fresh {} none [] buffersReduced := by
  have hloads : Loads .fresh {} none [] buffersText := ⟨bufferProject, load_buffers.1⟩
  have hlines : writtenLines buffersText = [":meta bounds 4 5", ":net type vcc y 0",
    ":chip type gates/buf pos 1 1", ":wire color red from 1 3 to 3 0",
    ":chip type gates/buf pos 2 1"] := by decide +kernel
  have hshuffled : writtenLines buffersShuffled = [":wire color red from 1 3 to 3 0",
    ":chip type gates/buf pos 2 1", ":chip type gates/buf pos 1 1", ":net type vcc y 0",
    ":meta bounds 4 5"] := by decide +kernel
  have hreduced : writtenLines buffersReduced = [":meta bounds 4 5", ":net type vcc y 0",
    ":chip type gates/buf pos 2 1"] := by decide +kernel
  have hchip : DeclaresPart ":chip type gates/buf pos 1 1" :=
    ⟨.chip ⟨"gates/buf", ⟨⟨1, 1⟩, ⟨0, chipHeight⟩⟩, none⟩, .chip, by decide +kernel, rfl, by decide⟩
  have hwire : DeclaresPart ":wire color red from 1 3 to 3 0" :=
    ⟨.wire ⟨some .red, ⟨1, 3⟩, ⟨3, 0⟩, "", none⟩, .wire, by decide +kernel, rfl, by decide⟩
  constructor
  · refine ((loads_by_written_lines .fresh {} none [] [] buffersText buffersShuffled).1 ?_).mp hloads
    rw [hlines, hshuffled]
    decide
  · refine (loads_by_written_lines .fresh {} none [] [] buffersText buffersReduced).2
      [":wire color red from 1 3 to 3 0", ":chip type gates/buf pos 1 1"] ?_ ?_ hloads
    · rw [hlines, hreduced]
      decide
    · exact List.forall_mem_cons.mpr ⟨hwire, List.forall_mem_cons.mpr ⟨hchip, by simp⟩⟩

end Texts
end Schematic
