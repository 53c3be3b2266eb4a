import Schematic.Proofs.Load.Passage

/-! Templates without the cache. A load reads each template once, and this is as good as reading it whenever
it is asked for. Main statement: what sizing and expansion make of a source is a function of the source, the
canvas and what its chip types are read as. -/
namespace Schematic
open Schematic.Files

/-- The template of a type as it is read, without pins where it cannot be. -/
def templateBy (read : TemplateReader) (type : String) : List Pin := (read type).toOption.getD []

theorem templateBy_of_eq_ok {read : TemplateReader} {type : String} {ps : List Pin}
    (h : read type = .ok ps) : templateBy read type = ps := by
  rw [templateBy, h]
  rfl

section Templates

variable {f g : String → List Pin}

theorem Component.resize_congr {c : Component} (h : ∀ type ∈ c.chipType?, f type = g type)
    (bounds : Vec) : c.resize f bounds = c.resize g bounds := by
  cases hc : c.chipType? with
  | none => exact c.resize_of_chipType?_eq_none hc f g bounds
  | some type =>
    cases c <;> cases hc
    next c =>
    have htype := h c.type rfl
    simp only [resize, htype]

theorem map_resize_congr {cs : List Component} (h : ∀ type ∈ chipTypes cs, f type = g type)
    (bounds : Vec) :
    cs.map (Component.resize f bounds) = cs.map (Component.resize g bounds) := by
  refine List.map_congr_left fun c hc => Component.resize_congr (fun type htype => ?_) bounds
  exact h type (List.mem_filterMap.mpr ⟨c, hc, htype⟩)

theorem Component.block_congr {c : Component} (h : ∀ type ∈ c.chipType?, f type = g type)
    (seen : List String) : c.block f seen = c.block g seen := by
  cases hc : c.chipType? with
  | none =>
    rw [block_of_chipType?_eq_none hc, block_of_chipType?_eq_none hc]
  | some type =>
    cases c <;> cases hc
    next c =>
    have htype := h c.type rfl
    simp only [block, htype]

theorem blocksFrom_congr {cs : List Component} (h : ∀ type ∈ chipTypes cs, f type = g type)
    (seen : List String) : blocksFrom f seen cs = blocksFrom g seen cs := by
  induction cs generalizing seen with
  | nil => rfl
  | cons c cs ih =>
    have hc : ∀ type ∈ c.chipType?, f type = g type := fun type htype =>
      h type (List.mem_filterMap.mpr ⟨c, List.mem_cons_self, htype⟩)
    have hcs : ∀ type ∈ chipTypes cs, f type = g type := by
      intro type htype
      rw [← List.singleton_append, chipTypes_append] at h
      exact h type (List.mem_append_right _ htype)
    rw [blocksFrom, blocksFrom, Component.block_congr hc, ih hcs]

end Templates

theorem sizeAll_of_empty {read : TemplateReader} {canvas : Canvas} {cs sized : List Component}
    {s s' : LoadState} (hs : s.templates = [])
    (h : sizeAll read canvas cs s = ⟨sized, s', none⟩) :
    (∀ type ∈ chipTypes cs, read type = .ok (templateBy read type)) ∧
      sized = cs.map (Component.resize (templateBy read) canvas.bounds) := by
  obtain ⟨hgrows, hknows, hsized⟩ := sizeAll_eq_ok h
  have hread : ∀ type ∈ chipTypes cs, read type = .ok (s'.templateOf type) :=
    fun type htype => hgrows.read_eq hs (hknows type htype)
  have hsame : ∀ type ∈ chipTypes cs, s'.templateOf type = templateBy read type :=
    fun type htype => (templateBy_of_eq_ok (hread type htype)).symm
  refine ⟨fun type htype => ?_, ?_⟩
  · rw [← hsame type htype]
    exact hread type htype
  · rw [hsized]
    exact map_resize_congr hsame canvas.bounds

namespace Passage

variable {files : Tree} {input : Source.Input} {options : LoadOptions}
  {library? : Option Library} {p : Project} (t : Passage files input options library? p)

theorem sized_eq_map : t.sized =
    t.source.map (Component.resize (templateBy (t.library.template files)) p.canvas.bounds) := by
  obtain ⟨-, hsized⟩ := sizeAll_of_empty t.start_templates t.size_eq
  exact hsized

theorem flat_eq_flatten :
    t.flat = (blocks (templateBy (t.library.template files)) t.lettered).flatten := by
  rw [t.flat_eq, blocks, blocks]
  refine congrArg List.flatten (blocksFrom_congr (fun type htype => ?_) [])
  exact (templateBy_of_eq_ok (t.template_eq htype)).symm

end Passage
end Schematic
