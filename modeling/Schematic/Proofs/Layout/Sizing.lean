import Mathlib.Data.List.Basic
import Schematic.Layout.Sizing
import Schematic.Proofs.Load.Templates

/-! Sizes of chips and nets. Main statement: sizing that gets to its end has read the template of every
chip, and sizes each component by the templates that are known then. -/
namespace Schematic

namespace Component

def chipType? : Component → Option String
  | .chip c => some c.type
  | _ => none

/-- The component with its derived size, for given templates. -/
def resize (templateOf : String → List Pin) (bounds : Vec) : Component → Component
  | .chip c => .chip (c.sized (templateOf c.type))
  | .net n => .net (n.sized bounds)
  | c => c

theorem resize_of_chipType?_eq_none {c : Component} (h : c.chipType? = none)
    (f g : String → List Pin) (bounds : Vec) : c.resize f bounds = c.resize g bounds := by
  cases c with
  | chip c => cases h
  | canvas | net | pin | wire | foreign => rfl

theorem chipType?_resize (templateOf : String → List Pin) (bounds : Vec) (c : Component) :
    (c.resize templateOf bounds).chipType? = c.chipType? := by
  cases c <;> rfl

end Component

/-- The types of the chips of a schematic, in order. -/
def chipTypes (cs : List Component) : List String := cs.filterMap Component.chipType?

@[simp] theorem chipTypes_nil : chipTypes [] = [] := rfl

@[simp] theorem chipTypes_cons_chip (c : Chip) (cs : List Component) :
    chipTypes (.chip c :: cs) = c.type :: chipTypes cs := rfl

theorem chipTypes_cons_of_none {c : Component} (h : c.chipType? = none) (cs : List Component) :
    chipTypes (c :: cs) = chipTypes cs := List.filterMap_cons_none h

@[simp] theorem chipTypes_append (cs ds : List Component) :
    chipTypes (cs ++ ds) = chipTypes cs ++ chipTypes ds := List.filterMap_append

theorem mem_chipTypes {cs : List Component} {c : Chip} (h : .chip c ∈ cs) :
    c.type ∈ chipTypes cs := List.mem_filterMap.mpr ⟨.chip c, h, rfl⟩

theorem chipTypes_map {f : Component → Component} (hf : ∀ c, (f c).chipType? = c.chipType?)
    (cs : List Component) : chipTypes (cs.map f) = chipTypes cs := by
  rw [chipTypes, chipTypes, List.filterMap_map]
  exact List.filterMap_congr fun c _ => hf c

/-- The templates of all chips were read. -/
def LoadState.KnowsAll (s : LoadState) (cs : List Component) : Prop :=
  ∀ type ∈ chipTypes cs, s.Knows type

variable {read : TemplateReader} {s s' : LoadState}

theorem Component.sized_eq_ok {bounds : Vec} {c d : Component}
    (h : c.sized read bounds s = .ok d s') :
    s.Grows read s' ∧ s'.KnowsAll [c] ∧ d = c.resize s'.templateOf bounds := by
  cases c with
  | chip c =>
    obtain ⟨ps, s₁, ht, hp⟩ := bind_eq_ok_iff.mp h
    obtain ⟨rfl, rfl⟩ := Loader.pure_eq_ok.mp hp
    obtain ⟨hg, hk, rfl⟩ := Loader.template_eq_ok ht
    refine ⟨hg, ?_, rfl⟩
    intro type htype
    rw [List.mem_singleton.mp htype]
    exact hk
  | canvas | net | pin | wire | foreign =>
    obtain ⟨rfl, rfl⟩ := Loader.pure_eq_ok.mp h
    exact ⟨.refl read s, by simp [LoadState.KnowsAll, chipTypes, chipType?], rfl⟩

theorem sizeAll_eq_ok {canvas : Canvas} {cs sized : List Component}
    (h : sizeAll read canvas cs s = ⟨sized, s', none⟩) :
    s.Grows read s' ∧ s'.KnowsAll cs ∧
      sized = cs.map (Component.resize s'.templateOf canvas.bounds) := by
  unfold sizeAll at h
  induction cs generalizing s sized with
  | nil =>
    cases h
    exact ⟨.refl read _, by simp [LoadState.KnowsAll], rfl⟩
  | cons c cs ih =>
    obtain ⟨d, s₁, rest, hd, hrest, rfl⟩ := sweep_cons_eq.mp h
    obtain ⟨hg₁, hk₁, rfl⟩ := Component.sized_eq_ok hd
    obtain ⟨hg₂, hk₂, rfl⟩ := ih hrest
    refine ⟨hg₁.trans hg₂, ?_, ?_⟩
    · intro type htype
      rw [← List.singleton_append, chipTypes_append] at htype
      rcases List.mem_append.mp htype with htype | htype
      · exact hg₂.knows (hk₁ type htype)
      · exact hk₂ type htype
    · -- The template read for `c` is still the known one at the end.
      rw [List.map_cons, List.cons.injEq]
      refine ⟨?_, rfl⟩
      cases hc : c.chipType? with
      | none => exact Component.resize_of_chipType?_eq_none hc _ _ _
      | some type =>
        cases c <;> cases hc
        next c =>
        have hk := hk₁ c.type (mem_chipTypes List.mem_cons_self)
        simp only [Component.resize, hg₂.templateOf_eq hk]

end Schematic
