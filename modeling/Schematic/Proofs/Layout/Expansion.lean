import Mathlib.Tactic.SplitIfs
import Schematic.Layout.Expansion
import Schematic.Proofs.Layout.Sizing

/-! Expansion of chips, block by block. Main statement: an expanded schematic consists of one block for
each component, which for a chip holds the pins of its template under the number of the chip. -/
namespace Schematic

/-- What takes the place of a component behind chips of the types `seen`. -/
def Component.block (templateOf : String → List Pin) (seen : List String) :
    Component → List Component
  | .chip c => (c.expand (templateOf c.type) (seen.count c.type + 1 : Nat)).map .pin
  | c => [c]

/-- The blocks of components that stand behind chips of the types `seen`. -/
def blocksFrom (templateOf : String → List Pin) : List String → List Component →
    List (List Component)
  | _, [] => []
  | seen, c :: cs => c.block templateOf seen :: blocksFrom templateOf (c.chipType?.toList ++ seen) cs

/-- The blocks of a schematic. -/
def blocks (templateOf : String → List Pin) (cs : List Component) : List (List Component) :=
  blocksFrom templateOf [] cs

/-- The number of a chip of the type behind the components `before`, counted from one. -/
def ordinal (type : String) (before : List Component) : Nat := (chipTypes before).count type + 1

variable {read : TemplateReader} {s s' : LoadState} {templateOf : String → List Pin}

theorem Component.block_of_chipType?_eq_none {c : Component} (h : c.chipType? = none)
    (f : String → List Pin) (seen : List String) : c.block f seen = [c] := by
  cases c with
  | chip c => cases h
  | canvas | net | pin | wire | foreign => rfl

theorem blocksFrom_cons_of_none {c : Component} (h : c.chipType? = none) (seen : List String)
    (cs : List Component) :
    blocksFrom templateOf seen (c :: cs) = [c] :: blocksFrom templateOf seen cs := by
  rw [blocksFrom, Component.block_of_chipType?_eq_none h, h]
  rfl

theorem expandFrom_cons_of_none {c : Component} (h : c.chipType? = none) (seen : List String)
    (cs : List Component) : expandFrom read seen (c :: cs) = (do
      let rest ← expandFrom read seen cs
      pure (c :: rest)) := by
  cases c with
  | chip c => cases h
  | canvas | net | pin | wire | foreign => rfl

theorem expandFrom_eq_ok {seen : List String} {cs flat : List Component}
    (h : expandFrom read seen cs s = .ok flat s') :
    s.Grows read s' ∧ s'.KnowsAll cs ∧ flat = (blocksFrom s'.templateOf seen cs).flatten := by
  induction cs generalizing seen s flat with
  | nil =>
    obtain ⟨rfl, rfl⟩ := Loader.pure_eq_ok.mp h
    exact ⟨.refl read s, by simp [LoadState.KnowsAll], rfl⟩
  | cons c cs ih =>
    cases hc : c.chipType? with
    | none =>
      rw [expandFrom_cons_of_none hc] at h
      obtain ⟨rest, s₁, hrest, hp⟩ := bind_eq_ok_iff.mp h
      obtain ⟨rfl, rfl⟩ := Loader.pure_eq_ok.mp hp
      obtain ⟨hg, hk, rfl⟩ := ih hrest
      refine ⟨hg, ?_, ?_⟩
      · rw [LoadState.KnowsAll, chipTypes_cons_of_none hc]
        exact hk
      · rw [blocksFrom_cons_of_none hc, List.flatten_cons, List.singleton_append]
    | some type =>
      cases c <;> cases hc
      next c =>
      obtain ⟨ps, s₁, ht, hb⟩ := bind_eq_ok_iff.mp h
      obtain ⟨rest, s₂, hrest, hp⟩ := bind_eq_ok_iff.mp hb
      obtain ⟨rfl, rfl⟩ := Loader.pure_eq_ok.mp hp
      obtain ⟨hg₁, hk₁, rfl⟩ := Loader.template_eq_ok ht
      obtain ⟨hg₂, hk₂, rfl⟩ := ih hrest
      refine ⟨hg₁.trans hg₂, ?_, ?_⟩
      · intro type htype
        rcases List.mem_cons.mp htype with rfl | htype
        · exact hg₂.knows hk₁
        · exact hk₂ type htype
      · rw [blocksFrom, List.flatten_cons, ← hg₂.templateOf_eq hk₁]
        rfl

/-- Where all templates are known, no file is read, and the expansion cannot fail. -/
theorem expandFrom_of_knowsAll (read : TemplateReader) {seen : List String} {cs : List Component}
    (h : s.KnowsAll cs) :
    expandFrom read seen cs s = .ok (blocksFrom s.templateOf seen cs).flatten s := by
  induction cs generalizing seen with
  | nil => rfl
  | cons c cs ih =>
    have hcs : s.KnowsAll cs := by
      intro type htype
      refine h type ?_
      rw [← List.singleton_append, chipTypes_append]
      exact List.mem_append_right _ htype
    cases hc : c.chipType? with
    | none =>
      rw [expandFrom_cons_of_none hc, blocksFrom_cons_of_none hc, List.flatten_cons,
        List.singleton_append]
      exact bind_eq_ok_iff.mpr ⟨_, _, ih hcs, rfl⟩
    | some type =>
      cases c <;> cases hc
      next c =>
      have hk := h c.type (mem_chipTypes List.mem_cons_self)
      refine bind_eq_ok_iff.mpr ⟨_, _, Loader.template_of_knows read hk, ?_⟩
      exact bind_eq_ok_iff.mpr ⟨_, _, ih hcs, rfl⟩

theorem expandAll_eq_ok {cs flat : List Component}
    (h : expandAll read cs s = ⟨flat, s', none⟩) :
    s.Grows read s' ∧ s'.KnowsAll cs ∧ flat = (blocks s'.templateOf cs).flatten := by
  unfold expandAll at h
  split at h
  · cases h
  · next flat' s₁ hf =>
    cases h
    obtain ⟨hg, hk, hflat⟩ := expandFrom_eq_ok hf
    exact ⟨hg.trans (.add_log read s₁ _ _), hk, hflat⟩

theorem expandAll_of_knowsAll (read : TemplateReader) {cs : List Component}
    (h : s.KnowsAll cs) :
    ∃ s', expandAll read cs s = ⟨(blocks s.templateOf cs).flatten, s', none⟩ := by
  unfold expandAll
  rw [expandFrom_of_knowsAll read h]
  exact ⟨_, rfl⟩

/-- The blocks behind a part of a schematic go on counting from it. -/
theorem blocksFrom_append (seen : List String) (cs ds : List Component) :
    blocksFrom templateOf seen (cs ++ ds) = blocksFrom templateOf seen cs ++
      blocksFrom templateOf ((chipTypes cs).reverse ++ seen) ds := by
  induction cs generalizing seen with
  | nil => rfl
  | cons c cs ih =>
    cases hc : c.chipType? with
    | none =>
      rw [List.cons_append, blocksFrom_cons_of_none hc, ih, blocksFrom_cons_of_none hc,
        chipTypes_cons_of_none hc, List.cons_append]
    | some type =>
      cases c <;> cases hc
      next c =>
      rw [List.cons_append, blocksFrom, ih, blocksFrom, chipTypes_cons_chip]
      simp [Component.chipType?]

section Labels

variable {ending : String}

theorem renameLabel_of_ne {l : String} (h : l ≠ "") : renameLabel ending l = l ++ ending := if_neg h

theorem renameLabel_eq_empty {l : String} : renameLabel ending l = "" ↔ l = "" := by
  unfold renameLabel
  split_ifs with h
  · exact Iff.rfl
  · constructor
    · intro he
      exact absurd (String.append_eq_empty_iff.mp he).1 h
    · intro he
      exact absurd he h

theorem renameLabel_injective {l l' : String} (h : renameLabel ending l = renameLabel ending l') :
    l = l' := by
  by_cases hl : l = ""
  · have he : renameLabel ending l' = "" := by
      rw [← h]
      exact renameLabel_eq_empty.mpr hl
    rw [hl, renameLabel_eq_empty.mp he]
  · have hl' : l' ≠ "" := by
      intro he
      exact hl (renameLabel_eq_empty.mp (h.trans (renameLabel_eq_empty.mpr he)))
    rw [renameLabel_of_ne hl, renameLabel_of_ne hl'] at h
    exact String.append_left_inj ending |>.mp h

end Labels

section Pins

theorem pins_append (cs ds : List Component) : pins (cs ++ ds) = pins cs ++ pins ds :=
  List.filterMap_append

theorem pins_map_pin (ps : List Pin) : pins (ps.map .pin) = ps := by
  induction ps with
  | nil => rfl
  | cons p ps ih => rw [List.map_cons, pins_cons_pin, ih]

theorem pins_block_resize (f : String → List Pin) (bounds : Vec) (seen : List String)
    (c : Component) :
    pins ((c.resize f bounds).block templateOf seen) = pins (c.block templateOf seen) := by
  cases c <;> rfl

/-- Changes that no block shows are not seen in the pins of an expanded schematic. -/
theorem pins_flatten_blocksFrom_map {f : Component → Component}
    (ht : ∀ c, (f c).chipType? = c.chipType?)
    (hb : ∀ seen c, pins ((f c).block templateOf seen) = pins (c.block templateOf seen))
    (seen : List String) (cs : List Component) :
    pins (blocksFrom templateOf seen (cs.map f)).flatten =
      pins (blocksFrom templateOf seen cs).flatten := by
  induction cs generalizing seen with
  | nil => rfl
  | cons c cs ih =>
    rw [List.map_cons, blocksFrom, blocksFrom, List.flatten_cons, List.flatten_cons, pins_append,
      pins_append, hb, ht, ih]

end Pins

end Schematic
