import Schematic.Proofs.Library.Roots
import Schematic.Proofs.Library.Template

/-! Roots that come behind others. Of several roots with a template of a type the first one provides it, so that
further roots only add types that were not provided. Main statement: a library opens exactly if all its roots
can be walked, and with further roots that can be walked it gives what it gave before. -/
namespace Schematic
open Schematic.Files

namespace Library

/-- `l'` provides what `l` does, each type from the same source. -/
def Below (l l' : Library) : Prop :=
  ∀ type source, l.index.lookup type = some source → l'.index.lookup type = some source

namespace Below

variable {l l' l'' : Library} {type : String}

theorem refl (l : Library) : Below l l := fun _ _ h => h

theorem trans (h : Below l l') (h' : Below l' l'') : Below l l'' :=
  fun type source hs => h' type source (h type source hs)

theorem mem_types (h : Below l l') (ht : type ∈ l.types) : type ∈ l'.types := by
  rw [mem_types_iff, Option.isSome_iff_exists] at ht ⊢
  obtain ⟨source, hs⟩ := ht
  exact ⟨source, h type source hs⟩

/-- The source of a template does not depend on the files, so that this holds at any time. -/
theorem text_eq (h : Below l l') (ht : type ∈ l.types) (files : Tree) :
    l'.text files type = l.text files type := by
  obtain ⟨source, hs⟩ := Option.isSome_iff_exists.mp (mem_types_iff.mp ht)
  unfold text
  rw [hs, h type source hs]

theorem template_eq_ok (h : Below l l') {files : Tree} {ps : List Pin}
    (hp : l.template files type = .ok ps) : l'.template files type = .ok ps := by
  have ht : type ∈ l.types := by
    rw [mem_types_iff, ← Option.ne_none_iff_isSome]
    intro hnone
    unfold template text at hp
    rw [hnone] at hp
    cases hp
  unfold template at hp ⊢
  rw [h.text_eq ht]
  exact hp

end Below

variable {depth : Nat} {files : Tree} {l l' : Library} {root : Path} {roots : List Path}

/-- What is provided already is not replaced. -/
theorem lookup_extend (l : Library) (es : List (String × TemplateSource)) (type : String) :
    (l.extend es).index.lookup type = (l.index.lookup type).or (es.lookup type) := by
  induction es generalizing l with
  | nil => exact (Option.or_none).symm
  | cons e es ih =>
    cases he : l.index.lookup e.1 with
    | some source =>
      have hskip : l.extend (e :: es) = l.extend es := by simp [extend, he]
      rw [hskip, ih]
      by_cases ht : type = e.1
      · rw [ht, he, Option.some_or, Option.some_or]
      · rw [List.lookup_cons, beq_eq_false_iff_ne.mpr ht]
    | none =>
      have htake : l.extend (e :: es) = extend ⟨l.index ++ [e]⟩ es := by simp [extend, he]
      rw [htake, ih, List.lookup_append, Option.or_assoc, ← List.lookup_append,
        List.singleton_append]

theorem below_extend (l : Library) (es : List (String × TemplateSource)) :
    Below l (l.extend es) := by
  intro type source hs
  rw [lookup_extend, hs, Option.some_or]

theorem addRoot_eq_ok (h : addRoot depth files l root = .ok l') :
    ∃ t es, files.locate root = .ok t ∧ templatesBelow depth root t = .ok es ∧ l' = l.extend es := by
  unfold addRoot at h
  split at h
  · next hlocate =>
    obtain ⟨es, hes, rfl⟩ := map_eq_ok_iff.mp h
    exact ⟨_, es, hlocate, hes, rfl⟩
  · cases h
  · cases h

theorem below_addRoot (h : addRoot depth files l root = .ok l') : Below l l' := by
  obtain ⟨t, es, -, -, rfl⟩ := addRoot_eq_ok h
  exact below_extend l es

theorem exists_addRoot_iff :
    (∃ l', addRoot depth files l root = .ok l') ↔ files.Walkable depth root := by
  rcases addRoot_cases depth files l root with ⟨hw, h⟩ | ⟨-, -, hdir, h⟩ | ⟨hnot, f, h, -⟩
  · exact iff_of_true h hw
  · refine iff_of_false ?_ fun hw => ?_
    · rw [h]
      nofun
    · rw [hw.isDir] at hdir
      cases hdir
  · refine iff_of_false ?_ fun hw => hnot ⟨hw.answers, hw.shallow⟩
    rw [h]
    nofun

theorem addRoots_cons_eq_ok : (root :: roots).foldlM (addRoot depth files) l = .ok l' ↔
    ∃ l₁, addRoot depth files l root = .ok l₁ ∧ roots.foldlM (addRoot depth files) l₁ = .ok l' := by
  rw [List.foldlM_cons]
  cases addRoot depth files l root with
  | error e => exact iff_of_false nofun (by simp)
  | ok l₁ => simp [bind, Except.bind]

/-- What was provided stays. -/
theorem below_addRoots (h : roots.foldlM (addRoot depth files) l = .ok l') : Below l l' := by
  induction roots generalizing l with
  | nil =>
    cases h
    exact Below.refl _
  | cons root roots ih =>
    obtain ⟨l₁, hroot, hroots⟩ := addRoots_cons_eq_ok.mp h
    exact (below_addRoot hroot).trans (ih hroots)

theorem exists_addRoots_iff :
    (∃ l', roots.foldlM (addRoot depth files) l = .ok l') ↔ ∀ root ∈ roots, files.Walkable depth root := by
  induction roots generalizing l with
  | nil =>
    have hstart : [].foldlM (addRoot depth files) l = .ok l := rfl
    simp [hstart]
  | cons root roots ih =>
    rw [List.forall_mem_cons]
    constructor
    · intro h
      obtain ⟨l', hl'⟩ := h
      obtain ⟨l₁, hroot, hroots⟩ := addRoots_cons_eq_ok.mp hl'
      exact ⟨exists_addRoot_iff.mp ⟨l₁, hroot⟩, ih.mp ⟨l', hroots⟩⟩
    · intro h
      obtain ⟨hroot, hroots⟩ := h
      obtain ⟨l₁, hl₁⟩ := exists_addRoot_iff.mpr hroot
      obtain ⟨l', hl'⟩ := ih.mpr hroots
      exact ⟨l', addRoots_cons_eq_ok.mpr ⟨l₁, hl₁, hl'⟩⟩

/-- A library opens exactly if all its roots can be walked. -/
theorem exists_ofRoots_iff :
    (∃ l, ofRoots depth files roots = .ok l) ↔ ∀ root ∈ roots, files.Walkable depth root :=
  exists_addRoots_iff

theorem walkable_of_isSome (h : (ofRoots depth files roots).toOption.isSome) :
    ∀ root ∈ roots, files.Walkable depth root := by
  apply exists_ofRoots_iff.mp
  cases hl : ofRoots depth files roots with
  | ok l => exact ⟨l, rfl⟩
  | error e =>
    rw [hl] at h
    cases h

theorem exists_ofRoots_append {extra : List Path} (h : ofRoots depth files roots = .ok l)
    (hextra : ∀ root ∈ extra, files.Walkable depth root) :
    ∃ l', ofRoots depth files (roots ++ extra) = .ok l' ∧ Below l l' := by
  obtain ⟨l', hl'⟩ := exists_addRoots_iff.mpr hextra
  refine ⟨l', ?_, below_addRoots hl'⟩
  unfold ofRoots at h ⊢
  rw [List.foldlM_append, h]
  exact hl'

end Library
end Schematic
