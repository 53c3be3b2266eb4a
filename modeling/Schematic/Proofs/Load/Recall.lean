import Schematic.Proofs.Load.Uncached

/-! Templates that are remembered. Before a stage and behind it, a template is had as it was read, or else as it reads
now. Main statement: what sizing and expansion make of a schematic is a function of what they are offered so. -/
namespace Schematic

section Recall

variable {read : TemplateReader} {s s' : LoadState} {type : String} {ps : List Pin}

/-- How templates are had in a state of a load: one that was read before is had as it was read then. -/
def LoadState.recalling (s : LoadState) (read : TemplateReader) : TemplateReader := fun type =>
  (s.templates.lookup type).elim (read type) .ok

theorem LoadState.Knows.recalling_eq (h : s.Knows type) (read : TemplateReader) :
    s.recalling read type = .ok (s.templateOf type) := by
  rw [recalling, h.lookup_eq, Option.elim_some]

/-- What is read on the way is had afterwards as it could be had before. -/
theorem LoadState.Grows.recalling_eq (h : s.Grows read s') : s'.recalling read = s.recalling read := by
  obtain ⟨new, hnew, hread⟩ := h.templates
  funext type
  rw [recalling, recalling, hnew, List.lookup_append]
  cases s.templates.lookup type with
  | some ps => rfl
  | none =>
    rw [Option.none_or, Option.elim_none]
    cases hlookup : new.lookup type with
    | none => rfl
    | some ps =>
      obtain ⟨before, after, hmem, -⟩ := List.lookup_eq_some_iff.mp hlookup
      have hps : read type = .ok ps := hread (type, ps) (hmem ▸ List.mem_append_right before List.mem_cons_self)
      rw [hps, Option.elim_some]

theorem exists_template_of_recalling (h : s.recalling read type = .ok ps) :
    ∃ s', Loader.template read type s = .ok ps s' := by
  unfold LoadState.recalling at h
  unfold Loader.template
  cases hlookup : s.templates.lookup type with
  | some qs =>
    rw [hlookup, Option.elim_some] at h
    cases h
    exact ⟨s, rfl⟩
  | none =>
    rw [hlookup, Option.elim_none] at h
    rw [h]
    exact ⟨_, rfl⟩

/-- All templates that the chips of a schematic ask for can be had. -/
def Offered (read : TemplateReader) (cs : List Component) : Prop :=
  ∀ type ∈ chipTypes cs, ∃ ps, read type = .ok ps

theorem LoadState.KnowsAll.templateBy_eq {cs : List Component} (h : s.KnowsAll cs) (read : TemplateReader) :
    ∀ type ∈ chipTypes cs, templateBy (s.recalling read) type = s.templateOf type :=
  fun type htype => templateBy_of_eq_ok ((h type htype).recalling_eq read)

theorem LoadState.KnowsAll.offered {cs : List Component} (h : s.KnowsAll cs) (read : TemplateReader) :
    Offered (s.recalling read) cs :=
  fun type htype => ⟨_, (h type htype).recalling_eq read⟩

theorem offered_cons {c : Component} {cs : List Component} : Offered read (c :: cs) ↔
    (∀ type ∈ c.chipType?, ∃ ps, read type = .ok ps) ∧ Offered read cs := by
  unfold Offered
  cases hc : c.chipType? with
  | none => simp [chipTypes_cons_of_none hc]
  | some type =>
    rw [chipTypes, List.filterMap_cons_some hc, List.forall_mem_cons]
    simp [chipTypes]

end Recall

section Runs

variable {read : TemplateReader} {canvas : Canvas} {cs ds : List Component} {s s' : LoadState}

theorem exists_sizeAll_of_offered (canvas : Canvas) (h : Offered (s.recalling read) cs) :
    ∃ ds s', sizeAll read canvas cs s = ⟨ds, s', none⟩ := by
  induction cs generalizing s with
  | nil => exact ⟨[], s, rfl⟩
  | cons c cs ih =>
    obtain ⟨hc, hcs⟩ := offered_cons.mp h
    have hsized : ∃ d s₁, c.sized read canvas.bounds s = .ok d s₁ := by
      cases c with
      | chip c =>
        obtain ⟨ps, hps⟩ := hc c.type rfl
        obtain ⟨s₁, htemplate⟩ := exists_template_of_recalling hps
        exact ⟨_, s₁, bind_eq_ok_iff.mpr ⟨ps, s₁, htemplate, rfl⟩⟩
      | canvas | net | pin | wire | foreign => exact ⟨_, s, rfl⟩
    obtain ⟨d, s₁, hd⟩ := hsized
    obtain ⟨hgrows, -, -⟩ := Component.sized_eq_ok hd
    rw [← hgrows.recalling_eq] at hcs
    obtain ⟨ds, s', hds⟩ := ih hcs
    exact ⟨d :: ds, s', sweep_cons_eq.mpr ⟨d, s₁, ds, hd, hds, rfl⟩⟩

theorem exists_expandFrom_of_offered (seen : List String) (h : Offered (s.recalling read) cs) :
    ∃ flat s', expandFrom read seen cs s = .ok flat s' := by
  induction cs generalizing s seen with
  | nil => exact ⟨[], s, rfl⟩
  | cons c cs ih =>
    obtain ⟨hc, hcs⟩ := offered_cons.mp h
    cases htype : c.chipType? with
    | none =>
      obtain ⟨flat, s', hflat⟩ := ih seen hcs
      rw [expandFrom_cons_of_none htype]
      exact ⟨_, s', bind_eq_ok_iff.mpr ⟨flat, s', hflat, rfl⟩⟩
    | some type =>
      cases c <;> cases htype
      next c =>
      obtain ⟨ps, hps⟩ := hc c.type rfl
      obtain ⟨s₁, htemplate⟩ := exists_template_of_recalling hps
      obtain ⟨hgrows, -, -⟩ := Loader.template_eq_ok htemplate
      rw [← hgrows.recalling_eq] at hcs
      obtain ⟨flat, s', hflat⟩ := ih (c.type :: seen) hcs
      exact ⟨_, s', bind_eq_ok_iff.mpr ⟨ps, s₁, htemplate, bind_eq_ok_iff.mpr ⟨flat, s', hflat, rfl⟩⟩⟩

theorem sizeAll_of_offered (h : sizeAll read canvas cs s = ⟨ds, s', none⟩) :
    Offered (s.recalling read) cs ∧
      ds = cs.map (Component.resize (templateBy (s.recalling read)) canvas.bounds) := by
  obtain ⟨hgrows, hknows, rfl⟩ := sizeAll_eq_ok h
  rw [← hgrows.recalling_eq]
  exact ⟨hknows.offered read, map_resize_congr (fun type htype =>
    (hknows.templateBy_eq read type htype).symm) canvas.bounds⟩

theorem expandAll_of_offered (h : expandAll read cs s = ⟨ds, s', none⟩) :
    Offered (s.recalling read) cs ∧ ds = (blocks (templateBy (s.recalling read)) cs).flatten := by
  obtain ⟨hgrows, hknows, rfl⟩ := expandAll_eq_ok h
  rw [← hgrows.recalling_eq]
  exact ⟨hknows.offered read, congrArg List.flatten (blocksFrom_congr (fun type htype =>
    (hknows.templateBy_eq read type htype).symm) [])⟩

end Runs

end Schematic
