import Schematic.Proofs.Load.Steps

/-! What a step of loading leaves behind. Templates once read stay, and so does all that was logged.
Main statement: reading a template adds at most that template. -/
namespace Schematic

namespace LoadState

/-- The template of a type among those read so far. It has no pins if it was not read. -/
def templateOf (s : LoadState) (type : String) : List Pin := (s.templates.lookup type).getD []

/-- The template of the type was read. -/
def Knows (s : LoadState) (type : String) : Prop := (s.templates.lookup type).isSome

/-- `s'` is `s` with further templates, each as `read` gives it, and with further entries in the log. -/
structure Grows (read : TemplateReader) (s s' : LoadState) : Prop where
  templates : ∃ new, s'.templates = s.templates ++ new ∧ ∀ e ∈ new, read e.1 = .ok e.2
  log : s.log <+: s'.log
  warnings : s'.warnings = s.warnings

variable {read : TemplateReader} {s s' s'' : LoadState} {type : String}

theorem knows_iff_exists_lookup : s.Knows type ↔ ∃ ps, s.templates.lookup type = some ps :=
  Option.isSome_iff_exists

theorem Knows.lookup_eq (h : s.Knows type) :
    s.templates.lookup type = some (s.templateOf type) := by
  obtain ⟨ps, hps⟩ := knows_iff_exists_lookup.mp h
  rw [templateOf, hps, Option.getD_some]

theorem Knows.mem_templates (h : s.Knows type) : (type, s.templateOf type) ∈ s.templates := by
  obtain ⟨l₁, l₂, hl, -⟩ := List.lookup_eq_some_iff.mp h.lookup_eq
  rw [hl]
  exact List.mem_append_right l₁ List.mem_cons_self

namespace Grows

theorem refl (read : TemplateReader) (s : LoadState) : s.Grows read s :=
  ⟨⟨[], (List.append_nil _).symm, by simp⟩, List.prefix_rfl, rfl⟩

theorem trans (h₁ : s.Grows read s') (h₂ : s'.Grows read s'') : s.Grows read s'' := by
  obtain ⟨new₁, ht₁, hr₁⟩ := h₁.templates
  obtain ⟨new₂, ht₂, hr₂⟩ := h₂.templates
  refine ⟨⟨new₁ ++ new₂, ?_, ?_⟩, h₁.log.trans h₂.log, h₂.warnings.trans h₁.warnings⟩
  · rw [ht₂, ht₁, List.append_assoc]
  · intro e he
    rcases List.mem_append.mp he with he | he
    · exact hr₁ e he
    · exact hr₂ e he

theorem add_log (read : TemplateReader) (s : LoadState) (severity : Severity) (message : String) :
    s.Grows read { s with log := s.log.add severity message } :=
  ⟨⟨[], (List.append_nil _).symm, by simp⟩, List.prefix_append _ _, rfl⟩

theorem lookup_eq (h : s.Grows read s') {ps : List Pin} (hp : s.templates.lookup type = some ps) :
    s'.templates.lookup type = some ps := by
  obtain ⟨new, ht, -⟩ := h.templates
  rw [ht, List.lookup_append, hp, Option.some_or]

theorem knows (h : s.Grows read s') (hk : s.Knows type) : s'.Knows type :=
  knows_iff_exists_lookup.mpr ⟨_, h.lookup_eq hk.lookup_eq⟩

theorem templateOf_eq (h : s.Grows read s') (hk : s.Knows type) :
    s'.templateOf type = s.templateOf type := by
  have hl := h.lookup_eq hk.lookup_eq
  rw [(h.knows hk).lookup_eq] at hl
  exact Option.some.inj hl

/-- From nothing known, only what is read comes to be known. -/
theorem read_eq (h : s.Grows read s') (hs : s.templates = []) (hk : s'.Knows type) :
    read type = .ok (s'.templateOf type) := by
  obtain ⟨new, hnew, hread⟩ := h.templates
  have hmem := hk.mem_templates
  rw [hnew, hs, List.nil_append] at hmem
  exact hread _ hmem

/-- A property of all that `read` gives holds of the templates read, if it did before. -/
theorem forall_templates (h : s.Grows read s') {P : List Pin → Prop}
    (hr : ∀ type ps, read type = .ok ps → P ps) (hs : ∀ e ∈ s.templates, P e.2) :
    ∀ e ∈ s'.templates, P e.2 := by
  obtain ⟨new, ht, hn⟩ := h.templates
  intro e he
  rw [ht] at he
  rcases List.mem_append.mp he with he | he
  · exact hs e he
  · exact hr e.1 e.2 (hn e he)

end Grows
end LoadState

namespace Loader

variable {α : Type} {s s' : LoadState}

theorem pure_eq_ok {a b : α} : (pure a : Loader α) s = .ok b s' ↔ a = b ∧ s = s' := by
  simp [pure, EStateM.pure]

theorem ofExcept_eq_ok {x : Except Failure α} {a : α} :
    ofExcept x s = .ok a s' ↔ x = .ok a ∧ s = s' := by
  cases x with
  | ok b => simp [ofExcept, pure, EStateM.pure]
  | error e =>
    constructor
    · intro h
      cases h
    · intro h
      cases h.1

theorem template_of_knows {type : String} (read : TemplateReader) (h : s.Knows type) :
    template read type s = .ok (s.templateOf type) s := by
  simp only [template, h.lookup_eq]

/-- A template that is given is the one that is known from then on. -/
theorem template_eq_ok {read : TemplateReader} {type : String} {ps : List Pin}
    (h : template read type s = .ok ps s') :
    s.Grows read s' ∧ s'.Knows type ∧ ps = s'.templateOf type := by
  unfold template at h
  split at h
  · next hl =>
    cases h
    have hk : s.Knows type := LoadState.knows_iff_exists_lookup.mpr ⟨ps, hl⟩
    exact ⟨.refl read s, hk, Option.some.inj (hl.symm.trans hk.lookup_eq)⟩
  · next hl =>
    split at h
    · cases h
    · next hr =>
      cases h
      have hnew : (s.templates ++ [(type, ps)]).lookup type = some ps := by
        rw [List.lookup_append, hl, Option.none_or, List.lookup_cons_self]
      refine ⟨⟨⟨[(type, ps)], rfl, ?_⟩, List.prefix_append _ _, rfl⟩, ?_, ?_⟩
      · intro e he
        rw [List.mem_singleton.mp he]
        exact hr
      · exact LoadState.knows_iff_exists_lookup.mpr ⟨ps, hnew⟩
      · rw [LoadState.templateOf, hnew, Option.getD_some]

end Loader

end Schematic
