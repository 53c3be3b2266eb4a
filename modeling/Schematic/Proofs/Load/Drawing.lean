import Schematic.Proofs.Load.Passage

/-! Drawings of loaded projects. A source writes nets of a row that is not negative and pins of one cell,
which validation does not look at. Main statement: expansion keeps validity, so that in a loaded project
each pin and net has cells of the canvas to itself. -/
namespace Schematic
open Schematic.Files

namespace Component

@[simp] theorem check_unpowered (bounds : Vec) (c : Component) :
    c.unpowered.check bounds = c.check bounds := by
  cases c <;> rfl

@[simp] theorem region?_unpowered (c : Component) : c.unpowered.region? = c.region? := by
  cases c <;> rfl

@[simp] theorem chipType?_unpowered (c : Component) : c.unpowered.chipType? = c.chipType? := by
  cases c <;> rfl

end Component

section Unpowered

variable {cs ds : List Component}

theorem exists_of_map_unpowered_eq
    (h : ds.map Component.unpowered = cs.map Component.unpowered) {d : Component} (hd : d ∈ ds) :
    ∃ c ∈ cs, c.unpowered = d.unpowered := by
  have hm := List.mem_map_of_mem (f := Component.unpowered) hd
  rw [h] at hm
  exact List.mem_map.mp hm

theorem validate_of_map_unpowered_eq {canvas : Canvas} {viewport : Option Vec}
    (h : ds.map Component.unpowered = cs.map Component.unpowered)
    (hv : validate cs canvas viewport = .ok ()) : validate ds canvas viewport = .ok () :=
  validate_of_map_eq Component.check_unpowered Component.region?_unpowered h hv

end Unpowered

/-- Nets span the canvas on a row that is not negative, and pins have one cell. -/
def Component.Boxed (bounds : Vec) : Component → Prop
  | .net n => ∃ y, 0 ≤ y ∧ n.region = ⟨⟨0, y⟩, ⟨bounds.x, 1⟩⟩
  | .pin p => ∃ q, p.region = .single q
  | _ => True

theorem Component.boxed_unpowered {bounds : Vec} {c : Component} :
    c.unpowered.Boxed bounds ↔ c.Boxed bounds := by
  cases c <;> rfl

theorem Component.Declared.boxed_resize {c : Component} (h : c.Declared)
    (templateOf : String → List Pin) (bounds : Vec) : (c.resize templateOf bounds).Boxed bounds := by
  obtain ⟨hd, -⟩ := h
  cases c with
  | net n =>
    obtain ⟨-, -, hy, -⟩ := hd
    exact ⟨n.region.position.y, hy.1, rfl⟩
  | pin p =>
    obtain ⟨-, -, hs⟩ := hd
    refine ⟨p.region.position, ?_⟩
    cases hr : p.region with
    | mk position size =>
      rw [hr] at hs
      exact congrArg (Region.mk position) hs
  | canvas | chip | wire | foreign => trivial

/-- Every cell of a pin or a net that passes its check is one of the canvas. -/
theorem Component.within_of_check {bounds : Vec} {c : Component} (hb : c.Boxed bounds)
    (hc : c.check bounds = .ok ()) (hk : c.chipType? = none) {r : Region}
    (hr : c.region? = some r) {q : Vec} (hq : q ∈ r) : q.Within bounds := by
  cases c with
  | chip c => cases hk
  | net n =>
    cases hr
    obtain ⟨y, hy, hn⟩ := hb
    rw [hn] at hq
    simp only [check, hn] at hc
    split_ifs at hc with ht hbound
    simp only [Region.mem_def] at hq
    unfold Vec.Within
    omega
  | pin p =>
    cases hr
    obtain ⟨a, ha⟩ := hb
    rw [ha, Region.mem_single] at hq
    subst hq
    simp only [check, ha] at hc
    split_ifs at hc with hw
    exact hw
  | canvas | wire | foreign => cases hr

/-- A project whose pins and nets can be drawn: each cell is of the canvas, and belongs to one of them. -/
structure Project.Drawable (p : Project) : Prop where
  noChip : ∀ c, .chip c ∉ p.components
  within : ∀ c ∈ p.components, ∀ r, c.region? = some r → ∀ q ∈ r, q.Within p.bounds
  disjoint : p.components.Pairwise fun c d => ∀ r, c.region? = some r → ∀ r', d.region? = some r' →
    ∀ q, ¬(q ∈ r ∧ q ∈ r')
  wires : ∀ w, .wire w ∈ p.components →
    w.start.Within p.bounds ∧ w.stop.Within p.bounds ∧ w.start ≠ w.stop

/-- A cell of two regions is what the edge test finds. -/
theorem Component.Apart.not_mem {c d : Component} (h : c.Apart d) {r r' : Region}
    (hr : c.region? = some r) (hr' : d.region? = some r') (q : Vec) : ¬(q ∈ r ∧ q ∈ r') := by
  intro hcell
  obtain ⟨hq, hq'⟩ := hcell
  rw [Region.mem_def] at hq hq'
  have hd : ¬r.Degenerate := by
    unfold Region.Degenerate
    omega
  have hd' : ¬r'.Degenerate := by
    unfold Region.Degenerate
    omega
  refine h r (cover?_eq_some_iff.mpr ⟨hr, hd⟩) r' (cover?_eq_some_iff.mpr ⟨hr', hd'⟩) ?_
  simp only [Region.Meets, Region.edges]
  omega

namespace Passage

variable {files : Tree} {input : Source.Input} {options : LoadOptions}
  {library? : Option Library} {p : Project}

theorem validate_components (t : Passage files input options library? p) :
    validate p.components p.canvas options.viewport = .ok () :=
  validate_of_map_unpowered_eq t.resolves.map_unpowered t.validate_flat

theorem boxed_lettered (t : Passage files input options library? p) {c : Component}
    (h : c ∈ t.lettered) : c.Boxed p.canvas.bounds := by
  cases hw : c.wire? with
  | some w =>
    cases c <;> cases hw
    trivial
  | none =>
    have hsized := t.mem_sized_of_mem_lettered hw h
    rw [t.sized_eq] at hsized
    obtain ⟨d, hd, rfl⟩ := List.mem_map.mp hsized
    exact (Source.declared_of_read t.read_eq d hd).boxed_resize _ _

theorem boxed_components (t : Passage files input options library? p) {c : Component}
    (h : c ∈ p.components) :
    c.Boxed p.canvas.bounds ∧ c.chipType? = none := by
  obtain ⟨d, hd, he⟩ := exists_of_map_unpowered_eq t.resolves.map_unpowered h
  rw [t.flat_eq] at hd
  have hflat : d.Boxed p.canvas.bounds ∧ d.chipType? = none := by
    rcases exists_of_mem_flatten_blocks hd with ⟨hd, hk⟩ | ⟨c, index, q, -, hq, rfl⟩
    · exact ⟨t.boxed_lettered hd, hk⟩
    · obtain ⟨a, -, rfl⟩ := List.mem_map.mp hq
      exact ⟨⟨_, rfl⟩, rfl⟩
  rw [← Component.boxed_unpowered, ← Component.chipType?_unpowered, he,
    Component.boxed_unpowered, Component.chipType?_unpowered] at hflat
  exact hflat

theorem drawable (t : Passage files input options library? p) : p.Drawable := by
  obtain ⟨-, hcheck, hapart⟩ := validate_eq_ok_iff.mp t.validate_components
  constructor
  · intro c hc
    cases (t.boxed_components hc).2
  · intro c hc r hr q hq
    obtain ⟨hb, hk⟩ := t.boxed_components hc
    exact Component.within_of_check hb (hcheck c hc) hk hr hq
  · exact hapart.imp fun h r hr r' hr' q => h.not_mem hr hr' q
  · intro w hw
    have hc := hcheck _ hw
    simp only [Component.check] at hc
    split_ifs at hc with hs ht hne
    exact ⟨hs, ht, hne⟩

end Passage

/-- Expansion keeps validity, whatever has become of the template files since the chips were sized, and so
every loaded project is drawable. -/
theorem expansion_valid :
    (∀ (l : Library) (files files' : Tree) (canvas : Canvas) (viewport : Option Vec)
      (cs sized : List Component) (s s' : LoadState), (∀ e ∈ s.templates, IsTemplate e.2) →
      sizeAll (l.template files) canvas cs s = ⟨sized, s', none⟩ →
      validate sized canvas viewport = .ok () →
      ∃ flat s'', expandAll (l.template files') sized s' = ⟨flat, s'', none⟩ ∧
        validate flat canvas viewport = .ok () ∧ ∀ e ∈ s''.templates, IsTemplate e.2) ∧
    ∀ (files : Tree) (input : Source.Input) (options : LoadOptions) (library? : Option Library)
      (log : Log) (p : Project),
      (load files input options library? log).project = .ok (some p) → p.Drawable := by
  constructor
  · intro l files files' canvas viewport cs sized s s' hs hsize hv
    obtain ⟨hk, hf⟩ := fitsTemplate_of_sizeAll hs hsize
    obtain ⟨s'', he⟩ := expandAll_of_knowsAll (l.template files') hk
    obtain ⟨hg, -, -⟩ := sizeAll_eq_ok hsize
    obtain ⟨hg', -, -⟩ := expandAll_eq_ok he
    have hs' := hg.forall_templates (fun _ _ hr => Library.isTemplate_of_template hr) hs
    have hs'' := hg'.forall_templates (fun _ _ hr => Library.isTemplate_of_template hr) hs'
    exact ⟨_, s'', he, validate_flatten_blocks hf hv, hs''⟩
  · intro files input options library? log p h
    obtain ⟨t, -⟩ := exists_passage h
    exact t.drawable

/-- The chip of the first buffer, as its line declares it. -/
def bufferChip : Component := .chip { type := "gates/buf", region := ⟨⟨1, 1⟩, ⟨0, chipHeight⟩⟩ }

theorem expansion_valid_buffers :
    (∃ sized s' flat s'', sizeAll (Library.onlyBundled.template .fresh) { bounds := ⟨4, 5⟩ }
        [bufferChip] {} = ⟨sized, s', none⟩ ∧
      expandAll (Library.onlyBundled.template .fresh) sized s' = ⟨flat, s'', none⟩ ∧
        validate flat { bounds := ⟨4, 5⟩ } none = .ok ()) ∧
    (load .fresh buffers {} none []).project = .ok (some bufferProject) ∧
      bufferProject.Drawable := by
  constructor
  · have hf : (sizeAll (Library.onlyBundled.template .fresh) { bounds := ⟨4, 5⟩ }
        [bufferChip] {}).failure = none := by decide +kernel
    have hv : validate (sizeAll (Library.onlyBundled.template .fresh) { bounds := ⟨4, 5⟩ }
        [bufferChip] {}).items { bounds := ⟨4, 5⟩ } none = .ok () := by decide +kernel
    obtain ⟨flat, s'', he, hflat, -⟩ := expansion_valid.1 _ .fresh .fresh _ none _ _ {} _ (by simp)
      (by rw [← hf]) hv
    exact ⟨_, _, flat, s'', by rw [← hf], he, hflat⟩
  · have hp := load_buffers.1
    exact ⟨hp, expansion_valid.2 _ _ _ _ _ _ hp⟩

end Schematic
