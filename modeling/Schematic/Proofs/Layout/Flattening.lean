import Mathlib.Data.List.Basic
import Schematic.Proofs.Layout.Expansion
import Schematic.Proofs.Layout.Validity
import Schematic.Proofs.Library.Template

/-! Expansion of valid schematics. A pin of a chip stays inside the region that the chip was given, so
that it meets nothing which the chip did not meet. Main statement: an expanded valid schematic is valid. -/
namespace Schematic

/-- The sides of `r` are not beyond those of `q`. -/
def Region.Inside (r q : Region) : Prop :=
  q.edges.left ≤ r.edges.left ∧ r.edges.right ≤ q.edges.right ∧
    q.edges.top ≤ r.edges.top ∧ r.edges.bottom ≤ q.edges.bottom

namespace Region

theorem Inside.refl (r : Region) : r.Inside r :=
  ⟨Int.le_refl _, Int.le_refl _, Int.le_refl _, Int.le_refl _⟩

/-- A larger region meets at least as much. -/
theorem Meets.mono {r q r' q' : Region} (hr : r.Inside r') (hq : q.Inside q') (h : r.Meets q) :
    r'.Meets q' := by
  obtain ⟨hr₁, hr₂, hr₃, hr₄⟩ := hr
  obtain ⟨hq₁, hq₂, hq₃, hq₄⟩ := hq
  obtain ⟨h₁, h₂, h₃, h₄⟩ := h
  unfold Meets
  omega

theorem single_inside {p : Vec} {r : Region} (h : p ∈ r) : (single p).Inside r := by
  rw [mem_def] at h
  simp only [Inside, edges, single]
  omega

theorem single_meets_single {p q : Vec} : (single p).Meets (single q) ↔ p = q := by
  rw [meets_single_iff, mem_single, eq_comm]

end Region

/-- The size of the chip is the one that the template asks for. -/
def Chip.SizedFor (c : Chip) (template : List Pin) : Prop :=
  c.region.size = ⟨(template.length / 2 : Nat), chipHeight⟩

namespace Chip

variable {c : Chip} {template : List Pin} {index : Int}

@[simp] theorem length_expand : (c.expand template index).length = template.length := by
  simp [expand]

theorem region_getElem_expand (ht : IsTemplate template) {i : Nat} (hi : i < template.length)
    (hi' : i < (c.expand template index).length) : (c.expand template index)[i].region =
      .single (footprint (template.length / 2) i + c.region.position) := by
  simp only [expand, List.getElem_map, ht.region_getElem hi]
  rfl

/-- The pins of a chip stand on cells of the chip. -/
theorem mem_region_of_expand (ht : IsTemplate template) (hs : c.SizedFor template) {i : Nat}
    (hi : i < template.length) :
    footprint (template.length / 2) i + c.region.position ∈ c.region := by
  have hi' : i < 2 * (template.length / 2) := by rwa [ht.two_mul_half]
  have hb := footprint_bounds hi'
  rw [Region.mem_def, hs]
  simp only [Vec.add_x, Vec.add_y]
  omega

end Chip

namespace Component

theorem cover?_pin_single {p : Pin} {q : Vec} (h : p.region = .single q) :
    (Component.pin p).cover? = some (.single q) := by
  rw [cover?_eq_some_iff]
  exact ⟨congrArg some h, Region.not_degenerate_single q⟩

theorem apart_of_single {p q : Pin} {a b : Vec} (hp : p.region = .single a)
    (hq : q.region = .single b) (hab : a ≠ b) : (Component.pin p).Apart (.pin q) := by
  intro r hr r' hr'
  rw [cover?_pin_single hp, Option.some.injEq] at hr
  rw [cover?_pin_single hq, Option.some.injEq] at hr'
  subst hr hr'
  rwa [Region.single_meets_single]

/-- What `x` covers lies inside what `c` covers. -/
def CoveredBy (x c : Component) : Prop :=
  ∀ r, x.cover? = some r → ∃ q, c.cover? = some q ∧ r.Inside q

theorem CoveredBy.refl (c : Component) : c.CoveredBy c :=
  fun r hr => ⟨r, hr, .refl r⟩

theorem Apart.mono {x y c d : Component} (hx : x.CoveredBy c) (hy : y.CoveredBy d)
    (h : c.Apart d) : x.Apart y := by
  intro r hr q hq hm
  obtain ⟨r', hr', hir⟩ := hx r hr
  obtain ⟨q', hq', hiq⟩ := hy q hq
  exact h r' hr' q' hq' (hm.mono hir hiq)

end Component

/-- A chip has the size of its template. Other components have no template. -/
def Component.FitsTemplate (templateOf : String → List Pin) : Component → Prop
  | .chip c => IsTemplate (templateOf c.type) ∧ c.SizedFor (templateOf c.type)
  | _ => True

section Blocks

variable {templateOf : String → List Pin} {bounds : Vec} {c : Component}

theorem exists_of_mem_block {c : Chip} {seen : List String} {x : Component}
    (hx : x ∈ (Component.chip c).block templateOf seen) (ht : IsTemplate (templateOf c.type))
    (hs : c.SizedFor (templateOf c.type)) :
    ∃ p q, x = .pin p ∧ p.region = .single q ∧ q ∈ c.region := by
  obtain ⟨p, hp, rfl⟩ := List.mem_map.mp hx
  obtain ⟨i, hi, rfl⟩ := List.getElem_of_mem hp
  have hi' := hi
  rw [Chip.length_expand] at hi'
  exact ⟨_, _, rfl, Chip.region_getElem_expand ht hi' hi, Chip.mem_region_of_expand ht hs hi'⟩

theorem coveredBy_of_mem_block {seen : List String} {x : Component}
    (hf : c.FitsTemplate templateOf) (hx : x ∈ c.block templateOf seen) : x.CoveredBy c := by
  cases c with
  | chip c =>
    obtain ⟨ht, hs⟩ := hf
    obtain ⟨p, q, rfl, hp, hq⟩ := exists_of_mem_block hx ht hs
    intro r hr
    rw [Component.cover?_pin_single hp, Option.some.injEq] at hr
    subst hr
    refine ⟨c.region, Component.cover?_eq_some_iff.mpr ⟨rfl, ?_⟩, Region.single_inside hq⟩
    -- A region that has a cell is not degenerate.
    rw [Region.mem_def] at hq
    unfold Region.Degenerate
    omega
  | canvas | net | pin | wire | foreign =>
    rw [List.mem_singleton.mp hx]
    exact .refl _

theorem check_of_mem_block {seen : List String} {x : Component} (hf : c.FitsTemplate templateOf)
    (hc : c.check bounds = .ok ()) (hx : x ∈ c.block templateOf seen) :
    x.check bounds = .ok () := by
  cases c with
  | chip c =>
    obtain ⟨ht, hs⟩ := hf
    obtain ⟨p, q, rfl, hp, hq⟩ := exists_of_mem_block hx ht hs
    simp only [Component.check] at hc ⊢
    split_ifs at hc with hn hin
    obtain ⟨hnear, hfar⟩ := hin
    have hw : q.Within bounds := by
      rw [Region.mem_def] at hq
      simp only [Vec.Within, Vec.add_x, Vec.add_y] at hnear hfar ⊢
      omega
    rw [hp]
    exact if_pos hw
  | canvas | net | pin | wire | foreign =>
    rw [List.mem_singleton.mp hx]
    exact hc

theorem pairwise_apart_block {seen : List String} (hf : c.FitsTemplate templateOf) :
    (c.block templateOf seen).Pairwise Component.Apart := by
  cases c with
  | chip c =>
    obtain ⟨ht, hs⟩ := hf
    rw [Component.block, List.pairwise_map, List.pairwise_iff_getElem]
    intro i j hi hj hij
    have hi' := hi
    have hj' := hj
    rw [Chip.length_expand] at hi' hj'
    refine Component.apart_of_single (Chip.region_getElem_expand ht hi' hi)
      (Chip.region_getElem_expand ht hj' hj) fun h => ?_
    have heq := footprint_injective (Vec.add_right_cancel h)
    omega
  | canvas | net | pin | wire | foreign => exact List.pairwise_singleton _ _

theorem exists_of_mem_blocksFrom {seen : List String} {cs b : List Component}
    (hb : b ∈ blocksFrom templateOf seen cs) : ∃ c ∈ cs, ∃ seen, b = c.block templateOf seen := by
  induction cs generalizing seen with
  | nil => cases hb
  | cons c cs ih =>
    rcases List.mem_cons.mp hb with rfl | hb
    · exact ⟨c, List.mem_cons_self, _, rfl⟩
    · obtain ⟨d, hd, seen', rfl⟩ := ih hb
      exact ⟨d, List.mem_cons_of_mem c hd, seen', rfl⟩

theorem pairwise_blocksFrom {seen : List String} {cs : List Component}
    {R : List Component → List Component → Prop} (h : cs.Pairwise fun c d => ∀ k m,
      R (c.block templateOf k) (d.block templateOf m)) :
    (blocksFrom templateOf seen cs).Pairwise R := by
  induction cs generalizing seen with
  | nil => exact .nil
  | cons c cs ih =>
    obtain ⟨hc, hcs⟩ := List.pairwise_cons.mp h
    refine List.pairwise_cons.mpr ⟨?_, ih hcs⟩
    intro b hb
    obtain ⟨d, hd, m, rfl⟩ := exists_of_mem_blocksFrom hb
    exact hc d hd _ m

/-- Validity passes from the components to the blocks that take their places. -/
theorem validate_flatten_blocks {cs : List Component} {canvas : Canvas} {viewport : Option Vec}
    (hf : ∀ c ∈ cs, c.FitsTemplate templateOf) (hv : validate cs canvas viewport = .ok ()) :
    validate (blocks templateOf cs).flatten canvas viewport = .ok () := by
  obtain ⟨hfit, hcheck, hapart⟩ := validate_eq_ok_iff.mp hv
  refine validate_eq_ok_iff.mpr ⟨hfit, ?_, List.pairwise_flatten.mpr ⟨?_, ?_⟩⟩
  · intro x hx
    obtain ⟨b, hb, hxb⟩ := List.mem_flatten.mp hx
    obtain ⟨c, hc, seen, rfl⟩ := exists_of_mem_blocksFrom hb
    exact check_of_mem_block (hf c hc) (hcheck c hc) hxb
  · intro b hb
    obtain ⟨c, hc, seen, rfl⟩ := exists_of_mem_blocksFrom hb
    exact pairwise_apart_block (hf c hc)
  · refine pairwise_blocksFrom (List.Pairwise.imp_of_mem ?_ hapart)
    intro c d hc hd hcd k m x hx y hy
    exact hcd.mono (coveredBy_of_mem_block (hf c hc) hx) (coveredBy_of_mem_block (hf d hd) hy)

/-- What an expanded schematic holds: its components but the chips, and pins of its chips. -/
theorem exists_of_mem_flatten_blocks {cs : List Component} {x : Component}
    (hx : x ∈ (blocks templateOf cs).flatten) : (x ∈ cs ∧ x.chipType? = none) ∨
      ∃ c index p, .chip c ∈ cs ∧ p ∈ c.expand (templateOf c.type) index ∧ x = .pin p := by
  obtain ⟨b, hb, hxb⟩ := List.mem_flatten.mp hx
  obtain ⟨c, hc, seen, rfl⟩ := exists_of_mem_blocksFrom hb
  cases hk : c.chipType? with
  | none =>
    rw [Component.block_of_chipType?_eq_none hk, List.mem_singleton] at hxb
    exact .inl ⟨hxb ▸ hc, hxb ▸ hk⟩
  | some type =>
    cases c <;> cases hk
    next c =>
    obtain ⟨p, hp, rfl⟩ := List.mem_map.mp hxb
    exact .inr ⟨c, _, p, hc, hp, rfl⟩

end Blocks

section Sizing

variable {l : Library} {files : Files.Tree} {canvas : Canvas} {cs sized : List Component}
  {s s' : LoadState}

theorem isTemplate_templateOf (hs : ∀ e ∈ s.templates, IsTemplate e.2) {type : String}
    (hk : s.Knows type) : IsTemplate (s.templateOf type) := hs _ hk.mem_templates

/-- Sizing leaves no chip that does not have the size of its template. -/
theorem fitsTemplate_of_sizeAll (hs : ∀ e ∈ s.templates, IsTemplate e.2)
    (h : sizeAll (l.template files) canvas cs s = ⟨sized, s', none⟩) :
    s'.KnowsAll sized ∧ ∀ c ∈ sized, c.FitsTemplate s'.templateOf := by
  obtain ⟨hg, hk, rfl⟩ := sizeAll_eq_ok h
  have hs' := hg.forall_templates (fun _ _ hr => Library.isTemplate_of_template hr) hs
  constructor
  · rw [LoadState.KnowsAll, chipTypes_map (Component.chipType?_resize _ _)]
    exact hk
  · intro c hc
    obtain ⟨d, hd, rfl⟩ := List.mem_map.mp hc
    cases d with
    | chip d => exact ⟨isTemplate_templateOf hs' (hk d.type (mem_chipTypes hd)), rfl⟩
    | canvas | net | pin | wire | foreign => trivial

end Sizing

end Schematic
