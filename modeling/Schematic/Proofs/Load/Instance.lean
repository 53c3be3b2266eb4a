import Schematic.Proofs.Circuit.Renaming
import Schematic.Proofs.Load.Passage

/-! Instances of chips in loaded projects. The pins of an instance are those that come from where its chip
comes from. Main statement: an instance whose labels no other pin has means what its template means. -/
namespace Schematic
open Schematic.Files

/-- The pins that come from one place of the source. -/
def pinsFrom (o : Option Origin) (ps : List Pin) : List Pin := ps.filter fun p => p.origin = o

/-- Voltages do not matter to where a pin comes from. -/
theorem map_unpowered_pinsFrom_eq (o : Option Origin) (ps : List Pin) :
    (pinsFrom o ps).map Pin.unpowered = pinsFrom o (ps.map Pin.unpowered) := by
  unfold pinsFrom
  rw [List.filter_map]
  rfl

/-- `ps` with the voltages of `qs`, position by position. -/
def powerAs (ps qs : List Pin) : List Pin := List.zipWith (fun p q => p.powered q.voltage) ps qs

/-- The pins of `own` come from `o`, and those at both sides of them do not. -/
structure Flanked (o : Option Origin) (front own back : List Pin) : Prop where
  front : ∀ q ∈ front, q.origin ≠ o
  own : ∀ q ∈ own, q.origin = o
  back : ∀ q ∈ back, q.origin ≠ o

section Pins

variable {o : Option Origin} {front own back front' own' back' ps qs : List Pin}

namespace Flanked

theorem pinsFrom_eq (h : Flanked o front own back) : pinsFrom o (front ++ own ++ back) = own := by
  have hf : pinsFrom o front = [] := List.filter_eq_nil_iff.mpr (by simpa using h.front)
  have ho : pinsFrom o own = own := List.filter_eq_self.mpr (by simpa using h.own)
  have hb : pinsFrom o back = [] := List.filter_eq_nil_iff.mpr (by simpa using h.back)
  unfold pinsFrom at hf ho hb ⊢
  rw [List.filter_append, List.filter_append, hf, ho, hb, List.nil_append, List.append_nil]

/-- Voltages do not matter. -/
theorem congr (h : Flanked o front own back)
    (hfront : front'.map Pin.unpowered = front.map Pin.unpowered)
    (hown : own'.map Pin.unpowered = own.map Pin.unpowered)
    (hback : back'.map Pin.unpowered = back.map Pin.unpowered) : Flanked o front' own' back' := by
  constructor
  · intro q hq
    obtain ⟨p, hp, he⟩ := Pin.exists_of_map_unpowered hfront hq
    rw [← Pin.origin_eq_of_unpowered_eq he]
    exact h.front p hp
  · intro q hq
    obtain ⟨p, hp, he⟩ := Pin.exists_of_map_unpowered hown hq
    rw [← Pin.origin_eq_of_unpowered_eq he]
    exact h.own p hp
  · intro q hq
    obtain ⟨p, hp, he⟩ := Pin.exists_of_map_unpowered hback hq
    rw [← Pin.origin_eq_of_unpowered_eq he]
    exact h.back p hp

/-- A property of the pins that do not come from `o` is one of the pins at both sides. -/
theorem forall_sides (h : Flanked o front own back) {P : Pin → Prop}
    (hP : ∀ q ∈ front ++ own ++ back, q.origin ≠ o → P q) :
    (∀ q ∈ front, P q) ∧ ∀ q ∈ back, P q := by
  constructor
  · intro q hq
    exact hP q (List.mem_append_left _ (List.mem_append_left _ hq)) (h.front q hq)
  · intro q hq
    exact hP q (List.mem_append_right _ hq) (h.back q hq)

end Flanked

/-- The pins of an instance copy those of the template, whatever voltages they have. -/
theorem forall₂_copies_powerAs (c : Chip) (template : List Pin) (index : Int)
    (h : own.map Pin.unpowered = (c.expand template index).map Pin.unpowered) :
    List.Forall₂ (Pin.Copies (instanceSuffix c.type index)) own (powerAs template own) := by
  unfold Chip.expand at h
  induction template generalizing own with
  | nil =>
    rw [List.map_eq_nil_iff.mp h]
    exact .nil
  | cons p template ih =>
    cases own with
    | nil => cases h
    | cons q own =>
      rw [List.map_cons, List.map_cons, List.map_cons, List.cons.injEq] at h
      obtain ⟨hq, hown⟩ := h
      have hlabel := congrArg Pin.label hq
      have hcontent := congrArg (fun r : Pin => r.value.content) hq
      have hlabels := congrArg (fun r : Pin => r.value.labels) hq
      exact .cons ⟨hlabel, hcontent, hlabels, rfl⟩ (ih hown)

end Pins

section Blocks

variable {templateOf : String → List Pin} {seen : List String} {cs : List Component}

theorem origin_of_mem_block {c : Component} {q : Pin} (h : q ∈ pins (c.block templateOf seen)) :
    q.origin = c.origin? := by
  cases c with
  | chip c =>
    rw [Component.block, pins_map_pin] at h
    obtain ⟨p, -, rfl⟩ := List.mem_map.mp h
    rfl
  | pin p =>
    rw [List.mem_singleton.mp h]
    rfl
  | canvas | net | wire | foreign => cases h

theorem exists_origin_of_mem {q : Pin} (h : q ∈ pins (blocksFrom templateOf seen cs).flatten) :
    ∃ c ∈ cs, q.origin = c.origin? := by
  induction cs generalizing seen with
  | nil => cases h
  | cons c cs ih =>
    rw [blocksFrom, List.flatten_cons, pins_append] at h
    rcases List.mem_append.mp h with h | h
    · exact ⟨c, List.mem_cons_self, origin_of_mem_block h⟩
    · obtain ⟨d, hd, ho⟩ := ih h
      exact ⟨d, List.mem_cons_of_mem c hd, ho⟩

end Blocks

variable {files : Tree} {input : Source.Input} {options : LoadOptions}
  {library? : Option Library} {log : Log} {p : Project} {before after : List Component} {c : Chip}

namespace Passage

variable (t : Passage files input options library? p)

/-- The pins of an instance stand together, and no other pin comes from its chip. -/
theorem exists_flanked_flat (hs : t.source = before ++ .chip c :: after) :
    ∃ front back, pins t.flat =
        front ++ c.expand (t.templateOf c.type) (ordinal c.type before) ++ back ∧
      Flanked c.origin front (c.expand (t.templateOf c.type) (ordinal c.type before)) back := by
  have hdistinct := Source.pairwise_origin?_of_read t.read_eq
  rw [hs] at hdistinct
  obtain ⟨-, hchip, hbefore⟩ := List.pairwise_append.mp hdistinct
  obtain ⟨hafter, -⟩ := List.pairwise_cons.mp hchip
  refine ⟨pins (blocksFrom t.templateOf [] before).flatten,
    pins (blocksFrom t.templateOf (c.type :: (chipTypes before).reverse) after).flatten, ?_, ?_, ?_, ?_⟩
  · rw [t.pins_flat, hs, blocks, blocksFrom_append, blocksFrom, List.append_nil,
      List.flatten_append, List.flatten_cons, pins_append, pins_append, Component.block,
      pins_map_pin, List.count_reverse, List.append_assoc]
    rfl
  · intro q hq
    obtain ⟨d, hd, ho⟩ := exists_origin_of_mem hq
    rw [ho]
    exact hbefore d hd (.chip c) List.mem_cons_self
  · intro q hq
    obtain ⟨p, -, rfl⟩ := List.mem_map.mp hq
    rfl
  · intro q hq
    obtain ⟨d, hd, ho⟩ := exists_origin_of_mem hq
    rw [ho]
    exact (hafter d hd).symm

/-- So do the pins after the rails. -/
theorem exists_flanked_connected (hs : t.source = before ++ .chip c :: after) :
    ∃ front own back, t.connected = front ++ own ++ back ∧ Flanked c.origin front own back ∧
      own.map Pin.unpowered =
        (c.expand (t.templateOf c.type) (ordinal c.type before)).map Pin.unpowered := by
  obtain ⟨front₀, back₀, hflat, hflanked⟩ := t.exists_flanked_flat hs
  have hconnected := map_unpowered_of_connectAll t.resolves.connect
  rw [hflat, List.map_append, List.map_append] at hconnected
  obtain ⟨left, back, hl, hleft, hback⟩ := List.map_eq_append_iff.mp hconnected
  obtain ⟨front, own, rfl, hfront, hown⟩ := List.map_eq_append_iff.mp hleft
  exact ⟨front, own, back, hl, hflanked.congr hfront hown hback, hown⟩

/-- What a project has of an instance is the expansion of its template, with voltages. -/
theorem map_unpowered_pinsFrom (hs : t.source = before ++ .chip c :: after) :
    (pinsFrom c.origin (pins p.components)).map Pin.unpowered =
      (c.expand (t.templateOf c.type) (ordinal c.type before)).map Pin.unpowered := by
  have hpins : (pins p.components).map Pin.unpowered = (pins t.flat).map Pin.unpowered := by
    rw [t.resolves.pins_eq]
    exact t.resolves.map_unpowered_pins
  obtain ⟨front, back, hflat, hflanked⟩ := t.exists_flanked_flat hs
  rw [map_unpowered_pinsFrom_eq, hpins, ← map_unpowered_pinsFrom_eq, hflat, hflanked.pinsFrom_eq]

end Passage

/-- Where no other pin has a label with the ending of the instance, its pins get the voltages that the
template alone gets from those that the rails have given the instance. -/
theorem instance_settles_as_template
    (h : (load files input options library? log).project = .ok (some p))
    (hread : input.read files = .ok (before ++ .chip c :: after))
    (hfree : ∀ q ∈ pins p.components, q.origin ≠ c.origin →
      q.Outside (instanceSuffix c.type (ordinal c.type before))) :
    ∃ (t : Passage files input options library? p) (template : List Pin),
      t.library.template files c.type = .ok template ∧
      (pinsFrom c.origin (pins p.components)).map Pin.unpowered =
        (c.expand template (ordinal c.type before)).map Pin.unpowered ∧
      (pinsFrom c.origin (pins p.components)).map Pin.voltage =
        (Pin.settleAll (powerAs template (pinsFrom c.origin t.connected))).1.map Pin.voltage := by
  obtain ⟨t, -⟩ := exists_passage h
  have hs : t.source = before ++ .chip c :: after := Except.ok.inj (t.read_eq.symm.trans hread)
  have htype : c.type ∈ chipTypes t.lettered := by
    rw [t.chipTypes_lettered, hs]
    exact mem_chipTypes (List.mem_append_right _ List.mem_cons_self)
  refine ⟨t, t.templateOf c.type, t.template_eq htype, ?_⟩
  obtain ⟨front, own, back, hconnected, hflanked, hown⟩ := t.exists_flanked_connected hs
  -- What the project promises of its pins outside the instance holds of them before they settle.
  have houtside : ∀ q ∈ front ++ own ++ back, q.origin ≠ c.origin →
      q.Outside (instanceSuffix c.type (ordinal c.type before)) := by
    have hsettled : (pins p.components).map Pin.unpowered =
        (front ++ own ++ back).map Pin.unpowered := by
      rw [t.resolves.pins_eq, ← hconnected]
      exact Pin.map_unpowered_settleFrom _ _
    intro q hq ho l hl
    obtain ⟨a, ha, he⟩ := Pin.exists_of_map_unpowered hsettled.symm hq
    rw [← Pin.label_eq_of_unpowered_eq he]
    exact hfree a ha (Pin.origin_eq_of_unpowered_eq he ▸ ho) l hl
  obtain ⟨hfront, hback⟩ := hflanked.forall_sides houtside
  obtain ⟨front', own', back', hsettled, hfront', hown', hback', hvoltage⟩ :=
    Pin.settleAll_copies hfront (forall₂_copies_powerAs c _ _ hown) hback
  have hflanked' := hflanked.congr hfront' hown' hback'
  rw [t.resolves.pins_eq, hconnected, hsettled, hflanked.pinsFrom_eq, hflanked'.pinsFrom_eq]
  exact ⟨hown'.trans hown, hvoltage⟩

theorem instance_settles_as_template_buffers :
    ∃ (c : Chip) (before after : List Component)
      (t : Passage .fresh buffers {} none bufferProject) (template : List Pin),
      buffers.read .fresh = .ok (before ++ .chip c :: after) ∧
      t.library.template .fresh c.type = .ok template ∧
      (pinsFrom c.origin (pins bufferProject.components)).map Pin.voltage =
        (Pin.settleAll (powerAs template (pinsFrom c.origin t.connected))).1.map Pin.voltage := by
  have hread : buffers.read .fresh = .ok ([
      .canvas ⟨⟨4, 5⟩, some ⟨1, none⟩⟩, .net ⟨"vcc", ⟨⟨0, 0⟩, ⟨0, 1⟩⟩, some ⟨2, none⟩⟩] ++
      .chip ⟨"gates/buf", ⟨⟨1, 1⟩, ⟨0, chipHeight⟩⟩, some ⟨3, none⟩⟩ :: [
      .wire ⟨some .red, ⟨1, 3⟩, ⟨3, 0⟩, "", some ⟨4, none⟩⟩,
      .chip ⟨"gates/buf", ⟨⟨2, 1⟩, ⟨0, chipHeight⟩⟩, some ⟨5, none⟩⟩]) := by decide +kernel
  have hends : ∀ q ∈ pins bufferProject.components, q.origin ≠ some ⟨3, none⟩ →
      ¬"_buf_1".toList <:+ q.label.toList := by decide +kernel
  have hfree : ∀ q ∈ pins bufferProject.components, q.origin ≠ some ⟨3, none⟩ →
      q.Outside "_buf_1" := by
    intro q hq ho l _ he
    refine hends q hq ho ?_
    rw [he, String.toList_append]
    exact List.suffix_append _ _
  obtain ⟨t, template, ht, -, hv⟩ := instance_settles_as_template load_buffers.1 hread hfree
  exact ⟨_, _, _, t, template, hread, ht, hv⟩

end Schematic
