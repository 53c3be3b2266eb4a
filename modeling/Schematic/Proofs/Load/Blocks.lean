import Schematic.Proofs.Layout.Hygiene
import Schematic.Proofs.Load.Acceptance

/-! Written lines and what a load leaves of them. Each stage works on the components of the lines one by one,
and at most chips become several. Main statement: a loaded project is one block behind the other, one for each
written line, and the blocks can be told apart by the numbers of the lines. -/
namespace Schematic
open Schematic.Files

namespace Source

/-- How many of the lines declare a chip of the type. -/
def chipLines (type : String) (before : List (String × Nat)) : Nat :=
  before.countP fun e => (declared? e.1).bind Component.chipType? == some type

end Source

/-- The number of the line that the component comes from. -/
def Component.line? (c : Component) : Option Int := c.origin?.map Origin.line

/-- The component without what a load derives: the width of a net, the voltage of a pin and the letter of
a wire. -/
def Component.underived : Component → Component
  | .net n => .net { n with region := ⟨⟨0, n.region.position.y⟩, ⟨0, 1⟩⟩ }
  | .pin p => .pin p.unpowered
  | .wire w => .wire { w with label := "" }
  | c => c

/-- The pin `q` is the pin `p` of a template, in the place of the `number`-th chip of its type, which the line
declares. -/
structure Pin.MountedFrom (c : Chip) (number : Nat) (line : Int) (p q : Pin) : Prop where
  origin : q.origin = some ⟨line, none⟩
  region : q.region = .single (p.region.position + c.region.position)
  label : q.label = renameLabel ("_" ++ shortType c.type ++ "_" ++ toString number) p.label
  value : q.value = ⟨p.value.content,
    p.value.labels.map (renameLabel ("_" ++ shortType c.type ++ "_" ++ toString number))⟩
  number : q.number = p.number

/-- What a load leaves of the line behind the lines `before`: the pins of its template for a chip, and one
component for anything else. -/
def IsBlock (read : TemplateReader) (before : List (String × Nat)) (line : String) (n : Nat)
    (block : List Component) : Prop :=
  ∃ c, Source.readLine line = .ok (some c) ∧
    match c with
    | .chip c => ∃ ps qs, read c.type = .ok ps ∧ block = qs.map .pin ∧
        List.Forall₂ (Pin.MountedFrom c (Source.chipLines c.type before + 1) n) ps qs
    | c => ∃ d, block = [d] ∧ d.kind? = c.kind? ∧ d.underived = c.withOrigin ⟨n, none⟩

namespace Source

section Reading

variable {path : Option String} {cs : List Component}

theorem chipType?_of_standsAt {e : String × Nat} {c : Component} (h : StandsAt path e c) :
    c.chipType? = (declared? e.1).bind Component.chipType? := by
  obtain ⟨d, hline, rfl⟩ := h
  rw [declared?_of_readLine hline]
  cases d <;> rfl

theorem count_chipTypes_of_standsAt {es : List (String × Nat)}
    (h : List.Forall₂ (StandsAt path) es cs) (type : String) :
    (chipTypes cs).count type = chipLines type es := by
  rw [chipTypes, List.count_filterMap, chipLines]
  induction h with
  | nil => rfl
  | cons hc _ ih => rw [List.countP_cons, List.countP_cons, ih, chipType?_of_standsAt hc]

end Reading

end Source

section Derived

theorem Component.underived_unpowered (c : Component) :
    c.unpowered.underived = c.underived := by
  cases c <;> rfl

theorem Component.underived_unlettered (c : Component) :
    c.unlettered.underived = c.underived := by
  cases c <;> rfl

theorem Component.kind?_underived (c : Component) : c.underived.kind? = c.kind? := by
  cases c <;> rfl

theorem Component.line?_underived (c : Component) : c.underived.line? = c.line? := by
  cases c <;> rfl

/-- A line derives nothing. -/
theorem Component.Declared.underived_resize {c : Component} (h : c.Declared) (hc : c.chipType? = none)
    (templateOf : String → List Pin) (bounds : Vec) :
    (c.resize templateOf bounds).underived = c := by
  obtain ⟨hd, -⟩ := h
  cases c with
  | chip c => cases hc
  | canvas | foreign => rfl
  | net n =>
    obtain ⟨-, hx, -, hs⟩ := hd
    obtain ⟨type, ⟨⟨x, y⟩, size⟩, origin⟩ := n
    cases hx
    cases hs
    rfl
  | pin p =>
    obtain ⟨⟨-, -, hv, -⟩, -⟩ := hd
    obtain ⟨label, value, voltage, region, number, origin⟩ := p
    cases hv
    rfl
  | wire w =>
    obtain ⟨-, -, hl⟩ := hd
    obtain ⟨color, start, stop, label, origin⟩ := w
    cases hl
    rfl

end Derived

section Cutting

variable {α β κ : Type}

/-- A list that comes from a flat one is cut where that is cut. -/
theorem exists_flatten_of_map_eq {f : α → β} {xs : List α} {bs : List (List β)}
    (h : xs.map f = bs.flatten) :
    ∃ cuts : List (List α), xs = cuts.flatten ∧ cuts.map (List.map f) = bs := by
  induction bs generalizing xs with
  | nil => exact ⟨[], List.map_eq_nil_iff.mp h, rfl⟩
  | cons b bs ih =>
    rw [List.flatten_cons] at h
    obtain ⟨a, rest, rfl, ha, hrest⟩ := List.map_eq_append_iff.mp h
    obtain ⟨cuts, rfl, hcuts⟩ := ih hrest
    refine ⟨a :: cuts, rfl, ?_⟩
    rw [List.map_cons, ha, hcuts]

theorem exists_getElem?_of_forall₂ {R : α → β → Prop} {xs : List α} {ys : List β}
    (h : List.Forall₂ R xs ys) {i : Nat} {x : α} (hx : xs[i]? = some x) :
    ∃ y, ys[i]? = some y ∧ R x y := by
  induction h generalizing i with
  | nil => cases hx
  | cons hxy _ ih =>
    cases i with
    | zero =>
      cases hx
      exact ⟨_, rfl, hxy⟩
    | succ i => exact ih hx

variable {key : α → Option κ} {ks : List κ} {bs : List (List α)}

theorem exists_key_of_mem_flatten (h : List.Forall₂ (fun k b => ∀ a ∈ b, key a = some k) ks bs) {a : α}
    (ha : a ∈ bs.flatten) : ∃ k ∈ ks, key a = some k := by
  induction h with
  | nil => cases ha
  | cons hb _ ih =>
    rcases List.mem_append.mp (List.flatten_cons ▸ ha) with ha | ha
    · exact ⟨_, List.mem_cons_self, hb a ha⟩
    · obtain ⟨k, hk, hkey⟩ := ih ha
      exact ⟨k, List.mem_cons_of_mem _ hk, hkey⟩

/-- Blocks with different keys are told apart by them. -/
theorem filter_flatten_of_key [DecidableEq κ]
    (h : List.Forall₂ (fun k b => ∀ a ∈ b, key a = some k) ks bs) (hks : ks.Nodup) {i : Nat} {k : κ}
    {b : List α} (hk : ks[i]? = some k) (hb : bs[i]? = some b) :
    (bs.flatten.filter fun a => key a == some k) = b := by
  induction h generalizing i with
  | nil => cases hk
  | @cons k' b' ks bs hfirst hrest ih =>
    obtain ⟨hnotin, hnodup⟩ := List.nodup_cons.mp hks
    rw [List.flatten_cons, List.filter_append]
    cases i with
    | zero =>
      cases hk
      cases hb
      rw [List.filter_eq_self.mpr fun a ha => by simp [hfirst a ha],
        List.filter_eq_nil_iff.mpr, List.append_nil]
      intro a ha
      obtain ⟨k₁, hk₁, hkey⟩ := exists_key_of_mem_flatten hrest ha
      have hne : k₁ ≠ k := fun he => hnotin (he ▸ hk₁)
      simp [hkey, hne]
    | succ i =>
      have hne : k' ≠ k := fun he => hnotin (he ▸ List.mem_of_getElem? hk)
      rw [ih hnodup hk hb, List.filter_eq_nil_iff.mpr, List.nil_append]
      intro a ha
      simp [hfirst a ha, hne]

/-- In blocks with increasing keys, keys do not decrease. -/
theorem exists_keys_of_flatten {ks : List Int} {key : α → Option Int}
    (h : List.Forall₂ (fun k b => ∀ a ∈ b, key a = some k) ks bs) (hks : ks.Pairwise (· < ·)) :
    ∃ ns : List Int, bs.flatten.map key = ns.map some ∧ ns.Pairwise (· ≤ ·) ∧ ∀ n ∈ ns, n ∈ ks := by
  induction h with
  | nil => exact ⟨[], rfl, .nil, by simp⟩
  | @cons k b ks bs hfirst _ ih =>
    obtain ⟨hlt, hpairwise⟩ := List.pairwise_cons.mp hks
    obtain ⟨ns, hkeys, hle, hmem⟩ := ih hpairwise
    refine ⟨List.replicate b.length k ++ ns, ?_, List.pairwise_append.mpr ⟨?_, hle, ?_⟩, ?_⟩
    · rw [List.flatten_cons, List.map_append, List.map_append, hkeys, List.map_replicate,
        List.map_eq_replicate_iff.mpr hfirst]
    · exact List.pairwise_replicate.mpr (.inr (Int.le_refl k))
    · intro m hm n hn
      rw [List.eq_of_mem_replicate hm]
      exact Int.le_of_lt (hlt n (hmem n hn))
    · intro n hn
      rcases List.mem_append.mp hn with hn | hn
      · exact List.eq_of_mem_replicate hn ▸ List.mem_cons_self
      · exact List.mem_cons_of_mem k (hmem n hn)

end Cutting

section Blocks

variable {read : TemplateReader} {before : List (String × Nat)} {line : String} {n : Nat}
  {block : List Component}

theorem line?_of_isBlock (h : IsBlock read before line n block) : ∀ d ∈ block, d.line? = some n := by
  obtain ⟨c, hline, hblock⟩ := h
  have horigin := Source.origin?_withOrigin (Source.declared_of_readLine hline) ⟨n, none⟩
  intro d hd
  cases c with
  | chip c =>
    obtain ⟨ps, qs, -, rfl, hmounted⟩ := hblock
    obtain ⟨q, hq, rfl⟩ := List.mem_map.mp hd
    obtain ⟨i, hi, rfl⟩ := List.getElem_of_mem hq
    have hpin := hmounted.get (hmounted.length_eq ▸ hi) hi
    exact congrArg (Option.map Origin.line) hpin.origin
  | canvas | net | pin | wire =>
    obtain ⟨d', rfl, -, hderived⟩ := hblock
    rw [List.mem_singleton.mp hd, ← Component.line?_underived, hderived]
    exact congrArg (Option.map Origin.line) horigin
  | foreign text => cases horigin

theorem length_blocksFrom {templateOf : String → List Pin} (seen : List String)
    (cs : List Component) : (blocksFrom templateOf seen cs).length = cs.length := by
  induction cs generalizing seen with
  | nil => rfl
  | cons c cs ih => rw [blocksFrom, List.length_cons, List.length_cons, ih]

theorem exists_map_pin {ps : List Pin} {cs : List Component}
    (h : cs.map Component.unpowered = (ps.map Component.pin).map Component.unpowered) :
    ∃ qs : List Pin, cs = qs.map .pin ∧ qs.map Pin.unpowered = ps.map Pin.unpowered := by
  induction ps generalizing cs with
  | nil => exact ⟨[], List.map_eq_nil_iff.mp h, rfl⟩
  | cons p ps ih =>
    obtain ⟨c, rest, rfl, hc, hrest⟩ := List.map_eq_cons_iff.mp h
    obtain ⟨qs, rfl, hqs⟩ := ih hrest
    cases c with
    | pin q =>
      have hq : q.unpowered = p.unpowered := Component.pin.inj hc
      exact ⟨q :: qs, rfl, by rw [List.map_cons, List.map_cons, hq, hqs]⟩
    | canvas | chip | net | wire | foreign => cases hc

/-- The expansion of a chip, after voltages are known. -/
theorem mountedFrom_of_map_unpowered {c : Chip} {ps qs : List Pin} {number : Nat} {n : Int}
    (horigin : c.origin = some ⟨n, none⟩)
    (h : qs.map Pin.unpowered = (c.expand ps number).map Pin.unpowered) :
    List.Forall₂ (Pin.MountedFrom c number n) ps qs := by
  induction ps generalizing qs with
  | nil =>
    rw [List.map_eq_nil_iff.mp h]
    exact .nil
  | cons p ps ih =>
    obtain ⟨q, rest, rfl, hq, hrest⟩ := List.map_eq_cons_iff.mp h
    refine .cons ?_ (ih hrest)
    obtain ⟨label, value, voltage, region, number, origin⟩ := q
    cases hq
    exact ⟨horigin, rfl, rfl, rfl, rfl⟩

variable {templateOf : String → List Pin} {bounds : Vec} {seen : List String} {l : Component}

/-- Only the type and the place of a chip are seen in its pins, and sizing keeps both. -/
theorem exists_mountedFrom_of_block {c : Chip} {n : Int}
    (hl : l.unlettered =
      (((Component.chip c).withOrigin ⟨n, none⟩).resize templateOf bounds).unlettered)
    (hblock : block.map Component.unpowered =
      (l.block templateOf seen).map Component.unpowered) :
    ∃ qs : List Pin, block = qs.map .pin ∧
      List.Forall₂ (Pin.MountedFrom c (seen.count c.type + 1) n) (templateOf c.type) qs := by
  cases l <;> cases hl
  obtain ⟨qs, rfl, hqs⟩ := exists_map_pin hblock
  refine ⟨qs, rfl, (mountedFrom_of_map_unpowered rfl hqs).imp fun _ _ h => ?_⟩
  exact ⟨h.origin, h.region, h.label, h.value, h.number⟩

theorem exists_underived_of_block {c : Component} (hc : c.Declared) (hplain : c.chipType? = none)
    (hl : l.unlettered = (c.resize templateOf bounds).unlettered)
    (hblock : block.map Component.unpowered =
      (l.block templateOf seen).map Component.unpowered) :
    ∃ d, block = [d] ∧ d.kind? = c.kind? ∧ d.underived = c := by
  have hsame : l.chipType? = none := by
    rw [← Component.chipType?_unlettered, hl, Component.chipType?_unlettered,
      Component.chipType?_resize, hplain]
  rw [Component.block_of_chipType?_eq_none hsame] at hblock
  obtain ⟨d, rest, rfl, hd, hrest⟩ := List.map_eq_cons_iff.mp hblock
  have hderived : d.underived = c := by
    rw [← Component.underived_unpowered, hd, Component.underived_unpowered,
      ← Component.underived_unlettered, hl, Component.underived_unlettered,
      hc.underived_resize hplain]
  refine ⟨d, by rw [List.map_eq_nil_iff.mp hrest], ?_, hderived⟩
  rw [← Component.kind?_underived, hderived]

end Blocks

namespace Passage

variable {files : Tree} {text : String} {options : LoadOptions} {library? : Option Library}
  {p : Project} (t : Passage files (.text text) options library? p)
include t

theorem standsAt_source : List.Forall₂ (Source.StandsAt none) (Source.writtenAt text) t.source :=
  Source.standsAt_of_readLines t.read_eq

theorem map_unlettered : t.lettered.map Component.unlettered =
    (t.source.map (Component.resize (templateBy (t.library.template files)) p.canvas.bounds)).map
      Component.unlettered := by
  obtain ⟨-, -, hletters⟩ := letterAll_eq_ok (t.library.template files) t.letter_eq
  rw [hletters, t.sized_eq_map]

/-- Chips are numbered by the lines before them. -/
theorem count_chipTypes_take (type : String) (i : Nat) :
    (chipTypes (t.lettered.take i)).count type =
      Source.chipLines type ((Source.writtenAt text).take i) := by
  have htake := congrArg (List.take i) t.map_unlettered
  rw [← List.map_take, ← List.map_take, ← List.map_take] at htake
  rw [chipTypes_of_map_unlettered_eq htake, chipTypes_map (Component.chipType?_resize _ _)]
  exact Source.count_chipTypes_of_standsAt (List.forall₂_take i t.standsAt_source) type

theorem exists_cuts : ∃ cuts : List (List Component), p.components = cuts.flatten ∧
    cuts.map (List.map Component.unpowered) =
      (blocks (templateBy (t.library.template files)) t.lettered).map
        (List.map Component.unpowered) := by
  refine exists_flatten_of_map_eq ?_
  rw [t.resolves.map_unpowered, t.flat_eq_flatten, List.map_flatten]

/-- What is left of a line is what the stages make of its component. -/
theorem isBlock_of_getElem? {i n : Nat} {line : String} {l : Component} {block : List Component}
    (hline : (Source.writtenAt text)[i]? = some (line, n)) (hl : t.lettered[i]? = some l)
    (hblock : block.map Component.unpowered = (l.block (templateBy (t.library.template files))
      (chipTypes (t.lettered.take i)).reverse).map Component.unpowered) :
    IsBlock (t.library.template files) ((Source.writtenAt text).take i) line n block := by
  obtain ⟨_, hsource, c, hread, rfl⟩ := exists_getElem?_of_forall₂ t.standsAt_source hline
  have hletter : l.unlettered = ((c.withOrigin ⟨n, none⟩).resize
      (templateBy (t.library.template files)) p.canvas.bounds).unlettered := by
    have hmap := congrArg (·[i]?) t.map_unlettered
    simpa only [List.getElem?_map, hl, hsource, Option.map_some, Option.some.injEq] using hmap
  have hplain := fun hchip => exists_underived_of_block
    ((Source.declared_of_readLine hread).withOrigin ⟨n, none⟩) hchip hletter hblock
  refine ⟨c, hread, ?_⟩
  cases c with
  | chip c =>
    have htype := mem_chipTypes (List.mem_of_getElem? hsource)
    rw [← t.chipTypes_lettered] at htype
    obtain ⟨qs, hqs, hmounted⟩ := exists_mountedFrom_of_block hletter hblock
    rw [List.count_reverse, t.count_chipTypes_take] at hmounted
    refine ⟨_, qs, ?_, hqs, hmounted⟩
    exact templateBy_of_eq_ok (t.template_eq htype) ▸ t.template_eq htype
  | canvas | net | pin | wire | foreign => exact hplain rfl

theorem exists_blocks : ∃ cuts : List (List Component), p.components = cuts.flatten ∧
    cuts.length = (Source.writtenAt text).length ∧
    ∀ i line n block, (Source.writtenAt text)[i]? = some (line, n) → cuts[i]? = some block →
      IsBlock (t.library.template files) ((Source.writtenAt text).take i) line n block := by
  obtain ⟨cuts, hcomponents, hcuts⟩ := t.exists_cuts
  have hlength := congrArg List.length hcuts
  rw [List.length_map, List.length_map, blocks, length_blocksFrom] at hlength
  have hlettered := congrArg List.length t.map_unlettered
  rw [List.length_map, List.length_map, List.length_map, ← t.standsAt_source.length_eq] at hlettered
  refine ⟨cuts, hcomponents, hlength.trans hlettered, fun i line n block hline hcut => ?_⟩
  obtain ⟨hi, -⟩ := List.getElem?_eq_some_iff.mp hline
  have hl := List.getElem?_eq_getElem (hlettered ▸ hi : i < t.lettered.length)
  refine t.isBlock_of_getElem? hline hl ?_
  have hblock := congrArg (·[i]?) hcuts
  simp only [List.getElem?_map, hcut, blocks, getElem?_blocksFrom, hl, Option.map_some,
    Option.some.injEq, List.append_nil] at hblock
  exact hblock

end Passage

/-- A loaded project consists of one block for each line of the text that is not blank, in order. The block of
a chip holds the pins of its template, in the place of the chip and under its number among the chips of its
type, and every other block one component of the kind that the line declares. The numbers of the lines do not
decrease, and tell the blocks apart. -/
theorem load_consists_of_blocks {files : Tree} {text : String} {options : LoadOptions}
    {library? : Option Library} {log : Log} {p : Project}
    (h : (load files (.text text) options library? log).project = .ok (some p)) :
    ∃ (library : Library) (cuts : List (List Component)),
      chosenLibrary files options library? = .ok library ∧
      p.components = cuts.flatten ∧ cuts.length = (Source.writtenAt text).length ∧
      (∀ i line n block, (Source.writtenAt text)[i]? = some (line, n) → cuts[i]? = some block →
        IsBlock (library.template files) ((Source.writtenAt text).take i) line n block ∧
          (p.components.filter fun c => c.line? == some (n : Int)) = block) ∧
      ∃ ns : List Int, p.components.map Component.line? = ns.map some ∧ ns.Pairwise (· ≤ ·) := by
  obtain ⟨t, -⟩ := exists_passage h
  obtain ⟨cuts, hcomponents, hlength, hblocks⟩ := t.exists_blocks
  have hkeys : List.Forall₂ (fun (k : Int) b => ∀ c ∈ b, Component.line? c = some k)
      ((Source.writtenAt text).map fun e => (e.2 : Int)) cuts := by
    rw [List.forall₂_map_left_iff]
    refine List.forall₂_iff_get.mpr ⟨hlength.symm, fun i hi hi' => ?_⟩
    exact line?_of_isBlock (hblocks i _ _ _ (List.getElem?_eq_getElem hi) (List.getElem?_eq_getElem hi'))
  have hincreasing : ((Source.writtenAt text).map fun e => (e.2 : Int)).Pairwise (· < ·) := by
    refine List.pairwise_map.mpr ((Source.pairwise_writtenAt text).imp ?_)
    intro d e hlt
    exact Int.ofNat_lt.mpr hlt
  obtain ⟨ns, hlines, hle, -⟩ := exists_keys_of_flatten hkeys hincreasing
  refine ⟨t.library, cuts, t.library_eq, hcomponents, hlength, ?_, ns, ?_, hle⟩
  · intro i line n block hline hblock
    refine ⟨hblocks i line n block hline hblock, ?_⟩
    rw [hcomponents]
    refine filter_flatten_of_key hkeys (hincreasing.imp fun hlt => Int.ne_of_lt hlt) ?_ hblock
    rw [List.getElem?_map, hline]
    rfl
  · rw [hcomponents, hlines]

theorem load_consists_of_blocks_buffers :
    (load .fresh (.text buffersText) {} none []).project = .ok (some bufferProject) ∧
    (Source.writtenAt buffersText)[4]? = some (":chip type gates/buf pos 2 1", 5) ∧
    ∃ library, chosenLibrary .fresh {} none = .ok library ∧
      IsBlock (library.template .fresh) ((Source.writtenAt buffersText).take 4)
        ":chip type gates/buf pos 2 1" 5 (bufferPins "_buf_2" 2 5 .floating .low) := by
  have hline : (Source.writtenAt buffersText)[4]? = some (":chip type gates/buf pos 2 1", 5) := by
    decide +kernel
  have hload : (load .fresh (.text buffersText) {} none []).project = .ok (some bufferProject) :=
    load_buffers.1
  obtain ⟨library, cuts, hlibrary, -, hlength, hblocks, -⟩ := load_consists_of_blocks hload
  have hlt : 4 < cuts.length := by
    rw [hlength]
    exact (List.getElem?_eq_some_iff.mp hline).1
  have hcut := List.getElem?_eq_getElem hlt
  obtain ⟨hblock, hfilter⟩ := hblocks 4 _ 5 _ hline hcut
  have hpins : (bufferProject.components.filter fun c => c.line? == some ((5 : Nat) : Int)) =
      bufferPins "_buf_2" 2 5 .floating .low := by decide +kernel
  rw [← hfilter, hpins] at hblock
  exact ⟨hload, hline, library, hlibrary, hblock⟩

end Schematic
