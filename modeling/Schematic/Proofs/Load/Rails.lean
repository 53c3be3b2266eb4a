import Mathlib.Data.List.Pairwise
import Schematic.Proofs.Circuit.Rails
import Schematic.Proofs.Circuit.Solution
import Schematic.Proofs.Load.Drawing

/-! Rails of loaded projects. Validation keeps pins off nets and gives each net a row of its own. Main
statement: a plain pin has the level of the net on the row that its wire leads to, whatever the order of
the nets. -/
namespace Schematic
open Schematic.Files

section Members

variable {cs : List Component}

theorem wires_map_unpowered (cs : List Component) :
    wires (cs.map Component.unpowered) = wires cs := by
  rw [wires, List.filterMap_map]
  refine List.filterMap_congr fun c _ => ?_
  cases c <;> rfl

theorem nets_map_unpowered (cs : List Component) : nets (cs.map Component.unpowered) = nets cs := by
  rw [nets, List.filterMap_map]
  refine List.filterMap_congr fun c _ => ?_
  cases c <;> rfl

theorem mem_of_soleCanvas {c : Canvas} (h : soleCanvas cs = .ok c) : .canvas c ∈ cs := by
  have hmem : c ∈ cs.filterMap Component.canvas? := by simp [soleCanvas_eq_ok_iff.mp h]
  obtain ⟨d, hd, hdc⟩ := List.mem_filterMap.mp hmem
  cases d <;> cases hdc
  exact hd

end Members

/-- Settling leaves pins that are no gates alone. -/
theorem Pin.mem_of_mem_settleFrom {ps : List Pin} {s : Settling} {q : Pin}
    (hq : q ∈ (settleFrom ps s).1) (hplain : q.value.isLogic = false) : q ∈ ps := by
  induction ps generalizing s with
  | nil => cases hq
  | cons p ps ih =>
    rw [settleFrom_cons] at hq
    rcases List.mem_cons.mp hq with rfl | hq
    · have hvalue := value_eq_of_unpowered_eq (unpowered_settle p s)
      rw [hvalue] at hplain
      rw [settle_of_none (isLogic_eq_false_iff.mp hplain)]
      exact List.mem_cons_self
    · exact List.mem_cons_of_mem p (ih hq)

theorem Resolves.exists_connect {cs ds : List Component} {ps : List Pin} (h : Resolves cs ps ds)
    {q : Pin} (hq : q ∈ ps) : ∃ p ∈ pins cs, p.connect (wires cs) (nets cs) = .ok q := by
  obtain ⟨i, hi, rfl⟩ := List.getElem_of_mem hq
  have hi' : i < (pins cs).length := by rwa [h.connect.length_eq]
  exact ⟨(pins cs)[i], List.getElem_mem hi', h.connect.get hi' hi⟩

namespace Passage

variable {files : Tree} {input : Source.Input} {options : LoadOptions}
  {library? : Option Library} {p : Project} (t : Passage files input options library? p)
include t

theorem wires_flat : wires t.flat = wires p.components := by
  rw [← wires_map_unpowered, ← t.resolves.map_unpowered, wires_map_unpowered]

theorem nets_flat : nets t.flat = nets p.components := by
  rw [← nets_map_unpowered, ← t.resolves.map_unpowered, nets_map_unpowered]

theorem voltage_flat {q : Pin} (hq : q ∈ pins t.flat) : q.voltage = .floating := by
  obtain ⟨a, ha, rfl | ⟨c, index, hexpand⟩⟩ := t.exists_drafted hq
  · exact ha.voltage
  · rw [List.mem_singleton.mp hexpand]
    exact ha.voltage

theorem bounds_pos : 0 < p.bounds.x ∧ 0 < p.bounds.y := by
  obtain ⟨hx, hy⟩ : p.bounds.InRange :=
    (Source.declared_of_read t.read_eq _ (mem_of_soleCanvas t.canvas_eq)).1
  obtain ⟨⟨hbounds, -⟩, -⟩ := validate_eq_ok_iff.mp t.validate_components
  unfold Canvas.checkBounds at hbounds
  split_ifs at hbounds with hboth hone
  unfold Project.bounds at hx hy ⊢
  have hx₀ := hx.1
  have hy₀ := hy.1
  omega

theorem spans_net {n : Net} (hn : n ∈ nets p.components) : n.Spans p.bounds := by
  obtain ⟨y, -, hregion⟩ := (t.boxed_components (mem_nets.mp hn)).1
  unfold Net.Spans Net.row
  rw [hregion]
  rfl

theorem within_row {n : Net} (hn : n ∈ nets p.components) :
    (⟨0, n.row⟩ : Vec).Within p.bounds := by
  have hpos := t.bounds_pos
  refine t.drawable.within _ (mem_nets.mp hn) n.region rfl _ ?_
  rw [t.spans_net hn, Region.mem_def]
  dsimp only
  omega

/-- Two nets of one row would share its first cell. -/
theorem pairwise_row : (nets p.components).Pairwise fun n m => n.row ≠ m.row := by
  have hpairwise : (nets p.components).Pairwise fun n m => ∀ q, ¬(q ∈ n.region ∧ q ∈ m.region) := by
    refine List.Pairwise.filterMap _ ?_ t.drawable.disjoint
    intro c d h n hn m hm q
    cases c <;> cases hn
    cases d <;> cases hm
    exact h _ rfl _ rfl q
  refine List.Pairwise.imp_of_mem ?_ hpairwise
  intro n m hn hm hapart hrow
  have hwithin := t.within_row hn
  refine hapart ⟨0, n.row⟩ ⟨?_, ?_⟩
  · exact ((t.spans_net hn).mem_region_iff hwithin).mpr rfl
  · exact ((t.spans_net hm).mem_region_iff hwithin).mpr hrow.symm

/-- The surroundings of a pin in a loaded project. -/
theorem clear {q : Pin} (hq : q ∈ pins p.components) :
    Clear p.bounds (wires p.components) (nets p.components) q.region.position where
  ends w hw := by
    obtain ⟨hs, ht, -⟩ := t.drawable.wires w (mem_wires.mp hw)
    exact ⟨hs, ht⟩
  rails n hn := by
    obtain ⟨-, hcheck, -⟩ := validate_eq_ok_iff.mp t.validate_components
    have hc := hcheck _ (mem_nets.mp hn)
    simp only [Component.check] at hc
    split_ifs at hc with htype hrow
    cases hr : Rail.ofName? n.type with
    | none => exact absurd (by rw [hr]; rfl) htype
    | some r => exact ⟨r, Rail.ofName?_eq_some_iff.mp hr⟩
  spans n hn := t.spans_net hn
  rows n hn m hm hrow := by
    have hsymm : Std.Symm fun n m : Net => n.row ≠ m.row := ⟨fun _ _ h => h.symm⟩
    by_contra hne
    exact t.pairwise_row.forall hn hm hne hrow
  aside n hn hrow := by
    have hpin := mem_pins.mp hq
    obtain ⟨a, ha⟩ := (t.boxed_components hpin).1
    have hcell : q.region.position ∈ q.region := by
      rw [ha]
      exact Region.mem_single.mpr rfl
    have hwithin := t.drawable.within _ hpin q.region rfl _ hcell
    have hnet : q.region.position ∈ n.region := ((t.spans_net hn).mem_region_iff hwithin).mpr hrow
    have hsymm : Std.Symm fun c d : Component => ∀ r, c.region? = some r → ∀ r', d.region? = some r' →
        ∀ q, ¬(q ∈ r ∧ q ∈ r') := ⟨fun _ _ h r hr r' hr' q hm => h r' hr' r hr q hm.symm⟩
    exact t.drawable.disjoint.forall hpin (mem_nets.mp hn) (by simp) q.region rfl n.region rfl _
      ⟨hcell, hnet⟩

end Passage

/-- A pin that is no gate is high if the other end of its wire is on the row of a `vcc` net, low if that is
the row of a `gnd` net, and floating otherwise. Each net has a row to itself, so that the nets give the
same level in any order. -/
theorem plain_pin_level {files : Tree} {input : Source.Input} {options : LoadOptions}
    {library? : Option Library} {log : Log} {p : Project}
    (h : (load files input options library? log).project = .ok (some p)) :
    ((nets p.components).Pairwise fun n m => n.row ≠ m.row) ∧
    ∀ q ∈ pins p.components, q.value.isLogic = false →
      (q.voltage = .high ↔
        Feeds .vcc (wires p.components) (nets p.components) q.region.position) ∧
      (q.voltage = .low ↔
        Feeds .gnd (wires p.components) (nets p.components) q.region.position) ∧
      (q.voltage = .floating ↔
        ∀ r, ¬Feeds r (wires p.components) (nets p.components) q.region.position) ∧
      ∀ ns, ns.Perm (nets p.components) → q.unpowered.connect (wires p.components) ns = .ok q := by
  obtain ⟨t, -⟩ := exists_passage h
  refine ⟨t.pairwise_row, fun q hq hplain => ?_⟩
  have hconnected : q ∈ t.connected := by
    rw [t.resolves.pins_eq] at hq
    exact Pin.mem_of_mem_settleFrom hq hplain
  obtain ⟨q₀, hq₀, hconnect⟩ := t.resolves.exists_connect hconnected
  have hstart : q₀ = q.unpowered := by
    rw [Pin.unpowered_of_connect hconnect, Pin.unpowered, Pin.powered, ← t.voltage_flat hq₀]
  rw [t.wires_flat, t.nets_flat, hstart] at hconnect
  have hclear := t.clear hq
  obtain ⟨v, hv, hhigh, hlow⟩ := hclear.connect_eq (p := q.unpowered) rfl
  have hlevel : q.voltage = v := by
    rw [hconnect] at hv
    exact congrArg Pin.voltage (Except.ok.inj hv)
  rw [hlevel]
  refine ⟨hhigh, hlow, ?_, ?_⟩
  · rw [Voltage.eq_floating_iff, Ne, hhigh, Ne, hlow]
    constructor
    · rintro ⟨hvcc, hgnd⟩ r
      cases r with
      | vcc => exact hvcc
      | gnd => exact hgnd
    · intro hnone
      exact ⟨hnone .vcc, hnone .gnd⟩
  · intro ns hns
    obtain ⟨v', hv', hhigh', hlow'⟩ := (hclear.perm hns).connect_eq (p := q.unpowered) rfl
    rw [feeds_perm_iff hns, ← hhigh] at hhigh'
    rw [feeds_perm_iff hns, ← hlow] at hlow'
    have hsame : v' = v := by
      cases v <;> cases v' <;> simp_all
    rw [hv', hsame, ← hv, hconnect]

/-- Three pins between two rails, one on each and one on neither. -/
def railed : Source.Input := .text (String.join [
  ":meta bounds 4 3\n",
  ":net type vcc y 0\n",
  ":net type gnd y 2\n",
  ":pin pos 0 1\n",
  ":pin pos 1 1\n",
  ":pin pos 2 1\n",
  ":wire color red from 0 1 to 3 0\n",
  ":wire color red from 3 2 to 1 1\n"])

def railedProject : Project where
  canvas := ⟨⟨4, 3⟩, some ⟨1, none⟩⟩
  components := [
    .canvas ⟨⟨4, 3⟩, some ⟨1, none⟩⟩,
    .net ⟨"vcc", ⟨⟨0, 0⟩, ⟨4, 1⟩⟩, some ⟨2, none⟩⟩,
    .net ⟨"gnd", ⟨⟨0, 2⟩, ⟨4, 1⟩⟩, some ⟨3, none⟩⟩,
    .pin ⟨"", {}, .high, .single ⟨0, 1⟩, none, some ⟨4, none⟩⟩,
    .pin ⟨"", {}, .low, .single ⟨1, 1⟩, none, some ⟨5, none⟩⟩,
    .pin ⟨"", {}, .floating, .single ⟨2, 1⟩, none, some ⟨6, none⟩⟩,
    .wire ⟨some .red, ⟨0, 1⟩, ⟨3, 0⟩, "a", some ⟨7, none⟩⟩,
    .wire ⟨some .red, ⟨3, 2⟩, ⟨1, 1⟩, "b", some ⟨8, none⟩⟩]

theorem plain_pin_level_railed :
    (load .fresh railed {} none []).project = .ok (some railedProject) ∧
    Feeds .vcc (wires railedProject.components) (nets railedProject.components) ⟨0, 1⟩ ∧
    Feeds .gnd (wires railedProject.components) (nets railedProject.components) ⟨1, 1⟩ ∧
    ∀ r, ¬Feeds r (wires railedProject.components) (nets railedProject.components) ⟨2, 1⟩ := by
  have hp : (load .fresh railed {} none []).project = .ok (some railedProject) := by
    decide +kernel
  obtain ⟨-, hlevel⟩ := plain_pin_level hp
  have hhigh := hlevel ⟨"", {}, .high, .single ⟨0, 1⟩, none, some ⟨4, none⟩⟩ (by decide) rfl
  have hlow := hlevel ⟨"", {}, .low, .single ⟨1, 1⟩, none, some ⟨5, none⟩⟩ (by decide) rfl
  have hfloating := hlevel ⟨"", {}, .floating, .single ⟨2, 1⟩, none, some ⟨6, none⟩⟩ (by decide) rfl
  exact ⟨hp, hhigh.1.mp rfl, hlow.2.1.mp rfl, hfloating.2.2.1.mp rfl⟩

end Schematic
