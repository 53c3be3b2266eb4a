import Mathlib.Data.List.Nodup
import Mathlib.Data.List.Perm.Basic
import Schematic.Proofs.Source.Lines
import Schematic.Proofs.Source.Spelling

/-! What a source can say. A line names the attributes of a component in any order, and need not name one that
has its default. Main statement: the components that texts are read as are exactly those that a line can
write, and each of these is read back from any line that writes it. -/
namespace Schematic
open Schematic.Source

/-- A gate has labels, and nothing else has any. -/
def Value.Complete (v : Value) : Prop :=
  match v.content with
  | .gate _ => v.labels ≠ [] ∧ ∀ l ∈ v.labels, IsLabel l
  | .unset | .gnd | .vcc => v.labels = []

/-- The component is one that a line can declare. Sizes, voltages and letters of wires are not written. -/
def Component.Expressible : Component → Prop
  | .canvas c => c.bounds.InRange
  | .chip c => IsTypeName c.type ∧ c.region.position.InRange ∧ c.region.size = ⟨0, chipHeight⟩
  | .net n => IsTypeName n.type ∧ n.region.position.x = 0 ∧ InRange n.region.position.y ∧
      n.region.size = ⟨0, 1⟩
  | .pin p => (p.label = "" ∨ IsLabel p.label) ∧ p.value.Complete ∧ p.voltage = .floating ∧
      p.region.position.InRange ∧ p.region.size = ⟨1, 1⟩ ∧ ∀ n ∈ p.number, InRange n
  | .wire w => w.color ≠ none ∧ w.start.InRange ∧ w.stop.InRange ∧ w.label = ""
  | .foreign _ => False

/-- The attributes of a component. A pin without a label, a value or a number does not have these. -/
def Component.attributes : Component → List Attribute
  | .canvas c => [.bounds c.bounds]
  | .chip c => [.type c.type, .position c.region.position]
  | .net n => [.type n.type, .row n.region.position.y]
  | .pin p => (if p.label = "" then [] else [.label p.label]) ++
      (if p.value.content = .unset then [] else [.value p.value]) ++
      .position p.region.position :: p.number.toList.map .number
  | .wire w => w.color.toList.map .color ++ [.start w.start, .stop w.stop]
  | .foreign _ => []

section Declared

theorem ne_empty_of_isTypeName {s : String} (h : IsTypeName s) : s ≠ "" := by
  obtain ⟨c, body, hs, -⟩ := h
  rintro rfl
  cases hs

theorem Value.complete_iff (v : Value) :
    v.Complete ↔ v.Written ∧ ¬(v.isLogic = true ∧ v.labels = []) := by
  obtain ⟨content, ls⟩ := v
  have hplain : ls = [] ↔ ((∀ l ∈ ls, IsLabel l) ∧ ls = []) := by
    constructor
    · rintro rfl
      exact ⟨by simp, rfl⟩
    · exact fun h => h.2
  rcases content with _ | _ | _ | g
  · simpa [Complete, Written, isLogic, Content.gate?] using hplain
  · simpa [Complete, Written, isLogic, Content.gate?] using hplain
  · simpa [Complete, Written, isLogic, Content.gate?] using hplain
  · simp [Complete, Written, isLogic, Content.gate?, and_comm]

theorem Component.declared_iff_expressible (c : Component) : c.Declared ↔ c.Expressible := by
  have htyped : ∀ s : String, ((s = "" ∨ IsTypeName s) ∧ s ≠ "") ↔ IsTypeName s := by
    intro s
    constructor
    · rintro ⟨h, hne⟩
      exact h.resolve_left hne
    · intro h
      exact ⟨.inr h, ne_empty_of_isTypeName h⟩
  cases c with
  | canvas c => simp [Declared, Drafted, Expressible, verify]
  | chip c =>
    rw [Expressible, ← htyped c.type]
    simp only [Declared, Drafted, verify, ite_eq_right_iff, reduceCtorEq, imp_false]
    exact and_right_comm
  | net n =>
    rw [Expressible, ← htyped n.type]
    simp only [Declared, Drafted, verify, ite_eq_right_iff, reduceCtorEq, imp_false]
    exact and_right_comm
  | pin p =>
    rw [Expressible, Value.complete_iff]
    simp only [Declared, Drafted, verify, ite_eq_right_iff, reduceCtorEq, imp_false]
    constructor
    · rintro ⟨⟨⟨hlabel, hvalue, hvoltage, hnumber⟩, hposition, hsize⟩, hcomplete⟩
      exact ⟨hlabel, ⟨hvalue, hcomplete⟩, hvoltage, hposition, hsize, hnumber⟩
    · rintro ⟨hlabel, ⟨hvalue, hcomplete⟩, hvoltage, hposition, hsize, hnumber⟩
      exact ⟨⟨⟨hlabel, hvalue, hvoltage, hnumber⟩, hposition, hsize⟩, hcomplete⟩
  | wire w =>
    simp only [Declared, Drafted, Expressible, verify, ite_eq_right_iff, reduceCtorEq, imp_false]
    exact and_comm
  | foreign text => simp [Declared, Drafted, Expressible]

theorem Component.expressible_unplaced (c : Component) : c.unplaced.Expressible ↔ c.Expressible := by
  cases c <;> rfl

end Declared

section Setting

variable {c : Component} {k : Kind}

theorem Kind.nodup_attributes (k : Kind) : k.attributes.Nodup := by
  cases k <;> decide

/-- Components have attributes of their kind, each once. -/
theorem Component.sublist_attributes (hk : c.kind? = some k) :
    (c.attributes.map Attribute.name).Sublist k.attributes := by
  cases c with
  | canvas | chip | net =>
    cases hk
    exact .refl _
  | pin p =>
    cases hk
    obtain ⟨label, value, voltage, region, number, origin⟩ := p
    simp only [attributes, List.map_append, List.map_cons, Attribute.name, Kind.attributes]
    split_ifs <;> cases number <;>
      simp only [List.map_nil, List.map_cons, Option.toList, Attribute.name] <;> decide
  | wire w =>
    cases hk
    obtain ⟨color, start, stop, label, origin⟩ := w
    simp only [attributes, List.map_append, List.map_cons, List.map_nil, Attribute.name,
      Kind.attributes]
    cases color <;> simp only [List.map_nil, List.map_cons, Option.toList, Attribute.name] <;> decide
  | foreign text => cases hk

/-- Attributes of different names do not meet. -/
theorem Component.set_comm {a b : Attribute} (h : a.name ≠ b.name) (c : Component) :
    (c.set a).set b = (c.set b).set a := by
  cases c <;> cases a <;> cases b <;> first | rfl | exact absurd rfl h

theorem Component.foldl_set_perm {as bs : List Attribute} (h : as.Perm bs)
    (hnodup : (as.map Attribute.name).Nodup) (c : Component) :
    as.foldl Component.set c = bs.foldl Component.set c := by
  refine h.foldl_eq' (fun a ha b hb d => ?_) c
  by_cases hname : a.name = b.name
  · rw [List.inj_on_of_nodup_map hnodup ha hb hname]
  · exact set_comm hname d

/-- A default need not be set. -/
theorem Component.set_ofKind {a : Attribute} (h : a ∈ (Component.ofKind k).attributes) :
    (Component.ofKind k).set a = .ofKind k := by
  revert a
  cases k <;> decide

theorem Component.foldl_set_ofKind {as : List Attribute}
    (h : ∀ a ∈ as, a ∈ (Component.ofKind k).attributes) :
    as.foldl Component.set (.ofKind k) = .ofKind k := by
  induction as with
  | nil => rfl
  | cons a as ih =>
    obtain ⟨ha, has⟩ := List.forall_mem_cons.mp h
    rw [List.foldl_cons, set_ofKind ha, ih has]

theorem Component.Expressible.foldl_set (h : c.Expressible) (hk : c.kind? = some k) :
    c.attributes.foldl Component.set (.ofKind k) = c.unplaced := by
  cases c with
  | canvas c =>
    cases hk
    rfl
  | chip c =>
    cases hk
    obtain ⟨type, ⟨position, size⟩, origin⟩ := c
    obtain ⟨-, -, rfl⟩ := h
    rfl
  | net n =>
    cases hk
    obtain ⟨type, ⟨⟨x, y⟩, size⟩, origin⟩ := n
    obtain ⟨-, rfl, -, rfl⟩ := h
    rfl
  | pin p =>
    cases hk
    obtain ⟨label, ⟨content, ls⟩, voltage, ⟨position, size⟩, number, origin⟩ := p
    obtain ⟨-, hvalue, rfl, -, rfl, -⟩ := h
    have hnone : content = .unset → ls = [] := by
      rintro rfl
      exact hvalue
    simp only [attributes]
    split_ifs with hlabel hunset hunset
    · subst hlabel hunset
      cases hnone rfl
      cases number <;> rfl
    · subst hlabel
      cases number <;> rfl
    · subst hunset
      cases hnone rfl
      cases number <;> rfl
    · cases number <;> rfl
  | wire w =>
    cases hk
    obtain ⟨color, start, stop, label, origin⟩ := w
    obtain ⟨hcolor, -, -, rfl⟩ := h
    cases color with
    | none => exact absurd rfl hcolor
    | some color => rfl
  | foreign text => cases h

/-- A component that a line can declare has only attributes that can be written. -/
theorem Component.Expressible.written {a : Attribute} (h : c.Expressible) (ha : a ∈ c.attributes) :
    a.Written ∧ ∀ v, a = .value v → v.content ≠ .unset := by
  cases c with
  | canvas c =>
    rw [List.mem_singleton.mp ha]
    exact ⟨h, nofun⟩
  | chip c =>
    obtain ⟨htype, hposition, -⟩ := h
    rcases List.mem_pair.mp ha with rfl | rfl
    · exact ⟨htype, nofun⟩
    · exact ⟨hposition, nofun⟩
  | net n =>
    obtain ⟨htype, -, hrow, -⟩ := h
    rcases List.mem_pair.mp ha with rfl | rfl
    · exact ⟨htype, nofun⟩
    · exact ⟨hrow, nofun⟩
  | pin p =>
    obtain ⟨hlabel, hvalue, -, hposition, -, hnumber⟩ := h
    rcases List.mem_append.mp ha with ha | ha
    · rcases List.mem_append.mp ha with ha | ha
      · split_ifs at ha with hnone
        · cases ha
        · rw [List.mem_singleton.mp ha]
          exact ⟨hlabel.resolve_left hnone, nofun⟩
      · split_ifs at ha with hunset
        · cases ha
        · rw [List.mem_singleton.mp ha]
          refine ⟨(p.value.complete_iff.mp hvalue).1, ?_⟩
          rintro v ⟨⟩
          exact hunset
    · rcases List.mem_cons.mp ha with rfl | ha
      · exact ⟨hposition, nofun⟩
      · obtain ⟨n, hn, rfl⟩ := List.mem_map.mp ha
        exact ⟨hnumber n (Option.mem_toList.mp hn), nofun⟩
  | wire w =>
    obtain ⟨-, hstart, hstop, -⟩ := h
    rcases List.mem_append.mp ha with ha | ha
    · obtain ⟨color, -, rfl⟩ := List.mem_map.mp ha
      exact ⟨trivial, nofun⟩
    · rcases List.mem_pair.mp ha with rfl | rfl
      · exact ⟨hstart, nofun⟩
      · exact ⟨hstop, nofun⟩
  | foreign text => cases h

end Setting

namespace Source

/-- The line writes down the component: a colon, its kind, and its attributes in any order, perhaps without some
that have their defaults. -/
def WritesDown (line : String) (c : Component) : Prop :=
  ∃ k as left, c.kind? = some k ∧ c.attributes.Perm (as ++ left) ∧
    (∀ a ∈ left, a ∈ (Component.ofKind k).attributes) ∧ Writes (declarationOf k as) line.toList

variable {c : Component} {k : Kind} {as left : List Attribute}

/-- Attributes in any order, without some that have their defaults, declare the component. -/
theorem declares_declarationOf (h : c.Expressible) (hk : c.kind? = some k)
    (hperm : c.attributes.Perm (as ++ left))
    (hleft : ∀ a ∈ left, a ∈ (Component.ofKind k).attributes) :
    Declares (declarationOf k as) c.unplaced := by
  have hmem : ∀ a ∈ as, a ∈ c.attributes := fun a ha =>
    hperm.mem_iff.mpr (List.mem_append_left left ha)
  have hnames := Component.sublist_attributes hk
  have hnodup := k.nodup_attributes.sublist hnames
  -- What is left out could as well be set first, where it changes nothing.
  have hset : as.foldl Component.set (.ofKind k) = c.unplaced := by
    calc as.foldl Component.set (.ofKind k)
      _ = as.foldl Component.set (left.foldl Component.set (.ofKind k)) := by
        rw [Component.foldl_set_ofKind hleft]
      _ = (left ++ as).foldl Component.set (.ofKind k) := List.foldl_append.symm
      _ = c.attributes.foldl Component.set (.ofKind k) :=
        (Component.foldl_set_perm (hperm.trans List.perm_append_comm) hnodup _).symm
      _ = c.unplaced := h.foldl_set hk
  refine declares_iff_foldl_set.mpr ⟨":", k, _, as, rfl, ?_, ?_, hset.symm, ?_⟩
  · refine spellsAttributes_words fun a ha => ?_
    obtain ⟨hwritten, hvalue⟩ := h.written (hmem a ha)
    exact spellsAttribute_words hwritten hvalue
  · intro a ha
    exact hnames.subset (List.mem_map_of_mem (hmem a ha))
  · obtain ⟨-, hverify⟩ := c.declared_iff_expressible.mpr h
    cases c <;> exact hverify

theorem readText_of_writesDown (h : c.Expressible) {line : String} (hline : WritesDown line c)
    (path : Option String) : readText path line = .ok [c.withOrigin ⟨1, path⟩] := by
  obtain ⟨k, as, left, hk, hperm, hleft, hwrites⟩ := hline
  have hwritable := writable_declarationOf k fun a ha =>
    (h.written (hperm.mem_iff.mpr (List.mem_append_left left ha))).1
  have hread : readLine line = .ok (some c.unplaced) := by
    obtain ⟨s, hs⟩ := component_ofTokens_eq_ok_iff.mpr
      (.inr ⟨c.unplaced, declares_declarationOf h hk hperm hleft, rfl⟩)
    rw [readLine, tokens, tokenize_of_writes hwrites hwritable]
    dsimp only
    rw [hs]
  have hplaced : c.unplaced.withOrigin ⟨1, path⟩ = c.withOrigin ⟨1, path⟩ := by
    cases c <;> rfl
  rw [readText, Text.lines_of_notMem (newline_notMem_of_writes hwrites hwritable)]
  exact readLines_cons_eq_ok.mpr ⟨_, [], hread, rfl, by rw [← hplaced]; rfl⟩

theorem exists_writesDown (h : c.Expressible) : ∃ line, WritesDown line c := by
  obtain ⟨k, hk⟩ : ∃ k, c.kind? = some k := by
    cases c with
    | foreign text => cases h
    | canvas | chip | net | pin | wire => exact ⟨_, rfl⟩
  obtain ⟨cs, hwrites⟩ := exists_writes (List.cons_ne_nil _ _ : declarationOf k c.attributes ≠ [])
  refine ⟨String.ofList cs, k, c.attributes, [], hk, by simp, by simp, ?_⟩
  rw [String.toList_ofList]
  exact hwrites

/-- The components that texts are read as are, up to their places, those that a line can write. Each of these
can be written down, and is what any line is read as that does so. -/
theorem read_iff_expressible (c : Component) :
    ((∃ path text cs, readText path text = .ok cs ∧ ∃ d ∈ cs, d.unplaced = c.unplaced) ↔
      c.Expressible) ∧
    (c.Expressible → (∃ line, WritesDown line c) ∧
      ∀ line path, WritesDown line c → readText path line = .ok [c.withOrigin ⟨1, path⟩]) := by
  refine ⟨⟨?_, fun h => ?_⟩, fun h => ?_⟩
  · rintro ⟨path, text, cs, hread, d, hd, hsame⟩
    have hexpressible := d.declared_iff_expressible.mp (declared_of_readText hread d hd)
    rw [← Component.expressible_unplaced, hsame, Component.expressible_unplaced] at hexpressible
    exact hexpressible
  · obtain ⟨line, hline⟩ := exists_writesDown h
    exact ⟨none, line, _, readText_of_writesDown h hline none, _, List.mem_singleton_self _,
      Component.unplaced_withOrigin _ c⟩
  · exact ⟨exists_writesDown h, fun line path hline => readText_of_writesDown h hline path⟩

/-- A pin that is low unless both `a` and `b_1` are high. -/
def gatePin : Component :=
  .pin { label := "y", value := ⟨.gate .and, ["a", "b_1"]⟩, number := some 3 }

/-- Its attributes in another order, without the position. -/
def gateLine : String := ":pin num 3\tvalue and 'a 'b_1  . label 'y"

theorem read_iff_expressible_gate :
    gatePin.Expressible ∧ WritesDown gateLine gatePin ∧
      readText none gateLine = .ok [gatePin.withOrigin ⟨1, none⟩] := by
  have hy : IsLabel "y" := ⟨by decide, List.all_eq_true.mp (by decide +kernel)⟩
  have ha : IsLabel "a" := ⟨by decide, List.all_eq_true.mp (by decide +kernel)⟩
  have hb : IsLabel "b_1" := ⟨by decide, List.all_eq_true.mp (by decide +kernel)⟩
  have hgate := List.forall_mem_cons.mpr ⟨ha, List.forall_mem_singleton.mpr hb⟩
  have hexpressible : gatePin.Expressible := by
    refine ⟨.inr hy, ⟨List.cons_ne_nil _ _, hgate⟩, rfl, ?_, rfl, ?_⟩
    · exact ⟨⟨by decide, by decide⟩, ⟨by decide, by decide⟩⟩
    · rintro n ⟨⟩
      exact ⟨by decide, by decide⟩
  have hcolon : IsGap [] := isGap_of_all rfl
  have hspace : IsGap [' '] := isGap_of_all (by decide)
  have htab : IsGap ['\t'] := isGap_of_all (by decide)
  have hspaces : IsGap [' ', ' '] := isGap_of_all (by decide)
  have hwrites : Writes (declarationOf .pin
      [.number 3, .value ⟨.gate .and, ["a", "b_1"]⟩, .label "y"]) gateLine.toList :=
    .cons hcolon (fun _ => rfl) (.cons hspace nofun (.cons hspace nofun (.cons htab nofun
      (.cons hspace nofun (.cons hspace nofun (.cons hspace nofun (.cons hspaces nofun
      (.cons hspace nofun (.cons hspace nofun (.last _))))))))))
  have hdown : WritesDown gateLine gatePin :=
    ⟨.pin, _, [.position ⟨0, 0⟩], rfl, by decide +kernel, by decide +kernel, hwrites⟩
  exact ⟨hexpressible, hdown, ((read_iff_expressible gatePin).2 hexpressible).2 _ _ hdown⟩

end Source

end Schematic
