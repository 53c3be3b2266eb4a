import Schematic.Proofs.Layout.Hygiene
import Schematic.Proofs.Load.Instance

/-! Names of the pins of instances. An expanded label is the label in the template, the last segment of the chip
type and the number of the chip, with underscores in between. Labels have underscores of their own, but types
have none, so that a name is read from its end. Main statement: an expanded label tells its three parts, and
instances of a loaded project have a label in common only if their types differ, though not in the last
segment. -/
namespace Schematic
open Schematic.Files Schematic.Source

/-- `s` is the part of the type behind its last slash, or all of a type without slashes. -/
def IsLastSegment (type s : String) : Prop :=
  '/' ∉ s.toList ∧ (type = s ∨ ∃ front, type = front ++ "/" ++ s)

section Labels

variable {type type' l l' : String}

theorem isLastSegment_shortType (type : String) : IsLastSegment type (shortType type) := by
  let back := type.toList.reverse
  have hshort : (shortType type).toList = (back.takeWhile (· ≠ '/')).reverse := String.toList_ofList
  have hwhole : type.toList =
      (back.dropWhile (· ≠ '/')).reverse ++ (back.takeWhile (· ≠ '/')).reverse := by
    rw [← List.reverse_append, List.takeWhile_append_dropWhile, List.reverse_reverse]
  constructor
  · rw [hshort, List.mem_reverse]
    intro hmem
    simpa using List.mem_takeWhile_imp hmem
  · cases hdrop : back.dropWhile (· ≠ '/') with
    | nil =>
      left
      rw [hdrop, List.reverse_nil, List.nil_append] at hwhole
      rw [← String.toList_inj, hwhole, hshort]
    | cons c front =>
      right
      have hslash : c = '/' := by
        have hne : back.dropWhile (· ≠ '/') ≠ [] := by
          rw [hdrop]
          exact List.cons_ne_nil c front
        have hhead := List.head_dropWhile_not (· ≠ '/') hne
        simp only [hdrop, List.head_cons] at hhead
        exact not_not.mp (of_decide_eq_false hhead)
      refine ⟨String.ofList front.reverse, ?_⟩
      rw [hdrop, hslash, List.reverse_cons] at hwhole
      rw [← String.toList_inj, String.toList_append, String.toList_append, String.toList_ofList, hwhole,
        hshort]
      rfl

theorem isLastSegment_iff {s : String} : IsLastSegment type s ↔ shortType type = s := by
  constructor
  · rintro ⟨hslash, htype⟩
    have hback : ∀ x ∈ s.toList.reverse, decide (x ≠ '/') = true := by
      intro x hx
      rw [List.mem_reverse] at hx
      exact decide_eq_true fun he => hslash (he ▸ hx)
    rw [← String.toList_inj, shortType, Text.afterLast, String.toList_ofList]
    rcases htype with rfl | ⟨front, rfl⟩
    · rw [List.takeWhile_eq_self_iff.mpr hback, List.reverse_reverse]
    · rw [String.toList_append, String.toList_append, List.reverse_append, List.takeWhile_append_of_pos hback,
        List.reverse_append]
      simp
  · rintro rfl
    exact isLastSegment_shortType type

theorem renameLabel_instanceSuffix_eq_iff (htype : ∀ x ∈ type.toList, isTypeChar x = true)
    (htype' : ∀ x ∈ type'.toList, isTypeChar x = true) (hl : l ≠ "") (hl' : l' ≠ "") (m n : Nat) :
    renameLabel (instanceSuffix type m) l = renameLabel (instanceSuffix type' n) l' ↔
      l = l' ∧ shortType type = shortType type' ∧ m = n := by
  have hshort : '_' ∉ (shortType type).toList := underscore_notMem_shortType htype
  have hshort' : '_' ∉ (shortType type').toList := underscore_notMem_shortType htype'
  rw [renameLabel_of_ne hl, renameLabel_of_ne hl', append_instanceSuffix_eq_iff]
  constructor
  · intro h
    have hfront : l = l' ∧ shortType type = shortType type' :=
      underscore_injective hshort hshort' h.2
    exact ⟨hfront.1, hfront.2, h.1⟩
  · intro h
    rw [h.1, h.2.1]
    exact ⟨h.2.2, rfl⟩

/-- An expansion renames the labels of the template, pin by pin. -/
theorem map_label_getElem?_expand (c : Chip) (template : List Pin) (n : Int) (i : Nat) :
    (c.expand template n)[i]?.map Pin.label =
      template[i]?.map fun p => renameLabel (instanceSuffix c.type n) p.label := by
  rw [Chip.expand, List.getElem?_map, Option.map_map]
  rfl

theorem label_expand {c : Chip} {ps : List Pin} {p : Pin} {m : Int} {i : Nat} (hp : ps[i]? = some p)
    (hl : p.label ≠ "") : (c.expand ps m)[i]?.map Pin.label =
      some (p.label ++ "_" ++ shortType c.type ++ "_" ++ toString m) := by
  rw [map_label_getElem?_expand, hp, Option.map_some, renameLabel_of_ne hl, instanceSuffix]
  simp only [String.append_assoc]

theorem label_expand_eq_iff {c d : Chip} {ps qs : List Pin} {p q : Pin} {m n : Int} {i j : Nat}
    (hc : ∀ x ∈ c.type.toList, isTypeChar x = true) (hd : ∀ x ∈ d.type.toList, isTypeChar x = true)
    (hm : 0 < m) (hn : 0 < n) (hp : ps[i]? = some p) (hq : qs[j]? = some q) (hpl : p.label ≠ "")
    (hql : q.label ≠ "") :
    (c.expand ps m)[i]?.map Pin.label = (d.expand qs n)[j]?.map Pin.label ↔
      p.label = q.label ∧ shortType c.type = shortType d.type ∧ m = n := by
  obtain ⟨k, hk⟩ := Int.eq_ofNat_of_zero_le (Int.le_of_lt hm)
  obtain ⟨k', hk'⟩ := Int.eq_ofNat_of_zero_le (Int.le_of_lt hn)
  rw [map_label_getElem?_expand, map_label_getElem?_expand, hp, hq, Option.map_some,
    Option.map_some, Option.some.injEq, hk, hk', Int.ofNat_inj]
  exact renameLabel_instanceSuffix_eq_iff hc hd hpl hql k k'

end Labels

section Load

variable {files : Tree} {input : Source.Input} {options : LoadOptions}
  {library? : Option Library} {p : Project} {i j : Nat} {c d : Chip} {q r : Pin}

/-- The pins of the project that the chip declares are those of the template, under the number. -/
def Project.Expands (p : Project) (c : Chip) (template : List Pin) (n : Nat) : Prop :=
  (pinsFrom c.origin (pins p.components)).map Pin.unpowered =
    (c.expand template n).map Pin.unpowered

/-- The label of a pin is a label of the template, renamed. -/
theorem Project.Expands.exists_label {template : List Pin} {n : Nat} (h : p.Expands c template n)
    (hq : q ∈ pinsFrom c.origin (pins p.components)) :
    ∃ a ∈ template, q.label = renameLabel (instanceSuffix c.type n) a.label := by
  obtain ⟨b, hb, he⟩ := Pin.exists_of_map_unpowered h hq
  obtain ⟨a, ha, hab⟩ := List.mem_map.mp hb
  refine ⟨a, ha, ?_⟩
  rw [← Pin.label_eq_of_unpowered_eq he, ← hab]
  rfl

namespace Passage

variable (t : Passage files input options library? p)
include t

theorem isTypeChar_of_getElem? (hc : t.source[i]? = some (.chip c)) :
    ∀ x ∈ c.type.toList, isTypeChar x = true := by
  have hdeclared : (Component.chip c).Declared :=
    Source.declared_of_read t.read_eq _ (List.mem_of_getElem? hc)
  have htype : c.type = "" ∨ IsTypeName c.type := hdeclared.1.1
  rcases htype with hempty | hname
  · rw [hempty]
    simp
  · exact TokenKind.isTypeChar_of_matches hname

theorem expands (hc : t.source[i]? = some (.chip c)) :
    t.library.template files c.type = .ok (t.templateOf c.type) ∧
      p.Expands c (t.templateOf c.type) (ordinal c.type (t.source.take i)) := by
  have htype : c.type ∈ chipTypes t.lettered := by
    rw [t.chipTypes_lettered]
    exact mem_chipTypes (List.mem_of_getElem? hc)
  have hsplit : t.source = t.source.take i ++ .chip c :: t.source.drop (i + 1) := by
    obtain ⟨hlt, hget⟩ := List.getElem?_eq_some_iff.mp hc
    rw [← hget, List.getElem_cons_drop, List.take_append_drop]
  exact ⟨t.template_eq htype, t.map_unpowered_pinsFrom hsplit⟩

/-- Instances are told apart by their last segments, and those of one type by their numbers. -/
theorem label_ne (hc : t.source[i]? = some (.chip c)) (hd : t.source[j]? = some (.chip d))
    (h : shortType c.type ≠ shortType d.type ∨ i ≠ j ∧ c.type = d.type)
    (hq : q ∈ pinsFrom c.origin (pins p.components))
    (hr : r ∈ pinsFrom d.origin (pins p.components)) (hlabel : q.label ≠ "") :
    q.label ≠ r.label := by
  intro he
  obtain ⟨a, -, ha⟩ := (t.expands hc).2.exists_label hq
  obtain ⟨b, -, hb⟩ := (t.expands hd).2.exists_label hr
  have hal : a.label ≠ "" := by
    rw [ha] at hlabel
    exact fun hempty => hlabel (renameLabel_eq_empty.mpr hempty)
  have hbl : b.label ≠ "" := by
    rw [he, hb] at hlabel
    exact fun hempty => hlabel (renameLabel_eq_empty.mpr hempty)
  rw [ha, hb, renameLabel_instanceSuffix_eq_iff (t.isTypeChar_of_getElem? hc)
    (t.isTypeChar_of_getElem? hd) hal hbl] at he
  obtain ⟨-, hshort, hordinal⟩ := he
  rcases h with hne | hsame
  · exact hne hshort
  · exact type_ne_of_ordinal_eq hsame.1 hc hd hordinal hsame.2

end Passage

end Load

/-- An expanded label is the label in the template, the last segment of the type and the number. Of chip types as
lines write them, expanded labels are equal only if these three parts are. So in a loaded project, no pins of chips
with different last segments, nor of different chips of one type, have a label in common. -/
theorem expanded_labels_decode :
    (∀ type s, IsLastSegment type s ↔ shortType type = s) ∧
    (∀ (c : Chip) (ps : List Pin) (p : Pin) (m : Int) (i : Nat), ps[i]? = some p → p.label ≠ "" →
      (c.expand ps m)[i]?.map Pin.label =
        some (p.label ++ "_" ++ shortType c.type ++ "_" ++ toString m)) ∧
    (∀ (c d : Chip) (ps qs : List Pin) (p q : Pin) (m n : Int) (i j : Nat),
      (∀ x ∈ c.type.toList, isTypeChar x = true) → (∀ x ∈ d.type.toList, isTypeChar x = true) →
      0 < m → 0 < n → ps[i]? = some p → qs[j]? = some q → p.label ≠ "" → q.label ≠ "" →
      ((c.expand ps m)[i]?.map Pin.label = (d.expand qs n)[j]?.map Pin.label ↔
        p.label = q.label ∧ shortType c.type = shortType d.type ∧ m = n)) ∧
    ∀ (files : Tree) (input : Source.Input) (options : LoadOptions) (library? : Option Library)
      (log : Log) (p : Project) (source : List Component),
      (load files input options library? log).project = .ok (some p) →
      input.read files = .ok source →
      ∃ library, chosenLibrary files options library? = .ok library ∧
        ∀ (i : Nat) (c : Chip), source[i]? = some (.chip c) →
          (∃ template, library.template files c.type = .ok template ∧
            p.Expands c template (ordinal c.type (source.take i))) ∧
          ∀ (j : Nat) (d : Chip), source[j]? = some (.chip d) →
            (shortType c.type ≠ shortType d.type ∨ i ≠ j ∧ c.type = d.type) →
            ∀ q ∈ pinsFrom c.origin (pins p.components),
              ∀ r ∈ pinsFrom d.origin (pins p.components), q.label ≠ "" → q.label ≠ r.label := by
  refine ⟨fun type s => isLastSegment_iff, ?_, ?_, ?_⟩
  · intro c ps p m i hp hpl
    exact label_expand hp hpl
  · intro c d ps qs p q m n i j hc hd hm hn hp hq hpl hql
    exact label_expand_eq_iff hc hd hm hn hp hq hpl hql
  · intro files input options library? log p source hload hread
    obtain ⟨t, -⟩ := exists_passage hload
    have hsource : t.source = source := Except.ok.inj (t.read_eq.symm.trans hread)
    refine ⟨t.library, t.library_eq, ?_⟩
    rw [← hsource]
    intro i c hc
    refine ⟨⟨_, t.expands hc⟩, ?_⟩
    intro j d hd hdiffer q hq r hr hlabel
    exact t.label_ne hc hd hdiffer hq hr hlabel

/-- A label in a template may look like an expanded one. -/
theorem expanded_labels_decode_buffers :
    IsLastSegment "gates/buf" "buf" ∧
    (Chip.expand { type := "gates/buf" } [{ label := "a_buf_1" }] 2)[0]?.map Pin.label =
      some "a_buf_1_buf_2" ∧
    (Chip.expand { type := "mem/buf" } [{ label := "a" }] 12)[0]?.map Pin.label = some "a_buf_12" ∧
    (Chip.expand { type := "gates/buf" } [{ label := "a_buf_1" }] 2)[0]?.map Pin.label ≠
      (Chip.expand { type := "mem/buf" } [{ label := "a" }] 12)[0]?.map Pin.label ∧
    ∀ q ∈ pinsFrom (some ⟨3, none⟩) (pins bufferProject.components),
      ∀ r ∈ pinsFrom (some ⟨5, none⟩) (pins bufferProject.components),
        q.label ≠ "" → q.label ≠ r.label := by
  obtain ⟨hsegment, hlabel, hdecode, hproject⟩ := expanded_labels_decode
  have hread : buffers.read .fresh = .ok [
      .canvas ⟨⟨4, 5⟩, some ⟨1, none⟩⟩, .net ⟨"vcc", ⟨⟨0, 0⟩, ⟨0, 1⟩⟩, some ⟨2, none⟩⟩,
      .chip ⟨"gates/buf", ⟨⟨1, 1⟩, ⟨0, chipHeight⟩⟩, some ⟨3, none⟩⟩,
      .wire ⟨some .red, ⟨1, 3⟩, ⟨3, 0⟩, "", some ⟨4, none⟩⟩,
      .chip ⟨"gates/buf", ⟨⟨2, 1⟩, ⟨0, chipHeight⟩⟩, some ⟨5, none⟩⟩] := by decide +kernel
  obtain ⟨library, -, hinstances⟩ := hproject _ _ _ _ _ _ _ load_buffers.1 hread
  refine ⟨(hsegment _ _).mpr (by decide +kernel), ?_, ?_, ?_, ?_⟩
  · rw [hlabel _ _ _ _ _ rfl (by decide)]
    decide +kernel
  · rw [hlabel _ _ _ _ _ rfl (by decide)]
    decide +kernel
  · intro he
    have hgates : ∀ x ∈ "gates/buf".toList, isTypeChar x = true :=
      List.all_eq_true.mp (by decide)
    have hmem : ∀ x ∈ "mem/buf".toList, isTypeChar x = true :=
      List.all_eq_true.mp (by decide)
    have hparts := (hdecode { type := "gates/buf" } { type := "mem/buf" } _ _ _ _ 2 12 0 0
      hgates hmem (by decide) (by decide) rfl rfl (by decide) (by decide)).mp he
    exact absurd hparts.2.2 (by decide)
  · exact (hinstances 2 _ rfl).2 4 _ rfl (.inr ⟨by decide, rfl⟩)

end Schematic
