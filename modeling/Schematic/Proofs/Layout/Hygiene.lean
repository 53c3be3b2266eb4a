import Schematic.Library.Template
import Schematic.Proofs.Layout.Expansion
import Schematic.Proofs.Source.Declared

/-! Labels of different instances. The ending of a label tells the number of the instance, but of its type
the last segment only. Main statement: which instances have a label in common. -/
namespace Schematic
open Schematic.Source

section Endings

/-- The last occurrence of a character divides a list in one way. -/
theorem append_cons_injective {α : Type} {c : α} {as bs ds es : List α} (hd : c ∉ ds) (he : c ∉ es)
    (h : as ++ c :: ds = bs ++ c :: es) : as = bs ∧ ds = es := by
  rcases List.append_eq_append_iff.mp h with ⟨cs, rfl, hcs⟩ | ⟨cs, rfl, hcs⟩
  · cases cs with
    | nil =>
      rw [List.nil_append, List.cons.injEq] at hcs
      exact ⟨(List.append_nil as).symm, hcs.2⟩
    | cons x cs =>
      rw [List.cons_append, List.cons.injEq] at hcs
      exact absurd (hcs.2 ▸ List.mem_append_right cs List.mem_cons_self) hd
  · cases cs with
    | nil =>
      rw [List.nil_append, List.cons.injEq] at hcs
      exact ⟨List.append_nil bs, hcs.2.symm⟩
    | cons x cs =>
      rw [List.cons_append, List.cons.injEq] at hcs
      exact absurd (hcs.2 ▸ List.mem_append_right cs List.mem_cons_self) he

theorem underscore_injective {a b d e : String} (hd : '_' ∉ d.toList) (he : '_' ∉ e.toList)
    (h : a ++ "_" ++ d = b ++ "_" ++ e) : a = b ∧ d = e := by
  have hl := congrArg String.toList h
  simp only [String.toList_append] at hl
  rw [List.append_assoc, List.append_assoc] at hl
  obtain ⟨hab, hde⟩ := append_cons_injective hd he hl
  exact ⟨String.toList_inj.mp hab, String.toList_inj.mp hde⟩

theorem underscore_notMem_natCast (n : Nat) : '_' ∉ (toString (n : Int)).toList := by
  change '_' ∉ n.repr.toList
  rw [Nat.toList_repr]
  exact Nat.underscore_not_in_toDigits

theorem natCast_injective {n n' : Nat} (h : toString (n : Int) = toString (n' : Int)) : n = n' := by
  change n.repr = n'.repr at h
  have hdigits := congrArg (fun s => Nat.ofDigitChars 10 s.toList 0) h
  simpa using hdigits

/-- Renamed labels are equal if they are so up to the number, and the numbers are. -/
theorem append_instanceSuffix_eq_iff {l l' type type' : String} {n n' : Nat} :
    l ++ instanceSuffix type n = l' ++ instanceSuffix type' n' ↔
      n = n' ∧ l ++ "_" ++ shortType type = l' ++ "_" ++ shortType type' := by
  unfold instanceSuffix
  rw [← String.append_assoc, ← String.append_assoc, ← String.append_assoc, ← String.append_assoc,
    ← String.append_assoc, ← String.append_assoc]
  constructor
  · intro h
    obtain ⟨hfront, hnumber⟩ :=
      underscore_injective (underscore_notMem_natCast n) (underscore_notMem_natCast n') h
    exact ⟨natCast_injective hnumber, hfront⟩
  · intro h
    obtain ⟨hn, hl⟩ := h
    rw [hn, hl]

end Endings

/-- The pins that take the place of the `i`-th component. -/
def instancePins (templateOf : String → List Pin) (cs : List Component) (i : Nat) : List Pin :=
  pins ((blocks templateOf cs)[i]?.getD [])

/-- A pin of each of the two components has the same label. -/
def ShareLabel (templateOf : String → List Pin) (cs : List Component) (i j : Nat) : Prop :=
  ∃ p ∈ instancePins templateOf cs i, ∃ q ∈ instancePins templateOf cs j,
    p.label ≠ "" ∧ p.label = q.label

section Instances

variable {templateOf : String → List Pin} {cs : List Component} {i j : Nat} {c d : Chip}

theorem getElem?_blocksFrom (seen : List String) (cs : List Component) (i : Nat) :
    (blocksFrom templateOf seen cs)[i]? =
      cs[i]?.map fun c => c.block templateOf ((chipTypes (cs.take i)).reverse ++ seen) := by
  induction cs generalizing i seen with
  | nil => rfl
  | cons c cs ih =>
    cases i with
    | zero => rfl
    | succ i =>
      have htypes : chipTypes (c :: cs.take i) = c.chipType?.toList ++ chipTypes (cs.take i) := by
        cases c <;> rfl
      rw [blocksFrom, List.getElem?_cons_succ, List.getElem?_cons_succ, ih, List.take_succ_cons,
        htypes, List.reverse_append, List.append_assoc]
      cases c <;> rfl

theorem instancePins_eq (hc : cs[i]? = some (.chip c)) : instancePins templateOf cs i =
    c.expand (templateOf c.type) (ordinal c.type (cs.take i)) := by
  unfold instancePins blocks ordinal
  rw [getElem?_blocksFrom, hc, List.append_nil, Option.map_some, Option.getD_some,
    Component.block, pins_map_pin, List.count_reverse]

/-- Chips of one type have different numbers. -/
theorem ordinal_lt (hij : i < j) (hc : cs[i]? = some (.chip c)) :
    ordinal c.type (cs.take i) < ordinal c.type (cs.take j) := by
  have htake : cs.take (i + 1) = cs.take i ++ [.chip c] := by
    rw [List.take_add_one, hc]
    rfl
  have hsub : (chipTypes (cs.take (i + 1))).Sublist (chipTypes (cs.take j)) :=
    (List.take_sublist_take_left hij).filterMap _
  have hcount := hsub.count_le c.type
  rw [htake, chipTypes_append, List.count_append] at hcount
  have hone : (chipTypes [.chip c]).count c.type = 1 := List.count_singleton_self
  unfold ordinal
  omega

theorem type_ne_of_ordinal_eq (hij : i ≠ j) (hc : cs[i]? = some (.chip c))
    (hd : cs[j]? = some (.chip d))
    (hn : ordinal c.type (cs.take i) = ordinal d.type (cs.take j)) : c.type ≠ d.type := by
  intro ht
  rcases Nat.lt_or_gt_of_ne hij with hlt | hgt
  · have hless := ordinal_lt hlt hc
    rw [hn, ht] at hless
    exact Nat.lt_irrefl _ hless
  · have hless := ordinal_lt hgt hd
    rw [← hn, ht] at hless
    exact Nat.lt_irrefl _ hless

/-- Two instances have a label in common exactly if they are chips of different types with the same number,
and labels of their templates followed by the last segments of their types come out the same. -/
theorem shareLabel_iff (hij : i ≠ j) (hc : cs[i]? = some (.chip c)) (hd : cs[j]? = some (.chip d)) :
    ShareLabel templateOf cs i j ↔ c.type ≠ d.type ∧
      ordinal c.type (cs.take i) = ordinal d.type (cs.take j) ∧
      ∃ p ∈ templateOf c.type, ∃ q ∈ templateOf d.type, p.label ≠ "" ∧ q.label ≠ "" ∧
        p.label ++ "_" ++ shortType c.type = q.label ++ "_" ++ shortType d.type := by
  unfold ShareLabel
  rw [instancePins_eq hc, instancePins_eq hd]
  constructor
  · intro hshare
    obtain ⟨p', hp', q', hq', hne, he⟩ := hshare
    obtain ⟨p, hp, rfl⟩ := List.mem_map.mp hp'
    obtain ⟨q, hq, rfl⟩ := List.mem_map.mp hq'
    change renameLabel _ p.label ≠ "" at hne
    change renameLabel _ p.label = renameLabel _ q.label at he
    have hpl : p.label ≠ "" := renameLabel_eq_empty.not.mp hne
    have hql : q.label ≠ "" := renameLabel_eq_empty.not.mp (he ▸ hne)
    rw [renameLabel_of_ne hpl, renameLabel_of_ne hql, append_instanceSuffix_eq_iff] at he
    obtain ⟨hn, hl⟩ := he
    exact ⟨type_ne_of_ordinal_eq hij hc hd hn, hn, p, hp, q, hq, hpl, hql, hl⟩
  · intro hsame
    obtain ⟨-, hn, p, hp, q, hq, hpl, hql, hl⟩ := hsame
    refine ⟨_, List.mem_map_of_mem hp, _, List.mem_map_of_mem hq, ?_, ?_⟩
    · change renameLabel _ p.label ≠ ""
      rw [renameLabel_of_ne hpl]
      exact fun he => hpl (String.append_eq_empty_iff.mp he).1
    · change renameLabel _ p.label = renameLabel _ q.label
      rw [renameLabel_of_ne hpl, renameLabel_of_ne hql]
      exact append_instanceSuffix_eq_iff.mpr ⟨hn, hl⟩

theorem mem_of_mem_shortType {type : String} {x : Char} (h : x ∈ (shortType type).toList) :
    x ∈ type.toList := by
  unfold shortType Text.afterLast at h
  rw [String.toList_ofList, List.mem_reverse] at h
  exact List.mem_reverse.mp (List.takeWhile_subset _ h)

/-- A type has no underscore, so that its last segment can be told from the label. -/
theorem underscore_notMem_shortType {type : String} (h : ∀ x ∈ type.toList, isTypeChar x = true) :
    '_' ∉ (shortType type).toList := by
  intro hm
  have htype := h '_' (mem_of_mem_shortType hm)
  revert htype
  decide

end Instances

/-- Which of the pins that an expansion leaves have the label of a pin of another instance. -/
theorem expansion_collides_iff {read : TemplateReader} {cs flat : List Component} {s s' : LoadState}
    (h : expandAll read cs s = ⟨flat, s', none⟩) :
    flat = (blocks s'.templateOf cs).flatten ∧
    ∀ (i j : Nat) (c d : Chip), i ≠ j → cs[i]? = some (.chip c) → cs[j]? = some (.chip d) →
      (ShareLabel s'.templateOf cs i j ↔ c.type ≠ d.type ∧
        ordinal c.type (cs.take i) = ordinal d.type (cs.take j) ∧
        ∃ p ∈ s'.templateOf c.type, ∃ q ∈ s'.templateOf d.type, p.label ≠ "" ∧ q.label ≠ "" ∧
          p.label ++ "_" ++ shortType c.type = q.label ++ "_" ++ shortType d.type) := by
  obtain ⟨-, -, hflat⟩ := expandAll_eq_ok h
  refine ⟨hflat, ?_⟩
  intro i j c d hij hc hd
  exact shareLabel_iff hij hc hd

/-- A library with buffers of two types that have the same last segment. -/
def twoBuffers : Library := Library.onlyBundled.extend
  [("mem/buf", .bundled ":pin label 'a\n:pin label 'y value and 'a .\n")]

/-- A chip of each of these types. -/
def rivals : List Component := [.chip { type := "gates/buf" }, .chip { type := "mem/buf" }]

theorem expansion_collides_iff_rivals :
    ∃ flat s', expandAll (twoBuffers.template .fresh) rivals {} = ⟨flat, s', none⟩ ∧
      ShareLabel s'.templateOf rivals 0 1 := by
  have hf : (expandAll (twoBuffers.template .fresh) rivals {}).failure = none := by decide +kernel
  have hcommon : ∃ p ∈ (expandAll (twoBuffers.template .fresh) rivals {}).state.templateOf "gates/buf",
      ∃ q ∈ (expandAll (twoBuffers.template .fresh) rivals {}).state.templateOf "mem/buf",
        p.label ≠ "" ∧ q.label ≠ "" ∧
          p.label ++ "_" ++ shortType "gates/buf" = q.label ++ "_" ++ shortType "mem/buf" := by
    decide +kernel
  obtain ⟨-, hcollides⟩ := expansion_collides_iff (by rw [← hf] :
    expandAll (twoBuffers.template .fresh) rivals {} = ⟨_, _, none⟩)
  refine ⟨_, _, by rw [← hf], ?_⟩
  exact (hcollides 0 1 _ _ (by decide) rfl rfl).mpr ⟨by decide, by decide, hcommon⟩

end Schematic
