import Mathlib.Data.List.Forall2
import Mathlib.Data.List.Perm.Basic
import Schematic.Proofs.Source.Expressible
import Schematic.Proofs.Source.Promptness

/-! Groups of a line: each is the name of an attribute with its arguments. Setting an attribute overwrites what was
set under the same name, and leaves all else alone. Main statement: of the groups of one name only the last counts,
and groups of different names may stand in any order. -/
namespace Schematic

section Keyed

variable {α β κ : Type} [DecidableEq κ]

/-- The entries of a list that have no other with their key behind them. -/
def lasts (key : α → κ) : List α → List α
  | [] => []
  | x :: xs => if key x ∈ xs.map key then lasts key xs else x :: lasts key xs

/-- The entries of `ys` are those of `xs` in an order that keeps the one among entries of the same key. -/
structure Reordered (key : α → κ) (xs ys : List α) : Prop where
  perm : xs.Perm ys
  order : ∀ k, (xs.filter fun x => key x = k) = ys.filter fun y => key y = k

theorem Reordered.symm {key : α → κ} {xs ys : List α} (h : Reordered key xs ys) :
    Reordered key ys xs := ⟨h.perm.symm, fun k => (h.order k).symm⟩

theorem reordered_iff {key : α → κ} {xs ys : List α} : Reordered key xs ys ↔
    xs.Perm ys ∧ ∀ k ∈ xs.map key, (xs.filter fun x => key x = k) = ys.filter fun y => key y = k := by
  constructor
  · rintro ⟨hperm, horder⟩
    exact ⟨hperm, fun k _ => horder k⟩
  · rintro ⟨hperm, horder⟩
    refine ⟨hperm, fun k => ?_⟩
    by_cases hk : k ∈ xs.map key
    · exact horder k hk
    · have hnone : (xs.filter fun x => key x = k) = [] :=
        List.filter_eq_nil_iff.mpr fun x hx => by
          rintro hxk
          exact hk (of_decide_eq_true hxk ▸ List.mem_map_of_mem hx)
      have hperm' := hperm.filter fun x => key x = k
      rw [hnone] at hperm' ⊢
      exact hperm'.nil_eq

instance [DecidableEq α] (key : α → κ) (xs ys : List α) : Decidable (Reordered key xs ys) :=
  decidable_of_iff _ reordered_iff.symm

theorem mem_of_mem_lasts {key : α → κ} {xs : List α} {x : α} (h : x ∈ lasts key xs) : x ∈ xs := by
  induction xs with
  | nil => exact h
  | cons y ys ih =>
    rw [lasts] at h
    split_ifs at h with hlater
    · exact List.mem_cons_of_mem y (ih h)
    · rcases List.mem_cons.mp h with rfl | h
      · exact List.mem_cons_self
      · exact List.mem_cons_of_mem y (ih h)

/-- The first entry comes before all others of its key, so that it can be moved to the front. -/
theorem Reordered.exists_of_cons {key : α → κ} {x : α} {xs ys : List α}
    (h : Reordered key (x :: xs) ys) : ∃ front back, ys = front ++ x :: back ∧
      (∀ y ∈ front, key y ≠ key x) ∧ Reordered key xs (front ++ back) := by
  have hfirst := h.order (key x)
  rw [List.filter_cons_of_pos (by simp)] at hfirst
  obtain ⟨front, back, rfl, hfront, -, -⟩ := List.filter_eq_cons_iff.mp hfirst.symm
  have hother : ∀ y ∈ front, key y ≠ key x := fun y hy => by simpa using hfront y hy
  refine ⟨front, back, rfl, hother, (h.perm.trans List.perm_middle).cons_inv, fun k => ?_⟩
  have horder := h.order k
  rw [List.filter_append] at horder ⊢
  by_cases hk : key x = k
  · have hnone : (front.filter fun y => key y = k) = [] :=
      List.filter_eq_nil_iff.mpr fun y hy => by simpa [← hk] using hother y hy
    rw [List.filter_cons_of_pos (by simpa using hk), List.filter_cons_of_pos (by simpa using hk),
      hnone] at horder
    rw [hnone]
    exact (List.cons.inj horder).2
  · rwa [List.filter_cons_of_neg (by simpa using hk), List.filter_cons_of_neg (by simpa using hk)]
      at horder

section Folds

variable {key : α → κ} {f : β → α → β}
  (hcomm : ∀ b x y, key x ≠ key y → f (f b x) y = f (f b y) x)
include hcomm

omit [DecidableEq κ] in
theorem foldl_apply_comm {x : α} {xs : List α} (h : ∀ y ∈ xs, key y ≠ key x) (b : β) :
    f (xs.foldl f b) x = xs.foldl f (f b x) := by
  induction xs generalizing b with
  | nil => rfl
  | cons y ys ih =>
    obtain ⟨hy, hys⟩ := List.forall_mem_cons.mp h
    rw [List.foldl_cons, List.foldl_cons, ih hys, hcomm b y x hy]

/-- Where steps of different keys commute, only the order of those with the same key counts. -/
theorem Reordered.foldl_eq {xs ys : List α} (h : Reordered key xs ys) (b : β) :
    xs.foldl f b = ys.foldl f b := by
  induction xs generalizing ys b with
  | nil => rw [h.perm.nil_eq]
  | cons x xs ih =>
    obtain ⟨front, back, rfl, hfront, hrest⟩ := h.exists_of_cons
    rw [List.foldl_cons, ih hrest, List.foldl_append, List.foldl_append, List.foldl_cons,
      foldl_apply_comm hcomm hfront]

variable (hover : ∀ b x y, key x = key y → f (f b x) y = f b y)
include hover

/-- A step counts for nothing if one of its key follows. -/
theorem foldl_apply_of_mem {x : α} {xs : List α} (h : key x ∈ xs.map key) (b : β) :
    xs.foldl f (f b x) = xs.foldl f b := by
  induction xs generalizing b with
  | nil => cases h
  | cons y ys ih =>
    rw [List.foldl_cons, List.foldl_cons]
    by_cases hy : key x = key y
    · rw [hover b x y hy]
    · have hys : key x ∈ ys.map key := (List.mem_cons.mp h).resolve_left hy
      rw [hcomm b x y hy, ih hys]

theorem foldl_lasts (xs : List α) (b : β) : (lasts key xs).foldl f b = xs.foldl f b := by
  induction xs generalizing b with
  | nil => rfl
  | cons x xs ih =>
    rw [lasts, List.foldl_cons]
    split_ifs with hlater
    · rw [ih, foldl_apply_of_mem hcomm hover hlater]
    · rw [List.foldl_cons, ih]

end Folds

section Related

variable {R : α → β → Prop} {key : α → κ} {key' : β → κ} (hkey : ∀ x y, R x y → key x = key' y)
include hkey

omit [DecidableEq κ] in
theorem map_key_eq {xs : List α} {ys : List β} (h : List.Forall₂ R xs ys) : xs.map key = ys.map key' := by
  induction h with
  | nil => rfl
  | cons hxy _ ih => rw [List.map_cons, List.map_cons, hkey _ _ hxy, ih]

theorem forall₂_lasts {xs : List α} {ys : List β} (h : List.Forall₂ R xs ys) :
    List.Forall₂ R (lasts key xs) (lasts key' ys) := by
  induction h with
  | nil => exact .nil
  | cons hxy hrest ih =>
    rw [lasts, lasts, hkey _ _ hxy, map_key_eq hkey hrest]
    split_ifs
    · exact ih
    · exact .cons hxy ih

theorem forall₂_filter_key {xs : List α} {ys : List β} (h : List.Forall₂ R xs ys) (k : κ) :
    List.Forall₂ R (xs.filter fun x => key x = k) (ys.filter fun y => key' y = k) := by
  induction h with
  | nil => exact .nil
  | @cons x y xs ys hxy _ ih =>
    rw [List.filter_cons, List.filter_cons, hkey x y hxy]
    split_ifs
    · exact .cons hxy ih
    · exact ih

/-- What is related to a list comes in another order with it. -/
theorem Reordered.exists_forall₂ (hunique : ∀ x y z, R x y → R x z → y = z) {xs xs' : List α}
    {ys : List β} (h : Reordered key xs xs') (hys : List.Forall₂ R xs ys) :
    ∃ ys', List.Forall₂ R xs' ys' ∧ Reordered key' ys ys' := by
  obtain ⟨ys', hys', hperm⟩ := List.perm_comp_forall₂ h.perm.symm hys
  refine ⟨ys', hys', hperm.symm, fun k => ?_⟩
  have hfront := forall₂_filter_key hkey hys k
  rw [h.order k] at hfront
  exact List.right_unique_forall₂' (fun x y z => hunique x y z) hfront (forall₂_filter_key hkey hys' k)

end Related

end Keyed

/-- Setting an attribute overwrites one of the same name. -/
theorem Component.set_set {a b : Attribute} (h : a.name = b.name) (c : Component) :
    (c.set a).set b = c.set b := by
  cases c <;> cases a <;> cases b <;> first | rfl | cases h

theorem AttributeName.text_injective : Function.Injective text := by
  intro m n h
  have hm := ofText?_eq_some_iff.mpr h
  rw [ofText?_eq_some_iff.mpr rfl] at hm
  exact Option.some.inj hm

theorem Component.set_eq_self {a : Attribute} {c c' : Component} {e : Failure} (h : a.apply c = .error e c') :
    c.set a = c := by
  rw [set, h]
  exact Attribute.eq_of_apply_eq_error h

theorem Component.foldl_set_filter {c : Component} {k : Kind} (hk : c.kind? = some k) (as : List Attribute) :
    (as.filter fun a => a.name ∈ k.attributes).foldl Component.set c = as.foldl Component.set c := by
  induction as generalizing c with
  | nil => rfl
  | cons a as ih =>
    have happly := fun c' => @Attribute.apply_eq_ok_iff a c c' k hk
    rw [List.filter_cons, List.foldl_cons]
    split_ifs with ha
    · exact ih (by rw [kind?_set, hk])
    · cases h : a.apply c with
      | error e c' => rw [set_eq_self h, ih hk]
      | ok _ c' => exact absurd (decide_eq_true ((happly c').mp h).1) ha

/-- Attributes are told apart by their names. -/
def Attribute.key (a : Attribute) : Option String := some a.name.text

theorem Component.set_comm_of_key (c : Component) (a b : Attribute) (h : a.key ≠ b.key) :
    (c.set a).set b = (c.set b).set a :=
  set_comm (fun hname => h (by rw [Attribute.key, Attribute.key, hname])) c

theorem Component.set_set_of_key (c : Component) (a b : Attribute) (h : a.key = b.key) :
    (c.set a).set b = c.set b :=
  set_set (AttributeName.text_injective (Option.some.inj h)) c

namespace Source

/-- The tokens are read as one attribute, or have a fault before their end. -/
def IsGroup (g : List Token) : Prop :=
  match Reader.attributeGroup (.ofTokens g) with
  | .ok _ s => s.rest = []
  | .error e _ => ¬e.AtEnd

/-- The first word of a group. -/
def groupName (g : List Token) : Option String := g.head?.map Token.text

/-- A colon, a kind, and the groups one behind the other. -/
def lineOf (colon : String) (k : Kind) (gs : List (List Token)) : List Token :=
  ⟨.separator, colon⟩ :: .word k.name :: gs.flatten

/-- The tokens of a line are read as the component. -/
def ReadAs (ts : List Token) (c : Component) : Prop :=
  ∃ s, Reader.component (.ofTokens ts) = .ok (some c) s

theorem readAs_iff_declares {ts : List Token} {c : Component} : ReadAs ts c ↔ Declares ts c := by
  simp [ReadAs, component_ofTokens_eq_ok_iff]

theorem SpellsAttribute.groupName_eq {g : List Token} {a : Attribute} (h : SpellsAttribute g a) :
    groupName g = a.key := by
  obtain ⟨us, rfl, -⟩ := h
  rfl

theorem SpellsAttribute.unique {g : List Token} {a b : Attribute} (ha : SpellsAttribute g a)
    (hb : SpellsAttribute g b) : a = b := by
  have hread := fun d => (Reader.follows_attributeGroup (.ofTokens g) d []).mpr
  obtain ⟨current, h⟩ := hread a ⟨g, g.append_nil.symm, ha⟩
  obtain ⟨current', h'⟩ := hread b ⟨g, g.append_nil.symm, hb⟩
  rw [h] at h'
  cases h'
  rfl

theorem SpellsAttribute.isGroup {g : List Token} {a : Attribute} (h : SpellsAttribute g a) : IsGroup g := by
  obtain ⟨current, hread⟩ :=
    (Reader.follows_attributeGroup (.ofTokens g) a []).mpr ⟨g, g.append_nil.symm, h⟩
  rw [IsGroup, hread]

theorem isGroup_words {a : Attribute} (h : a.Written) (hset : ∀ v, a = .value v → v.content ≠ .unset) :
    IsGroup a.words := (spellsAttribute_words h hset).isGroup

/-- A group ends where the attribute does that is read from its beginning, whatever stands behind it. -/
theorem IsGroup.eq_of_append {g us vs ws : List Token} {a : Attribute} (hg : IsGroup g)
    (ha : SpellsAttribute us a) (h : g ++ ws = us ++ vs) : g = us := by
  obtain ⟨current, hread⟩ := (Reader.follows_attributeGroup (.ofTokens (g ++ ws)) a vs).mpr ⟨us, h, ha⟩
  rw [IsGroup] at hg
  split at hg
  · next s hgroup =>
    have hsame := Reader.streams_attributeGroup.ok hgroup ws
    rw [show Cursor.followedBy (.ofTokens g) ws = .ofTokens (g ++ ws) from rfl, hread] at hsame
    cases hsame
    rw [hg, List.nil_append] at h
    exact List.append_cancel_right h
  · next e s hgroup =>
    have hsame := Reader.streams_attributeGroup.failsEarly hgroup hg ws
    rw [show Cursor.followedBy (.ofTokens g) ws = .ofTokens (g ++ ws) from rfl, hread] at hsame
    cases hsame

theorem IsGroup.ne_nil {g : List Token} (hg : IsGroup g) : g ≠ [] := by
  rintro rfl
  exact hg trivial

theorem spellsAttributes_flatten_iff {gs : List (List Token)} (hgs : ∀ g ∈ gs, IsGroup g)
    {as : List Attribute} : SpellsAttributes gs.flatten as ↔ List.Forall₂ SpellsAttribute gs as := by
  constructor
  · intro h
    induction gs generalizing as with
    | nil =>
      generalize hts : ([] : List (List Token)).flatten = ts at h
      cases h with
      | nil => exact .nil
      | cons ha _ => exact absurd (List.append_eq_nil_iff.mp hts.symm).1 (ne_nil_of_spellsAttribute ha)
    | cons g gs ih =>
      -- The first attribute takes the first group, so that the others are spelled by the other groups.
      obtain ⟨hg, hgs⟩ := List.forall_mem_cons.mp hgs
      generalize hts : (g :: gs).flatten = ts at h
      rw [List.flatten_cons] at hts
      cases h with
      | nil => exact absurd (List.append_eq_nil_iff.mp hts).1 hg.ne_nil
      | cons ha has =>
        obtain rfl := hg.eq_of_append ha hts
        rw [← List.append_cancel_left hts] at has
        exact .cons ha (ih hgs has)
  · intro h
    induction h with
    | nil => exact .nil
    | cons ha _ ih => exact .cons ha (ih (List.forall_mem_cons.mp hgs).2)

theorem SpellsAttributes.exists_groups {ts : List Token} {as : List Attribute} (h : SpellsAttributes ts as) :
    ∃ gs, ts = List.flatten gs ∧ ∀ g ∈ gs, IsGroup g := by
  induction h with
  | nil => exact ⟨[], rfl, nofun⟩
  | @cons g us a as ha _ ih =>
    obtain ⟨gs, rfl, hgs⟩ := ih
    exact ⟨g :: gs, rfl, List.forall_mem_cons.mpr ⟨ha.isGroup, hgs⟩⟩

theorem readAs_lineOf_iff {colon : String} {k : Kind} {gs : List (List Token)} (hgs : ∀ g ∈ gs, IsGroup g)
    {c : Component} : ReadAs (lineOf colon k gs) c ↔
      ∃ as, List.Forall₂ SpellsAttribute gs as ∧ (∀ a ∈ as, a.name ∈ k.attributes) ∧
        c = as.foldl Component.set (.ofKind k) ∧ c.verify = .ok () := by
  simp only [← spellsAttributes_flatten_iff hgs]
  rw [readAs_iff_declares, declares_iff_foldl_set]
  constructor
  · rintro ⟨colon', k', us, as, hts, has, hnames, hc⟩
    obtain ⟨-, hname, rfl⟩ : _ ∧ k.name = k'.name ∧ gs.flatten = us := by
      simpa [lineOf, Token.word] using hts
    obtain rfl : k = k' := by
      have h := Kind.ofName?_eq_some_iff.mpr hname
      rw [Kind.ofName?_eq_some_iff.mpr rfl] at h
      exact Option.some.inj h
    exact ⟨as, has, hnames, hc⟩
  · rintro ⟨as, has, hnames, hc⟩
    exact ⟨colon, k, _, as, rfl, has, hnames, hc⟩

section

variable {colon : String} {k : Kind} {gs hs : List (List Token)} {c : Component}

theorem ReadAs.drop_earlier (hgs : ∀ g ∈ gs, IsGroup g) (h : ReadAs (lineOf colon k gs) c) :
    ReadAs (lineOf colon k (lasts groupName gs)) c := by
  obtain ⟨as, has, hnames, rfl, hverify⟩ := (readAs_lineOf_iff hgs).mp h
  refine (readAs_lineOf_iff fun g hg => hgs g (mem_of_mem_lasts hg)).mpr ⟨lasts Attribute.key as,
    forall₂_lasts (fun _ _ h => h.groupName_eq) has, fun a ha => hnames a (mem_of_mem_lasts ha),
    ?_, hverify⟩
  exact (foldl_lasts Component.set_comm_of_key Component.set_set_of_key as _).symm

theorem ReadAs.reordered (hgs : ∀ g ∈ gs, IsGroup g) (hreordered : Reordered groupName gs hs)
    (h : ReadAs (lineOf colon k gs) c) : ReadAs (lineOf colon k hs) c := by
  obtain ⟨as, has, hnames, rfl, hverify⟩ := (readAs_lineOf_iff hgs).mp h
  obtain ⟨bs, hbs, horder⟩ := hreordered.exists_forall₂ (fun _ _ h => h.groupName_eq)
    (fun _ _ _ h h' => h.unique h') has
  refine (readAs_lineOf_iff fun g hg => hgs g (hreordered.perm.mem_iff.mpr hg)).mpr ⟨bs, hbs,
    fun a ha => hnames a (horder.perm.mem_iff.mpr ha), ?_, hverify⟩
  exact horder.foldl_eq Component.set_comm_of_key _

end

/-- Of the groups of a line that is read, only the last of each name counts. Groups may be put in any order that
keeps the one among those of the same name, without a change to whether and as what the line is read. An
attribute that is refused leaves the component as it was, so that the others might as well be set alone. -/
theorem last_of_each_name_counts :
    (∀ ts c, ReadAs ts c → ∃ colon k gs, ts = lineOf colon k gs ∧ ∀ g ∈ gs, IsGroup g) ∧
    (∀ colon k gs, (∀ g ∈ gs, IsGroup g) →
      (∀ c, ReadAs (lineOf colon k gs) c → ReadAs (lineOf colon k (lasts groupName gs)) c) ∧
      ∀ hs, Reordered groupName gs hs →
        ∀ c, ReadAs (lineOf colon k gs) c ↔ ReadAs (lineOf colon k hs) c) ∧
    (∀ (a : Attribute) c e c', a.apply c = .error e c' → c' = c) ∧
    ∀ (c : Component) k (as : List Attribute), c.kind? = some k →
      (as.filter fun a => a.name ∈ k.attributes).foldl Component.set c = as.foldl Component.set c := by
  refine ⟨fun ts c h => ?_, fun colon k gs hgs => ⟨fun c h => h.drop_earlier hgs, fun hs hreordered c => ?_⟩,
    fun a c e c' h => Attribute.eq_of_apply_eq_error h, fun c k as hk => Component.foldl_set_filter hk as⟩
  · obtain ⟨colon, k, us, as, rfl, has, -⟩ := readAs_iff_declares.mp h
    obtain ⟨gs, rfl, hgs⟩ := has.exists_groups
    exact ⟨colon, k, gs, rfl, hgs⟩
  · refine ⟨fun h => h.reordered hgs hreordered, fun h => h.reordered (fun g hg => ?_) hreordered.symm⟩
    exact hgs g (hreordered.perm.mem_iff.mpr hg)

/-- A pin whose value is given twice, first as a gate without labels, and so is its label. -/
def pinGroups : List (List Token) :=
  [.value ⟨.gate .and, []⟩, .label "a", .value { content := .gnd }, .position ⟨1, 2⟩, .label "b"].map
    Attribute.words

/-- The labels between the values, and the position last. -/
def shuffledGroups : List (List Token) :=
  [.value ⟨.gate .and, []⟩, .label "a", .label "b", .value { content := .gnd }, .position ⟨1, 2⟩].map
    Attribute.words

def groundedPin : Component :=
  .pin { label := "b", value := { content := .gnd }, region := ⟨⟨1, 2⟩, ⟨1, 1⟩⟩ }

theorem last_of_each_name_counts_pin :
    ReadAs (lineOf ":" .pin pinGroups) groundedPin ∧
    (∃ colon k gs, lineOf ":" .pin pinGroups = lineOf colon k gs ∧ ∀ g ∈ gs, IsGroup g) ∧
    ReadAs (lineOf ":" .pin (lasts groupName pinGroups)) groundedPin ∧
    ReadAs (lineOf ":" .pin shuffledGroups) groundedPin ∧
    (∃ c, (Attribute.row 3).apply groundedPin = .error (Cause.inapplicableAttribute "y" "pin") c ∧
      c = groundedPin) ∧
    [.row 3, .label "b"].foldl Component.set groundedPin = groundedPin := by
  obtain ⟨hgroups, hlines, hrefused, hskip⟩ := last_of_each_name_counts
  have hpin : ReadAs (lineOf ":" .pin pinGroups) groundedPin :=
    ⟨⟨some (.ticked "b"), []⟩, by decide +kernel⟩
  have hgs : ∀ g ∈ pinGroups, IsGroup g := by
    have ha : IsLabel "a" := ⟨by decide, List.all_eq_true.mp (by decide +kernel)⟩
    have hb : IsLabel "b" := ⟨by decide, List.all_eq_true.mp (by decide +kernel)⟩
    simp only [pinGroups, List.map_cons, List.map_nil, List.forall_mem_cons]
    refine ⟨isGroup_words ⟨nofun, nofun⟩ ?_, isGroup_words ha nofun, isGroup_words ⟨nofun, fun _ => rfl⟩ ?_,
      isGroup_words ?_ nofun, isGroup_words hb nofun, nofun⟩
    · rintro _ ⟨⟩
      exact nofun
    · rintro _ ⟨⟩
      exact nofun
    · exact ⟨⟨by decide, by decide⟩, ⟨by decide, by decide⟩⟩
  obtain ⟨hlasts, hreordered⟩ := hlines ":" .pin pinGroups hgs
  have hshuffled : Reordered groupName pinGroups shuffledGroups := by decide +kernel
  have hrow : (Attribute.row 3).apply groundedPin =
      .error (Cause.inapplicableAttribute "y" "pin") groundedPin := by decide +kernel
  refine ⟨hpin, hgroups _ _ hpin, hlasts _ hpin, (hreordered _ hshuffled _).mp hpin,
    ⟨_, hrow, hrefused _ _ _ _ hrow⟩, ?_⟩
  exact (hskip groundedPin .pin [.row 3, .label "b"] rfl).symm.trans (by decide +kernel)

end Source

end Schematic
