import Mathlib.Data.List.Nodup
import Schematic.Proofs.Circuit.Levels

/-! The pass over the logic pins as a solution of the circuit. A level that a gate has read does not change
any more, unless the gate was warned about. Main statement: where labels are distinct and no reference was
early, each gate has the level that the final levels of its inputs give it. -/
namespace Schematic

/-- No label is that of two pins. Pins without a label do not count. -/
def DistinctLabels (ps : List Pin) : Prop := ((ps.map Pin.label).filter (· ≠ "")).Nodup

/-- A pin with the label is high. -/
def HighIn (ps : List Pin) (l : String) : Prop := ∃ p ∈ ps, p.label = l ∧ p.voltage = .high

/-- What a gate asks of the pins that it refers to. -/
def Gate.Holds (ps : List Pin) : Gate → List String → Prop
  | .and, ls => ∀ l ∈ ls, HighIn ps l
  | .or, ls => ∃ l ∈ ls, HighIn ps l

namespace DistinctLabels

variable {p q : Pin} {ps qs : List Pin}

theorem congr (h : DistinctLabels ps) (hl : qs.map Pin.label = ps.map Pin.label) :
    DistinctLabels qs := by
  unfold DistinctLabels at h ⊢
  rwa [hl]

theorem sublist (h : DistinctLabels ps) (hs : qs.Sublist ps) : DistinctLabels qs :=
  ((hs.map Pin.label).filter _).nodup h

theorem eq_of_label_eq (h : DistinctLabels ps) (hp : p ∈ ps) (hq : q ∈ ps)
    (hl : p.label = q.label) (hne : q.label ≠ "") : p = q := by
  unfold DistinctLabels at h
  rw [List.filter_map] at h
  have hp' : p ∈ ps.filter ((· ≠ "") ∘ Pin.label) :=
    List.mem_filter.mpr ⟨hp, decide_eq_true (hl ▸ hne)⟩
  have hq' : q ∈ ps.filter ((· ≠ "") ∘ Pin.label) :=
    List.mem_filter.mpr ⟨hq, decide_eq_true hne⟩
  exact List.inj_on_of_nodup_map h hp' hq' hl

theorem head_ne (h : DistinctLabels (p :: ps)) (hp : p.label ≠ "") : ∀ q ∈ ps, q.label ≠ p.label := by
  have hfilter : ((p :: ps).map Pin.label).filter (· ≠ "") =
      p.label :: (ps.map Pin.label).filter (· ≠ "") := by simp [hp]
  unfold DistinctLabels at h
  rw [hfilter] at h
  intro q hq he
  refine (List.nodup_cons.mp h).1 (List.mem_filter.mpr ⟨?_, decide_eq_true hp⟩)
  rw [← he]
  exact List.mem_map_of_mem hq

end DistinctLabels

namespace Levels

/-- `m` has the levels of the pins under their labels. -/
def Shows (m : Levels) (ps : List Pin) : Prop :=
  ∀ l, l ≠ "" → ∀ v, m.get? l = some v ↔ ∃ p ∈ ps, p.label = l ∧ p.voltage = v

namespace Shows

variable {m : Levels} {q : Pin} {ps qs : List Pin}

/-- The level of one pin, where the pins with other labels are as before. -/
theorem record (h : m.Shows ps) (hd : DistinctLabels qs) (hq : q ∈ qs)
    (hothers : ∀ r, r.label ≠ q.label → (r ∈ qs ↔ r ∈ ps)) : (m.record q).Shows qs := by
  intro l hl v
  by_cases he : l = q.label
  · rw [get?_record (he ▸ hl), if_pos he, Option.some.injEq]
    constructor
    · intro hv
      exact ⟨q, hq, he.symm, hv⟩
    · intro hpin
      obtain ⟨r, hr, hrl, hrv⟩ := hpin
      have hrq := hd.eq_of_label_eq hr hq (hrl.trans he) (he ▸ hl)
      rw [← hrq, hrv]
  · rw [get?_record_of_ne fun _ => he, h l hl v]
    constructor
    · intro hpin
      obtain ⟨r, hr, hrl, hrv⟩ := hpin
      exact ⟨r, (hothers r (hrl ▸ he)).mpr hr, hrl, hrv⟩
    · intro hpin
      obtain ⟨r, hr, hrl, hrv⟩ := hpin
      exact ⟨r, (hothers r (hrl ▸ he)).mp hr, hrl, hrv⟩

theorem get?_eq_some (h : m.Shows ps) (hq : q ∈ ps) (hl : q.label ≠ "") :
    m.get? q.label = some q.voltage := (h q.label hl q.voltage).mpr ⟨q, hq, rfl, rfl⟩

theorem get?_eq_high_iff (h : m.Shows ps) {l : String} (hl : l ≠ "") :
    m.get? l = some .high ↔ HighIn ps l := h l hl .high

theorem get?_eq_find? (h : m.Shows ps) {l : String} (hl : l ≠ "") :
    m.get? l = (ps.find? fun p => p.label == l).map Pin.voltage := by
  cases hf : ps.find? fun p => p.label == l with
  | none =>
    rw [Option.map_none, Option.eq_none_iff_forall_ne_some]
    intro v hv
    obtain ⟨r, hr, hrl, -⟩ := (h l hl v).mp hv
    exact List.find?_eq_none.mp hf r hr (beq_iff_eq.mpr hrl)
  | some r =>
    have hr := List.mem_of_find?_eq_some hf
    have hb := List.find?_some hf
    have hrl : r.label = l := beq_iff_eq.mp hb
    rw [Option.map_some, ← hrl]
    exact h.get?_eq_some hr (hrl ▸ hl)

end Shows

theorem shows_ofPins {ps : List Pin} (hd : DistinctLabels ps) : (ofPins ps).Shows ps := by
  have hfold : ∀ (rest done : List Pin) (m : Levels), m.Shows done → ps = done ++ rest →
      (rest.foldl Levels.record m).Shows ps := by
    intro rest
    induction rest with
    | nil =>
      intro done m h hps
      rw [hps, List.append_nil]
      exact h
    | cons p rest ih =>
      intro done m h hps
      have hps' : ps = (done ++ [p]) ++ rest := by rw [hps, List.append_assoc, List.singleton_append]
      refine ih (done ++ [p]) (m.record p) ?_ hps'
      rw [hps'] at hd
      refine h.record (hd.sublist (List.sublist_append_left _ _)) (by simp) ?_
      intro r hr
      have hne : r ≠ p := fun he => hr (congrArg Pin.label he)
      simp [hne]
  exact hfold ps [] {} (by simp [Shows]) rfl

end Levels

/-- The logic pins still to come are pending, and their labels have levels. -/
def Settling.Awaits (s : Settling) (ps : List Pin) : Prop :=
  ∀ p ∈ ps, p.value.isLogic → p.label ≠ "" →
    p.label ∈ s.pending ∧ (s.levels.get? p.label).isSome

/-- No reference was warned about as early. -/
def Unhurried (ws : List Warning) : Prop := ∀ pin label, .earlyReference pin label ∉ ws

theorem Settling.awaits_ofPins {ps : List Pin} (hd : DistinctLabels ps) :
    (Settling.ofPins ps).Awaits ps := by
  intro p hp hlogic hl
  constructor
  · refine List.mem_map.mpr ⟨p, List.mem_filter.mpr ⟨hp, ?_⟩, rfl⟩
    exact decide_eq_true ⟨hl, hlogic⟩
  · change ((Levels.ofPins ps).get? p.label).isSome
    rw [(Levels.shows_ofPins hd).get?_eq_some hp hl]
    rfl

namespace Pin

variable {p : Pin} {s : Settling} {done ps : List Pin}

theorem distinctLabels_settle (hd : DistinctLabels (done ++ p :: ps)) (s : Settling) :
    DistinctLabels (done ++ (p.settle s).1 :: ps) := by
  apply hd.congr
  rw [List.map_append, List.map_append, List.map_cons, List.map_cons, label_settle]

theorem shows_settle (h : s.levels.Shows (done ++ p :: ps)) (hd : DistinctLabels (done ++ p :: ps)) :
    (p.settle s).2.levels.Shows (done ++ (p.settle s).1 :: ps) := by
  cases hg : p.value.content.gate? with
  | none =>
    rw [settle_of_none hg]
    exact h
  | some g =>
    rw [levels_settle_of_gate hg]
    apply h.record (distinctLabels_settle hd s) (by simp)
    intro r hr
    have hq : r ≠ (p.settle s).1 := fun he => hr (congrArg label he)
    have hp : r ≠ p := by
      intro he
      rw [he, label_settle] at hr
      exact hr rfl
    simp [hq, hp]

/-- After the pass the levels are those of the pins that it leaves. -/
theorem shows_settleFrom (h : s.levels.Shows (done ++ ps)) (hd : DistinctLabels (done ++ ps)) :
    (settleFrom ps s).2.levels.Shows (done ++ (settleFrom ps s).1) := by
  induction ps generalizing done s with
  | nil => exact h
  | cons p ps ih =>
    have hstep := shows_settle h hd
    have hd' := distinctLabels_settle hd s
    rw [List.append_cons] at hstep hd'
    rw [settleFrom_cons, List.append_cons]
    exact ih hstep hd'

theorem shows_settleAll (hd : DistinctLabels ps) :
    (settleAll ps).2.levels.Shows (settleAll ps).1 := by
  have h : (Settling.ofPins ps).levels.Shows ([] ++ ps) := Levels.shows_ofPins hd
  exact shows_settleFrom h hd

theorem awaits_settle (h : s.Awaits (p :: ps)) (hd : DistinctLabels (p :: ps)) :
    (p.settle s).2.Awaits ps := by
  intro q hq hlogic hl
  obtain ⟨hpending, hlevel⟩ := h q (List.mem_cons_of_mem p hq) hlogic hl
  have hne : p.label ≠ "" → q.label ≠ p.label := fun hp => hd.head_ne hp q hq
  rw [get?_levels_settle fun _ => hne]
  refine ⟨?_, hlevel⟩
  cases hg : p.value.content.gate? with
  | none =>
    rw [settle_of_none hg]
    exact hpending
  | some g =>
    rw [pending_settle_of_gate hg]
    split_ifs with hp
    · exact hpending
    · exact List.mem_filter.mpr ⟨hpending, decide_eq_true (hne hp)⟩

/-- A gate that is not warned about refers to no logic pin still to come, nor to itself. -/
theorem label_ne_of_unhurried {g : Gate} (hg : p.value.content.gate? = some g) (h : s.Awaits ps)
    (hw : Unhurried (p.settle s).2.warnings) {l : String} (hl : l ∈ p.value.labels) :
    ∀ q ∈ ps, q.value.isLogic → q.label ≠ "" → l ≠ q.label := by
  intro q hq hlogic hne he
  rw [he] at hl
  obtain ⟨hpending, hlevel⟩ := h q hq hlogic hne
  have hwarn : p.warning? s q.label = some (.earlyReference p.displayName q.label) := by
    unfold warning?
    rw [if_neg (by simp [Option.isSome_iff_ne_none.mp hlevel]), if_pos hpending]
  rw [warnings_settle_of_gate hg] at hw
  exact hw _ _ (List.mem_append_right _ (List.mem_filterMap.mpr ⟨_, hl, hwarn⟩))

/-- The gate `p` reads the level of the gate `q`. -/
def Reads (p q : Pin) : Prop :=
  p.value.isLogic ∧ q.value.isLogic ∧ q.label ≠ "" ∧ q.label ∈ p.value.labels

/-- No gate reads its own level or that of a gate behind it. -/
def InOrder : List Pin → Prop
  | [] => True
  | p :: ps => (∀ q ∈ p :: ps, ¬p.Reads q) ∧ InOrder ps

/-- The pin with the level that its gate has under the levels `m`. -/
def settledAt (m : Levels) (p : Pin) : Pin :=
  match p.value.content.gate? with
  | none => p
  | some g => p.powered (g.output (p.value.labels.map m.get?))

theorem settledAt_of_none {m : Levels} (h : p.value.content.gate? = none) : p.settledAt m = p := by
  unfold settledAt
  rw [h]

theorem settledAt_of_gate {m : Levels} {g : Gate} (h : p.value.content.gate? = some g) :
    p.settledAt m = p.powered (g.output (p.value.labels.map m.get?)) := by
  unfold settledAt
  rw [h]

theorem inOrder_of_unhurried (h : s.Awaits ps) (hd : DistinctLabels ps)
    (hw : Unhurried (settleFrom ps s).2.warnings) : InOrder ps := by
  induction ps generalizing s with
  | nil => exact trivial
  | cons p ps ih =>
    rw [settleFrom_cons] at hw
    have hquiet : Unhurried (p.settle s).2.warnings :=
      fun pin label hm => hw pin label (subset_warnings_settleFrom ps _ hm)
    have hrest : InOrder ps :=
      ih (awaits_settle h hd) (hd.sublist (List.sublist_cons_self p ps)) hw
    refine ⟨?_, hrest⟩
    intro q hq hreads
    obtain ⟨hp, hlogic, hne, hl⟩ := hreads
    obtain ⟨g, hg⟩ := Option.isSome_iff_exists.mp hp
    exact label_ne_of_unhurried hg h hquiet hl q hq hlogic hne rfl

/-- What a gate has read is what the levels are in the end. -/
theorem settleFrom_eq_map (h : InOrder ps) (s : Settling) :
    (settleFrom ps s).1 = ps.map (settledAt (settleFrom ps s).2.levels) := by
  induction ps generalizing s with
  | nil => rfl
  | cons p ps ih =>
    have hrest := ih h.2 (p.settle s).2
    rw [settleFrom_cons, List.map_cons, ← hrest]
    cases hg : p.value.content.gate? with
    | none => rw [settle_of_none hg, settledAt_of_none hg]
    | some g =>
      have hread : ∀ l ∈ p.value.labels, s.levels.get? l =
          (settleFrom ps (p.settle s).2).2.levels.get? l := by
        intro l hl
        have hne : ∀ q ∈ p :: ps, q.value.isLogic → q.label ≠ "" → l ≠ q.label := by
          intro q hq hlogic hlabel he
          exact h.1 q hq ⟨isLogic_of_gate hg, hlogic, hlabel, he ▸ hl⟩
        obtain ⟨hp, hps⟩ := List.forall_mem_cons.mp hne
        rw [get?_levels_settleFrom hps, get?_levels_settle hp]
      rw [settle_of_gate hg, settledAt_of_gate hg, List.map_congr_left hread]

theorem voltage_settleFrom (h : s.Awaits ps) (hd : DistinctLabels ps)
    (hw : Unhurried (settleFrom ps s).2.warnings) :
    ∀ q ∈ (settleFrom ps s).1, ∀ g, q.value.content.gate? = some g →
      q.voltage = g.output (q.value.labels.map (settleFrom ps s).2.levels.get?) := by
  intro q hq g hg
  rw [settleFrom_eq_map (inOrder_of_unhurried h hd hw)] at hq
  obtain ⟨p, -, rfl⟩ := List.mem_map.mp hq
  cases hp : p.value.content.gate? with
  | none =>
    rw [settledAt_of_none hp, hp] at hg
    cases hg
  | some g' =>
    rw [settledAt_of_gate hp] at hg ⊢
    have he : g' = g := Option.some.inj (hp.symm.trans hg)
    rw [he]
    rfl

end Pin

namespace Gate

theorem output_eq_low {g : Gate} {inputs : List (Option Voltage)} (h : g.output inputs ≠ .high) :
    g.output inputs = .low := by
  unfold output at h ⊢
  split at h <;> split_ifs at h ⊢ <;> first | rfl | exact absurd rfl h

theorem output_and_eq_high {inputs : List (Option Voltage)} :
    Gate.and.output inputs = .high ↔ ∀ i ∈ inputs, i = some .high := by
  simp [output]

theorem output_or_eq_high {inputs : List (Option Voltage)} :
    Gate.or.output inputs = .high ↔ ∃ i ∈ inputs, i = some .high := by
  simp [output]

/-- The inputs of a gate are high where the pins that they come from are. -/
theorem output_eq_high_iff {m : Levels} {ps : List Pin} (g : Gate) {ls : List String}
    (hhigh : ∀ l ∈ ls, m.get? l = some .high ↔ HighIn ps l) :
    g.output (ls.map m.get?) = .high ↔ g.Holds ps ls := by
  cases g with
  | and =>
    rw [output_and_eq_high, List.forall_mem_map]
    exact forall₂_congr hhigh
  | or =>
    rw [output_or_eq_high]
    constructor
    · intro hinput
      obtain ⟨i, hi, hv⟩ := hinput
      obtain ⟨l, hl, rfl⟩ := List.mem_map.mp hi
      exact ⟨l, hl, (hhigh l hl).mp hv⟩
    · intro hholds
      obtain ⟨l, hl, hv⟩ := hholds
      exact ⟨_, List.mem_map_of_mem hl, (hhigh l hl).mpr hv⟩

theorem output_eq_high_iff_holds {m : Levels} {ps : List Pin} (h : m.Shows ps) (g : Gate)
    {ls : List String} (hls : ∀ l ∈ ls, l ≠ "") :
    g.output (ls.map m.get?) = .high ↔ g.Holds ps ls :=
  g.output_eq_high_iff fun l hl => h.get?_eq_high_iff (hls l hl)

end Gate

/-- Where labels are distinct and no reference was early, the pass leaves a solution. -/
theorem settleAll_solves {ps : List Pin} (hd : DistinctLabels ps)
    (hw : Unhurried (Pin.settleAll ps).2.warnings)
    (href : ∀ p ∈ (Pin.settleAll ps).1, ∀ l ∈ p.value.labels, l ≠ "") :
    ∀ q ∈ (Pin.settleAll ps).1, ∀ g, q.value.content.gate? = some g →
      (q.voltage = .high ↔ g.Holds (Pin.settleAll ps).1 q.value.labels) ∧
        (q.voltage ≠ .high → q.voltage = .low) := by
  intro q hq g hg
  have hv := Pin.voltage_settleFrom (Settling.awaits_ofPins hd) hd hw q hq g hg
  have hshows := Pin.shows_settleAll hd
  constructor
  · rw [hv]
    exact Gate.output_eq_high_iff_holds hshows g (href q hq)
  · intro hne
    rw [hv] at hne ⊢
    exact Gate.output_eq_low hne

end Schematic
