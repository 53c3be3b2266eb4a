import Schematic.Proofs.Circuit.Levels

/-! Suspicious references. What the pass over the logic pins knows of a label, and whether the label is still
pending, is a matter of the pins and of how far the pass has got. Main statement: the warnings are those that the
labels of the pins and their order give reason for, and resolution gives and logs them in that order. -/
namespace Schematic

/-- A pin has the label. -/
def Carried (ps : List Pin) (l : String) : Prop := l ≠ "" ∧ ∃ p ∈ ps, p.label = l

/-- A logic pin has the label. -/
def Driven (ps : List Pin) (l : String) : Prop :=
  l ≠ "" ∧ ∃ p ∈ ps, p.value.isLogic = true ∧ p.label = l

instance (ps : List Pin) (l : String) : Decidable (Carried ps l) := inferInstanceAs (Decidable (_ ∧ _))

instance (ps : List Pin) (l : String) : Decidable (Driven ps l) := inferInstanceAs (Decidable (_ ∧ _))

namespace Pin

/-- What is suspicious about the reference of `p` to a label, where `before` are those of all the pins `ps` that
stand before `p`. -/
def suspicion? (ps before : List Pin) (p : Pin) (l : String) : Option Warning :=
  if ¬Carried ps l then some (.unknownLabel p.displayName l)
  else if Driven ps l ∧ ¬Driven before l then some (.earlyReference p.displayName l)
  else none

/-- The suspicious references of a logic pin, in order. -/
def suspicions (ps before : List Pin) (p : Pin) : List Warning :=
  if p.value.isLogic then p.value.labels.filterMap (p.suspicion? ps before) else []

end Pin

/-- The suspicious references of all logic pins, pin by pin. -/
def suspicions (ps : List Pin) : List Warning :=
  ps.zipIdx.flatMap fun e => e.1.suspicions ps (ps.take e.2)

section Labels

variable {ps done : List Pin} {p : Pin} {l : String}

theorem Driven.carried (h : Driven ps l) : Carried ps l := by
  obtain ⟨hl, p, hp, -, hlabel⟩ := h
  exact ⟨hl, p, hp, hlabel⟩

theorem carried_cons_iff : Carried (p :: ps) l ↔ (p.label ≠ "" ∧ l = p.label) ∨ Carried ps l := by
  unfold Carried
  rw [List.exists_mem_cons_iff, and_or_left]
  refine or_congr_left ?_
  constructor
  · rintro ⟨hl, rfl⟩
    exact ⟨hl, rfl⟩
  · rintro ⟨hl, rfl⟩
    exact ⟨hl, rfl⟩

theorem not_driven_nil : ¬Driven [] l := by
  rintro ⟨-, p, hp, -⟩
  cases hp

theorem driven_concat_iff : Driven (done ++ [p]) l ↔
    Driven done l ∨ (p.value.isLogic = true ∧ p.label ≠ "" ∧ l = p.label) := by
  unfold Driven
  simp only [List.mem_append, List.mem_singleton, or_and_right, exists_or, exists_eq_left, and_or_left]
  refine or_congr_right ?_
  constructor
  · rintro ⟨hl, hlogic, rfl⟩
    exact ⟨hlogic, hl, rfl⟩
  · rintro ⟨hlogic, hl, rfl⟩
    exact ⟨hl, hlogic, rfl⟩

end Labels

namespace Settling

/-- The pass over the pins `ps` that has gone over those of `done`: exactly the labels that a pin has are known, and
exactly those are pending that logic pins have, but none in `done`. -/
structure Tracks (s : Settling) (ps done : List Pin) : Prop where
  known : ∀ l, (s.levels.get? l).isSome ↔ Carried ps l
  pending : ∀ l, l ∈ s.pending ↔ Driven ps l ∧ ¬Driven done l

theorem isSome_foldl_record_iff {ps : List Pin} {m : Levels} {l : String} :
    ((ps.foldl Levels.record m).get? l).isSome ↔ (m.get? l).isSome ∨ Carried ps l := by
  induction ps generalizing m with
  | nil => simp [Carried]
  | cons p ps ih =>
    rw [List.foldl_cons, ih, carried_cons_iff, ← or_assoc]
    refine or_congr_left ?_
    by_cases hp : p.label = ""
    · rw [Levels.record_of_eq_empty hp]
      simp [hp]
    · rw [Levels.get?_record hp]
      by_cases hl : l = p.label <;> simp [hp, hl]

theorem tracks_ofPins (ps : List Pin) : (ofPins ps).Tracks ps [] where
  known l := by
    change ((Levels.ofPins ps).get? l).isSome ↔ _
    rw [Levels.ofPins_eq_foldl, isSome_foldl_record_iff]
    simp
  pending l := by
    rw [and_iff_left not_driven_nil]
    simp only [ofPins, Driven, List.mem_map, List.mem_filter, decide_eq_true_eq]
    constructor
    · rintro ⟨p, ⟨hp, hl, hlogic⟩, rfl⟩
      exact ⟨hl, p, hp, hlogic, rfl⟩
    · rintro ⟨hl, p, hp, hlogic, rfl⟩
      exact ⟨p, ⟨hp, hl, hlogic⟩, rfl⟩

variable {s : Settling} {ps done rest : List Pin} {p : Pin}

theorem Tracks.settle (h : s.Tracks ps done) (hp : p ∈ ps) : (p.settle s).2.Tracks ps (done ++ [p]) := by
  cases hg : p.value.content.gate? with
  | none =>
    rw [Pin.settle_of_none hg]
    refine ⟨h.known, fun l => ?_⟩
    rw [h.pending, driven_concat_iff, Pin.isLogic_eq_false_iff.mpr hg]
    simp
  | some g =>
    have hlogic := Pin.isLogic_of_gate hg
    have hlabel := Pin.label_settle p s
    constructor
    · intro l
      rw [Pin.levels_settle_of_gate hg]
      by_cases hne : p.label = ""
      · rw [Levels.record_of_eq_empty (hlabel.trans hne)]
        exact h.known l
      · rw [Levels.get?_record (hlabel ▸ hne), hlabel]
        split
        · next hl => exact iff_of_true rfl ⟨hl ▸ hne, p, hp, hl.symm⟩
        · exact h.known l
    · intro l
      rw [Pin.pending_settle_of_gate hg, driven_concat_iff]
      by_cases hne : p.label = ""
      · simp [hne, h.pending]
      · simp only [hne, ↓reduceIte, List.mem_filter, h.pending, decide_eq_true_eq, hlogic, ne_eq,
          not_false_eq_true, true_and, not_or, and_assoc]

/-- A pass that starts with the pins of `done` behind it has all of them behind it at its end. -/
theorem Tracks.settleFrom (h : s.Tracks ps done) (hps : ps = done ++ rest) :
    (Pin.settleFrom rest s).2.Tracks ps ps := by
  induction rest generalizing s done with
  | nil =>
    rw [List.append_nil] at hps
    exact hps ▸ h
  | cons p rest ih =>
    have hp : p ∈ ps := by simp [hps]
    rw [Pin.settleFrom_cons]
    exact ih (h.settle hp) (hps.trans (List.append_cons done p rest))

/-- At its end a pass has nothing pending. -/
theorem pending_settleAll (ps : List Pin) (l : String) : l ∉ (Pin.settleAll ps).2.pending := by
  have hend : (Pin.settleAll ps).2.Tracks ps ps := (tracks_ofPins ps).settleFrom rfl
  intro hl
  obtain ⟨hall, hnone⟩ := (hend.pending l).mp hl
  exact hnone hall

/-- The look at what is known and pending finds what is suspicious. -/
theorem Tracks.warning?_eq (h : s.Tracks ps done) (p : Pin) :
    p.warning? s = p.suspicion? ps done := by
  funext l
  have hknown : (s.levels.get? l).isNone = true ↔ ¬Carried ps l := by
    rw [← h.known l, Option.isNone_iff_eq_none, Option.not_isSome_iff_eq_none]
  unfold Pin.warning? Pin.suspicion?
  simp only [hknown, h.pending]

theorem Tracks.warnings_settle (h : s.Tracks ps done) (p : Pin) :
    (p.settle s).2.warnings = s.warnings ++ p.suspicions ps done := by
  unfold Pin.suspicions
  cases hg : p.value.content.gate? with
  | none => simp [Pin.settle_of_none hg, Pin.isLogic_eq_false_iff.mpr hg]
  | some g =>
    rw [Pin.warnings_settle_of_gate hg, h.warning?_eq, if_pos (Pin.isLogic_of_gate hg)]

theorem Tracks.warnings_settleFrom (h : s.Tracks ps done) (hps : ps = done ++ rest) :
    (Pin.settleFrom rest s).2.warnings = s.warnings ++
      (rest.zipIdx done.length).flatMap fun e => e.1.suspicions ps (ps.take e.2) := by
  induction rest generalizing s done with
  | nil => simp [Pin.settleFrom]
  | cons p rest ih =>
    have hp : p ∈ ps := by simp [hps]
    have hbefore : ps.take done.length = done := by rw [hps, List.take_left]
    have hsplit : ps = done ++ [p] ++ rest := hps.trans (List.append_cons done p rest)
    rw [Pin.settleFrom_cons, ih (h.settle hp) hsplit, h.warnings_settle, List.zipIdx_cons,
      List.flatMap_cons, hbefore, List.append_assoc, List.length_append, List.length_singleton]

end Settling

theorem warnings_settleAll (ps : List Pin) : (Pin.settleAll ps).2.warnings = suspicions ps :=
  (Settling.tracks_ofPins ps).warnings_settleFrom rfl

section Unpowered

theorem carried_map_unpowered {ps : List Pin} {l : String} :
    Carried (ps.map Pin.unpowered) l ↔ Carried ps l := by
  simp only [Carried, List.mem_map, exists_exists_and_eq_and]
  rfl

theorem driven_map_unpowered {ps : List Pin} {l : String} :
    Driven (ps.map Pin.unpowered) l ↔ Driven ps l := by
  simp only [Driven, List.mem_map, exists_exists_and_eq_and]
  rfl

/-- No voltage is suspicious. -/
theorem suspicions_map_unpowered (ps : List Pin) : suspicions (ps.map Pin.unpowered) = suspicions ps := by
  have hpin : ∀ before p, Pin.suspicions (ps.map Pin.unpowered) (before.map Pin.unpowered)
      (Pin.unpowered p) = Pin.suspicions ps before p := by
    intro before p
    unfold Pin.suspicions
    have hreference : Pin.suspicion? (ps.map Pin.unpowered) (before.map Pin.unpowered) p.unpowered =
        Pin.suspicion? ps before p := by
      funext l
      unfold Pin.suspicion?
      simp only [carried_map_unpowered, driven_map_unpowered]
      rfl
    rw [hreference]
    rfl
  unfold suspicions
  rw [List.zipIdx_map, List.flatMap_map]
  simp only [Prod.map, ← List.map_take, hpin, id]

theorem suspicions_of_map_unpowered_eq {ps qs : List Pin}
    (h : qs.map Pin.unpowered = ps.map Pin.unpowered) : suspicions qs = suspicions ps := by
  rw [← suspicions_map_unpowered qs, h, suspicions_map_unpowered]

end Unpowered

/-- Warnings are logged one by one. -/
theorem messages_warning_warn (s : LoadState) (ws : List Warning) :
    Log.messages .warning (s.warn ws).log =
      Log.messages .warning s.log ++ ws.map Warning.message := by
  have hitems : (ws.map fun w => LogItem.ofMessage .warning w.message).filter
      (fun i => i.severity == .warning) = ws.map fun w => .ofMessage .warning w.message := by
    rw [List.filter_eq_self, List.forall_mem_map]
    exact fun _ _ => rfl
  unfold LoadState.warn Log.messages
  rw [List.filter_append, hitems, List.map_append, List.map_map]
  simp [Function.comp_def]

/-- Resolution logs the warnings that it gives, and no others. -/
theorem exists_warnings_of_resolveAll {cs ds : List Component} {s s' : LoadState}
    (h : resolveAll cs s = ⟨ds, s', none⟩) : ∃ ws, s'.warnings = s.warnings ++ ws ∧
      Log.messages .warning s'.log = Log.messages .warning s.log ++ ws.map Warning.message := by
  unfold resolveAll at h
  dsimp only at h
  split at h
  · cases h
  · cases h
    refine ⟨_, rfl, ?_⟩
    rw [Log.messages_add, messages_warning_warn, if_neg (by decide), List.append_nil]

/-- The pass warns about the suspicious references in order, and all of its warnings are logged in that order, in a
pass over any pins and in the resolution of any schematic. The text of a warning says which of the two it is, and
names the pin and the label. -/
theorem warns_of_suspicions :
    (∀ pin l : String, (Warning.unknownLabel pin l).message = "Pin " ++ pin ++ " references unknown label " ++ l ∧
      (Warning.earlyReference pin l).message = "Pin " ++ pin ++ " references " ++ l ++ " before it is evaluated") ∧
    (∀ (ps : List Pin) (s : LoadState), (Pin.settleAll ps).2.warnings = suspicions ps ∧
      Log.messages .warning (s.warn (Pin.settleAll ps).2.warnings).log =
        Log.messages .warning s.log ++ (suspicions ps).map Warning.message) ∧
    ∀ (cs ds : List Component) (s s' : LoadState), resolveAll cs s = ⟨ds, s', none⟩ →
      s'.warnings = s.warnings ++ suspicions (pins cs) ∧
      Log.messages .warning s'.log =
        Log.messages .warning s.log ++ (suspicions (pins cs)).map Warning.message := by
  refine ⟨fun pin l => ⟨rfl, rfl⟩, ?_, ?_⟩
  · intro ps s
    rw [messages_warning_warn, warnings_settleAll]
    exact ⟨rfl, rfl⟩
  · intro cs ds s s' h
    obtain ⟨ps, hresolves, hwarnings⟩ := resolveAll_eq_ok h
    obtain ⟨ws, hgiven, hlogged⟩ := exists_warnings_of_resolveAll h
    have hpins : suspicions ps = suspicions (pins cs) :=
      suspicions_of_map_unpowered_eq (map_unpowered_of_connectAll hresolves.connect)
    rw [warnings_settleAll, hpins] at hwarnings
    have hws : ws = suspicions (pins cs) :=
      List.append_cancel_left (hgiven.symm.trans hwarnings)
    rw [hlogged, hws]
    exact ⟨hwarnings, rfl⟩

/-- Two gates of one label, the second of which refers to the label again, a pin without gate under the same label,
and a gate without label. -/
def rivalGates : List Pin := [
  { label := "y", value := ⟨.gate .and, ["y", "z"]⟩ },
  { label := "y", value := ⟨.gate .or, ["y", "x", "a"]⟩, voltage := .low },
  { label := "y" },
  { value := ⟨.gate .or, ["z", "z", "y"]⟩ },
  { label := "z", value := ⟨.gate .and, ["z"]⟩ },
  { label := "a", voltage := .high }]

theorem warns_of_suspicions_rivalGates : ∃ ds s',
    resolveAll (rivalGates.map .pin) {} = ⟨ds, s', none⟩ ∧ s'.warnings = [
      .earlyReference "y" "y", .earlyReference "y" "z", .unknownLabel "y" "x",
      .earlyReference "(unlabeled)" "z", .earlyReference "(unlabeled)" "z",
      .earlyReference "z" "z"] ∧
    Log.messages .warning s'.log = [
      "Pin y references y before it is evaluated", "Pin y references z before it is evaluated",
      "Pin y references unknown label x", "Pin (unlabeled) references z before it is evaluated",
      "Pin (unlabeled) references z before it is evaluated", "Pin z references z before it is evaluated"] := by
  let r := resolveAll (rivalGates.map .pin) {}
  have hr : resolveAll (rivalGates.map .pin) {} = ⟨r.items, r.state, none⟩ :=
    Sweep.eq_of_failure_eq_none (by decide +kernel)
  obtain ⟨hgiven, hlogged⟩ := warns_of_suspicions.2.2 _ _ _ _ hr
  refine ⟨r.items, r.state, hr, ?_, ?_⟩
  · rw [hgiven]
    decide +kernel
  · rw [hlogged]
    decide +kernel

end Schematic
