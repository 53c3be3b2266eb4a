import Mathlib.Data.Finset.Card
import Mathlib.Logic.Function.Iterate
import Mathlib.Logic.Relation
import Schematic.Proofs.Circuit.Memoryless

/-! Repeated passes. A pass settles the gates that read no others, the next one those that read only these, and so on,
in whatever order the pins stand. Main statement: where no gate reads its own level through others, as many passes as
there are gates reach a solution, and no further pass changes it. -/
namespace Schematic

/-- The pins as one pass leaves them. -/
def Pin.pass (ps : List Pin) : List Pin := (settleAll ps).1

/-- The number of logic pins. -/
def gateCount (ps : List Pin) : Nat := ps.countP fun p => p.value.isLogic

/-- The pins that have a label. -/
def labelled (ps : List Pin) : List Pin := ps.filter fun p => p.label ≠ ""

/-- The gate `p` reads the level of `q`, a gate among the pins. -/
def ReadsIn (ps : List Pin) (p q : Pin) : Prop := q ∈ ps ∧ p.Reads q

/-- No gate reads its own level, neither by itself nor through other gates. -/
def Acyclic (ps : List Pin) : Prop := ∀ p, ¬Relation.TransGen (ReadsIn ps) p p

instance (p q : Pin) : Decidable (p.Reads q) := inferInstanceAs (Decidable (_ ∧ _))

/-- A rank below `n` for each gate, higher than that of the gates which it reads. -/
structure Ranks (rank : Pin → Nat) (n : Nat) (ps : List Pin) : Prop where
  unpowered : ∀ p q, p.unpowered = q.unpowered → rank p = rank q
  reads : ∀ p, ∀ q ∈ ps, p.Reads q → rank q < rank p
  lt : ∀ p ∈ ps, p.value.isLogic = true → rank p < n

/-- The same pin, but for the voltage of a gate whose rank is not below `k`. -/
structure Pin.AlikeBelow (rank : Pin → Nat) (k : Nat) (p q : Pin) : Prop where
  unpowered : q.unpowered = p.unpowered
  settled : (p.value.isLogic = true → rank p < k) → q = p

/-- Only gates whose rank is below `k` have the label. -/
def Early (rank : Pin → Nat) (k : Nat) (ps : List Pin) (l : String) : Prop :=
  ∀ p ∈ ps, p.value.isLogic = true → p.label ≠ "" → l = p.label → rank p < k

theorem Pin.Reads.congr {p p' q q' : Pin} (h : p.Reads q) (hp : p'.unpowered = p.unpowered)
    (hq : q'.unpowered = q.unpowered) : p'.Reads q' := by
  unfold Reads at h ⊢
  rwa [value_eq_of_unpowered_eq hp, value_eq_of_unpowered_eq hq, label_eq_of_unpowered_eq hq]

theorem Pin.Alike.trans {p q r : Pin} (h : r.Alike q) (h' : q.Alike p) : r.Alike p where
  unpowered := h.unpowered.trans h'.unpowered
  plain hplain := by
    have hq : q = p := h'.plain hplain
    rw [← hq] at hplain ⊢
    exact h.plain hplain

section Rank

variable {ps : List Pin}

/-- What a gate reads, it reads whatever its own voltage is. -/
theorem transGen_readsIn_congr {p p' q : Pin} (h : p.unpowered = p'.unpowered) :
    Relation.TransGen (ReadsIn ps) p q ↔ Relation.TransGen (ReadsIn ps) p' q := by
  have hfirst : ∀ r, ReadsIn ps p r ↔ ReadsIn ps p' r := fun r =>
    and_congr_right fun _ => ⟨fun hr => hr.congr h.symm rfl, fun hr => hr.congr h rfl⟩
  rw [Relation.TransGen.head'_iff, Relation.TransGen.head'_iff]
  simp only [hfirst]

/-- Without a cycle, the gates that a gate reads, be it through others, are fewer than all gates, and more than those
that one of them reads. -/
theorem Acyclic.exists_ranks (h : Acyclic ps) : ∃ rank, Ranks rank (gateCount ps) ps := by
  classical
  let gates := (ps.filter fun p => p.value.isLogic).toFinset
  have hgates : ∀ {q}, q ∈ gates ↔ q ∈ ps ∧ q.value.isLogic = true := by simp [gates]
  let below (p : Pin) := gates.filter fun q => Relation.TransGen (ReadsIn ps) p q
  have hself : ∀ p, p ∉ below p := fun p hp => h p (Finset.mem_filter.mp hp).2
  refine ⟨fun p => (below p).card, ?_, ?_, ?_⟩
  · intro p q hpq
    have hbelow : below p = below q := Finset.filter_congr fun r _ => transGen_readsIn_congr hpq
    rw [hbelow]
  · intro p q hq hreads
    have hstep : ReadsIn ps p q := ⟨hq, hreads⟩
    have hmem : q ∈ below p := Finset.mem_filter.mpr ⟨hgates.mpr ⟨hq, hreads.2.1⟩, .single hstep⟩
    have hsubset : below q ⊆ below p :=
      Finset.monotone_filter_right gates fun r _ hr => Relation.TransGen.head hstep hr
    exact Finset.card_lt_card (Finset.ssubset_iff_of_subset hsubset |>.mpr ⟨q, hmem, hself q⟩)
  · intro p hp hlogic
    have hmem : p ∈ gates := hgates.mpr ⟨hp, hlogic⟩
    have hfewer : below p ⊂ gates :=
      Finset.ssubset_iff_of_subset (Finset.filter_subset _ gates) |>.mpr ⟨p, hmem, hself p⟩
    calc (below p).card < gates.card := Finset.card_lt_card hfewer
      _ ≤ (ps.filter fun p => p.value.isLogic).length := List.toFinset_card_le _
      _ = gateCount ps := List.countP_eq_length_filter.symm

/-- A rank shows that there is no cycle. -/
theorem acyclic_of_rank (rank : Pin → Nat)
    (h : ∀ p ∈ ps, ∀ q ∈ ps, p.Reads q → rank q < rank p) : Acyclic ps := by
  have hend : ∀ {p q}, Relation.TransGen (ReadsIn ps) p q → q ∈ ps := by
    intro p q hpq
    obtain ⟨r, -, hr⟩ := Relation.TransGen.tail'_iff.mp hpq
    exact hr.1
  have hlt : ∀ {p q}, p ∈ ps → Relation.TransGen (ReadsIn ps) p q → rank q < rank p := by
    intro p q hp hpq
    induction hpq with
    | single hr => exact h p hp _ hr.1 hr.2
    | tail hpq hr ih => exact (h _ (hend hpq) _ hr.1 hr.2).trans ih
  exact fun p hp => lt_irrefl _ (hlt (hend hp) hp)

theorem Ranks.of_map_unpowered {rank : Pin → Nat} {n : Nat} {qs : List Pin} (h : Ranks rank n ps)
    (hqs : qs.map Pin.unpowered = ps.map Pin.unpowered) : Ranks rank n qs where
  unpowered := h.unpowered
  reads p q hq hreads := by
    obtain ⟨q', hq', hu⟩ := Pin.exists_of_map_unpowered hqs hq
    rw [h.unpowered q q' hu.symm]
    exact h.reads p q' hq' (hreads.congr rfl hu)
  lt q hq hlogic := by
    obtain ⟨q', hq', hu⟩ := Pin.exists_of_map_unpowered hqs hq
    rw [h.unpowered q q' hu.symm]
    apply h.lt q' hq'
    rwa [Pin.value_eq_of_unpowered_eq hu]

end Rank

theorem forall₂_mem_and {R : Pin → Pin → Prop} {ps qs : List Pin} (h : List.Forall₂ R ps qs) :
    List.Forall₂ (fun p q => p ∈ ps ∧ R p q) ps qs :=
  (List.forall₂_and_left _ _).mpr ⟨fun _ hp => hp, h⟩

namespace Pin

variable {rank : Pin → Nat} {k n : Nat} {ps qs : List Pin} {p q : Pin} {s r : Settling}

/-- Gates whose rank is below `k` have made their levels known alike, so that those of rank `k` read the same. -/
theorem AlikeBelow.settle (hrank : Ranks rank n ps) (hp : p ∈ ps) (h : p.AlikeBelow rank k q)
    (hlevels : ∀ l, Early rank k ps l → r.levels.get? l = s.levels.get? l) :
    (p.settle s).1.AlikeBelow rank (k + 1) (q.settle r).1 ∧
      ∀ l, Early rank k ps l → (q.settle r).2.levels.get? l = (p.settle s).2.levels.get? l := by
  have hunpowered : (q.settle r).1.unpowered = (p.settle s).1.unpowered := by
    rw [unpowered_settle, unpowered_settle, h.unpowered]
  have hvalue := value_eq_of_unpowered_eq h.unpowered
  have hlabel := label_eq_of_unpowered_eq h.unpowered
  cases hg : p.value.content.gate? with
  | none =>
    have hq : q = p := h.settled fun hlogic => by
      rw [isLogic_eq_false_iff.mpr hg] at hlogic
      cases hlogic
    rw [hq, settle_of_none hg, settle_of_none hg]
    exact ⟨⟨rfl, fun _ => rfl⟩, hlevels⟩
  | some g =>
    have hlogic := isLogic_of_gate hg
    have hg' : q.value.content.gate? = some g := by rw [hvalue, hg]
    have hout : rank p < k + 1 → (q.settle r).1 = (p.settle s).1 := by
      intro hrankp
      have hinputs : q.value.labels.map r.levels.get? = p.value.labels.map s.levels.get? := by
        rw [hvalue]
        refine List.map_congr_left fun l hl => hlevels l ?_
        rintro t ht hgate hne rfl
        have hlower := hrank.reads p t ht ⟨hlogic, hgate, hne, hl⟩
        omega
      rw [settle_of_gate hg, settle_of_gate hg', hinputs]
      exact powered_eq_of_unpowered_eq h.unpowered _
    refine ⟨⟨hunpowered, fun hlow => hout ?_⟩, fun l hl => ?_⟩
    · rw [← hrank.unpowered _ p (unpowered_settle p s)]
      apply hlow
      rwa [value_eq_of_unpowered_eq (unpowered_settle p s)]
    · rw [levels_settle_of_gate hg, levels_settle_of_gate hg']
      by_cases hown : p.label ≠ "" ∧ l = p.label
      · have hearly := hl p hp hlogic hown.1 hown.2
        rw [hout (by omega)]
        exact Levels.get?_record_congr (hlevels l hl) _
      · have hother : p.label ≠ "" → l ≠ p.label := fun hne hlp => hown ⟨hne, hlp⟩
        rw [Levels.get?_record_of_ne (by rwa [label_settle, hlabel]),
          Levels.get?_record_of_ne (by rwa [label_settle])]
        exact hlevels l hl

/-- The passes start with the same levels for the labels that only settled gates have. -/
theorem get?_ofPins_of_alikeBelow (h : List.Forall₂ (AlikeBelow rank k) ps qs) {l : String}
    (hl : Early rank k ps l) : (Levels.ofPins qs).get? l = (Levels.ofPins ps).get? l := by
  have hrecord : ∀ {m n : Levels} {p q : Pin}, n.get? l = m.get? l →
      p ∈ ps ∧ p.AlikeBelow rank k q → (n.record q).get? l = (m.record p).get? l := by
    rintro m n p q hmn ⟨hp, hpq⟩
    by_cases hown : p.label ≠ "" ∧ l = p.label
    · rw [hpq.settled fun hlogic => hl p hp hlogic hown.1 hown.2]
      exact Levels.get?_record_congr hmn p
    · have hother : p.label ≠ "" → l ≠ p.label := fun hne hlp => hown ⟨hne, hlp⟩
      have hlabel := label_eq_of_unpowered_eq hpq.unpowered
      rw [Levels.get?_record_of_ne hother, Levels.get?_record_of_ne (by rwa [hlabel]), hmn]
  have hmem := forall₂_mem_and h
  rw [Levels.ofPins_eq_foldl, Levels.ofPins_eq_foldl]
  exact List.rel_foldl (P := fun m n : Levels => n.get? l = m.get? l)
    (R := fun p q => p ∈ ps ∧ p.AlikeBelow rank k q) (fun _ _ hmn _ _ hpq => hrecord hmn hpq) rfl hmem

theorem AlikeBelow.pass (hrank : Ranks rank n ps) (h : List.Forall₂ (AlikeBelow rank k) ps qs) :
    List.Forall₂ (AlikeBelow rank (k + 1)) (pass ps) (pass qs) := by
  have hmem := forall₂_mem_and h
  exact (forall₂_settleFrom
    (S := fun m n => ∀ l, Early rank k ps l → n.get? l = m.get? l)
    (fun hpq hlevels => AlikeBelow.settle hrank hpq.1 hpq.2 hlevels) hmem
    fun _ hl => get?_ofPins_of_alikeBelow h hl).1

theorem Alike.settleFrom (h : List.Forall₂ Alike qs ps) (s : Settling) :
    List.Forall₂ Alike (settleFrom qs s).1 ps := by
  induction h generalizing s with
  | nil => exact .nil
  | cons hq _ ih =>
    rw [settleFrom_cons]
    exact .cons ((alike_settle _ s).trans hq) (ih _)

/-- Passes change voltages of gates only. -/
theorem forall₂_alike_iterate (ps : List Pin) (k : Nat) : List.Forall₂ Alike (pass^[k] ps) ps := by
  induction k with
  | zero => exact List.forall₂_same.mpr fun p _ => ⟨rfl, fun _ => rfl⟩
  | succ k ih =>
    rw [Function.iterate_succ_apply']
    exact Alike.settleFrom ih _

theorem Alike.map_label (h : List.Forall₂ Alike qs ps) : qs.map label = ps.map label := by
  rw [← List.forall₂_eq_eq_eq, List.forall₂_map_left_iff, List.forall₂_map_right_iff]
  exact h.imp fun _ _ h => label_eq_of_unpowered_eq h.unpowered

theorem map_unpowered_iterate (ps : List Pin) (k : Nat) :
    (pass^[k] ps).map unpowered = ps.map unpowered := by
  rw [← List.forall₂_eq_eq_eq, List.forall₂_map_left_iff, List.forall₂_map_right_iff]
  exact (forall₂_alike_iterate ps k).imp fun _ _ h => h.unpowered

/-- The gates whose rank is below the number of passes are settled. -/
theorem forall₂_alikeBelow_iterate (hrank : Ranks rank n ps) (k : Nat) :
    List.Forall₂ (AlikeBelow rank k) (pass^[k] ps) (pass^[k + 1] ps) := by
  induction k with
  | zero =>
    refine ((forall₂_alike_settleFrom ps _).imp fun q p h => ?_).flip
    refine ⟨h.unpowered, fun hrank => h.plain ?_⟩
    exact Bool.eq_false_iff.mpr fun hlogic => Nat.not_lt_zero _ (hrank hlogic)
  | succ k ih =>
    rw [Function.iterate_succ_apply' _ (k + 1), Function.iterate_succ_apply' _ k]
    rw [Function.iterate_succ_apply' _ k] at ih
    exact AlikeBelow.pass (hrank.of_map_unpowered (map_unpowered_iterate ps k)) ih

theorem pass_iterate_eq (hrank : Ranks rank n ps) : pass (pass^[n] ps) = pass^[n] ps := by
  have hranks : Ranks rank n (pass^[n] ps) := hrank.of_map_unpowered (map_unpowered_iterate ps n)
  have hall := forall₂_mem_and (forall₂_alikeBelow_iterate hrank n)
  have hsame : List.Forall₂ (· = ·) (pass^[n] ps) (pass^[n + 1] ps) :=
    hall.imp fun p q h => (h.2.settled (hranks.lt p h.1)).symm
  rw [List.forall₂_eq_eq_eq, Function.iterate_succ_apply'] at hsame
  exact hsame.symm

/-- Where a pass changes nothing, each gate has read levels of the pins as they are. -/
theorem exists_shows_of_settleFrom {done rest : List Pin} (h : s.levels.Shows (done ++ rest))
    (hempty : s.levels.get? "" = none) (hd : DistinctLabels (done ++ rest))
    (hsame : (settleFrom rest s).1 = rest) :
    ∀ p ∈ rest, ∀ g, p.value.content.gate? = some g → ∃ m : Levels, m.Shows (done ++ rest) ∧
      m.get? "" = none ∧ p.voltage = g.output (p.value.labels.map m.get?) := by
  induction rest generalizing done s with
  | nil => simp
  | cons p rest ih =>
    rw [settleFrom_cons] at hsame
    obtain ⟨hp, hrest⟩ := List.cons.inj hsame
    have hstep := shows_settle h hd
    have hempty' : (p.settle s).2.levels.get? "" = none := by
      rw [get?_levels_settle fun _ hne => hne.symm, hempty]
    rw [hp, List.append_cons] at hstep
    rw [List.append_cons] at hd
    rw [List.forall_mem_cons]
    refine ⟨fun g hg => ⟨s.levels, h, hempty, ?_⟩, ?_⟩
    · have hvoltage := congrArg voltage hp
      rw [settle_of_gate hg] at hvoltage
      exact hvoltage.symm
    · rw [List.append_cons]
      exact ih hstep hempty' hd hrest

end Pin

theorem highIn_labelled_iff {ps : List Pin} {l : String} :
    HighIn (labelled ps) l ↔ l ≠ "" ∧ HighIn ps l := by
  simp only [HighIn, labelled, List.mem_filter, decide_eq_true_eq]
  constructor
  · rintro ⟨p, ⟨hp, hne⟩, rfl, hhigh⟩
    exact ⟨hne, p, hp, rfl, hhigh⟩
  · rintro ⟨hne, p, hp, rfl, hhigh⟩
    exact ⟨p, ⟨hp, hne⟩, rfl, hhigh⟩

theorem Levels.Shows.get?_eq_high_iff_labelled {m : Levels} {ps : List Pin} (h : m.Shows ps)
    (hempty : m.get? "" = none) (l : String) : m.get? l = some .high ↔ HighIn (labelled ps) l := by
  rw [highIn_labelled_iff]
  by_cases hl : l = ""
  · simp [hl, hempty]
  · rw [h.get?_eq_high_iff hl, and_iff_right hl]

/-- A pass that changes nothing has found a solution. -/
theorem solves_of_pass_eq {ps : List Pin} (hd : DistinctLabels ps) (hsame : Pin.pass ps = ps) :
    ∀ p ∈ ps, ∀ g, p.value.content.gate? = some g →
      (p.voltage = .high ↔ g.Holds (labelled ps) p.value.labels) ∧
        (p.voltage ≠ .high → p.voltage = .low) := by
  intro p hp g hg
  have hstart : (Settling.ofPins ps).levels.Shows ([] ++ ps) := Levels.shows_ofPins hd
  obtain ⟨m, hshows, hempty, hvoltage⟩ :=
    Pin.exists_shows_of_settleFrom hstart (Levels.get?_empty_ofPins ps) hd hsame p hp g hg
  rw [hvoltage]
  exact ⟨g.output_eq_high_iff fun l _ => hshows.get?_eq_high_iff_labelled hempty l,
    Gate.output_eq_low⟩

/-- Without a cycle among the gates, as many passes as there are gates settle all of them: further passes change
nothing, and each gate is high exactly if all of its labels are those of high pins, or some of them are. -/
theorem repeated_passes_solve {ps : List Pin} (hlabels : DistinctLabels ps) (hacyclic : Acyclic ps) :
    (∀ n, Pin.pass^[n] (Pin.pass^[gateCount ps] ps) = Pin.pass^[gateCount ps] ps) ∧
    List.Forall₂ Pin.Alike (Pin.pass^[gateCount ps] ps) ps ∧
    ∀ p ∈ Pin.pass^[gateCount ps] ps, ∀ g, p.value.content.gate? = some g →
      (p.voltage = .high ↔ g.Holds (labelled (Pin.pass^[gateCount ps] ps)) p.value.labels) ∧
        (p.voltage ≠ .high → p.voltage = .low) := by
  obtain ⟨rank, hrank⟩ := hacyclic.exists_ranks
  have hsame := Pin.pass_iterate_eq hrank
  have halike := Pin.forall₂_alike_iterate ps (gateCount ps)
  refine ⟨Function.iterate_fixed hsame, halike, ?_⟩
  exact solves_of_pass_eq (hlabels.congr (Pin.Alike.map_label halike)) hsame

/-- Gates in the reverse of the order in which they read each other. The first of them has no label, and refers to
an unknown label and to the empty one as well. -/
def backwardGates : List Pin := [
  { value := ⟨.gate .or, ["x", "", "z"]⟩, voltage := .low },
  { label := "z", value := ⟨.gate .and, ["y", "a"]⟩ },
  { label := "y", value := ⟨.gate .or, ["w", "x"]⟩, voltage := .low },
  { label := "w", value := ⟨.gate .and, ["a", "a"]⟩ },
  { label := "a", voltage := .high }]

theorem repeated_passes_solve_backwardGates :
    (∀ n, Pin.pass^[n] (Pin.pass^[4] backwardGates) = Pin.pass^[4] backwardGates) ∧
    (Pin.pass^[4] backwardGates).map Pin.voltage = [.high, .high, .high, .high, .high] ∧
    (Pin.pass^[3] backwardGates).map Pin.voltage = [.low, .high, .high, .high, .high] := by
  have hlabels : DistinctLabels backwardGates := by
    unfold DistinctLabels
    decide
  have hacyclic : Acyclic backwardGates :=
    acyclic_of_rank (fun p => ["a", "w", "y", "z", ""].idxOf p.label) (by decide +kernel)
  exact ⟨(repeated_passes_solve hlabels hacyclic).1, by decide +kernel, by decide +kernel⟩

end Schematic
