import Mathlib.Data.List.Basic
import Mathlib.Data.List.Induction
import Schematic.Proofs.Source.Cutting
import Schematic.Source.Scanner

/-! Reading a line with interruptions. A scanner that has failed stands still, and one that is resumed goes on where
it stands. Main statement: wherever a scanner is resumed, it finds the words of the line in order, each of them once,
and stands behind the last one that it has found. -/
namespace Schematic.Source

/-- What a scanner produces at the word: a token, or the error of a word that is not recognized. -/
def Word.outcome (w : Word) : Except Failure Token :=
  if w.kind = .error then .error w.stranger else .ok w.token

/-- The text that is left behind the words of a line. -/
def behind (cs : List Char) (ws : List Word) : List Char := ws.getLast?.elim cs Word.rest

namespace Scanner

/-- What is asked of a scanner. -/
inductive Request
  | next
  | resume
deriving DecidableEq, Repr

def step (s : Scanner) : Request → Scanner
  | .next => s.next.2
  | .resume => s.resume

def run (s : Scanner) (rs : List Request) : Scanner := rs.foldl step s

/-- The token or the error that a request produces, if it produces any. -/
def found? (s : Scanner) : Request → Option (Except Failure Token)
  | .next =>
    match s.next.1 with
    | .ok t? => t?.map .ok
    | .error e => some (.error e)
  | .resume => none

/-- The tokens and errors that requests produce, in order. -/
def found (s : Scanner) : List Request → List (Except Failure Token)
  | [] => []
  | r :: rs => (s.found? r).toList ++ found (s.step r) rs

/-- Since it was last resumed, the scanner has been asked for a word and has not given one. -/
def Spent (s : Scanner) (rs : List Request) : Prop :=
  ∃ before after, rs = before ++ .next :: after ∧ .resume ∉ after ∧
    ∀ t, (s.run before).next.1 ≠ .ok (some t)

/-- There was no word left for one of the requests, before which the scanner was not spent. -/
def RanOut (s : Scanner) (rs : List Request) : Prop :=
  ∃ before after, rs = before ++ .next :: after ∧ ¬s.Spent before ∧ (s.run before).next.1 = .ok none

/-- The answer of a scanner that is not spent, with the words `ws` before it. -/
def answerOf : List Word → Except Failure (Option Token)
  | [] => .ok none
  | w :: _ => w.outcome.map some

/-- The scanner is live, and there is no word left for the request. -/
def Ends (s : Scanner) (r : Request) : Prop := r = .next ∧ s.live = true ∧ s.next.1 = .ok none

/-- There was no word left for one of the requests, at which the scanner was live. -/
def RunsOut (s : Scanner) : List Request → Prop
  | [] => False
  | r :: rs => s.Ends r ∨ (s.step r).RunsOut rs

theorem run_append (s : Scanner) (rs rs' : List Request) : s.run (rs ++ rs') = (s.run rs).run rs' :=
  List.foldl_append

theorem found_append (s : Scanner) (rs rs' : List Request) :
    s.found (rs ++ rs') = s.found rs ++ (s.run rs).found rs' := by
  induction rs generalizing s with
  | nil => rfl
  | cons r rs ih =>
    rw [List.cons_append, found, found, ih, List.append_assoc]
    rfl

section Next

variable {s : Scanner} {w : Word}

theorem next_of_not_live (h : s.live = false) : s.next = (.ok none, s) := by
  unfold next
  rw [h]
  rfl

theorem next_of_none (hlive : s.live = true) (h : word? s.rest = none) :
    s.next = (.ok none, ⟨[], s.position + s.rest.length, false⟩) := by
  unfold next
  rw [hlive, h]
  rfl

theorem next_of_some (hlive : s.live = true) (h : word? s.rest = some w) : s.next =
    ((w.outcome).map some,
      ⟨w.rest, s.position + (s.rest.length - w.rest.length), w.kind != .error⟩) := by
  unfold next
  rw [hlive, h]
  by_cases he : w.kind = .error
  · simp [he, Word.outcome, Except.map, Word.stranger]
  · simp [he, Word.outcome, Except.map, Word.token]

theorem found?_of_not_live (h : s.live = false) : s.found? .next = none := by
  unfold found?
  rw [next_of_not_live h]
  rfl

theorem found?_of_none (hlive : s.live = true) (h : word? s.rest = none) : s.found? .next = none := by
  unfold found?
  rw [next_of_none hlive h]
  rfl

theorem found?_of_some (hlive : s.live = true) (h : word? s.rest = some w) :
    s.found? .next = some w.outcome := by
  unfold found?
  rw [next_of_some hlive h]
  cases w.outcome <;> rfl

theorem ends_next_of_none (hlive : s.live = true) (h : word? s.rest = none) : s.Ends .next := by
  refine ⟨rfl, hlive, ?_⟩
  rw [next_of_none hlive h]

theorem not_ends_next_of_some (h : word? s.rest = some w) : ¬s.Ends .next := by
  rintro ⟨-, hlive, hnothing⟩
  rw [next_of_some hlive h] at hnothing
  cases ho : w.outcome with
  | ok t =>
    rw [ho] at hnothing
    cases hnothing
  | error e =>
    rw [ho] at hnothing
    cases hnothing

/-- An error ends the scan until it is resumed. -/
theorem live_of_next_eq_error {e : Failure} (h : s.next.1 = .error e) : s.next.2.live = false := by
  cases hlive : s.live with
  | false =>
    rw [next_of_not_live hlive] at h
    cases h
  | true =>
    cases hw : word? s.rest with
    | none =>
      rw [next_of_none hlive hw] at h
      cases h
    | some w =>
      rw [next_of_some hlive hw] at h ⊢
      by_cases he : w.kind = .error
      · simp [he]
      · simp [Word.outcome, he, Except.map] at h

theorem next_of_live (hlive : s.live = true) : s.next.1 = answerOf (words s.rest) := by
  cases hw : word? s.rest with
  | none => rw [next_of_none hlive hw, words_of_none hw, answerOf]
  | some w => rw [next_of_some hlive hw, words_of_some hw, answerOf]

/-- A scanner goes on being live as long as it gives tokens. -/
theorem live_next_iff : s.next.2.live = true ↔ ∃ t, s.next.1 = .ok (some t) := by
  cases hlive : s.live with
  | false => simp [next_of_not_live hlive, hlive]
  | true =>
    cases hw : word? s.rest with
    | none => simp [next_of_none hlive hw]
    | some w =>
      rw [next_of_some hlive hw]
      by_cases he : w.kind = .error <;> simp [he, Word.outcome, Except.map]

theorem position_le_step (s : Scanner) (r : Request) : s.position ≤ (s.step r).position := by
  cases r with
  | resume => exact Nat.le_refl _
  | next =>
    cases hlive : s.live with
    | false => rw [step, next_of_not_live hlive]
    | true =>
      cases hw : word? s.rest with
      | none =>
        rw [step, next_of_none hlive hw]
        exact Nat.le_add_right _ _
      | some w =>
        rw [step, next_of_some hlive hw]
        exact Nat.le_add_right _ _

theorem position_le_run (s : Scanner) (rs : List Request) : s.position ≤ (s.run rs).position := by
  induction rs generalizing s with
  | nil => exact Nat.le_refl _
  | cons r rs ih => exact Nat.le_trans (s.position_le_step r) (ih (s.step r))

/-- A scanner that is not live stands still and produces nothing until it is resumed. -/
theorem run_of_not_live (h : s.live = false) (k : Nat) :
    s.run (List.replicate k .next) = s ∧ s.found (List.replicate k .next) = [] := by
  have hstill : s.step .next = s := by rw [step, next_of_not_live h]
  induction k with
  | zero => exact ⟨rfl, rfl⟩
  | succ k ih =>
    obtain ⟨hrun, hfound⟩ := ih
    rw [List.replicate_succ]
    constructor
    · rw [run, List.foldl_cons, hstill]
      exact hrun
    · rw [found, found?_of_not_live h, hstill, hfound]
      rfl

/-- Further requests behind a failed one are nothing to the scanner. -/
theorem run_of_error {e : Failure} (h : s.next.1 = .error e) (k : Nat) :
    s.run (.next :: List.replicate k .next) = s.run [.next] ∧
      s.found (.next :: List.replicate k .next) = s.found [.next] := by
  obtain ⟨hrun, hfound⟩ := run_of_not_live (live_of_next_eq_error h) k
  constructor
  · exact hrun
  · rw [found, step, hfound]
    rfl

end Next

section Spent

variable {s : Scanner} {rs : List Request}

theorem not_spent_nil : ¬s.Spent [] := by
  rintro ⟨before, after, hrs, -⟩
  simp at hrs

theorem not_spent_concat_resume : ¬s.Spent (rs ++ [.resume]) := by
  rintro ⟨before, after, hrs, hresume, -⟩
  obtain rfl | ⟨after, r, rfl⟩ := List.eq_nil_or_concat' after
  · cases (List.append_singleton_inj.mp hrs).2
  · rw [← List.cons_append, ← List.append_assoc] at hrs
    obtain ⟨-, rfl⟩ := List.append_singleton_inj.mp hrs
    simp at hresume

theorem spent_concat_next_iff : s.Spent (rs ++ [.next]) ↔
    s.Spent rs ∨ ∀ t, (s.run rs).next.1 ≠ .ok (some t) := by
  constructor
  · rintro ⟨before, after, hrs, hresume, hnone⟩
    obtain rfl | ⟨after, r, rfl⟩ := List.eq_nil_or_concat' after
    · obtain ⟨rfl, -⟩ := List.append_singleton_inj.mp hrs
      exact .inr hnone
    · have hsplit : rs ++ [.next] = (before ++ .next :: after) ++ [r] := by rw [hrs, List.append_assoc]; rfl
      obtain ⟨rfl, -⟩ := List.append_singleton_inj.mp hsplit
      exact .inl ⟨before, after, rfl, fun hmem => hresume (List.mem_append_left _ hmem), hnone⟩
  · rintro (⟨before, after, rfl, hresume, hnone⟩ | hnone)
    · refine ⟨before, after ++ [.next], by rw [List.append_assoc]; rfl, ?_, hnone⟩
      simpa using hresume
    · exact ⟨rs, [], rfl, List.not_mem_nil, hnone⟩

/-- A scanner that starts live is so exactly as long as it is not spent. -/
theorem live_run_iff (h : s.live = true) (rs : List Request) : (s.run rs).live = true ↔ ¬s.Spent rs := by
  induction rs using List.reverseRecOn with
  | nil => exact iff_of_true h not_spent_nil
  | append_singleton rs r ih =>
    rw [run_append]
    cases r with
    | resume => exact iff_of_true rfl not_spent_concat_resume
    | next =>
      change (s.run rs).next.2.live = true ↔ _
      rw [live_next_iff, spent_concat_next_iff, not_or, ← ih, not_forall]
      simp only [not_not]
      refine (and_iff_right_of_imp fun hfound => ?_).symm
      obtain ⟨t, ht⟩ := hfound
      by_contra hlive
      rw [next_of_not_live (Bool.not_eq_true _ ▸ hlive)] at ht
      cases ht

theorem runsOut_iff (s : Scanner) (rs : List Request) : s.RunsOut rs ↔
    ∃ before after, rs = before ++ .next :: after ∧ (s.run before).live = true ∧
      (s.run before).next.1 = .ok none := by
  induction rs generalizing s with
  | nil =>
    refine iff_of_false id ?_
    rintro ⟨before, after, hrs, -⟩
    simp at hrs
  | cons r rs ih =>
    rw [RunsOut, ih]
    constructor
    · rintro (⟨rfl, hlive, hnone⟩ | ⟨before, after, rfl, hlive, hnone⟩)
      · exact ⟨[], rs, rfl, hlive, hnone⟩
      · exact ⟨r :: before, after, rfl, hlive, hnone⟩
    · rintro ⟨before, after, hrs, hlive, hnone⟩
      cases before with
      | nil =>
        cases hrs
        exact .inl ⟨rfl, hlive, hnone⟩
      | cons b before =>
        cases hrs
        exact .inr ⟨before, after, rfl, hlive, hnone⟩

theorem ranOut_iff_runsOut (h : s.live = true) : s.RanOut rs ↔ s.RunsOut rs := by
  simp only [RanOut, runsOut_iff, live_run_iff h]

end Spent

/-- The scanner has found the words `read` of a line and stands behind them, or at the end of the line if it has come
to the end. -/
structure Stands (cs : List Char) (read : List Word) (ended : Prop) (s : Scanner) : Prop where
  position_add : s.position + s.rest.length = cs.length
  words_eq : words cs = read ++ words s.rest
  rest_eq : ¬ended → s.rest = behind cs read
  rest_nil : ended → s.rest = []

section Runs

variable {cs : List Char} {read : List Word} {ended : Prop} {s : Scanner}

/-- A scanner at the end of its line has no word left. -/
theorem Stands.not_ended (h : Stands cs read ended s) {w : Word} (hw : word? s.rest = some w) :
    ¬ended := by
  intro hend
  rw [h.rest_nil hend] at hw
  cases hw

/-- A request produces the next word at most, and leaves the scanner behind it. -/
theorem Stands.step (h : Stands cs read ended s) (r : Request) :
    ∃ new : List Word, (s.found? r).toList = new.map Word.outcome ∧
      Stands cs (read ++ new) (ended ∨ s.Ends r) (s.step r) := by
  have hstill : ∀ t : Scanner, t.rest = s.rest → t.position = s.position → ¬s.Ends r →
      Stands cs (read ++ []) (ended ∨ s.Ends r) t := by
    intro t hrest hposition hends
    rw [List.append_nil, or_iff_left hends]
    refine ⟨?_, ?_, ?_, ?_⟩
    · rw [hposition, hrest]
      exact h.position_add
    · rw [hrest]
      exact h.words_eq
    · rw [hrest]
      exact h.rest_eq
    · rw [hrest]
      exact h.rest_nil
  cases r with
  | resume => exact ⟨[], rfl, hstill s.resume rfl rfl (by rintro ⟨⟨⟩, -⟩)⟩
  | next =>
    cases hlive : s.live with
    | false =>
      rw [found?_of_not_live hlive, Scanner.step, next_of_not_live hlive]
      refine ⟨[], rfl, hstill s rfl rfl ?_⟩
      rintro ⟨-, hlive', -⟩
      rw [hlive] at hlive'
      cases hlive'
    | true =>
      cases hw : word? s.rest with
      | none =>
        have hnone : words s.rest = words [] := (words_of_none hw).trans (words_of_none rfl).symm
        rw [found?_of_none hlive hw, Scanner.step, next_of_none hlive hw]
        refine ⟨[], rfl, h.position_add, ?_, fun hgoes => ?_, fun _ => rfl⟩
        · rw [List.append_nil, h.words_eq, hnone]
        · exact absurd (Or.inr (ends_next_of_none hlive hw)) hgoes
      | some w =>
        have hlt := length_rest_lt hw
        have hadd := h.position_add
        rw [found?_of_some hlive hw, Scanner.step, next_of_some hlive hw]
        refine ⟨[w], rfl, ?_, ?_, fun _ => ?_, fun hend => ?_⟩
        · show s.position + (s.rest.length - w.rest.length) + w.rest.length = cs.length
          omega
        · rw [h.words_eq, words_of_some hw, List.append_assoc]
          rfl
        · rw [behind, List.getLast?_append, List.getLast?_singleton]
          rfl
        · exact absurd hend (not_or.mpr ⟨h.not_ended hw, not_ends_next_of_some hw⟩)

theorem Stands.run (h : Stands cs read ended s) (rs : List Request) :
    ∃ new : List Word, s.found rs = new.map Word.outcome ∧
      Stands cs (read ++ new) (ended ∨ s.RunsOut rs) (s.run rs) := by
  induction rs generalizing s read ended with
  | nil =>
    refine ⟨[], rfl, ?_⟩
    rw [List.append_nil, RunsOut, or_false]
    exact h
  | cons r rs ih =>
    obtain ⟨first, hfirst, hstep⟩ := h.step r
    obtain ⟨later, hlater, hrun⟩ := ih hstep
    refine ⟨first ++ later, ?_, ?_⟩
    · rw [found, hfirst, hlater, List.map_append]
    · rw [← List.append_assoc, RunsOut, ← or_assoc]
      exact hrun

theorem stands_ofLine (line : String) : Stands line.toList [] False (ofLine line) where
  position_add := Nat.zero_add _
  words_eq := rfl
  rest_eq _ := rfl
  rest_nil := False.elim

end Runs

/-- What a scanner of a line has done at the requests `rs`. The words `read` are those of all words `ws` that it has
found. -/
structure Account (line : String) (ws : List Word) (rs : List Request) (read : List Word) : Prop where
  inOrder : read <+: ws
  found_eq : (ofLine line).found rs = read.map Word.outcome
  position_le : ((ofLine line).run rs).position ≤ line.length
  position_mono : ∀ more, ((ofLine line).run rs).position ≤ ((ofLine line).run (rs ++ more)).position
  behind_read : ¬(ofLine line).RanOut rs →
    ((ofLine line).run rs).position + (behind line.toList read).length = line.length
  at_end : (ofLine line).RanOut rs →
    ((ofLine line).run rs).position = line.length ∧ read = ws
  /-- Until it is spent, and again as soon as it is resumed, the scanner answers with the word behind those that it
  has found. -/
  answers : ¬(ofLine line).Spent rs → ((ofLine line).run rs).next.1 = answerOf (ws.drop read.length)
  resumed : ((ofLine line).run (rs ++ [.resume])).next.1 = answerOf (ws.drop read.length)
  spent : (ofLine line).Spent rs → ∀ k, (ofLine line).run (rs ++ List.replicate k .next) = (ofLine line).run rs ∧
    (ofLine line).found (rs ++ List.replicate k .next) = (ofLine line).found rs
  halted : ∀ e, ((ofLine line).run rs).next.1 = .error e → ∀ k,
    (ofLine line).run (rs ++ .next :: List.replicate k .next) = (ofLine line).run (rs ++ [.next]) ∧
    (ofLine line).found (rs ++ .next :: List.replicate k .next) = (ofLine line).found (rs ++ [.next])

end Scanner

/-- A line has one cut, and a scanner of the line produces a token or an error for each word of the cut in order,
wherever it is resumed. It never goes back, stands behind the last word that it has found, and is at the end of the
line once it has been asked for a word, while not spent, and there was none. After an error it stands still until it
is resumed, and then finds the next word. -/
theorem scan_resumes (line : String) : ∃ ws, Cut line.toList ws ∧
    ∀ rs : List Scanner.Request, ∃ read, Scanner.Account line ws rs read := by
  refine ⟨words line.toList, cut_words _, fun rs => ?_⟩
  obtain ⟨read, hfound, hstands⟩ := (Scanner.stands_ofLine line).run rs
  have hwords : words line.toList = read ++ words ((Scanner.ofLine line).run rs).rest := hstands.words_eq
  have hadd := hstands.position_add
  have hends := @Scanner.ranOut_iff_runsOut (Scanner.ofLine line) rs rfl
  have hlive := Scanner.live_run_iff (rfl : (Scanner.ofLine line).live = true) rs
  have hbehind : (words line.toList).drop read.length = words ((Scanner.ofLine line).run rs).rest := by
    rw [hwords, List.drop_left]
  rw [String.length_toList] at hadd
  refine ⟨read, ?_, hfound, ?_, fun more => ?_, fun hgoes => ?_, fun hend => ?_, fun hgoes => ?_, ?_,
    fun hspent k => ?_, fun e he k => ?_⟩
  · rw [hwords]
    exact List.prefix_append _ _
  · omega
  · rw [Scanner.run_append]
    exact Scanner.position_le_run _ more
  · have hrest := hstands.rest_eq (by rwa [false_or, ← hends])
    rw [hrest] at hadd
    exact hadd
  · have hrest := hstands.rest_nil (.inr (hends.mp hend))
    have hnone : words [] = [] := words_of_none rfl
    rw [hrest] at hadd hwords
    rw [hnone, List.append_nil] at hwords
    exact ⟨hadd, hwords.symm⟩
  · rw [hbehind]
    exact Scanner.next_of_live (hlive.mpr hgoes)
  · rw [hbehind, Scanner.run_append]
    exact Scanner.next_of_live rfl
  · have hstill := Scanner.run_of_not_live (Bool.eq_false_iff.mpr fun h => hlive.mp h hspent) k
    rw [Scanner.run_append, Scanner.found_append, hstill.1, hstill.2, List.append_nil]
    exact ⟨rfl, rfl⟩
  · obtain ⟨hrun, hnothing⟩ := Scanner.run_of_error he k
    rw [Scanner.run_append, Scanner.run_append, Scanner.found_append, Scanner.found_append, hrun,
      hnothing]
    exact ⟨rfl, rfl⟩

/-- A line that is read up to an unrecognized word, and resumed behind that. -/
theorem scan_resumes_stray : ∃ ws, Cut ":@ meta ".toList ws ∧ ∃ read, read <+: ws ∧
    read.map Word.outcome = [.ok ⟨.separator, ":"⟩, .error (Cause.unrecognizedToken "@")] ∧
    ((Scanner.ofLine ":@ meta ").run [.next, .next]).position = 2 ∧
    (Scanner.ofLine ":@ meta ").run [.next, .next, .next] = (Scanner.ofLine ":@ meta ").run [.next, .next] ∧
    Scanner.answerOf (ws.drop read.length) = .ok (some ⟨.keyword, "meta"⟩) ∧
    (Scanner.ofLine ":@ meta ").found [.next, .resume, .next, .next, .resume, .next, .next] = [
      .ok ⟨.separator, ":"⟩, .error (Cause.unrecognizedToken "@"), .ok ⟨.keyword, "meta"⟩] := by
  obtain ⟨ws, hcut, haccount⟩ := scan_resumes ":@ meta "
  obtain ⟨read, hread⟩ := haccount [.next, .next]
  obtain ⟨first, hfirst⟩ := haccount [.next]
  have hfound : (Scanner.ofLine ":@ meta ").found [.next, .next] =
      [.ok ⟨.separator, ":"⟩, .error (Cause.unrecognizedToken "@")] := by decide +kernel
  have hstray : ((Scanner.ofLine ":@ meta ").run [.next]).next.1 = .error (Cause.unrecognizedToken "@") := by
    decide +kernel
  have hnext : ((Scanner.ofLine ":@ meta ").run [.next, .next, .resume]).next.1 = .ok (some ⟨.keyword, "meta"⟩) := by
    decide +kernel
  exact ⟨ws, hcut, read, hread.inOrder, hread.found_eq.symm.trans hfound, by decide +kernel,
    (hfirst.halted _ hstray 1).1, hread.resumed.symm.trans hnext, by decide +kernel⟩

end Schematic.Source
