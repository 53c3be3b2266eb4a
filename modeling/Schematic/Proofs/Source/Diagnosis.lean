import Mathlib.Tactic.SplitIfs
import Schematic.Proofs.Failure
import Schematic.Proofs.Files.Reading
import Schematic.Proofs.Source.Declared

/-! Diagnoses of source texts. A line is read into a component that is never foreign, so that each check
of it applies. Main statement: every text is read, or a diagnostic says why not; only the path of a project
file can be to blame for a fault. -/
namespace Schematic
open Schematic.Files

theorem Component.kind_eq_ok {c : Component} {k : Kind} (h : c.kind? = some k) : c.kind = .ok k := by
  cases c <;> cases h <;> rfl

theorem Component.Drafted.isSome_kind? {c : Component} (h : c.Drafted) : c.kind?.isSome := by
  cases c with
  | foreign text => cases h
  | canvas | chip | net | pin | wire => rfl

theorem Component.reported_verify {c : Component} (h : c.kind?.isSome) : Reported .syntactic c.verify := by
  cases c with
  | foreign text => cases h
  | canvas c => exact reported_ok ()
  | chip c | net n | pin p | wire w =>
    unfold verify
    dsimp only
    split_ifs
    · exact reported_cause rfl
    · exact reported_ok ()

theorem Attribute.reported_apply (a : Attribute) {c c' : Component} (h : c.kind?.isSome) {e : Failure}
    (he : a.apply c = .error e c') : ∃ cause : Cause, cause.category? = some .syntactic ∧ e = cause := by
  obtain ⟨k, hk⟩ := Option.isSome_iff_exists.mp h
  unfold apply at he
  rw [Component.kind_eq_ok hk] at he
  dsimp only at he
  split at he
  · cases he
  · cases he
    exact ⟨_, rfl, rfl⟩

theorem Attribute.kind?_of_apply {a : Attribute} {c c' : Component} (h : a.apply c = .ok () c') :
    c'.kind? = c.kind? := kind?_of_set? (apply_eq_ok_iff_set?.mp h)

namespace Source

theorem reported_number (text : String) : Reported .syntactic (number text) := by
  unfold number
  split
  · exact reported_cause rfl
  · split_ifs
    · exact reported_cause rfl
    · exact reported_ok _

theorem reported_tokenize (cs : List Char) : Reported .lexical (tokenize cs) := by
  induction hn : cs.length using Nat.strongRecOn generalizing cs with
  | ind n ih =>
    rw [tokenize]
    split
    · exact reported_ok _
    · next w hw =>
      have hrest : Reported .lexical (tokenize w.rest) := ih _ (hn ▸ length_rest_lt hw) _ rfl
      split_ifs with he
      · exact reported_cause rfl
      · split
        · next e hts =>
          rintro _ ⟨⟩
          exact hrest e hts
        · exact reported_ok _

namespace Reader

theorem reports_expect (kind : TokenKind) (what : String) : Reports .syntactic (expect kind what) := by
  intro s e s' h
  unfold expect at h
  split at h
  · cases h
    exact ⟨_, rfl, rfl⟩
  · split_ifs at h
    cases h
    exact ⟨_, rfl, rfl⟩

theorem reports_expectNumber : Reports .syntactic expectNumber := by
  intro s e s' h
  unfold expectNumber at h
  split at h
  · cases h
    exact ⟨_, rfl, rfl⟩
  · next t ts _ =>
    split_ifs at h with hk
    · split at h
      · cases h
      · next hn =>
        cases h
        exact reported_number t.text e hn
    · cases h
      exact ⟨_, rfl, rfl⟩

theorem reports_expectVec : Reports .syntactic expectVec :=
  reports_expectNumber.bind fun _ => reports_expectNumber.bind fun _ => reports_pure _

theorem reports_expectLabel : Reports .syntactic expectLabel :=
  (reports_expect _ _).bind fun _ => reports_pure _

theorem reports_labels : Reports .syntactic labels := by
  rintro ⟨current, rest⟩ e s' h
  unfold labels at h
  dsimp only at h
  induction rest generalizing current with
  | nil =>
    cases h
    exact ⟨_, rfl, rfl⟩
  | cons t ts ih =>
    rw [labelsBefore] at h
    split_ifs at h with he hi
    · split at h
      · cases h
      · next hrest =>
        cases h
        exact ih _ hrest
    · cases h
      exact ⟨_, rfl, rfl⟩

theorem reports_value : Reports .syntactic value := by
  refine (reports_expect _ _).bind fun name => ?_
  split_ifs
  · exact reports_pure _
  · exact reports_pure _
  · exact reports_labels.bind fun _ => reports_pure _
  · exact reports_labels.bind fun _ => reports_pure _
  · exact reports_throw rfl

theorem reports_color : Reports .syntactic color := by
  refine (reports_expect _ _).bind fun name => ?_
  split
  · exact reports_pure _
  · exact reports_throw rfl

theorem reports_arguments (a : AttributeName) : Reports .syntactic (arguments a) := by
  cases a with
  | bounds | position | start | stop => exact reports_expectVec.bind fun _ => reports_pure _
  | row | number => exact reports_expectNumber.bind fun _ => reports_pure _
  | type => exact (reports_expect _ _).bind fun _ => reports_pure _
  | color => exact reports_color.bind fun _ => reports_pure _
  | label => exact reports_expectLabel.bind fun _ => reports_pure _
  | value => exact reports_value.bind fun _ => reports_pure _

theorem reports_attributeGroup : Reports .syntactic attributeGroup := by
  refine (reports_expect _ _).bind fun name => ?_
  split
  · exact reports_arguments _
  · exact reports_throw rfl

/-- Attributes keep the kind of a component, and with it each of them can be applied or refused. -/
theorem reports_attributes {c : Component} (hc : c.kind?.isSome) : Reports .syntactic (attributes c) := by
  intro s e s' h
  induction hn : s.rest.length using Nat.strongRecOn generalizing c s with
  | ind n ih =>
    rw [attributes] at h
    split at h
    · cases h
    · split at h
      · next hgroup =>
        cases h
        exact reports_attributeGroup s e _ hgroup
      · next a s₁ hgroup =>
        have hlt := takes_attributeGroup s a s₁ hgroup
        split at h
        · next happly =>
          cases h
          exact a.reported_apply hc happly
        · next c' happly =>
          have hc' : c'.kind?.isSome := by rwa [Attribute.kind?_of_apply happly]
          exact ih _ (hn ▸ hlt) hc' s₁ h rfl

theorem kind?_of_attributes {c c' : Component} {s s' : Cursor} (h : attributes c s = .ok c' s') :
    c'.kind? = c.kind? := by
  induction hn : s.rest.length using Nat.strongRecOn generalizing c s with
  | ind n ih =>
    rw [attributes] at h
    split at h
    · cases h
      rfl
    · split at h
      · cases h
      · next a s₁ hgroup =>
        have hlt := takes_attributeGroup s a s₁ hgroup
        split at h
        · cases h
        · next c₁ happly =>
          rw [ih _ (hn ▸ hlt) h rfl, Attribute.kind?_of_apply happly]

theorem reports_declaration : Reports .syntactic component.declaration := by
  refine (reports_expect _ _).bind fun _ => (reports_expect _ _).bind fun name => ?_
  split
  · exact reports_throw rfl
  · next k _ =>
    have hk : (Component.ofKind k).kind?.isSome := by simp
    refine (reports_attributes hk).bind_of_eq_ok fun s c s' hc => ?_
    split
    · next e hverify =>
      have hkind : c.kind?.isSome := by rwa [kind?_of_attributes hc]
      rintro s _ s' ⟨⟩
      exact Component.reported_verify hkind e hverify
    · exact reports_pure _

theorem reports_component : Reports .syntactic component := by
  intro s e s' h
  unfold component at h
  split at h
  · cases h
  · exact reports_declaration s e s' h

theorem diagnoses_component : Diagnoses component := reports_component.diagnoses

end Reader

/-- The words of a line come first: unless all of them are recognized, nothing else is reported. -/
theorem readLine_of_tokens_eq_error {line : String} {e : Failure} (h : tokens line = .error e) :
    readLine line = .error e := by
  unfold readLine
  rw [h]

theorem reported_readLine_of_tokens {line : String} {ts : List Token} (h : tokens line = .ok ts) :
    Reported .syntactic (readLine line) := by
  unfold readLine
  rw [h]
  dsimp only
  split
  · next hc =>
    rintro _ ⟨⟩
    exact Reader.reports_component _ _ _ hc
  · exact reported_ok _

/-- A line that is not read has a cause, to which its number is yet to be added. -/
theorem exists_cause_of_readLine {line : String} {e : Failure} (h : readLine line = .error e) :
    ∃ c : Cause, e = c := by
  cases hts : tokens line with
  | error e' =>
    rw [readLine_of_tokens_eq_error hts] at h
    cases h
    obtain ⟨c, -, hc⟩ := reported_tokenize line.toList e hts
    exact ⟨c, hc⟩
  | ok ts =>
    obtain ⟨c, -, hc⟩ := reported_readLine_of_tokens hts e h
    exact ⟨c, hc⟩

theorem diagnosed_readLine (line : String) : Diagnosed (readLine line) := by
  intro f h
  obtain ⟨c, hc⟩ := exists_cause_of_readLine h
  cases hc

theorem diagnosed_readLines (path : Option String) (n : Int) (lines : List String) :
    Diagnosed (readLines path n lines) := by
  induction lines generalizing n with
  | nil => exact diagnosed_ok _
  | cons line lines ih =>
    rw [readLines]
    split
    · next e hline =>
      intro f h
      cases e with
      | diagnostic d => cases h
      | fault f' => exact diagnosed_readLine line f' hline
    · exact ih (n + 1)
    · split
      · next e hrest =>
        have hlines := ih (n + 1)
        rwa [hrest] at hlines
      · exact diagnosed_ok _

/-- A text is never to blame for a fault. -/
theorem diagnosed_readText (path : Option String) (text : String) : Diagnosed (readText path text) :=
  diagnosed_readLines path 1 _

/-- However reading fails, but for a null character, the project could not be opened. -/
theorem readProject_of_unreadable {files : Tree} {path : Path} {e : ReadError}
    (hs : path.suffix = projectSuffix) (hread : files.readText path = .error e)
    (hnull : path.hasNull = false) :
    readProject files path = .error (Cause.unreadableProject path.toText) := by
  have he : e ≠ .access .nullInPath := by
    rintro rfl
    rw [Tree.readText_eq_nullInPath_iff.mp hread] at hnull
    cases hnull
  unfold readProject
  rw [if_neg (by simpa using hs), hread]
  cases e with
  | encoding f => rfl
  | access a =>
    cases a with
    | nullInPath => exact absurd rfl he
    | missing | occupied | notDirectory | isDirectory | tooLong => rfl

/-- The suffix of a path is looked at before its null characters. -/
theorem readProject_eq_fault_iff {files : Tree} {path : Path} {f : Fault} :
    readProject files path = .error (.fault f) ↔
      path.suffix = projectSuffix ∧ path.hasNull = true ∧ f = .denied ⟨.nullInPath, path⟩ := by
  by_cases hs : path.suffix = projectSuffix
  · cases hnull : path.hasNull with
    | true =>
      have hread := (@Tree.readText_eq_nullInPath_iff files path).mpr hnull
      simp [readProject, hs, hread, eq_comm]
    | false =>
      cases hread : files.readText path with
      | ok text => simp [readProject, hs, hread, diagnosed_readText (some path.toText) text f]
      | error e => simp [readProject_of_unreadable hs hread hnull]
  · simp [readProject, hs]

theorem Input.read_eq_fault_iff {files : Tree} {input : Input} {f : Fault} :
    input.read files = .error (.fault f) ↔ ∃ path, input = .file path ∧
      path.suffix = projectSuffix ∧ path.hasNull = true ∧ f = .denied ⟨.nullInPath, path⟩ := by
  cases input with
  | text s => simp [read, diagnosed_readText none s f]
  | file path =>
    simp only [read, readProject_eq_fault_iff, file.injEq]
    constructor
    · intro h
      exact ⟨path, rfl, h⟩
    · rintro ⟨_, rfl, h⟩
      exact h

end Source
end Schematic
