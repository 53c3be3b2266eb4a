import Schematic.Proofs.Load.Logging
import Schematic.Session

/-! Opening projects in a session. Main statement: a storing session that opens a project answers whether
that succeeded, and keeps a diagnostic if it did not, unless the path of the project has a null character
or a root is refused. -/
namespace Schematic
open Schematic.Files

namespace Session

/-- What a load gives by itself, under the options and with the files of its moment. -/
def outcome (options : LoadOptions) (files : Tree) (input : Source.Input) :
    Except Failure (Option Project) :=
  (Schematic.load files input { options with errorMode := .raise } none []).project

/-- What a session answers to a load of this outcome. -/
def answer (mode : ErrorMode) : Except Failure (Option Project) → Except Failure Bool
  | .ok _ => .ok true
  | .error (.fault f) => .error (.fault f)
  | .error (.diagnostic d) =>
    match mode with
    | .raise => .error (.diagnostic d)
    | .store => .ok false

/-- The project that is open behind a load of this outcome. -/
def replace (old : Option Project) : Except Failure (Option Project) → Option Project
  | .ok new => new
  | .error _ => old

/-- What a load with the outcome `o` makes of the session `s`. -/
structure Records (o : Except Failure (Option Project)) (s : Session) (reply : Except Failure Bool)
    (s' : Session) : Prop where
  reply : reply = answer s.options.errorMode o
  options : s'.options = s.options
  project : s'.project = replace s.project o
  errors : s'.errors = s.errors ++ diagnosis o
  messages : Log.messages .error s'.log = Log.messages .error s.log ++ diagnosis o

/-- A load of a session, in terms of the load by itself. -/
theorem records_loadInput (s : Session) (files : Tree) (input : Source.Input) :
    Records (outcome s.options files input) s (s.loadInput files input).1
      (s.loadInput files input).2 := by
  have houtcome : outcome s.options files input =
      (Schematic.load files input { s.options with errorMode := .raise } none s.log).project := by
    -- The outcome is that of a load with an empty log.
    rw [load_log]
    rfl
  have hmessages := messages_error_load files input s.options none s.log
  rw [houtcome]
  unfold loadInput
  generalize Schematic.load files input { s.options with errorMode := .raise } none s.log = r
    at hmessages ⊢
  obtain ⟨project, log, warnings⟩ := r
  cases project with
  | ok p? => exact ⟨rfl, rfl, rfl, (List.append_nil _).symm, hmessages⟩
  | error e =>
    cases e with
    | fault f => exact ⟨rfl, rfl, rfl, (List.append_nil _).symm, hmessages⟩
    | diagnostic d =>
      dsimp only
      split
      · next hmode => exact ⟨by rw [hmode]; rfl, rfl, rfl, rfl, hmessages⟩
      · next hmode => exact ⟨by rw [hmode]; rfl, rfl, rfl, rfl, hmessages⟩

/-- A load gives a project whenever it succeeds. -/
theorem outcome_ne_none (options : LoadOptions) (files : Tree) (input : Source.Input) :
    outcome options files input ≠ .ok none := load_raise_ne_none

/-- A load meets a fault if the path of its project has a null character, or once it has read a canvas and
a root is refused. -/
theorem exists_outcome_eq_fault_iff {options : LoadOptions} {files : Tree} {input : Source.Input} :
    (∃ f, outcome options files input = .error (.fault f)) ↔
      (∃ path, input = .file path ∧ path.suffix = Source.projectSuffix ∧ path.hasNull = true) ∨
      ∃ cs canvas, input.read files = .ok cs ∧ soleCanvas cs = .ok canvas ∧
        files.Refuses options.walkDepth options.roots := by
  unfold outcome
  simp only [load_fault_iff, chosenLibrary, Option.elim_none, ← Library.ofRoots_fault_iff,
    Source.Input.read_eq_fault_iff]
  constructor
  · rintro ⟨f, ⟨path, hinput, hsuffix, hnull, -⟩ | ⟨cs, canvas, hread, hcanvas, hroots⟩⟩
    · exact .inl ⟨path, hinput, hsuffix, hnull⟩
    · exact .inr ⟨cs, canvas, hread, hcanvas, f, hroots⟩
  · rintro (⟨path, hinput, hsuffix, hnull⟩ | ⟨cs, canvas, hread, hcanvas, f, hroots⟩)
    · exact ⟨_, .inl ⟨path, hinput, hsuffix, hnull, rfl⟩⟩
    · exact ⟨f, .inr ⟨cs, canvas, hread, hcanvas, hroots⟩⟩

namespace Records

variable {o : Except Failure (Option Project)} {s s' : Session} {reply : Except Failure Bool}

/-- The answer `false` stands for a diagnostic that was kept and logged. -/
theorem exists_diagnostic (h : Records o s reply s') (hfalse : reply = .ok false) :
    ∃ d, o = .error (.diagnostic d) ∧ s'.project = s.project ∧ s'.errors = s.errors ++ [d.message] ∧
      Log.messages .error s'.log = Log.messages .error s.log ++ [d.message] := by
  have hreply := h.reply
  rw [hfalse] at hreply
  cases o with
  | ok p? => cases hreply
  | error e =>
    cases e with
    | fault f => cases hreply
    | diagnostic d => exact ⟨d, rfl, h.project, h.errors, h.messages⟩

/-- The answer `true` stands for a load that succeeded. -/
theorem exists_project (h : Records o s reply s') (htrue : reply = .ok true) :
    ∃ p?, o = .ok p? ∧ s'.project = p? ∧ s'.errors = s.errors := by
  have hreply := h.reply
  have herrors := h.errors
  rw [htrue] at hreply
  cases o with
  | ok p? =>
    rw [diagnosis_ok, List.append_nil] at herrors
    exact ⟨p?, rfl, h.project, herrors⟩
  | error e =>
    cases e with
    | fault f => cases hreply
    | diagnostic d =>
      unfold answer at hreply
      dsimp only at hreply
      split at hreply <;> cases hreply

/-- A storing session throws at faults only. -/
theorem exists_error_iff (h : Records o s reply s') (hmode : s.options.errorMode = .store) :
    (∃ e, reply = .error e) ↔ ∃ f, o = .error (.fault f) := by
  rw [h.reply, hmode]
  cases o with
  | ok p? => simp [answer]
  | error e => cases e <;> simp [answer]

end Records

/-- A storing session that is to open a project throws exactly if the path of the project has a null
character, or the project has a canvas and a root is refused. Otherwise it answers whether the project is
open now. If not, one diagnostic was kept and logged, and the former project stays; a file that cannot be
read is reported as such. Where the session throws, nothing is kept and the project stays. -/
theorem openProject_stores {s s' : Session} {files : Tree} {text : String}
    {reply : Except Failure Bool} (hmode : s.options.errorMode = .store)
    (h : s.openProject files (.ofText text) = (reply, s')) :
    ((∃ e, reply = .error e) ↔
      ((Path.ofText text).suffix = Source.projectSuffix ∧ '\x00' ∈ text.toList) ∨
      ∃ cs canvas, Source.readProject files (.ofText text) = .ok cs ∧
        soleCanvas cs = .ok canvas ∧ files.Refuses s.options.walkDepth s.options.roots) ∧
    (reply = .ok false → s'.project = s.project ∧ ∃ d : Diagnostic,
      s'.errors = s.errors ++ [d.message] ∧
      Log.messages .error s'.log = Log.messages .error s.log ++ [d.message]) ∧
    (∀ e, (Path.ofText text).suffix = Source.projectSuffix → '\x00' ∉ text.toList →
      files.readText (.ofText text) = .error e → reply = .ok false ∧
        s'.errors = s.errors ++ [(Cause.unreadableProject (Path.ofText text).toText).message]) ∧
    (reply = .ok true → s'.errors = s.errors ∧ ∃ p, s'.project = some p) ∧
    (∀ e, reply = .error e → s'.errors = s.errors ∧ s'.project = s.project) := by
  have hrecords := s.records_loadInput files (.file (.ofText text))
  rw [← openProject, h] at hrecords
  refine ⟨?_, ?_, ?_, ?_, ?_⟩
  · rw [hrecords.exists_error_iff hmode, exists_outcome_eq_fault_iff, ← Path.hasNull_ofText]
    refine or_congr_left ?_
    constructor
    · rintro ⟨path, ⟨⟩, hsuffix, hnull⟩
      exact ⟨hsuffix, hnull⟩
    · rintro ⟨hsuffix, hnull⟩
      exact ⟨_, rfl, hsuffix, hnull⟩
  · intro hfalse
    obtain ⟨d, -, hproject, herrors, hlog⟩ := hrecords.exists_diagnostic hfalse
    exact ⟨hproject, d, herrors, hlog⟩
  · intro e hsuffix hnull hread
    rw [← Path.hasNull_ofText, Bool.not_eq_true] at hnull
    have hinput : (Source.Input.file (.ofText text)).read files =
        .error (Cause.unreadableProject (Path.ofText text).toText) :=
      Source.readProject_of_unreadable hsuffix hread hnull
    have houtcome : outcome s.options files (.file (.ofText text)) =
        .error (Cause.unreadableProject (Path.ofText text).toText) := load_of_read_eq_error hinput
    rw [houtcome] at hrecords
    have hreply := hrecords.reply
    rw [hmode] at hreply
    exact ⟨hreply, hrecords.errors⟩
  · intro htrue
    obtain ⟨p?, houtcome, hproject, herrors⟩ := hrecords.exists_project htrue
    cases p? with
    | none => exact absurd houtcome (outcome_ne_none _ _ _)
    | some p => exact ⟨herrors, p, hproject⟩
  · intro e herror
    obtain ⟨f, hfault⟩ := (hrecords.exists_error_iff hmode).mp ⟨e, herror⟩
    rw [hfault] at hrecords
    have herrors := hrecords.errors
    rw [diagnosis_fault, List.append_nil] at herrors
    exact ⟨herrors, hrecords.project⟩

theorem openProject_stores_null : ({} : Session).options.errorMode = .store ∧
    ∃ e, (({} : Session).openProject .fresh (.ofText "a\x00.cip")).1 = .error e := by
  have h := (Prod.eta (({} : Session).openProject .fresh (.ofText "a\x00.cip"))).symm
  obtain ⟨hthrows, -⟩ := openProject_stores rfl h
  exact ⟨rfl, hthrows.mpr (.inl ⟨by decide, by decide⟩)⟩

end Session
end Schematic
