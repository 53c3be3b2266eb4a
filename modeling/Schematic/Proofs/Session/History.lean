import Schematic.Proofs.Session.Opening

/-! Histories of sessions. Main statement: whatever happens while a session is open, the open project is
that of the last load that succeeded, and the errors shown are the diagnostics of the loads since they were
last cleared. -/
namespace Schematic
open Schematic.Files

namespace Session

/-- What happens while a session is open. The files may change at any time. -/
inductive Event
  | load (text : String)
  | openProject (path : String)
  | resize (columns rows : Int)
  | clearErrors
  | change (c : Tree.Change)

namespace Event

/-- What the event loads a project from, if it is a load. -/
def input? : Event → Option Source.Input
  | load text => some (.text text)
  | openProject path => some (.file (.ofText path))
  | _ => none

end Event

/-- A session and the files around it. -/
structure Workspace where
  session : Session
  files : Tree

/-- What the outcome of a load depends on. -/
structure Moment where
  options : LoadOptions
  files : Tree

namespace Workspace

def moment (w : Workspace) : Moment := ⟨w.session.options, w.files⟩

def step (w : Workspace) : Event → Workspace
  | .load text => { w with session := (w.session.load w.files text).2 }
  | .openProject path => { w with session := (w.session.openProject w.files (.ofText path)).2 }
  | .resize columns rows => { w with session := w.session.resize columns rows }
  | .clearErrors => { w with session := w.session.clearErrors }
  | .change c => { w with files := w.files.changed c }

def run (w : Workspace) (events : List Event) : Workspace := events.foldl step w

end Workspace

namespace Moment

def after (m : Moment) : Event → Moment
  | .resize columns rows => { m with options := { m.options with viewport := some ⟨columns, rows⟩ } }
  | .change c => { m with files := m.files.changed c }
  | _ => m

def afterAll (m : Moment) (events : List Event) : Moment := events.foldl after m

/-- The outcome of the event, if it is a load. -/
def outcome? (m : Moment) (e : Event) : Option (Except Failure (Option Project)) :=
  e.input?.map (outcome m.options m.files)

/-- The outcomes of the loads among the events, each under the options and with the files of its moment. -/
def outcomes (m : Moment) : List Event → List (Except Failure (Option Project))
  | [] => []
  | e :: es => (m.outcome? e).toList ++ outcomes (m.after e) es

end Moment

/-- The projects of the loads that succeeded. -/
def loaded (os : List (Except Failure (Option Project))) : List Project :=
  os.filterMap fun o => o.toOption.join

section Step

variable {w : Workspace} {e : Event}

/-- The outcome is recorded. -/
theorem records_step {input : Source.Input} (h : e.input? = some input) :
    ∃ reply, Records (outcome w.session.options w.files input) w.session reply (w.step e).session := by
  have hstep : (w.step e).session = (w.session.loadInput w.files input).2 := by
    cases e <;> cases h <;> simp only [Workspace.step, Session.load, Session.openProject]
  rw [hstep]
  exact ⟨_, w.session.records_loadInput w.files input⟩

theorem outcome?_of_some {input : Source.Input} (h : e.input? = some input) :
    w.moment.outcome? e = some (outcome w.session.options w.files input) := by
  rw [Moment.outcome?, h]
  rfl

theorem outcome?_of_none (h : e.input? = none) (m : Moment) : m.outcome? e = none := by
  rw [Moment.outcome?, h]
  rfl

theorem moment_step (w : Workspace) (e : Event) : (w.step e).moment = w.moment.after e := by
  cases h : e.input? with
  | some input =>
    obtain ⟨reply, hrecords⟩ := records_step (w := w) h
    have hfiles : (w.step e).files = w.files := by
      cases e <;> cases h <;> simp only [Workspace.step]
    have hafter : w.moment.after e = w.moment := by
      cases e <;> cases h <;> simp only [Moment.after]
    rw [hafter, Workspace.moment, Workspace.moment, hrecords.options, hfiles]
  | none => cases e <;> cases h <;> rfl

theorem replace_eq_or (old : Option Project) {o : Except Failure (Option Project)} (h : o ≠ .ok none) :
    replace old o = (loaded [o]).getLast?.or old := by
  cases o with
  | ok p? =>
    cases p? with
    | none => exact absurd rfl h
    | some p => rfl
  | error e => rfl

/-- Nothing but a load opens a project. -/
theorem project_step (w : Workspace) (e : Event) : (w.step e).session.project =
    (loaded (w.moment.outcome? e).toList).getLast?.or w.session.project := by
  cases h : e.input? with
  | some input =>
    obtain ⟨reply, hrecords⟩ := records_step (w := w) h
    rw [hrecords.project, outcome?_of_some h, Option.toList_some]
    exact replace_eq_or _ (outcome_ne_none _ _ _)
  | none =>
    rw [outcome?_of_none h]
    cases e <;> cases h <;> rfl

/-- Nothing but a load logs an error. -/
theorem messages_step (w : Workspace) (e : Event) : Log.messages .error (w.step e).session.log =
    Log.messages .error w.session.log ++ (w.moment.outcome? e).toList.flatMap diagnosis := by
  cases h : e.input? with
  | some input =>
    obtain ⟨reply, hrecords⟩ := records_step (w := w) h
    rw [hrecords.messages, outcome?_of_some h, Option.toList_some, List.flatMap_singleton]
  | none =>
    rw [outcome?_of_none h, Option.toList_none, List.flatMap_nil, List.append_nil]
    cases e <;> cases h <;> rfl

theorem errors_step (w : Workspace) (he : e ≠ .clearErrors) : (w.step e).session.errors =
    w.session.errors ++ (w.moment.outcome? e).toList.flatMap diagnosis := by
  cases h : e.input? with
  | some input =>
    obtain ⟨reply, hrecords⟩ := records_step (w := w) h
    rw [hrecords.errors, outcome?_of_some h, Option.toList_some, List.flatMap_singleton]
  | none =>
    rw [outcome?_of_none h, Option.toList_none, List.flatMap_nil, List.append_nil]
    cases e with
    | clearErrors => exact absurd rfl he
    | resize columns rows => rfl
    | change c => rfl
    | load text => cases h
    | openProject path => cases h

end Step

section Run

variable {w : Workspace} {events : List Event}

theorem run_append (w : Workspace) (es fs : List Event) : w.run (es ++ fs) = (w.run es).run fs :=
  List.foldl_append

theorem moment_run (w : Workspace) (events : List Event) :
    (w.run events).moment = w.moment.afterAll events := by
  induction events generalizing w with
  | nil => rfl
  | cons e es ih =>
    rw [Moment.afterAll, List.foldl_cons, ← moment_step]
    exact ih (w.step e)

theorem loaded_append (os os' : List (Except Failure (Option Project))) :
    loaded (os ++ os') = loaded os ++ loaded os' := List.filterMap_append

theorem project_run (w : Workspace) (events : List Event) : (w.run events).session.project =
    (loaded (w.moment.outcomes events)).getLast?.or w.session.project := by
  induction events generalizing w with
  | nil => rfl
  | cons e es ih =>
    have hstep := ih (w.step e)
    rw [project_step, moment_step] at hstep
    rw [Moment.outcomes, loaded_append, List.getLast?_append, Option.or_assoc]
    exact hstep

theorem messages_run (w : Workspace) (events : List Event) :
    Log.messages .error (w.run events).session.log =
      Log.messages .error w.session.log ++ (w.moment.outcomes events).flatMap diagnosis := by
  induction events generalizing w with
  | nil => exact (List.append_nil _).symm
  | cons e es ih =>
    have hstep := ih (w.step e)
    rw [messages_step, moment_step, List.append_assoc, ← List.flatMap_append] at hstep
    exact hstep

theorem errors_run (w : Workspace) (h : .clearErrors ∉ events) : (w.run events).session.errors =
    w.session.errors ++ (w.moment.outcomes events).flatMap diagnosis := by
  induction events generalizing w with
  | nil => exact (List.append_nil _).symm
  | cons e es ih =>
    obtain ⟨he, hes⟩ := not_or.mp (mt List.mem_cons.mpr h)
    have hstep := ih (w := w.step e) hes
    rw [errors_step w (Ne.symm he), moment_step, List.append_assoc, ← List.flatMap_append] at hstep
    exact hstep

theorem suffix_step (e : Event) (h : w.session.errors <:+ Log.messages .error w.session.log) :
    (w.step e).session.errors <:+ Log.messages .error (w.step e).session.log := by
  by_cases he : e = .clearErrors
  · subst he
    exact List.nil_suffix
  · obtain ⟨cleared, hlog⟩ := h
    rw [errors_step w he, messages_step, ← hlog, List.append_assoc]
    exact List.suffix_append _ _

theorem suffix_run (h : w.session.errors <:+ Log.messages .error w.session.log) (events : List Event) :
    (w.run events).session.errors <:+ Log.messages .error (w.run events).session.log := by
  induction events generalizing w with
  | nil => exact h
  | cons e es ih => exact ih (suffix_step e h)

end Run

section Options

theorem options_after (m : Moment) (e : Event) :
    (m.after e).options = { m.options with viewport := (m.after e).options.viewport } := by
  cases e <;> rfl

/-- The viewport is all that changes of the options. -/
theorem options_afterAll (m : Moment) (events : List Event) :
    (m.afterAll events).options =
      { m.options with viewport := (m.afterAll events).options.viewport } := by
  induction events generalizing m with
  | nil => rfl
  | cons e es ih =>
    have hrest := ih (m.after e)
    rw [options_after m e] at hrest
    exact hrest

theorem viewport_afterAll {events : List Event} (h : ∀ columns rows, .resize columns rows ∉ events)
    (m : Moment) : (m.afterAll events).options.viewport = m.options.viewport := by
  induction events generalizing m with
  | nil => rfl
  | cons e es ih =>
    have hes : ∀ columns rows, .resize columns rows ∉ es :=
      fun columns rows hmem => h columns rows (List.mem_cons_of_mem e hmem)
    have he : (m.after e).options.viewport = m.options.viewport := by
      cases e with
      | resize columns rows => exact absurd List.mem_cons_self (h columns rows)
      | load text | openProject path | clearErrors | change c => rfl
    exact (ih hes (m.after e)).trans he

end Options

/-- What a session is by the events since the workspace was `start`. -/
structure Follows (start : Workspace) (events : List Event) (w : Workspace) : Prop where
  /-- The open project is that of the last load that succeeded, as it was loaded then. -/
  project : w.session.project = (loaded (start.moment.outcomes events)).getLast?
  /-- The errors are the diagnostics of the loads since they were last cleared. -/
  errors_cleared : ∀ before after, events = before ++ .clearErrors :: after →
    .clearErrors ∉ after → w.session.errors =
      ((start.moment.afterAll before).outcomes after).flatMap diagnosis
  errors_never_cleared : .clearErrors ∉ events →
    w.session.errors = (start.moment.outcomes events).flatMap diagnosis
  /-- The errors that were logged are the diagnostics of all loads. -/
  messages : Log.messages .error w.session.log =
    Log.messages .error start.session.log ++ (start.moment.outcomes events).flatMap diagnosis
  errors_suffix : w.session.errors <:+ Log.messages .error w.session.log
  viewport_resized : ∀ before after columns rows, events = before ++ .resize columns rows :: after →
    (∀ c r, .resize c r ∉ after) → w.session.options.viewport = some ⟨columns, rows⟩
  viewport_never_resized : (∀ c r, .resize c r ∉ events) →
    w.session.options.viewport = start.session.options.viewport
  options : w.session.options =
    { start.session.options with viewport := w.session.options.viewport }
  files : w.files = (start.moment.afterAll events).files
  /-- A load that fails next leaves the project in place. -/
  untouched : ∀ e failure, w.moment.outcome? e = some (.error failure) →
    (w.step e).session.project = w.session.project
  /-- The next load fails with more than a diagnostic only if a root is refused. -/
  unrecorded : ∀ e input, e.input? = some input →
    (∀ path, e = .openProject path → '\x00' ∉ path.toList) →
    ((∃ f, w.moment.outcome? e = some (.error (.fault f))) ↔
      ∃ cs canvas, input.read w.files = .ok cs ∧ soleCanvas cs = .ok canvas ∧
        w.files.Refuses w.session.options.walkDepth w.session.options.roots)

/-- A session in which no project is open yet follows what happens from then on. -/
theorem run_follows {start : Workspace} (hproject : start.session.project = none)
    (herrors : start.session.errors = []) (events : List Event) :
    Follows start events (start.run events) := by
  have hmoment := moment_run start events
  have hoptions : (start.run events).session.options = (start.moment.afterAll events).options :=
    congrArg Moment.options hmoment
  constructor
  case project =>
    rw [project_run, hproject, Option.or_none]
  case errors_cleared =>
    rintro before after rfl hafter
    have hsplit : start.run (before ++ .clearErrors :: after) =
        ((start.run before).step .clearErrors).run after := run_append start before _
    -- The errors start empty at the last clearing, whatever was shown before.
    rw [hsplit, errors_run _ hafter, moment_step, moment_run]
    exact List.nil_append _
  case errors_never_cleared =>
    intro hnever
    rw [errors_run start hnever, herrors, List.nil_append]
  case messages => exact messages_run start events
  case errors_suffix =>
    refine suffix_run ?_ events
    rw [herrors]
    exact List.nil_suffix
  case viewport_resized =>
    rintro before after columns rows rfl hafter
    have hsplit : start.moment.afterAll (before ++ .resize columns rows :: after) =
        ((start.moment.afterAll before).after (.resize columns rows)).afterAll after :=
      List.foldl_append
    rw [hoptions, hsplit, viewport_afterAll hafter]
    rfl
  case viewport_never_resized =>
    intro hnever
    rw [hoptions, viewport_afterAll hnever]
    rfl
  case options =>
    rw [hoptions]
    exact options_afterAll start.moment events
  case files => exact congrArg Moment.files hmoment
  case untouched =>
    intro e failure hfailed
    rw [project_step, hfailed]
    rfl
  case unrecorded =>
    intro e input hinput hnull
    have houtcome := outcome?_of_some (w := start.run events) hinput
    have hpath : ¬∃ path, input = .file path ∧ path.suffix = Source.projectSuffix ∧
        path.hasNull = true := by
      rintro ⟨path, rfl, -, hpath⟩
      cases e <;> cases hinput
      exact hnull _ rfl (Path.hasNull_ofText.mp hpath)
    have hfault := @exists_outcome_eq_fault_iff (start.run events).session.options
      (start.run events).files input
    rw [or_iff_right hpath] at hfault
    rw [houtcome, ← hfault]
    simp only [Option.some.injEq]

/-- One load that succeeds and three that fail: a text without a token, a file that is missing, and a canvas
that the terminal has become too small for. -/
def errand : List Event := [
  .load ":meta bounds 1 1\n",
  .load "?",
  .clearErrors,
  .openProject "a.cip",
  .change (Tree.write (.ofText "a.cip") ":meta bounds 2 2\n".toUTF8.toList),
  .resize 3 3,
  .openProject "a.cip"]

/-- The file system does not look for what no file can be named. -/
theorem locate_fresh_of_long {name : String} (hnull : (Files.Path.mk "" [name]).hasNull = false)
    (hup : name ≠ "..") (hlong : Path.maxNameBytes < name.utf8ByteSize) :
    Tree.fresh.locate ⟨"", [name]⟩ = .error .tooLong := by
  unfold Tree.locate
  rw [if_neg (by simp [hnull])]
  split_ifs
  · rfl
  · have hwalk : Tree.walk [] .fresh (Tree.steps ⟨"", [name]⟩) =
        Tree.walk [.dir [("", .empty)], .fresh] .empty [name] := rfl
    rw [hwalk, Tree.empty, Tree.walk, if_neg hup, if_pos hlong]

/-- A name of 64 characters of four bytes each, one byte more than the name of a file may have. -/
def longName : String := String.ofList (List.replicate 64 '𝄞')

theorem run_follows_errand :
    ((Workspace.mk {} .fresh).run errand).session.project =
      some ⟨⟨⟨1, 1⟩, some ⟨1, none⟩⟩, [.canvas ⟨⟨1, 1⟩, some ⟨1, none⟩⟩]⟩ ∧
    ((Workspace.mk {} .fresh).run errand).session.errors =
      ["could not open project: a.cip", "terminal too small: need 4x4, have 3x3"] ∧
    ((Workspace.mk {} .fresh).run errand).session.options.viewport = some ⟨3, 3⟩ ∧
    ∃ f, (Workspace.mk { options := { roots := [⟨"", [longName]⟩] } } .fresh).moment.outcome?
      (.load ":meta bounds 1 1\n") = some (.error (.fault f)) := by
  have h := @run_follows (Workspace.mk {} .fresh) rfl rfl errand
  have hlong := @run_follows (Workspace.mk { options := { roots := [⟨"", [longName]⟩] } } .fresh) rfl rfl []
  refine ⟨?_, ?_, ?_, ?_⟩
  · rw [h.project]
    decide +kernel
  · rw [h.errors_cleared (errand.take 2) (errand.drop 3) rfl (by simp [errand])]
    decide +kernel
  · exact h.viewport_resized (errand.take 5) (errand.drop 6) 3 3 rfl (by simp [errand])
  · have hnull : (Files.Path.mk "" [longName]).hasNull = false := by
      have hchars : longName.toList = List.replicate 64 '𝄞' := String.toList_ofList
      simp [Path.hasNull, hchars, -List.reduceReplicate]
    have hsize : Path.maxNameBytes < longName.utf8ByteSize := by decide +kernel
    have hlocate := locate_fresh_of_long hnull (by decide +kernel) hsize
    have hrefuses : Tree.fresh.Refuses Library.usualDepth [⟨"", [longName]⟩] :=
      ⟨[], _, [], rfl, by simp, fun h => h.1.1 hlocate⟩
    exact (hlong.unrecorded _ _ rfl (by simp)).mpr
      ⟨[.canvas ⟨⟨1, 1⟩, some ⟨1, none⟩⟩], ⟨⟨1, 1⟩, some ⟨1, none⟩⟩, by decide +kernel, by decide,
        hrefuses⟩

end Session
end Schematic
