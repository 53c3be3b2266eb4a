import Schematic.Proofs.Load.Safety

/-! The log of a load. Main statements: an earlier log stays in front and is nothing to the load, and the
only error that a load logs is the diagnostic that it fails with. -/
namespace Schematic
open Schematic.Files

/-- The state behind an earlier log. -/
def LoadState.behind (log : Log) (s : LoadState) : LoadState := { s with log := log ++ s.log }

namespace Loader

variable {α β : Type}

/-- The end of a step, behind an earlier log. -/
def endBehind (log : Log) : EStateM.Result Failure LoadState α → EStateM.Result Failure LoadState α
  | .ok a s => .ok a (s.behind log)
  | .error e s => .error e (s.behind log)

/-- The state that a step leaves, however it ends. -/
def endState : EStateM.Result Failure LoadState α → LoadState
  | .ok _ s => s
  | .error _ s => s

/-- The step adds to the log and never looks at it, and what it adds are no errors. -/
structure Chronicles (m : Loader α) : Prop where
  frame : ∀ log s, m (s.behind log) = endBehind log (m s)
  quiet : ∀ s, Log.messages .error (endState (m s)).log = Log.messages .error s.log

theorem chronicles_pure (a : α) : Chronicles (pure a : Loader α) := ⟨fun _ _ => rfl, fun _ => rfl⟩

theorem chronicles_ofExcept (x : Except Failure α) : Chronicles (ofExcept x) := by
  cases x with
  | ok a => exact chronicles_pure a
  | error e => exact ⟨fun _ _ => rfl, fun _ => rfl⟩

theorem chronicles_log {severity : Severity} (h : severity ≠ .error) (message : String) :
    Chronicles (Loader.log severity message) where
  frame log s := by
    simp only [Loader.log, LoadState.behind, Log.add, List.append_assoc, endBehind]
  quiet s := by
    have hadd := Log.messages_add severity .error message s.log
    rwa [if_neg h, List.append_nil] at hadd

theorem Chronicles.bind {m : Loader α} {f : α → Loader β} (hm : Chronicles m)
    (hf : ∀ a, Chronicles (f a)) : Chronicles (m >>= f) where
  frame log s := by
    simp only [Bind.bind, EStateM.bind, hm.frame]
    cases m s with
    | ok a s' => exact (hf a).frame log s'
    | error e s' => rfl
  quiet s := by
    have hquiet := hm.quiet s
    simp only [Bind.bind, EStateM.bind]
    cases h : m s with
    | ok a s' =>
      rw [h] at hquiet
      rw [(hf a).quiet s']
      exact hquiet
    | error e s' =>
      rw [h] at hquiet
      exact hquiet

theorem Chronicles.mapM {f : α → Loader β} (hf : ∀ a, Chronicles (f a)) (as : List α) :
    Chronicles (as.mapM f) := by
  induction as with
  | nil => exact chronicles_pure []
  | cons a as ih =>
    rw [List.mapM_cons]
    exact (hf a).bind fun b => ih.bind fun bs => chronicles_pure (b :: bs)

theorem chronicles_template (read : TemplateReader) (type : String) :
    Chronicles (template read type) where
  frame log s := by
    unfold template
    simp only [LoadState.behind]
    cases s.templates.lookup type with
    | some ps => rfl
    | none =>
      cases read type with
      | error e => rfl
      | ok ps => simp only [endBehind, LoadState.behind, Log.add, List.append_assoc]
  quiet s := by
    unfold template
    cases s.templates.lookup type with
    | some ps => rfl
    | none =>
      cases read type with
      | error e => rfl
      | ok ps => simp [endState, Log.messages_add]

end Loader

open Loader

theorem chronicles_sized (read : TemplateReader) (bounds : Vec) (c : Component) :
    Chronicles (c.sized read bounds) := by
  cases c with
  | chip c => exact (chronicles_template read c.type).bind fun _ => chronicles_pure _
  | canvas | net | pin | wire | foreign => exact chronicles_pure _

theorem chronicles_expandFrom (read : TemplateReader) (seen : List String) (cs : List Component) :
    Chronicles (expandFrom read seen cs) := by
  induction cs generalizing seen with
  | nil => exact chronicles_pure _
  | cons c cs ih =>
    cases hc : c.chipType? with
    | none =>
      rw [expandFrom_cons_of_none hc]
      exact (ih _).bind fun _ => chronicles_pure _
    | some type =>
      cases c <;> cases hc
      exact (chronicles_template read _).bind fun _ => (ih _).bind fun _ => chronicles_pure _

theorem messages_error_warn (s : LoadState) (ws : List Warning) :
    Log.messages .error (s.warn ws).log = Log.messages .error s.log := by
  simp [LoadState.warn, Log.messages]

theorem Stage.chronicles_run_resolve (x : StageContext) (cs : List Component) :
    Chronicles (Stage.resolve.run x cs) where
  frame log s := by
    unfold run
    simp only [apply, resolveAll]
    cases (connectAll (wires cs) (nets cs) (pins cs)).failure with
    | some e => rfl
    | none =>
      simp only [LoadState.warn, LoadState.behind, Log.add, List.append_assoc, endBehind]
  quiet s := by
    unfold run
    simp only [apply, resolveAll]
    cases (connectAll (wires cs) (nets cs) (pins cs)).failure with
    | some e => rfl
    | none => simp [endState, Log.messages_add, messages_error_warn]

theorem Stage.chronicles_run (x : StageContext) (stage : Stage) (cs : List Component) :
    Chronicles (stage.run x cs) := by
  cases stage with
  | size =>
    rw [run_size]
    exact Chronicles.mapM (chronicles_sized _ _) cs
  | letter =>
    rw [run_letter]
    split
    · exact chronicles_ofExcept _
    · exact (chronicles_log (by decide) _).bind fun _ => chronicles_pure _
  | validate =>
    rw [run_validate]
    exact (chronicles_ofExcept _).bind fun _ =>
      (chronicles_log (by decide) _).bind fun _ => chronicles_pure _
  | expand =>
    rw [run_expand]
    exact (chronicles_expandFrom _ _ _).bind fun _ =>
      (chronicles_log (by decide) _).bind fun _ => chronicles_pure _
  | resolve => exact chronicles_run_resolve x cs

theorem Stage.chronicles_runAll (x : StageContext) (stages : List Stage) (cs : List Component) :
    Chronicles (Stage.runAll x stages cs) := by
  induction stages generalizing cs with
  | nil => exact chronicles_pure cs
  | cons stage rest ih => exact (chronicles_run x stage cs).bind ih

section Load

variable (files : Tree) (input : Source.Input) (options : LoadOptions) (library? : Option Library)
  (log : Log)

theorem chronicles_assemble : Chronicles (assemble files input options library?) := by
  rw [assemble_eq]
  exact (chronicles_ofExcept _).bind fun _ => (chronicles_log (by decide) _).bind fun _ =>
    (chronicles_ofExcept _).bind fun _ => (chronicles_ofExcept _).bind fun _ =>
      (Stage.chronicles_runAll _ _ _).bind fun _ => (chronicles_log (by decide) _).bind fun _ =>
        chronicles_pure _

/-- An earlier log is nothing to a load, which only adds to it. -/
theorem load_log : load files input options library? log =
    { load files input options library? [] with
      log := log ++ (load files input options library? []).log } := by
  have hframe := (chronicles_assemble files input options library?).frame log {}
  have hbehind : ({} : LoadState).behind log = { log } := by
    simp [LoadState.behind]
  rw [hbehind] at hframe
  unfold load
  rw [hframe]
  cases assemble files input options library? {} with
  | ok p s => rfl
  | error e s =>
    cases e with
    | fault f => rfl
    | diagnostic d => simp [endBehind, LoadState.behind, Log.add]

/-- What a failure says in the status line. A fault says nothing there. -/
def diagnosis {α : Type} : Except Failure α → List String
  | .error (.diagnostic d) => [d.message]
  | _ => []

@[simp] theorem diagnosis_ok {α : Type} (a : α) : diagnosis (.ok a) = [] := rfl

@[simp] theorem diagnosis_fault {α : Type} (f : Fault) :
    diagnosis (.error (.fault f) : Except Failure α) = [] := rfl

@[simp] theorem diagnosis_diagnostic {α : Type} (d : Diagnostic) :
    diagnosis (.error (.diagnostic d) : Except Failure α) = [d.message] := rfl

/-- The diagnostic that a load fails with is all that it logs as an error. -/
theorem messages_error_load :
    Log.messages .error (load files input { options with errorMode := .raise } library? log).log =
      Log.messages .error log ++
        diagnosis (load files input { options with errorMode := .raise } library? log).project := by
  have hquiet := (chronicles_assemble files input { options with errorMode := .raise } library?).quiet
    { log }
  unfold load
  cases h : assemble files input { options with errorMode := .raise } library? { log } with
  | ok p s =>
    rw [h] at hquiet
    simpa [endState] using hquiet
  | error e s =>
    rw [h] at hquiet
    cases e with
    | fault f => simpa [endState] using hquiet
    | diagnostic d => simpa [endState, Log.messages_add] using hquiet

end Load

end Schematic
