import Schematic.Library.Template
import Schematic.Log
import Schematic.Warning

/-! What loading a schematic accumulates, and walks over a list that may stop halfway. -/
namespace Schematic

/-- The templates read so far, oldest first, the log and the warnings given. -/
structure LoadState where
  templates : List (String × List Pin) := []
  log : Log := []
  warnings : List Warning := []
deriving DecidableEq, Repr

/-- A step of loading. What it has accumulated stays when it fails. -/
abbrev Loader (α : Type) := EStateM Failure LoadState α

/-- How templates are read by type. -/
abbrev TemplateReader := String → Except Failure (List Pin)

namespace Loader

def ofExcept {α : Type} : Except Failure α → Loader α
  | .ok a => pure a
  | .error e => throw e

def log (severity : Severity) (message : String) : Loader Unit := fun s =>
  .ok () { s with log := s.log.add severity message }

/-- The template of a type. It is read the first time only; a failure to read it leaves no trace. -/
def template (read : TemplateReader) (type : String) : Loader (List Pin) := fun s =>
  match s.templates.lookup type with
  | some ps => .ok ps s
  | none =>
    match read type with
    | .error e => .error e s
    | .ok ps =>
      .ok ps { s with
        templates := s.templates ++ [(type, ps)]
        log := s.log.add .debug
          ("loaded template " ++ type ++ " with " ++ toString ps.length ++ " pins") }

end Loader

/-- The outcome of a walk: the items up to a failure are new, those from it on as they were. -/
structure Sweep (σ α : Type) where
  items : List α
  state : σ
  failure : Option Failure := none
deriving DecidableEq, Repr

/-- Replaces the items one after the other until `f` fails. -/
def sweep {σ α : Type} (f : α → EStateM Failure σ α) : List α → σ → Sweep σ α
  | [], s => ⟨[], s, none⟩
  | a :: as, s =>
    match f a s with
    | .error e s' => ⟨a :: as, s', some e⟩
    | .ok b s' =>
      let r := sweep f as s'
      ⟨b :: r.items, r.state, r.failure⟩

theorem length_sweep {σ α : Type} (f : α → EStateM Failure σ α) (as : List α) (s : σ) :
    (sweep f as s).items.length = as.length := by
  induction as generalizing s with
  | nil => rfl
  | cons a as ih =>
    rw [sweep]
    split
    · rfl
    · simp [ih]

end Schematic
