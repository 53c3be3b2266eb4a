import Schematic.Load.Project

/-! Editor sessions. A successful load replaces the open project, a failed one leaves it in place. -/
namespace Schematic
open Schematic.Files

/-- The open project, the diagnostics since they were last cleared, and all that was logged and warned
about. -/
structure Session where
  options : LoadOptions := { errorMode := .store }
  project : Option Project := none
  errors : List String := []
  log : Log := []
  warnings : List Warning := []
deriving DecidableEq, Repr

namespace Session

/-- Loads a project, whatever the session does with diagnostics afterwards. -/
def loadInput (s : Session) (files : Tree) (input : Source.Input) : Except Failure Bool × Session :=
  let r := Schematic.load files input { s.options with errorMode := .raise } none s.log
  let s := { s with log := r.log, warnings := s.warnings ++ r.warnings }
  match r.project with
  | .ok project => (.ok true, { s with project })
  | .error (.fault f) => (.error (.fault f), s)
  | .error (.diagnostic d) =>
    let s := { s with errors := s.errors ++ [d.message] }
    match s.options.errorMode with
    | .raise => (.error (.diagnostic d), s)
    | .store => (.ok false, s)

def load (s : Session) (files : Tree) (text : String) : Except Failure Bool × Session :=
  s.loadInput files (.text text)

def openProject (s : Session) (files : Tree) (path : Path) : Except Failure Bool × Session :=
  s.loadInput files (.file path)

/-- The new size holds from the next load on. -/
def resize (s : Session) (columns rows : Int) : Session :=
  { s with options := { s.options with viewport := some ⟨columns, rows⟩ } }

def clearErrors (s : Session) : Session := { s with errors := [] }

end Session
end Schematic
