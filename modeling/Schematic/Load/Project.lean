import Schematic.Load.Stage
import Schematic.Project

/-! Loading a project from its source. -/
namespace Schematic
open Schematic.Files

/-- What becomes of the diagnostic of a failed load. -/
inductive ErrorMode
  | raise
  | store
deriving DecidableEq, Repr

def ErrorMode.all : List ErrorMode := [raise, store]

/-- Without a viewport the terminal is not checked. The depth is that of the walk of each root, and a matter of what
the caller has left of the stack. -/
structure LoadOptions where
  viewport : Option Vec := none
  roots : List Path := []
  errorMode : ErrorMode := .raise
  walkDepth : Nat := Library.usualDepth
deriving DecidableEq, Repr

/-- Reads a project and takes it through all stages. A library that is given stands in for the one
that the options describe. -/
def assemble (files : Tree) (input : Source.Input) (options : LoadOptions)
    (library : Option Library) : Loader Project := do
  let cs ← Loader.ofExcept (input.read files)
  Loader.log .debug ("parsed " ++ toString cs.length ++ " objects")
  let canvas ← Loader.ofExcept (soleCanvas cs)
  let library ← match library with
    | some l => pure l
    | none => Loader.ofExcept (Library.ofRoots options.walkDepth files options.roots)
  let flat ← Stage.runAll ⟨library.template files, canvas, options.viewport⟩ Stage.inOrder cs
  Loader.log .info ("loaded " ++ toString flat.length ++ " objects on a " ++
    canvas.bounds.describeExtent ++ " canvas")
  pure ⟨canvas, flat⟩

/-- The answer of a load, with the log that it leaves and the warnings that it gave. -/
structure LoadResult where
  project : Except Failure (Option Project)
  log : Log
  warnings : List Warning

/-- Loads a project. A diagnostic is logged, and then raised or answered without a project. -/
def load (files : Tree) (input : Source.Input) (options : LoadOptions) (library : Option Library)
    (log : Log) : LoadResult :=
  match assemble files input options library { log } with
  | .ok p s => ⟨.ok (some p), s.log, s.warnings⟩
  | .error (.fault f) s => ⟨.error (.fault f), s.log, s.warnings⟩
  | .error (.diagnostic d) s =>
    ⟨match options.errorMode with
      | .raise => .error (.diagnostic d)
      | .store => .ok none,
      s.log.add .error d.message, s.warnings⟩

end Schematic
