import Schematic.Source.Line
import Schematic.Files.Tree

/-! Source texts, line by line. -/
namespace Schematic.Source
open Schematic.Files

/-- The component that a line declares, if it is not blank. All words are told apart before the first
of them is read. -/
def readLine (line : String) : Except Failure (Option Component) :=
  match tokens line with
  | .error e => .error e
  | .ok ts =>
    match Reader.component (.ofTokens ts) with
    | .error e _ => .error e
    | .ok c _ => .ok c

/-- The components of lines that are numbered from `n` on. The first failure ends the reading. -/
def readLines (path : Option String) : Int → List String → Except Failure (List Component)
  | _, [] => .ok []
  | n, line :: rest =>
    match readLine line with
    | .error e => .error (e.atLine n)
    | .ok none => readLines path (n + 1) rest
    | .ok (some c) =>
      match readLines path (n + 1) rest with
      | .error e => .error e
      | .ok cs => .ok (c.withOrigin ⟨n, path⟩ :: cs)

/-- The components of a text, which comes from the file at `path` if that is given. -/
def readText (path : Option String) (text : String) : Except Failure (List Component) :=
  readLines path 1 (Text.lines text)

def projectSuffix : String := ".cip"

/-- The components of the project file at `path`. A path with a null character is not even tried. -/
def readProject (files : Tree) (path : Path) : Except Failure (List Component) :=
  if path.suffix ≠ projectSuffix then
    .error (Cause.invalidFiletype (if path.suffix = "" then path.name else path.suffix))
  else match files.readText path with
    | .error (.access .nullInPath) => .error (Fault.denied ⟨.nullInPath, path⟩)
    | .error _ => .error (Cause.unreadableProject path.toText)
    | .ok text => readText (some path.toText) text

/-- What a project is read from. -/
inductive Input
  | text (s : String)
  | file (path : Path)
deriving DecidableEq, Repr

def Input.read (files : Tree) : Input → Except Failure (List Component)
  | .text s => readText none s
  | .file path => readProject files path

end Schematic.Source
