import Schematic.Files.Access
import Schematic.Text.Newline
import Schematic.Text.Utf8

/-! Trees of files, and the places that paths lead to in them. A component `..` of a path leads back up
out of a directory, which therefore has to be there. -/
namespace Schematic.Files
open Schematic.Text

inductive Tree
  | file (bytes : List UInt8)
  | dir (entries : List (String × Tree))
deriving Inhabited

/-- Why a file gives no text. -/
inductive ReadError
  | access (error : AccessError)
  | encoding (fault : Utf8.Fault)
deriving DecidableEq, Repr

/-- The text for a read at `path`, which an encoding fault does not mention. -/
def ReadError.message (path : Path) : ReadError → String
  | .access e => Denial.message ⟨e, path⟩
  | .encoding f => f.message

namespace Tree

def empty : Tree := .dir []

def entries : Tree → List (String × Tree)
  | .file _ => []
  | .dir es => es

/-- The working directory, in which relative paths start. The names on the way to it are empty, as no
component of a path is, so that paths only lead up out of it and never back down. -/
def workingDirectory : List String := ["", ""]

/-- An empty working directory. -/
def fresh : Tree := workingDirectory.foldr (fun name t => .dir [(name, t)]) empty

/-- The components that lead to `path` from the outermost directory. -/
def steps (path : Path) : List String :=
  if path.anchor = "" then workingDirectory ++ path.parts else path.parts

/-- Follows `parts` from `here`, which lies below the directories `above`, the nearest first. Up from
the outermost directory is that directory again. -/
def walk (above : List Tree) (here : Tree) : List String → Except AccessError Tree
  | [] => .ok here
  | part :: rest =>
    match here with
    | .file _ => .error .notDirectory
    | .dir es =>
      if part = ".." then
        match above with
        | [] => walk [] here rest
        | up :: above => walk above up rest
      else if Path.maxNameBytes < part.utf8ByteSize then .error .tooLong
      else match es.lookup part with
        | none => .error .missing
        | some next => walk (here :: above) next rest

/-- What `path` leads to. -/
def locate (root : Tree) (path : Path) : Except AccessError Tree :=
  if path.hasNull then .error .nullInPath
  else if path.isTooLong then .error .tooLong
  else walk [] root (steps path)

def bytes (root : Tree) (path : Path) : Except AccessError (List UInt8) :=
  match root.locate path with
  | .error e => .error e
  | .ok (.dir _) => .error .isDirectory
  | .ok (.file bs) => .ok bs

/-- The text of the file at `path`, its line ends written as line feeds. -/
def readText (root : Tree) (path : Path) : Except ReadError String :=
  match root.bytes path with
  | .error e => .error (.access e)
  | .ok bs =>
    match Utf8.decode bs with
    | .error f => .error (.encoding f)
    | .ok cs => .ok (String.ofList (unifyNewlines cs))

/-- Puts `t` in the place of the entry `name`, or behind the others. -/
def setEntry (name : String) (t : Tree) : List (String × Tree) → List (String × Tree)
  | [] => [(name, t)]
  | e :: es => if e.1 = name then (name, t) :: es else e :: setEntry name t es

/-- Replaces what stands at `names`, where `f` is given what was there. Missing directories on the way
are made, and below a file nothing changes. -/
def update (f : Option Tree → Tree) : List String → Option Tree → Tree
  | [], old => f old
  | _ :: _, some (.file bs) => .file bs
  | name :: rest, old =>
    let es := (old.getD empty).entries
    .dir (setEntry name (update f rest (es.lookup name)) es)

/-- Takes away what stands at `names`. -/
def erase : List String → Tree → Tree
  | [], t => t
  | _, .file bs => .file bs
  | [name], .dir es => .dir (es.filter fun e => e.1 ≠ name)
  | name :: rest, .dir es =>
    match es.lookup name with
    | none => .dir es
    | some t => .dir (setEntry name (erase rest t) es)

/-- The names of the place that `part` leads to from the place `here`. -/
def enter (here : List String) (part : String) : List String :=
  if part = ".." then here.dropLast else here ++ [part]

/-- The names of the place that `path` leads to. -/
def place (path : Path) : List String := (steps path).foldl enter []

def isDir (root : Tree) (path : Path) : Bool :=
  match root.locate path with
  | .ok (.dir _) => true
  | _ => false

/-- Makes the directory `path` in a directory that is there. -/
def makeEntry (root : Tree) (path : Path) : Except AccessError Tree :=
  if path.hasNull then .error .nullInPath
  else if path.isTooLong then .error .tooLong
  else match root.locate path.parent with
    | .error e => .error e
    | .ok (.file _) => .error .notDirectory
    | .ok (.dir es) =>
      if path.name = "" ∨ path.name = ".." ∨ (es.lookup path.name).isSome then .error .occupied
      else if Path.maxNameBytes < path.name.utf8ByteSize then .error .tooLong
      else .ok (update (fun _ => empty) (place path) (some root))

/-- A change of the tree. What it has done stays when it fails. -/
abbrev Change := EStateM Denial Tree Unit

/-- What a change leaves of the files, also where it fails. -/
def changed (files : Tree) (c : Change) : Tree :=
  match c files with
  | .ok _ files => files
  | .error _ files => files

/-- Makes the directory `path`, unless it is there. If the way to it is missing, the directories on the
way are made first, also those that a later `..` leaves again. -/
def makeDir (path : Path) : Change := fun root =>
  let settle (t : Tree) : EStateM.Result Denial Tree Unit :=
    match t.makeEntry path with
    | .ok t => .ok () t
    | .error e => if t.isDir path then .ok () t else .error ⟨e, path⟩ t
  match root.makeEntry path with
  | .error .missing =>
    if _h : path.parts = [] then .error ⟨.missing, path⟩ root
    else match makeDir path.parent root with
      | .error d t => .error d t
      | .ok () t => settle t
  | _ => settle root
termination_by path.parts.length
decreasing_by
  have := List.length_pos_iff.2 _h
  simp only [Path.parent, List.length_dropLast]
  omega

/-- Writes a file, and makes its directory where that is missing. -/
def write (path : Path) (bs : List UInt8) : Change := do
  makeDir path.parent
  fun root =>
    match root.locate path with
    | .ok (.dir _) => .error ⟨.isDirectory, path⟩ root
    | .ok (.file _) | .error .missing =>
      .ok () (update (fun _ => .file bs) (place path) (some root))
    | .error e => .error ⟨e, path⟩ root

/-- Removes a file. -/
def remove (path : Path) : Change := fun root =>
  match root.locate path with
  | .ok (.file _) => .ok () (erase (place path) root)
  | .ok (.dir _) => .error ⟨.isDirectory, path⟩ root
  | .error e => .error ⟨e, path⟩ root

end Tree
end Schematic.Files
