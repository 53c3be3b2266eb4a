import Schematic.Failure
import Schematic.Files.Tree
import Schematic.Library.Bundled

/-! Libraries of chip templates. A chip type names the template file at the same path below a root,
and of several roots with that file the first one provides it. -/
namespace Schematic
open Schematic.Files

/-- Where the text of a template is. -/
inductive TemplateSource
  | bundled (text : String)
  | file (path : Path)
deriving DecidableEq, Repr

/-- The templates of a library by type, each type once. -/
structure Library where
  index : List (String × TemplateSource)
deriving DecidableEq, Repr

namespace Library

def templateSuffix : String := ".cic"

/-- `name` without the ending `ending`, if it has it. -/
def stem? (ending name : String) : Option String :=
  if ending.toList.isSuffixOf name.toList then
    some (String.ofList (name.toList.take (name.length - ending.length)))
  else none

/-- The chip type of the file `names` below a root, if it is a template. -/
def templateType? (names : List String) : Option String :=
  match names.getLast? with
  | none => none
  | some name =>
    (stem? templateSuffix name).map fun stem => "/".intercalate (names.dropLast ++ [stem])

/-- How many names below a root the walk gets when a library is opened with hardly any call under way. -/
def usualDepth : Nat := 984

/-- The entries of a directory in the order of their names. -/
def inOrder (es : List (String × Tree)) : List (String × Tree) :=
  es.mergeSort fun a b => decide (¬b.1 < a.1)

/-- The paths of the files at one entry of the directory at `here`, where `walk` finds those below the entry. That a
path is too long is found out only by trying it, and shows as a denial. -/
def filesAt (walk : Path → Tree → Except Failure (List (List String))) (here : Path) (e : String × Tree) :
    Except Failure (List (List String)) :=
  let path := here.below [e.1]
  if path.isTooLong then .error (Fault.denied ⟨.tooLong, path⟩)
  else (walk path e.2).map fun found => found.map (e.1 :: ·)

/-- The paths of the files below `tree`, which stands at `here`. The walk calls itself for each directory and looks
at an entry by one call more, and the stack has room for `depth` of these, one inside the other. -/
def filesBelow : Nat → Path → Tree → Except Failure (List (List String))
  | _, _, .file _ => .ok [[]]
  | 0, _, .dir [] => .ok []
  | 0, _, .dir (_ :: _) => .error Fault.nestedTooDeeply
  | depth + 1, here, .dir es => ((inOrder es).mapM (filesAt (filesBelow depth) here)).map List.flatten

/-- The templates below the directory `tree`, which stands at `root`. -/
def templatesBelow (depth : Nat) (root : Path) (tree : Tree) :
    Except Failure (List (String × TemplateSource)) :=
  (filesBelow depth root tree).map fun found => found.filterMap fun names =>
    (templateType? names).map fun type => (type, .file (root.below names))

/-- Adds the templates of types that are not yet provided. -/
def extend (l : Library) (entries : List (String × TemplateSource)) : Library :=
  ⟨entries.foldl (fun index e => if (index.lookup e.1).isSome then index else index ++ [e]) l.index⟩

def onlyBundled : Library :=
  extend ⟨[]⟩ (bundled.map fun e => (e.1, .bundled e.2))

/-- Adds the directory at `root`. -/
def addRoot (depth : Nat) (files : Tree) (l : Library) (root : Path) : Except Failure Library :=
  match files.locate root with
  | .ok (.dir es) => (templatesBelow depth root (.dir es)).map l.extend
  | .error .tooLong => .error (Fault.denied ⟨.tooLong, root⟩)
  | _ => .error (Cause.unreadableLibrary root.toText)

/-- The library of the bundled templates and the directories `roots`, in this order. The bundled templates are two
names below their root, where the walk always gets. -/
def ofRoots (depth : Nat) (files : Tree) (roots : List Path) : Except Failure Library :=
  roots.foldlM (addRoot depth files) onlyBundled

/-- All types, in order. -/
def types (l : Library) : List String :=
  (l.index.map Prod.fst).mergeSort fun a b => decide (¬b < a)

theorem lookup_isSome_iff_mem {β : Type} {es : List (String × β)} {type : String} :
    (es.lookup type).isSome ↔ type ∈ es.map Prod.fst := by
  rw [List.lookup_isSome_iff, List.mem_map]
  constructor
  · intro h
    obtain ⟨e, he, heq⟩ := h
    exact ⟨e, he, (beq_iff_eq.mp heq).symm⟩
  · intro h
    obtain ⟨e, he, heq⟩ := h
    exact ⟨e, he, beq_iff_eq.mpr heq.symm⟩

theorem mem_types_iff {l : Library} {type : String} :
    type ∈ l.types ↔ (l.index.lookup type).isSome := by
  rw [types, List.mem_mergeSort, lookup_isSome_iff_mem]

/-- The text of the template of a type, as it reads now. -/
def text (l : Library) (files : Tree) (type : String) : Except Failure String :=
  match l.index.lookup type with
  | none => .error (Cause.unknownType type)
  | some (.bundled s) => .ok s
  | some (.file path) =>
    match files.readText path with
    | .ok s => .ok s
    | .error e => .error (Cause.invalidTemplate type (e.message path))

end Library
end Schematic
