import Schematic.Text.Split

/-! Paths. A path is kept in the form in which it is shown: without empty and `.` components, with
every `..`. -/
namespace Schematic.Files
open Schematic.Text

/-- The components of a path. The anchor is the slash or the two slashes of an absolute path. -/
structure Path where
  anchor : String := ""
  parts : List String := []
deriving DecidableEq, Repr, Inhabited

namespace Path

def ofText (s : String) : Path where
  anchor :=
    match (s.toList.takeWhile (· = '/')).length with
    | 0 => ""
    | 2 => "//"
    | _ => "/"
  parts := ((s.toList.splitOn '/').filter fun p => p ≠ [] ∧ p ≠ ['.']).map String.ofList

/-- The path of nothing but its start is written as a dot. -/
def toText (p : Path) : String :=
  if p.anchor = "" ∧ p.parts = [] then "." else p.anchor ++ "/".intercalate p.parts

/-- The path of the entry `names` below `p`. -/
def below (p : Path) (names : List String) : Path := { p with parts := p.parts ++ names }

/-- The path of the directory that the last component is looked up in. -/
def parent (p : Path) : Path := { p with parts := p.parts.dropLast }

/-- The last component, empty if there is none. -/
def name (p : Path) : String := p.parts.getLast?.getD ""

/-- The part of a name from its last dot on, if something stands on both sides of that dot. -/
def suffixOf (name : List Char) : List Char :=
  let back := name.reverse
  let extension := (back.takeWhile (· ≠ '.')).reverse
  match back.dropWhile (· ≠ '.') with
  | _ :: _ :: _ => if extension = [] then [] else '.' :: extension
  | _ => []

def suffix (p : Path) : String := String.ofList (suffixOf p.name.toList)

/-- A path with a null character names no file. -/
def hasNull (p : Path) : Bool := p.parts.any fun s => s.toList.contains '\x00'

/-- The most bytes that the name of a file may have. -/
def maxNameBytes : Nat := 255

/-- The most bytes that a path may have. -/
def maxBytes : Nat := 4095

/-- A path that is too long is not followed at all. -/
def isTooLong (p : Path) : Bool := decide (maxBytes < p.toText.utf8ByteSize)

end Path
end Schematic.Files
