import Schematic.Text.Blank
import Schematic.Text.Digit
import Schematic.Text.Split

/-! Numerals: whole numbers written in decimal, with an optional sign, single underscores between
digits and blanks around them. -/
namespace Schematic.Text

/-- The most digits a numeral may have, leading zeros included. -/
def maxDigits : Nat := 4300

/-- A numeral is read in ASCII: digits and blanks of other scripts count as the ASCII ones, and any
other character from the delete control on as one that no numeral holds. -/
def plain (c : Char) : Char :=
  if c.toNat < 0x7F then c
  else if isBlank c then ' '
  else match digitValue? c with
    | some d => asciiDigit d
    | none => '?'

/-- The value of a run of ASCII digits. -/
def digitsValue (ds : List Char) : Nat :=
  ds.foldl (fun n c => 10 * n + (c.toNat - 0x30)) 0

/-- The digits of a numeral without its underscores, each of which has digits on both sides. -/
def digits? (cs : List Char) : Option (List Char) :=
  let groups := cs.splitOn '_'
  if groups.all (fun g => !g.isEmpty && g.all isAsciiDigit) then some groups.flatten else none

/-- The value of the unsigned numeral `cs`. -/
def magnitude? (cs : List Char) : Option Nat :=
  match digits? cs with
  | none => none
  | some ds => if ds.length ≤ maxDigits then some (digitsValue ds) else none

/-- `cs` without the blanks at its two ends. -/
def strip (cs : List Char) : List Char :=
  ((cs.dropWhile isAsciiBlank).reverse.dropWhile isAsciiBlank).reverse

/-- The number that `text` writes, if it is a numeral. -/
def numeral? (text : String) : Option Int :=
  match strip (text.toList.map plain) with
  | '-' :: cs => (magnitude? cs).map fun n => -(n : Int)
  | '+' :: cs => (magnitude? cs).map Int.ofNat
  | cs => (magnitude? cs).map Int.ofNat

end Schematic.Text
