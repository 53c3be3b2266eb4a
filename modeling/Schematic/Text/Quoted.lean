import Schematic.Text.Hexadecimal
import Schematic.Text.Printable

/-! Quoted text, as diagnostics show a word that came from outside. -/
namespace Schematic.Text

/-- The single quotation mark. -/
def tick : Char := '\x27'

def doubleQuote : Char := '\x22'

/-- Ticks stand around the text, unless it holds ticks and no double quote. -/
def quoteMark (cs : List Char) : Char :=
  if cs.contains tick && !cs.contains doubleQuote then doubleQuote else tick

/-- How `c` is written between two marks `mark`. -/
def escape (mark c : Char) : List Char :=
  if c = mark ∨ c = '\\' then ['\\', c]
  else if c = '\t' then ['\\', 't']
  else if c = '\n' then ['\\', 'n']
  else if c = '\r' then ['\\', 'r']
  else if isPrintable c then [c]
  else if c.toNat < 0x100 then '\\' :: 'x' :: hexadecimal 2 c.toNat
  else if c.toNat < 0x10000 then '\\' :: 'u' :: hexadecimal 4 c.toNat
  else '\\' :: 'U' :: hexadecimal 8 c.toNat

def quoted (s : String) : String :=
  let mark := quoteMark s.toList
  String.ofList (mark :: s.toList.flatMap (escape mark) ++ [mark])

end Schematic.Text
