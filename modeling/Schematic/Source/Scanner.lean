import Schematic.Source.Token

/-! Reading the words of a line one at a time. -/
namespace Schematic.Source
open Schematic.Text

/-- A line read up to `position`. Once reading has failed, it stands still until it is resumed. -/
structure Scanner where
  rest : List Char
  position : Nat := 0
  live : Bool := true
deriving DecidableEq, Repr

namespace Scanner

def ofLine (line : String) : Scanner := { rest := line.toList }

/-- Starts reading again behind what has been read. -/
def resume (s : Scanner) : Scanner := { s with live := true }

/-- The next word, and the scanner behind it. The blanks at the end of a line are read too. -/
def next (s : Scanner) : Except Failure (Option Token) × Scanner :=
  if !s.live then (.ok none, s)
  else match word? s.rest with
    | none => (.ok none, ⟨[], s.position + s.rest.length, false⟩)
    | some w =>
      let position := s.position + (s.rest.length - w.rest.length)
      let text := String.ofList w.text
      if w.kind = .error then
        (.error (Cause.unrecognizedToken text), ⟨w.rest, position, false⟩)
      else (.ok (some ⟨w.kind, text⟩), ⟨w.rest, position, true⟩)

end Scanner
end Schematic.Source
