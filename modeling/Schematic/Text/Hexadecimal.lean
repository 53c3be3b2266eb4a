/-! Hexadecimal numerals. -/
namespace Schematic.Text

/-- The lower-case hexadecimal digits of `n`, padded with zeros to at least `width` of them. -/
def hexadecimal (width n : Nat) : List Char :=
  let digits := Nat.toDigits 16 n
  List.replicate (width - digits.length) '0' ++ digits

end Schematic.Text
