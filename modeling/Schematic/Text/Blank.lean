/-! Blank characters, the ones that separate words. -/
namespace Schematic.Text

/-- The code points with the white-space property: the ASCII controls tab to carriage return and
the four separators before the space, the space, and the blanks beyond ASCII. -/
def isBlank (c : Char) : Bool :=
  let n := c.toNat
  (9 ≤ n && n ≤ 13) || (28 ≤ n && n ≤ 32) || n == 0x85 || n == 0xA0 || n == 0x1680 ||
    (0x2000 ≤ n && n ≤ 0x200A) || n == 0x2028 || n == 0x2029 || n == 0x202F || n == 0x205F ||
    n == 0x3000

/-- The six blanks that may stand around a numeral. -/
def isAsciiBlank (c : Char) : Bool :=
  let n := c.toNat
  n == 32 || (9 ≤ n && n ≤ 13)

end Schematic.Text
