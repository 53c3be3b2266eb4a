/-! The templates that come with every library. -/
namespace Schematic.Library

private def sourceLines (ls : List String) : String := String.join (ls.map (· ++ "\n"))

/-- Types and texts of the bundled templates. -/
def bundled : List (String × String) := [
  ("gates/and2", sourceLines [
    ":pin label 'a num 1",
    ":pin label 'b num 2",
    ":pin label 'y num 3 value and 'a 'b .",
    ":pin label 'vcc num 4 value vcc"]),
  ("gates/and3", sourceLines [
    ":pin label 'a num 1",
    ":pin label 'b num 2",
    ":pin label 'c num 3",
    ":pin label 'gnd num 4 value gnd",
    ":pin label 'y num 5 value and 'a 'b 'c .",
    ":pin label 'vcc num 6 value vcc"]),
  ("gates/buf", sourceLines [
    ":pin label 'a num 1",
    ":pin label 'y num 2 value and 'a ."]),
  ("gates/or2", sourceLines [
    ":pin label 'a num 1",
    ":pin label 'b num 2",
    ":pin label 'y num 3 value or 'a 'b .",
    ":pin label 'vcc num 4 value vcc"]),
  ("gates/or3", sourceLines [
    ":pin label 'a num 1",
    ":pin label 'b num 2",
    ":pin label 'c num 3",
    ":pin label 'gnd num 4 value gnd",
    ":pin label 'y num 5 value or 'a 'b 'c .",
    ":pin label 'vcc num 6 value vcc"])]

end Schematic.Library
