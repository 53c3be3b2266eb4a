import Schematic.Files.Path

/-! Warnings about references of logic pins, and their printed forms. -/
namespace Schematic

/-- A reference of the pin shown as `pin` to a label that no pin has, or to one of a logic pin that is
not yet evaluated. -/
inductive Warning
  | unknownLabel (pin label : String)
  | earlyReference (pin label : String)
deriving DecidableEq, Repr

namespace Warning

def message : Warning → String
  | unknownLabel pin label => "Pin " ++ pin ++ " references unknown label " ++ label
  | earlyReference pin label =>
    "Pin " ++ pin ++ " references " ++ label ++ " before it is evaluated"

/-- A message under the category that warnings are given in. -/
def categorized (message : String) : String := "UserWarning: " ++ message

/-- A warning on one line: the name of the file, the line, and the message. -/
def format (message : String) (file : Files.Path) (line : Int) : String :=
  file.name ++ ":" ++ toString line ++ ": " ++ categorized message ++ "\n"

end Warning
end Schematic
