import Schematic.Files.Path
import Schematic.Text.Quoted

/-! Why a path cannot be used. -/
namespace Schematic.Files
open Schematic.Text

inductive AccessError
  | missing
  | occupied
  | notDirectory
  | isDirectory
  | tooLong
  | nullInPath
deriving DecidableEq, Repr

def AccessError.message : AccessError → String
  | .missing => "[Errno 2] No such file or directory"
  | .occupied => "[Errno 17] File exists"
  | .notDirectory => "[Errno 20] Not a directory"
  | .isDirectory => "[Errno 21] Is a directory"
  | .tooLong => "[Errno 36] File name too long"
  | .nullInPath => "embedded null byte"

/-- An access that failed, with the path that it was about. -/
structure Denial where
  error : AccessError
  path : Path
deriving DecidableEq, Repr

/-- A null character hides what the path is about, so that it is not shown. -/
def Denial.message (d : Denial) : String :=
  if d.error = .nullInPath then d.error.message
  else d.error.message ++ ": " ++ quoted d.path.toText

end Schematic.Files
