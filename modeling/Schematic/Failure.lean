import Schematic.Component.Describe
import Schematic.Files.Access

/-! Why an operation fails. A diagnostic is about the user's schematic and is worded for a status
line; a fault is a call that no schematic accounts for. -/
namespace Schematic

/-- The stage of loading that a diagnostic belongs to. -/
inductive Category
  | lexical
  | syntactic
  | resolution
  | structural
  | opening
deriving DecidableEq, Repr

/-- A value shown in a diagnostic. -/
inductive Datum
  | absent
  | flag (b : Bool)
  | text (s : String)
  | number (n : Int)
  | cell (v : Vec)
deriving DecidableEq, Repr

inductive Cause
  | unrecognizedToken (text : String)
  | unexpectedToken (found expected : String)
  | expectedNumber (found : String)
  | outOfTokens (expected : String)
  | outOfTokensForNumber
  | unknownKind (name : String)
  | unknownAttribute (name : String)
  | inapplicableAttribute (name kind : String)
  | unknownColor (name : String)
  | unknownValue (name : String)
  | invalidNumber (text : String)
  | numberOutOfRange (number : Int)
  | missingAttribute (name : String)
  | invalidAttribute (name : String)
  | invalidAttributeValue (value : Datum) (name : String)
  | unknownType (type : String)
  | invalidTemplate (type reason : String)
  | missingCanvas
  | severalCanvases (count : Int)
  | terminalTooSmall (needed available : Vec)
  | outOfBounds (kind : String) (position : Vec)
  | overlap (first second : Int)
  | pointWire (position : Vec)
  | tooManyWires (color : String)
  | invalidFiletype (suffix : String)
  | unreadableProject (path : String)
  | unreadableLibrary (path : String)
  | general (category : Option Category) (text : String)
deriving DecidableEq, Repr

def Category.all : List Category := [.lexical, .syntactic, .resolution, .structural, .opening]

/-- The form of a cell in messages that show whole values. -/
def Vec.display (v : Vec) : String :=
  "Vector2(x=" ++ toString v.x ++ ", y=" ++ toString v.y ++ ")"

def Datum.display : Datum → String
  | .absent => "None"
  | .flag b => if b then "True" else "False"
  | .text s => s
  | .number n => toString n
  | .cell v => v.display

/-- The form of a value in messages that set texts off by quotes. -/
def Datum.quoted : Datum → String
  | .text s => Text.quoted s
  | d => d.display

def Region.display (r : Region) : String :=
  "Region(position=" ++ r.position.display ++ ", size=" ++ r.size.display ++ ")"

namespace Cause

def category? : Cause → Option Category
  | unrecognizedToken _ => some .lexical
  | unexpectedToken .. | expectedNumber _ | outOfTokens _ | outOfTokensForNumber | unknownKind _
  | unknownAttribute _ | inapplicableAttribute .. | unknownColor _ | unknownValue _
  | invalidNumber _ | numberOutOfRange _ | missingAttribute _ | invalidAttribute _
  | invalidAttributeValue .. => some .syntactic
  | unknownType _ | invalidTemplate .. => some .resolution
  | missingCanvas | severalCanvases _ | terminalTooSmall .. | outOfBounds .. | overlap ..
  | pointWire _ | tooManyWires _ => some .structural
  | invalidFiletype _ | unreadableProject _ | unreadableLibrary _ => some .opening
  | general c _ => c

def message : Cause → String
  | unrecognizedToken text => "unrecognized token: " ++ text
  | unexpectedToken found expected => "unexpected token " ++ found ++ ", expected " ++ expected
  | expectedNumber found => "unexpected token " ++ found ++ ", expected number"
  | outOfTokens expected => "out of tokens, expected " ++ expected
  | outOfTokensForNumber => "out of tokens, expected number"
  | unknownKind name => "invalid object type: " ++ name
  | unknownAttribute name => "invalid attribute: " ++ name
  | inapplicableAttribute name kind => "could not apply " ++ name ++ " to " ++ kind
  | unknownColor name => "invalid color: " ++ name
  | unknownValue name => "invalid value: " ++ name
  | invalidNumber text => "invalid number: '" ++ text ++ "'"
  | numberOutOfRange number => "number out of range: " ++ toString number
  | missingAttribute name => "missing attribute: " ++ name
  | invalidAttribute name => "invalid value for attribute " ++ name
  | invalidAttributeValue value name =>
    "invalid value " ++ value.display ++ " for attribute " ++ name
  | unknownType type => type ++ " not found in stdlib"
  | invalidTemplate type reason => "invalid template " ++ type ++ ": " ++ reason
  | missingCanvas => "missing meta object"
  | severalCanvases count => "expected exactly one meta object, found " ++ toString count
  | terminalTooSmall needed available =>
    "terminal too small: need " ++ needed.describeExtent ++ ", have " ++ available.describeExtent
  | outOfBounds kind position => kind ++ " out of bounds at " ++ position.describe
  | overlap first second =>
    "objects " ++ toString first ++ " and " ++ toString second ++ " overlap"
  | pointWire position => "wire starts and ends at the same point " ++ position.describe
  | tooManyWires color => "too many " ++ color ++ " wires"
  | invalidFiletype suffix => "invalid filetype: " ++ suffix
  | unreadableProject path => "could not open project: " ++ path
  | unreadableLibrary path => "could not open library: " ++ path
  | general _ text => text

end Cause

/-- A cause, with the number of the source line where one is known. -/
structure Diagnostic where
  cause : Cause
  line : Option Int := none
deriving DecidableEq, Repr

namespace Diagnostic

def message (d : Diagnostic) : String :=
  match d.line with
  | none => d.cause.message
  | some n => "line " ++ toString n ++ ": " ++ d.cause.message

/-- The first line attached to a diagnostic stays. -/
def atLine (d : Diagnostic) (n : Int) : Diagnostic :=
  { d with line := some (d.line.getD n) }

end Diagnostic

/-- The closed lists of words that a word from outside is looked up in. -/
inductive WordList
  | attributes
  | colors
  | contents
  | kinds
  | severities
  | voltages
deriving DecidableEq, Repr

/-- What a word of the list is called in messages. -/
def WordList.itemName : WordList → String
  | attributes => "AttributeKind"
  | colors => "Color"
  | contents => "ValueKind"
  | kinds => "ObjectKind"
  | severities => "Level"
  | voltages => "Voltage"

inductive Fault
  | degenerateRegion (r : Region)
  | noWireLetter (count : Int)
  | noCharacter
  | codeTooLarge
  | notLogic (c : Content)
  | notListed (list : WordList) (word : Datum)
  | notComponent (text : String)
  | notKind (text : String)
  | denied (d : Files.Denial)
  | nestedTooDeeply
  | uncoloredWire
deriving DecidableEq, Repr

def Fault.message : Fault → String
  | .degenerateRegion r => "Degenerate region " ++ r.display
  | .noWireLetter count => "No wire label for count " ++ toString count
  | .noCharacter => "chr() arg not in range(0x110000)"
  | .codeTooLarge => "character code too large"
  | .notLogic c => "Not a logic value: ValueKind." ++ c.name.toUpper
  | .notListed list word => word.quoted ++ " is not a valid " ++ list.itemName
  | .notComponent text => "Invalid object " ++ text
  | .notKind text => "Invalid object kind " ++ text
  | .denied d => d.message
  | .nestedTooDeeply => "directories nested too deeply"
  | .uncoloredWire => "None"

inductive Failure
  | diagnostic (d : Diagnostic)
  | fault (f : Fault)
deriving DecidableEq, Repr

namespace Failure

instance : Coe Cause Failure := ⟨fun c => .diagnostic ⟨c, none⟩⟩

instance : Coe Fault Failure := ⟨.fault⟩

def atLine (n : Int) : Failure → Failure
  | .diagnostic d => .diagnostic (d.atLine n)
  | .fault f => .fault f

end Failure

/-- What `find?` finds for a word. A word that is not listed is a fault, and so is what is no word. -/
def WordList.require {α : Type} (list : WordList) (find? : String → Option α) (word : Datum) :
    Except Failure α :=
  let found :=
    match word with
    | .text s => find? s
    | _ => none
  match found with
  | some a => .ok a
  | none => .error (Fault.notListed list word)

namespace Component

def kind (c : Component) : Except Failure Kind :=
  match c with
  | .foreign text => .error (Fault.notComponent text)
  | .canvas _ => .ok .canvas
  | .chip _ => .ok .chip
  | .net _ => .ok .net
  | .pin _ => .ok .pin
  | .wire _ => .ok .wire

/-- The component that a word names the kind of, where a word from outside may stand for a kind. -/
def ofKindOrText : Kind ⊕ String → Except Failure Component
  | .inl k => .ok (ofKind k)
  | .inr text => .error (Fault.notKind text)

def region (c : Component) : Except Failure (Option Region) :=
  match c with
  | .foreign text => .error (Fault.notComponent text)
  | c => .ok c.region?

def describe (c : Component) : Except Failure String :=
  match c with
  | .foreign text => .error (Fault.notComponent text)
  | c => .ok (c.describe?.getD "")

end Component
end Schematic
