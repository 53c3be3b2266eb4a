import Schematic.Failure
import Schematic.Text.Blank
import Schematic.Text.Digit

/-! Words of a source line. The first character of a word, with a look at the one behind it, decides
its kind, and the kind decides how far the word goes. Main statement: a word and what follows it are
the text behind the blanks. -/
namespace Schematic.Source
open Schematic.Text

/-- The kinds of words. Any other name may stand for a kind as well; no word of a line is of it. -/
inductive TokenKind
  | blank
  | identifier
  | keyword
  | number
  | ender
  | separator
  | error
  | other (name : String)
deriving DecidableEq, Repr

structure Token where
  kind : TokenKind
  text : String
deriving DecidableEq, Repr

def isLower (c : Char) : Bool := 'a' ≤ c && c ≤ 'z'

def isLabelChar (c : Char) : Bool := isLower c || isAsciiDigit c || c == '_'

def isTypeChar (c : Char) : Bool := isLower c || isAsciiDigit c || c == '/'

namespace TokenKind

/-- The kind of a word that starts with `c`, before `cs`. A tick alone starts no identifier. -/
def ofStart (c : Char) (cs : List Char) : TokenKind :=
  if isBlank c then blank
  else if c = tick ∧ cs.head?.any isLabelChar then identifier
  else if isLower c then keyword
  else if isAsciiDigit c then number
  else if c = '.' then ender
  else if c = ':' then separator
  else error

/-- The characters that go on with a word of the kind. An unrecognized word ends at a blank. -/
def continues : TokenKind → Char → Bool
  | blank => isBlank
  | identifier => isLabelChar
  | keyword => isTypeChar
  | number => isAsciiDigit
  | ender | separator | other _ => fun _ => false
  | error => fun c => !isBlank c

end TokenKind

/-- A word and the text behind it. -/
structure Word where
  kind : TokenKind
  text : List Char
  rest : List Char
deriving DecidableEq, Repr

/-- The first word behind the leading blanks. -/
def word? (cs : List Char) : Option Word :=
  match cs.dropWhile isBlank with
  | [] => none
  | c :: cs =>
    let k := TokenKind.ofStart c cs
    some ⟨k, c :: cs.takeWhile k.continues, cs.dropWhile k.continues⟩

theorem text_append_rest {cs : List Char} {w : Word} (h : word? cs = some w) :
    w.text ++ w.rest = cs.dropWhile isBlank := by
  unfold word? at h
  split at h
  · cases h
  · next c cs' hd =>
    cases h
    rw [hd, List.cons_append, List.takeWhile_append_dropWhile]

theorem text_ne_nil {cs : List Char} {w : Word} (h : word? cs = some w) : w.text ≠ [] := by
  unfold word? at h
  split at h
  · cases h
  · cases h
    simp

theorem length_rest_lt {cs : List Char} {w : Word} (h : word? cs = some w) :
    w.rest.length < cs.length := by
  have ht := List.length_pos_iff.2 (text_ne_nil h)
  have hl := congrArg List.length (text_append_rest h)
  have hd := (List.dropWhile_sublist isBlank (l := cs)).length_le
  rw [List.length_append] at hl
  omega

/-- The words of a line. An unrecognized word is an error. -/
def tokenize (cs : List Char) : Except Failure (List Token) :=
  match _hw : word? cs with
  | none => .ok []
  | some w =>
    if w.kind = .error then .error (Cause.unrecognizedToken (String.ofList w.text))
    else match tokenize w.rest with
      | .error e => .error e
      | .ok ts => .ok (⟨w.kind, String.ofList w.text⟩ :: ts)
termination_by cs.length
decreasing_by
  have := length_rest_lt _hw
  omega

/-- The tokens of a line. -/
def tokens (line : String) : Except Failure (List Token) := tokenize line.toList

end Schematic.Source
