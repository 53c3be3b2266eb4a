import Schematic.Text.Split

/-! Logs. A message is kept as its lines, so that each line of a view carries the mark of its
severity. -/
namespace Schematic

inductive Severity
  | error
  | warning
  | info
  | debug
deriving DecidableEq, Repr

namespace Severity

def all : List Severity := [error, warning, info, debug]

def letter : Severity → String
  | error => "e"
  | warning => "w"
  | info => "i"
  | debug => "d"

def marker (s : Severity) : String := "[" ++ s.letter ++ "]"

def ofLetter? (s : String) : Option Severity := all.find? fun l => l.letter == s

end Severity

structure LogItem where
  severity : Severity
  lines : List String
deriving DecidableEq, Repr

namespace LogItem

def ofMessage (severity : Severity) (message : String) : LogItem :=
  ⟨severity, Text.lines message⟩

def message (i : LogItem) : String := Text.unlines i.lines

@[simp] theorem severity_ofMessage (s : Severity) (m : String) : (ofMessage s m).severity = s := rfl

@[simp] theorem message_ofMessage (s : Severity) (m : String) : (ofMessage s m).message = m :=
  Text.unlines_lines m

/-- The item as a log view shows it. -/
def render (i : LogItem) : String :=
  Text.unlines (i.lines.map fun line => i.severity.marker ++ " " ++ line)

end LogItem

/-- Logged items, oldest first. -/
abbrev Log := List LogItem

namespace Log

def add (severity : Severity) (message : String) (log : Log) : Log :=
  log ++ [.ofMessage severity message]

/-- The messages of one severity, as they were logged. -/
def messages (severity : Severity) (log : Log) : List String :=
  (log.filter fun i => i.severity == severity).map LogItem.message

theorem messages_add (s t : Severity) (m : String) (log : Log) :
    messages t (add s m log) = messages t log ++ if s = t then [m] else [] := by
  by_cases h : s = t <;> simp [messages, add, h]

def render (log : Log) : List String := log.map LogItem.render

end Log
end Schematic
