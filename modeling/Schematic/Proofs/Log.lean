import Mathlib.Data.List.DropRight
import Schematic.Log

/-! Logs over any course of events, and items read back from a view. Main statement: a log holds what it was told
since it was last cleared, word for word, and its view alone tells what that was. -/
namespace Schematic

namespace Severity

/-- What stands before each line of a view. -/
def mark (s : Severity) : List Char := (s.marker ++ " ").toList

def marked (s : Severity) (line : String) : String := s.marker ++ " " ++ line

def Marks (s : Severity) (shown : String) : Prop := s.mark <+: shown.toList

instance (s : Severity) (shown : String) : Decidable (s.Marks shown) :=
  inferInstanceAs (Decidable (_ <+: _))

/-- The line without its mark. -/
def unmarked (s : Severity) (shown : String) : String := String.ofList (shown.toList.drop s.mark.length)

variable {s t : Severity} {shown line : String}

theorem toList_marked (s : Severity) (line : String) : (s.marked line).toList = s.mark ++ line.toList :=
  String.toList_append

theorem marks_marked (s : Severity) (line : String) : s.Marks (s.marked line) := by
  rw [Marks, toList_marked]
  exact List.prefix_append s.mark line.toList

theorem unmarked_marked (s : Severity) (line : String) : s.unmarked (s.marked line) = line := by
  rw [unmarked, toList_marked, List.drop_left, String.ofList_toList]

theorem Marks.marked_unmarked (h : s.Marks shown) : s.marked (s.unmarked shown) = shown := by
  obtain ⟨rest, hrest⟩ := h
  rw [← String.toList_inj, toList_marked, unmarked, String.toList_ofList, ← hrest, List.drop_left]

theorem length_mark (s : Severity) : s.mark.length = 4 := by cases s <;> decide +kernel

theorem mark_injective (h : s.mark = t.mark) : s = t := by
  have hinjective : ∀ s ∈ all, ∀ t ∈ all, s.mark = t.mark → s = t := by decide +kernel
  exact hinjective s (by cases s <;> decide) t (by cases t <;> decide) h

/-- The marks are equally long, and no two are alike. -/
theorem Marks.unique (hs : s.Marks shown) (ht : t.Marks shown) : s = t := by
  have hlength : s.mark.length = t.mark.length := by rw [length_mark, length_mark]
  have hbegins : s.mark <+: t.mark := List.prefix_of_prefix_length_le hs ht hlength.le
  exact mark_injective (hbegins.eq_of_length hlength)

theorem newline_notMem_marked (h : '\n' ∉ line.toList) (s : Severity) : '\n' ∉ (s.marked line).toList := by
  have hmark : '\n' ∉ s.mark := by cases s <;> decide
  rw [toList_marked, List.mem_append, not_or]
  exact ⟨hmark, h⟩

theorem newline_notMem_unmarked (h : '\n' ∉ shown.toList) (s : Severity) :
    '\n' ∉ (s.unmarked shown).toList := by
  rw [unmarked, String.toList_ofList]
  intro hmem
  exact h (List.mem_of_mem_drop hmem)

end Severity

namespace LogItem

/-- The severity whose mark all lines of a view carry. -/
def shownSeverity? (view : String) : Option Severity :=
  Severity.all.find? fun s => decide (∀ line ∈ Text.lines view, s.Marks line)

/-- The severity and the message of the item that a view shows, if it shows one. -/
def readBack? (view : String) : Option (Severity × String) :=
  (shownSeverity? view).map fun s => (s, Text.unlines ((Text.lines view).map s.unmarked))

variable {s : Severity} {view message : String}

theorem shownSeverity?_eq_some_iff : shownSeverity? view = some s ↔ ∀ line ∈ Text.lines view, s.Marks line := by
  have hfound : ∀ t, shownSeverity? view = some t → ∀ line ∈ Text.lines view, t.Marks line := by
    intro t h
    simpa using List.find?_some h
  refine ⟨hfound s, fun h => ?_⟩
  cases hfind : shownSeverity? view with
  | none =>
    have hnone := List.find?_eq_none.mp hfind s (by cases s <;> decide)
    exact absurd (decide_eq_true h) hnone
  | some t =>
    -- The first line carries both marks.
    obtain ⟨first, hfirst⟩ := List.exists_mem_of_ne_nil _ (Text.lines_ne_nil view)
    rw [(h first hfirst).unique (hfound t hfind first hfirst)]

theorem render_ofMessage (s : Severity) (message : String) :
    (ofMessage s message).render = Text.unlines ((Text.lines message).map s.marked) := rfl

theorem lines_render (s : Severity) (message : String) :
    Text.lines (ofMessage s message).render = (Text.lines message).map s.marked := by
  rw [render_ofMessage]
  refine Text.lines_unlines ?_ ?_
  · rw [Ne, List.map_eq_nil_iff]
    exact Text.lines_ne_nil message
  · intro shown hshown
    obtain ⟨line, hline, rfl⟩ := List.mem_map.mp hshown
    exact Severity.newline_notMem_marked (Text.newline_notMem_of_mem_lines hline) s

/-- The lines of the view without their marks are the lines of the message. -/
theorem render_of_marks (h : ∀ line ∈ Text.lines view, s.Marks line) :
    (ofMessage s (Text.unlines ((Text.lines view).map s.unmarked))).render = view := by
  have hne : (Text.lines view).map s.unmarked ≠ [] := by
    rw [Ne, List.map_eq_nil_iff]
    exact Text.lines_ne_nil view
  have hbreaks : ∀ line ∈ (Text.lines view).map s.unmarked, '\n' ∉ line.toList := by
    intro line hline
    obtain ⟨shown, hshown, rfl⟩ := List.mem_map.mp hline
    exact Severity.newline_notMem_unmarked (Text.newline_notMem_of_mem_lines hshown) s
  have hmarked : ((Text.lines view).map s.unmarked).map s.marked = Text.lines view := by
    calc
      ((Text.lines view).map s.unmarked).map s.marked = (Text.lines view).map id := by
        rw [List.map_map]
        exact List.map_congr_left fun shown hshown => (h shown hshown).marked_unmarked
      _ = Text.lines view := List.map_id _
  rw [render_ofMessage, Text.lines_unlines hne hbreaks, hmarked, Text.unlines_lines]

theorem readBack?_eq_some_iff :
    readBack? view = some (s, message) ↔ (ofMessage s message).render = view := by
  unfold readBack?
  simp only [Option.map_eq_some_iff, shownSeverity?_eq_some_iff, Prod.mk.injEq]
  constructor
  · intro h
    obtain ⟨t, hmarks, rfl, rfl⟩ := h
    exact render_of_marks hmarks
  · intro h
    have hlines := lines_render s message
    rw [h] at hlines
    refine ⟨s, ?_, rfl, ?_⟩
    · rw [hlines]
      exact List.forall_mem_map.mpr fun line _ => s.marks_marked line
    · have hunmarked : ((Text.lines message).map s.marked).map s.unmarked = Text.lines message := by
        rw [List.map_map]
        exact List.map_id'' s.unmarked_marked _
      rw [hlines, hunmarked, Text.unlines_lines]

/-- Marks within a message and line feeds at its end do not mislead. -/
example : readBack? "[w] [e] odd\n[w] \n[w] " = some (.warning, "[e] odd\n\n") := by decide +kernel

theorem readBack?_render (s : Severity) (message : String) :
    readBack? (ofMessage s message).render = some (s, message) := readBack?_eq_some_iff.mpr rfl

/-- The item of a message and its severity. -/
def ofEntry (e : Severity × String) : LogItem := ofMessage e.1 e.2

theorem readBack?_render_ofEntry (e : Severity × String) : readBack? (ofEntry e).render = some e :=
  readBack?_render e.1 e.2

theorem render_ofEntry_injective : Function.Injective fun e => (ofEntry e).render := by
  intro e e' h
  have hread := congrArg readBack? h
  dsimp only at hread
  rw [readBack?_render_ofEntry, readBack?_render_ofEntry] at hread
  exact Option.some.inj hread

end LogItem

namespace Log

/-- What can happen to a log. -/
inductive Event
  | message (severity : Severity) (text : String)
  | clear
deriving DecidableEq, Repr

def after (log : Log) : Event → Log
  | .message severity text => log.add severity text
  | .clear => []

def run (log : Log) (events : List Event) : Log := events.foldl after log

def Event.entry? : Event → Option (Severity × String)
  | .message severity text => some (severity, text)
  | .clear => none

/-- What was logged since the log was last cleared, in order. -/
def standing (events : List Event) : List (Severity × String) :=
  (events.rtakeWhile (· ≠ .clear)).filterMap Event.entry?

theorem run_concat (log : Log) (events : List Event) (e : Event) :
    run log (events ++ [e]) = (run log events).after e := List.foldl_concat ..

theorem standing_concat_message (events : List Event) (severity : Severity) (text : String) :
    standing (events ++ [.message severity text]) = standing events ++ [(severity, text)] := by
  unfold standing
  rw [List.rtakeWhile_concat_pos _ _ _ (by simp), List.filterMap_append]
  rfl

theorem standing_concat_clear (events : List Event) : standing (events ++ [.clear]) = [] := by
  unfold standing
  rw [List.rtakeWhile_concat_neg _ _ _ (by simp)]
  rfl

theorem after_standing (events : List Event) (e : Event) :
    after ((standing events).map LogItem.ofEntry) e = (standing (events ++ [e])).map LogItem.ofEntry := by
  cases e with
  | message severity text =>
    rw [standing_concat_message, List.map_append]
    rfl
  | clear =>
    rw [standing_concat_clear]
    rfl

theorem run_eq_standing (events : List Event) :
    run [] events = (standing events).map LogItem.ofEntry := by
  -- From the last event back, since a clearing does away with all before it.
  induction events using List.reverseRecOn with
  | nil => rfl
  | append_singleton events e ih => rw [run_concat, ih, after_standing]

theorem messages_map_ofEntry (severity : Severity) (entries : List (Severity × String)) :
    messages severity (entries.map LogItem.ofEntry) =
      (entries.filter fun e => e.1 == severity).map Prod.snd := by
  unfold messages
  rw [List.filter_map, List.map_map]
  refine List.map_congr_left ?_
  intro e he
  exact LogItem.message_ofMessage e.1 e.2

theorem readBack?_map_ofEntry (entries : List (Severity × String)) :
    (render (entries.map LogItem.ofEntry)).map LogItem.readBack? = entries.map some := by
  unfold render
  simp only [List.map_map, Function.comp_def, LogItem.readBack?_render_ofEntry]

/-- A log gives back, by severity and in order, just the messages that were logged since it was last cleared, word
for word, and the view of its items alone gives back the same with their severities. Every view that is read back
is that of an item, and no two items are shown alike. -/
theorem keeps_messages :
    (∀ events severity, messages severity (run [] events) =
      ((standing events).filter fun e => e.1 == severity).map Prod.snd) ∧
    (∀ events, (run [] events).render.map LogItem.readBack? = (standing events).map some) ∧
    (∀ view severity message, LogItem.readBack? view = some (severity, message) ↔
      (LogItem.ofMessage severity message).render = view) ∧
    Function.Injective fun e => (LogItem.ofEntry e).render := by
  refine ⟨?_, ?_, ?_, LogItem.render_ofEntry_injective⟩
  · intro events severity
    rw [run_eq_standing, messages_map_ofEntry]
  · intro events
    rw [run_eq_standing, readBack?_map_ofEntry]
  · intro view severity message
    exact LogItem.readBack?_eq_some_iff

end Log
end Schematic
