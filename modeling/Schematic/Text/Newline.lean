/-! Line ends in files: a carriage return, with or without a line feed behind it, ends a line too. -/
namespace Schematic.Text

/-- One step from the right. The flag says whether the character behind `c` is a line feed, which
ends the same line as a carriage return before it. -/
def unifyStep (c : Char) (behind : List Char × Bool) : List Char × Bool :=
  if c = '\r' then (if behind.2 then behind.1 else '\n' :: behind.1, false)
  else (c :: behind.1, c == '\n')

/-- Writes every line end as a line feed. -/
def unifyNewlines (cs : List Char) : List Char :=
  (cs.foldr unifyStep ([], false)).1

theorem unifyNewlines_of_no_return {cs : List Char} (h : '\r' ∉ cs) : unifyNewlines cs = cs := by
  unfold unifyNewlines
  induction cs with
  | nil => rfl
  | cons c cs ih =>
    have hc : c ≠ '\r' := fun e => h (e ▸ List.mem_cons_self)
    rw [List.foldr_cons, unifyStep, if_neg hc, ih (fun hm => h (List.mem_cons_of_mem c hm))]

end Schematic.Text
