import Mathlib.Data.List.Basic
import Mathlib.Tactic.SplitIfs
import Schematic.Text.Blank
import Schematic.Text.Newline

/-! Line ends written as line feeds, from the front. Main statement: a text gets as many line feeds more as it
has carriage returns that no line feed follows. -/
namespace Schematic.Text

variable {c : Char} {cs a b : List Char}

/-- The flag of the walk from the right is about the character behind. -/
theorem foldr_unifyStep_snd (cs : List Char) :
    (cs.foldr unifyStep ([], false)).2 = decide (cs.head? = some '\n') := by
  cases cs with
  | nil => rfl
  | cons c cs =>
    rw [List.foldr_cons, unifyStep, List.head?_cons]
    by_cases hc : c = '\r'
    · rw [if_pos hc, hc]
      rfl
    · rw [if_neg hc]
      simp [Bool.beq_eq_decide_eq]

theorem unifyNewlines_cons_of_ne (hc : c ≠ '\r') (cs : List Char) :
    unifyNewlines (c :: cs) = c :: unifyNewlines cs := by
  rw [unifyNewlines, List.foldr_cons, unifyStep, if_neg hc]
  rfl

theorem unifyNewlines_return (h : cs.head? = some '\n') :
    unifyNewlines ('\r' :: cs) = unifyNewlines cs := by
  have hflag := foldr_unifyStep_snd cs
  rw [unifyNewlines, List.foldr_cons, unifyStep, if_pos rfl, hflag, h]
  rfl

theorem unifyNewlines_lone_return (h : cs.head? ≠ some '\n') :
    unifyNewlines ('\r' :: cs) = '\n' :: unifyNewlines cs := by
  have hflag := foldr_unifyStep_snd cs
  rw [unifyNewlines, List.foldr_cons, unifyStep, if_pos rfl, hflag]
  simp only [h, decide_false, Bool.false_eq_true, if_false]
  rfl

/-- The carriage returns that no line feed follows. -/
def loneReturns : List Char → Nat
  | [] => 0
  | c :: cs => loneReturns cs + if c = '\r' ∧ cs.head? ≠ some '\n' then 1 else 0

theorem count_unifyNewlines (cs : List Char) :
    (unifyNewlines cs).count '\n' = cs.count '\n' + loneReturns cs := by
  induction cs with
  | nil => rfl
  | cons c cs ih =>
    by_cases hc : c = '\r'
    · have hcount : (c :: cs).count '\n' = cs.count '\n' := by simp [hc]
      rw [hcount, loneReturns, hc]
      by_cases hn : cs.head? = some '\n'
      · rw [unifyNewlines_return hn, ih]
        simp [hn]
      · rw [unifyNewlines_lone_return hn, List.count_cons_self, ih, if_pos ⟨rfl, hn⟩]
        omega
    · rw [unifyNewlines_cons_of_ne hc, List.count_cons, List.count_cons, ih, loneReturns]
      simp only [hc, false_and, if_false]
      omega

theorem mem_of_mem_unifyNewlines {d : Char} (h : d ∈ unifyNewlines cs) : d ∈ cs ∨ d = '\n' := by
  induction cs with
  | nil => cases h
  | cons c cs ih =>
    have hcons : d ∈ cs ∨ d = '\n' → d ∈ c :: cs ∨ d = '\n' :=
      Or.imp_left (List.mem_cons_of_mem c)
    by_cases hc : c = '\r'
    · subst hc
      by_cases hn : cs.head? = some '\n'
      · rw [unifyNewlines_return hn] at h
        exact hcons (ih h)
      · rw [unifyNewlines_lone_return hn] at h
        rcases List.mem_cons.mp h with hd | hd
        · exact .inr hd
        · exact hcons (ih hd)
    · rw [unifyNewlines_cons_of_ne hc] at h
      rcases List.mem_cons.mp h with hd | hd
      · exact .inl (hd ▸ List.mem_cons_self)
      · exact hcons (ih hd)

theorem blank_unifyNewlines (h : ∀ c ∈ cs, isBlank c = true) : ∀ c ∈ unifyNewlines cs, isBlank c = true := by
  intro c hc
  obtain hc | rfl := mem_of_mem_unifyNewlines hc
  · exact h c hc
  · rfl

/-- What stands before a written character has no part in the line ends behind it. -/
theorem unifyNewlines_append (hc : isBlank c = false) (a b : List Char) :
    unifyNewlines (a ++ c :: b) = unifyNewlines a ++ c :: unifyNewlines b := by
  have hfeed : c ≠ '\n' := by
    rintro rfl
    cases hc
  have hreturn : c ≠ '\r' := by
    rintro rfl
    cases hc
  induction a with
  | nil => exact unifyNewlines_cons_of_ne hreturn b
  | cons d a ih =>
    have hhead : (a ++ c :: b).head? = some '\n' ↔ a.head? = some '\n' := by
      cases a with
      | nil => simp [hfeed]
      | cons e a => exact Iff.rfl
    rw [List.cons_append]
    by_cases hd : d = '\r'
    · subst hd
      by_cases hn : a.head? = some '\n'
      · rw [unifyNewlines_return hn, unifyNewlines_return (hhead.mpr hn), ih]
      · rw [unifyNewlines_lone_return hn, unifyNewlines_lone_return (mt hhead.mp hn), ih,
          List.cons_append]
    · rw [unifyNewlines_cons_of_ne hd, unifyNewlines_cons_of_ne hd, ih, List.cons_append]

/-- Behind a carriage return that no line feed follows, nothing is written. -/
def ReturnsSettled : List Char → Prop
  | [] => True
  | c :: cs => (c = '\r' → cs.head? = some '\n' ∨ cs.all isBlank = true) ∧ ReturnsSettled cs

instance ReturnsSettled.decidable : (cs : List Char) → Decidable (ReturnsSettled cs)
  | [] => isTrue trivial
  | _ :: cs =>
    have := ReturnsSettled.decidable cs
    inferInstanceAs (Decidable (_ ∧ _))

theorem returnsSettled_of_blank (h : ∀ c ∈ cs, isBlank c = true) : ReturnsSettled cs := by
  induction cs with
  | nil => trivial
  | cons c cs ih =>
    obtain ⟨-, hcs⟩ := List.forall_mem_cons.mp h
    exact ⟨fun _ => .inr (List.all_eq_true.mpr hcs), ih hcs⟩

theorem returnsSettled_append (ha : loneReturns a = 0) (hc : isBlank c = false)
    (hb : ∀ d ∈ b, isBlank d = true) : ReturnsSettled (a ++ c :: b) := by
  induction a with
  | nil =>
    refine ⟨?_, returnsSettled_of_blank hb⟩
    rintro rfl
    cases hc
  | cons d a ih =>
    rw [loneReturns] at ha
    refine ⟨?_, ih (by omega)⟩
    intro hd
    have hhead : a.head? = some '\n' := by
      by_contra hn
      rw [if_pos ⟨hd, hn⟩] at ha
      omega
    refine .inl ?_
    cases a with
    | nil => cases hhead
    | cons e a => exact hhead

/-- A text is blank, or it has a last written character. -/
theorem blank_or_exists_last (cs : List Char) : (∀ d ∈ cs, isBlank d = true) ∨
    ∃ a c b, cs = a ++ c :: b ∧ isBlank c = false ∧ ∀ d ∈ b, isBlank d = true := by
  induction cs with
  | nil => simp
  | cons c cs ih =>
    obtain hcs | ⟨a, d, b, rfl, hd, hb⟩ := ih
    · cases hc : isBlank c with
      | true => exact .inl (List.forall_mem_cons.mpr ⟨hc, hcs⟩)
      | false => exact .inr ⟨[], c, cs, rfl, hc, hcs⟩
    · exact .inr ⟨c :: a, d, b, rfl, hd, hb⟩

end Schematic.Text
