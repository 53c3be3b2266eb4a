import Mathlib.Data.List.Forall2
import Schematic.Proofs.Source.Diagnosis
import Schematic.Proofs.Source.Lines

/-! Texts one behind the other. A line is read by itself, and of the lines before it only their number shows.
Main statement: two texts are read as one after the other, up to the first line that cannot be read, and what the
second one gives comes with greater line numbers. -/
namespace Schematic

/-- The failure, `k` lines further on. -/
def Failure.shifted (k : Int) : Failure → Failure
  | .diagnostic d => .diagnostic { d with line := d.line.map (· + k) }
  | .fault f => .fault f

/-- The component, `k` lines further on. -/
def Component.shifted (k : Int) (c : Component) : Component :=
  match c.origin? with
  | some o => c.withOrigin { o with line := o.line + k }
  | none => c

theorem Component.shifted_withOrigin (k n : Int) (path : Option String) (c : Component) :
    (c.withOrigin ⟨n, path⟩).shifted k = c.withOrigin ⟨n + k, path⟩ := by
  cases c <;> rfl

namespace Text

theorem length_splitOn (sep : Char) (cs : List Char) :
    (cs.splitOn sep).length = cs.count sep + 1 := by
  induction cs with
  | nil => rfl
  | cons c cs ih =>
    by_cases hc : c = sep
    · rw [hc, splitOn_cons_self, List.length_cons, ih, List.count_cons_self]
    · obtain ⟨p, ps, hsplit, hcons⟩ := splitOn_cons_of_ne hc cs
      rw [hcons, List.count_cons_of_ne hc, ← ih, hsplit, List.length_cons, List.length_cons]

theorem length_lines (s : String) : (lines s).length = s.toList.count '\n' + 1 := by
  rw [lines, List.length_map, length_splitOn]

end Text

namespace Source

variable {path : Option String} {n : Int} {lines : List String}

/-- The numbers of all lines are greater by as much as that of the first one. -/
theorem readLines_shifted (path : Option String) (n k : Int) (lines : List String) :
    readLines path (n + k) lines = match readLines path n lines with
      | .ok cs => .ok (cs.map (Component.shifted k))
      | .error e => .error (e.shifted k) := by
  induction lines generalizing n with
  | nil => rfl
  | cons line lines ih =>
    have hnext : n + k + 1 = n + 1 + k := by omega
    rw [readLines, readLines, hnext]
    cases hline : readLine line with
    | error e =>
      obtain ⟨c, rfl⟩ := exists_cause_of_readLine hline
      rfl
    | ok c? =>
      cases c? with
      | none => exact ih (n + 1)
      | some c =>
        dsimp only
        rw [ih]
        cases readLines path (n + 1) lines with
        | error e => rfl
        | ok cs =>
          dsimp only
          rw [List.map_cons, Component.shifted_withOrigin]

/-- The first line is to blame, or it can be read and one of the others is. -/
theorem readLines_cons_eq_error {line : String} {e : Failure} :
    readLines path n (line :: lines) = .error e ↔
      (∃ c : Cause, readLine line = .error c ∧ e = .diagnostic ⟨c, some n⟩) ∨
      (Readable line ∧ readLines path (n + 1) lines = .error e) := by
  rw [readLines, Readable]
  cases hline : readLine line with
  | error e' =>
    obtain ⟨c, rfl⟩ := exists_cause_of_readLine hline
    simp [Failure.atLine, Diagnostic.atLine, eq_comm]
  | ok c? =>
    cases c? with
    | none => simp
    | some c => cases readLines path (n + 1) lines <;> simp

/-- Reading fails at the first line that cannot be read, under the number of that line. -/
theorem readLines_eq_error_iff {e : Failure} : readLines path n lines = .error e ↔
    ∃ (i : Nat) (line : String) (c : Cause), lines[i]? = some line ∧
      (∀ l ∈ lines.take i, Readable l) ∧ readLine line = .error c ∧
      e = .diagnostic ⟨c, some (n + i)⟩ := by
  induction lines generalizing n with
  | nil => simp [readLines]
  | cons line lines ih =>
    have hnumber : ∀ i : Nat, n + ((i + 1 : Nat) : Int) = n + 1 + i := fun i => by omega
    rw [readLines_cons_eq_error, ih]
    constructor
    · rintro (⟨c, hline, rfl⟩ | ⟨hline, i, bad, c, hi, hbefore, hbad, rfl⟩)
      · exact ⟨0, line, c, rfl, by simp, hline, by simp⟩
      · refine ⟨i + 1, bad, c, hi, ?_, hbad, by rw [hnumber]⟩
        exact List.forall_mem_cons.mpr ⟨hline, hbefore⟩
    · rintro ⟨i, bad, c, hi, hbefore, hbad, rfl⟩
      cases i with
      | zero =>
        obtain rfl : line = bad := Option.some.inj hi
        exact .inl ⟨c, hbad, by simp⟩
      | succ i =>
        obtain ⟨hline, hbefore⟩ := List.forall_mem_cons.mp hbefore
        exact .inr ⟨hline, i, bad, c, hi, hbefore, hbad, by rw [hnumber]⟩

/-- Each written line gives a component, with the number of the line. -/
theorem map_origin?_of_readText {text : String} {cs : List Component}
    (h : readText path text = .ok cs) :
    cs.map Component.origin? = (writtenAt text).map fun e => some ⟨e.2, path⟩ := by
  have hstands : List.Forall₂ (StandsAt path) (writtenAt text) cs := standsAt_of_readLines h
  rw [← List.forall₂_eq_eq_eq, List.forall₂_map_left_iff, List.forall₂_map_right_iff]
  refine hstands.flip.imp fun c e hc => ?_
  obtain ⟨d, hline, rfl⟩ := hc
  exact origin?_withOrigin (declared_of_readLine hline) _

/-- The second of two texts is read by itself, and then placed behind the first. -/
theorem readText_append (path : Option String) (a b : String) : readText path (a ++ "\n" ++ b) = (do
    let front ← readText path a
    match readText path b with
    | .ok back => .ok (front ++ back.map (Component.shifted (1 + a.toList.count '\n')))
    | .error e => .error (e.shifted (1 + a.toList.count '\n'))) := by
  have hlength : (1 : Int) + ((Text.lines a).length : Int) = 1 + (1 + a.toList.count '\n') := by
    rw [Text.length_lines]
    omega
  rw [readText, Text.lines_append, readLines_append, hlength, readLines_shifted]
  unfold readText
  cases readLines path 1 (Text.lines a) with
  | error e => rfl
  | ok front => cases readLines path 1 (Text.lines b) <;> rfl

end Source

/-- Texts are read line by line: the second of two texts is read behind the first, with greater line numbers, unless
the first one cannot be read. The first line that cannot be read is the one that is reported, and in it a word that is
not recognized comes before all else. What is read comes from the written lines in order. -/
theorem readText_line_by_line (path : Option String) :
    (∀ a b : String,
      (∀ e, Source.readText path a = .error e → Source.readText path (a ++ "\n" ++ b) = .error e) ∧
      ∀ cs, Source.readText path a = .ok cs → Source.readText path (a ++ "\n" ++ b) =
        match Source.readText path b with
        | .ok ds => .ok (cs ++ ds.map (Component.shifted (1 + a.toList.count '\n')))
        | .error e => .error (e.shifted (1 + a.toList.count '\n'))) ∧
    (∀ (text : String) (e : Failure), Source.readText path text = .error e ↔
      ∃ (i : Nat) (line : String) (c : Cause), (Text.lines text)[i]? = some line ∧
        (∀ l ∈ (Text.lines text).take i, Source.Readable l) ∧ Source.readLine line = .error c ∧
        e = .diagnostic ⟨c, some (1 + i)⟩) ∧
    (∀ line : String, Reported .lexical (Source.tokens line) ∧
      (∀ e, Source.tokens line = .error e → Source.readLine line = .error e) ∧
      ∀ ts, Source.tokens line = .ok ts → Reported .syntactic (Source.readLine line)) ∧
    ∀ (text : String) (cs : List Component), Source.readText path text = .ok cs →
      cs.map Component.origin? = (Source.writtenAt text).map (fun e => some ⟨e.2, path⟩) ∧
      (Source.writtenAt text).Pairwise fun d e => d.2 < e.2 := by
  refine ⟨fun a b => ⟨fun e h => ?_, fun cs h => ?_⟩, fun text e => Source.readLines_eq_error_iff,
    fun line => ⟨Source.reported_tokenize _, fun e h => Source.readLine_of_tokens_eq_error h,
      fun ts h => Source.reported_readLine_of_tokens h⟩,
    fun text cs h => ⟨Source.map_origin?_of_readText h, Source.pairwise_writtenAt text⟩⟩
  · rw [Source.readText_append, h]
    rfl
  · rw [Source.readText_append, h]
    rfl

/-- A pin, a line with nothing but a line separator, which does not end it, and a net. -/
def parted : String := ":pin label 'a\n \u2028\n:net type vcc"

/-- A blank line, and one that ends in an unrecognized word, behind a number that is too large. -/
def misspelt : String := "\n:pin num 70000 #"

theorem readText_line_by_line_parted :
    Source.readText none (misspelt ++ "\n" ++ parted) =
      .error (.diagnostic ⟨.unrecognizedToken "#", some 2⟩) ∧
    Source.readText none (parted ++ "\n" ++ misspelt) =
      .error (.diagnostic ⟨.unrecognizedToken "#", some 5⟩) ∧
    Source.readText none (parted ++ "\n" ++ parted) = .ok [
      .pin { label := "a", origin := some ⟨1, none⟩ },
      .net { type := "vcc", origin := some ⟨3, none⟩ },
      .pin { label := "a", origin := some ⟨4, none⟩ },
      .net { type := "vcc", origin := some ⟨6, none⟩ }] := by
  have hparted : Source.readText none parted = .ok [
      .pin { label := "a", origin := some ⟨1, none⟩ },
      .net { type := "vcc", origin := some ⟨3, none⟩ }] := by decide +kernel
  have hmisspelt : Source.readText none misspelt =
      .error (.diagnostic ⟨.unrecognizedToken "#", some 2⟩) := by decide +kernel
  obtain ⟨happend, -⟩ := readText_line_by_line none
  refine ⟨(happend misspelt parted).1 _ hmisspelt, ?_, ?_⟩
  · rw [(happend parted misspelt).2 _ hparted, hmisspelt]
    rfl
  · rw [(happend parted parted).2 _ hparted, hparted]
    rfl

end Schematic
