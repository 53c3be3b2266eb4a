import Schematic.Proofs.Load.Acceptance

/-! Texts with further lines behind them. Letters, ordinals and templates depend on what stands before, and
never on what follows. Main statement: the components of a loaded text stay the first ones when lines are
appended, apart from the voltages of pins. -/
namespace Schematic
open Schematic.Files

/-- The canvas is found already in the part that has one. -/
theorem soleCanvas_append {cs ds : List Component} {c d : Canvas} (h : soleCanvas cs = .ok c)
    (happend : soleCanvas (cs ++ ds) = .ok d) : c = d := by
  rw [soleCanvas_eq_ok_iff] at h happend
  rw [List.filterMap_append, h, List.singleton_append] at happend
  exact (List.cons.inj happend).1

section Appending

variable {files : Tree} {options : LoadOptions} {library? : Option Library} {log log' : Log}
  {a b : String} {p q : Project}

namespace Passage

variable (t : Passage files (.text a) options library? p)
  (u : Passage files (.text (a ++ "\n" ++ b)) options library? q)
include t u

theorem exists_source_append : ∃ more, u.source = t.source ++ more := by
  have hread := u.read_eq
  change Source.readText none (a ++ "\n" ++ b) = .ok u.source at hread
  rw [Source.readText, Text.lines_append, Source.readLines_append_eq_ok] at hread
  obtain ⟨front, back, hfront, -, hsource⟩ := hread
  have hsame : front = t.source := Except.ok.inj (hfront.symm.trans t.read_eq)
  exact ⟨back, hsource.trans (congrArg (· ++ back) hsame)⟩

theorem canvas_append : p.canvas = q.canvas := by
  obtain ⟨more, hsource⟩ := t.exists_source_append u
  have hcanvas := u.canvas_eq
  rw [hsource] at hcanvas
  exact soleCanvas_append t.canvas_eq hcanvas

theorem library_append : t.library = u.library :=
  Except.ok.inj (t.library_eq.symm.trans u.library_eq)

theorem exists_sized_append : ∃ more, u.sized = t.sized ++ more := by
  obtain ⟨more, hsource⟩ := t.exists_source_append u
  rw [u.sized_eq_map, t.sized_eq_map, hsource, List.map_append, t.library_append u, t.canvas_append u]
  exact ⟨_, rfl⟩

/-- A wire is lettered by the wires before it. -/
theorem exists_lettered_append : ∃ more, u.lettered = t.lettered ++ more := by
  obtain ⟨more, hsized⟩ := t.exists_sized_append u
  obtain ⟨seen, hwhole, -⟩ := letterAll_eq_ok_iff.mp u.letter_eq
  obtain ⟨seen', hpart, -⟩ := letterAll_eq_ok_iff.mp t.letter_eq
  rw [hsized, sweep_append_eq] at hwhole
  obtain ⟨front, seen₁, back, hfront, -, hlettered⟩ := hwhole
  rw [hpart, Sweep.mk.injEq] at hfront
  exact ⟨back, by rw [hlettered, ← hfront.1]⟩

/-- A chip is numbered by the chips before it. -/
theorem flat_kept : t.flat <+: u.flat := by
  obtain ⟨more, hlettered⟩ := t.exists_lettered_append u
  rw [t.flat_eq_flatten, u.flat_eq_flatten, hlettered, blocks, blocks, blocksFrom_append,
    List.flatten_append, t.library_append u]
  exact List.prefix_append _ _

theorem components_kept :
    p.components.map Component.unpowered <+: q.components.map Component.unpowered := by
  rw [t.resolves.map_unpowered, u.resolves.map_unpowered]
  exact (t.flat_kept u).map Component.unpowered

end Passage

/-- If a text loads with and without further lines behind it, its components are the first ones of both
projects, on the same canvas, and are equal but for the voltages of pins. -/
theorem load_append_keeps
    (hp : (load files (.text a) options library? log).project = .ok (some p))
    (hq : (load files (.text (a ++ "\n" ++ b)) options library? log').project = .ok (some q)) :
    p.canvas = q.canvas ∧
      p.components.map Component.unpowered <+: q.components.map Component.unpowered := by
  obtain ⟨t, -⟩ := exists_passage hp
  obtain ⟨u, -⟩ := exists_passage hq
  exact ⟨t.canvas_append u, t.components_kept u⟩

end Appending

/-- The first lines of `buffersText`, which declare its first chip. -/
def buffersFront : String := String.join [
  ":meta bounds 4 5\n",
  ":net type vcc y 0\n",
  ":chip type gates/buf pos 1 1"]

/-- The lines of `buffersText` behind them. They wire the first chip. -/
def buffersBack : String := String.join [
  ":wire color red from 1 3 to 3 0\n",
  ":chip type gates/buf pos 2 1\n"]

def frontProject : Project where
  canvas := ⟨⟨4, 5⟩, some ⟨1, none⟩⟩
  components := [
      .canvas ⟨⟨4, 5⟩, some ⟨1, none⟩⟩,
      .net ⟨"vcc", ⟨⟨0, 0⟩, ⟨4, 1⟩⟩, some ⟨2, none⟩⟩] ++
    bufferPins "_buf_1" 1 3 .floating .low

theorem load_append_keeps_buffers :
    (load .fresh (.text buffersFront) {} none []).project = .ok (some frontProject) ∧
      (load .fresh (.text (buffersFront ++ "\n" ++ buffersBack)) {} none []).project =
        .ok (some bufferProject) ∧
      frontProject.components.map Component.unpowered <+:
        bufferProject.components.map Component.unpowered := by
  have hfront : (load .fresh (.text buffersFront) {} none []).project = .ok (some frontProject) := by
    decide +kernel
  have hwhole : (load .fresh (.text (buffersFront ++ "\n" ++ buffersBack)) {} none []).project =
      .ok (some bufferProject) := by
    have htext : buffersFront ++ "\n" ++ buffersBack = buffersText := by decide +kernel
    rw [htext]
    exact load_buffers.1
  exact ⟨hfront, hwhole, (load_append_keeps hfront hwhole).2⟩

end Schematic
