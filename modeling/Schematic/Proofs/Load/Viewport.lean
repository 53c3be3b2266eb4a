import Schematic.Proofs.Load.Passage
import Schematic.Proofs.Load.Stages

/-! The viewport of a load. One check reads it, after the canvas has been checked and before the components are, so
that a load falls into a part before the terminal is looked at and one behind. Main statement: a viewport that the
canvas and its frame fit into changes nothing, one that they do not fit into stops every load that gets so far. -/
namespace Schematic
open Schematic.Files

/-- A schematic, sized and lettered, whose canvas has an extent. -/
structure Outline where
  library : Library
  canvas : Canvas
  components : List Component

/-- A load up to the check of the bounds, which comes last. -/
def outline (files : Tree) (input : Source.Input) (options : LoadOptions)
    (library? : Option Library) : Loader Outline := do
  let cs ← Loader.ofExcept (input.read files)
  Loader.log .debug ("parsed " ++ toString cs.length ++ " objects")
  let canvas ← Loader.ofExcept (soleCanvas cs)
  let library ← Loader.ofExcept (chosenLibrary files options library?)
  let sized ← Stage.size.run ⟨library.template files, canvas, none⟩ cs
  let lettered ← Stage.letter.run ⟨library.template files, canvas, none⟩ sized
  Loader.ofExcept canvas.checkBounds
  pure ⟨library, canvas, lettered⟩

/-- Without a viewport every canvas fits. -/
def Canvas.checkTerminal (canvas : Canvas) (viewport : Option Vec) : Except Failure Unit :=
  viewport.elim (.ok ()) canvas.checkViewport

/-- The rest of a load, from the checks of the components on. -/
def Outline.complete (o : Outline) (files : Tree) : Loader Project := do
  let x : StageContext := ⟨o.library.template files, o.canvas, none⟩
  Loader.ofExcept (checkEach o.canvas.bounds o.components)
  Loader.ofExcept (checkOverlaps o.components)
  Loader.log .debug ("validated " ++ toString o.components.length ++ " objects")
  let flat ← Stage.expand.run x o.components
  let resolved ← Stage.resolve.run x flat
  Loader.log .info ("loaded " ++ toString resolved.length ++ " objects on a " ++
    o.canvas.bounds.describeExtent ++ " canvas")
  pure ⟨o.canvas, resolved⟩

/-- What a load answers when it has come to an end. -/
def LoadResult.ofEnd (mode : ErrorMode) : EStateM.Result Failure LoadState Project → LoadResult
  | .ok p s => ⟨.ok (some p), s.log, s.warnings⟩
  | .error (.fault f) s => ⟨.error (.fault f), s.log, s.warnings⟩
  | .error (.diagnostic d) s =>
    ⟨match mode with
      | .raise => .error (.diagnostic d)
      | .store => .ok none,
      s.log.add .error d.message, s.warnings⟩

theorem LoadResult.project_ofEnd_iff {mode : ErrorMode}
    {r : EStateM.Result Failure LoadState Project} {p : Project} :
    (ofEnd mode r).project = .ok (some p) ↔ ∃ s, r = .ok p s := by
  cases r with
  | ok p' s => simp [ofEnd]
  | error e s =>
    cases e with
    | fault f => simp [ofEnd]
    | diagnostic d => cases mode <;> simp [ofEnd]

theorem validate_eq_checks (cs : List Component) (canvas : Canvas) (viewport : Option Vec) :
    validate cs canvas viewport = (do
      canvas.checkBounds
      canvas.checkTerminal viewport
      checkEach canvas.bounds cs
      checkOverlaps cs) := by
  cases viewport <;> rfl

section Load

variable (files : Tree) (input : Source.Input) (options : LoadOptions) (library? : Option Library)
  (log : Log)

theorem Loader.ofExcept_bind {α β : Type} (x : Except Failure α) (f : α → Except Failure β) :
    ofExcept (x >>= f) = ofExcept x >>= fun a => ofExcept (f a) := by
  cases x <;> rfl

theorem load_eq_ofEnd : load files input options library? log =
    .ofEnd options.errorMode (assemble files input options library? { log }) := by
  unfold load
  cases assemble files input options library? { log } with
  | ok p s => rfl
  | error e s => cases e <;> rfl

/-- The viewport is looked at between the two parts of a load, and nowhere else. -/
theorem assemble_eq_outline : assemble files input options library? = (do
    let o ← outline files input options library?
    Loader.ofExcept (o.canvas.checkTerminal options.viewport)
    o.complete files) := by
  have hstages : ∀ (x : StageContext) (cs : List Component), Stage.runAll x Stage.inOrder cs = (do
      let sized ← Stage.size.run ⟨x.read, x.canvas, none⟩ cs
      let lettered ← Stage.letter.run ⟨x.read, x.canvas, none⟩ sized
      let valid ← Stage.validate.run x lettered
      let flat ← Stage.expand.run ⟨x.read, x.canvas, none⟩ valid
      Stage.resolve.run ⟨x.read, x.canvas, none⟩ flat) := by
    intro x cs
    simp only [Stage.inOrder, Stage.runAll, bind_pure]
    rfl
  rw [assemble_eq]
  unfold outline Outline.complete
  simp only [hstages, Stage.run_validate, validate_eq_checks, Loader.ofExcept_bind, bind_assoc,
    pure_bind]

variable {files input options library? log} {viewport : Option Vec} {o : Outline} {p : Project}
  {s : LoadState} {e : Failure}

theorem Outline.bounds_of_complete {mode : ErrorMode}
    (h : (LoadResult.ofEnd mode (o.complete files s)).project = .ok (some p)) :
    p.bounds = o.canvas.bounds := by
  obtain ⟨_, h⟩ := LoadResult.project_ofEnd_iff.mp h
  unfold complete at h
  obtain ⟨_, _, -, h⟩ := bind_eq_ok_iff.mp h
  obtain ⟨_, _, -, h⟩ := bind_eq_ok_iff.mp h
  obtain ⟨_, _, -, h⟩ := bind_eq_ok_iff.mp h
  obtain ⟨flat, _, -, h⟩ := bind_eq_ok_iff.mp h
  obtain ⟨resolved, _, -, h⟩ := bind_eq_ok_iff.mp h
  obtain ⟨_, _, -, h⟩ := bind_eq_ok_iff.mp h
  obtain ⟨rfl, -⟩ := Loader.pure_eq_ok.mp h
  rfl

/-- A load that fails before the terminal is looked at fails on every terminal. -/
theorem load_of_outline_eq_error (h : outline files input options library? { log } = .error e s)
    (viewport : Option Vec) : load files input { options with viewport } library? log =
      .ofEnd options.errorMode (.error e s) := by
  have hend : assemble files input { options with viewport } library? { log } = .error e s := by
    rw [assemble_eq_outline]
    exact bind_eq_error.mpr (.inl h)
  rw [load_eq_ofEnd, hend]

theorem load_of_outline_eq_ok (h : outline files input options library? { log } = .ok o s)
    (hterminal : o.canvas.checkTerminal viewport = .ok ()) :
    load files input { options with viewport } library? log =
      .ofEnd options.errorMode (o.complete files s) := by
  have hend : assemble files input { options with viewport } library? { log } =
      o.complete files s := by
    rw [assemble_eq_outline]
    change (outline files input options library? >>= _) { log } = _
    simp only [bind, EStateM.bind, h, hterminal]
    rfl
  rw [load_eq_ofEnd, hend]

theorem load_of_checkTerminal_eq_error
    (h : outline files input options library? { log } = .ok o s)
    (hterminal : o.canvas.checkTerminal viewport = .error e) :
    load files input { options with viewport } library? log =
      .ofEnd options.errorMode (.error e s) := by
  have hend : assemble files input { options with viewport } library? { log } = .error e s := by
    rw [assemble_eq_outline]
    refine bind_eq_error.mpr (.inr ⟨o, s, h, bind_eq_error.mpr (.inl ?_)⟩)
    rw [hterminal]
    rfl
  rw [load_eq_ofEnd, hend]

end Load

/-- A load with a viewport succeeds where it does without one and the viewport holds the canvas and its frame, with
the same project, log and warnings. Where it fails up to the check of the bounds, it fails alike with and without a
viewport, and where it gets further, it fails by a viewport that is too small. -/
theorem viewport_gates (files : Tree) (input : Source.Input) (options : LoadOptions)
    (library? : Option Library) (log : Log) (v : Vec) :
    (∀ p, (load files input { options with viewport := some v } library? log).project = .ok (some p) ↔
      (load files input { options with viewport := none } library? log).project = .ok (some p) ∧
        p.bounds.x + border ≤ v.x ∧ p.bounds.y + border ≤ v.y) ∧
    (∀ p, (load files input { options with viewport := some v } library? log).project = .ok (some p) →
      load files input { options with viewport := some v } library? log =
        load files input { options with viewport := none } library? log) ∧
    (∀ e s, outline files input options library? { log } = .error e s →
      load files input { options with viewport := none } library? log =
        .ofEnd options.errorMode (.error e s) ∧
      load files input { options with viewport := some v } library? log =
        .ofEnd options.errorMode (.error e s)) ∧
    ∀ o s, outline files input options library? { log } = .ok o s →
      ¬(o.canvas.bounds.x + border ≤ v.x ∧ o.canvas.bounds.y + border ≤ v.y) →
      load files input { options with viewport := some v } library? log = .ofEnd options.errorMode
        (.error (Cause.terminalTooSmall (o.canvas.bounds + ⟨border, border⟩) v) s) := by
  cases h : outline files input options library? { log } with
  | error e s =>
    have hends := load_of_outline_eq_error h
    refine ⟨fun p => ?_, fun p _ => ?_, ?_, ?_⟩
    · rw [hends, hends, LoadResult.project_ofEnd_iff]
      simp
    · rw [hends, hends]
    · rintro _ _ ⟨⟩
      exact ⟨hends none, hends (some v)⟩
    · rintro _ _ ⟨⟩
  | ok o s =>
    have hbare : load files input { options with viewport := none } library? log =
        .ofEnd options.errorMode (o.complete files s) := load_of_outline_eq_ok h rfl
    by_cases hfits : o.canvas.bounds.x + border ≤ v.x ∧ o.canvas.bounds.y + border ≤ v.y
    · have hshown : load files input { options with viewport := some v } library? log =
          .ofEnd options.errorMode (o.complete files s) :=
        load_of_outline_eq_ok h (Canvas.checkViewport_eq.trans (if_pos hfits))
      rw [hbare, hshown]
      refine ⟨fun p => ⟨fun hp => ⟨hp, ?_⟩, And.left⟩, fun _ _ => rfl, ?_, ?_⟩
      · rw [Outline.bounds_of_complete hp]
        exact hfits
      · rintro _ _ ⟨⟩
      · rintro _ _ ⟨⟩ hnot
        exact absurd hfits hnot
    · have hshown : load files input { options with viewport := some v } library? log =
          .ofEnd options.errorMode
            (.error (Cause.terminalTooSmall (o.canvas.bounds + ⟨border, border⟩) v) s) :=
        load_of_checkTerminal_eq_error h (Canvas.checkViewport_eq.trans (if_neg hfits))
      have hnone : ∀ p, (load files input { options with viewport := some v } library? log).project ≠
          .ok (some p) := by
        intro p hp
        rw [hshown] at hp
        obtain ⟨_, ⟨⟩⟩ := LoadResult.project_ofEnd_iff.mp hp
      refine ⟨fun p => ⟨fun hp => absurd hp (hnone p), ?_⟩, fun p hp => absurd hp (hnone p), ?_, ?_⟩
      · rintro ⟨hp, hsmall⟩
        rw [hbare] at hp
        rw [Outline.bounds_of_complete hp] at hsmall
        exact absurd hsmall hfits
      · rintro _ _ ⟨⟩
      · rintro _ _ ⟨⟩ -
        exact hshown

/-- A canvas without rows. -/
def rowless : Source.Input := .text ":meta bounds 4 0\n"

theorem viewport_gates_buffers :
    load .fresh buffers { viewport := some ⟨6, 7⟩ } none [] = load .fresh buffers {} none [] ∧
    (∃ s, load .fresh buffers { viewport := some ⟨6, 6⟩ } none [] =
      .ofEnd .raise (.error (Cause.terminalTooSmall ⟨6, 7⟩ ⟨6, 6⟩) s)) ∧
    ∃ e s, load .fresh rowless {} none [] = .ofEnd .raise (.error e s) ∧
      load .fresh rowless { viewport := some ⟨6, 7⟩ } none [] = .ofEnd .raise (.error e s) := by
  have hgates := viewport_gates .fresh buffers {} none []
  refine ⟨?_, ?_, ?_⟩
  · have hshown := ((hgates ⟨6, 7⟩).1 bufferProject).mpr ⟨load_buffers.1, by decide⟩
    exact (hgates ⟨6, 7⟩).2.1 bufferProject hshown
  · cases h : outline .fresh buffers {} none {} with
    | error e s =>
      have hbare := congrArg LoadResult.project (load_of_outline_eq_error h none)
      obtain ⟨_, ⟨⟩⟩ := LoadResult.project_ofEnd_iff.mp (hbare.symm.trans load_buffers.1)
    | ok o s =>
      have hterminal : o.canvas.checkTerminal none = .ok () := rfl
      have hbare := congrArg LoadResult.project (load_of_outline_eq_ok h hterminal)
      have hsmall := (hgates ⟨6, 6⟩).2.2.2 o s h
      rw [← Outline.bounds_of_complete (hbare.symm.trans load_buffers.1)] at hsmall
      exact ⟨s, hsmall (by decide)⟩
  · have hfails : (match outline .fresh rowless {} none {} with
        | .ok _ _ => false
        | .error _ _ => true) = true := by decide +kernel
    cases h : outline .fresh rowless {} none {} with
    | ok o s =>
      rw [h] at hfails
      cases hfails
    | error e s => exact ⟨e, s, (viewport_gates .fresh rowless {} none [] ⟨6, 7⟩).2.2.1 e s h⟩

end Schematic
