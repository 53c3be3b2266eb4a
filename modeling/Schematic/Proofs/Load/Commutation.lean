import Schematic.Proofs.Load.Lettering
import Schematic.Proofs.Load.Recall

/-! Stages in another order. Sizing, lettering and expansion look at different things, and what one of them changes
the others do not look at. Main statement: any two of them can change places, and none of them changes anything when
it is repeated. -/
namespace Schematic

section Components

variable (f : String → List Pin) (bounds : Vec)

theorem Component.lettered_resize (c : Component) (seen : List Color) :
    (c.resize f bounds).lettered seen = (Component.resize f bounds <$> c.lettered) seen := by
  cases c with
  | wire w =>
    simp only [resize, lettered, Functor.map, EStateM.map]
    cases w.lettered seen <;> rfl
  | canvas | chip | net | pin | foreign => rfl

theorem Component.resize_resize (c : Component) :
    (c.resize f bounds).resize f bounds = c.resize f bounds := by
  cases c <;> rfl

theorem Component.block_resize (seen : List String) (c : Component) :
    (c.resize f bounds).block f seen = (c.block f seen).map (Component.resize f bounds) := by
  cases c with
  | chip c =>
    simp only [resize, block, List.map_map]
    rfl
  | canvas | net | pin | wire | foreign => rfl

theorem blocksFrom_map_resize (seen : List String) (cs : List Component) :
    blocksFrom f seen (cs.map (Component.resize f bounds)) =
      (blocksFrom f seen cs).map (List.map (Component.resize f bounds)) := by
  induction cs generalizing seen with
  | nil => rfl
  | cons c cs ih =>
    rw [List.map_cons, blocksFrom, blocksFrom, Component.block_resize, Component.chipType?_resize, ih,
      List.map_cons]

theorem Component.lettered_again {c d : Component} {seen seen' : List Color}
    (h : c.lettered seen = .ok d seen') : d.lettered seen = .ok d seen' := by
  cases c with
  | wire w =>
    obtain ⟨own, hown⟩ := exists_color_of_lettered h
    by_cases hcount : seen.count own < letters.length
    · rw [lettered_wire_of_lt hown hcount] at h
      cases h
      exact lettered_wire_of_lt hown hcount
    · rw [lettered_wire_of_le hown (Nat.not_lt.mp hcount)] at h
      cases h
  | canvas | chip | net | pin | foreign =>
    cases h
    rfl

/-- The pins of an expanded chip are nothing to lettering. -/
theorem sweep_lettered_pins (ps : List Pin) (cs : List Component) (seen : List Color) :
    sweep Component.lettered (ps.map .pin ++ cs) seen =
      { sweep Component.lettered cs seen with
        items := ps.map .pin ++ (sweep Component.lettered cs seen).items } := by
  induction ps with
  | nil => rfl
  | cons p ps ih =>
    rw [List.map_cons, List.cons_append, sweep]
    simp only [Component.lettered, pure, EStateM.pure]
    rw [ih]
    rfl

theorem sweep_lettered_blocksFrom (types : List String) (cs : List Component) (seen : List Color) :
    sweep Component.lettered (blocksFrom f types cs).flatten seen =
      { sweep Component.lettered cs seen with
        items := (blocksFrom f types (sweep Component.lettered cs seen).items).flatten } := by
  induction cs generalizing types seen with
  | nil => rfl
  | cons c cs ih =>
    cases hc : c.chipType? with
    | none =>
      rw [blocksFrom_cons_of_none hc, List.flatten_cons, List.singleton_append, sweep, sweep]
      cases hd : c.lettered seen with
      | error e seen' =>
        dsimp only
        rw [blocksFrom_cons_of_none hc, List.flatten_cons, List.singleton_append]
      | ok d seen' =>
        have hdtype : d.chipType? = none := by
          rw [← Component.chipType?_unlettered, Component.unlettered_lettered hd,
            Component.chipType?_unlettered, hc]
        dsimp only
        rw [ih, blocksFrom_cons_of_none hdtype, List.flatten_cons, List.singleton_append]
    | some type =>
      cases c <;> cases hc
      next c =>
      rw [blocksFrom, List.flatten_cons, Component.block, sweep_lettered_pins, ih, sweep]
      rfl

theorem chipTypes_flatten_blocks (cs : List Component) : chipTypes (blocks f cs).flatten = [] := by
  refine List.filterMap_eq_nil_iff.mpr fun c hc => ?_
  rcases exists_of_mem_flatten_blocks hc with ⟨-, hnone⟩ | ⟨_, _, _, -, -, rfl⟩
  · exact hnone
  · rfl

theorem flatten_blocksFrom_of_chipTypes {cs : List Component} (h : chipTypes cs = [])
    (seen : List String) : (blocksFrom f seen cs).flatten = cs := by
  induction cs with
  | nil => rfl
  | cons c cs ih =>
    cases hc : c.chipType? with
    | none =>
      rw [chipTypes_cons_of_none hc] at h
      rw [blocksFrom_cons_of_none hc, List.flatten_cons, ih h, List.singleton_append]
    | some type =>
      rw [chipTypes, List.filterMap_cons_some hc] at h
      cases h

end Components

/-- The stages that rewrite a schematic, each of them something else about it. -/
inductive Pass
  | size
  | letter
  | expand
deriving DecidableEq, Repr

namespace Pass

def stage : Pass → Stage
  | size => .size
  | letter => .letter
  | expand => .expand

/-- What a pass asks of a schematic. -/
def Ready (read : TemplateReader) : Pass → List Component → Prop
  | letter, cs => (sweep Component.lettered cs []).failure = none
  | size, cs | expand, cs => Offered read cs

/-- What a pass makes of a schematic. -/
def image (read : TemplateReader) (bounds : Vec) : Pass → List Component → List Component
  | size, cs => cs.map (Component.resize (templateBy read) bounds)
  | letter, cs => (sweep Component.lettered cs []).items
  | expand, cs => (blocks (templateBy read) cs).flatten

variable {x : StageContext} {cs ds : List Component} {s s' : LoadState}

theorem recalling_run (P : Pass) (h : P.stage.run x cs s = .ok ds s') :
    s'.recalling x.read = s.recalling x.read := by
  have happly := Stage.run_eq_ok.mp h
  cases P with
  | size => exact (sizeAll_eq_ok happly).1.recalling_eq
  | letter => exact (letterAll_eq_ok x.read happly).1.recalling_eq
  | expand => exact (expandAll_eq_ok happly).1.recalling_eq

/-- A pass runs on a schematic that it is ready for, and only on such. -/
theorem run_iff (P : Pass) : (∃ s', P.stage.run x cs s = .ok ds s') ↔
    P.Ready (s.recalling x.read) cs ∧ ds = P.image (s.recalling x.read) x.canvas.bounds cs := by
  simp only [Stage.run_eq_ok]
  constructor
  · rintro ⟨s', h⟩
    cases P with
    | size => exact sizeAll_of_offered h
    | expand => exact expandAll_of_offered h
    | letter =>
      obtain ⟨seen, hsweep, -⟩ := letterAll_eq_ok_iff.mp h
      rw [Ready, image, hsweep]
      exact ⟨rfl, rfl⟩
  · rintro ⟨hready, rfl⟩
    cases P with
    | size =>
      obtain ⟨ds, s', h⟩ := exists_sizeAll_of_offered x.canvas hready
      obtain ⟨-, rfl⟩ := sizeAll_of_offered h
      exact ⟨s', h⟩
    | expand =>
      obtain ⟨flat, s', hflat⟩ := exists_expandFrom_of_offered [] hready
      have hall : ∃ s'', expandAll x.read cs s = ⟨flat, s'', none⟩ := by
        unfold expandAll
        rw [hflat]
        exact ⟨_, rfl⟩
      obtain ⟨s'', h⟩ := hall
      obtain ⟨-, rfl⟩ := expandAll_of_offered h
      exact ⟨s'', h⟩
    | letter => exact ⟨_, letterAll_eq_ok_iff.mpr ⟨_, Sweep.eq_of_failure_eq_none hready, rfl⟩⟩

section Images

variable {read : TemplateReader} {bounds : Vec}

/-- One pass does not look at what another one changes. -/
theorem image_comm (P Q : Pass) (cs : List Component) :
    P.image read bounds (Q.image read bounds cs) = Q.image read bounds (P.image read bounds cs) := by
  have hsized : ∀ cs, letter.image read bounds (size.image read bounds cs) =
      size.image read bounds (letter.image read bounds cs) :=
    fun cs => congrArg Sweep.items (sweep_map (Component.lettered_resize _ bounds) cs [])
  have hexpanded : ∀ cs, letter.image read bounds (expand.image read bounds cs) =
      expand.image read bounds (letter.image read bounds cs) :=
    fun cs => congrArg Sweep.items (sweep_lettered_blocksFrom _ [] cs [])
  have hblocks : ∀ cs, expand.image read bounds (size.image read bounds cs) =
      size.image read bounds (expand.image read bounds cs) := by
    intro cs
    rw [image, image, image, image, List.map_flatten]
    exact congrArg List.flatten (blocksFrom_map_resize _ bounds [] cs)
  cases P with
  | size =>
    cases Q with
    | size => rfl
    | letter => exact (hsized cs).symm
    | expand => exact (hblocks cs).symm
  | letter =>
    cases Q with
    | size => exact hsized cs
    | letter => rfl
    | expand => exact hexpanded cs
  | expand =>
    cases Q with
    | size => exact hblocks cs
    | letter => exact (hexpanded cs).symm
    | expand => rfl

theorem sweep_of_ready (bounds : Vec) (h : letter.Ready read cs) : sweep Component.lettered cs [] =
    ⟨letter.image read bounds cs, (sweep Component.lettered cs []).state, none⟩ :=
  Sweep.eq_of_failure_eq_none h

/-- Lettering again gives the letters that there are. -/
theorem sweep_image_of_ready (bounds : Vec) (h : letter.Ready read cs) :
    sweep Component.lettered (letter.image read bounds cs) [] =
      ⟨letter.image read bounds cs, (sweep Component.lettered cs []).state, none⟩ :=
  sweep_again (f := Component.lettered) (fun _ _ _ _ hd => Component.lettered_again hd)
    (sweep_of_ready bounds h)

/-- The chips that a pass leaves are those that there were, or it leaves none and had all their templates. -/
theorem offered_image_iff {Q : Pass} (hQ : Q.Ready read cs) :
    Offered read (Q.image read bounds cs) ↔ Offered read cs := by
  unfold Offered
  cases Q with
  | size => rw [image, chipTypes_map (Component.chipType?_resize _ bounds)]
  | letter =>
    have hletters := map_unlettered_of_sweep (sweep_of_ready bounds hQ)
    rw [← chipTypes_of_map_unlettered_eq hletters]
  | expand =>
    rw [image, chipTypes_flatten_blocks]
    exact iff_of_true (by simp) hQ

/-- A pass leaves a schematic that the others are ready for if they were before. -/
theorem ready_image_iff {Q : Pass} (hQ : Q.Ready read cs) (P : Pass) :
    P.Ready read (Q.image read bounds cs) ↔ P.Ready read cs := by
  cases P with
  | size | expand => exact offered_image_iff hQ
  | letter =>
    show (sweep Component.lettered (Q.image read bounds cs) []).failure = none ↔ _
    cases Q with
    | size =>
      rw [image, sweep_map (Component.lettered_resize _ bounds)]
      exact Iff.rfl
    | expand =>
      rw [image, blocks, sweep_lettered_blocksFrom]
      exact Iff.rfl
    | letter =>
      rw [sweep_image_of_ready bounds hQ]
      exact iff_of_true rfl hQ

/-- A pass leaves nothing for itself to do. -/
theorem image_image {P : Pass} (hP : P.Ready read cs) :
    P.image read bounds (P.image read bounds cs) = P.image read bounds cs := by
  cases P with
  | size =>
    rw [image, image, List.map_map]
    exact List.map_congr_left fun c _ => Component.resize_resize _ bounds c
  | letter =>
    have hagain := congrArg Sweep.items (sweep_image_of_ready bounds hP)
    exact hagain
  | expand => exact flatten_blocksFrom_of_chipTypes _ (chipTypes_flatten_blocks _ cs) []

end Images

/-- Two passes run one after the other on a schematic that both of them are ready for, and only on such. -/
theorem runAll_iff (P Q : Pass) : (∃ s', Stage.runAll x [P.stage, Q.stage] cs s = .ok ds s') ↔
    (P.Ready (s.recalling x.read) cs ∧ Q.Ready (s.recalling x.read) cs) ∧
      ds = Q.image (s.recalling x.read) x.canvas.bounds
        (P.image (s.recalling x.read) x.canvas.bounds cs) := by
  constructor
  · rintro ⟨s', h⟩
    obtain ⟨mid, s₁, hfirst, h⟩ := bind_eq_ok_iff.mp h
    obtain ⟨last, s₂, hsecond, h⟩ := bind_eq_ok_iff.mp h
    obtain ⟨rfl, rfl⟩ := Loader.pure_eq_ok.mp h
    obtain ⟨hP, rfl⟩ := P.run_iff.mp ⟨s₁, hfirst⟩
    obtain ⟨hQ, rfl⟩ := Q.run_iff.mp ⟨s₂, hsecond⟩
    rw [P.recalling_run hfirst] at hQ ⊢
    exact ⟨⟨hP, (ready_image_iff hP Q).mp hQ⟩, rfl⟩
  · rintro ⟨⟨hP, hQ⟩, rfl⟩
    obtain ⟨s₁, hfirst⟩ := P.run_iff.mpr ⟨hP, rfl⟩
    rw [← ready_image_iff hP Q, ← P.recalling_run hfirst] at hQ
    obtain ⟨s₂, hsecond⟩ := Q.run_iff.mpr ⟨hQ, rfl⟩
    rw [P.recalling_run hfirst] at hsecond
    exact ⟨s₂, bind_eq_ok_iff.mpr ⟨_, s₁, hfirst, bind_eq_ok_iff.mpr ⟨_, s₂, hsecond, rfl⟩⟩⟩

/-- Behind a pass, the templates that it may ask for again are remembered. -/
theorem run_again {P : Pass} (h : P.stage.run x cs s = .ok ds s') {y : StageContext}
    (hy : y.canvas = x.canvas) : ∃ t, P.stage.run y ds s' = .ok ds t := by
  obtain ⟨hP, hds⟩ := P.run_iff.mp ⟨s', h⟩
  refine P.run_iff.mpr ?_
  cases P with
  | size =>
    obtain ⟨-, hknows, hsized⟩ := sizeAll_eq_ok (Stage.run_eq_ok.mp h)
    have htypes : chipTypes ds = chipTypes cs := by
      rw [hsized, chipTypes_map (Component.chipType?_resize _ _)]
    have hknows' : s'.KnowsAll ds := by
      rw [LoadState.KnowsAll, htypes]
      exact hknows
    refine ⟨hknows'.offered y.read, ?_⟩
    calc
      ds = ds.map (Component.resize s'.templateOf x.canvas.bounds) := by
        rw [hsized, List.map_map]
        exact (List.map_congr_left fun c _ => Component.resize_resize _ _ c).symm
      _ = ds.map (Component.resize (templateBy (s'.recalling y.read)) y.canvas.bounds) := by
        rw [hy]
        exact map_resize_congr (fun type htype => (hknows'.templateBy_eq y.read type htype).symm) _
  | letter =>
    rw [hds]
    exact ⟨(ready_image_iff hP letter).mpr hP, (image_image hP).symm⟩
  | expand =>
    have hnone : chipTypes ds = [] := by
      rw [hds]
      exact chipTypes_flatten_blocks _ cs
    refine ⟨?_, (flatten_blocksFrom_of_chipTypes _ hnone []).symm⟩
    intro type htype
    rw [hnone] at htype
    cases htype

end Pass

/-- Any two passes come to their ends in one order exactly if they do so in the other, which is if each of them does
so by itself, and make the same of a schematic in both. A pass that is run again makes nothing else of what it has
made, whatever has become of the template files. -/
theorem passes_commute (x : StageContext) (P Q : Pass) (cs : List Component) (s : LoadState) :
    (∀ ds, (∃ s', Stage.runAll x [P.stage, Q.stage] cs s = .ok ds s') ↔
      ∃ s', Stage.runAll x [Q.stage, P.stage] cs s = .ok ds s') ∧
    ((∃ ds s', Stage.runAll x [P.stage, Q.stage] cs s = .ok ds s') ↔
      (∃ ds s', P.stage.run x cs s = .ok ds s') ∧ ∃ ds s', Q.stage.run x cs s = .ok ds s') ∧
    ∀ ds s', P.stage.run x cs s = .ok ds s' → ∀ y : StageContext, y.canvas = x.canvas →
      ∃ t, P.stage.run y ds s' = .ok ds t := by
  refine ⟨fun ds => ?_, ?_, fun ds s' h y hy => Pass.run_again h hy⟩
  · rw [Pass.runAll_iff, Pass.runAll_iff, Pass.image_comm, and_comm (a := Q.Ready _ _)]
  · simp only [Pass.runAll_iff, Pass.run_iff, exists_and_left, exists_eq, and_true]

/-- Chips of two types with wires, a net and a pin among them, none of them as a pass leaves it. -/
def mixedParts : List Component := [
  .chip { type := "gates/buf", region := ⟨⟨1, 1⟩, ⟨7, 7⟩⟩ },
  .wire { color := some .red, stop := ⟨1, 0⟩, label := "q" },
  .net { type := "vcc", region := ⟨⟨2, 0⟩, ⟨3, 3⟩⟩ },
  .chip { type := "gates/and2", region := ⟨⟨3, 1⟩, ⟨0, 3⟩⟩ },
  .pin { label := "y" },
  .wire { color := some .red, stop := ⟨4, 0⟩, label := "a" },
  .chip { type := "gates/buf", region := ⟨⟨6, 1⟩, ⟨0, 3⟩⟩ }]

theorem passes_commute_mixedParts :
    let x : StageContext := ⟨Library.onlyBundled.template .fresh, { bounds := ⟨9, 5⟩ }, none⟩
    (∃ ds s' t', Stage.runAll x [.size, .expand] mixedParts {} = .ok ds s' ∧
      Stage.runAll x [.expand, .size] mixedParts {} = .ok ds t') ∧
    (∃ ds s' t', Stage.runAll x [.letter, .expand] mixedParts {} = .ok ds s' ∧
      Stage.runAll x [.expand, .letter] mixedParts {} = .ok ds t') ∧
    ∃ ds s' t', Stage.size.run x mixedParts {} = .ok ds s' ∧
      Stage.size.run { x with read := fun type => .error (Cause.unknownType type) } ds s' = .ok ds t' := by
  intro x
  have hsize : ∃ ds s', Stage.size.run x mixedParts {} = .ok ds s' :=
    ⟨_, _, Stage.run_eq_ok.mpr (Sweep.eq_of_failure_eq_none (by decide +kernel))⟩
  have hletter : ∃ ds s', Stage.letter.run x mixedParts {} = .ok ds s' :=
    ⟨_, _, Stage.run_eq_ok.mpr (Sweep.eq_of_failure_eq_none (by decide +kernel))⟩
  have hexpand : ∃ ds s', Stage.expand.run x mixedParts {} = .ok ds s' := by
    -- Expansion asks for the templates that sizing asks for.
    obtain ⟨ds, hrun⟩ := hsize
    exact ⟨_, Pass.expand.run_iff.mpr ⟨(Pass.size.run_iff.mp hrun).1, rfl⟩⟩
  obtain ⟨hswap, hboth, hagain⟩ := passes_commute x .size .expand mixedParts {}
  obtain ⟨hswap', hboth', -⟩ := passes_commute x .letter .expand mixedParts {}
  obtain ⟨ds, s', hrun⟩ := hboth.mpr ⟨hsize, hexpand⟩
  obtain ⟨t', hrun'⟩ := (hswap ds).mp ⟨s', hrun⟩
  obtain ⟨es, u', hrun₂⟩ := hboth'.mpr ⟨hletter, hexpand⟩
  obtain ⟨v', hrun₂'⟩ := (hswap' es).mp ⟨u', hrun₂⟩
  obtain ⟨sized, w', hsized⟩ := hsize
  obtain ⟨w'', hsized'⟩ := hagain sized w' hsized
    { x with read := fun type => .error (Cause.unknownType type) } rfl
  exact ⟨⟨ds, s', t', hrun, hrun'⟩, ⟨es, u', v', hrun₂, hrun₂'⟩, sized, w', w'', hsized, hsized'⟩

end Schematic
