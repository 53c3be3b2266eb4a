import Schematic.Proofs.Library.Roots
import Schematic.Proofs.Load.Passage

/-! Diagnoses of the stages. Each stage asks of its components what the stages before it have made sure of:
that none is foreign, that wires have colors, that nets have cells. Main statement: on what a source is
read as, the stages fail with diagnostics only. -/
namespace Schematic

namespace Stage

/-- Sizing stops the load where it fails, so that the components as far as it got are nothing to it. -/
theorem run_size (x : StageContext) (cs : List Component) :
    size.run x cs = cs.mapM (Component.sized x.read x.canvas.bounds) := by
  induction cs with
  | nil => rfl
  | cons c cs ih =>
    rw [List.mapM_cons, ← ih]
    funext s
    unfold run
    simp only [apply, sizeAll, sweep, bind, EStateM.bind]
    cases c.sized x.read x.canvas.bounds s with
    | error e s' => rfl
    | ok d s' =>
      dsimp only
      cases (sweep (Component.sized x.read x.canvas.bounds) cs s').failure <;> rfl

theorem run_letter (x : StageContext) (cs : List Component) :
    letter.run x cs =
      match (sweep Component.lettered cs []).failure with
      | some e => Loader.ofExcept (.error e)
      | none =>
        Loader.log .debug
          ("labeled wires: " ++ describeCounts (sweep Component.lettered cs []).state) >>= fun _ =>
        pure (sweep Component.lettered cs []).items := by
  funext s
  unfold run
  simp only [apply, letterAll]
  cases (sweep Component.lettered cs []).failure <;> rfl

theorem run_validate (x : StageContext) (cs : List Component) :
    validate.run x cs = (do
      Loader.ofExcept (Schematic.validate cs x.canvas x.viewport)
      Loader.log .debug ("validated " ++ toString cs.length ++ " objects")
      pure cs) := by
  funext s
  unfold run
  simp only [apply, validateAll]
  cases Schematic.validate cs x.canvas x.viewport <;> rfl

theorem run_expand (x : StageContext) (cs : List Component) :
    expand.run x cs = (do
      let flat ← expandFrom x.read [] cs
      Loader.log .debug ("flattened " ++ toString (cs.countP Component.isChip) ++
        " chips into " ++ toString flat.length ++ " objects")
      pure flat) := by
  funext s
  unfold run
  simp only [apply, expandAll, bind, EStateM.bind]
  cases expandFrom x.read [] cs s <;> rfl

end Stage

section Stages

variable {read : TemplateReader}

theorem diagnoses_ofExcept {α : Type} {y : Except Failure α} (h : Diagnosed y) :
    Diagnoses (Loader.ofExcept y) := by
  intro s f s' hf
  cases y with
  | ok a => cases hf
  | error e =>
    cases hf
    exact h f rfl

theorem diagnoses_log (severity : Severity) (message : String) :
    Diagnoses (Loader.log severity message) := by
  intro s f s' hf
  cases hf

theorem diagnoses_template (h : ∀ type, Diagnosed (read type)) (type : String) :
    Diagnoses (Loader.template read type) := by
  intro s f s' hf
  unfold Loader.template at hf
  split at hf
  · cases hf
  · split at hf
    · next hread =>
      cases hf
      exact h type f hread
    · cases hf

theorem diagnoses_sized (h : ∀ type, Diagnosed (read type)) (bounds : Vec) (c : Component) :
    Diagnoses (c.sized read bounds) := by
  cases c with
  | chip c => exact (diagnoses_template h c.type).bind fun _ => diagnoses_pure _
  | canvas | net | pin | wire | foreign => exact diagnoses_pure _

theorem wireLetter_of_lt {n : Nat} (h : n < maxWiresPerColor) : ∃ letter, wireLetter n = .ok letter := by
  unfold wireLetter
  split_ifs with hlower hcode hcode' hupper
  · exact ⟨_, rfl⟩
  · omega
  · omega
  · exact ⟨_, rfl⟩
  · omega

/-- The count of a color is checked before its letter is looked up. -/
theorem diagnoses_lettered {c : Component} (h : ∀ w, c.wire? = some w → w.color ≠ none) :
    Diagnoses c.lettered := by
  cases c with
  | wire w =>
    refine Diagnoses.map ?_ _
    intro seen f seen' hf
    unfold Wire.lettered at hf
    split at hf
    · next hcolor => exact h w rfl hcolor
    · next color _ =>
      split at hf
      · cases hf
      · next hcount =>
        obtain ⟨letter, hletter⟩ := wireLetter_of_lt (Nat.lt_of_not_le hcount)
        rw [hletter] at hf
        cases hf
  | canvas | chip | net | pin | foreign => exact diagnoses_pure _

theorem diagnosed_check {bounds : Vec} {c : Component} (h : c.kind?.isSome) :
    Diagnosed (c.check bounds) := by
  cases c with
  | foreign text => cases h
  | canvas c => exact diagnosed_ok ()
  | chip c =>
    unfold Component.check
    dsimp only
    split_ifs
    · exact diagnosed_cause _
    · exact diagnosed_ok ()
    · exact diagnosed_cause _
  | net n =>
    unfold Component.check
    dsimp only
    split_ifs
    · exact diagnosed_cause _
    · exact diagnosed_cause _
    · exact diagnosed_ok ()
  | pin p =>
    unfold Component.check
    dsimp only
    split_ifs
    · exact diagnosed_ok ()
    · exact diagnosed_cause _
  | wire w =>
    unfold Component.check
    dsimp only
    split_ifs
    · exact diagnosed_cause _
    · exact diagnosed_ok ()
    · exact diagnosed_cause _
    · exact diagnosed_cause _

theorem diagnosed_checkEach {bounds : Vec} {cs : List Component} (h : ∀ c ∈ cs, c.kind?.isSome) :
    Diagnosed (checkEach bounds cs) := by
  unfold checkEach
  induction cs with
  | nil => exact diagnosed_ok ()
  | cons c cs ih =>
    obtain ⟨hc, hcs⟩ := List.forall_mem_cons.mp h
    rw [List.forM_eq_forM, List.forM_cons]
    refine (diagnosed_check hc).bind fun _ _ => ?_
    rw [← List.forM_eq_forM]
    exact ih hcs

theorem diagnosed_checkOverlaps {cs : List Component} (h : ∀ c ∈ cs, c.kind?.isSome) :
    Diagnosed (checkOverlaps cs) := by
  unfold checkOverlaps
  rw [coveringRegions_eq_ok h]
  refine (diagnosed_ok _).bind fun rs _ => ?_
  split
  · exact diagnosed_ok ()
  · exact diagnosed_cause _

theorem diagnosed_validate {cs : List Component} (h : ∀ c ∈ cs, c.kind?.isSome) (canvas : Canvas)
    (viewport : Option Vec) : Diagnosed (validate cs canvas viewport) := by
  have hbounds : Diagnosed canvas.checkBounds := by
    unfold Canvas.checkBounds
    split_ifs
    · exact diagnosed_cause _
    · exact diagnosed_cause _
    · exact diagnosed_ok ()
  have hviewport : ∀ v, Diagnosed (canvas.checkViewport v) := by
    intro v
    unfold Canvas.checkViewport
    dsimp only
    split_ifs
    · exact diagnosed_cause _
    · exact diagnosed_ok ()
  have hrest : Diagnosed (checkEach canvas.bounds cs >>= fun _ => checkOverlaps cs) :=
    (diagnosed_checkEach h).bind fun _ _ => diagnosed_checkOverlaps h
  unfold validate
  refine hbounds.bind fun _ _ => ?_
  cases viewport with
  | none => exact hrest
  | some v => exact (hviewport v).bind fun _ _ => hrest

theorem diagnoses_expandFrom (h : ∀ type, Diagnosed (read type)) (seen : List String)
    (cs : List Component) : Diagnoses (expandFrom read seen cs) := by
  induction cs generalizing seen with
  | nil => exact diagnoses_pure _
  | cons c cs ih =>
    cases hc : c.chipType? with
    | none =>
      rw [expandFrom_cons_of_none hc]
      exact (ih _).bind fun _ => diagnoses_pure _
    | some type =>
      cases c <;> cases hc
      exact (diagnoses_template h _).bind fun _ => (ih _).bind fun _ => diagnoses_pure _

theorem exists_net? {w : Wire} {ns : List Net} (h : ∀ n ∈ ns, ¬n.region.Degenerate) :
    ∃ n?, w.net? ns = .ok n? := by
  induction ns with
  | nil => exact ⟨none, rfl⟩
  | cons n ns ih =>
    obtain ⟨hn, hns⟩ := List.forall_mem_cons.mp h
    unfold Wire.net? Net.reachedBy
    rw [Region.covers_of_not_degenerate hn, Region.covers_of_not_degenerate hn]
    by_cases hstart : w.start ∈ n.region
    · simp [hstart]
    · by_cases hstop : w.stop ∈ n.region
      · simp [hstart, hstop]
      · simpa [hstart, hstop] using ih hns

theorem exists_connect (ws : List Wire) {ns : List Net} (h : ∀ n ∈ ns, ¬n.region.Degenerate)
    (p : Pin) : ∃ q, p.connect ws ns = .ok q := by
  unfold Pin.connect
  cases ws.find? fun w => decide (w.Touches p.region.position) with
  | none => exact ⟨p, rfl⟩
  | some w =>
    obtain ⟨n?, hn⟩ := exists_net? (w := w) h
    simp only [hn]
    cases n? with
    | none => exact ⟨p, rfl⟩
    | some n => exact ⟨_, rfl⟩

theorem exists_resolveAll {cs : List Component} (h : ∀ n ∈ nets cs, ¬n.region.Degenerate)
    (s : LoadState) : ∃ ds s', resolveAll cs s = ⟨ds, s', none⟩ := by
  have hsteps : ∃ ps u, connectAll (wires cs) (nets cs) (pins cs) = ⟨ps, u, none⟩ := by
    refine exists_sweep (fun p _ s => ?_) ()
    obtain ⟨q, hq⟩ := exists_connect (wires cs) h p
    rw [hq]
    exact ⟨q, s, rfl⟩
  obtain ⟨ps, u, hconnect⟩ := hsteps
  unfold resolveAll
  rw [hconnect]
  exact ⟨_, _, rfl⟩

/-- What reading makes sure of. -/
structure Component.Verified (c : Component) : Prop where
  known : c.kind?.isSome
  colored : ∀ w, c.wire? = some w → w.color ≠ none

namespace Component

theorem Declared.verified {c : Component} (h : c.Declared) : c.Verified := by
  obtain ⟨hdrafted, hverify⟩ := h
  refine ⟨hdrafted.isSome_kind?, ?_⟩
  intro w hw hcolor
  cases c <;> cases hw
  rw [verify, if_pos hcolor] at hverify
  cases hverify

theorem Verified.resize {c : Component} (h : c.Verified) (templateOf : String → List Pin)
    (bounds : Vec) : (c.resize templateOf bounds).Verified := by
  obtain ⟨hknown, hcolored⟩ := h
  cases c with
  | foreign text => cases hknown
  | wire w => exact ⟨rfl, hcolored⟩
  | canvas | chip | net | pin =>
    refine ⟨rfl, ?_⟩
    rintro w ⟨⟩

theorem verified_of_unlettered {c : Component} (h : c.unlettered.Verified) : c.Verified := by
  cases c with
  | wire w =>
    refine ⟨rfl, ?_⟩
    rintro _ ⟨⟩
    exact h.colored { w with label := "" } rfl
  | canvas | chip | net | pin | foreign => exact h

theorem Verified.unlettered {c : Component} (h : c.Verified) : c.unlettered.Verified := by
  cases c with
  | wire w =>
    refine ⟨rfl, ?_⟩
    rintro _ ⟨⟩
    exact h.colored w rfl
  | canvas | chip | net | pin | foreign => exact h

end Component

theorem verified_of_map_unlettered_eq {cs ds : List Component} (h : ∀ c ∈ cs, c.Verified)
    (he : ds.map Component.unlettered = cs.map Component.unlettered) : ∀ d ∈ ds, d.Verified := by
  intro d hd
  have hmem : d.unlettered ∈ cs.map Component.unlettered := by
    rw [← he]
    exact List.mem_map_of_mem hd
  obtain ⟨c, hc, hcd⟩ := List.mem_map.mp hmem
  have hunlettered := (h c hc).unlettered
  rw [hcd] at hunlettered
  exact Component.verified_of_unlettered hunlettered

variable {x : StageContext} {cs : List Component}

theorem verified_map_resize (hcs : ∀ c ∈ cs, c.Declared) (templateOf : String → List Pin)
    (bounds : Vec) : ∀ c ∈ cs.map (Component.resize templateOf bounds), c.Verified := by
  intro c hc
  obtain ⟨d, hd, rfl⟩ := List.mem_map.mp hc
  exact (hcs d hd).verified.resize templateOf bounds

theorem diagnoses_size (h : ∀ type, Diagnosed (x.read type)) (cs : List Component) :
    Diagnoses (Stage.size.run x cs) := by
  rw [Stage.run_size]
  exact Diagnoses.mapM (diagnoses_sized h _) cs

theorem diagnoses_letter (h : ∀ c ∈ cs, c.Verified) : Diagnoses (Stage.letter.run x cs) := by
  have hsweep : ∀ f, (sweep Component.lettered cs []).failure ≠ some (.fault f) :=
    sweep_failure_ne_fault (fun c hc => diagnoses_lettered (h c hc).colored) _
  rw [Stage.run_letter]
  split
  · next e he =>
    refine diagnoses_ofExcept ?_
    rintro f ⟨⟩
    exact hsweep f he
  · exact (diagnoses_log _ _).bind fun _ => diagnoses_pure _

theorem diagnoses_validate (h : ∀ c ∈ cs, c.Verified) : Diagnoses (Stage.validate.run x cs) := by
  have hvalidate := diagnosed_validate (fun c hc => (h c hc).known) x.canvas x.viewport
  rw [Stage.run_validate]
  exact (diagnoses_ofExcept hvalidate).bind fun _ =>
    (diagnoses_log _ _).bind fun _ => diagnoses_pure _

theorem diagnoses_expand (h : ∀ type, Diagnosed (x.read type)) (cs : List Component) :
    Diagnoses (Stage.expand.run x cs) := by
  rw [Stage.run_expand]
  exact (diagnoses_expandFrom h [] cs).bind fun _ =>
    (diagnoses_log _ _).bind fun _ => diagnoses_pure _

/-- Sized nets have cells on a canvas that has columns. -/
theorem not_degenerate_of_net_mem {templateOf : String → List Pin} {canvas : Canvas}
    (hcanvas : canvas.checkBounds = .ok ()) {n : Net}
    (h : .net n ∈ cs.map (Component.resize templateOf canvas.bounds)) : ¬n.region.Degenerate := by
  obtain ⟨c, -, hc⟩ := List.mem_map.mp h
  cases c <;> cases hc
  unfold Canvas.checkBounds at hcanvas
  split_ifs at hcanvas with hboth hone
  rintro (hx | hy)
  · exact hone (.inl hx)
  · cases hy

/-- Chips expand to pins only, so that the nets are those that were sized before. -/
theorem not_degenerate_of_mem_nets_flatten {templateOf templateOf' : String → List Pin} {canvas : Canvas}
    {lettered : List Component} (hcanvas : canvas.checkBounds = .ok ())
    (h : lettered.map Component.unlettered =
      (cs.map (Component.resize templateOf canvas.bounds)).map Component.unlettered) :
    ∀ n ∈ nets (blocks templateOf' lettered).flatten, ¬n.region.Degenerate := by
  intro n hn
  rcases exists_of_mem_flatten_blocks (mem_nets.mp hn) with ⟨hnet, -⟩ | ⟨_, _, _, -, -, hpin⟩
  · exact not_degenerate_of_net_mem hcanvas (mem_of_map_unlettered_eq h rfl hnet)
  · cases hpin

theorem diagnoses_resolve (h : ∀ n ∈ nets cs, ¬n.region.Degenerate) :
    Diagnoses (Stage.resolve.run x cs) := by
  intro s f s' hrun
  obtain ⟨ds, s₁, hds⟩ := exists_resolveAll h s
  have hok : Stage.resolve.run x cs s = .ok ds s₁ := Stage.run_eq_ok.mpr hds
  rw [hok] at hrun
  cases hrun

/-- The stages fail with diagnostics only, on components as they are read and with templates as they are
read. -/
theorem diagnoses_runAll (hread : ∀ type, Diagnosed (x.read type)) (hcs : ∀ c ∈ cs, c.Declared) :
    Diagnoses (Stage.runAll x Stage.inOrder cs) := by
  refine (diagnoses_size hread cs).bind_of_eq_ok fun s₀ sized s₁ hsize => ?_
  obtain ⟨-, -, rfl⟩ := sizeAll_eq_ok (Stage.run_eq_ok.mp hsize)
  have hsized := verified_map_resize hcs s₁.templateOf x.canvas.bounds
  refine (diagnoses_letter hsized).bind_of_eq_ok fun s₁ lettered s₂ hletter => ?_
  obtain ⟨-, -, hletters⟩ := letterAll_eq_ok x.read (Stage.run_eq_ok.mp hletter)
  have hlettered := verified_of_map_unlettered_eq hsized hletters
  refine (diagnoses_validate hlettered).bind_of_eq_ok fun s₂ valid s₃ hvalidate => ?_
  obtain ⟨-, -, rfl, hvalid⟩ := validateAll_eq_ok x.read (Stage.run_eq_ok.mp hvalidate)
  refine (diagnoses_expand hread valid).bind_of_eq_ok fun s₃ flat s₄ hexpand => ?_
  obtain ⟨-, -, rfl⟩ := expandAll_eq_ok (Stage.run_eq_ok.mp hexpand)
  obtain ⟨⟨hbounds, -⟩, -⟩ := validate_eq_ok_iff.mp hvalid
  exact (diagnoses_resolve (not_degenerate_of_mem_nets_flatten hbounds hletters)).bind fun _ =>
    diagnoses_pure _

end Stages

end Schematic
