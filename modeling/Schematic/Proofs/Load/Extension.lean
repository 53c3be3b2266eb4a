import Schematic.Proofs.Load.Safety

/-! Loads with further templates. A step of a load that succeeds has asked for templates that can be read only, so
that it does the same wherever these are read the same. Main statement: further roots change nothing about a
load that succeeds without them, nor about the templates that there are without them. -/
namespace Schematic
open Schematic.Files

namespace Loader

variable {α β : Type}

/-- `m'` succeeds wherever `m` does, and then answers and leaves the same. -/
def ConfirmedBy (m m' : Loader α) : Prop := ∀ s a s', m s = .ok a s' → m' s = .ok a s'

theorem ConfirmedBy.refl (m : Loader α) : ConfirmedBy m m := fun _ _ _ h => h

theorem ConfirmedBy.bind {m m' : Loader α} {f f' : α → Loader β} (hm : ConfirmedBy m m')
    (hf : ∀ a, ConfirmedBy (f a) (f' a)) : ConfirmedBy (m >>= f) (m' >>= f') := by
  intro s b s'' h
  obtain ⟨a, s', ha, hb⟩ := bind_eq_ok_iff.mp h
  exact bind_eq_ok_iff.mpr ⟨a, s', hm s a s' ha, hf a s' b s'' hb⟩

theorem ConfirmedBy.mapM {f f' : α → Loader β} (hf : ∀ a, ConfirmedBy (f a) (f' a))
    (as : List α) : ConfirmedBy (as.mapM f) (as.mapM f') := by
  induction as with
  | nil => exact .refl _
  | cons a as ih =>
    rw [List.mapM_cons, List.mapM_cons]
    exact (hf a).bind fun b => ih.bind fun bs => .refl _

/-- What follows may differ with what was found out, as long as it is confirmed. -/
theorem ConfirmedBy.ofExcept_bind {x y : Except Failure α} {f g : α → Loader β}
    (h : ∀ a, x = .ok a → ∃ b, y = .ok b ∧ ConfirmedBy (f a) (g b)) :
    ConfirmedBy (ofExcept x >>= f) (ofExcept y >>= g) := by
  intro s c s'' hc
  obtain ⟨a, s', ha, hfa⟩ := bind_eq_ok_iff.mp hc
  obtain ⟨hx, rfl⟩ := ofExcept_eq_ok.mp ha
  obtain ⟨b, hy, hfg⟩ := h a hx
  exact bind_eq_ok_iff.mpr ⟨b, s, ofExcept_eq_ok.mpr ⟨hy, rfl⟩, hfg s c s'' hfa⟩

end Loader

open Loader

section Stages

variable {read read' : TemplateReader} (hread : ∀ type ps, read type = .ok ps → read' type = .ok ps)

include hread

theorem confirmedBy_template (type : String) :
    ConfirmedBy (template read type) (template read' type) := by
  intro s ps s' h
  unfold template at h ⊢
  cases hl : s.templates.lookup type with
  | some qs =>
    rw [hl] at h
    exact h
  | none =>
    rw [hl] at h
    cases hr : read type with
    | error e =>
      rw [hr] at h
      cases h
    | ok qs =>
      rw [hr] at h
      rw [hread type qs hr]
      exact h

theorem confirmedBy_sized (bounds : Vec) (c : Component) :
    ConfirmedBy (c.sized read bounds) (c.sized read' bounds) := by
  cases c with
  | chip c => exact (confirmedBy_template hread c.type).bind fun _ => .refl _
  | canvas | net | pin | wire | foreign => exact .refl _

theorem confirmedBy_expandFrom (seen : List String) (cs : List Component) :
    ConfirmedBy (expandFrom read seen cs) (expandFrom read' seen cs) := by
  induction cs generalizing seen with
  | nil => exact .refl _
  | cons c cs ih =>
    cases hc : c.chipType? with
    | none =>
      rw [expandFrom_cons_of_none hc, expandFrom_cons_of_none hc]
      exact (ih _).bind fun _ => .refl _
    | some type =>
      cases c <;> cases hc
      exact (confirmedBy_template hread _).bind fun _ => (ih _).bind fun _ => .refl _

/-- Only sizing and expansion ask for templates. -/
theorem Stage.confirmedBy_run (canvas : Canvas) (viewport : Option Vec) (stage : Stage)
    (cs : List Component) :
    ConfirmedBy (stage.run ⟨read, canvas, viewport⟩ cs) (stage.run ⟨read', canvas, viewport⟩ cs) := by
  cases stage with
  | size =>
    rw [run_size, run_size]
    exact ConfirmedBy.mapM (confirmedBy_sized hread _) cs
  | expand =>
    rw [run_expand, run_expand]
    exact (confirmedBy_expandFrom hread _ _).bind fun _ => .refl _
  | letter | validate | resolve => exact .refl _

theorem Stage.confirmedBy_runAll (canvas : Canvas) (viewport : Option Vec) (stages : List Stage)
    (cs : List Component) : ConfirmedBy (Stage.runAll ⟨read, canvas, viewport⟩ stages cs)
      (Stage.runAll ⟨read', canvas, viewport⟩ stages cs) := by
  induction stages generalizing cs with
  | nil => exact .refl _
  | cons stage rest ih => exact (confirmedBy_run hread canvas viewport stage cs).bind ih

end Stages

section Load

variable {files : Tree} {input : Source.Input} {options options' : LoadOptions}
  {library? library?' : Option Library} {log : Log} {p : Project}

theorem confirmedBy_assemble (hviewport : options'.viewport = options.viewport)
    (hlibrary : ∀ l, chosenLibrary files options library? = .ok l →
      ∃ l', chosenLibrary files options' library?' = .ok l' ∧ l.Below l') :
    ConfirmedBy (assemble files input options library?) (assemble files input options' library?') := by
  rw [assemble_eq, assemble_eq, hviewport]
  refine (ConfirmedBy.refl _).bind fun cs => (ConfirmedBy.refl _).bind fun _ =>
    (ConfirmedBy.refl _).bind fun canvas => ConfirmedBy.ofExcept_bind fun l hl => ?_
  obtain ⟨l', hl', hbelow⟩ := hlibrary l hl
  refine ⟨l', hl', (Stage.confirmedBy_runAll ?_ canvas options.viewport _ cs).bind fun _ => .refl _⟩
  intro type ps hps
  exact hbelow.template_eq_ok hps

/-- A load whose steps are confirmed leaves the same, if it succeeds. -/
theorem load_eq_of_confirmedBy (h : ConfirmedBy (assemble files input options library?)
      (assemble files input options' library?'))
    (hp : (load files input options library? log).project = .ok (some p)) :
    load files input options' library?' log = load files input options library? log := by
  obtain ⟨s', ha⟩ := assemble_of_load hp
  unfold load
  rw [ha, h _ _ _ ha]

/-- A load that succeeds has read a text with its canvas, so that only the library can keep it from succeeding with
further roots. -/
theorem load_fault_of_library {f : Fault}
    (hp : (load files input options library? log).project = .ok (some p))
    (hlibrary : chosenLibrary files options' library?' = .error (.fault f)) :
    (load files input options' library?' log).project = .error (.fault f) := by
  obtain ⟨t, -⟩ := exists_passage hp
  exact load_fault_iff.mpr (.inr ⟨t.source, p.canvas, t.read_eq, t.canvas_eq, hlibrary⟩)

/-- Further roots that the walk can get through change neither a load that succeeds without them nor what the library
gave. With any other further roots, there is no load that succeeds. -/
theorem further_roots_keep {extra : List Path}
    (hreadable : ∀ root ∈ options.roots ++ extra, files.Readable root) :
    ((∀ root ∈ extra, files.Shallow options.walkDepth root) →
      ∀ input log p, (load files input options none log).project = .ok (some p) →
        load files input { options with roots := options.roots ++ extra } none log =
          load files input options none log) ∧
    ((∃ root ∈ extra, ¬files.Shallow options.walkDepth root) →
      ∀ input log p, (load files input options none log).project = .ok (some p) →
        (load files input { options with roots := options.roots ++ extra } none log).project =
          .error (.fault .nestedTooDeeply)) ∧
    ((∀ root ∈ options.roots ++ extra, files.Shallow options.walkDepth root) →
      ∃ l l', Library.ofRoots options.walkDepth files options.roots = .ok l ∧
        Library.ofRoots options.walkDepth files (options.roots ++ extra) = .ok l' ∧
        ∀ type ∈ l.types, type ∈ l'.types ∧ ∀ now, l'.text now type = l.text now type) := by
  obtain ⟨hroots, hextra⟩ := List.forall_mem_append.mp hreadable
  refine ⟨fun hshallow input log p hp => ?_, fun hdeep input log p hp => ?_, fun hshallow => ?_⟩
  · refine load_eq_of_confirmedBy (confirmedBy_assemble rfl fun l hl => ?_) hp
    exact Library.exists_ofRoots_append hl fun root hroot => ⟨hextra root hroot, hshallow root hroot⟩
  · obtain ⟨root, hroot, hdeep⟩ := hdeep
    refine load_fault_of_library hp (Library.ofRoots_of_not_shallow hreadable ⟨root, ?_, hdeep⟩)
    exact List.mem_append_right options.roots hroot
  · obtain ⟨hshallowRoots, hshallowExtra⟩ := List.forall_mem_append.mp hshallow
    obtain ⟨l, hl⟩ : ∃ l, Library.ofRoots options.walkDepth files options.roots = .ok l :=
      Library.exists_ofRoots_iff.mpr fun root hroot => ⟨hroots root hroot, hshallowRoots root hroot⟩
    obtain ⟨l', hl', hbelow⟩ := Library.exists_ofRoots_append hl fun root hroot =>
      ⟨hextra root hroot, hshallowExtra root hroot⟩
    refine ⟨l, l', hl, hl', ?_⟩
    intro type ht
    exact ⟨hbelow.mem_types ht, hbelow.text_eq ht⟩

end Load

/-- A working directory with a directory `more`, where a file that is no template stands at the name of a type
that is provided. -/
def overgrown : Tree := .dir [("", .dir [("", .dir [("more", .dir [
  ("gates", .dir [("buf.cic", .file "?".toUTF8.toList)])])])])]

theorem further_roots_keep_overgrown :
    (load overgrown buffers { roots := [.ofText "more"] } none [] = load overgrown buffers {} none [] ∧
      (load overgrown buffers {} none []).project = .ok (some bufferProject)) ∧
    (Tree.sunken (Library.usualDepth + 1)).Readable ⟨"", []⟩ ∧
      (load (.sunken (Library.usualDepth + 1)) buffers {} none []).project = .ok (some bufferProject) ∧
      (load (.sunken (Library.usualDepth + 1)) buffers { roots := [⟨"", []⟩] } none []).project =
        .error (.fault .nestedTooDeeply) := by
  constructor
  · have hwalkable : ∀ root ∈ ({} : LoadOptions).roots ++ [.ofText "more"],
        overgrown.Walkable Library.usualDepth root := Library.walkable_of_isSome (by decide +kernel)
    have hload : (load overgrown buffers {} none []).project = .ok (some bufferProject) := by
      decide +kernel
    obtain ⟨hkeep, -⟩ := @further_roots_keep overgrown {} [.ofText "more"] fun root hroot =>
      (hwalkable root hroot).toReadable
    refine ⟨hkeep (fun root hroot => ?_) buffers [] bufferProject hload, hload⟩
    exact (hwalkable root hroot).shallow
  · have hreadable : (Tree.sunken (Library.usualDepth + 1)).Readable ⟨"", []⟩ :=
      Tree.readable_sunken (by decide)
    have hdeep : ¬(Tree.sunken (Library.usualDepth + 1)).Shallow Library.usualDepth ⟨"", []⟩ :=
      Tree.not_shallow_sunken (Nat.lt_succ_self _)
    have hload : (load (.sunken (Library.usualDepth + 1)) buffers {} none []).project =
        .ok (some bufferProject) := by decide +kernel
    obtain ⟨-, hrefused, -⟩ := @further_roots_keep (.sunken (Library.usualDepth + 1)) {} [⟨"", []⟩]
      (List.forall_mem_singleton.mpr hreadable)
    exact ⟨hreadable, hload,
      hrefused ⟨_, List.mem_singleton_self _, hdeep⟩ buffers [] bufferProject hload⟩

end Schematic
