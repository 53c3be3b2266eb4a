import Schematic.Proofs.Load.Steps

/-! Steps that fail with diagnostics only, or with causes of one category only. Main statement: what is composed
of such steps, in a row or over a list, is one. -/
namespace Schematic

/-- It holds a value or a diagnostic, and no fault. -/
def Diagnosed {α : Type} (x : Except Failure α) : Prop := ∀ f, x ≠ .error (.fault f)

/-- Wherever the step is started, it ends in a value or a diagnostic. -/
def Diagnoses {σ α : Type} (m : EStateM Failure σ α) : Prop := ∀ s f s', m s ≠ .error (.fault f) s'

/-- It holds a value, or a cause of the category that has no line yet. -/
def Reported {α : Type} (k : Category) (x : Except Failure α) : Prop :=
  ∀ e, x = .error e → ∃ c : Cause, c.category? = some k ∧ e = c

/-- Wherever the step is started, it ends in a value, or in a cause of the category that has no line yet. -/
def Reports {σ α : Type} (k : Category) (m : EStateM Failure σ α) : Prop :=
  ∀ s e s', m s = .error e s' → ∃ c : Cause, c.category? = some k ∧ e = c

section

variable {σ α β : Type}

theorem diagnosed_ok (a : α) : Diagnosed (.ok a : Except Failure α) := by
  intro f h
  cases h

theorem diagnosed_cause (c : Cause) : Diagnosed (.error (c : Failure) : Except Failure α) := by
  intro f h
  cases h

theorem Diagnosed.rethrow {x : Except Failure α} {e : Failure} (hx : Diagnosed x)
    (h : x = .error e) : Diagnosed (.error e : Except Failure β) := by
  rintro f ⟨⟩
  exact hx f h

theorem Diagnosed.bind {x : Except Failure α} {f : α → Except Failure β}
    (hx : Diagnosed x) (hf : ∀ a, x = .ok a → Diagnosed (f a)) : Diagnosed (x >>= f) := by
  intro e h
  cases x with
  | ok a => exact hf a rfl e h
  | error e' =>
    cases h
    exact hx e rfl

theorem diagnoses_pure (a : α) : Diagnoses (pure a : EStateM Failure σ α) := by
  intro s f s' h
  cases h

/-- What follows a step has to cope only with what the step can give. -/
theorem Diagnoses.bind_of_eq_ok {m : EStateM Failure σ α} {f : α → EStateM Failure σ β}
    (hm : Diagnoses m) (hf : ∀ s a s', m s = .ok a s' → Diagnoses (f a)) : Diagnoses (m >>= f) := by
  intro s e s'' h
  rcases bind_eq_error.mp h with h | ⟨a, s', ha, h⟩
  · exact hm s e s'' h
  · exact hf s a s' ha s' e s'' h

theorem Diagnoses.bind {m : EStateM Failure σ α} {f : α → EStateM Failure σ β} (hm : Diagnoses m)
    (hf : ∀ a, Diagnoses (f a)) : Diagnoses (m >>= f) :=
  hm.bind_of_eq_ok fun _ a _ _ => hf a

theorem Diagnoses.map {m : EStateM Failure σ α} (hm : Diagnoses m) (f : α → β) :
    Diagnoses (f <$> m) := by
  intro s e s' h
  simp only [Functor.map, EStateM.map] at h
  split at h
  · cases h
  · next hs =>
    cases h
    exact hm s e s' hs

theorem Diagnoses.mapM {f : α → EStateM Failure σ β} (hf : ∀ a, Diagnoses (f a)) (as : List α) :
    Diagnoses (as.mapM f) := by
  induction as with
  | nil => exact diagnoses_pure []
  | cons a as ih =>
    rw [List.mapM_cons]
    exact (hf a).bind fun b => ih.bind fun bs => diagnoses_pure (b :: bs)

/-- A walk is stopped by a fault only if one of its steps is. -/
theorem sweep_failure_ne_fault {f : α → EStateM Failure σ α} {as : List α}
    (h : ∀ a ∈ as, Diagnoses (f a)) (s : σ) (e : Fault) : (sweep f as s).failure ≠ some (.fault e) := by
  induction as generalizing s with
  | nil => simp [sweep]
  | cons a as ih =>
    obtain ⟨ha, has⟩ := List.forall_mem_cons.mp h
    rw [sweep]
    split
    · next e' s' hstep =>
      intro he
      have hfault : e' = .fault e := Option.some.inj he
      exact ha s e s' (hfault ▸ hstep)
    · exact ih has _

variable {k : Category}

theorem Reports.diagnoses {m : EStateM Failure σ α} (h : Reports k m) : Diagnoses m := by
  intro s f s' hf
  obtain ⟨c, -, hc⟩ := h s _ s' hf
  cases hc

theorem reported_ok (a : α) : Reported k (.ok a : Except Failure α) := nofun

theorem reported_cause {c : Cause} (h : c.category? = some k) :
    Reported k (.error (c : Failure) : Except Failure α) := by
  rintro _ ⟨⟩
  exact ⟨c, h, rfl⟩

theorem reports_pure (a : α) : Reports k (pure a : EStateM Failure σ α) := by
  intro s e s' h
  cases h

theorem reports_throw {c : Cause} (h : c.category? = some k) :
    Reports k (throw (c : Failure) : EStateM Failure σ α) := by
  rintro s _ s' ⟨⟩
  exact ⟨c, h, rfl⟩

theorem Reports.bind_of_eq_ok {m : EStateM Failure σ α} {f : α → EStateM Failure σ β}
    (hm : Reports k m) (hf : ∀ s a s', m s = .ok a s' → Reports k (f a)) : Reports k (m >>= f) := by
  intro s e s'' h
  rcases bind_eq_error.mp h with h | ⟨a, s', ha, h⟩
  · exact hm s e s'' h
  · exact hf s a s' ha s' e s'' h

theorem Reports.bind {m : EStateM Failure σ α} {f : α → EStateM Failure σ β} (hm : Reports k m)
    (hf : ∀ a, Reports k (f a)) : Reports k (m >>= f) :=
  hm.bind_of_eq_ok fun _ a _ _ => hf a

end
end Schematic
