import Schematic.Load.State

/-! Steps in a row, and walks over a list. Main statements: what is composed of steps gets to its end exactly
if each of them does, and a walk over two lists in a row is one over the first and then one over the second. -/
namespace Schematic

/-- The ends of steps can be compared, with what the steps leave. -/
instance {σ α : Type} [DecidableEq σ] [DecidableEq α] : DecidableEq (EStateM.Result Failure σ α)
  | .ok a s, .ok b s' => decidable_of_iff (a = b ∧ s = s') (by simp)
  | .error e s, .error e' s' => decidable_of_iff (e = e' ∧ s = s') (by simp)
  | .ok _ _, .error _ _ | .error _ _, .ok _ _ => .isFalse nofun

section Binds

variable {σ α β : Type}

theorem throw_apply (e : Failure) (s : σ) : (throw e : EStateM Failure σ α) s = .error e s := rfl

theorem bind_eq_ok_iff {m : EStateM Failure σ α} {f : α → EStateM Failure σ β} {s s'' : σ} {b : β} :
    (m >>= f) s = .ok b s'' ↔ ∃ a s', m s = .ok a s' ∧ f a s' = .ok b s'' := by
  simp only [bind, EStateM.bind]
  cases m s with
  | ok a s' =>
    constructor
    · intro h
      exact ⟨a, s', rfl, h⟩
    · rintro ⟨_, _, ⟨⟩, h⟩
      exact h
  | error e s' => simp

theorem bind_eq_error {m : EStateM Failure σ α} {f : α → EStateM Failure σ β} {s s'' : σ}
    {e : Failure} : (m >>= f) s = .error e s'' ↔
      m s = .error e s'' ∨ ∃ a s', m s = .ok a s' ∧ f a s' = .error e s'' := by
  simp only [bind, EStateM.bind]
  cases m s with
  | ok a s' =>
    constructor
    · intro h
      exact .inr ⟨a, s', rfl, h⟩
    · rintro (h | ⟨_, _, ⟨⟩, h⟩)
      · cases h
      · exact h
  | error e' s' => simp

end Binds

theorem Sweep.eq_of_failure_eq_none {σ α : Type} {r : Sweep σ α} (h : r.failure = none) :
    r = ⟨r.items, r.state, none⟩ := by rw [← h]

/-- A walk gets to its end exactly if it does so behind its first step. -/
theorem sweep_cons_eq {σ α : Type} {f : α → EStateM Failure σ α} {a : α} {as bs : List α}
    {s s' : σ} : sweep f (a :: as) s = ⟨bs, s', none⟩ ↔
      ∃ b s₁ rest, f a s = .ok b s₁ ∧ sweep f as s₁ = ⟨rest, s', none⟩ ∧ bs = b :: rest := by
  rw [sweep]
  cases hf : f a s with
  | error e s₁ => simp
  | ok b s₁ =>
    constructor
    · intro h
      injection h with h₁ h₂ h₃
      refine ⟨b, s₁, (sweep f as s₁).items, rfl, ?_, h₁.symm⟩
      rw [← h₂, ← h₃]
    · rintro ⟨b', s₁', rest, h, hr, rfl⟩
      cases h
      simp only [hr]

/-- A walk over a list and what is behind it goes over the list first. -/
theorem sweep_append_eq {σ α : Type} {f : α → EStateM Failure σ α} {as bs cs : List α} {s s' : σ} :
    sweep f (as ++ bs) s = ⟨cs, s', none⟩ ↔ ∃ front s₁ back, sweep f as s = ⟨front, s₁, none⟩ ∧
      sweep f bs s₁ = ⟨back, s', none⟩ ∧ cs = front ++ back := by
  induction as generalizing cs s with
  | nil =>
    constructor
    · intro h
      exact ⟨[], s, cs, rfl, h, rfl⟩
    · rintro ⟨_, _, back, ⟨⟩, hback, rfl⟩
      exact hback
  | cons a as ih =>
    rw [List.cons_append, sweep_cons_eq]
    constructor
    · rintro ⟨b, s₁, _, hb, hrest, rfl⟩
      obtain ⟨front, s₂, back, hfront, hback, rfl⟩ := ih.mp hrest
      exact ⟨b :: front, s₂, back, sweep_cons_eq.mpr ⟨b, s₁, front, hb, hfront, rfl⟩, hback, rfl⟩
    · rintro ⟨_, s₂, back, hboth, hback, rfl⟩
      obtain ⟨b, s₁, front, hb, hfront, rfl⟩ := sweep_cons_eq.mp hboth
      exact ⟨b, s₁, front ++ back, hb, ih.mpr ⟨front, s₂, back, hfront, hback, rfl⟩, rfl⟩

/-- Behind items that a walk gets through it goes on as over the others alone, which it may fail at. -/
theorem sweep_append_of_eq {σ α : Type} {f : α → EStateM Failure σ α} {as front : List α} {s s₁ : σ}
    (h : sweep f as s = ⟨front, s₁, none⟩) (bs : List α) : sweep f (as ++ bs) s =
      { sweep f bs s₁ with items := front ++ (sweep f bs s₁).items } := by
  induction as generalizing front s with
  | nil =>
    cases h
    rfl
  | cons a as ih =>
    obtain ⟨b, s₂, rest, hb, hrest, rfl⟩ := sweep_cons_eq.mp h
    rw [List.cons_append, sweep, hb]
    dsimp only
    rw [ih hrest]
    rfl

/-- A walk gets to its end if each of its steps can be taken, whatever the steps before have left. -/
theorem exists_sweep {σ α : Type} {f : α → EStateM Failure σ α} {as : List α}
    (h : ∀ a ∈ as, ∀ s, ∃ b s', f a s = .ok b s') (s : σ) :
    ∃ bs s', sweep f as s = ⟨bs, s', none⟩ := by
  induction as generalizing s with
  | nil => exact ⟨[], s, rfl⟩
  | cons a as ih =>
    obtain ⟨ha, has⟩ := List.forall_mem_cons.mp h
    obtain ⟨b, s₁, hb⟩ := ha s
    obtain ⟨bs, s', hbs⟩ := ih has s₁
    exact ⟨b :: bs, s', sweep_cons_eq.mpr ⟨b, s₁, bs, hb, hbs, rfl⟩⟩

/-- A change that no step looks at can be made before a walk or after it. -/
theorem sweep_map {σ α : Type} {f : α → EStateM Failure σ α} {g : α → α}
    (h : ∀ a s, f (g a) s = (g <$> f a) s) (as : List α) (s : σ) :
    sweep f (as.map g) s = { sweep f as s with items := (sweep f as s).items.map g } := by
  induction as generalizing s with
  | nil => rfl
  | cons a as ih =>
    rw [List.map_cons, sweep, sweep, h]
    simp only [Functor.map, EStateM.map]
    cases f a s with
    | error e s' => rfl
    | ok b s' =>
      dsimp only
      rw [ih]
      rfl

/-- A walk over what a walk has made changes nothing, if no step does so. -/
theorem sweep_again {σ α : Type} {f : α → EStateM Failure σ α}
    (h : ∀ a b s s', f a s = .ok b s' → f b s = .ok b s') {as bs : List α} {s s' : σ}
    (hsweep : sweep f as s = ⟨bs, s', none⟩) : sweep f bs s = ⟨bs, s', none⟩ := by
  induction as generalizing bs s with
  | nil =>
    cases hsweep
    rfl
  | cons a as ih =>
    obtain ⟨b, s₁, rest, hb, hrest, rfl⟩ := sweep_cons_eq.mp hsweep
    exact sweep_cons_eq.mpr ⟨b, s₁, rest, h a b s s₁ hb, ih hrest, rfl⟩

end Schematic
