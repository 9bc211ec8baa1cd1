import Mathlib.Logic.Basic

/-!
# Machines that may or may not halt

A deterministic machine is a function `step : σ → σ ⊕ ρ`: the next state or the result. A status
is a state or a result. `Ends step x r`: from status `x` the machine reaches the result `r`.
-/

namespace SystemsProjects.Lib

variable {σ ρ : Type} {step : σ → σ ⊕ ρ}

/-- From a status, `n` steps lead to the result. -/
inductive EndsIn (step : σ → σ ⊕ ρ) : Nat → σ ⊕ ρ → ρ → Prop
  | done (r : ρ) : EndsIn step 0 (.inr r) r
  | next {n : Nat} {s : σ} {r : ρ} : EndsIn step n (step s) r → EndsIn step (n + 1) (.inl s) r

/-- From a status, the machine halts with the result. -/
def Ends (step : σ → σ ⊕ ρ) (x : σ ⊕ ρ) (r : ρ) : Prop := ∃ n, EndsIn step n x r

theorem ends_inr {r r' : ρ} : Ends step (.inr r) r' ↔ r' = r := by
  constructor
  · rintro ⟨n, h⟩
    cases h
    rfl
  · rintro rfl
    exact ⟨0, .done r'⟩

theorem ends_inl {s : σ} {r : ρ} : Ends step (.inl s) r ↔ Ends step (step s) r := by
  constructor
  · rintro ⟨n, h⟩
    cases h with
    | next h => exact ⟨_, h⟩
  · rintro ⟨n, h⟩
    exact ⟨n + 1, .next h⟩

/-- From a status, the machine halts. -/
def Halts (step : σ → σ ⊕ ρ) (x : σ ⊕ ρ) : Prop := ∃ r, Ends step x r

theorem halts_inr (r : ρ) : Halts step (.inr r) := ⟨r, ends_inr.mpr rfl⟩

theorem halts_inl {s : σ} : Halts step (.inl s) ↔ Halts step (step s) :=
  exists_congr fun _ => ends_inl

theorem Ends.unique {x : σ ⊕ ρ} {r r' : ρ} (h : Ends step x r) (h' : Ends step x r') : r = r' := by
  obtain ⟨n, h⟩ := h
  induction h with
  | done r => exact (ends_inr.mp h').symm
  | next _ ih => exact ih (ends_inl.mp h')

/-- What the steps preserve holds of the result. -/
theorem Ends.invariant {P : σ ⊕ ρ → Prop} (hstep : ∀ s, P (.inl s) → P (step s)) {x : σ ⊕ ρ}
    {r : ρ} (h : Ends step x r) (hx : P x) : P (.inr r) := by
  obtain ⟨n, h⟩ := h
  induction h with
  | done r => exact hx
  | next _ ih => exact ih (hstep _ hx)

/-- A state that every step leads back to the like of never halts. -/
theorem not_halts_of_cycle {P : σ → Prop} (hstep : ∀ s, P s → ∃ s', step s = .inl s' ∧ P s')
    {s : σ} (hs : P s) : ¬ Halts step (.inl s) := by
  rintro ⟨r, h⟩
  -- the invariant of the run: the status is a state of the cycle
  have hinv := h.invariant (P := fun x => ∃ s, x = .inl s ∧ P s) ?_ ⟨s, rfl, hs⟩
  · obtain ⟨_, hr, -⟩ := hinv
    exact absurd hr (by simp)
  · rintro s ⟨s', heq, hs'⟩
    obtain rfl := Sum.inl.inj heq
    exact hstep s hs'

/-- A machine halts if a measure of its states decreases with every step. -/
theorem halts_of_measure {P : σ → Prop} (μ : σ → Nat)
    (hstep : ∀ s, P s → Halts step (.inl s) ∨ ∃ s', step s = .inl s' ∧ P s' ∧ μ s' < μ s)
    {s : σ} (hs : P s) : Halts step (.inl s) := by
  induction hn : μ s using Nat.strongRecOn generalizing s with
  | ind n ih =>
    rcases hstep s hs with h | ⟨s', heq, hs', hlt⟩
    · exact h
    · rw [halts_inl, heq]
      exact ih (μ s') (hn ▸ hlt) hs' rfl

/-- Two machines that take their steps together end together. -/
theorem Ends.sim {τ θ : Type} {step' : τ → τ ⊕ θ} {R : σ → τ → Prop} {Q : ρ → θ → Prop}
    (hstep : ∀ s t, R s t → Sum.LiftRel R Q (step s) (step' t)) {x : σ ⊕ ρ} {y : τ ⊕ θ}
    (hxy : Sum.LiftRel R Q x y) {r : ρ} (h : Ends step x r) : ∃ r', Ends step' y r' ∧ Q r r' := by
  obtain ⟨n, h⟩ := h
  induction h generalizing y with
  | done r =>
    cases hxy with
    | inr hQ => exact ⟨_, ends_inr.mpr rfl, hQ⟩
  | next _ ih =>
    cases hxy with
    | inl hR =>
      obtain ⟨r', hr', hQ⟩ := ih (hstep _ _ hR)
      exact ⟨r', ends_inl.mpr hr', hQ⟩

theorem liftRel_flip {τ θ : Type} {R : σ → τ → Prop} {Q : ρ → θ → Prop} {x : σ ⊕ ρ} {y : τ ⊕ θ}
    (h : Sum.LiftRel R Q x y) : Sum.LiftRel (fun t s => R s t) (fun r' r => Q r r') y x := by
  cases h with
  | inl hR => exact .inl hR
  | inr hQ => exact .inr hQ

theorem Ends.sim_symm {τ θ : Type} {step' : τ → τ ⊕ θ} {R : σ → τ → Prop} {Q : ρ → θ → Prop}
    (hstep : ∀ s t, R s t → Sum.LiftRel R Q (step s) (step' t)) {x : σ ⊕ ρ} {y : τ ⊕ θ}
    (hxy : Sum.LiftRel R Q x y) {r' : θ} (h : Ends step' y r') : ∃ r, Ends step x r ∧ Q r r' := by
  refine h.sim (R := fun t s => R s t) (Q := fun r' r => Q r r') ?_ (liftRel_flip hxy)
  intro t s hR
  exact liftRel_flip (hstep s t hR)

/-- From a status, the machine is at some time in the state. -/
inductive Passes (step : σ → σ ⊕ ρ) : σ ⊕ ρ → σ → Prop
  | here (s : σ) : Passes step (.inl s) s
  | next {s s' : σ} : Passes step (step s) s' → Passes step (.inl s) s'

theorem passes_inl {s s' : σ} : Passes step (.inl s) s' ↔ s' = s ∨ Passes step (step s) s' := by
  constructor
  · intro h
    cases h with
    | here => exact .inl rfl
    | next h => exact .inr h
  · rintro (rfl | h)
    · exact .here s'
    · exact .next h

theorem not_passes_inr {r : ρ} {s : σ} : ¬ Passes step (.inr r) s := by
  intro h
  cases h

/-- Two machines that take their steps together, something of kind `α` being carried along: it stays
clean as long as the first machine passes no bad state. -/
theorem Ends.carry {τ θ α : Type} {step' : τ → τ ⊕ θ} {R : α → σ ⊕ ρ → τ ⊕ θ → Prop}
    {Clean : α → Prop} {Bad : σ → Prop} (hres : ∀ a r y, R a (.inr r) y → ∃ r', y = .inr r')
    (hstep : ∀ a s y, R a (.inl s) y →
      ∃ t a', y = .inl t ∧ R a' (step s) (step' t) ∧ (Clean a' ↔ Clean a ∧ ¬ Bad s))
    {a : α} {x : σ ⊕ ρ} {y : τ ⊕ θ} (hxy : R a x y) {r : ρ} (h : Ends step x r) :
    ∃ r' a', Ends step' y r' ∧ R a' (.inr r) (.inr r') ∧
      (Clean a' ↔ Clean a ∧ ∀ s, Passes step x s → ¬ Bad s) := by
  obtain ⟨n, h⟩ := h
  induction h generalizing a y with
  | done r =>
    obtain ⟨r', rfl⟩ := hres a r y hxy
    refine ⟨r', a, ends_inr.mpr rfl, hxy, ?_⟩
    exact ⟨fun h => ⟨h, fun s hs => absurd hs not_passes_inr⟩, fun h => h.1⟩
  | @next n s r _ ih =>
    obtain ⟨t, a', rfl, hR, hclean⟩ := hstep a s y hxy
    obtain ⟨r', a'', hends, hR', hclean'⟩ := ih hR
    refine ⟨r', a'', ends_inl.mpr hends, hR', ?_⟩
    rw [hclean', hclean, and_assoc]
    refine and_congr_right fun _ => ?_
    simp only [passes_inl, forall_eq_or_imp]

end SystemsProjects.Lib
