import Mathlib.Logic.Basic

/-!
# Runs of a labelled transition relation

`Steps step s is s'`: from `s`, the inputs `is` taken one after another lead to `s'`. An
invariant of one step is an invariant of every run.
-/

namespace SystemsProjects.Lib

variable {σ ι : Type} {step : σ → ι → σ → Prop}

/-- A finite run of `step`, with the inputs it takes in order. -/
inductive Steps (step : σ → ι → σ → Prop) : σ → List ι → σ → Prop
  | nil (s : σ) : Steps step s [] s
  | cons {s t u : σ} {i : ι} {is : List ι} : step s i t → Steps step t is u →
      Steps step s (i :: is) u

/-- What every step preserves holds at the end of every run. -/
theorem Steps.invariant {P : σ → Prop} (hstep : ∀ s i t, P s → step s i t → P t) {s u : σ}
    {is : List ι} (hrun : Steps step s is u) (hs : P s) : P u := by
  induction hrun with
  | nil => exact hs
  | cons h _ ih => exact ih (hstep _ _ _ hs h)

theorem Steps.single {s t : σ} {i : ι} (h : step s i t) : Steps step s [i] t :=
  .cons h (.nil t)

/-- If `f` takes every step from a state with the invariant to a step, it takes runs to runs. -/
theorem Steps.refine {τ : Type} {step' : τ → ι → τ → Prop} {P : σ → Prop} (f : σ → τ)
    (hinv : ∀ s i t, P s → step s i t → P t)
    (hstep : ∀ s i t, P s → step s i t → step' (f s) i (f t)) {s u : σ} {is : List ι}
    (hrun : Steps step s is u) (hs : P s) : Steps step' (f s) is (f u) := by
  induction hrun with
  | nil s => exact .nil (f s)
  | cons h _ ih => exact .cons (hstep _ _ _ hs h) (ih (hinv _ _ _ hs h))

/-- A part `f` of the state that only the inputs `mine` touches: it goes through a run of its own.
-/
theorem Steps.project {τ κ : Type} {step' : τ → κ → τ → Prop} {P : σ → Prop} (f : σ → τ)
    (mine : ι → Option κ) (hinv : ∀ s i t, P s → step s i t → P t)
    (hmine : ∀ s i t k, P s → step s i t → mine i = some k → step' (f s) k (f t))
    (hother : ∀ s i t, P s → step s i t → mine i = none → f t = f s) {s u : σ} {is : List ι}
    (hrun : Steps step s is u) (hs : P s) : Steps step' (f s) (is.filterMap mine) (f u) := by
  induction hrun with
  | nil s => exact .nil (f s)
  | @cons s t u i is h _ ih =>
    have hrest := ih (hinv _ _ _ hs h)
    cases hk : mine i with
    | none =>
      rw [List.filterMap_cons_none hk, ← hother _ _ _ hs h hk]
      exact hrest
    | some k =>
      rw [List.filterMap_cons_some hk]
      exact .cons (hmine _ _ _ _ hs h hk) hrest

/-- Two runs one after the other. -/
theorem Steps.append {s t u : σ} {is js : List ι} (h : Steps step s is t) (h' : Steps step t js u) :
    Steps step s (is ++ js) u := by
  induction h with
  | nil => exact h'
  | cons hstep _ ih => exact .cons hstep (ih h')

end SystemsProjects.Lib
