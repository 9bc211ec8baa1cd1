import SystemsProjects.Lib.Steps
import Mathlib.Data.List.ReduceOption
import Mathlib.Logic.Function.Basic

/-!
# Linearizable histories

A sequential object is a function `step` from a state and a call to the next state and a result.
Clients use it concurrently: a client invokes a call, at one moment the call is performed, and later
the client gets the result. A history of invocations and responses is linearizable if it is what can
be seen of such a run, so that every call can be taken to be performed at one moment between its
invocation and its response. A system whose steps are matched by the steps of such an object has
only linearizable histories.
-/

namespace SystemsProjects.Lib

variable {σ ι C R : Type}

/-- What can be seen of a call of client `i`. -/
inductive Event (ι C R : Type) where
  | invoke (i : ι) (c : C)
  | respond (i : ι) (r : R)

/-- Where a client is with its call. -/
inductive Pending (C R : Type) where
  | none
  | waiting (c : C)
  | done (r : R)

/-- An object and its clients. -/
@[ext]
structure Atomic (σ ι C R : Type) where
  state : σ
  clients : ι → Pending C R

/-- Nobody has called. -/
def Atomic.init (s : σ) : Atomic σ ι C R := ⟨s, fun _ => .none⟩

variable [DecidableEq ι] {step : σ → C → σ × R}

def Atomic.set (a : Atomic σ ι C R) (i : ι) (p : Pending C R) : Atomic σ ι C R :=
  { a with clients := Function.update a.clients i p }

/-- An invocation, a response, or the moment at which a call is performed. -/
inductive AtomicStep (step : σ → C → σ × R) :
    Atomic σ ι C R → Option (Event ι C R) → Atomic σ ι C R → Prop
  | invoke {a : Atomic σ ι C R} {i : ι} {c : C} : a.clients i = .none →
      AtomicStep step a (some (.invoke i c)) (a.set i (.waiting c))
  | perform {a : Atomic σ ι C R} {i : ι} {c : C} : a.clients i = .waiting c →
      AtomicStep step a none
        { a.set i (.done (step a.state c).2) with state := (step a.state c).1 }
  | respond {a : Atomic σ ι C R} {i : ι} {r : R} : a.clients i = .done r →
      AtomicStep step a (some (.respond i r)) (a.set i .none)

/-- A history from state `s` on in which every call is performed at one moment. -/
def Linearizable (step : σ → C → σ × R) (s : σ) (history : List (Event ι C R)) : Prop :=
  ∃ ls a, Steps (AtomicStep step) (.init s) ls a ∧ ls.reduceOption = history

/-- One step of the object at most, seen as `e`. -/
def AtomicMatch (step : σ → C → σ × R) (a : Atomic σ ι C R) (e : Option (Event ι C R))
    (a' : Atomic σ ι C R) : Prop :=
  AtomicStep step a e a' ∨ (e = none ∧ a' = a)

/-- A system that an object follows step by step has linearizable histories. -/
theorem linearizable_of_sim {τ κ : Type} {next : τ → κ → τ → Prop} {Rel : τ → Atomic σ ι C R → Prop}
    (seen : κ → Option (Event ι C R))
    (hsim : ∀ t k t' a, Rel t a → next t k t' → ∃ a', AtomicMatch step a (seen k) a' ∧ Rel t' a')
    {t t' : τ} {ks : List κ} {s : σ} (hrun : Steps next t ks t') (h0 : Rel t (.init s)) :
    Linearizable step s (ks.map seen).reduceOption := by
  have hsteps : ∀ (a : Atomic σ ι C R), Rel t a →
      ∃ ls a', Steps (AtomicStep step) a ls a' ∧
        ls.reduceOption = (ks.map seen).reduceOption := by
    clear h0
    induction hrun with
    | nil t => exact fun a _ => ⟨[], a, .nil a, rfl⟩
    | @cons t u v k ks hstep _ ih =>
      intro a ha
      obtain ⟨b, hmatch, hb⟩ := hsim t k u a ha hstep
      obtain ⟨ls, a', hls, heq⟩ := ih b hb
      rcases hmatch with hstep' | ⟨hnone, rfl⟩
      · refine ⟨seen k :: ls, a', .cons hstep' hls, ?_⟩
        rw [List.map_cons]
        cases seen k with
        | none => rw [List.reduceOption_cons_of_none, List.reduceOption_cons_of_none, heq]
        | some e => rw [List.reduceOption_cons_of_some, List.reduceOption_cons_of_some, heq]
      · refine ⟨ls, a', hls, ?_⟩
        rw [List.map_cons, hnone, List.reduceOption_cons_of_none, heq]
  exact hsteps _ h0

end SystemsProjects.Lib
