import Mathlib.Data.Nat.Basic
import Mathlib.Tactic.SplitIfs

/-!
# Round robin

A ring of `n` places. `next p n rounds i` goes around the ring from the place after `i` on and stops
at the first place that passes `p`. Every stop is closer to a place that passes than the stop
before, so from each place that passes it comes around before anybody had a second turn.
-/

namespace SystemsProjects.Lib.RoundRobin

/-- The first place after `i` that passes, in `rounds` steps at most. -/
def next (p : Nat → Bool) (n : Nat) : Nat → Nat → Option Nat
  | 0, _ => none
  | rounds + 1, i =>
    if p ((i + 1) % n) then some ((i + 1) % n) else next p n rounds ((i + 1) % n)

/-- How many steps lead from `i` to `j`; once around for `i` itself. -/
def ahead (n i j : Nat) : Nat := if i < j then j - i else j + n - i

variable {p : Nat → Bool} {n i j q rounds : Nat}

theorem ahead_le (hj : j < n) : ahead n i j ≤ n := by
  unfold ahead
  split_ifs <;> omega

/-- The place after `i` is `j`, or one step closer to it. -/
theorem ahead_succ (hi : i < n) (hj : j < n) : (i + 1) % n = j ∧ ahead n i j = 1 ∨
    (i + 1) % n ≠ j ∧ ahead n i j = ahead n ((i + 1) % n) j + 1 := by
  have hmod : (i + 1) % n = if i + 1 = n then 0 else i + 1 := by
    split_ifs with h
    · rw [h, Nat.mod_self]
    · exact Nat.mod_eq_of_lt (by omega)
  rw [hmod]
  unfold ahead
  split_ifs <;> omega

theorem next_passes (hn : 0 < n) (h : next p n rounds i = some q) : p q = true ∧ q < n := by
  induction rounds generalizing i with
  | zero => cases h
  | succ rounds ih =>
    unfold next at h
    split_ifs at h with hp
    · obtain rfl := Option.some.inj h
      exact ⟨hp, Nat.mod_lt _ hn⟩
    · exact ih h

/-- A place that passes is reached, or the stop is closer to it. -/
theorem next_ahead (hi : i < n) (hj : j < n) (hp : p j = true) (hrounds : ahead n i j ≤ rounds) :
    ∃ q, next p n rounds i = some q ∧ (q = j ∨ ahead n q j < ahead n i j) := by
  induction rounds generalizing i with
  | zero =>
    rcases ahead_succ hi hj with ⟨-, hone⟩ | ⟨-, hmore⟩
    · omega
    · omega
  | succ rounds ih =>
    have hlt : (i + 1) % n < n := Nat.mod_lt _ (by omega)
    unfold next
    rcases ahead_succ hi hj with ⟨hnext, -⟩ | ⟨-, hmore⟩
    · refine ⟨j, ?_, .inl rfl⟩
      rw [hnext, if_pos hp]
    · split_ifs with hpass
      · exact ⟨(i + 1) % n, rfl, .inr (by omega)⟩
      · obtain ⟨q, hq, hclose⟩ := ih hlt (by omega)
        exact ⟨q, hq, hclose.imp_right fun hlt => by omega⟩

/-- Once around the ring, and more rounds find nothing. -/
theorem next_eq_none_iff (hi : i < n) (hrounds : n ≤ rounds) :
    next p n rounds i = none ↔ ∀ j, j < n → p j = false := by
  constructor
  · intro hnone j hj
    cases hp : p j with
    | false => rfl
    | true =>
      have hle := ahead_le (i := i) hj
      obtain ⟨q, hq, -⟩ := @next_ahead p n i j rounds hi hj hp (by omega)
      rw [hnone] at hq
      cases hq
  · intro hall
    cases hnext : next p n rounds i with
    | none => rfl
    | some q =>
      obtain ⟨hp, hq⟩ := next_passes (by omega) hnext
      rw [hall q hq] at hp
      cases hp

/-- Among the places 1 to `m` the order does not depend on the size of the ring. -/
theorem ahead_lt_of_ahead_lt {m : Nat} (hm : m ≤ n) (hi : i ≤ m) (h1 : 1 ≤ q) (hq : q ≤ m)
    (h : ahead n q j < ahead n i j) : ahead m q j < ahead m i j := by
  unfold ahead at h ⊢
  split_ifs at h ⊢ <;> omega

end SystemsProjects.Lib.RoundRobin
