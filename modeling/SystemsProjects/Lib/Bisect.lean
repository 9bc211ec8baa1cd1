import Mathlib.Tactic.SplitIfs

/-!
# Binary search

`bisect hit below l r` looks for an index in `[l, r)` that `hit` accepts. Where the one in the
middle is not accepted, it goes on behind it if it is `below` what is looked for, and before it
otherwise.
-/

namespace SystemsProjects.Lib

def bisect (hit below : Nat → Bool) (l r : Nat) : Option Nat :=
  if l < r then
    let m := l + (r - l) / 2
    if hit m then some m else if below m then bisect hit below (m + 1) r else bisect hit below l m
  else none
termination_by r - l

variable {hit below : Nat → Bool} {l r m t : Nat}

/-- What is found is accepted. -/
theorem bisect_hit (h : bisect hit below l r = some m) : l ≤ m ∧ m < r ∧ hit m = true := by
  fun_induction bisect hit below l r with
  | case1 l r hlt mid hhit =>
    obtain rfl := Option.some.inj h
    exact ⟨by omega, by omega, hhit⟩
  | case2 l r hlt mid hhit hbelow ih =>
    obtain ⟨hl, hr, hm⟩ := ih h
    exact ⟨by omega, hr, hm⟩
  | case3 l r hlt mid hhit hbelow ih =>
    obtain ⟨hl, hr, hm⟩ := ih h
    exact ⟨hl, by omega, hm⟩
  | case4 => exact nomatch h

/-- An accepted index is found if the ones before it are below it and not accepted, and the ones
behind it are neither. -/
theorem bisect_eq_some (hl : l ≤ t) (hr : t < r) (ht : hit t = true)
    (hbefore : ∀ m, l ≤ m → m < t → hit m = false ∧ below m = true)
    (hbehind : ∀ m, t < m → m < r → hit m = false ∧ below m = false) :
    bisect hit below l r = some t := by
  fun_induction bisect hit below l r with
  | case1 l r hlt mid hhit =>
    -- no other index is accepted
    rcases Nat.lt_trichotomy mid t with h | h | h
    · exact absurd hhit (by rw [(hbefore mid (by omega) h).1]; decide)
    · rw [h]
    · exact absurd hhit (by rw [(hbehind mid h (by omega)).1]; decide)
  | case2 l r hlt mid hhit hbelow ih =>
    have hmid : mid < t := by
      rcases Nat.lt_trichotomy mid t with h | h | h
      · exact h
      · exact absurd ht (h ▸ hhit)
      · exact absurd hbelow (by rw [(hbehind mid h (by omega)).2]; decide)
    exact ih hmid hr (fun m hm => hbefore m (by omega)) hbehind
  | case3 l r hlt mid hhit hbelow ih =>
    have hmid : t < mid := by
      rcases Nat.lt_trichotomy mid t with h | h | h
      · exact absurd (hbefore mid (by omega) h).2 hbelow
      · exact absurd ht (h ▸ hhit)
      · exact h
    exact ih hl hmid hbefore fun m hm hmr => hbehind m hm (by omega)
  | case4 l r hlt => exact absurd (Nat.lt_of_le_of_lt hl hr) hlt

end SystemsProjects.Lib
