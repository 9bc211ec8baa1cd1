import Mathlib.Data.Finset.Card
import Mathlib.Data.Finset.Filter

/-!
# First-fit allocation of numbers

An allocator that always takes the smallest free number. `FirstFit F F'`: the free numbers went
from `F` to `F'` by such allocations only. As long as enough free numbers lie below a bound, no
number at or above the bound is taken.
-/

namespace SystemsProjects.Lib

/-- `F'` is left of `F` after taking numbers in increasing order. -/
structure FirstFit (F F' : Finset Nat) : Prop where
  sub : F' ⊆ F
  low : ∀ x ∈ F, x ∉ F' → ∀ y ∈ F', x < y

namespace FirstFit
variable {F F' F'' : Finset Nat}

theorem refl (F : Finset Nat) : FirstFit F F where
  sub := Finset.Subset.refl F
  low := fun _ hx hx' => absurd hx hx'

theorem trans (h : FirstFit F F') (h' : FirstFit F' F'') : FirstFit F F'' where
  sub := h'.sub.trans h.sub
  low := by
    intro x hx hx'' y hy
    by_cases hx' : x ∈ F'
    · exact h'.low x hx' hx'' y hy
    · exact h.low x hx hx' y (h'.sub hy)

/-- One allocation. -/
theorem erase_min {b : Nat} (hmin : ∀ y ∈ F, b ≤ y) : FirstFit F (F.erase b) where
  sub := Finset.erase_subset b F
  low := by
    intro x hx hx' y hy
    have hxb : x = b := by
      by_contra hne
      exact hx' (Finset.mem_erase.mpr ⟨hne, hx⟩)
    obtain ⟨hyb, hy⟩ := Finset.mem_erase.mp hy
    have := hmin y hy
    omega

/-- If no more numbers were taken than were free below `k`, all of them are below `k`. -/
theorem lt_of_card (h : FirstFit F F') {k : Nat}
    (hcard : (F \ F').card ≤ (F.filter (· < k)).card) {x : Nat} (hx : x ∈ F) (hx' : x ∉ F') :
    x < k := by
  by_contra hk
  -- then every free number below `k` was taken, and `x` on top of them
  have hsub : insert x (F.filter (· < k)) ⊆ F \ F' := by
    intro z hz
    rcases Finset.mem_insert.mp hz with rfl | hz
    · exact Finset.mem_sdiff.mpr ⟨hx, hx'⟩
    · obtain ⟨hzF, hzk⟩ := Finset.mem_filter.mp hz
      refine Finset.mem_sdiff.mpr ⟨hzF, fun hzF' => ?_⟩
      have := h.low x hx hx' z hzF'
      omega
  have hle := Finset.card_le_card hsub
  rw [Finset.card_insert_of_notMem (by simp [hk])] at hle
  omega

/-- How many numbers were taken decides which are left. -/
theorem eq_of_card {F₁ F₂ : Finset Nat} (h : FirstFit F F₁) (h' : FirstFit F F₂)
    (hcard : F₁.card = F₂.card) : F₁ = F₂ := by
  refine Finset.eq_of_subset_of_card_le (fun x hx => ?_) hcard.ge
  by_contra hx'
  -- then everything left in `F₂` is above `x`, which is left in `F₁`
  have hsub : F₂ ⊂ F₁ := by
    refine Finset.ssubset_iff_of_subset (fun y hy => ?_) |>.mpr ⟨x, hx, hx'⟩
    by_contra hy'
    have hlt := h'.low x (h.sub hx) hx' y hy
    have hgt := h.low y (h'.sub hy) hy' x hx
    omega
  have := Finset.card_lt_card hsub
  omega

end FirstFit

end SystemsProjects.Lib
