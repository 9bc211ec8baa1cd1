import Mathlib.Tactic.Ring
import Mathlib.Data.Nat.Basic

/-!
# Little-endian numbers

A number of `n` bytes and its byte sequence. `leNat n f` is the number spelled by the bytes
`f 0, …, f (n - 1)`, least significant first; `leByte w i` is byte `i` of `w`. The two are
inverse to each other on `n` bytes.
-/

namespace SystemsProjects.Lib

/-- `Σ_{i<n} (f i).toNat * 256^i`. -/
def leNat : Nat → (Nat → UInt8) → Nat
  | 0, _ => 0
  | n + 1, f => (f 0).toNat + 256 * leNat n (fun i => f (i + 1))

/-- Byte `i` of the number `w`. -/
def leByte (w i : Nat) : UInt8 := UInt8.ofNat (w / 256 ^ i)

theorem leByte_succ (w i : Nat) : leByte w (i + 1) = leByte (w / 256) i := by
  simp only [leByte, pow_succ']
  rw [Nat.div_div_eq_div_mul]

theorem leNat_congr {n : Nat} {f g : Nat → UInt8} (h : ∀ i < n, f i = g i) :
    leNat n f = leNat n g := by
  induction n generalizing f g with
  | zero => rfl
  | succ n ih =>
    have htail : leNat n (fun i => f (i + 1)) = leNat n (fun i => g (i + 1)) :=
      ih fun i hi => h (i + 1) (by omega)
    simp only [leNat, h 0 (by omega), htail]

theorem leNat_leByte (n w : Nat) : leNat n (leByte w) = w % 256 ^ n := by
  induction n generalizing w with
  | zero => simp [leNat, Nat.mod_one]
  | succ n ih =>
    have htail : leNat n (fun i => leByte w (i + 1)) = w / 256 % 256 ^ n := by
      simp only [leByte_succ]
      exact ih (w / 256)
    have hhead : (leByte w 0).toNat = w % 256 := by simp [leByte]
    simp only [leNat, hhead, htail, pow_succ']
    rw [Nat.mod_mul]

theorem leNat_lt (n : Nat) (f : Nat → UInt8) : leNat n f < 256 ^ n := by
  induction n generalizing f with
  | zero => exact Nat.one_pos
  | succ n ih =>
    have hlow := (f 0).toNat_lt
    have hhigh := ih fun i => f (i + 1)
    rw [leNat, pow_succ]
    omega

/-- The bytes of a number written are those it was read from. -/
theorem leByte_leNat {n i : Nat} {f : Nat → UInt8} (hi : i < n) : leByte (leNat n f) i = f i := by
  induction n generalizing f i with
  | zero => exact absurd hi (Nat.not_lt_zero i)
  | succ n ih =>
    have hlow := (f 0).toNat_lt
    cases i with
    | zero =>
      rw [leNat, leByte, pow_zero, Nat.div_one]
      refine UInt8.toNat_inj.mp ?_
      rw [UInt8.toNat_ofNat']
      omega
    | succ i =>
      have hdiv : ((f 0).toNat + 256 * leNat n fun i => f (i + 1)) / 256 =
          leNat n fun i => f (i + 1) := by omega
      rw [leNat, leByte_succ, hdiv, ih (Nat.lt_of_succ_lt_succ hi)]

/-- The bits of a number go through its bytes eight by eight. -/
theorem getLsbD_leByte (w i : Nat) {j : Nat} (hj : j < 8) :
    (leByte w i).toBitVec.getLsbD j = w.testBit (8 * i + j) := by
  have hpow : 256 ^ i = 2 ^ (8 * i) := by
    rw [pow_mul]
    rfl
  rw [leByte, UInt8.toBitVec_ofNat', BitVec.getLsbD_ofNat, hpow, Nat.testBit_div_two_pow,
    decide_eq_true hj, Bool.true_and, Nat.add_comm j]

end SystemsProjects.Lib
