import Mathlib.Logic.Basic
import Mathlib.Tactic.Basic

/-!
# Unshared references

Cells that refer to other cells through labels. Some labels lead to another object, whose own
references count as well (`kid`); the others lead to plain cells. Starting from a root object,
`Reach` is the set of objects that can be reached and `Meets r b` says that reference `r` (or the
root, `none`) refers to cell `b`. When no two references meet the same cell (`Unshared`) the
objects form a tree and every cell has one owner; the lemmas below say what attaching and
detaching a childless object does to such a structure.
-/

namespace SystemsProjects.Lib

variable {β ℓ : Type} {kid : ℓ → Prop} {root : β} {out out' : β → ℓ → Option β}

/-- The objects that can be reached from `root`. -/
inductive Reach (kid : ℓ → Prop) (root : β) (out : β → ℓ → Option β) : β → Prop
  | root : Reach kid root out root
  | step {n m : β} {l : ℓ} : Reach kid root out n → kid l → out n l = some m →
      Reach kid root out m

/-- `Meets r b`: the root (`none`) or the reference `l` of a reachable object `n`
(`some (n, l)`) refers to the cell `b`. -/
def Meets (kid : ℓ → Prop) (root : β) (out : β → ℓ → Option β) : Option (β × ℓ) → β → Prop
  | none, b => b = root
  | some (n, l), b => Reach kid root out n ∧ out n l = some b

/-- The cells some reference refers to. -/
def Owned (kid : ℓ → Prop) (root : β) (out : β → ℓ → Option β) (b : β) : Prop :=
  ∃ r, Meets kid root out r b

/-- No two references refer to the same cell. -/
def Unshared (kid : ℓ → Prop) (root : β) (out : β → ℓ → Option β) : Prop :=
  ∀ r r' b, Meets kid root out r b → Meets kid root out r' b → r = r'

theorem Reach.owned {b : β} (h : Reach kid root out b) : Owned kid root out b := by
  cases h with
  | root => exact ⟨none, rfl⟩
  | step hn _ hout => exact ⟨some (_, _), hn, hout⟩

theorem Reach.owned_out {n b : β} {l : ℓ} (h : Reach kid root out n) (hout : out n l = some b) :
    Owned kid root out b :=
  ⟨some (n, l), h, hout⟩

theorem Unshared.mono (hun : Unshared kid root out)
    (h : ∀ r b, Meets kid root out' r b → Meets kid root out r b) : Unshared kid root out' :=
  fun r r' b hr hr' => hun r r' b (h r b hr) (h r' b hr')

/-- New references that meet fresh cells, each its own, keep a structure unshared. -/
theorem Unshared.extend (hun : Unshared kid root out) {New : Option (β × ℓ) → β → Prop}
    (h : ∀ r b, Meets kid root out' r b → Meets kid root out r b ∨ New r b)
    (hfresh : ∀ r b, New r b → ¬ Owned kid root out b)
    (hnew : ∀ r r' b, New r b → New r' b → r = r') : Unshared kid root out' := by
  intro r r' b hr hr'
  rcases h r b hr with hr | hr <;> rcases h r' b hr' with hr' | hr'
  · exact hun r r' b hr hr'
  · exact absurd ⟨r, hr⟩ (hfresh r' b hr')
  · exact absurd ⟨r', hr'⟩ (hfresh r b hr)
  · exact hnew r r' b hr hr'

/-- Reachability depends on the references of reachable objects only. -/
theorem reach_congr (h : ∀ n, Reach kid root out n → ∀ l, kid l → out' n l = out n l) {n : β} :
    Reach kid root out' n ↔ Reach kid root out n := by
  constructor
  · intro hn
    induction hn with
    | root => exact .root
    | step _ hl hout ih => exact .step ih hl ((h _ ih _ hl).symm.trans hout)
  · intro hn
    induction hn with
    | root => exact .root
    | step hn hl hout ih => exact .step ih hl ((h _ hn _ hl).trans hout)

theorem meets_congr (h : ∀ n, Reach kid root out n → ∀ l, out' n l = out n l)
    {r : Option (β × ℓ)} {b : β} : Meets kid root out' r b ↔ Meets kid root out r b := by
  have hreach : ∀ n, Reach kid root out' n ↔ Reach kid root out n :=
    fun n => reach_congr fun n hn l _ => h n hn l
  rcases r with _ | ⟨n, l⟩
  · exact Iff.rfl
  · simp only [Meets, hreach]
    constructor
    · rintro ⟨hn, hout⟩; exact ⟨hn, (h n hn l).symm.trans hout⟩
    · rintro ⟨hn, hout⟩; exact ⟨hn, (h n hn l).trans hout⟩

/-! ## Attaching a childless object -/

section Link
variable {n b : β} {l : ℓ}

theorem reach_link (hn : Reach kid root out n) (hl : kid l) (hnone : out n l = none)
    (hnew : out' n l = some b)
    (hsame : ∀ m, Reach kid root out m → ∀ k, (m, k) ≠ (n, l) → out' m k = out m k)
    (hleaf : ∀ k, kid k → out' b k = none) {m : β} :
    Reach kid root out' m ↔ Reach kid root out m ∨ m = b := by
  have hold : ∀ m, Reach kid root out m → Reach kid root out' m := by
    intro m hm
    induction hm with
    | root => exact .root
    | @step x y k hx hk hout ih =>
      have hne : (x, k) ≠ (n, l) := by
        rintro ⟨rfl, rfl⟩
        rw [hnone] at hout
        exact absurd hout (by simp)
      exact .step ih hk ((hsame x hx k hne).trans hout)
  constructor
  · intro hm
    induction hm with
    | root => exact .inl .root
    | @step x y k _ hk hout ih =>
      rcases ih with hx | rfl
      · by_cases he : (x, k) = (n, l)
        · obtain ⟨rfl, rfl⟩ := Prod.mk.inj he
          exact .inr (Option.some.inj (hout.symm.trans hnew))
        · exact .inl (.step hx hk ((hsame x hx k he).symm.trans hout))
      · rw [hleaf k hk] at hout
        exact absurd hout (by simp)
  · rintro (hm | rfl)
    · exact hold m hm
    · exact .step (hold n hn) hl hnew

theorem meets_link (hn : Reach kid root out n) (hl : kid l) (hnone : out n l = none)
    (hnew : out' n l = some b)
    (hsame : ∀ m, Reach kid root out m → ∀ k, (m, k) ≠ (n, l) → out' m k = out m k)
    (hleaf : ∀ k, kid k → out' b k = none) {r : Option (β × ℓ)} {x : β} :
    Meets kid root out' r x ↔ Meets kid root out r x ∨ (r = some (n, l) ∧ x = b) ∨
      ∃ k, r = some (b, k) ∧ out' b k = some x := by
  have hreach : ∀ m, Reach kid root out' m ↔ Reach kid root out m ∨ m = b :=
    fun m => reach_link hn hl hnone hnew hsame hleaf
  rcases r with _ | ⟨m, k⟩
  · simp [Meets]
  · simp only [Meets, hreach]
    constructor
    · rintro ⟨hm | rfl, hout⟩
      · by_cases he : (m, k) = (n, l)
        · obtain ⟨rfl, rfl⟩ := Prod.mk.inj he
          exact .inr (.inl ⟨rfl, Option.some.inj (hout.symm.trans hnew)⟩)
        · exact .inl ⟨hm, (hsame m hm k he).symm.trans hout⟩
      · exact .inr (.inr ⟨k, rfl, hout⟩)
    · rintro (⟨hm, hout⟩ | ⟨he, rfl⟩ | ⟨k', he, hout⟩)
      · refine ⟨.inl hm, ?_⟩
        have hne : (m, k) ≠ (n, l) := by
          rintro ⟨rfl, rfl⟩
          rw [hnone] at hout
          exact absurd hout (by simp)
        exact (hsame m hm k hne).trans hout
      · obtain ⟨rfl, rfl⟩ := Prod.mk.inj (Option.some.inj he)
        exact ⟨.inl hn, hnew⟩
      · obtain ⟨rfl, rfl⟩ := Prod.mk.inj (Option.some.inj he)
        exact ⟨.inr rfl, hout⟩

end Link

/-! ## Detaching a childless object -/

section Unlink
variable {n b : β} {l : ℓ}

theorem reach_unlink (hun : Unshared kid root out) (hn : Reach kid root out n)
    (hout : out n l = some b) (hleaf : ∀ k, kid k → out b k = none) (hcut : out' n l = none)
    (hsame : ∀ m, Reach kid root out m → ∀ k, (m, k) ≠ (n, l) → out' m k = out m k) {m : β} :
    Reach kid root out' m ↔ Reach kid root out m ∧ m ≠ b := by
  have howner : ∀ r, Meets kid root out r b → r = some (n, l) :=
    fun r hr => hun r (some (n, l)) b hr ⟨hn, hout⟩
  constructor
  · intro hm
    induction hm with
    | root =>
      refine ⟨.root, fun he => ?_⟩
      exact absurd (howner none he.symm) (by simp)
    | @step x y k _ hk hout' ih =>
      obtain ⟨hx, -⟩ := ih
      have hne : (x, k) ≠ (n, l) := by
        rintro ⟨rfl, rfl⟩
        rw [hcut] at hout'
        exact absurd hout' (by simp)
      have hxy : out x k = some y := (hsame x hx k hne).symm.trans hout'
      refine ⟨.step hx hk hxy, ?_⟩
      rintro rfl
      exact hne (Option.some.inj (howner (some (x, k)) ⟨hx, hxy⟩))
  · rintro ⟨hm, hne⟩
    induction hm with
    | root => exact .root
    | @step x y k hx hk hxy ih =>
      have hxb : x ≠ b := by
        rintro rfl
        rw [hleaf k hk] at hxy
        exact absurd hxy (by simp)
      have hk' : (x, k) ≠ (n, l) := by
        rintro ⟨rfl, rfl⟩
        exact hne (Option.some.inj (hxy.symm.trans hout))
      exact .step (ih hxb) hk ((hsame x hx k hk').trans hxy)

theorem meets_unlink (hun : Unshared kid root out) (hn : Reach kid root out n)
    (hout : out n l = some b) (hleaf : ∀ k, kid k → out b k = none) (hcut : out' n l = none)
    (hsame : ∀ m, Reach kid root out m → ∀ k, (m, k) ≠ (n, l) → out' m k = out m k)
    {r : Option (β × ℓ)} {x : β} :
    Meets kid root out' r x ↔
      Meets kid root out r x ∧ r ≠ some (n, l) ∧ ∀ k, r ≠ some (b, k) := by
  have hreach : ∀ m, Reach kid root out' m ↔ Reach kid root out m ∧ m ≠ b :=
    fun m => reach_unlink hun hn hout hleaf hcut hsame
  rcases r with _ | ⟨m, k⟩
  · simp [Meets]
  · simp only [Meets, hreach, ne_eq, Option.some.injEq, Prod.mk.injEq, not_and]
    constructor
    · rintro ⟨⟨hm, hmb⟩, hout'⟩
      have hne : (m, k) ≠ (n, l) := by
        rintro ⟨rfl, rfl⟩
        rw [hcut] at hout'
        exact absurd hout' (by simp)
      refine ⟨⟨hm, (hsame m hm k hne).symm.trans hout'⟩, ?_, fun _ he => absurd he hmb⟩
      rintro rfl rfl
      exact hne rfl
    · rintro ⟨⟨hm, hmx⟩, hne, hb⟩
      refine ⟨⟨hm, fun he => hb k he rfl⟩, (hsame m hm k ?_).trans hmx⟩
      rintro he
      obtain ⟨rfl, rfl⟩ := Prod.mk.inj he
      exact hne rfl rfl

end Unlink

end SystemsProjects.Lib
