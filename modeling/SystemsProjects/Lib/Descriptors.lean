import Mathlib.Data.List.Basic

/-!
# Descriptor tables

The table of a process gives each open descriptor the thing it refers to. `alloc` takes the
smallest descriptor that is free, as `open` and `pipe` do; `dup2` and `close` leave the table alone
when they fail. Tables are compared through `get`.
-/

namespace SystemsProjects.Lib

/-- A table; slot `n` is `none` when descriptor `n` is closed. -/
structure Descriptors (α : Type) where
  slots : List (Option α)
  deriving DecidableEq

namespace Descriptors
variable {α : Type}

def get (t : Descriptors α) (n : Nat) : Option α := (t.slots[n]?).join

/-- The table with slot `n` set. -/
def put (t : Descriptors α) (n : Nat) (v : Option α) : Descriptors α :=
  ⟨(List.range (max t.slots.length (n + 1))).map fun m => if m = n then v else t.get m⟩

/-- The smallest free descriptor. -/
def lowest (t : Descriptors α) : Nat := t.slots.findIdx Option.isNone

/-- `open`: a new descriptor for `a`. -/
def alloc (t : Descriptors α) (a : α) : Nat × Descriptors α := (t.lowest, t.put t.lowest (some a))

/-- `pipe`: the descriptors of the two ends. -/
def pipe (t : Descriptors α) (r w : α) : (Nat × Nat) × Descriptors α :=
  let (p0, t) := t.alloc r
  let (p1, t) := t.alloc w
  ((p0, p1), t)

def close (t : Descriptors α) (n : Nat) : Descriptors α := t.put n none

def dup2 (t : Descriptors α) (old new : Nat) : Descriptors α :=
  match t.get old with
  | none => t
  | some a => t.put new (some a)

/-- `dup2 (old, new); close (old);`. -/
def moveTo (t : Descriptors α) (old new : Nat) : Descriptors α := (t.dup2 old new).close old

variable {t : Descriptors α} {a : α} {m n old new : Nat}

@[simp]
theorem get_put (v : Option α) : (t.put n v).get m = if m = n then v else t.get m := by
  by_cases hm : m < max t.slots.length (n + 1)
  · simp [put, get, hm]
  · have hlen : t.slots[m]? = none := List.getElem?_eq_none (by omega)
    have hne : m ≠ n := by omega
    rw [if_neg hne, get, get, hlen, put, List.getElem?_eq_none (by simpa using hm)]

@[simp]
theorem get_close : (t.close n).get m = if m = n then none else t.get m := get_put none

theorem get_lowest (t : Descriptors α) : t.get t.lowest = none := by
  unfold get lowest
  by_cases h : t.slots.findIdx Option.isNone < t.slots.length
  · have hnone := List.findIdx_getElem (w := h)
    rw [List.getElem?_eq_getElem h, Option.isNone_iff_eq_none.mp hnone]
    rfl
  · rw [List.getElem?_eq_none (Nat.not_lt.mp h)]
    rfl

theorem ne_lowest (h : t.get m ≠ none) : m ≠ t.lowest := by
  rintro rfl
  exact h t.get_lowest

theorem get_alloc : (t.alloc a).2.get m = if m = t.lowest then some a else t.get m :=
  get_put (some a)

/-- What `pipe` does: two free descriptors become the ends. -/
structure Piped (t : Descriptors α) (r w : α) (p : (Nat × Nat) × Descriptors α) : Prop where
  free₀ : t.get p.1.1 = none
  free₁ : t.get p.1.2 = none
  ne : p.1.1 ≠ p.1.2
  get : ∀ m, p.2.get m = if m = p.1.1 then some r else if m = p.1.2 then some w else t.get m

theorem piped (t : Descriptors α) (r w : α) : Piped t r w (t.pipe r w) := by
  have hne : t.lowest ≠ (t.alloc r).2.lowest := by
    apply ne_lowest
    rw [get_alloc, if_pos rfl]
    simp
  have hfree := (t.alloc r).2.get_lowest
  rw [get_alloc, if_neg hne.symm] at hfree
  refine ⟨t.get_lowest, hfree, hne, fun m => ?_⟩
  show ((t.alloc r).2.alloc w).2.get m = _
  rw [get_alloc, get_alloc]
  by_cases hm : m = t.lowest
  · rw [if_neg (fun h => hne (hm.symm.trans h)), if_pos hm]
    exact (if_pos hm).symm
  · rw [if_neg hm]
    exact (if_neg hm).symm

theorem get_moveTo (hold : t.get old = some a) :
    (t.moveTo old new).get m = if m = old then none else if m = new then some a else t.get m := by
  rw [moveTo, get_close, dup2, hold]
  simp

theorem get_moveTo_closed (hold : t.get old = none) : (t.moveTo old new).get m = t.get m := by
  rw [moveTo, get_close, dup2, hold]
  by_cases hm : m = old
  · rw [if_pos hm, hm, hold]
  · rw [if_neg hm]

/-- A new descriptor moved onto an open one replaces what that one refers to. -/
theorem get_alloc_moveTo (hn : t.get n ≠ none) :
    ((t.alloc a).2.moveTo (t.alloc a).1 n).get m = if m = n then some a else t.get m := by
  have hne : n ≠ t.lowest := ne_lowest hn
  have hnew : (t.alloc a).2.get t.lowest = some a := by rw [get_alloc, if_pos rfl]
  show ((t.alloc a).2.moveTo t.lowest n).get m = _
  rw [get_moveTo hnew, get_alloc]
  by_cases hm : m = t.lowest
  · rw [if_pos hm, if_neg (fun h => hne (h.symm.trans hm)), hm, get_lowest]
  · rw [if_neg hm, if_neg hm]

end Descriptors

end SystemsProjects.Lib
