import Mathlib.Data.List.GetD
import Mathlib.Data.Nat.Basic
import Mathlib.Tactic.Ring
import Mathlib.Tactic.SplitIfs

/-!
# A screen over a tape

Everything that was ever written on a terminal is a tape. The screen is a window of `cap` cells over
it, that moves on by a row of `cols` cells when a cell is written behind its end. `Displays` says
that the screen shows the tape from the first cell of a row on, no later than it has to.
-/

namespace SystemsProjects.Lib.Scrollback

variable {α : Type}

/-- The cells that were written, and what the cells behind them hold. -/
structure Tape (α : Type) where
  written : List α
  rest : Nat → α

namespace Tape

def length (t : Tape α) : Nat := t.written.length

def get (t : Tape α) (i : Nat) : α := t.written.getD i (t.rest i)

def put (t : Tape α) (x : α) : Tape α := { t with written := t.written ++ [x] }

def puts (t : Tape α) (xs : List α) : Tape α := xs.foldl put t

@[simp] theorem length_put (t : Tape α) (x : α) : (t.put x).length = t.length + 1 :=
  List.length_append

@[simp] theorem rest_put (t : Tape α) (x : α) : (t.put x).rest = t.rest := rfl

@[simp] theorem length_puts (t : Tape α) (xs : List α) :
    (t.puts xs).length = t.length + xs.length := by
  induction xs generalizing t with
  | nil => rfl
  | cons x xs ih =>
    have := ih (t.put x)
    simp only [length_put] at this
    rw [List.length_cons, puts, List.foldl_cons, ← puts, this]
    omega

@[simp] theorem rest_puts (t : Tape α) (xs : List α) : (t.puts xs).rest = t.rest := by
  induction xs generalizing t with
  | nil => rfl
  | cons x xs ih => exact ih (t.put x)

theorem get_put (t : Tape α) (x : α) (i : Nat) :
    (t.put x).get i = if i = t.length then x else t.get i := by
  unfold get put length
  split_ifs with h
  · subst h
    simp
  · rcases Nat.lt_or_gt_of_ne h with hlt | hgt
    · simp [List.getElem?_append_left hlt]
    · rw [List.getD_eq_default _ _ (by simp; omega), List.getD_eq_default _ _ (by omega)]

end Tape

/-- The window shows the tape from cell `k` on, and writing goes on at cell `pos` of it. -/
structure Shows (cap : Nat) (t : Tape α) (window : Nat → α) (k pos : Nat) : Prop where
  length : t.length = k + pos
  room : pos ≤ cap
  cell : ∀ i, i < cap → window i = t.get (k + i)

/-- The window after it has moved on by a row. -/
def scrolled (cap cols : Nat) (blank : α) (window : Nat → α) (i : Nat) : α :=
  if i + cols < cap then window (i + cols) else if i < cap then blank else window i

section Shows
variable {cap cols k pos : Nat} {t : Tape α} {window : Nat → α} {blank : α}

theorem Shows.put (h : Shows cap t window k pos) (hpos : pos < cap) (x : α) :
    Shows cap (t.put x) (Function.update window pos x) k (pos + 1) where
  length := by rw [Tape.length_put, h.length, Nat.add_assoc]
  room := hpos
  cell := by
    intro i hi
    rw [t.get_put, h.length, Function.update_apply]
    by_cases hip : i = pos
    · rw [if_pos hip, if_pos (by omega)]
    · rw [if_neg hip, if_neg (by omega)]
      exact h.cell i hi

theorem Shows.scroll (h : Shows cap t window k cap) (hcols : cols ≤ cap)
    (hrest : ∀ j, cap ≤ j → t.rest j = blank) :
    Shows cap t (scrolled cap cols blank window) (k + cols) (cap - cols) where
  length := by rw [h.length]; omega
  room := Nat.sub_le cap cols
  cell := by
    intro i hi
    unfold scrolled
    split_ifs with hin
    · rw [h.cell (i + cols) hin]
      congr 1
      omega
    · have hlen : t.written.length ≤ k + cols + i := by
        have := h.length
        unfold Tape.length at this
        omega
      rw [Tape.get, List.getD_eq_default _ _ hlen, hrest _ (by omega)]

end Shows

/-- The window has moved on by whole rows, and not before its last row was needed. -/
structure Displays (cap cols : Nat) (t : Tape α) (window : Nat → α) (k pos : Nat) : Prop
    extends Shows cap t window k pos where
  rows : cols ∣ k
  late : k = 0 ∨ cap < pos + cols

/-- The first cell that is shown of a tape of `n` cells. -/
def firstCell (cap cols n : Nat) : Nat := (n - cap + cols - 1) / cols * cols

theorem Displays.first_eq {cap cols k pos : Nat} {t : Tape α} {window : Nat → α}
    (h : Displays cap cols t window k pos) (hcols : 0 < cols) :
    k = firstCell cap cols t.length := by
  have hlen := h.length
  have hroom := h.room
  obtain ⟨q, hq⟩ := h.rows
  have hmul : q * cols = k := by rw [hq, Nat.mul_comm]
  have hsucc : (q + 1) * cols = k + cols := by rw [Nat.succ_mul, hmul]
  have hdiv : (t.length - cap + cols - 1) / cols = q := by
    apply Nat.div_eq_of_lt_le
    · rcases h.late with h0 | hlate
      · omega
      · omega
    · rcases h.late with h0 | hlate
      · omega
      · omega
  unfold firstCell
  rw [hdiv, hmul]

end SystemsProjects.Lib.Scrollback
