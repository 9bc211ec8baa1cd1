import Mathlib.Data.Multiset.ZeroCons
import Mathlib.Data.Multiset.AddSub
import Mathlib.Data.Multiset.UnionInter

/-!
# The blocks of a heap

A heap knows its blocks by names, which are not used again. `free` of a block that is not in use
(freed before, or never allocated) is `none`.
-/

namespace SystemsProjects.Lib

/-- The blocks in use, and a bound on all names so far. -/
structure Heap where
  live : Multiset Nat
  next : Nat
  nodup : live.Nodup
  bound : ∀ b ∈ live, b < next

namespace Heap

def empty : Heap := ⟨0, 0, Multiset.nodup_zero, by simp⟩

/-- The new block, and the heap with it. -/
def malloc (h : Heap) : Nat × Heap where
  fst := h.next
  snd :=
    { live := h.next ::ₘ h.live
      next := h.next + 1
      nodup := Multiset.nodup_cons.mpr ⟨fun hmem => Nat.lt_irrefl _ (h.bound _ hmem), h.nodup⟩
      bound := by
        intro b hb
        rcases Multiset.mem_cons.mp hb with rfl | hb
        · exact Nat.lt_succ_self h.next
        · exact Nat.lt_succ_of_lt (h.bound b hb) }

def free (b : Nat) (h : Heap) : Option Heap :=
  if b ∈ h.live then
    some
      { live := h.live.erase b
        next := h.next
        nodup := h.nodup.erase b
        bound := fun b' hb' => h.bound b' (Multiset.mem_of_mem_erase hb') }
  else none

/-- The blocks are freed one after the other. -/
def freeAll (bs : List Nat) (h : Heap) : Option Heap := bs.foldlM (fun h b => h.free b) h

variable {h : Heap} {rest : Multiset Nat}

@[simp] theorem live_malloc (h : Heap) : h.malloc.2.live = {h.malloc.1} + h.live := rfl

theorem free_of_live {b : Nat} (hlive : h.live = {b} + rest) :
    ∃ h', h.free b = some h' ∧ h'.live = rest := by
  have hmem : b ∈ h.live := by
    rw [hlive]
    exact Multiset.mem_add.mpr (.inl (Multiset.mem_singleton_self b))
  refine ⟨_, if_pos hmem, ?_⟩
  dsimp only
  rw [hlive, Multiset.singleton_add, Multiset.erase_cons_head]

theorem freeAll_of_live {bs : List Nat} (hlive : h.live = (bs : Multiset Nat) + rest) :
    ∃ h', h.freeAll bs = some h' ∧ h'.live = rest := by
  induction bs generalizing h with
  | nil => exact ⟨h, rfl, by simpa using hlive⟩
  | cons b bs ih =>
    have hcons : h.live = {b} + ((bs : Multiset Nat) + rest) := by
      rw [hlive, ← Multiset.cons_coe, Multiset.cons_add, Multiset.singleton_add]
    obtain ⟨h', hfree, hlive'⟩ := free_of_live hcons
    obtain ⟨h'', hall, hrest⟩ := ih hlive'
    refine ⟨h'', ?_, hrest⟩
    rw [freeAll, List.foldlM_cons, hfree]
    exact hall

end Heap

end SystemsProjects.Lib
