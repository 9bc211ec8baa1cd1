import SystemsProjects.Kvstore.Store
import SystemsProjects.Lib.BoundedMap

/-!
# The table as slots of key and value

`KvStore.slot` reads a slot of the table as the pair it stores. `Valid` is the invariant of every
run; under it the three scans of `kvstore.c` are about the slots, and each operation updates one
slot at most.
-/

namespace SystemsProjects.Kvstore

open SystemsProjects.Lib

variable {kv : KvStore} {i : Fin tableMax} {key val : List UInt8}

/-- The pair in slot `i`, `none` when the slot is free. -/
def KvStore.slot (kv : KvStore) (i : Fin tableMax) : Option (List UInt8 × List UInt8) :=
  if (kv.keys i).stat = 0 then none
  else do return (← cstr (kv.keys i).bytes, ← deref kv.heap (kv.values i))

/-- The invariant of the table: a slot is free or used, a used slot holds a string and points to
a live value, and no two slots share a buffer. -/
structure Valid (kv : KvStore) : Prop where
  stat : ∀ i, (kv.keys i).stat = 0 ∨ (kv.keys i).stat = 1
  live : ∀ i, (kv.keys i).stat ≠ 0 → ∃ k v, kv.slot i = some (k, v)
  sep : ∀ i j, (kv.keys i).stat ≠ 0 → (kv.keys j).stat ≠ 0 → kv.values i = kv.values j → i = j

theorem slot_eq_none_of_stat (h : (kv.keys i).stat = 0) : kv.slot i = none := by
  rw [KvStore.slot, if_pos h]

theorem slot_eq_some_iff {k v : List UInt8} :
    kv.slot i = some (k, v) ↔ (kv.keys i).stat ≠ 0 ∧ cstr (kv.keys i).bytes = some k ∧
      deref kv.heap (kv.values i) = some v := by
  unfold KvStore.slot
  by_cases h : (kv.keys i).stat = 0
  · simp [h]
  · simp [h, Option.bind_eq_some_iff]

theorem Valid.slot_eq_none_iff (hv : Valid kv) (i : Fin tableMax) :
    kv.slot i = none ↔ (kv.keys i).stat = 0 := by
  constructor
  · intro h
    by_contra hne
    obtain ⟨k, v, hs⟩ := hv.live i hne
    rw [h] at hs
    exact absurd hs (by simp)
  · exact slot_eq_none_of_stat

/-! ## The heap -/

theorem deref_eq_some_iff {h : Heap} {p : Ptr} {v : List UInt8} :
    deref h p = some v ↔ ∃ a b, p = some a ∧ h[a]? = some (some b) ∧ cstr b = some v := by
  cases p with
  | none => simp [deref]
  | some a => simp [deref, Option.bind_eq_some_iff, Option.join_eq_some_iff]

theorem deref_callocVal_of_live {h : Heap} {p : Ptr} {v : List UInt8}
    (hp : deref h p = some v) (val : List UInt8) : deref (callocVal h val).1 p = some v := by
  obtain ⟨a, b, rfl, hb, hv⟩ := deref_eq_some_iff.mp hp
  have ha : a < h.length := (List.getElem?_eq_some_iff.mp hb).1
  refine deref_eq_some_iff.mpr ⟨a, b, rfl, ?_, hv⟩
  rw [callocVal, List.getElem?_append_left ha, hb]

/-- An allocation leaves the value of a used slot. -/
theorem Valid.deref_callocVal (hv : Valid kv) (hst : (kv.keys i).stat ≠ 0) (val : List UInt8) :
    deref (callocVal kv.heap val).1 (kv.values i) = deref kv.heap (kv.values i) := by
  obtain ⟨k, v, hs⟩ := hv.live i hst
  obtain ⟨-, -, hd⟩ := slot_eq_some_iff.mp hs
  rw [hd]
  exact deref_callocVal_of_live hd val

theorem deref_callocVal_new (h : Heap) (hval : 0 ∉ val) :
    deref (callocVal h val).1 (some h.length) = some val := by
  refine deref_eq_some_iff.mpr ⟨h.length, val ++ [0], rfl, by simp [callocVal], ?_⟩
  exact cstr_eq_some_iff.mpr ⟨hval, List.prefix_rfl⟩

/-- A live buffer can be freed, and only that buffer is gone. -/
theorem free_of_live {h : Heap} {p : Ptr} {v : List UInt8} (hp : deref h p = some v) :
    ∃ h', free h p = some h' ∧ ∀ q, q ≠ p → deref h' q = deref h q := by
  obtain ⟨a, b, rfl, hb, -⟩ := deref_eq_some_iff.mp hp
  refine ⟨h.set a none, by simp [free, hb], ?_⟩
  intro q hq
  cases q with
  | none => rfl
  | some c =>
    have hne : a ≠ c := fun e => hq (by rw [e])
    simp only [deref, List.getElem?_set_ne hne]

theorem deref_free {h h' : Heap} {p : Ptr} (hf : free h p = some h') : deref h' p = none := by
  cases p with
  | none => rfl
  | some a =>
    simp only [free] at hf
    split at hf
    · next b hb =>
      obtain rfl := Option.some.inj hf
      have ha : a < h.length := (List.getElem?_eq_some_iff.mp hb).1
      simp only [deref, List.getElem?_set_self ha, Option.join_some, Option.bind_none]
    · exact absurd hf (by simp)

theorem deref_lt {h : Heap} {a : Nat} {v : List UInt8} (hp : deref h (some a) = some v) :
    a < h.length := by
  obtain ⟨a', b, ha, hb, -⟩ := deref_eq_some_iff.mp hp
  obtain rfl := Option.some.inj ha
  exact (List.getElem?_eq_some_iff.mp hb).1

/-! ## The scans -/

theorem KeyEntry.bytes_length (e : KeyEntry) : e.bytes.length = maxKeyLen := by
  simp [KeyEntry.bytes, bytesFrom_length]

/-- `strcmp` of an entry with a key. -/
theorem strcmpEq_key (e : KeyEntry) (hk : 0 ∉ key) (hlen : key.length < maxKeyLen) :
    strcmpEq e.bytes (key ++ [0]) = some (decide (cstr e.bytes = some key)) := by
  have hcstr : cstr (key ++ [0]) = some key := cstr_eq_some_iff.mpr ⟨hk, List.prefix_rfl⟩
  exact strcmpEq_of_cstr hcstr (by rw [KeyEntry.bytes_length]; exact hlen)

theorem findKeyLoop_cases (hv : Valid kv) (hk : 0 ∉ key) (hlen : key.length < maxKeyLen)
    (is : List (Fin tableMax)) :
    (∃ i ∈ is, ∃ v, findKeyLoop kv key is = some (i.val : Int) ∧ kv.slot i = some (key, v)) ∨
      (findKeyLoop kv key is = some (-1) ∧ ∀ i ∈ is, ∀ v, kv.slot i ≠ some (key, v)) := by
  induction is with
  | nil => exact Or.inr ⟨rfl, by simp⟩
  | cons i is ih =>
    -- the slot does not hold the key: the loop goes on
    have hskip : findKeyLoop kv key (i :: is) = findKeyLoop kv key is →
        (∀ v, kv.slot i ≠ some (key, v)) →
        (∃ j ∈ i :: is, ∃ v, findKeyLoop kv key (i :: is) = some (j.val : Int) ∧
          kv.slot j = some (key, v)) ∨
        (findKeyLoop kv key (i :: is) = some (-1) ∧
          ∀ j ∈ i :: is, ∀ v, kv.slot j ≠ some (key, v)) := by
      intro heq hne
      rw [heq]
      rcases ih with ⟨j, hj, v, hfind, hslot⟩ | ⟨hfind, hnone⟩
      · exact Or.inl ⟨j, List.mem_cons_of_mem i hj, v, hfind, hslot⟩
      · exact Or.inr ⟨hfind, List.forall_mem_cons.mpr ⟨hne, hnone⟩⟩
    by_cases hstat : (kv.keys i).stat = 0
    · apply hskip
      · simp only [findKeyLoop, if_pos hstat]
      · intro v
        rw [slot_eq_none_of_stat hstat]
        simp
    · obtain ⟨k, v, hslot⟩ := hv.live i hstat
      obtain ⟨-, hcstr, -⟩ := slot_eq_some_iff.mp hslot
      by_cases hkk : k = key
      · subst hkk
        refine Or.inl ⟨i, List.mem_cons_self, v, ?_, hslot⟩
        simp [findKeyLoop, hstat, strcmpEq_key _ hk hlen, hcstr]
      · apply hskip
        · simp [findKeyLoop, hstat, strcmpEq_key _ hk hlen, hcstr, hkk]
        · intro w hw
          rw [hslot] at hw
          exact hkk (Prod.mk.inj (Option.some.inj hw)).1

/-- `find_key` returns a slot with the key, or -1 when there is none. -/
theorem findKey_cases (hv : Valid kv) (hk : 0 ∉ key) (hlen : key.length < maxKeyLen) :
    (∃ i v, findKey kv key = some (i.val : Int) ∧ kv.slot i = some (key, v)) ∨
      (findKey kv key = some (-1) ∧ ∀ i v, kv.slot i ≠ some (key, v)) := by
  rcases findKeyLoop_cases hv hk hlen (List.finRange tableMax) with
    ⟨i, -, v, hfind, hslot⟩ | ⟨hfind, hnone⟩
  · exact Or.inl ⟨i, v, hfind, hslot⟩
  · exact Or.inr ⟨hfind, fun i => hnone i (List.mem_finRange i)⟩

theorem foldl_count (p : Fin tableMax → Prop) [DecidablePred p] (is : List (Fin tableMax))
    (n : Nat) : is.foldl (fun len i => if p i then len + 1 else len) n =
      n + (is.filter p).length := by
  induction is generalizing n with
  | nil => rfl
  | cons i is ih =>
    rw [List.foldl_cons, ih]
    by_cases h : p i
    · simp [h]
      omega
    · simp [h]

/-- `key_len` counts the slots in use. -/
theorem keyLen_eq (hv : Valid kv) :
    keyLen kv = (Finset.univ.filter fun i => kv.slot i ≠ none).card := by
  have hfilter : (Finset.univ.filter fun i => kv.slot i ≠ none) =
      Finset.univ.filter fun i => (kv.keys i).stat = 1 := by
    refine Finset.filter_congr fun i _ => ?_
    rw [Ne, hv.slot_eq_none_iff]
    rcases hv.stat i with h | h <;> simp [h]
  rw [hfilter, keyLen, foldl_count, Nat.zero_add]
  rfl

theorem getNewIndexLoop_cases (kv : KvStore) (is : List (Fin tableMax)) :
    (∃ i, getNewIndexLoop kv is = (i.val : Int) ∧ (kv.keys i).stat = 0) ∨
      ∀ i ∈ is, (kv.keys i).stat ≠ 0 := by
  induction is with
  | nil => exact Or.inr (by simp)
  | cons i is ih =>
    by_cases hstat : (kv.keys i).stat = 0
    · exact Or.inl ⟨i, by simp only [getNewIndexLoop, if_pos hstat], hstat⟩
    · rcases ih with ⟨j, hj, hfree⟩ | hnone
      · exact Or.inl ⟨j, by simp only [getNewIndexLoop, if_neg hstat, hj], hfree⟩
      · exact Or.inr (List.forall_mem_cons.mpr ⟨hstat, hnone⟩)

/-- `get_new_index` finds a free slot while `key_len` is below the size of the table. -/
theorem getNewIndex_of_room (hv : Valid kv) (hroom : keyLen kv < tableMax) :
    ∃ i, getNewIndex kv = (i.val : Int) ∧ (kv.keys i).stat = 0 := by
  rcases getNewIndexLoop_cases kv (List.finRange tableMax) with h | hfull
  · exact h
  · -- a full table has `tableMax` slots in use
    have hall : (Finset.univ.filter fun i => kv.slot i ≠ none) = Finset.univ := by
      refine Finset.filter_true_of_mem fun i _ => ?_
      rw [Ne, hv.slot_eq_none_iff]
      exact hfull i (List.mem_finRange i)
    rw [keyLen_eq hv, hall, Finset.card_univ, Fintype.card_fin] at hroom
    exact absurd hroom (Nat.lt_irrefl _)

theorem atIndex_val (i : Fin tableMax) : atIndex (i.val : Int) = some i := by
  have h : (0 : Int) ≤ i.val ∧ (i.val : Int) < tableMax := by omega
  rw [atIndex, dif_pos h]
  rfl

/-! ## Updates of one slot -/

variable {x : KvStore}

/-- Slot `i` gets the pair `(key, val)` in a fresh buffer, the other slots keep theirs. -/
theorem Valid.store (hv : Valid kv) (hkeys : ∀ j, j ≠ i → x.keys j = kv.keys j)
    (hvals : ∀ j, j ≠ i → x.values j = kv.values j)
    (hheap : ∀ j, j ≠ i → (kv.keys j).stat ≠ 0 →
      deref x.heap (kv.values j) = deref kv.heap (kv.values j))
    (hstat : (x.keys i).stat = 1) (hslot : x.slot i = some (key, val))
    (hfresh : x.values i = some kv.heap.length) :
    Valid x ∧ x.slot = Function.update kv.slot i (some (key, val)) := by
  have hother : ∀ j, j ≠ i → x.slot j = kv.slot j := by
    intro j hj
    unfold KvStore.slot
    rw [hkeys j hj, hvals j hj]
    by_cases h : (kv.keys j).stat = 0
    · simp only [if_pos h]
    · rw [hheap j hj h]
  -- the fresh buffer is not one that another slot points to
  have hnew : ∀ j, j ≠ i → (x.keys j).stat ≠ 0 → x.values j ≠ x.values i := by
    intro j hj hst heq
    rw [hkeys j hj] at hst
    obtain ⟨k, v, hs⟩ := hv.live j hst
    obtain ⟨-, -, hd⟩ := slot_eq_some_iff.mp hs
    rw [← hvals j hj, heq, hfresh] at hd
    exact absurd (deref_lt hd) (Nat.lt_irrefl _)
  refine ⟨⟨?_, ?_, ?_⟩, ?_⟩
  · intro j
    by_cases hj : j = i
    · rw [hj]; exact Or.inr hstat
    · rw [hkeys j hj]; exact hv.stat j
  · intro j hst
    by_cases hj : j = i
    · rw [hj]; exact ⟨key, val, hslot⟩
    · rw [hkeys j hj] at hst
      rw [hother j hj]
      exact hv.live j hst
  · intro j₁ j₂ h₁ h₂ heq
    by_cases e₁ : j₁ = i <;> by_cases e₂ : j₂ = i
    · rw [e₁, e₂]
    · subst e₁; exact absurd heq.symm (hnew j₂ e₂ h₂)
    · subst e₂; exact absurd heq (hnew j₁ e₁ h₁)
    · rw [hkeys j₁ e₁] at h₁
      rw [hkeys j₂ e₂] at h₂
      rw [hvals j₁ e₁, hvals j₂ e₂] at heq
      exact hv.sep j₁ j₂ h₁ h₂ heq
  · funext j
    by_cases hj : j = i
    · rw [hj, Function.update_self, hslot]
    · rw [Function.update_of_ne hj, hother j hj]

/-- Slot `i` becomes free, the other slots keep theirs. -/
theorem Valid.clear (hv : Valid kv) (hkeys : ∀ j, j ≠ i → x.keys j = kv.keys j)
    (hvals : x.values = kv.values)
    (hheap : ∀ j, j ≠ i → (kv.keys j).stat ≠ 0 →
      deref x.heap (kv.values j) = deref kv.heap (kv.values j))
    (hstat : (x.keys i).stat = 0) :
    Valid x ∧ x.slot = Function.update kv.slot i none := by
  have hother : ∀ j, j ≠ i → x.slot j = kv.slot j := by
    intro j hj
    unfold KvStore.slot
    rw [hkeys j hj, hvals]
    by_cases h : (kv.keys j).stat = 0
    · simp only [if_pos h]
    · rw [hheap j hj h]
  have hne : ∀ j, (x.keys j).stat ≠ 0 → j ≠ i := by
    rintro j hst rfl
    exact hst hstat
  refine ⟨⟨?_, ?_, ?_⟩, ?_⟩
  · intro j
    by_cases hj : j = i
    · rw [hj]; exact Or.inl hstat
    · rw [hkeys j hj]; exact hv.stat j
  · intro j hst
    have hj := hne j hst
    rw [hkeys j hj] at hst
    rw [hother j hj]
    exact hv.live j hst
  · intro j₁ j₂ h₁ h₂ heq
    have e₁ := hne j₁ h₁
    have e₂ := hne j₂ h₂
    rw [hkeys j₁ e₁] at h₁
    rw [hkeys j₂ e₂] at h₂
    rw [hvals] at heq
    exact hv.sep j₁ j₂ h₁ h₂ heq
  · funext j
    by_cases hj : j = i
    · rw [hj, Function.update_self, slot_eq_none_of_stat hstat]
    · rw [Function.update_of_ne hj, hother j hj]

end SystemsProjects.Kvstore
