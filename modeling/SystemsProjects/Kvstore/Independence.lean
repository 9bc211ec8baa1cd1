import SystemsProjects.Kvstore.Buffers

/-!
# Keys do not interfere

An operation on one key leaves what `kv_read` hands out for every other key: the pointer and the
string behind it. This holds in every table that calls lead to, also when `kv_write` has put a
second copy of a key into it, because the three scans of `kvstore.c` agree on which slots are in
use.
-/

namespace SystemsProjects.Kvstore

open SystemsProjects.Lib

variable {kv kv' : KvStore} {k val : List UInt8}

/-- `kv_read` of `k` hands out the same pointer in both tables, to the same string. -/
structure SameRead (kv kv' : KvStore) (k : List UInt8) : Prop where
  pointer : kvRead kv' k = kvRead kv k
  string : ∀ p, kvRead kv k = some p → deref kv'.heap p = deref kv.heap p

/-- The table keeps the first buffer of `k`, or has no slot with `k` before and after. -/
theorem SameRead.of_buffer (hv : Valid kv) (hv' : Valid kv') (hk : 0 ∉ k)
    (hlen : k.length < maxKeyLen) (hkeep : ∀ i p v, Buffer kv k i p v → Buffer kv' k i p v)
    (hnew : ∀ i v, kv'.slot i = some (k, v) → ∃ j w, kv.slot j = some (k, w)) :
    SameRead kv kv' k := by
  rcases kvRead_buffer hv hk hlen with ⟨i, p, v, hbuf, hread⟩ | hread
  · have hbuf' := hkeep i p v hbuf
    have hread' : kvRead kv' k = some (some p) := by
      simp [kvRead, hbuf'.found hv' hk hlen, atIndex_val, hbuf'.buffer]
    refine ⟨hread'.trans hread.symm, ?_⟩
    intro q hq
    obtain rfl := Option.some.inj (hread.symm.trans hq)
    rw [hbuf.live, hbuf'.live]
  · have habsent : ∀ j w, kv.slot j ≠ some (k, w) := by
      intro j w hslot
      obtain ⟨i, p, v, hbuf⟩ := exists_buffer hslot
      simp [kvRead, hbuf.found hv hk hlen, atIndex_val, hbuf.buffer] at hread
    have hread' : kvRead kv' k = some none := by
      rcases kvRead_cases hv' hk hlen with ⟨i, _, v, -, -, hslot⟩ | ⟨hread', -⟩
      · obtain ⟨j, w, hw⟩ := hnew i v hslot
        exact absurd hw (habsent j w)
      · exact hread'
    refine ⟨hread'.trans hread.symm, ?_⟩
    intro q hq
    obtain rfl := Option.some.inj (hread.symm.trans hq)
    rfl

/-- `kv_write` puts no key but its own into a slot. -/
theorem kvWrite_slot {key : List UInt8} (hv : Valid kv) (hk : 0 ∉ key)
    (hlen : key.length < maxKeyLen) (hval : 0 ∉ val) {r : Int}
    (hw : kvWrite kv key val = some (kv', r)) {i : Fin tableMax} {v : List UInt8} (hne : key ≠ k)
    (hslot : kv'.slot i = some (k, v)) : kv.slot i = some (k, v) := by
  have hstored : ∀ j, Stored kv key val j → kv.slot i = some (k, v) := by
    rintro j ⟨kv₁, hw₁, -, hupd⟩
    obtain ⟨rfl, -⟩ := Prod.mk.inj (Option.some.inj (hw.symm.trans hw₁))
    rw [hupd] at hslot
    by_cases hij : i = j
    · rw [hij, Function.update_self] at hslot
      exact absurd (Prod.mk.inj (Option.some.inj hslot)).1 hne
    · rwa [Function.update_of_ne hij] at hslot
  rcases kvWrite_cases hv hk hlen hval with ⟨j, _, -, -, hst⟩ | ⟨-, ⟨-, j, -, hst⟩ | ⟨-, hfull⟩⟩
  · exact hstored j hst
  · exact hstored j hst
  · obtain ⟨rfl, -⟩ := Prod.mk.inj (Option.some.inj (hw.symm.trans hfull))
    exact hslot

/-- `kv_delete` puts nothing into a slot. -/
theorem kvDelete_slot {key : List UInt8} (hv : Valid kv) (hk : 0 ∉ key)
    (hlen : key.length < maxKeyLen) (hd : kvDelete kv key = some kv') {i : Fin tableMax}
    {v : List UInt8} (hslot : kv'.slot i = some (k, v)) : kv.slot i = some (k, v) := by
  rcases kvDelete_cases hv hk hlen with ⟨j, _, kv₁, -, hdel, -, hupd⟩ | ⟨-, hdel⟩
  · obtain rfl := Option.some.inj (hd.symm.trans hdel)
    rw [hupd] at hslot
    by_cases hij : i = j
    · rw [hij, Function.update_self] at hslot
      exact absurd hslot.symm (Option.some_ne_none _)
    · rwa [Function.update_of_ne hij] at hslot
  · obtain rfl := Option.some.inj (hd.symm.trans hdel)
    exact hslot

theorem sameRead_write (hv : Valid kv) (a b : Key) (v : Value) (hne : a ≠ b) :
    ∃ kv' r, kvWrite kv a.bytes v.bytes = some (kv', r) ∧ SameRead kv kv' b.bytes := by
  have hbytes : a.bytes ≠ b.bytes := fun he => hne (Key.eq_of_bytes he)
  obtain ⟨kv', r, hw, hv'⟩ := kvWrite_valid hv a.noNul a.short v.noNul
  refine ⟨kv', r, hw, SameRead.of_buffer hv hv' b.noNul b.short ?_ ?_⟩
  · intro i p u hbuf
    exact hbuf.write hv a.noNul a.short v.noNul hw fun he => absurd he hbytes
  · intro i u hslot
    exact ⟨i, u, kvWrite_slot hv a.noNul a.short v.noNul hw hbytes hslot⟩

theorem sameRead_delete (hv : Valid kv) (a b : Key) (hne : a ≠ b) :
    ∃ kv', kvDelete kv a.bytes = some kv' ∧ SameRead kv kv' b.bytes := by
  have hbytes : a.bytes ≠ b.bytes := fun he => hne (Key.eq_of_bytes he)
  obtain ⟨kv', hd, hv'⟩ := kvDelete_valid hv a.noNul a.short
  refine ⟨kv', hd, SameRead.of_buffer hv hv' b.noNul b.short ?_ ?_⟩
  · intro i p u hbuf
    exact hbuf.delete hv a.noNul a.short hd hbytes
  · intro i u hslot
    exact ⟨i, u, kvDelete_slot hv a.noNul a.short hd hslot⟩

/-! ## Runs -/

theorem exec_valid (hv : Valid kv) (c : Call) : ∃ kv' r, exec kv c = some (kv', r) ∧ Valid kv' := by
  cases c with
  | write a v =>
    obtain ⟨kv', r, hw, hv'⟩ := kvWrite_valid hv a.noNul a.short v.noNul
    exact ⟨kv', .status r, by simp [exec, hw], hv'⟩
  | read a =>
    rcases kvRead_cases hv a.noNul a.short with ⟨_, p, v, hread, hd, -⟩ | ⟨hread, -⟩
    · exact ⟨kv, .value (some v), by simp [exec, hread, hd], hv⟩
    · exact ⟨kv, .value none, by simp [exec, hread], hv⟩
  | delete a =>
    obtain ⟨kv', hd, hv'⟩ := kvDelete_valid hv a.noNul a.short
    exact ⟨kv', .done, by simp [exec, hd], hv'⟩

/-- Every sequence of calls is defined and leaves a valid table. -/
theorem runCalls_valid (hv : Valid kv) (cs : List Call) :
    ∃ kv' rs, runCalls kv cs = some (kv', rs) ∧ Valid kv' := by
  induction cs generalizing kv with
  | nil => exact ⟨kv, [], rfl, hv⟩
  | cons c cs ih =>
    obtain ⟨kv₁, r, hexec, hv₁⟩ := exec_valid hv c
    obtain ⟨kv', rs, hrun, hv'⟩ := ih hv₁
    exact ⟨kv', r :: rs, by simp [runCalls, hexec, hrun], hv'⟩

/-- `kv_write` of `k` takes its second branch (`kvstore.c:98`). -/
def Inserts (kv : KvStore) (k : List UInt8) : Prop :=
  (∃ n, findKey kv k = some n ∧ ¬ n > 0) ∧ keyLen kv < tableMax

/-- After any calls on the empty table, writing or deleting a key leaves what `kv_read` returns for
the others, every slot is free or used, and an insertion finds a free slot. -/
theorem runCalls_independent (hkv : ∀ i, (kv.keys i).stat = 0) (cs : List Call) :
    ∃ kv' rs, runCalls kv cs = some (kv', rs) ∧
      (∀ a b v, a ≠ b →
        (∃ kv'' r, kvWrite kv' (Key.bytes a) (Value.bytes v) = some (kv'', r) ∧
          SameRead kv' kv'' (Key.bytes b)) ∧
        ∃ kv'', kvDelete kv' a.bytes = some kv'' ∧ SameRead kv' kv'' b.bytes) ∧
      (∀ i, (kv'.keys i).stat = 0 ∨ (kv'.keys i).stat = 1) ∧
      ∀ a, Inserts kv' (Key.bytes a) → 0 ≤ getNewIndex kv' ∧ getNewIndex kv' < tableMax := by
  obtain ⟨kv', rs, hrun, hv'⟩ := runCalls_valid (refines_empty hkv).valid cs
  refine ⟨kv', rs, hrun, ?_, hv'.stat, ?_⟩
  · intro a b v hne
    exact ⟨sameRead_write hv' a b v hne, sameRead_delete hv' a b hne⟩
  · rintro a ⟨-, hroom⟩
    obtain ⟨i, hidx, -⟩ := getNewIndex_of_room hv' hroom
    rw [hidx]
    exact ⟨Int.natCast_nonneg _, Int.ofNat_lt.mpr i.isLt⟩

/-- The key `b`. -/
def keyB : Key := ⟨[98], by decide, by decide⟩

/-- Two writes of one key leave two copies of it, and the key `b` is not disturbed by a third. -/
theorem runCalls_independent_twice :
    ∃ kv' rs kv'' r, runCalls zeroStore [.write keyA value1, .write keyA value2] = some (kv', rs) ∧
      kvWrite kv' keyA.bytes value1.bytes = some (kv'', r) ∧ SameRead kv' kv'' keyB.bytes := by
  have hzero : ∀ i, (zeroStore.keys i).stat = 0 := fun _ => rfl
  obtain ⟨kv', rs, hrun, hkeys, -⟩ :=
    runCalls_independent hzero [.write keyA value1, .write keyA value2]
  have hne : keyA ≠ keyB := fun he => absurd (congrArg Key.bytes he) (by decide)
  obtain ⟨⟨kv'', r, hw, hsame⟩, -⟩ := hkeys keyA keyB value1 hne
  exact ⟨kv', rs, kv'', r, hrun, hw, hsame⟩

end SystemsProjects.Kvstore
