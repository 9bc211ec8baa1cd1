import SystemsProjects.Kvstore.Refine

/-!
# The buffers of the store

`kv_read` hands the table's own pointer out of the lock (`kvstore.c:63-66`). `Buffer kv k i p v`
says what such a pointer is good for: `p` is the live buffer of slot `i`, the first with key `k`. It
stays so under every operation, except that `kv_delete` of the key and a `kv_write` that overwrites
it free the buffer.
-/

namespace SystemsProjects.Kvstore

open SystemsProjects.Lib

variable {kv kv' : KvStore} {key k val v : List UInt8} {i j : Fin tableMax} {p : Nat}

theorem Key.eq_of_bytes {k k' : Key} (h : k.bytes = k'.bytes) : k = k' := by
  cases k
  cases k'
  exact (Key.mk.injEq ..).mpr h

/-! ## The first slot with a key -/

/-- The loop of `find_key` stops at the first slot with the key. -/
theorem findKeyLoop_first (hv : Valid kv) (hk : 0 ∉ key) (hlen : key.length < maxKeyLen)
    (hi : kv.slot i = some (key, v)) (is js : List (Fin tableMax))
    (his : ∀ j ∈ is, ∀ w, kv.slot j ≠ some (key, w)) :
    findKeyLoop kv key (is ++ i :: js) = some (i.val : Int) := by
  induction is with
  | nil =>
    obtain ⟨hst, hcstr, -⟩ := slot_eq_some_iff.mp hi
    simp [findKeyLoop, hst, strcmpEq_key _ hk hlen, hcstr]
  | cons j is ih =>
    have ih := ih fun l hl => his l (List.mem_cons_of_mem j hl)
    by_cases hst : (kv.keys j).stat = 0
    · rw [List.cons_append, findKeyLoop, if_pos hst, ih]
    · obtain ⟨k', w, hslot⟩ := hv.live j hst
      obtain ⟨-, hcstr, -⟩ := slot_eq_some_iff.mp hslot
      have hne : k' ≠ key := by
        intro he
        exact his j List.mem_cons_self w (he ▸ hslot)
      simp [findKeyLoop, hst, strcmpEq_key _ hk hlen, hcstr, hne, ih]

/-- Slot `i` is the first with key `key`, and holds the value `v` in the buffer `p`. -/
structure Buffer (kv : KvStore) (key : List UInt8) (i : Fin tableMax) (p : Nat)
    (v : List UInt8) : Prop where
  slot : kv.slot i = some (key, v)
  buffer : kv.values i = some p
  first : ∀ j, j < i → ∀ w, kv.slot j ≠ some (key, w)

theorem Buffer.live (h : Buffer kv key i p v) : deref kv.heap (some p) = some v := by
  obtain ⟨-, -, hd⟩ := slot_eq_some_iff.mp h.slot
  rw [← h.buffer]
  exact hd

theorem Buffer.found (h : Buffer kv key i p v) (hv : Valid kv) (hk : 0 ∉ key)
    (hlen : key.length < maxKeyLen) : findKey kv key = some (i.val : Int) := by
  obtain ⟨is, js, hsplit⟩ := List.append_of_mem (List.mem_finRange i)
  have hsorted := List.pairwise_lt_finRange tableMax
  rw [hsplit, List.pairwise_append] at hsorted
  rw [findKey, hsplit]
  apply findKeyLoop_first hv hk hlen h.slot
  intro j hj
  exact h.first j (hsorted.2.2 j hj i List.mem_cons_self)

/-- A key that is in the table has a first slot. -/
theorem exists_buffer (hslot : kv.slot i = some (key, v)) : ∃ i p v, Buffer kv key i p v := by
  have hex : ∃ n, ∃ h : n < tableMax, ∃ w, kv.slot ⟨n, h⟩ = some (key, w) :=
    ⟨i.val, i.isLt, v, hslot⟩
  classical
  obtain ⟨hn, w, hw⟩ := Nat.find_spec hex
  obtain ⟨-, -, hd⟩ := slot_eq_some_iff.mp hw
  obtain ⟨p, b, hp, -, -⟩ := deref_eq_some_iff.mp hd
  refine ⟨⟨Nat.find hex, hn⟩, p, w, hw, hp, ?_⟩
  intro j hj w' hw'
  exact Nat.find_min hex hj ⟨j.isLt, w', hw'⟩

/-- `kv_read` hands out the buffer of the first slot with the key. -/
theorem kvRead_buffer (hv : Valid kv) (hk : 0 ∉ key) (hlen : key.length < maxKeyLen) :
    (∃ i p v, Buffer kv key i p v ∧ kvRead kv key = some (some p)) ∨ kvRead kv key = some none := by
  rcases kvRead_cases hv hk hlen with ⟨i, -, v, -, -, hslot⟩ | ⟨hread, -⟩
  · obtain ⟨i, p, v, h⟩ := exists_buffer hslot
    refine Or.inl ⟨i, p, v, h, ?_⟩
    simp [kvRead, h.found hv hk hlen, atIndex_val, h.buffer]
  · exact Or.inr hread

/-! ## What `kv_write` and `kv_delete` do to the buffers -/

/-- `kv_write` is defined on a valid table and leaves a valid one. -/
theorem kvWrite_valid (hv : Valid kv) (hk : 0 ∉ key) (hlen : key.length < maxKeyLen)
    (hval : 0 ∉ val) : ∃ kv' r, kvWrite kv key val = some (kv', r) ∧ Valid kv' := by
  rcases kvWrite_cases hv hk hlen hval with ⟨_, _, -, -, hst⟩ | ⟨-, ⟨-, _, -, hst⟩ | ⟨-, hfull⟩⟩
  · obtain ⟨kv', hw, hv', -⟩ := hst
    exact ⟨kv', 0, hw, hv'⟩
  · obtain ⟨kv', hw, hv', -⟩ := hst
    exact ⟨kv', 0, hw, hv'⟩
  · exact ⟨kv, 1, hfull, hv⟩

/-- So is `kv_delete`. -/
theorem kvDelete_valid (hv : Valid kv) (hk : 0 ∉ key) (hlen : key.length < maxKeyLen) :
    ∃ kv', kvDelete kv key = some kv' ∧ Valid kv' := by
  rcases kvDelete_cases hv hk hlen with ⟨_, _, kv', -, hdel, hv', -⟩ | ⟨-, hdel⟩
  · exact ⟨kv', hdel, hv'⟩
  · exact ⟨kv, hdel, hv⟩

/-- An operation that leaves slot `i` and puts the key in no slot below leaves the buffer. -/
theorem Buffer.keep (h : Buffer kv k i p v) (hslot : kv'.slot i = kv.slot i)
    (hval : kv'.values i = kv.values i)
    (hfirst : ∀ j, j < i → ∀ w, kv'.slot j = some (k, w) → ∃ w', kv.slot j = some (k, w')) :
    Buffer kv' k i p v := by
  refine ⟨hslot.trans h.slot, hval.trans h.buffer, ?_⟩
  intro j hj w hw
  obtain ⟨w', hw'⟩ := hfirst j hj w hw
  exact h.first j hj w' hw'

/-- A slot that is not the first with key `k` gets a pair: key `k` only if it had it before, or if
slot 0 has it. -/
theorem Buffer.store (h : Buffer kv k i p v) (hj : j ≠ i)
    (hslot : kv'.slot = Function.update kv.slot j (some (key, val)))
    (hval : kv'.values = Function.update kv.values j (some kv.heap.length))
    (hkey : key = k → i.val = 0) : Buffer kv' k i p v := by
  apply h.keep
  · rw [hslot, Function.update_of_ne hj.symm]
  · rw [hval, Function.update_of_ne hj.symm]
  · intro l hl w hw
    by_cases hlj : l = j
    · rw [hslot, hlj, Function.update_self] at hw
      have hzero := hkey (Prod.mk.inj (Option.some.inj hw)).1
      exact absurd hl (by rw [Fin.lt_def, hzero]; exact Nat.not_lt_zero _)
    · rw [hslot, Function.update_of_ne hlj] at hw
      exact ⟨w, hw⟩

/-- `kv_write` leaves the buffer of a key unless it overwrites the key. -/
theorem Buffer.write (h : Buffer kv k i p v) (hv : Valid kv) (hk : 0 ∉ key)
    (hlen : key.length < maxKeyLen) (hval : 0 ∉ val) {r : Int}
    (hw : kvWrite kv key val = some (kv', r))
    (hno : key = k → ∀ n, findKey kv key = some n → ¬ n > 0) : Buffer kv' k i p v := by
  -- the first slot with the key is 0 if this is the key written
  have hzero : key = k → i.val = 0 := by
    intro he
    have hfind := (he ▸ h : Buffer kv key i p v).found hv hk hlen
    have hle := hno he _ hfind
    omega
  have hrest : ∀ n, findKey kv key = some n → ¬ n > 0 → Buffer kv' k i p v := by
    intro n hfind hn
    by_cases hroom : keyLen kv < tableMax
    · obtain ⟨j, kv₁, hfree, hst⟩ := kvWrite_insert hv hk hlen hval hfind hn hroom
      obtain ⟨rfl, -⟩ := Prod.mk.inj (Option.some.inj (hw.symm.trans hst.write))
      have hji : j ≠ i := by
        intro he
        rw [he, h.slot] at hfree
        exact Option.some_ne_none _ hfree
      exact h.store hji hst.slot hst.values hzero
    · have hfull : kvWrite kv key val = some (kv, 1) := by
        simp only [kvWrite, hfind, Option.bind_eq_bind, Option.bind_some, if_neg hn, if_neg hroom]
        rfl
      obtain ⟨rfl, -⟩ := Prod.mk.inj (Option.some.inj (hw.symm.trans hfull))
      exact h
  rcases findKey_cases hv hk hlen with ⟨j, w, hfind, hslot⟩ | ⟨hfind, -⟩
  · rcases Nat.eq_zero_or_pos j.val with hj | hpos
    · exact hrest _ hfind (by omega)
    · obtain ⟨kv₁, hst, -⟩ := kvWrite_overwrite hv hval hfind hpos hslot
      obtain ⟨rfl, -⟩ := Prod.mk.inj (Option.some.inj (hw.symm.trans hst.write))
      have hji : j ≠ i := by
        intro he
        rw [he, h.slot] at hslot
        have hkk := (Prod.mk.inj (Option.some.inj hslot)).1.symm
        exact absurd (hzero hkk) (he ▸ hpos.ne')
      exact h.store hji hst.slot hst.values hzero
  · exact hrest _ hfind (by omega)

/-- A `kv_write` that overwrites the key frees its buffer. -/
theorem Buffer.write_frees (h : Buffer kv key i p v) (hv : Valid kv) (hk : 0 ∉ key)
    (hlen : key.length < maxKeyLen) (hval : 0 ∉ val) {r n : Int}
    (hw : kvWrite kv key val = some (kv', r)) (hfind : findKey kv key = some n) (hn : n > 0) :
    deref kv'.heap (some p) = none := by
  have hfi := h.found hv hk hlen
  have hpos : 0 < i.val := by
    have hni : n = (i.val : Int) := Option.some.inj (hfind.symm.trans hfi)
    omega
  obtain ⟨kv₁, hst, hfreed⟩ := kvWrite_overwrite hv hval hfi hpos h.slot
  obtain ⟨rfl, -⟩ := Prod.mk.inj (Option.some.inj (hw.symm.trans hst.write))
  exact h.buffer ▸ hfreed

/-- `kv_delete` leaves the buffers of the other keys. -/
theorem Buffer.delete (h : Buffer kv k i p v) (hv : Valid kv) (hk : 0 ∉ key)
    (hlen : key.length < maxKeyLen) (hd : kvDelete kv key = some kv') (hne : key ≠ k) :
    Buffer kv' k i p v := by
  rcases findKey_cases hv hk hlen with ⟨j, w, hfind, hslot⟩ | ⟨hfind, -⟩
  · obtain ⟨kv₁, hdel, -, hupd, hvals, -⟩ := kvDelete_found hv hfind hslot
    obtain rfl := Option.some.inj (hd.symm.trans hdel)
    have hji : j ≠ i := by
      intro he
      rw [he, h.slot] at hslot
      exact hne (Prod.mk.inj (Option.some.inj hslot)).1.symm
    apply h.keep
    · rw [hupd, Function.update_of_ne hji.symm]
    · rw [hvals]
    · intro l hl w hw
      by_cases hlj : l = j
      · rw [hupd, hlj, Function.update_self] at hw
        exact absurd hw.symm (Option.some_ne_none _)
      · rw [hupd, Function.update_of_ne hlj] at hw
        exact ⟨w, hw⟩
  · have hsame : kvDelete kv key = some kv := by simp [kvDelete, hfind]
    obtain rfl := Option.some.inj (hd.symm.trans hsame)
    exact h

/-- `kv_delete` of a key frees its buffer. -/
theorem Buffer.delete_frees (h : Buffer kv key i p v) (hv : Valid kv) (hk : 0 ∉ key)
    (hlen : key.length < maxKeyLen) (hd : kvDelete kv key = some kv') :
    deref kv'.heap (some p) = none := by
  obtain ⟨kv₁, hdel, -, -, -, hfreed⟩ := kvDelete_found hv (h.found hv hk hlen) h.slot
  obtain rfl := Option.some.inj (hd.symm.trans hdel)
  exact h.buffer ▸ hfreed

end SystemsProjects.Kvstore
