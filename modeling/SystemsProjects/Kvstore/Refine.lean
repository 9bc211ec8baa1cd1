import SystemsProjects.Kvstore.Slots
import Mathlib.Data.List.GetD

/-!
# The store against a bounded map

Each operation of `kvstore.c` is described by what it does to the slots. As long as no key that
sits in slot 0 is written again, every sequence of calls gets the replies of a map with at most
`TABLE_MAX` keys; `kv_write` tests `key_index > 0` and inserts a second copy of such a key.
-/

namespace SystemsProjects.Kvstore

open SystemsProjects.Lib

variable {kv : KvStore} {key val : List UInt8}

/-! ## What each operation does to the slots -/

/-- The slot with index 0. -/
def slotZero : Fin tableMax := ⟨0, by decide⟩

/-- `kv_read` hands out a live buffer with the value, or `NULL`. -/
theorem kvRead_cases (hv : Valid kv) (hk : 0 ∉ key) (hlen : key.length < maxKeyLen) :
    (∃ i p v, kvRead kv key = some (some p) ∧ deref kv.heap (some p) = some v ∧
      kv.slot i = some (key, v)) ∨
    (kvRead kv key = some none ∧ ∀ i v, kv.slot i ≠ some (key, v)) := by
  rcases findKey_cases hv hk hlen with ⟨i, v, hfind, hslot⟩ | ⟨hfind, hnone⟩
  · obtain ⟨-, -, hd⟩ := slot_eq_some_iff.mp hslot
    obtain ⟨p, b, hp, -, -⟩ := deref_eq_some_iff.mp hd
    refine Or.inl ⟨i, p, v, ?_, hp ▸ hd, hslot⟩
    simp [kvRead, hfind, atIndex_val, hp]
  · exact Or.inr ⟨by simp [kvRead, hfind], hnone⟩

/-- `kv_write` stored `(key, val)` in slot `i` and returned 0. -/
def Stored (kv : KvStore) (key val : List UInt8) (i : Fin tableMax) : Prop :=
  ∃ kv', kvWrite kv key val = some (kv', 0) ∧ Valid kv' ∧
    kv'.slot = Function.update kv.slot i (some (key, val))

/-- `kv_write` stored `(key, val)` in slot `i` with a new buffer. -/
structure StoredAs (kv : KvStore) (key val : List UInt8) (i : Fin tableMax) (kv' : KvStore) :
    Prop where
  write : kvWrite kv key val = some (kv', 0)
  valid : Valid kv'
  slot : kv'.slot = Function.update kv.slot i (some (key, val))
  values : kv'.values = Function.update kv.values i (some kv.heap.length)

theorem StoredAs.stored {kv' : KvStore} {i : Fin tableMax} (h : StoredAs kv key val i kv') :
    Stored kv key val i :=
  ⟨kv', h.write, h.valid, h.slot⟩

/-- The branch of `kv_write` for a key that is there; the old buffer is freed. -/
theorem kvWrite_overwrite (hv : Valid kv) (hval : 0 ∉ val) {i : Fin tableMax} {w : List UInt8}
    (hfind : findKey kv key = some (i.val : Int)) (hpos : 0 < i.val)
    (hslot : kv.slot i = some (key, w)) :
    ∃ kv', StoredAs kv key val i kv' ∧ deref kv'.heap (kv.values i) = none := by
  obtain ⟨hst, hcstr, hd⟩ := slot_eq_some_iff.mp hslot
  obtain ⟨heap, hfree, hrest⟩ := free_of_live (deref_callocVal_of_live hd val)
  -- the old buffer is not the new one
  have hold : kv.values i ≠ some kv.heap.length := by
    intro h
    rw [h] at hd
    exact absurd (deref_lt hd) (Nat.lt_irrefl _)
  let kv' : KvStore :=
    { kv with values := Function.update kv.values i (some kv.heap.length), heap := heap }
  have hnew : kv'.slot i = some (key, val) := by
    refine slot_eq_some_iff.mpr ⟨hst, hcstr, ?_⟩
    simp only [kv', Function.update_self]
    rw [hrest _ (Ne.symm hold)]
    exact deref_callocVal_new kv.heap hval
  have hheap : ∀ j, j ≠ i → (kv.keys j).stat ≠ 0 →
      deref heap (kv.values j) = deref kv.heap (kv.values j) := by
    intro j hj hstj
    rw [hrest _ fun e => hj (hv.sep j i hstj hst e)]
    exact hv.deref_callocVal hstj val
  obtain ⟨hv', hupd⟩ := hv.store (x := kv') (fun _ _ => rfl)
    (fun j hj => Function.update_of_ne hj _ _) hheap ((hv.stat i).resolve_left hst) hnew
    (Function.update_self i _ _)
  refine ⟨kv', ⟨?_, hv', hupd, rfl⟩, deref_free hfree⟩
  have hidx : (i.val : Int) > 0 := by omega
  simp only [kvWrite, hfind, Option.bind_eq_bind, Option.bind_some, if_pos hidx, atIndex_val,
    hfree]
  rfl

theorem cstr_newKey (hk : 0 ∉ key) (hlen : key.length < maxKeyLen) :
    cstr (newKey key).bytes = some key := by
  refine cstr_eq_some_iff.mpr ⟨hk, List.prefix_iff_getElem?.mpr ?_⟩
  intro j hj
  have hj' : j < key.length + 1 := by simpa using hj
  rw [KeyEntry.bytes, bytesFrom_getElem?, dif_pos (show 0 + j < maxKeyLen by omega)]
  simp only [newKey, Nat.zero_add, List.getElem_append, Option.some.injEq]
  by_cases hlt : j < key.length
  · rw [if_pos (show j < 31 from lt_of_lt_of_le hlt (Nat.le_of_lt_succ hlen)), dif_pos hlt,
      List.getD_eq_getElem _ _ hlt]
  · rw [dif_neg hlt]
    have hget : key.getD j 0 = 0 := List.getD_eq_default _ _ (by omega)
    simp only [hget, ite_self, List.getElem_singleton]

/-- The branch of `kv_write` that inserts. -/
theorem kvWrite_insert (hv : Valid kv) (hk : 0 ∉ key) (hlen : key.length < maxKeyLen)
    (hval : 0 ∉ val) {r : Int} (hfind : findKey kv key = some r) (hr : ¬ r > 0)
    (hroom : keyLen kv < tableMax) :
    ∃ i kv', kv.slot i = none ∧ StoredAs kv key val i kv' := by
  obtain ⟨i, hidx, hfree⟩ := getNewIndex_of_room hv hroom
  let kv' : KvStore :=
    { keys := Function.update kv.keys i (newKey key)
      values := Function.update kv.values i (some kv.heap.length)
      heap := (callocVal kv.heap val).1 }
  have hkey : kv'.keys i = newKey key := Function.update_self i _ _
  have hptr : kv'.values i = some kv.heap.length := Function.update_self i _ _
  have hnew : kv'.slot i = some (key, val) := by
    refine slot_eq_some_iff.mpr ⟨by rw [hkey]; exact one_ne_zero, ?_, ?_⟩
    · rw [hkey]; exact cstr_newKey hk hlen
    · rw [hptr]; exact deref_callocVal_new kv.heap hval
  obtain ⟨hv', hupd⟩ := hv.store (x := kv') (fun j hj => Function.update_of_ne hj _ _)
    (fun j hj => Function.update_of_ne hj _ _) (fun _ _ hstj => hv.deref_callocVal hstj val)
    (by rw [hkey]; rfl) hnew hptr
  refine ⟨i, kv', slot_eq_none_of_stat hfree, ?_, hv', hupd, rfl⟩
  simp only [kvWrite, hfind, Option.bind_eq_bind, Option.bind_some, if_neg hr, if_pos hroom,
    hidx, atIndex_val]
  rfl

/-- `kv_write` overwrites a key that is found above slot 0; otherwise it inserts while there is
room, whether or not slot 0 holds the key. -/
theorem kvWrite_cases (hv : Valid kv) (hk : 0 ∉ key) (hlen : key.length < maxKeyLen)
    (hval : 0 ∉ val) :
    (∃ i w, 0 < i.val ∧ kv.slot i = some (key, w) ∧ Stored kv key val i) ∨
    (((∃ w, kv.slot slotZero = some (key, w)) ∨ ∀ i w, kv.slot i ≠ some (key, w)) ∧
      ((keyLen kv < tableMax ∧ ∃ i, kv.slot i = none ∧ Stored kv key val i) ∨
        (¬ keyLen kv < tableMax ∧ kvWrite kv key val = some (kv, 1)))) := by
  have hrest : ∀ r, findKey kv key = some r → ¬ r > 0 →
      (keyLen kv < tableMax ∧ ∃ i, kv.slot i = none ∧ Stored kv key val i) ∨
        (¬ keyLen kv < tableMax ∧ kvWrite kv key val = some (kv, 1)) := by
    intro r hfind hr
    by_cases hroom : keyLen kv < tableMax
    · obtain ⟨i, kv', hfree, hst⟩ := kvWrite_insert hv hk hlen hval hfind hr hroom
      exact Or.inl ⟨hroom, i, hfree, hst.stored⟩
    · refine Or.inr ⟨hroom, ?_⟩
      simp only [kvWrite, hfind, Option.bind_eq_bind, Option.bind_some, if_neg hr, if_neg hroom]
      rfl
  rcases findKey_cases hv hk hlen with ⟨i, w, hfind, hslot⟩ | ⟨hfind, hnone⟩
  · rcases Nat.eq_zero_or_pos i.val with hzero | hpos
    · have hi : i = slotZero := Fin.ext hzero
      exact Or.inr ⟨Or.inl ⟨w, hi ▸ hslot⟩, hrest _ hfind (by omega)⟩
    · obtain ⟨kv', hst, -⟩ := kvWrite_overwrite hv hval hfind hpos hslot
      exact Or.inl ⟨i, w, hpos, hslot, hst.stored⟩
  · exact Or.inr ⟨Or.inr hnone, hrest _ hfind (by omega)⟩

/-- The branch of `kv_delete` for a key that is there; the buffer is freed, its pointer stays. -/
theorem kvDelete_found (hv : Valid kv) {i : Fin tableMax} {w : List UInt8}
    (hfind : findKey kv key = some (i.val : Int)) (hslot : kv.slot i = some (key, w)) :
    ∃ kv', kvDelete kv key = some kv' ∧ Valid kv' ∧ kv'.slot = Function.update kv.slot i none ∧
      kv'.values = kv.values ∧ deref kv'.heap (kv.values i) = none := by
  obtain ⟨hst, -, hd⟩ := slot_eq_some_iff.mp hslot
  obtain ⟨heap, hfree, hrest⟩ := free_of_live hd
  let kv' : KvStore :=
    { kv with
      keys := Function.update kv.keys i { kv.keys i with stat := 0 }
      heap := heap }
  obtain ⟨hv', hupd⟩ := hv.clear (i := i) (x := kv')
    (fun j hj => Function.update_of_ne hj _ _) rfl
    (fun j hj hstj => hrest _ fun e => hj (hv.sep j i hstj hst e))
    (by simp only [kv', Function.update_self])
  refine ⟨kv', ?_, hv', hupd, rfl, deref_free hfree⟩
  simp [kvDelete, hfind, atIndex_val, hfree, kv']

/-- `kv_delete` empties a slot with the key, or changes nothing. -/
theorem kvDelete_cases (hv : Valid kv) (hk : 0 ∉ key) (hlen : key.length < maxKeyLen) :
    (∃ i w kv', kv.slot i = some (key, w) ∧ kvDelete kv key = some kv' ∧ Valid kv' ∧
      kv'.slot = Function.update kv.slot i none) ∨
    ((∀ i w, kv.slot i ≠ some (key, w)) ∧ kvDelete kv key = some kv) := by
  rcases findKey_cases hv hk hlen with ⟨i, w, hfind, hslot⟩ | ⟨hfind, hnone⟩
  · obtain ⟨kv', hdel, hv', hupd, -, -⟩ := kvDelete_found hv hfind hslot
    exact Or.inl ⟨i, w, kv', hslot, hdel, hv', hupd⟩
  · exact Or.inr ⟨hnone, by simp [kvDelete, hfind]⟩

/-! ## The bounded map -/

/-- What the store is for: a map with at most `TABLE_MAX` keys. -/
abbrev KvMap := BoundedMap (List UInt8) (List UInt8) tableMax

/-- A call on the map. -/
def mapStep (m : KvMap) : Call → KvMap × Reply
  | .write k v =>
    match m.put k.bytes v.bytes with
    | some m' => (m', .status 0)
    | none => (m, .status 1)
  | .read k => (m, .value (m.get k.bytes))
  | .delete k => (m.remove k.bytes, .done)

/-- The replies of the map to a sequence of calls. -/
def mapReplies (m : KvMap) : List Call → List Reply
  | [] => []
  | c :: cs => (mapStep m c).2 :: mapReplies (mapStep m c).1 cs

/-- The table holds the pairs of `m`. -/
structure Refines (kv : KvStore) (m : KvMap) : Prop where
  valid : Valid kv
  slots : Represents kv.slot m.entries

theorem refines_empty (h : ∀ i, (kv.keys i).stat = 0) : Refines kv BoundedMap.empty where
  valid :=
    { stat := fun i => Or.inl (h i)
      live := fun i hne => absurd (h i) hne
      sep := fun i _ hne => absurd (h i) hne }
  slots := Represents.of_empty fun i => slot_eq_none_of_stat (h i)

theorem Refines.keyLen_eq_card {m : KvMap} (h : Refines kv m) :
    keyLen kv = m.entries.keys.card := by
  rw [keyLen_eq h.valid, h.slots.card_keys]

/-- `key` is the key of slot 0, by the comparison `find_key` makes first. -/
def InSlotZero (kv : KvStore) (key : List UInt8) : Prop :=
  (kv.keys slotZero).stat ≠ 0 ∧ strcmpEq (kv.keys slotZero).bytes (key ++ [0]) = some true

/-- A call that does not write the key of slot 0. -/
def Call.SparesSlotZero (kv : KvStore) : Call → Prop
  | .write k _ => ¬ InSlotZero kv k.bytes
  | _ => True

theorem inSlotZero_iff (hv : Valid kv) (k : Key) :
    InSlotZero kv k.bytes ↔ ∃ w, kv.slot slotZero = some (k.bytes, w) := by
  rw [InSlotZero, strcmpEq_key _ k.noNul k.short, Option.some.injEq, decide_eq_true_eq]
  constructor
  · rintro ⟨hst, hcstr⟩
    obtain ⟨k', w, hslot⟩ := hv.live slotZero hst
    obtain ⟨-, hk', -⟩ := slot_eq_some_iff.mp hslot
    obtain rfl := Option.some.inj (hk'.symm.trans hcstr)
    exact ⟨w, hslot⟩
  · rintro ⟨w, hslot⟩
    obtain ⟨hst, hcstr, -⟩ := slot_eq_some_iff.mp hslot
    exact ⟨hst, hcstr⟩

/-! ## One call, and all calls -/

variable {m : KvMap}

/-- A stored pair is an insertion of the map. -/
theorem Refines.stored (h : Refines kv m) (k : Key) (v : Value) {i : Fin tableMax}
    (hfits : m.Fits k.bytes) (hi : ∀ k' w, kv.slot i = some (k', w) → k' = k.bytes)
    (hk : ∀ j w, kv.slot j = some (k.bytes, w) → j = i) (hst : Stored kv k.bytes v.bytes i) :
    ∃ kv', exec kv (.write k v) = some (kv', (mapStep m (.write k v)).2) ∧
      Refines kv' (mapStep m (.write k v)).1 := by
  obtain ⟨kv', hw, hv', hupd⟩ := hst
  refine ⟨kv', ?_, ?_⟩
  · simp [exec, hw, mapStep, BoundedMap.put, hfits]
  · simp only [mapStep, BoundedMap.put, dif_pos hfits]
    exact ⟨hv', hupd ▸ h.slots.update hi hk⟩

theorem Refines.exec_write (h : Refines kv m) (k : Key) (v : Value)
    (hz : ¬ InSlotZero kv k.bytes) :
    ∃ kv', exec kv (.write k v) = some (kv', (mapStep m (.write k v)).2) ∧
      Refines kv' (mapStep m (.write k v)).1 := by
  rw [inSlotZero_iff h.valid] at hz
  rcases kvWrite_cases h.valid k.noNul k.short v.noNul with
    ⟨i, w, -, hslot, hst⟩ | ⟨hwhere, hrest⟩
  · refine h.stored k v (Or.inl ((h.slots.mem_iff _).mpr ⟨i, w, hslot⟩)) ?_ ?_ hst
    · intro k' w' hw'
      rw [hslot] at hw'
      exact (Prod.mk.inj (Option.some.inj hw')).1.symm
    · intro j w' hw'
      exact h.slots.inj hw' hslot
  · have hnone := hwhere.resolve_left hz
    have habs : k.bytes ∉ m.entries := by
      rw [h.slots.mem_iff]
      rintro ⟨i, w, hslot⟩
      exact hnone i w hslot
    rcases hrest with ⟨hroom, i, hfree, hst⟩ | ⟨hfull, hw⟩
    · rw [h.keyLen_eq_card] at hroom
      refine h.stored k v (Or.inr hroom) ?_ ?_ hst
      · intro k' w' hw'
        rw [hfree] at hw'
        exact absurd hw' (by simp)
      · intro j w' hw'
        exact absurd hw' (hnone j w')
    · rw [h.keyLen_eq_card] at hfull
      have hfits : ¬ m.Fits k.bytes := not_or.mpr ⟨habs, hfull⟩
      refine ⟨kv, ?_, ?_⟩
      · simp [exec, hw, mapStep, BoundedMap.put, hfits]
      · simp only [mapStep, BoundedMap.put, dif_neg hfits]
        exact h

theorem Refines.exec_read (h : Refines kv m) (k : Key) :
    exec kv (.read k) = some (kv, .value (m.get k.bytes)) := by
  rcases kvRead_cases h.valid k.noNul k.short with ⟨i, p, v, hread, hd, hslot⟩ | ⟨hread, hnone⟩
  · have hget : m.get k.bytes = some v := (h.slots.lookup _ _).mpr ⟨i, hslot⟩
    simp [exec, hread, hd, hget]
  · have hget : m.get k.bytes = none := by
      rw [Option.eq_none_iff_forall_not_mem]
      intro v hv
      obtain ⟨i, hi⟩ := (h.slots.lookup _ _).mp hv
      exact hnone i v hi
    simp [exec, hread, hget]

theorem Refines.exec_delete (h : Refines kv m) (k : Key) :
    ∃ kv', exec kv (.delete k) = some (kv', .done) ∧ Refines kv' (m.remove k.bytes) := by
  rcases kvDelete_cases h.valid k.noNul k.short with ⟨i, w, kv', hslot, hdel, hv', hupd⟩ |
    ⟨hnone, hdel⟩
  · exact ⟨kv', by simp [exec, hdel], hv', hupd ▸ h.slots.clear hslot⟩
  · refine ⟨kv, by simp [exec, hdel], h.valid, ?_⟩
    have herase : m.entries.erase k.bytes = m.entries := by
      refine Finmap.ext_lookup fun k' => ?_
      by_cases hk : k' = k.bytes
      · rw [hk, Finmap.lookup_erase, eq_comm, Finmap.lookup_eq_none, h.slots.mem_iff]
        rintro ⟨i, w, hslot⟩
        exact hnone i w hslot
      · rw [Finmap.lookup_erase_ne hk]
    show Represents kv.slot (m.entries.erase k.bytes)
    rw [herase]
    exact h.slots

/-- One call that spares slot 0 is a call on the map. -/
theorem Refines.step (h : Refines kv m) (c : Call) (hc : c.SparesSlotZero kv) :
    ∃ kv', exec kv c = some (kv', (mapStep m c).2) ∧ Refines kv' (mapStep m c).1 := by
  cases c with
  | write k v => exact h.exec_write k v hc
  | read k => exact ⟨kv, h.exec_read k, h⟩
  | delete k => exact h.exec_delete k

/-- Every call of the run spares slot 0 of the table it is made on. -/
def SparesSlotZero (kv : KvStore) : List Call → Prop
  | [] => True
  | c :: cs => c.SparesSlotZero kv ∧ ∀ kv' r, exec kv c = some (kv', r) → SparesSlotZero kv' cs

/-- The map after a sequence of calls. -/
def mapAfter (m : KvMap) (cs : List Call) : KvMap := cs.foldl (fun m c => (mapStep m c).1) m

theorem Refines.run (h : Refines kv m) {cs : List Call} (hcs : SparesSlotZero kv cs) :
    ∃ kv', runCalls kv cs = some (kv', mapReplies m cs) ∧ Refines kv' (mapAfter m cs) := by
  induction cs generalizing kv m with
  | nil => exact ⟨kv, rfl, h⟩
  | cons c cs ih =>
    obtain ⟨kv₁, hexec, h₁⟩ := h.step c hcs.1
    obtain ⟨kv', hrun, h'⟩ := ih h₁ (hcs.2 _ _ hexec)
    exact ⟨kv', by simp [runCalls, hexec, hrun, mapReplies], h'⟩

theorem runCalls_append (kv : KvStore) (cs ds : List Call) :
    runCalls kv (cs ++ ds) = do
      let (kv, rs) ← runCalls kv cs
      let (kv, ss) ← runCalls kv ds
      return (kv, rs ++ ss) := by
  induction cs generalizing kv with
  | nil => simp [runCalls]
  | cons c cs ih =>
    cases hexec : exec kv c with
    | none => simp [runCalls, hexec]
    | some p =>
      cases hrun : runCalls p.1 cs with
      | none => simp [runCalls, hexec, ih, hrun]
      | some q =>
        cases hrest : runCalls q.1 ds with
        | none => simp [runCalls, hexec, ih, hrun, hrest]
        | some r => simp [runCalls, hexec, ih, hrun, hrest]

theorem mapReplies_append (m : KvMap) (cs ds : List Call) :
    mapReplies m (cs ++ ds) = mapReplies m cs ++ mapReplies (mapAfter m cs) ds := by
  induction cs generalizing m with
  | nil => rfl
  | cons c cs ih => simp [mapReplies, mapAfter, ih]

/-- Writing the key of slot 0 and deleting it once. -/
def overwriteDelete (k : Key) (v : Value) : List Call := [.write k v, .delete k, .read k]

theorem mapReplies_overwriteDelete (k : Key) (v : Value) (hk : k.bytes ∈ m.entries) :
    mapReplies m (overwriteDelete k v) = [.status 0, .done, .value none] := by
  have hfits : m.Fits k.bytes := Or.inl hk
  simp [overwriteDelete, mapReplies, mapStep, BoundedMap.put, hfits, BoundedMap.remove,
    BoundedMap.get, Finmap.lookup_erase]

/-- The copy of the key that `kv_write` inserts outlives one `kv_delete`. -/
theorem kvRead_after_duplicate (hv : Valid kv) (k : Key) {i j : Fin tableMax} (hij : i ≠ j)
    {w w' : List UInt8} (hi : kv.slot i = some (k.bytes, w))
    (hj : kv.slot j = some (k.bytes, w')) :
    ∃ kv₁ u, kvDelete kv k.bytes = some kv₁ ∧
      exec kv₁ (.read k) = some (kv₁, .value (some u)) := by
  rcases kvDelete_cases hv k.noNul k.short with ⟨d, _, kv₁, -, hdel, hv₁, hupd⟩ | ⟨hnone, -⟩
  · -- one of the two slots is not the one that was emptied
    have hleft : ∃ e u, kv₁.slot e = some (k.bytes, u) := by
      rw [hupd]
      by_cases hd : i = d
      · exact ⟨j, w', by rw [Function.update_of_ne (fun e => hij (hd.trans e.symm)), hj]⟩
      · exact ⟨i, w, by rw [Function.update_of_ne hd, hi]⟩
    obtain ⟨e, u, he⟩ := hleft
    rcases kvRead_cases hv₁ k.noNul k.short with ⟨-, p, u', hread, hd, -⟩ | ⟨-, hnone⟩
    · exact ⟨kv₁, u', hdel, by simp [exec, hread, hd]⟩
    · exact absurd he (hnone e u)
  · exact absurd hi (hnone i w)

/-- A write of the key of slot 0 shows: it fails on a full table, and otherwise the key is still
there after it was deleted. -/
theorem Refines.overwrite_slotZero (h : Refines kv m) (k : Key) (v : Value)
    (hz : InSlotZero kv k.bytes) (kv' : KvStore) :
    runCalls kv (overwriteDelete k v) ≠ some (kv', mapReplies m (overwriteDelete k v)) := by
  obtain ⟨w, hw⟩ := (inSlotZero_iff h.valid k).mp hz
  rw [mapReplies_overwriteDelete k v ((h.slots.mem_iff _).mpr ⟨slotZero, w, hw⟩)]
  rcases kvWrite_cases h.valid k.noNul k.short v.noNul with
    ⟨i, w', hpos, hslot, -⟩ | ⟨-, ⟨-, i, hfree, kv₁, hwrite, hv₁, hupd⟩ | ⟨-, hwrite⟩⟩
  · have hi : i = slotZero := h.slots.inj hslot hw
    rw [hi] at hpos
    exact absurd hpos (Nat.lt_irrefl 0)
  · have hne : slotZero ≠ i := by
      rintro rfl
      rw [hfree] at hw
      exact absurd hw (by simp)
    obtain ⟨kv₂, u, hdel, hread⟩ := kvRead_after_duplicate hv₁ k hne
      (by rw [hupd, Function.update_of_ne hne, hw]) (by rw [hupd, Function.update_self])
    have hwrite' : exec kv (.write k v) = some (kv₁, .status 0) := by simp [exec, hwrite]
    have hdel' : exec kv₁ (.delete k) = some (kv₂, .done) := by simp [exec, hdel]
    simp [overwriteDelete, runCalls, hwrite', hdel', hread]
  · have hwrite' : exec kv (.write k v) = some (kv, .status 1) := by simp [exec, hwrite]
    intro hrun
    simp only [overwriteDelete, runCalls, hwrite', Option.bind_eq_bind, Option.bind_some,
      Option.bind_eq_some_iff] at hrun
    obtain ⟨p, -, hp⟩ := hrun
    simp at hp

/-- From an empty table, every sequence of calls that never writes the key of slot 0 gets the
replies of the bounded map, and stays defined. After such a sequence, a write of the key of slot 0
does not: if it is followed by a deletion and a read of the key, the replies differ. -/
theorem runCalls_refines (hkv : ∀ i, (kv.keys i).stat = 0) {cs : List Call}
    (hcs : SparesSlotZero kv cs) :
    ∃ kv', runCalls kv cs = some (kv', mapReplies BoundedMap.empty cs) ∧
      ∀ k v, InSlotZero kv' k.bytes → ∀ kv'', runCalls kv (cs ++ overwriteDelete k v) ≠
        some (kv'', mapReplies BoundedMap.empty (cs ++ overwriteDelete k v)) := by
  obtain ⟨kv', hrun, h'⟩ := (refines_empty hkv).run hcs
  refine ⟨kv', hrun, ?_⟩
  intro k v hz kv'' hall
  rw [runCalls_append, hrun, mapReplies_append] at hall
  simp only [Option.bind_eq_bind, Option.bind_some, Option.bind_eq_some_iff] at hall
  obtain ⟨⟨kv₁, ss⟩, hss, heq⟩ := hall
  obtain ⟨-, hrs⟩ := Prod.mk.inj (Option.some.inj heq)
  obtain rfl : ss = _ := List.append_cancel_left hrs
  exact h'.overwrite_slotZero k v hz kv₁ hss

/-- The table of the server before its first request: all bytes zero. -/
def zeroStore : KvStore where
  keys := fun _ => { stat := 0, key := fun _ => 0 }
  values := fun _ => none
  heap := []

/-- The key `a`. -/
def keyA : Key := ⟨[97], by decide, by decide⟩

/-- The values `1` and `2`. -/
def value1 : Value := ⟨[49], by decide⟩

def value2 : Value := ⟨[50], by decide⟩

theorem runCalls_refines_write :
    ∃ kv', runCalls zeroStore [.write keyA value1, .read keyA] =
      some (kv', [.status 0, .value (some [49])]) := by
  have hcs : SparesSlotZero zeroStore [.write keyA value1, .read keyA] :=
    ⟨fun h => h.1 rfl, fun _ _ _ => ⟨trivial, fun _ _ _ => trivial⟩⟩
  obtain ⟨kv', hrun, -⟩ := runCalls_refines (fun _ => rfl) hcs
  exact ⟨kv', hrun⟩

theorem runCalls_overwrite_slotZero :
    ¬ ∃ kv', runCalls zeroStore [.write keyA value1, .write keyA value2, .read keyA] =
      some (kv', mapReplies BoundedMap.empty
        [.write keyA value1, .write keyA value2, .read keyA]) := by
  have hcode : (runCalls zeroStore [.write keyA value1, .write keyA value2, .read keyA]).map
      Prod.snd = some [.status 0, .status 0, .value (some [49])] := by decide +kernel
  have hmap : mapReplies BoundedMap.empty [.write keyA value1, .write keyA value2, .read keyA] =
      [.status 0, .status 0, .value (some [50])] := by rfl
  rintro ⟨kv', hrun⟩
  rw [hrun, hmap] at hcode
  simp at hcode

end SystemsProjects.Kvstore
