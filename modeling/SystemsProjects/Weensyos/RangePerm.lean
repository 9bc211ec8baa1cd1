import SystemsProjects.Weensyos.Cursor

/-!
# Permissions of a range

`vmiter::range_perm` (`k-vmiter.cc:5-26`) walks over a range of addresses in steps of the mappings
it meets. A range that is not longer than the mapping it starts in is not walked at all, also when
it starts behind the beginning of that mapping and goes on in the next one.
-/

namespace SystemsProjects.Weensyos
open SystemsProjects.Lib

def vaLowend : Word := 0x0000800000000000

/-- The loop of `range_perm`, with a bound on its rounds. -/
def Vmiter.rangePermLoop (s : Phys) :
    (rounds : Nat) → Vmiter → (p sz rsz : Word) → Except Fault Word
  | 0, _, _, _, _ => .error .running
  | rounds + 1, it, p, sz, rsz => do
    let sz := sz - rsz
    let it ← it.nextRange s
    let p := p &&& it.perm s
    let rsz := pageoffmask it.level + 1
    if p &&& pteP ≠ 0 ∧ sz > rsz then rangePermLoop s rounds it p sz rsz else .ok p

/-- The permissions, if present, and 0 otherwise. -/
def ifPresent (p : Word) : Word := if p &&& pteP ≠ 0 then p else 0

/-- `vmiter::range_perm`. -/
def Vmiter.rangePerm (s : Phys) (sz : Word) (it : Vmiter) : Except Fault Word :=
  let p := it.perm s
  let rsz := pageoffmask it.level + 1
  if p &&& pteP ≠ 0 ∧ sz > rsz then
    if sz > (if it.va.toInt < 0 then 0 else vaLowend) - it.va then .ok 0
    else
      let sz := sz + (it.va &&& (rsz - 1))
      (it.rangePermLoop s sz.toNat p sz rsz).map ifPresent
  else .ok (ifPresent p)

/-! ## The intersection over a range -/

/-- `vmiter (pt, va).perm ()`. -/
def permAt (s : Phys) (root : Nat) (va : Word) : Word :=
  match vmiter s root va with
  | .ok it => it.perm s
  | .error _ => 0

/-- The bitwise and of the first `n` words. -/
def andUpto (f : Nat → Word) : Nat → Word
  | 0 => BitVec.allOnes 64
  | n + 1 => andUpto f n &&& f n

/-- The intersection of the permissions of `sz` addresses from `va` on, if all of them are present,
and 0 otherwise. -/
def rangeIntersection (s : Phys) (root : Nat) (va : Word) (sz : Nat) : Word :=
  if ∀ i < sz, permAt s root (va + BitVec.ofNat 64 i) &&& pteP ≠ 0 then
    andUpto (fun i => permAt s root (va + BitVec.ofNat 64 i)) sz
  else 0

/-- A word is the word of its number. -/
theorem ofNat_toNat_word (x : Word) : BitVec.ofNat 64 x.toNat = x := by
  rw [BitVec.ofNat_toNat, BitVec.setWidth_eq]

section AndUpto
variable {f : Nat → Word} {n m : Nat} {p : Word}

theorem andUpto_add (f : Nat → Word) (n m : Nat) :
    andUpto f (n + m) = andUpto f n &&& andUpto (fun i => f (n + i)) m := by
  induction m with
  | zero => rw [Nat.add_zero, andUpto, BitVec.and_allOnes]
  | succ m ih => rw [← Nat.add_assoc, andUpto, ih, andUpto, BitVec.and_assoc]

theorem andUpto_const (hn : 0 < n) (h : ∀ i < n, f i = p) : andUpto f n = p := by
  induction n with
  | zero => exact absurd hn (Nat.lt_irrefl 0)
  | succ n ih =>
    rw [andUpto, h n (Nat.lt_succ_self n)]
    rcases Nat.eq_zero_or_pos n with rfl | hpos
    · rw [andUpto, BitVec.allOnes_and]
    · rw [ih hpos fun i hi => h i (Nat.lt_succ_of_lt hi), BitVec.and_self]

theorem and_eq_left {a b : Word} (h : p &&& a &&& b = p) : p &&& a = p ∧ p &&& b = p := by
  constructor
  · conv_lhs => rw [← h, BitVec.and_assoc, BitVec.and_comm b a, ← BitVec.and_assoc,
      BitVec.and_assoc p a a, BitVec.and_self, h]
  · conv_lhs => rw [← h, BitVec.and_assoc, BitVec.and_self, h]

/-- `p` is in the intersection exactly when it is in every word. -/
theorem and_andUpto_iff : p &&& andUpto f n = p ↔ ∀ i < n, p &&& f i = p := by
  induction n with
  | zero =>
    rw [andUpto, BitVec.and_allOnes]
    exact ⟨fun _ i hi => absurd hi (Nat.not_lt_zero i), fun _ => rfl⟩
  | succ n ih =>
    rw [andUpto, ← BitVec.and_assoc]
    constructor
    · intro h
      obtain ⟨hinit, hlast⟩ := and_eq_left h
      intro i hi
      rcases Nat.lt_succ_iff_lt_or_eq.mp hi with hlt | rfl
      · exact ih.mp hinit i hlt
      · exact hlast
    · intro h
      rw [ih.mpr fun i hi => h i (Nat.lt_succ_of_lt hi), h n (Nat.lt_succ_self n)]

end AndUpto

/-! ## What is the same in a whole mapping -/

/-- The number of bytes of the mapping, or of the gap, that an address is in. -/
def mappingSize (s : Phys) (root : Nat) (va : Word) : Nat := rangeSize (cursor s root va).level

section Mapping
variable {s : Phys} {root : Nat} {va va' : Word}

theorem cursor_level_le (s : Phys) (root : Nat) (va : Word) : (cursor s root va).level ≤ 3 := by
  unfold cursor
  split_ifs
  · exact Vmiter.descend_level s 3 _ (Nat.le_refl 3)
  · exact Nat.le_refl 3

theorem mappingSize_pos (s : Phys) (root : Nat) (va : Word) : 0 < mappingSize s root va :=
  rangeSize_pos _

theorem mappingSize_le (s : Phys) (root : Nat) (va : Word) : mappingSize s root va ≤ 2 ^ 39 :=
  rangeSize_le (cursor_level_le s root va)

/-- The addresses of a mapping have the same permissions and the same size. -/
theorem cursor_sameRange (h : SameRange (cursor s root va).level va va') :
    (cursor s root va').level = (cursor s root va).level ∧
      (cursor s root va').perm s = (cursor s root va).perm s := by
  have hcanon := h.canonical (cursor_level_le s root va)
  by_cases hva : vaIsCanonical va = true
  · have hva' : vaIsCanonical va' = true := hcanon.trans hva
    obtain ⟨mask, hend⟩ := descend_walk s root va 3 root initialPerm
    cases hw : Radix.walk child s.word (pageindex va) 3 root with
    | mk m q =>
      have hend : Vmiter.descend s 3 (entryAt root va 3 root initialPerm) =
          entryAt root va m q mask := by rw [hend, hw]
      have hcur : cursor s root va = entryAt root va m q mask := by rw [cursor, if_pos hva, hend]
      rw [hcur] at h ⊢
      have hrange : SameRange m va va' := h
      have hindex : pageindex va' m = pageindex va m := hrange.pageindex (Nat.le_refl m)
      -- the entry ends the walk of the other address as well
      have hstop : Vmiter.descend s m (entryAt root va' m q mask) = entryAt root va' m q mask := by
        cases m with
        | zero => rfl
        | succ m =>
          apply descend_none
          rw [hindex]
          exact Radix.walk_end hw
      have hcur' : cursor s root va' = entryAt root va' m q mask := by
        rw [cursor, if_pos hva',
          descend_through (fun j hj _ => hrange.pageindex (Nat.le_of_lt hj)) hend, hstop]
      rw [hcur']
      refine ⟨rfl, ?_⟩
      unfold Vmiter.perm entryAt
      rw [hindex]
  · have hva' : ¬vaIsCanonical va' = true := fun h' => hva (hcanon.symm.trans h')
    simp only [cursor, if_neg hva, if_neg hva']
    exact ⟨trivial, rfl⟩

theorem EntriesLow.permAt_eq (ht : EntriesLow s root) (va : Word) :
    permAt s root va = (cursor s root va).perm s := by
  unfold permAt
  rw [ht.vmiter_eq va]

theorem EntriesLow.permAt_same (ht : EntriesLow s root)
    (h : va'.toNat / mappingSize s root va = va.toNat / mappingSize s root va) :
    permAt s root va' = permAt s root va := by
  rw [ht.permAt_eq, ht.permAt_eq]
  exact (cursor_sameRange (sameRange_iff.mpr h)).2

theorem toNat_lastVa_cursor (s : Phys) (root : Nat) (hva : va.toNat < 2 ^ 47) :
    (cursor s root va).lastVa.toNat =
      mappingSize s root va * (va.toNat / mappingSize s root va + 1) := by
  rw [Vmiter.lastVa, cursor_va]
  exact toNat_lastVa (cursor_level_le s root va) (by omega)

/-- The next mapping starts at its own beginning: an address in the middle of it would share it with
the address before. -/
theorem mappingSize_dvd_lastVa (s : Phys) (root : Nat) (hva : va.toNat < 2 ^ 47) :
    mappingSize s root (cursor s root va).lastVa ∣ (cursor s root va).lastVa.toNat := by
  have hlast := toNat_lastVa_cursor s root hva
  have hpos := mappingSize_pos s root va
  generalize hnext : (cursor s root va).lastVa = next at hlast
  by_cases hlevel : (cursor s root next).level ≤ (cursor s root va).level
  · rw [hlast]
    exact Dvd.dvd.mul_right (rangeSize_dvd hlevel) _
  · by_contra hdvd
    have hle := mappingSize_le s root va
    have hnat : next.toNat = mappingSize s root va * (va.toNat / mappingSize s root va) +
        mappingSize s root va := by rw [hlast, Nat.mul_add, Nat.mul_one]
    have hbefore : (next - 1).toNat = next.toNat - 1 := by
      have hlt := next.isLt
      rw [BitVec.toNat_sub]
      change (2 ^ 64 - 1 + next.toNat) % 2 ^ 64 = _
      omega
    have hold : SameRange (cursor s root va).level va (next - 1) := by
      rw [sameRange_iff, hbefore]
      change _ / mappingSize s root va = _ / mappingSize s root va
      rw [hnat, Nat.add_sub_assoc hpos, Nat.mul_add_div hpos, Nat.div_eq_of_lt (Nat.sub_lt hpos
        Nat.one_pos), Nat.add_zero]
    have hnew : SameRange (cursor s root next).level next (next - 1) := by
      rw [sameRange_iff, hbefore]
      change _ / mappingSize s root next = _ / mappingSize s root next
      have hsucc : next.toNat - 1 + 1 = next.toNat := by omega
      conv_rhs => rw [← hsucc, Nat.succ_div_of_not_dvd (by rwa [hsucc])]
    exact hlevel ((cursor_sameRange hnew).1.symm.trans (cursor_sameRange hold).1).le

/-- Addresses from `x` on, as far as the mapping of `x` goes. -/
theorem EntriesLow.andUpto_mapping (ht : EntriesLow s root) {x n : Nat} (hn : 0 < n)
    (hx : x + n ≤ 2 ^ 47)
    (hin : x % mappingSize s root (BitVec.ofNat 64 x) + n ≤
      mappingSize s root (BitVec.ofNat 64 x)) :
    andUpto (fun i => permAt s root (BitVec.ofNat 64 (x + i))) n =
      permAt s root (BitVec.ofNat 64 x) := by
  apply andUpto_const hn
  intro i hi
  apply ht.permAt_same
  have hpos := mappingSize_pos s root (BitVec.ofNat 64 x)
  generalize mappingSize s root (BitVec.ofNat 64 x) = size at hin hpos
  rw [BitVec.toNat_ofNat, BitVec.toNat_ofNat, Nat.mod_eq_of_lt (by omega),
    Nat.mod_eq_of_lt (by omega)]
  calc (x + i) / size = (size * (x / size) + (x % size + i)) / size := by
        rw [← Nat.add_assoc, Nat.div_add_mod]
    _ = x / size := by
        have hlt : x % size + i < size := by omega
        rw [Nat.mul_add_div hpos, Nat.div_eq_of_lt hlt, Nat.add_zero]

/-- Addresses from a word on, as far as its mapping goes. -/
theorem EntriesLow.andUpto_here (ht : EntriesLow s root) {n : Nat} (hn : 0 < n)
    (hend : va.toNat + n ≤ 2 ^ 47)
    (hin : va.toNat % mappingSize s root va + n ≤ mappingSize s root va) :
    andUpto (fun i => permAt s root (BitVec.ofNat 64 (va.toNat + i))) n = permAt s root va := by
  have hva := ofNat_toNat_word va
  have h := ht.andUpto_mapping hn hend (by rw [hva]; exact hin)
  rwa [hva] at h

/-- From the beginning of a mapping on. -/
theorem EntriesLow.andUpto_start (ht : EntriesLow s root) {start n : Nat} (hn : 0 < n)
    (hend : start + n ≤ 2 ^ 47) (hdvd : mappingSize s root (BitVec.ofNat 64 start) ∣ start)
    (hin : n ≤ mappingSize s root (BitVec.ofNat 64 start)) :
    andUpto (fun i => permAt s root (BitVec.ofNat 64 (start + i))) n =
      permAt s root (BitVec.ofNat 64 start) := by
  apply ht.andUpto_mapping hn hend
  rw [Nat.mod_eq_zero_of_dvd hdvd, Nat.zero_add]
  exact hin

end Mapping

/-! ## The loop -/

theorem ifPresent_absent {p : Word} (h : p &&& pteP = 0) (x : Word) : ifPresent (p &&& x) = 0 := by
  have hzero : (p &&& x) &&& pteP = 0 := by
    rw [BitVec.and_assoc, BitVec.and_comm x, ← BitVec.and_assoc, h]
    exact BitVec.zero_and
  unfold ifPresent
  rw [if_neg (not_not.mpr hzero)]

section Loop
variable {s : Phys} {root : Nat}

theorem rsz_eq (s : Phys) (root : Nat) (va : Word) :
    pageoffmask (cursor s root va).level + 1 = BitVec.ofNat 64 (mappingSize s root va) := by
  have hlt : mappingSize s root va < 2 ^ 64 :=
    Nat.lt_of_le_of_lt (mappingSize_le s root va) (by decide)
  apply BitVec.eq_of_toNat_eq
  rw [toNat_rsz (cursor_level_le s root va), BitVec.toNat_ofNat, Nat.mod_eq_of_lt hlt]
  rfl

/-- `sz > rsz`. -/
theorem gt_rsz_iff (s : Phys) (root : Nat) {n : Nat} (hn : n ≤ 2 ^ 48) (va : Word) :
    BitVec.ofNat 64 n > pageoffmask (cursor s root va).level + 1 ↔ mappingSize s root va < n := by
  have hle := mappingSize_le s root va
  rw [rsz_eq, gt_iff_lt, BitVec.lt_def, BitVec.toNat_ofNat, BitVec.toNat_ofNat,
    Nat.mod_eq_of_lt (by omega), Nat.mod_eq_of_lt (by omega)]

theorem word_gt_rsz_iff (s : Phys) (root : Nat) {sz : Word} (hsz : sz.toNat ≤ 2 ^ 48) (va : Word) :
    sz > pageoffmask (cursor s root va).level + 1 ↔ mappingSize s root va < sz.toNat := by
  rw [← gt_rsz_iff s root hsz va, ofNat_toNat_word]

/-- The beginning of the next mapping, as the loop moves to it. -/
theorem nextRange_eq (ht : EntriesLow s root) {va : Word} {base : Nat}
    (hbase : base = mappingSize s root va * (va.toNat / mappingSize s root va))
    (hva : va.toNat < 2 ^ 47) :
    (cursor s root va).nextRange s =
        .ok (cursor s root (BitVec.ofNat 64 (base + mappingSize s root va))) ∧
      mappingSize s root (BitVec.ofNat 64 (base + mappingSize s root va)) ∣
        base + mappingSize s root va := by
  have hlast := toNat_lastVa_cursor s root hva
  have hdvd := mappingSize_dvd_lastVa s root hva
  have hmove := ht.realFind_eq va (cursor s root va).lastVa
  rw [Nat.mul_add, Nat.mul_one, ← hbase] at hlast
  have hnext : BitVec.ofNat 64 (base + mappingSize s root va) = (cursor s root va).lastVa := by
    rw [← hlast, ofNat_toNat_word]
  rw [hnext, ← hlast]
  exact ⟨hmove, hdvd⟩

/-- One round: the permissions of the next mapping are taken in, and the loop goes on if they leave
something present and the range goes on behind it. -/
theorem EntriesLow.rangePermLoop_succ (ht : EntriesLow s root) (rounds : Nat) {va p : Word}
    {base start n : Nat}
    (hbase : base = mappingSize s root va * (va.toNat / mappingSize s root va))
    (hva : va.toNat < 2 ^ 47) (hstart : start = base + mappingSize s root va)
    (hn : mappingSize s root va < n) (hsmall : n ≤ 2 ^ 48) :
    Vmiter.rangePermLoop s (rounds + 1) (cursor s root va) p (BitVec.ofNat 64 n)
        (pageoffmask (cursor s root va).level + 1) =
      if p &&& permAt s root (BitVec.ofNat 64 start) &&& pteP ≠ 0 ∧
          mappingSize s root (BitVec.ofNat 64 start) < n - mappingSize s root va then
        Vmiter.rangePermLoop s rounds (cursor s root (BitVec.ofNat 64 start))
          (p &&& permAt s root (BitVec.ofNat 64 start))
          (BitVec.ofNat 64 (n - mappingSize s root va))
          (pageoffmask (cursor s root (BitVec.ofNat 64 start)).level + 1)
      else .ok (p &&& permAt s root (BitVec.ofNat 64 start)) := by
  obtain ⟨hmove, -⟩ := nextRange_eq ht hbase hva
  rw [← hstart] at hmove
  have hsz : BitVec.ofNat 64 n - (pageoffmask (cursor s root va).level + 1) =
      BitVec.ofNat 64 (n - mappingSize s root va) := by
    rw [rsz_eq, BitVec.ofNat_sub_ofNat_of_le _ _ (by omega) (by omega)]
  have hleft : n - mappingSize s root va ≤ 2 ^ 48 := (Nat.sub_le _ _).trans hsmall
  rw [Vmiter.rangePermLoop]
  simp only [hsz, hmove, bind, Except.bind, ← ht.permAt_eq, gt_rsz_iff s root hleft]

/-- The loop, entered with `n` bytes left from the beginning of a mapping on that it is longer than,
takes in the permissions of all bytes behind that mapping. -/
theorem EntriesLow.rangePermLoop_eq (ht : EntriesLow s root) (rounds : Nat) {va p : Word}
    {base n : Nat} (hbase : base = mappingSize s root va * (va.toNat / mappingSize s root va))
    (hn : mappingSize s root va < n) (hend : base + n ≤ 2 ^ 47) (hrounds : n ≤ rounds) :
    ∃ p', Vmiter.rangePermLoop s rounds (cursor s root va) p (BitVec.ofNat 64 n)
        (pageoffmask (cursor s root va).level + 1) = .ok p' ∧
      ifPresent p' = ifPresent (p &&& andUpto
        (fun i => permAt s root (BitVec.ofNat 64 (base + mappingSize s root va + i)))
        (n - mappingSize s root va)) := by
  induction rounds generalizing va p base n with
  | zero => omega
  | succ rounds ih =>
    have hpos := mappingSize_pos s root va
    have hmod := Nat.div_add_mod va.toNat (mappingSize s root va)
    have hlt := Nat.mod_lt va.toNat hpos
    have hva : va.toNat < 2 ^ 47 := by omega
    obtain ⟨start, hstart⟩ : ∃ start, start = base + mappingSize s root va := ⟨_, rfl⟩
    have hround := ht.rangePermLoop_succ rounds (p := p) hbase hva hstart hn (by omega)
    obtain ⟨-, hdvd⟩ := nextRange_eq ht hbase hva
    obtain ⟨rest, hrest⟩ : ∃ rest, rest = n - mappingSize s root va := ⟨_, rfl⟩
    have hfit : start + rest ≤ 2 ^ 47 := by omega
    have hless : rest ≤ rounds := by omega
    have hleft : 0 < rest := by omega
    rw [← hrest] at hround ⊢
    rw [← hstart] at hdvd ⊢
    rw [hround]
    by_cases hp : p &&& permAt s root (BitVec.ofNat 64 start) &&& pteP = 0
    · -- the next mapping is not present
      rw [if_neg fun h => h.1 hp]
      refine ⟨_, rfl, ?_⟩
      obtain ⟨rest', rfl⟩ : ∃ rest', rest = 1 + rest' := ⟨rest - 1, by omega⟩
      rw [andUpto_add, ht.andUpto_start Nat.one_pos (by omega) hdvd (mappingSize_pos _ _ _),
        ← BitVec.and_assoc, ifPresent_absent hp, ifPresent, if_neg (not_not.mpr hp)]
    · by_cases hlong : mappingSize s root (BitVec.ofNat 64 start) < rest
      · -- it is, and the range goes on behind it
        rw [if_pos ⟨hp, hlong⟩]
        have hnext : start = mappingSize s root (BitVec.ofNat 64 start) *
            ((BitVec.ofNat 64 start).toNat / mappingSize s root (BitVec.ofNat 64 start)) := by
          rw [BitVec.toNat_ofNat, Nat.mod_eq_of_lt (by omega), Nat.mul_div_cancel' hdvd]
        obtain ⟨p', hloop, hp'⟩ := ih hnext hlong hfit hless
        refine ⟨p', hloop, ?_⟩
        obtain ⟨rest', hrest'⟩ :
            ∃ rest', rest = mappingSize s root (BitVec.ofNat 64 start) + rest' :=
          ⟨rest - mappingSize s root (BitVec.ofNat 64 start), by omega⟩
        rw [hp', hrest', Nat.add_sub_cancel_left, andUpto_add, ht.andUpto_start
          (mappingSize_pos _ _ _) (by omega) hdvd le_rfl, ← BitVec.and_assoc]
        simp only [Nat.add_assoc]
      · -- it is, and the range ends in it
        rw [if_neg fun h => hlong h.2]
        refine ⟨_, rfl, ?_⟩
        rw [ht.andUpto_start hleft hfit hdvd (Nat.not_lt.mp hlong)]

end Loop

/-! ## The whole function -/

theorem and_pteP_ne_zero_iff (x : Word) : x &&& pteP ≠ 0 ↔ pteP &&& x = pteP := by
  have hnat : (x &&& pteP).toNat = x.toNat % 2 := by
    rw [BitVec.toNat_and]
    exact Nat.and_one_is_mod _
  rw [BitVec.and_comm pteP x, Ne, ← BitVec.toNat_inj, ← BitVec.toNat_inj, hnat]
  change ¬x.toNat % 2 = 0 ↔ x.toNat % 2 = 1
  omega

section Whole
variable {s : Phys} {root : Nat} {va sz : Word}

/-- The addresses of the range as numbers. -/
theorem rangeIntersection_eq (s : Phys) (root : Nat) (va : Word) (n : Nat) :
    rangeIntersection s root va n =
      ifPresent (andUpto (fun i => permAt s root (BitVec.ofNat 64 (va.toNat + i))) n) := by
  have haddr : ∀ i, va + BitVec.ofNat 64 i = BitVec.ofNat 64 (va.toNat + i) := by
    intro i
    rw [BitVec.ofNat_add, ofNat_toNat_word]
  have hall : (∀ i < n, permAt s root (BitVec.ofNat 64 (va.toNat + i)) &&& pteP ≠ 0) ↔
      andUpto (fun i => permAt s root (BitVec.ofNat 64 (va.toNat + i))) n &&& pteP ≠ 0 := by
    rw [and_pteP_ne_zero_iff, and_andUpto_iff]
    exact forall₂_congr fun i _ => and_pteP_ne_zero_iff _
  simp only [rangeIntersection, haddr, hall]
  rfl

/-- The range starts behind the beginning of a present mapping that is not smaller than it, goes on
behind that mapping, and has less permissions somewhere. -/
def CrossesUnseen (s : Phys) (root : Nat) (va sz : Word) : Prop :=
  permAt s root va &&& pteP ≠ 0 ∧ sz.toNat ≤ mappingSize s root va ∧
    mappingSize s root va < va.toNat % mappingSize s root va + sz.toNat ∧
    ∃ i < sz.toNat, permAt s root va &&& permAt s root (BitVec.ofNat 64 (va.toNat + i)) ≠
      permAt s root va

/-- The permissions of the first address bound those of the range. -/
theorem andUpto_first (s : Phys) (root : Nat) (va : Word) {n : Nat} (hn : 0 < n) :
    ∃ rest, andUpto (fun i => permAt s root (BitVec.ofNat 64 (va.toNat + i))) n =
      permAt s root va &&& rest := by
  obtain ⟨n, rfl⟩ : ∃ m, n = 1 + m := ⟨n - 1, by omega⟩
  refine ⟨andUpto (fun i => permAt s root (BitVec.ofNat 64 (va.toNat + (1 + i)))) n, ?_⟩
  have hone : andUpto (fun i => permAt s root (BitVec.ofNat 64 (va.toNat + i))) 1 =
      permAt s root va := by
    rw [andUpto, andUpto, BitVec.allOnes_and, Nat.add_zero, ofNat_toNat_word]
  rw [andUpto_add, hone]

/-- What the function returns for a range that it does not walk. -/
theorem ifPresent_eq_iff {n : Nat} (hn : 0 < n) (hp : permAt s root va &&& pteP ≠ 0) :
    ifPresent (permAt s root va) = rangeIntersection s root va n ↔
      ∀ i < n, permAt s root va &&& permAt s root (BitVec.ofNat 64 (va.toNat + i)) =
        permAt s root va := by
  obtain ⟨rest, hfirst⟩ := andUpto_first s root va hn
  rw [rangeIntersection_eq, ifPresent, if_pos hp]
  constructor
  · intro h
    rw [← and_andUpto_iff]
    unfold ifPresent at h
    split_ifs at h
    · rw [← h, BitVec.and_self]
    · rw [h] at hp
      exact absurd BitVec.zero_and hp
  · intro h
    rw [← and_andUpto_iff, hfirst, ← BitVec.and_assoc, BitVec.and_self] at h
    rw [hfirst, h, ifPresent, if_pos hp]

/-- The range ends below `VA_LOWEND`. -/
theorem not_beyond_lowend (hend : va.toNat + sz.toNat ≤ 2 ^ 47) (hpos : 0 < sz.toNat) :
    ¬sz > (if va.toInt < 0 then 0 else vaLowend) - va := by
  have hnonneg : ¬va.toInt < 0 := by
    rw [BitVec.toInt_eq_toNat_of_lt (by omega)]
    omega
  have hlowend : vaLowend.toNat = 2 ^ 47 := rfl
  rw [if_neg hnonneg, gt_iff_lt, BitVec.lt_def, BitVec.toNat_sub_of_le, hlowend]
  · omega
  · rw [BitVec.le_def, hlowend]
    omega

/-- The bytes of the first mapping, and those behind it. -/
theorem EntriesLow.andUpto_split (ht : EntriesLow s root) {n : Nat}
    (hend : va.toNat + n ≤ 2 ^ 47)
    (hlong : mappingSize s root va ≤ va.toNat % mappingSize s root va + n) :
    andUpto (fun i => permAt s root (BitVec.ofNat 64 (va.toNat + i))) n =
      permAt s root va &&& andUpto (fun i => permAt s root (BitVec.ofNat 64
        (mappingSize s root va * (va.toNat / mappingSize s root va) + mappingSize s root va + i)))
        (n + va.toNat % mappingSize s root va - mappingSize s root va) := by
  have hmod := Nat.div_add_mod va.toNat (mappingSize s root va)
  have hlt := Nat.mod_lt va.toNat (mappingSize_pos s root va)
  obtain ⟨k, hk⟩ : ∃ k, k + va.toNat % mappingSize s root va = mappingSize s root va :=
    ⟨mappingSize s root va - va.toNat % mappingSize s root va, by omega⟩
  obtain ⟨rest, hrest⟩ : ∃ rest, n = k + rest := ⟨n - k, by omega⟩
  have hbehind : ∀ i, mappingSize s root va * (va.toNat / mappingSize s root va) +
      mappingSize s root va + i = va.toNat + (k + i) := by omega
  have hcount : n + va.toNat % mappingSize s root va - mappingSize s root va = rest := by omega
  rw [hcount, hrest, andUpto_add, ht.andUpto_here (by omega) (by omega) (by omega)]
  simp only [hbehind]

/-- A range that is walked gets the intersection. -/
theorem EntriesLow.rangePerm_walked (ht : EntriesLow s root) (hend : va.toNat + sz.toNat ≤ 2 ^ 47)
    (hp : permAt s root va &&& pteP ≠ 0) (hlong : mappingSize s root va < sz.toNat) :
    (cursor s root va).rangePerm s sz = .ok (rangeIntersection s root va sz.toNat) := by
  have hpos := mappingSize_pos s root va
  have hle := mappingSize_le s root va
  have hmod := Nat.div_add_mod va.toNat (mappingSize s root va)
  have hlt := Nat.mod_lt va.toNat hpos
  have hgt : sz > pageoffmask (cursor s root va).level + 1 :=
    (word_gt_rsz_iff s root (by omega) va).mpr hlong
  -- `sz` is counted from the beginning of the mapping on
  have hfrom : sz + (va &&& (pageoffmask (cursor s root va).level + 1 - 1)) =
      BitVec.ofNat 64 (sz.toNat + va.toNat % mappingSize s root va) := by
    apply BitVec.eq_of_toNat_eq
    rw [BitVec.toNat_add, toNat_and_rsz (cursor_level_le s root va), BitVec.toNat_ofNat]
    rfl
  have hsplit := ht.andUpto_split hend (by omega)
  obtain ⟨n, hn⟩ : ∃ n, n = sz.toNat + va.toNat % mappingSize s root va := ⟨_, rfl⟩
  rw [← hn] at hfrom hsplit
  have hrounds : n ≤ (BitVec.ofNat 64 n).toNat := by
    rw [BitVec.toNat_ofNat, Nat.mod_eq_of_lt (by omega)]
  obtain ⟨p', hloop, hp'⟩ := ht.rangePermLoop_eq (BitVec.ofNat 64 n).toNat
    (p := permAt s root va) rfl (show mappingSize s root va < n by omega) (by omega) hrounds
  unfold Vmiter.rangePerm
  rw [cursor_va, ← ht.permAt_eq]
  dsimp only
  rw [if_pos ⟨hp, hgt⟩, if_neg (not_beyond_lowend hend (by omega)), hfrom, hloop,
    rangeIntersection_eq, hsplit]
  exact congrArg Except.ok hp'

/-- `range_perm` is the intersection over the whole range, unless the range is not longer than the
present mapping it starts in, goes on behind it all the same, and has less permissions somewhere. -/
theorem rangePerm_eq_iff (ht : EntriesLow s root) (hsz : 1 ≤ sz.toNat)
    (hend : va.toNat + sz.toNat ≤ 2 ^ 47) :
    (vmiter s root va >>= fun it => it.rangePerm s sz) =
        .ok (rangeIntersection s root va sz.toNat) ↔
      ¬CrossesUnseen s root va sz := by
  have hbind : (vmiter s root va >>= fun it => it.rangePerm s sz) =
      (cursor s root va).rangePerm s sz := by
    rw [ht.vmiter_eq va]
    rfl
  rw [hbind]
  by_cases hp : permAt s root va &&& pteP = 0
  · -- nothing is mapped at the first address
    refine iff_of_true ?_ fun h => h.1 hp
    obtain ⟨rest, hfirst⟩ := andUpto_first s root va hsz
    unfold Vmiter.rangePerm
    rw [← ht.permAt_eq]
    dsimp only
    rw [if_neg fun h => h.1 hp, rangeIntersection_eq, hfirst, ifPresent_absent hp, ifPresent,
      if_neg (not_not.mpr hp)]
  · by_cases hlong : mappingSize s root va < sz.toNat
    · exact iff_of_true (ht.rangePerm_walked hend hp hlong) fun h => absurd h.2.1 (by omega)
    · -- the range is not walked
      have hnot : ¬sz > pageoffmask (cursor s root va).level + 1 :=
        mt (word_gt_rsz_iff s root (by omega) va).mp hlong
      unfold Vmiter.rangePerm
      rw [← ht.permAt_eq]
      dsimp only
      rw [if_neg fun h => hnot h.2, Except.ok.injEq, ifPresent_eq_iff hsz hp]
      constructor
      · intro hall h
        obtain ⟨-, -, -, i, hi, hne⟩ := h
        exact hne (hall i hi)
      · intro hcross i hi
        by_contra hne
        refine hcross ⟨hp, Nat.not_lt.mp hlong, ?_, i, hi, hne⟩
        by_contra hin
        have hmap := ht.andUpto_here hsz hend (Nat.not_lt.mp hin)
        exact hne ((and_andUpto_iff.mp (by rw [hmap, BitVec.and_self])) i hi)

end Whole

/-- Two pages of the large page from 0 on. -/
theorem rangePerm_mixed :
    (vmiter mixedTable 1 0x800 >>= fun it => it.rangePerm mixedTable 0x2000) =
        .ok (rangeIntersection mixedTable 1 0x800 (0x2000 : Word).toNat) ↔
      ¬CrossesUnseen mixedTable 1 0x800 0x2000 :=
  rangePerm_eq_iff mixedTable_low (by decide) (by decide)

/-- The last byte of a page and the first one of the next, which is not mapped. -/
theorem rangePerm_unseen :
    (vmiter mixedTable 1 0x200FFF >>= fun it => it.rangePerm mixedTable 2) = .ok 5 ∧
      rangeIntersection mixedTable 1 0x200FFF 2 = 0 := by
  constructor
  · rfl
  · decide +kernel

end SystemsProjects.Weensyos
