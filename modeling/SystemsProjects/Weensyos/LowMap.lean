import SystemsProjects.Weensyos.Kernel
import SystemsProjects.Weensyos.Ranges

/-!
# The tables of low memory

All addresses below 2 MiB go through entry 0 of the three upper tables to one table of level 0. Once
these tables are linked, an iterator moves inside that table and `try_map` writes one of its
entries.
-/

namespace SystemsProjects.Weensyos

/-! ## Addresses below 2 MiB -/

theorem ofNat_mul_pageSize (p : Nat) : BitVec.ofNat 64 (p * pageSize) = addrOf p := by
  apply BitVec.eq_of_toNat_eq
  rw [addrOf, BitVec.toNat_shiftLeft, BitVec.toNat_ofNat, BitVec.toNat_ofNat, Nat.shiftLeft_eq,
    pageSize]
  omega

theorem addrOf_add {p : Nat} (h : p + 1 < 2 ^ 40) : addrOf p + 4096 = addrOf (p + 1) := by
  apply BitVec.eq_of_toNat_eq
  rw [BitVec.toNat_add, toNat_addrOf (by omega), toNat_addrOf h]
  show (p * 4096 + 4096) % 2 ^ 64 = (p + 1) * 4096
  omega

theorem addrOf_mod {p : Nat} (h : p < 2 ^ 40) : addrOf p % 4096 = 0 := by
  apply BitVec.eq_of_toNat_eq
  rw [BitVec.toNat_umod, toNat_addrOf h]
  show p * 4096 % 4096 = 0
  omega

theorem addrOf_and_ptePamask {p : Nat} (h : p < 2 ^ 40) : addrOf p &&& ptePamask = addrOf p := by
  have haddr := toNat_addrOf h
  exact and_ptePamask (by omega) (by omega)

/-- The way to the table of level 0. -/
theorem pageindex_of_lt {va : Word} (h : va.toNat < 0x200000) {level : Nat} (h1 : 1 ≤ level)
    (h3 : level ≤ 3) : pageindex va level = 0 := by
  apply Fin.ext
  rw [pageindex_val, rangeSize]
  show _ = 0
  interval_cases level <;> omega

theorem pageindex_addrOf {p : Nat} (h : p < 512) : pageindex (addrOf p) 0 = ⟨p, h⟩ := by
  apply Fin.ext
  rw [pageindex_val, rangeSize, toNat_addrOf (by omega)]
  show p * 4096 / 2 ^ 12 % 512 = p
  omega

theorem canonical_of_lt {va : Word} (h : va.toNat < 0x200000) : vaIsCanonical va = true := by
  have hle : va ≤ vaLowmax := by
    rw [BitVec.le_def]
    show va.toNat ≤ 0x00007FFFFFFFFFFF
    omega
  simp only [vaIsCanonical, hle, decide_true, Bool.true_or]

/-- Two addresses below 2 MiB are in the range of one entry of level 1. -/
theorem xor_and_of_lt {va va' : Word} (h : va.toNat < 0x200000) (h' : va'.toNat < 0x200000) :
    (va ^^^ va') &&& ~~~pageoffmask 1 = 0 := by
  have hsize : rangeSize 1 = 0x200000 := rfl
  rw [xor_eq_zero_iff (by decide), sameRange_iff, hsize, Nat.div_eq_of_lt h, Nat.div_eq_of_lt h']

/-- One level down to a table that is linked. -/
theorem descend_tableEntry {s : Phys} {t p l n : Nat} {va : Word} (hn : n < 2 ^ 20)
    (hentry : s.word p (pageindex va (l + 1)) = tableEntry n) :
    Vmiter.descend s (l + 1) (iterAt t va (l + 1, p)) =
      Vmiter.descend s l (iterAt t va (l, n)) := by
  have hload : s.load (iterAt t va (l + 1, p)).pep = tableEntry n := hentry
  rw [Vmiter.descend, hload, if_pos (tableEntry_present n), pageOf_tableEntry (by omega)]
  congr 1
  simp only [iterAt, initialPerm_and (tableEntry_and_ptePWU n)]

/-! ## Iterators in the table of level 0 -/

/-- Entry 0 of the tables `t`, `a` and `b` leads to table `c`, whose entries are below 4 GiB. -/
structure LowTables (s : Phys) (t a b c : Nat) : Prop where
  top : s.word t 0 = tableEntry a
  mid : s.word a 0 = tableEntry b
  low : s.word b 0 = tableEntry c
  bound : a < 2 ^ 20 ∧ b < 2 ^ 20 ∧ c < 2 ^ 20
  apart : c ≠ t ∧ c ≠ a ∧ c ≠ b
  small : ∀ i, s.word c i &&& ptePamask < 0x100000000

/-- What is read at the entry of a page that is mapped to itself. -/
theorem reading_page {s : Phys} {c : Nat} (root : Nat) {p : Nat} (hp : p < 512)
    {perm : BitVec 32} (hperm : PermArg perm)
    (hentry : s.word c ⟨p, hp⟩ = addrOf p ||| perm.signExtend 64) :
    (iterAt root (addrOf p) (0, c)).perm s = perm.signExtend 64 ∧
      (perm.signExtend 64 &&& pteP ≠ 0 → (iterAt root (addrOf p) (0, c)).pa s = addrOf p) := by
  have halign := addrOf_mod (p := p) (by omega)
  have hmask := addrOf_and_ptePamask (p := p) (by omega)
  have hindex : s.word c (pageindex (addrOf p) 0) = addrOf p ||| perm.signExtend 64 := by
    rw [pageindex_addrOf hp]
    exact hentry
  exact reading_leaf root halign hmask hperm hindex

namespace LowTables
variable {s s' : Phys} {t a b c : Nat} (h : LowTables s t a b c)
include h

/-- Only the four tables matter. -/
theorem congr (hsame : ∀ p, p = t ∨ p = a ∨ p = b ∨ p = c → s'.word p = s.word p) :
    LowTables s' t a b c where
  top := by rw [hsame t (by simp)]; exact h.top
  mid := by rw [hsame a (by simp)]; exact h.mid
  low := by rw [hsame b (by simp)]; exact h.low
  bound := h.bound
  apart := h.apart
  small := by
    intro i
    rw [hsame c (by simp)]
    exact h.small i

/-- An entry of the lowest table is written. -/
theorem write {i : Fin 512} {e : Word} (he : e &&& ptePamask < 0x100000000) :
    LowTables (written s c i e) t a b c := by
  obtain ⟨ht, ha, hb⟩ := h.apart
  have hkeep : ∀ p, p ≠ c → (written s c i e).word p = s.word p := fun p hp => by
    simp only [written, Function.update_of_ne hp]
  refine ⟨?_, ?_, ?_, h.bound, h.apart, ?_⟩
  · rw [hkeep t ht.symm]
    exact h.top
  · rw [hkeep a ha.symm]
    exact h.mid
  · rw [hkeep b hb.symm]
    exact h.low
  · intro j
    by_cases hj : j = i
    · simp only [written, hj, Function.update_self]
      exact he
    · simp only [written, Function.update_self, Function.update_of_ne hj]
      exact h.small j

section Below
variable {va : Word} (hva : va.toNat < 0x200000)
include hva

theorem vmiter_eq : vmiter s t va = .ok (iterAt t va (0, c)) := by
  obtain ⟨ha, hb, hc⟩ := h.bound
  have htop : s.word t (pageindex va 3) = tableEntry a := by
    rw [pageindex_of_lt hva (by omega) (by omega)]
    exact h.top
  have hmid : s.word a (pageindex va 2) = tableEntry b := by
    rw [pageindex_of_lt hva (by omega) (by omega)]
    exact h.mid
  have hlow : s.word b (pageindex va 1) = tableEntry c := by
    rw [pageindex_of_lt hva (by omega) (by omega)]
    exact h.low
  have hdesc : Vmiter.descend s 3 (iterAt t va (3, t)) = iterAt t va (0, c) := by
    rw [descend_tableEntry ha htop, descend_tableEntry hb hmid, descend_tableEntry hc hlow,
      Vmiter.descend]
  unfold vmiter Vmiter.realFind
  rw [if_pos (.inl rfl), if_pos (canonical_of_lt hva)]
  show Vmiter.down s (iterAt t va (3, t)) = _
  unfold Vmiter.down
  rw [show (iterAt t va (3, t)).level = 3 from rfl, hdesc]
  exact if_neg (BitVec.not_le.mpr (h.small _))

/-- The iterator moves inside the lowest table. -/
theorem realFind_eq {va' : Word} (hva' : va'.toNat < 0x200000) :
    (iterAt t va (0, c)).realFind s va' = .ok (iterAt t va' (0, c)) := by
  have hstay : ¬ ((iterAt t va (0, c)).level = 3 ∨
      ((iterAt t va (0, c)).va ^^^ va') &&&
        ~~~pageoffmask ((iterAt t va (0, c)).level + 1) ≠ 0) := by
    intro hor
    rcases hor with h3 | hne
    · exact absurd (show (0 : Nat) = 3 from h3) (by decide)
    · exact hne (xor_and_of_lt hva hva')
  unfold Vmiter.realFind
  rw [if_neg hstay]
  show Vmiter.down s (iterAt t va' (0, c)) = _
  unfold Vmiter.down
  rw [show (iterAt t va' (0, c)).level = 0 from rfl, Vmiter.descend]
  exact if_neg (BitVec.not_le.mpr (h.small _))

theorem find_eq {va' : Word} (hva' : va'.toNat < 0x200000) :
    (iterAt t va (0, c)).find s va' = .ok (iterAt t va' (0, c)) := by
  unfold Vmiter.find
  split_ifs with hne
  · exact h.realFind_eq hva hva'
  · rw [not_not.mp hne]
    rfl

omit hva in
/-- In the table of level 0 `next` goes to the next page. -/
theorem next_eq {p : Nat} (hp : p + 1 < 512) :
    (iterAt t (addrOf p) (0, c)).next s = .ok (iterAt t (addrOf (p + 1)) (0, c)) := by
  have haddr := toNat_addrOf (p := p) (by omega)
  have haddr' := toNat_addrOf (p := p + 1) (by omega)
  have hnext : (addrOf p ||| pageoffmask 0) + 1 = addrOf (p + 1) := by
    rw [← BitVec.add_eq_or_of_and_eq_zero _ _ (addrOf_and p (by decide)), BitVec.add_assoc,
      ← addrOf_add (by omega)]
    congr 1
  have hlevel : ¬ ((iterAt t (addrOf p) (0, c)).level > 0 ∧
      (iterAt t (addrOf p) (0, c)).perm s = 0) := fun h0 => absurd h0.1 (lt_irrefl 0)
  unfold Vmiter.next
  rw [if_neg hlevel]
  show (iterAt t (addrOf p) (0, c)).realFind s ((addrOf p ||| pageoffmask 0) + 1) = _
  rw [hnext]
  exact h.realFind_eq (by omega) (by omega)

end Below

omit h in
/-- `try_map` in the table of level 0 writes the entry. -/
theorem tryMap_eq (L : Layout) {va pa : Word} {perm : BitVec 32} (halign : va % 4096 = 0)
    (hpa : pa &&& ptePamask = pa) (hperm : PermArg perm) :
    (iterAt t va (0, c)).tryMap L pa perm s = .ok (0, iterAt t va (0, c),
      written s c (pageindex va 0) (pa ||| perm.signExtend 64)) := by
  have hloop : (iterAt t va (0, c)).linkTables L perm s = .ok (true, iterAt t va (0, c), s) := by
    unfold Vmiter.linkTables
    rw [dif_neg fun h0 => absurd h0.1 (lt_irrefl 0)]
  rw [Weensyos.tryMap_eq halign hpa hperm, hloop]
  rfl

omit h in
/-- A page is mapped to itself. -/
theorem tryMap_page (L : Layout) {p : Nat} (hp : p < 512) {perm : BitVec 32}
    (hperm : PermArg perm) :
    (iterAt t (addrOf p) (0, c)).tryMap L (addrOf p) perm s = .ok (0, iterAt t (addrOf p) (0, c),
      written s c ⟨p, hp⟩ (addrOf p ||| perm.signExtend 64)) := by
  rw [tryMap_eq L (addrOf_mod (by omega)) (addrOf_and_ptePamask (by omega)) hperm,
    pageindex_addrOf hp]

theorem mapAt_eq (L : Layout) {p : Nat} (hp : p < 512) {perm : BitVec 32} (hperm : PermArg perm) :
    mapAt L s t (addrOf p) (addrOf p) perm = .ok (0, iterAt t (addrOf p) (0, c),
      written s c ⟨p, hp⟩ (addrOf p ||| perm.signExtend 64)) := by
  have haddr := toNat_addrOf (p := p) (by omega)
  unfold mapAt
  rw [h.vmiter_eq (show (addrOf p).toNat < 0x200000 by omega)]
  simp only [bind, Except.bind]
  rw [tryMap_page L hp hperm]

/-- What is read at a page that is mapped to itself. -/
theorem translate_eq {p : Nat} (hp : p < 512) {perm : BitVec 32} (hperm : PermArg perm)
    (hpresent : perm.signExtend 64 &&& pteP ≠ 0)
    (hentry : s.word c ⟨p, hp⟩ = addrOf p ||| perm.signExtend 64) :
    translate s t (addrOf p) = .ok (addrOf p, perm.signExtend 64) := by
  have haddr := toNat_addrOf (p := p) (by omega)
  obtain ⟨hpe, hpa⟩ := reading_page t hp hperm hentry
  unfold translate
  rw [h.vmiter_eq (show (addrOf p).toNat < 0x200000 by omega)]
  simp only [bind, Except.bind, hpe, hpa hpresent]

end LowTables

end SystemsProjects.Weensyos
