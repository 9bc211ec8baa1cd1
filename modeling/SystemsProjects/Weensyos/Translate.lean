import SystemsProjects.Weensyos.Paging
import SystemsProjects.Lib.Radix
import Mathlib.Tactic.IntervalCases

/-!
# Mapping one page

A page table is a radix tree of four levels. A fresh `vmiter` stands where the walk of its address
ends, and `try_map` first links the tables that are missing on the way, level by level, and then
writes one entry. None of the new tables changes what another address translates to.
-/

namespace SystemsProjects.Weensyos
open SystemsProjects.Lib

/-! ## Words -/

/-- The table a page entry leads to: one that is present and no large page. -/
def child (e : Word) : Option Nat := if e &&& (pteP ||| ptePS) = pteP then some (pageOf e) else none

theorem or_not_eq_allOnes {e mask : Word} (h : e &&& mask = mask) :
    e ||| ~~~mask = BitVec.allOnes 64 := by
  apply BitVec.eq_of_getLsbD_eq
  intro i hi
  have hbit := congrArg (fun w : Word => w.getLsbD i) h
  simp only [BitVec.getLsbD_and] at hbit
  simp only [BitVec.getLsbD_or, BitVec.getLsbD_not, BitVec.getLsbD_allOnes, hi, decide_true,
    Bool.true_and]
  cases hm : mask.getLsbD i with
  | false => simp
  | true => simpa [hm] using hbit

/-- The mask of permissions does not shrink below an entry with all three bits. -/
theorem initialPerm_and {e : Word} (h : e &&& ptePWU = ptePWU) :
    (initialPerm.signExtend 64 &&& (e ||| ~~~ptePWU)).setWidth 32 = initialPerm := by
  rw [or_not_eq_allOnes h, BitVec.and_allOnes]
  decide

theorem toNat_and_ptePamask (e : Word) :
    (e &&& ptePamask).toNat = e.toNat / 4096 % 2 ^ 40 * 4096 := by
  have hmask : e &&& ptePamask = ((e >>> 12) &&& BitVec.ofNat 64 (2 ^ 40 - 1)) <<< 12 := by
    rw [show ptePamask = BitVec.ofNat 64 (2 ^ 40 - 1) <<< 12 from by decide]
    apply BitVec.eq_of_getLsbD_eq
    intro i hi
    simp only [BitVec.getLsbD_and, BitVec.getLsbD_shiftLeft, BitVec.getLsbD_ushiftRight]
    by_cases h12 : i < 12
    · simp only [h12, decide_true, Bool.not_true, Bool.and_false, Bool.false_and]
    · rw [show 12 + (i - 12) = i from by omega, Bool.and_left_comm]
  rw [hmask, BitVec.toNat_shiftLeft, BitVec.toNat_and, BitVec.toNat_ushiftRight,
    show (BitVec.ofNat 64 (2 ^ 40 - 1)).toNat = 2 ^ 40 - 1 from rfl,
    Nat.and_two_pow_sub_one_eq_mod, Nat.shiftLeft_eq, Nat.shiftRight_eq_div_pow]
  omega

/-- An aligned address below 2^52 is its own page address. -/
theorem and_ptePamask {pa : Word} (halign : pa.toNat % 4096 = 0) (hlt : pa.toNat < 2 ^ 52) :
    pa &&& ptePamask = pa := by
  apply BitVec.eq_of_toNat_eq
  rw [toNat_and_ptePamask]
  omega

theorem toNat_addrOf {p : Nat} (h : p < 2 ^ 40) : (addrOf p).toNat = p * 4096 := by
  rw [addrOf, BitVec.toNat_shiftLeft, BitVec.toNat_ofNat, Nat.shiftLeft_eq]
  omega

theorem tableEntry_and_ptePamask {p : Nat} (h : p < 2 ^ 40) :
    tableEntry p &&& ptePamask = addrOf p := by
  have haddr := toNat_addrOf h
  simp only [tableEntry, BitVec.and_or_distrib_right]
  rw [and_ptePamask (by omega) (by omega), BitVec.or_assoc, BitVec.or_assoc]
  exact BitVec.or_zero

theorem tableEntry_and_ptePWU (p : Nat) : tableEntry p &&& ptePWU = ptePWU := by
  simp only [tableEntry, BitVec.and_or_distrib_right]
  rw [addrOf_and p (by decide)]
  decide

theorem pageOf_tableEntry {p : Nat} (h : p < 2 ^ 40) : pageOf (tableEntry p) = p := by
  have haddr := toNat_addrOf h
  rw [pageOf, tableEntry_and_ptePamask h, BitVec.toNat_ushiftRight, Nat.shiftRight_eq_div_pow]
  omega

/-- The page of a canonical address, put together from its indices. -/
theorem page_of_indices {va : Word} (h : vaIsCanonical va = true) :
    va.toNat / 2 ^ 12 = pageindex va 0 + 2 ^ 9 * pageindex va 1 + 2 ^ 18 * pageindex va 2 +
      2 ^ 27 * pageindex va 3 + if 256 ≤ (pageindex va 3).val then 0xFFFF000000000 else 0 := by
  have hlow : (0x00007FFFFFFFFFFF : Word).toNat = 0x00007FFFFFFFFFFF := rfl
  have hhigh : (0xFFFF800000000000 : Word).toNat = 0xFFFF800000000000 := rfl
  have hva := va.isLt
  simp only [vaIsCanonical, vaLowmax, vaHighmin, Bool.or_eq_true, decide_eq_true_eq,
    BitVec.le_def] at h
  simp only [pageindex, Fin.val_ofNat, BitVec.toNat_ushiftRight, Nat.shiftRight_eq_div_pow]
  split_ifs <;> omega

/-- Canonical addresses with the same indices are in the same page. -/
theorem exists_pageindex_ne {va va' : Word} (h : vaIsCanonical va = true)
    (h' : vaIsCanonical va' = true) (hne : va' >>> 12 ≠ va >>> 12) :
    ∃ j ≤ 3, pageindex va' j ≠ pageindex va j := by
  by_contra hall
  push Not at hall
  apply hne
  apply BitVec.eq_of_toNat_eq
  rw [BitVec.toNat_ushiftRight, BitVec.toNat_ushiftRight, Nat.shiftRight_eq_div_pow,
    Nat.shiftRight_eq_div_pow, page_of_indices h, page_of_indices h', hall 0 (by omega),
    hall 1 (by omega), hall 2 (by omega), hall 3 (by omega)]

/-! ## Page tables -/

/-- The entry refers to a page below 4 GiB, and allows everything if it leads to a table. -/
def EntryOk (level : Nat) (e : Word) : Prop :=
  e &&& ptePamask < 0x100000000 ∧ (0 < level → child e ≠ none → e &&& ptePWU = ptePWU)

theorem entryOk_zero (level : Nat) : EntryOk level 0 :=
  ⟨by decide, fun _ h => absurd (by decide) h⟩

/-- The tables below `root` are distinct pages, none of them available to `kalloc`. -/
structure PageTree (L : Layout) (s : Phys) (root : Nat) : Prop where
  distinct : Radix.Distinct child s.word 3 root
  unavailable : ∀ p ∈ Radix.nodes child s.word 3 root, s.free L p = false
  entries : Radix.AllEntries child EntryOk s.word 3 root

/-- The level and the table where the walk of `va` ends. -/
def endOf (s : Phys) (root : Nat) (va : Word) : Nat × Nat :=
  Radix.walk child s.word (pageindex va) 3 root

/-- An iterator at the end of the walk. -/
def iterAt (root : Nat) (va : Word) (w : Nat × Nat) : Vmiter :=
  { pt := root, pep := .entry w.2 (pageindex va w.1), level := w.1, permMask := initialPerm,
    va := va }

section Iterator
variable {s : Phys} {root : Nat} {va : Word}

theorem descend_eq {l p : Nat} (ha : Radix.AllEntries child EntryOk s.word l p) :
    Vmiter.descend s l (iterAt root va (l, p)) =
      iterAt root va (Radix.walk child s.word (pageindex va) l p) := by
  induction l generalizing p with
  | zero => rfl
  | succ l ih =>
    unfold Vmiter.descend
    have hload : s.load (iterAt root va (l + 1, p)).pep = s.word p (pageindex va (l + 1)) := rfl
    rw [hload]
    by_cases hpe : s.word p (pageindex va (l + 1)) &&& (pteP ||| ptePS) = pteP
    · have hc : child (s.word p (pageindex va (l + 1))) =
          some (pageOf (s.word p (pageindex va (l + 1)))) := if_pos hpe
      have hpwu := (ha.1 (pageindex va (l + 1))).2 (Nat.succ_pos l) (by rw [hc]; simp)
      rw [if_pos hpe, Radix.walk_some hc, ← ih (ha.2 _ _ hc)]
      congr 1
      simp only [iterAt, initialPerm_and hpwu]
    · have hc : child (s.word p (pageindex va (l + 1))) = none := if_neg hpe
      rw [if_neg hpe, Radix.walk_none hc]

/-- `down` follows the walk and finds an entry below 4 GiB. -/
theorem down_eq (root : Nat) (va : Word) {l p : Nat}
    (ha : Radix.AllEntries child EntryOk s.word l p) :
    (iterAt root va (l, p)).down s =
      .ok (iterAt root va (Radix.walk child s.word (pageindex va) l p)) := by
  have hend := (ha.at_end (Prod.eta (Radix.walk child s.word (pageindex va) l p)).symm).1
  unfold Vmiter.down
  rw [show (iterAt root va (l, p)).level = l from rfl, descend_eq ha]
  exact if_neg (BitVec.not_le.mpr hend)

theorem vmiter_eq (ha : Radix.AllEntries child EntryOk s.word 3 root)
    (hva : vaIsCanonical va = true) :
    vmiter s root va = .ok (iterAt root va (endOf s root va)) := by
  unfold vmiter Vmiter.realFind
  rw [if_pos (.inl rfl), if_pos hva]
  exact down_eq root va ha

/-- What is read at a page entry. -/
theorem translate_eq (ha : Radix.AllEntries child EntryOk s.word 3 root)
    (hva : vaIsCanonical va = true) : translate s root va =
      .ok ((iterAt root va (endOf s root va)).pa s, (iterAt root va (endOf s root va)).perm s) := by
  simp only [translate, vmiter_eq ha hva, bind, Except.bind]

end Iterator

/-! ## What is read at an entry -/

section Reading
variable {s s' : Phys} {va : Word} {w : Nat × Nat}

/-- The reading depends on the place and on the entry there. -/
theorem reading_congr (root : Nat)
    (h : s'.word w.2 (pageindex va w.1) = s.word w.2 (pageindex va w.1)) :
    (iterAt root va w).pa s' = (iterAt root va w).pa s ∧
      (iterAt root va w).perm s' = (iterAt root va w).perm s := by
  have hload : s'.load (iterAt root va w).pep = s.load (iterAt root va w).pep := h
  unfold Vmiter.pa Vmiter.perm
  rw [hload]
  exact ⟨rfl, rfl⟩

/-- Nothing is mapped at an entry that is not present. -/
theorem reading_absent (it : Vmiter) (h : s.load it.pep &&& pteP = 0) :
    it.pa s = -1 ∧ it.perm s = 0 := by
  unfold Vmiter.pa Vmiter.perm
  refine ⟨by rw [if_neg (not_not.mpr h)], ?_⟩
  have hph : (s.load it.pep &&& it.permMask.signExtend 64) &&& pteP = 0 := by
    rw [BitVec.and_assoc, BitVec.and_comm _ pteP, ← BitVec.and_assoc, h]
    exact BitVec.zero_and
  dsimp only
  rw [hph, show -(0 : Word) = 0 from by decide]
  exact BitVec.and_zero

/-- Outside the canonical range nothing is mapped. -/
theorem translate_noncanonical {root : Nat} (hva : vaIsCanonical va = false) :
    translate s root va = .ok (-1, 0) := by
  have hstay : ∀ it : Vmiter, it.pep = .zero → it.down s = .ok it := by
    intro it hit
    have hload : s.load it.pep = 0 := by rw [hit]; rfl
    have hdesc : Vmiter.descend s it.level it = it := by
      cases it.level with
      | zero => rfl
      | succ l => rw [Vmiter.descend, hload, if_neg (by decide)]
    unfold Vmiter.down
    rw [hdesc]
    dsimp only
    rw [hload, if_neg (by decide)]
  unfold translate vmiter Vmiter.realFind
  rw [if_pos (.inl rfl), if_neg (by rw [hva]; simp)]
  dsimp only
  obtain ⟨hpa, hperm⟩ := reading_absent (s := s)
    { pt := root, pep := .zero, level := 3, permMask := 0, va := va } BitVec.zero_and
  rw [hstay _ rfl]
  simp only [bind, Except.bind, hpa, hperm]

end Reading

/-- In a page table every address can be looked up. -/
theorem PageTree.translate_ok {L : Layout} {s : Phys} {root : Nat} (tree : PageTree L s root)
    (va : Word) : ∃ x, translate s root va = .ok x := by
  cases hcanon : vaIsCanonical va with
  | false => exact ⟨_, translate_noncanonical hcanon⟩
  | true => exact ⟨_, translate_eq tree.entries hcanon⟩

/-! ## Linking the tables on the way -/

/-- `kalloc` gives out a free page, or nothing. -/
theorem kalloc_cases (L : Layout) (s : Phys) :
    (∃ p, p < 2 ^ 20 ∧ s.free L p = true ∧
      kalloc L pageSize s = (some p, (s.count p).fill p 0xCCCCCCCCCCCCCCCC)) ∨
    kalloc L pageSize s = (none, s) := by
  unfold kalloc
  rw [if_neg (lt_irrefl _)]
  cases h : (List.range L.npages).find? (s.free L) with
  | none => exact .inr rfl
  | some p =>
    have hp := List.mem_range.mp (List.mem_of_find?_eq_some h)
    have hsmall := L.small
    exact .inl ⟨p, by omega, List.find?_some h, rfl⟩

/-- Memory after a new table in page `n` was linked at entry `i` of table `q`. -/
def linked (s : Phys) (n q : Nat) (i : Fin 512) : Phys where
  word := Function.update (Function.update s.word n fun _ => 0) q
    (Function.update (s.word q) i (tableEntry n))
  refcount := Function.update s.refcount n (s.refcount n + 1)

theorem store_linked (s : Phys) {n q : Nat} (i : Fin 512) (hne : q ≠ n) :
    (((s.count n).fill n 0xCCCCCCCCCCCCCCCC).fill n 0).store (tableEntry n) (.entry q i) =
      .ok (linked s n q i) := by
  simp only [Phys.store, Phys.fill, Phys.count, linked, Function.update_idem,
    Function.update_of_ne hne]

section Link
variable {L : Layout} {s : Phys} {root n q m : Nat} {va : Word} (tree : PageTree L s root)
  (hend : endOf s root va = (m + 1, q)) (hn : n < 2 ^ 20) (hfree : s.free L n = true)
include tree hend hfree

theorem PageTree.ne_of_free : q ≠ n := by
  intro h
  have hq := tree.unavailable q (Radix.walk_eq_mem hend).1
  rw [h, hfree] at hq
  exact absurd hq (by simp)

theorem PageTree.linked_word (i j : Fin 512) : (linked s n q i).word n j = 0 := by
  simp only [linked, Function.update_of_ne (tree.ne_of_free hend hfree).symm, Function.update_self]

include hn

theorem PageTree.linked_radix : Radix.Linked child s.word (linked s n q (pageindex va (m + 1))).word
    (pageindex va) 3 m root q n where
  ends := hend
  keeps := by
    intro p hp j hj
    have hpn : p ≠ n := by
      intro h
      have hfp := tree.unavailable p hp
      rw [h, hfree] at hfp
      exact absurd hfp (by simp)
    by_cases hpq : p = q
    · subst hpq
      simp only [linked, Function.update_self, Function.update_of_ne (hj rfl)]
    · simp only [linked, Function.update_of_ne hpq, Function.update_of_ne hpn]
  entry := by
    simp only [linked, Function.update_self]
    unfold child
    rw [if_pos (tableEntry_present n), pageOf_tableEntry (by omega)]
  fresh := by
    intro h
    have hfp := tree.unavailable n h
    rw [hfree] at hfp
    exact absurd hfp (by simp)
  leaf := by
    intro i
    rw [tree.linked_word hend hfree]
    decide

theorem PageTree.linked_tree : PageTree L (linked s n q (pageindex va (m + 1))) root := by
  have hlink := tree.linked_radix hend hn hfree
  have hrefs := hlink.tree tree.distinct
  refine ⟨hrefs.2, ?_, ?_⟩
  · intro p hp
    rw [hrefs.1] at hp
    rcases Set.mem_insert_iff.mp hp with rfl | hp
    · simp only [Phys.free, linked, Function.update_self, Bool.and_eq_false_iff]
      exact .inr (by simp)
    · have hpn : p ≠ n := fun h => hlink.fresh (h ▸ hp)
      have hfp := tree.unavailable p hp
      simpa only [Phys.free, linked, Function.update_of_ne hpn] using hfp
  · apply hlink.allEntries tree.distinct tree.entries
    · have haddr := toNat_addrOf (p := n) (by omega)
      simp only [linked, Function.update_self]
      refine ⟨?_, fun _ _ => ?_⟩
      · rw [tableEntry_and_ptePamask (by omega), BitVec.lt_def, haddr]
        show n * 4096 < 0x100000000
        omega
      · exact tableEntry_and_ptePWU n
    · intro l i
      rw [tree.linked_word hend hfree]
      exact entryOk_zero l

/-- Walks that get to the new table end there. -/
theorem PageTree.linked_walk (va' : Word) :
    Radix.walk child (linked s n q (pageindex va (m + 1))).word (pageindex va') m n = (m, n) := by
  cases m with
  | zero => rfl
  | succ m => exact Radix.walk_none ((tree.linked_radix hend hn hfree).leaf _)

theorem PageTree.linked_end : endOf (linked s n q (pageindex va (m + 1))) root va = (m, n) := by
  have hlink := tree.linked_radix hend hn hfree
  have hon := (Radix.walk_on tree.distinct hend hlink.keeps hlink.entry
    fun j _ _ => Eq.refl (pageindex va j)).2
  exact hon.trans (tree.linked_walk hend hn hfree va)

/-- The iterator goes down to the new table. -/
theorem PageTree.linked_down :
    (iterAt root va (m + 1, q)).down (linked s n q (pageindex va (m + 1))) =
      .ok (iterAt root va (m, n)) := by
  have hlink := tree.linked_radix hend hn hfree
  have hleaf : Radix.AllEntries child EntryOk (linked s n q (pageindex va (m + 1))).word m n := by
    apply Radix.allEntries_leaf hlink.leaf
    intro l i
    rw [tree.linked_word hend hfree]
    exact entryOk_zero l
  have hload : (linked s n q (pageindex va (m + 1))).load (iterAt root va (m + 1, q)).pep =
      tableEntry n := by
    simp only [Phys.load, iterAt, linked, Function.update_self]
  have hpwu : tableEntry n &&& ptePWU = ptePWU := tableEntry_and_ptePWU n
  have hstep : Vmiter.descend (linked s n q (pageindex va (m + 1))) (m + 1)
      (iterAt root va (m + 1, q)) =
      Vmiter.descend (linked s n q (pageindex va (m + 1))) m (iterAt root va (m, n)) := by
    rw [Vmiter.descend, hload, if_pos (tableEntry_present n), pageOf_tableEntry (by omega)]
    congr 1
    simp only [iterAt, initialPerm_and hpwu]
  have hdown := down_eq root va hleaf
  rw [tree.linked_walk hend hn hfree va] at hdown
  unfold Vmiter.down at hdown ⊢
  rw [show (iterAt root va (m + 1, q)).level = m + 1 from rfl, hstep]
  exact hdown

/-- A new table where nothing was present changes no translation. -/
theorem PageTree.linked_translate (habsent : s.word q (pageindex va (m + 1)) &&& pteP = 0)
    (va' : Word) :
    translate (linked s n q (pageindex va (m + 1))) root va' = translate s root va' := by
  have hlink := tree.linked_radix hend hn hfree
  have tree' := tree.linked_tree hend hn hfree
  cases hcanon : vaIsCanonical va' with
  | false => rw [translate_noncanonical hcanon, translate_noncanonical hcanon]
  | true =>
    rw [translate_eq tree.entries hcanon, translate_eq tree'.entries hcanon]
    by_cases hon : ∀ j, m + 1 ≤ j → j ≤ 3 → pageindex va' j = pageindex va j
    · -- the walk of `va'` went to the same entry, and now goes on to the empty table
      obtain ⟨hbefore, hafter⟩ :=
        Radix.walk_on tree.distinct hend hlink.keeps hlink.entry hon
      have hbefore' : endOf s root va' = (m + 1, q) := hbefore
      have hafter' : endOf (linked s n q (pageindex va (m + 1))) root va' = (m, n) :=
        hafter.trans (tree.linked_walk hend hn hfree va')
      rw [hbefore', hafter']
      have hkey := hon (m + 1) le_rfl (Radix.walk_eq_mem hend).2
      obtain ⟨hpa, hperm⟩ := reading_absent (s := s) (iterAt root va' (m + 1, q)) (by
        show s.word q (pageindex va' (m + 1)) &&& pteP = 0
        rw [hkey]
        exact habsent)
      obtain ⟨hpa', hperm'⟩ := reading_absent (s := linked s n q (pageindex va (m + 1)))
        (iterAt root va' (m, n)) (by
          show (linked s n q (pageindex va (m + 1))).word n (pageindex va' m) &&& pteP = 0
          rw [tree.linked_word hend hfree]
          decide)
      rw [hpa, hperm, hpa', hperm']
    · push Not at hon
      obtain ⟨j, hmj, hj3, hne⟩ := hon
      obtain ⟨hwalk, hentry⟩ :=
        Radix.walk_off tree.distinct hend hlink.keeps hmj hj3 hne
      have hend' : endOf (linked s n q (pageindex va (m + 1))) root va' = endOf s root va' := hwalk
      rw [hend']
      obtain ⟨hpa, hperm⟩ := reading_congr root hentry
      rw [show endOf s root va' = Radix.walk child s.word (pageindex va') 3 root from rfl, hpa,
        hperm]

end Link

/-- Everything on the way of `va` that is present is a table. -/
def PathPlain (s : Phys) (root : Nat) (va : Word) : Prop :=
  ∀ m q, endOf s root va = (m + 1, q) → s.word q (pageindex va (m + 1)) &&& ptePS = 0

theorem and_pteP_eq_zero {e : Word} (hchild : child e = none) (hps : e &&& ptePS = 0) :
    e &&& pteP = 0 := by
  by_contra hp
  have hbit : e &&& pteP = pteP := by
    have htoNat : (e &&& pteP).toNat = e.toNat % 2 := by
      rw [BitVec.toNat_and]
      exact Nat.and_one_is_mod _
    apply BitVec.eq_of_toNat_eq
    rcases Nat.mod_two_eq_zero_or_one e.toNat with h | h
    · exact absurd (BitVec.eq_of_toNat_eq (y := 0) (htoNat.trans h)) hp
    · exact htoNat.trans h
  have hcond : e &&& (pteP ||| ptePS) = pteP := by
    rw [BitVec.and_or_distrib_left, hbit, hps]
    decide
  unfold child at hchild
  rw [if_pos hcond] at hchild
  exact Option.some_ne_none _ hchild

/-- One round of the loop of `try_map`: a new table is linked and the iterator goes down to it. -/
theorem PageTree.linkTables_step {L : Layout} {s : Phys} {root n q m : Nat} {va : Word}
    {perm : BitVec 32} (tree : PageTree L s root) (hend : endOf s root va = (m + 1, q))
    (hn : n < 2 ^ 20) (hfree : s.free L n = true)
    (habsent : s.word q (pageindex va (m + 1)) &&& pteP = 0) (hperm : perm ≠ 0)
    (halloc : kalloc L pageSize s = (some n, (s.count n).fill n 0xCCCCCCCCCCCCCCCC)) :
    (iterAt root va (m + 1, q)).linkTables L perm s =
      (iterAt root va (m, n)).linkTables L perm (linked s n q (pageindex va (m + 1))) := by
  have hload : s.load (iterAt root va (m + 1, q)).pep &&& pteP = 0 := habsent
  have hstore := store_linked s (pageindex va (m + 1)) (tree.ne_of_free hend hfree)
  have hpep : (iterAt root va (m + 1, q)).pep = .entry q (pageindex va (m + 1)) := rfl
  have hdown := tree.linked_down hend hn hfree
  rw [Vmiter.linkTables, dif_pos ⟨Nat.succ_pos m, hperm⟩, if_neg (not_not.mpr hload), halloc]
  dsimp only
  split
  · rename_i f hs
    rw [hpep, hstore] at hs
    exact absurd hs (by simp)
  · rename_i s₂ hs
    rw [hpep, hstore] at hs
    obtain rfl := Except.ok.inj hs
    split
    · rename_i f hd
      rw [hdown] at hd
      exact absurd hd (by simp)
    · rename_i it hd
      rw [hdown] at hd
      rw [Except.ok.inj hd]

/-- The loop of `try_map` keeps every translation. It ends at level 0 unless `kalloc` fails. -/
theorem PageTree.linkTables_eq {L : Layout} {s : Phys} {root : Nat} {va : Word} {perm : BitVec 32}
    (tree : PageTree L s root) (hplain : PathPlain s root va) (hperm : perm ≠ 0) :
    ∃ done w s', (iterAt root va (endOf s root va)).linkTables L perm s =
        .ok (done, iterAt root va w, s') ∧ PageTree L s' root ∧
      (∀ va', translate s' root va' = translate s root va') ∧
      (done = true → w = endOf s' root va ∧ w.1 = 0) := by
  generalize hw : endOf s root va = w
  obtain ⟨m, q⟩ := w
  induction m generalizing s q with
  | zero =>
    refine ⟨true, (0, q), s, ?_, tree, fun _ => rfl, fun _ => ⟨hw.symm, rfl⟩⟩
    unfold Vmiter.linkTables
    rw [dif_neg (by simp [iterAt])]
  | succ m ih =>
    have habsent := and_pteP_eq_zero (Radix.walk_end hw) (hplain m q hw)
    have hload : s.load (iterAt root va (m + 1, q)).pep &&& pteP = 0 := habsent
    rcases kalloc_cases L s with ⟨n, hn, hfree, halloc⟩ | halloc
    · have tree' := tree.linked_tree hw hn hfree
      have hend' := tree.linked_end hw hn hfree
      have hplain' : PathPlain (linked s n q (pageindex va (m + 1))) root va := by
        intro m' q' h
        have hpair := Prod.mk.inj (hend'.symm.trans h)
        rw [← hpair.2, tree.linked_word hw hfree]
        decide
      obtain ⟨done, w, s', hrun, htree, htrans, hdone⟩ := ih tree' hplain' n hend'
      refine ⟨done, w, s', ?_, htree, ?_, hdone⟩
      · rw [tree.linkTables_step hw hn hfree habsent hperm halloc]
        exact hrun
      · intro va'
        rw [htrans va', tree.linked_translate hw hn hfree habsent va']
    · refine ⟨false, (m + 1, q), s, ?_, tree, fun _ => rfl, by simp⟩
      unfold Vmiter.linkTables
      rw [dif_pos ⟨Nat.succ_pos m, hperm⟩, if_neg (not_not.mpr hload), halloc]

/-! ## Writing the entry -/

/-- The permissions `try_map` is called with: none, or some of `P`, `W` and `U` with `P` among
them. -/
def PermArg (perm : BitVec 32) : Prop :=
  perm = 0 ∨ perm.signExtend 64 &&& pteP ≠ 0 ∧ perm &&& 7 = perm

theorem PermArg.cases {perm : BitVec 32} (h : PermArg perm) :
    perm = 0 ∨ perm = 1 ∨ perm = 3 ∨ perm = 5 ∨ perm = 7 := by
  rcases h with h | ⟨hp, h7⟩
  · exact .inl h
  · have hlt : perm.toNat < 8 := by
      rw [← h7, BitVec.toNat_and]
      exact Nat.lt_of_le_of_lt Nat.and_le_right (by decide)
    have heq : perm = BitVec.ofNat 32 perm.toNat := by simp
    generalize perm.toNat = k at hlt heq
    subst heq
    interval_cases k <;> revert hp <;> decide

/-- What the assertions and `perm ()` make of such permissions. -/
theorem PermArg.bits {perm : BitVec 32} (h : PermArg perm) :
    perm.signExtend 64 &&& ptePamask = 0 ∧
      perm.signExtend 64 &&& initialPerm.signExtend 64 = perm.signExtend 64 ∧
      (perm &&& ~~~initialPerm).signExtend 64 &&& ptePWU = 0 ∧
      perm.signExtend 64 &&& -(perm.signExtend 64 &&& pteP) = perm.signExtend 64 ∧
      (perm.signExtend 64 &&& pteP = 0 → perm = 0) := by
  rcases h.cases with rfl | rfl | rfl | rfl | rfl <;> decide

section Leaf
variable {L : Layout} {s : Phys} {root q : Nat} {va pa : Word} {perm : BitVec 32}

/-- A page address has none of the low bits. -/
theorem and_low_of_aligned (hpa : pa &&& ptePamask = pa) {mask : Word}
    (hmask : ptePamask &&& mask = 0) : pa &&& mask = 0 := by
  rw [← hpa, BitVec.and_assoc, hmask]
  exact BitVec.and_zero

/-- The entry `try_map` writes, read back. -/
theorem leafEntry_bits (hpa : pa &&& ptePamask = pa) (hperm : PermArg perm) :
    (pa ||| perm.signExtend 64) &&& ptePamask = pa ∧
      (pa ||| perm.signExtend 64) &&& initialPerm.signExtend 64 = perm.signExtend 64 ∧
      (pa ||| perm.signExtend 64) &&& pteP = perm.signExtend 64 &&& pteP := by
  obtain ⟨hmask, hinit, -, -, -⟩ := hperm.bits
  refine ⟨?_, ?_, ?_⟩
  · rw [BitVec.and_or_distrib_right, hpa, hmask]
    exact BitVec.or_zero
  · rw [BitVec.and_or_distrib_right, and_low_of_aligned hpa (by decide), hinit]
    exact BitVec.zero_or
  · rw [BitVec.and_or_distrib_right, and_low_of_aligned hpa (by decide)]
    exact BitVec.zero_or

/-- What is read at such an entry of level 0. -/
theorem reading_leaf (root : Nat) (halign : va % 4096 = 0) (hpa : pa &&& ptePamask = pa)
    (hperm : PermArg perm) (hentry : s.word q (pageindex va 0) = pa ||| perm.signExtend 64) :
    (iterAt root va (0, q)).perm s = perm.signExtend 64 ∧
      (perm.signExtend 64 &&& pteP ≠ 0 → (iterAt root va (0, q)).pa s = pa) := by
  obtain ⟨hmask, hinit, hp⟩ := leafEntry_bits hpa hperm
  obtain ⟨-, -, -, hself, -⟩ := hperm.bits
  have hload : s.load (iterAt root va (0, q)).pep = pa ||| perm.signExtend 64 := hentry
  have hoff : va &&& pageoffmask 0 = 0 := by
    apply BitVec.eq_of_toNat_eq
    rw [BitVec.toNat_and, show (pageoffmask 0).toNat = 2 ^ 12 - 1 from by decide,
      Nat.and_two_pow_sub_one_eq_mod]
    exact congrArg BitVec.toNat halign
  refine ⟨?_, fun hpresent => ?_⟩
  · unfold Vmiter.perm
    dsimp only
    rw [hload, show (iterAt root va (0, q)).permMask = initialPerm from rfl, hinit, hself]
  · unfold Vmiter.pa
    rw [hload, if_pos (by rw [hp]; exact hpresent), hmask]
    show pa + (va &&& pageoffmask 0) = pa
    rw [hoff]
    exact BitVec.add_zero pa

/-- Memory after entry `i` of table `q` was written. -/
def written (s : Phys) (q : Nat) (i : Fin 512) (e : Word) : Phys :=
  { s with word := Function.update s.word q (Function.update (s.word q) i e) }

theorem written_keeps (s : Phys) (root q : Nat) (i : Fin 512) (e : Word) :
    Radix.KeepsBut child s.word (written s q i e).word 3 root q i := by
  intro p _ j hj
  by_cases hpq : p = q
  · subst hpq
    simp only [written, Function.update_self, Function.update_of_ne (hj rfl)]
  · simp only [written, Function.update_of_ne hpq]

variable (tree : PageTree L s root) (hend : endOf s root va = (0, q)) {e : Word}
  (he : EntryOk 0 e)
include tree hend he

theorem PageTree.written_tree : PageTree L (written s q (pageindex va 0) e) root ∧
    ∀ va', endOf (written s q (pageindex va 0) e) root va' = endOf s root va' := by
  obtain ⟨hnodes, hdis, hall, hwalk⟩ := Radix.tree_of_leaf hend (written_keeps s root q _ e)
    tree.distinct tree.entries (by simp only [written, Function.update_self]; exact he)
  refine ⟨⟨hdis, ?_, hall⟩, fun va' => hwalk (pageindex va')⟩
  intro p hp
  rw [hnodes] at hp
  exact tree.unavailable p hp

/-- Addresses of other pages do not see it. -/
theorem PageTree.written_translate (hcanon : vaIsCanonical va = true) {va' : Word}
    (hne : va' >>> 12 ≠ va >>> 12) :
    translate (written s q (pageindex va 0) e) root va' = translate s root va' := by
  cases hcanon' : vaIsCanonical va' with
  | false => rw [translate_noncanonical hcanon', translate_noncanonical hcanon']
  | true =>
    obtain ⟨tree', hends⟩ := tree.written_tree hend he
    obtain ⟨j, hj3, hj⟩ := exists_pageindex_ne hcanon hcanon' hne
    obtain ⟨-, hentry⟩ := Radix.walk_off tree.distinct hend (written_keeps s root q _ e)
      (Nat.zero_le j) hj3 hj
    obtain ⟨hpa, hperm⟩ := reading_congr root hentry
    rw [translate_eq tree.entries hcanon', translate_eq tree'.entries hcanon', hends va']
    rw [show endOf s root va' = Radix.walk child s.word (pageindex va') 3 root from rfl, hpa, hperm]

/-- The page itself is mapped as the entry says. -/
theorem PageTree.written_self (hcanon : vaIsCanonical va = true) (halign : va % 4096 = 0)
    (hpa : pa &&& ptePamask = pa) (hperm : PermArg perm) (heq : e = pa ||| perm.signExtend 64) :
    ∃ pa', translate (written s q (pageindex va 0) e) root va = .ok (pa', perm.signExtend 64) ∧
      (perm.signExtend 64 &&& pteP ≠ 0 → pa' = pa) := by
  obtain ⟨tree', hends⟩ := tree.written_tree hend he
  have hload : (written s q (pageindex va 0) e).word q (pageindex va 0) =
      pa ||| perm.signExtend 64 := by
    simp only [written, Function.update_self, heq]
  obtain ⟨hpe, hpaddr⟩ := reading_leaf root halign hpa hperm hload
  refine ⟨(iterAt root va (0, q)).pa (written s q (pageindex va 0) e), ?_, hpaddr⟩
  rw [translate_eq tree'.entries hcanon, hends va, hend, hpe]

end Leaf

/-- `try_map` at the end of the walk, past its assertions. -/
theorem tryMap_eq {L : Layout} {s : Phys} {root : Nat} {va pa : Word} {perm : BitVec 32}
    {w : Nat × Nat} (halign : va % 4096 = 0) (hpa : pa &&& ptePamask = pa) (hperm : PermArg perm) :
    (iterAt root va w).tryMap L pa perm s = (do
      let (done, it, s) ← (iterAt root va w).linkTables L perm s
      if !done then .ok (-1, it, s)
      else if it.level = 0 then do
        let s ← s.store (pa ||| perm.signExtend 64) it.pep
        .ok (0, it, s)
      else .ok (0, it, s)) := by
  obtain ⟨-, -, hmask, -, -⟩ := hperm.bits
  have hne : pa ≠ -1 := by
    intro h
    rw [h] at hpa
    exact absurd hpa (by decide)
  have hlow : pa &&& pteP = 0 := and_low_of_aligned hpa (by decide)
  have hkeep : ¬ (pa = -1 ∧ perm = 0) := fun h => hne h.1
  unfold Vmiter.tryMap
  simp only [if_neg hkeep]
  rw [if_neg (not_not.mpr (show (iterAt root va w).va % 4096 = 0 from halign)),
    if_neg fun h => h.2.elim hne fun h => h hpa, if_neg fun h => h.2 hlow,
    if_neg (not_not.mpr (show (perm &&& ~~~(iterAt root va w).permMask).signExtend 64 &&& ptePWU = 0
      from hmask))]

/-- `s'` translates `va` as asked, and addresses of other pages as `s` does. -/
def MapsPage (s s' : Phys) (root : Nat) (va pa : Word) (perm : BitVec 32) : Prop :=
  (∃ pa', translate s' root va = .ok (pa', perm.signExtend 64) ∧
    (perm.signExtend 64 &&& pteP ≠ 0 → pa' = pa)) ∧
  ∀ va' : Word, va' >>> 12 ≠ va >>> 12 → translate s' root va' = translate s root va'

section TryMap
variable {L : Layout} {s s₁ : Phys} {root q : Nat} {va pa : Word} {perm : BitVec 32}
  (halign : va % 4096 = 0) (hpa : pa &&& ptePamask = pa) (hperm : PermArg perm)

include hpa hperm in
theorem leafEntry_ok (hsmall : pa < 0x100000000) : EntryOk 0 (pa ||| perm.signExtend 64) := by
  refine ⟨?_, fun h => absurd h (lt_irrefl 0)⟩
  rw [(leafEntry_bits hpa hperm).1]
  exact hsmall

include halign hpa hperm in
/-- With the iterator at level 0, one entry is written. -/
theorem tryMap_linked {w : Nat × Nat}
    (hloop : (iterAt root va w).linkTables L perm s = .ok (true, iterAt root va (0, q), s₁)) :
    (iterAt root va w).tryMap L pa perm s = .ok (0, iterAt root va (0, q),
      written s₁ q (pageindex va 0) (pa ||| perm.signExtend 64)) := by
  rw [tryMap_eq halign hpa hperm, hloop]
  rfl

include halign hpa hperm in
theorem PageTree.written_maps (tree : PageTree L s₁ root) (hend : endOf s₁ root va = (0, q))
    (hcanon : vaIsCanonical va = true) (hsmall : pa < 0x100000000)
    (hsame : ∀ va', translate s₁ root va' = translate s root va') :
    MapsPage s (written s₁ q (pageindex va 0) (pa ||| perm.signExtend 64)) root va pa perm := by
  have he := leafEntry_ok hpa hperm hsmall
  refine ⟨tree.written_self hend he hcanon halign hpa hperm rfl, fun va' hne => ?_⟩
  rw [tree.written_translate hend he hcanon hne, hsame va']

/-- Where the walk ends above level 0, nothing is mapped. -/
theorem PageTree.absent_maps (tree : PageTree L s root) (hplain : PathPlain s root va)
    (hcanon : vaIsCanonical va = true) {m : Nat} (hend : endOf s root va = (m + 1, q)) (pa : Word) :
    MapsPage s s root va pa 0 := by
  have habsent := and_pteP_eq_zero (Radix.walk_end hend) (hplain m q hend)
  obtain ⟨hpa, hperm⟩ := reading_absent (s := s) (iterAt root va (m + 1, q)) habsent
  refine ⟨⟨-1, ?_, fun hp => absurd (by decide) hp⟩, fun _ _ => rfl⟩
  rw [translate_eq tree.entries hcanon, hend, hpa, hperm]
  rfl

include halign hpa hperm in
/-- `try_map` maps the page and returns 0, or returns -1 with every translation as before. -/
theorem PageTree.mapAt_cases (tree : PageTree L s root) (hplain : PathPlain s root va)
    (hcanon : vaIsCanonical va = true) (hsmall : pa < 0x100000000) :
    ∃ r it s', mapAt L s root va pa perm = .ok (r, it, s') ∧
      ((r = 0 ∧ MapsPage s s' root va pa perm) ∨
      (r = -1 ∧ ∀ va', translate s' root va' = translate s root va')) := by
  unfold mapAt
  rw [vmiter_eq tree.entries hcanon]
  simp only [bind, Except.bind]
  by_cases hzero : perm = 0
  · -- nothing to link: the entry is cleared, or there was none
    have hloop : (iterAt root va (endOf s root va)).linkTables L perm s =
        .ok (true, iterAt root va (endOf s root va), s) := by
      unfold Vmiter.linkTables
      rw [dif_neg fun h => h.2 hzero]
    cases hw : endOf s root va with
    | mk m q =>
      rw [hw] at hloop
      cases m with
      | zero =>
        exact ⟨0, _, _, tryMap_linked halign hpa hperm hloop,
          .inl ⟨rfl, tree.written_maps halign hpa hperm hw hcanon hsmall fun _ => rfl⟩⟩
      | succ m =>
        refine ⟨0, iterAt root va (m + 1, q), s, ?_, .inl ⟨rfl, ?_⟩⟩
        · rw [tryMap_eq halign hpa hperm, hloop]
          rfl
        · rw [hzero]
          exact tree.absent_maps hplain hcanon hw pa
  · obtain ⟨done, w, s₁, hloop, tree₁, hsame, hdone⟩ := tree.linkTables_eq hplain hzero
    cases done with
    | false =>
      refine ⟨-1, iterAt root va w, s₁, ?_, .inr ⟨rfl, hsame⟩⟩
      rw [tryMap_eq halign hpa hperm, hloop]
      rfl
    | true =>
      obtain ⟨hw, hlevel⟩ := hdone rfl
      obtain ⟨m, q⟩ := w
      obtain rfl : m = 0 := hlevel
      exact ⟨0, _, _, tryMap_linked halign hpa hperm hloop,
        .inl ⟨rfl, tree₁.written_maps halign hpa hperm hw.symm hcanon hsmall hsame⟩⟩

end TryMap

/-- Mapping one page changes one translation: `try_map` returns 0 with the page mapped as asked and
every other page translated as before, or it returns -1 with every translation as before. -/
theorem tryMap_one_page {L : Layout} {s : Phys} {root : Nat} {va pa : Word} {perm : BitVec 32}
    (tree : PageTree L s root) (hplain : PathPlain s root va) (hcanon : vaIsCanonical va = true)
    (halign : va % 4096 = 0) (hpa : pa % 4096 = 0) (hsmall : pa < 0x100000000)
    (hperm : PermArg perm) :
    ∃ r it s', mapAt L s root va pa perm = .ok (r, it, s') ∧
      ((r = 0 ∧
        (∃ pa', translate s' root va = .ok (pa', perm.signExtend 64) ∧
          (perm.signExtend 64 &&& pteP ≠ 0 → pa' = pa)) ∧
        ∀ va' : Word, va' >>> 12 ≠ va >>> 12 →
          ∃ x, translate s root va' = .ok x ∧ translate s' root va' = .ok x) ∨
      (r = -1 ∧ ∀ va', ∃ x, translate s root va' = .ok x ∧ translate s' root va' = .ok x)) := by
  have hpa' : pa &&& ptePamask = pa := by
    have hmod : pa.toNat % 4096 = 0 := congrArg BitVec.toNat hpa
    have hlt : pa.toNat < 0x100000000 := hsmall
    exact and_ptePamask hmod (by omega)
  have hreads := tree.translate_ok
  obtain ⟨r, it, s', hrun, hcases⟩ := tree.mapAt_cases halign hpa' hperm hplain hcanon hsmall
  refine ⟨r, it, s', hrun, ?_⟩
  rcases hcases with ⟨hr, hself, hothers⟩ | ⟨hr, hsame⟩
  · refine .inl ⟨hr, hself, fun va' hne => ?_⟩
    obtain ⟨x, hx⟩ := hreads va'
    exact ⟨x, hx, by rw [hothers va' hne, hx]⟩
  · refine .inr ⟨hr, fun va' => ?_⟩
    obtain ⟨x, hx⟩ := hreads va'
    exact ⟨x, hx, by rw [hsame va', hx]⟩

/-- Memory of zeros with an empty page table in page 1. -/
def emptyTable : Phys where
  word := fun _ _ => 0
  refcount := fun p => if p = 1 then 1 else 0

theorem emptyTable_tree (kernelEnd : Nat) : PageTree (kernelLayout kernelEnd) emptyTable 1 := by
  have hleaf : ∀ i, child (emptyTable.word 1 i) = none := fun _ => by
    show child 0 = none
    decide
  refine ⟨Radix.distinct_leaf hleaf, ?_, Radix.allEntries_leaf hleaf fun l _ => entryOk_zero l⟩
  intro p hp
  rw [Radix.nodes_leaf hleaf] at hp
  rw [Set.mem_singleton_iff.mp hp]
  simp [Phys.free, emptyTable]

/-- Page `0x100000` of an empty page table is mapped through three new tables. -/
theorem tryMap_first_page : ∃ r it s',
    mapAt (kernelLayout 0x60000) emptyTable 1 0x100000 0x100000 7 = .ok (r, it, s') ∧
      ((r = 0 ∧
        (∃ pa', translate s' 1 0x100000 = .ok (pa', 7) ∧
          ((7 : BitVec 32).signExtend 64 &&& pteP ≠ 0 → pa' = 0x100000)) ∧
        ∀ va' : Word, va' >>> 12 ≠ (0x100000 : Word) >>> 12 →
          ∃ x, translate emptyTable 1 va' = .ok x ∧ translate s' 1 va' = .ok x) ∨
      (r = -1 ∧ ∀ va', ∃ x, translate emptyTable 1 va' = .ok x ∧ translate s' 1 va' = .ok x)) :=
  tryMap_one_page (emptyTable_tree 0x60000) (fun _ _ _ => by
      show (0 : Word) &&& ptePS = 0
      decide) (by decide) (by decide) (by decide) (by decide)
    (.inr ⟨by decide, by decide⟩)

end SystemsProjects.Weensyos
