import SystemsProjects.Weensyos.Ranges
import SystemsProjects.Weensyos.Translate

/-!
# Walking from anywhere

`vmiter::real_find` stays in the table it stands in when the new address is in the same range as the
old one, and starts at the root otherwise. Either way it ends where a fresh iterator for the address
stands, so that no sequence of moves matters to what is found next. The entries may be of any kind,
large pages and tables that take permissions away among them, as long as they refer to memory below
4 GiB; otherwise `down` panics.
-/

namespace SystemsProjects.Weensyos
open SystemsProjects.Lib

/-! ## Moves (`k-vmiter.hh:215-243`) -/

/-- `vmiter::last_va`. -/
def Vmiter.lastVa (it : Vmiter) : Word := Weensyos.lastVa it.level it.va

/-- `vmiter::next_range`. -/
def Vmiter.nextRange (s : Phys) (it : Vmiter) : Except Fault Vmiter := it.realFind s it.lastVa

/-- The ways to move an iterator. `incr` and `decr` are both forms of `++` and `--`. -/
inductive Move where
  | find (va : Word)
  | add (delta : Word)
  | sub (delta : Word)
  | incr
  | decr
  | next
  | nextRange

def Vmiter.move (s : Phys) (it : Vmiter) : Move → Except Fault Vmiter
  | .find va => it.find s va
  | .add delta => it.find s (it.va + delta)
  | .sub delta => it.find s (it.va - delta)
  | .incr => it.find s (it.va + 1)
  | .decr => it.find s (it.va - 1)
  | .next => it.next s
  | .nextRange => it.nextRange s

/-! ## The place of an address -/

/-- The entries below 4 GiB that `down` asks for, in all tables below `root`. -/
def EntriesLow (s : Phys) (root : Nat) : Prop :=
  Radix.AllEntries child (fun _ e => e &&& ptePamask < 0x100000000) s.word 3 root

/-- An iterator at the entry of `va` in table `p` of level `l`. -/
def entryAt (root : Nat) (va : Word) (l p : Nat) (mask : BitVec 32) : Vmiter :=
  { pt := root, pep := .entry p (pageindex va l), level := l, permMask := mask, va := va }

/-- Where a fresh iterator for `va` stands. -/
def cursor (s : Phys) (root : Nat) (va : Word) : Vmiter :=
  if vaIsCanonical va then Vmiter.descend s 3 (entryAt root va 3 root initialPerm)
  else { pt := root, pep := .zero, level := 3, permMask := 0, va := va }

section Descend
variable {s : Phys} {root l p m q : Nat} {va va' : Word} {mask mask' : BitVec 32}

theorem descend_child {c : Nat} (root : Nat) (mask : BitVec 32)
    (h : child (s.word p (pageindex va (l + 1))) = some c) :
    ∃ mask', ∀ va', pageindex va' (l + 1) = pageindex va (l + 1) →
      Vmiter.descend s (l + 1) (entryAt root va' (l + 1) p mask) =
        Vmiter.descend s l (entryAt root va' l c mask') := by
  unfold child at h
  split_ifs at h with hpe
  obtain rfl := Option.some.inj h
  refine ⟨(mask.signExtend 64 &&& (s.word p (pageindex va (l + 1)) ||| ~~~ptePWU)).setWidth 32, ?_⟩
  intro va' hindex
  have hload : s.load (entryAt root va' (l + 1) p mask).pep = s.word p (pageindex va (l + 1)) := by
    rw [← hindex]
    rfl
  unfold Vmiter.descend
  rw [hload, if_pos hpe]
  cases l <;> rfl

theorem descend_none (h : child (s.word p (pageindex va (l + 1))) = none) :
    Vmiter.descend s (l + 1) (entryAt root va (l + 1) p mask) = entryAt root va (l + 1) p mask := by
  unfold child at h
  split_ifs at h with hpe
  unfold Vmiter.descend
  exact if_neg hpe

/-- The descent ends where the walk does. -/
theorem descend_walk (s : Phys) (root : Nat) (va : Word) (l p : Nat) (mask : BitVec 32) :
    ∃ mask', Vmiter.descend s l (entryAt root va l p mask) =
      entryAt root va (Radix.walk child s.word (pageindex va) l p).1
        (Radix.walk child s.word (pageindex va) l p).2 mask' := by
  induction l generalizing p mask with
  | zero => exact ⟨mask, rfl⟩
  | succ l ih =>
    cases hc : child (s.word p (pageindex va (l + 1))) with
    | none =>
      rw [Radix.walk_none hc]
      exact ⟨mask, descend_none hc⟩
    | some c =>
      rw [Radix.walk_some hc]
      obtain ⟨mask₁, hdescend⟩ := descend_child root mask hc
      rw [hdescend va rfl]
      exact ih c mask₁

/-- The way of an address goes through the table where the way of another one ends, when they agree
above it. -/
theorem descend_through (hindex : ∀ j, m < j → j ≤ l → pageindex va' j = pageindex va j)
    (h : Vmiter.descend s l (entryAt root va l p mask) = entryAt root va m q mask') :
    Vmiter.descend s l (entryAt root va' l p mask) =
      Vmiter.descend s m (entryAt root va' m q mask') := by
  induction l generalizing p mask with
  | zero =>
    have h : entryAt root va 0 p mask = entryAt root va m q mask' := h
    simp only [entryAt, Vmiter.mk.injEq, Pep.entry.injEq, true_and] at h
    obtain ⟨⟨rfl, -⟩, rfl, rfl, -⟩ := h
    rfl
  | succ l ih =>
    cases hc : child (s.word p (pageindex va (l + 1))) with
    | none =>
      rw [descend_none hc] at h
      simp only [entryAt, Vmiter.mk.injEq, Pep.entry.injEq, true_and] at h
      obtain ⟨⟨rfl, -⟩, rfl, rfl, -⟩ := h
      rfl
    | some c =>
      obtain ⟨mask₁, hdescend⟩ := descend_child root mask hc
      rw [hdescend va rfl] at h
      have hm : m ≤ l := by
        have hlevel := Vmiter.descend_level s l (entryAt root va l c mask₁) (Nat.le_refl l)
        rw [h] at hlevel
        exact hlevel
      rw [hdescend va' (hindex (l + 1) (Nat.lt_succ_of_le hm) (Nat.le_refl _))]
      exact ih (fun j hj hjl => hindex j hj (Nat.le_succ_of_le hjl)) h

end Descend

/-! ## Every move ends where a fresh iterator stands -/

section Moves
variable {s : Phys} {root : Nat} (ht : EntriesLow s root) (va va' : Word)

/-- An iterator stands at level 3, or at an entry on the way of its address. -/
theorem cursor_cases (s : Phys) (root : Nat) (va : Word) :
    (cursor s root va).level = 3 ∨ vaIsCanonical va = true ∧ ∃ m q mask, m < 3 ∧
      Vmiter.descend s 3 (entryAt root va 3 root initialPerm) = entryAt root va m q mask := by
  unfold cursor
  by_cases hcanon : vaIsCanonical va = true
  · rw [if_pos hcanon]
    obtain ⟨mask, hend⟩ := descend_walk s root va 3 root initialPerm
    have hle := Radix.walk_le child s.word (pageindex va) 3 root
    rcases Nat.lt_or_eq_of_le hle with hlt | heq
    · exact .inr ⟨hcanon, _, _, mask, hlt, hend⟩
    · rw [hend]
      exact .inl heq
  · rw [if_neg hcanon]
    exact .inl rfl

theorem cursor_pt (s : Phys) (root : Nat) (va : Word) : (cursor s root va).pt = root := by
  unfold cursor
  split_ifs
  · obtain ⟨mask, hend⟩ := descend_walk s root va 3 root initialPerm
    rw [hend]
    rfl
  · rfl

theorem cursor_va (s : Phys) (root : Nat) (va : Word) : (cursor s root va).va = va := by
  unfold cursor
  split_ifs
  · obtain ⟨mask, hend⟩ := descend_walk s root va 3 root initialPerm
    rw [hend]
    rfl
  · rfl

include ht

theorem EntriesLow.load_cursor : s.load (cursor s root va).pep &&& ptePamask < 0x100000000 := by
  unfold cursor
  split_ifs
  · obtain ⟨mask, hend⟩ := descend_walk s root va 3 root initialPerm
    rw [hend]
    exact ht.at_end rfl
  · exact (by decide : (0 : Word) &&& ptePamask < 0x100000000)

/-- `down` does not panic where the descent ends at the place of an address. -/
theorem EntriesLow.down_eq {it : Vmiter}
    (h : Vmiter.descend s it.level it = cursor s root va) : it.down s = .ok (cursor s root va) := by
  unfold Vmiter.down
  rw [h]
  exact if_neg (BitVec.not_le.mpr (ht.load_cursor va))

/-- `real_find` from the root. -/
theorem EntriesLow.restart {it : Vmiter} (hpt : it.pt = root)
    (h : it.level = 3 ∨ (it.va ^^^ va) &&& ~~~pageoffmask (it.level + 1) ≠ 0) :
    it.realFind s va = .ok (cursor s root va) := by
  unfold Vmiter.realFind
  rw [if_pos h]
  by_cases hcanon : vaIsCanonical va = true
  · rw [if_pos hcanon]
    apply ht.down_eq
    unfold cursor
    rw [if_pos hcanon, ← hpt]
    rfl
  · rw [if_neg hcanon]
    apply ht.down_eq
    unfold cursor
    rw [if_neg hcanon, ← hpt]
    exact if_neg (by decide : ¬((0 : Word) &&& (pteP ||| ptePS) = pteP))

theorem EntriesLow.vmiter_eq : vmiter s root va = .ok (cursor s root va) :=
  ht.restart va rfl (.inl rfl)

/-- From the place of one address `real_find` gets to the place of any other one. -/
theorem EntriesLow.realFind_eq :
    (cursor s root va).realFind s va' = .ok (cursor s root va') := by
  by_cases hstart : (cursor s root va).level = 3 ∨
      ((cursor s root va).va ^^^ va') &&& ~~~pageoffmask ((cursor s root va).level + 1) ≠ 0
  · exact ht.restart va' (cursor_pt s root va) hstart
  · have hstay := hstart
    rw [not_or, not_not] at hstay
    rcases cursor_cases s root va with hlevel | ⟨hcanon, m, q, mask, hm, hend⟩
    · exact absurd hlevel hstay.1
    · have hcur : cursor s root va = entryAt root va m q mask := by
        rw [cursor, if_pos hcanon, hend]
      rw [hcur] at hstart hstay ⊢
      have hrange : SameRange (m + 1) va va' := (xor_eq_zero_iff (by omega)).mp hstay.2
      have hcanon' : vaIsCanonical va' = true := by rw [hrange.canonical (by omega), hcanon]
      unfold Vmiter.realFind
      rw [if_neg hstart]
      apply ht.down_eq
      rw [cursor, if_pos hcanon', descend_through (fun j hj _ => hrange.pageindex hj) hend]
      rfl

theorem EntriesLow.find_eq : (cursor s root va).find s va' = .ok (cursor s root va') := by
  unfold Vmiter.find
  rw [cursor_va]
  by_cases hva : va' = va
  · rw [if_neg (not_not.mpr hva), hva]
  · rw [if_pos hva]
    exact ht.realFind_eq va va'

/-- Every move ends at the place of some address. -/
theorem EntriesLow.move_eq (m : Move) :
    ∃ va', (cursor s root va).move s m = .ok (cursor s root va') := by
  cases m with
  | find va' => exact ⟨_, ht.find_eq va va'⟩
  | add delta => exact ⟨_, ht.find_eq va _⟩
  | sub delta => exact ⟨_, ht.find_eq va _⟩
  | incr => exact ⟨_, ht.find_eq va _⟩
  | decr => exact ⟨_, ht.find_eq va _⟩
  | next => exact ⟨_, ht.realFind_eq va _⟩
  | nextRange => exact ⟨_, ht.realFind_eq va _⟩

theorem EntriesLow.moves_eq (moves : List Move) :
    ∃ va', moves.foldlM (Vmiter.move s) (cursor s root va) = .ok (cursor s root va') := by
  induction moves generalizing va with
  | nil => exact ⟨va, rfl⟩
  | cons m moves ih =>
    obtain ⟨va₁, hmove⟩ := ht.move_eq va m
    obtain ⟨va', hrest⟩ := ih va₁
    refine ⟨va', ?_⟩
    rw [List.foldlM_cons, hmove]
    exact hrest

end Moves

/-- Walking from anywhere is walking from the root: after any moves, `find` brings the iterator to
the state of a fresh one. -/
theorem find_after_moves {s : Phys} {root : Nat} (ht : EntriesLow s root) (va₀ : Word)
    (moves : List Move) :
    ∃ it, (vmiter s root va₀ >>= fun it => moves.foldlM (Vmiter.move s) it) = .ok it ∧
      ∀ va, ∃ it', it.find s va = .ok it' ∧ vmiter s root va = .ok it' := by
  obtain ⟨va₁, hmoves⟩ := ht.moves_eq va₀ moves
  refine ⟨cursor s root va₁, ?_, fun va => ?_⟩
  · rw [ht.vmiter_eq va₀]
    exact hmoves
  · exact ⟨cursor s root va, ht.find_eq va₁ va, ht.vmiter_eq va⟩

/-- A page table in page 1 with a chain of three tables below it, the first without write
permission, and with a large page and one of 4 KiB. -/
def mixedTable : Phys where
  word := fun p i =>
    if p = 1 ∧ i = 0 then 0x2005 else if p = 2 ∧ i = 0 then 0x3007
    else if p = 3 ∧ i = 0 then 0x200087 else if p = 3 ∧ i = 1 then 0x4007
    else if p = 4 ∧ i = 0 then 0x100007 else 0
  refcount := fun _ => 0

theorem mixedTable_low : EntriesLow mixedTable 1 := by
  apply Radix.allEntries_of_forall
  intro _ p i
  simp only [mixedTable]
  split_ifs <;> decide

theorem find_after_moves_mixed : ∃ it, (vmiter mixedTable 1 0x1000 >>= fun it =>
      [Move.next, .find 0x200000, .sub 1, .nextRange].foldlM (Vmiter.move mixedTable) it) = .ok it ∧
    ∀ va, ∃ it', it.find mixedTable va = .ok it' ∧ vmiter mixedTable 1 va = .ok it' :=
  find_after_moves mixedTable_low 0x1000 _

/-- Every table has at most one table below it, in a page behind its own. -/
theorem mixedTable_child {p c : Nat} {i : Fin 512} (h : child (mixedTable.word p i) = some c) :
    p < c ∧ i = if p = 3 then 1 else 0 := by
  have hsome : ∀ {e : Word} {n : Nat}, child e = some n → child e = some c → c = n :=
    fun hn hc => Option.some.inj (hc.symm.trans hn)
  simp only [mixedTable] at h
  split_ifs at h with h₁ h₂ h₃ h₄ h₅
  · obtain rfl := hsome (n := 2) (by decide) h
    exact ⟨by omega, by rw [h₁.1, h₁.2]; rfl⟩
  · obtain rfl := hsome (n := 3) (by decide) h
    exact ⟨by omega, by rw [h₂.1, h₂.2]; rfl⟩
  · exact absurd (h.symm.trans (by decide : child 0x200087 = none)) (Option.some_ne_none c)
  · obtain rfl := hsome (n := 4) (by decide) h
    exact ⟨by omega, by rw [h₄.1, h₄.2]; rfl⟩
  · obtain rfl := hsome (n := 0x100) (by decide) h
    exact ⟨by omega, by rw [h₅.1, h₅.2]; rfl⟩
  · exact absurd (h.symm.trans (by decide : child 0 = none)) (Option.some_ne_none c)

theorem mixedTable_distinct (l p : Nat) : Radix.Distinct child mixedTable.word l p := by
  have hbehind : ∀ {l p q}, q ∈ Radix.nodes child mixedTable.word l p → p ≤ q := by
    intro l p q hq
    induction l generalizing p with
    | zero => exact (Set.mem_singleton_iff.mp hq).ge
    | succ l ih =>
      rcases Set.mem_insert_iff.mp hq with hq | ⟨i, c, hc, hq⟩
      · exact hq.ge
      · exact (mixedTable_child hc).1.le.trans (ih hq)
  induction l generalizing p with
  | zero => exact trivial
  | succ l ih =>
    refine ⟨?_, ?_⟩
    · intro i c hc
      exact ⟨ih c, fun hp => absurd (hbehind hp) (mixedTable_child hc).1.not_ge⟩
    · intro i j c d hc hd hij
      exact absurd ((mixedTable_child hc).2.trans (mixedTable_child hd).2.symm) hij

end SystemsProjects.Weensyos
