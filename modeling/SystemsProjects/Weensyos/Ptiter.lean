import SystemsProjects.Lib.Postorder
import SystemsProjects.Lib.Steps
import SystemsProjects.Weensyos.Cursor

/-!
# The tables of a page table

`ptiter` (`k-vmiter.cc:103-138`, `k-vmiter.hh:105-156`) walks over the page-table pages, for the
loop that frees them: `for (ptiter it(pt); !it.done(); it.next()) { kfree(it.kptr()); }`. Behind the
last entry of a table the iterator starts again at the root and comes down to the entry of that
table, which it visits then. The tables are visited children first, and none is read after its
visit.
-/

namespace SystemsProjects.Weensyos
open SystemsProjects.Lib

/-- `ptiter`. The pointer `pep_` is to entry `idx` of the table in page `page`. -/
structure Ptiter where
  pt : Nat
  page : Nat
  idx : Fin 512
  level : Nat
  va : Word

def vaNoncanonmax : Word := 0x0000FFFFFFFFFFFF

/-- `ptiter::done`. -/
def Ptiter.done (it : Ptiter) : Bool := decide (it.va > vaNoncanonmax)

/-- `ptiter::down` between two rounds of its loop. -/
structure Descent where
  it : Ptiter
  skip : Bool
  stopLevel : Nat

/-- `down (skip)`. -/
def Ptiter.down (skip : Bool) (it : Ptiter) : Descent := ⟨it, skip, 1⟩

/-- The constructor. -/
def ptiter (pt : Nat) : Descent :=
  Ptiter.down false { pt := pt, page := pt, idx := 0, level := 3, va := 0 }

/-- `ptiter::next`. -/
def Ptiter.next (it : Ptiter) : Descent := it.down true

/-- One round of the loop of `ptiter::down`: it goes on, or the function is left. A level is at
least 1 where it is decremented. -/
def Descent.round (s : Phys) (d : Descent) : Except Fault (Descent ⊕ Ptiter) :=
  let it := d.it
  let pe := s.word it.page it.idx
  if pe &&& (pteP ||| ptePS) = pteP ∧ d.skip = false then
    if it.level = d.stopLevel then .ok (.inr it)
    else
      let level := it.level - 1
      .ok (.inl { d with
        it := { it with level := level, page := pageOf pe, idx := pageindex it.va level } })
  else
    let va := (it.va ||| pageoffmask it.level) + 1
    if (va ^^^ it.va) &&& ~~~pageoffmask (it.level + 1) ≠ 0 then
      -- up one level
      if it.level = 3 then .ok (.inr { it with va := vaNoncanonmax + 1 })
      else .ok (.inl
        { it := { it with level := 3, page := it.pt, idx := pageindex it.va 3 }
          skip := false
          stopLevel := it.level + 1 })
    else if it.idx.val + 1 < 512 then
      .ok (.inl { d with it := { it with idx := it.idx + 1, va := va }, skip := false })
    else .error .outOfBounds

/-- What one round reads, and the page that the body of the loop visits when it leaves `down`. -/
structure TableEvent where
  read : Nat
  visit : Option Nat

/-- One round of the whole loop; `none` is behind the loop. The body of the loop reads the entry for
`kptr ()` and visits the page, and `next ()` begins the next descent. -/
def Descent.step (s : Phys) (d : Descent) : Except Fault (TableEvent × Option Descent) :=
  (d.round s).map fun r =>
    match r with
    | .inl d' => (⟨d.it.page, none⟩, some d')
    | .inr it =>
      if it.done then (⟨d.it.page, none⟩, none)
      else (⟨d.it.page, some (pageOf (s.word it.page it.idx))⟩, some it.next)

/-- The steps of the loop. -/
def LoopStep (s : Phys) (c : Option Descent) (e : TableEvent) (c' : Option Descent) : Prop :=
  ∃ d, c = some d ∧ d.step s = .ok (e, c')

/-- The pages that were visited, in order. -/
def visits (es : List TableEvent) : List Nat := es.filterMap TableEvent.visit

/-! ## The rounds -/

/-- The iterator at an entry of a table, in a descent that began with `next` or the constructor. -/
def atEntry (root p : Nat) (i : Fin 512) (l : Nat) (va : Word) (skip : Bool) (stop : Nat) :
    Descent :=
  ⟨⟨root, p, i, l, va⟩, skip, stop⟩

/-- Behind table `p` of level `l`, whose last entry is at `va`. -/
def behind (root l : Nat) (va : Word) : Option Descent :=
  if l = 3 then none else some (atEntry root root (pageindex va 3) 3 va false (l + 1))

section Rounds
variable {s : Phys} {root p c l stop : Nat} {i : Fin 512} {va : Word} {skip : Bool}

theorem child_eq_some (h : child (s.word p i) = some c) :
    s.word p i &&& (pteP ||| ptePS) = pteP ∧ pageOf (s.word p i) = c := by
  unfold child at h
  split_ifs at h with hpe
  exact ⟨hpe, Option.some.inj h⟩

theorem child_eq_none (h : child (s.word p i) = none) :
    ¬s.word p i &&& (pteP ||| ptePS) = pteP := by
  unfold child at h
  split_ifs at h with hpe
  exact hpe

/-- A table below is entered above the stop level. -/
theorem step_enter (h : child (s.word p i) = some c) (hstop : l + 1 ≠ stop) :
    LoopStep s (some (atEntry root p i (l + 1) va false stop)) ⟨p, none⟩
      (some (atEntry root c (pageindex va l) l va false stop)) := by
  obtain ⟨hpe, hc⟩ := child_eq_some h
  refine ⟨_, rfl, ?_⟩
  unfold Descent.step Descent.round atEntry
  dsimp only
  rw [if_pos ⟨hpe, rfl⟩, if_neg hstop, hc]
  rfl

/-- At the stop level the table below is visited. -/
theorem step_visit (h : child (s.word p i) = some c) (hva : va.toNat < 2 ^ 48) :
    LoopStep s (some (atEntry root p i l va false l)) ⟨p, some c⟩
      (some (atEntry root p i l va true 1)) := by
  obtain ⟨hpe, hc⟩ := child_eq_some h
  have hdone : ¬va > vaNoncanonmax := by
    have hmax : vaNoncanonmax.toNat = 2 ^ 48 - 1 := rfl
    rw [gt_iff_lt, BitVec.lt_def, hmax]
    omega
  refine ⟨_, rfl, ?_⟩
  unfold Descent.step Descent.round atEntry
  dsimp only
  rw [if_pos ⟨hpe, rfl⟩, if_pos rfl]
  simp only [Except.map, Ptiter.done, hdone, decide_false, Bool.false_eq_true, if_false, hc]
  rfl

/-- An entry is left when it is skipped, or leads to no table. -/
def Leaves (s : Phys) (p : Nat) (i : Fin 512) (skip : Bool) : Prop :=
  skip = true ∨ child (s.word p i) = none

theorem Leaves.not_entered (h : Leaves s p i skip) :
    ¬(s.word p i &&& (pteP ||| ptePS) = pteP ∧ skip = false) := by
  rintro ⟨hpe, hskip⟩
  rcases h with h | h
  · exact Bool.false_ne_true (hskip.symm.trans h)
  · exact child_eq_none h hpe

/-- The test for the end of a table. -/
theorem ends_iff (hl : l ≤ 3) (hva : va.toNat < 2 ^ 48) :
    ((va ||| pageoffmask l) + 1 ^^^ va) &&& ~~~pageoffmask (l + 1) ≠ 0 ↔
      (pageindex va l).val = 511 := by
  rw [BitVec.xor_comm, ne_eq, xor_eq_zero_iff (Nat.succ_le_succ hl)]
  change ¬SameRange (l + 1) va (lastVa l va) ↔ _
  rw [sameRange_lastVa hl hva, not_not]

/-- The next entry of the table follows. -/
theorem step_next (h : Leaves s p i skip) (hl : l ≤ 3) (hva : va.toNat < 2 ^ 48)
    (hi : pageindex va l = i) (hlast : i.val ≠ 511) :
    LoopStep s (some (atEntry root p i l va skip stop)) ⟨p, none⟩
      (some (atEntry root p (i + 1) l (lastVa l va) false stop)) := by
  have hends := mt (ends_iff hl hva).mp (by rw [hi]; exact hlast)
  have hlt : i.val + 1 < 512 := by omega
  refine ⟨_, rfl, ?_⟩
  unfold Descent.step Descent.round atEntry
  dsimp only
  rw [if_neg h.not_entered, if_neg hends, if_pos hlt]
  rfl

/-- Behind the last entry of a table the loop ends or starts again at the root. -/
theorem step_up (h : Leaves s p i skip) (hl : l ≤ 3) (hva : va.toNat < 2 ^ 48)
    (hi : pageindex va l = i) (hlast : i.val = 511) :
    LoopStep s (some (atEntry root p i l va skip stop)) ⟨p, none⟩ (behind root l va) := by
  have hends := (ends_iff hl hva).mpr (by rw [hi]; exact hlast)
  refine ⟨_, rfl, ?_⟩
  unfold Descent.step Descent.round atEntry behind
  dsimp only
  rw [if_neg h.not_entered, if_pos hends]
  by_cases h3 : l = 3
  · rw [if_pos h3, if_pos h3]
    rfl
  · rw [if_neg h3, if_neg h3]
    rfl

end Rounds

/-! ## Tours -/

/-- No page is read behind its visit. -/
def Unread (es : List TableEvent) : Prop :=
  es.Pairwise fun e e' => ∀ q, e.visit = some q → e'.read ≠ q

/-- The loop comes from `a` to `b`. On the way it visits `ds`, and reads pages of `A` only. -/
def Tour (s : Phys) (A : Set Nat) (a : Option Descent) (ds : List Nat) (b : Option Descent) :
    Prop :=
  ∃ es, Steps (LoopStep s) a es b ∧ visits es = ds ∧ (∀ e ∈ es, e.read ∈ A) ∧ Unread es

section Tours
variable {s : Phys} {A B B' : Set Nat} {a b c : Option Descent} {ds ds' : List Nat}

theorem Tour.refl (s : Phys) (A : Set Nat) (a : Option Descent) : Tour s A a [] a :=
  ⟨[], .nil a, rfl, List.forall_mem_nil _, List.Pairwise.nil⟩

/-- A visit. -/
theorem Tour.visit {p q : Nat} (h : LoopStep s a ⟨p, some q⟩ b) (hp : p ∈ A) :
    Tour s A a [q] b := by
  refine ⟨[⟨p, some q⟩], .single h, rfl, ?_, List.pairwise_singleton _ _⟩
  intro e he
  rw [List.mem_singleton.mp he]
  exact hp

/-- A round without a visit. -/
theorem Tour.round {p : Nat} (h : LoopStep s a ⟨p, none⟩ b) (hp : p ∈ A) : Tour s A a [] b := by
  refine ⟨[⟨p, none⟩], .single h, rfl, ?_, List.pairwise_singleton _ _⟩
  intro e he
  rw [List.mem_singleton.mp he]
  exact hp

theorem mem_visits {es : List TableEvent} {e : TableEvent} {q : Nat} (he : e ∈ es)
    (hq : e.visit = some q) : q ∈ visits es :=
  List.mem_filterMap.mpr ⟨e, he, hq⟩

/-- Two tours one after the other, when the second reads no page of the first one's visits. -/
theorem Tour.trans (h : Tour s A a ds b) (h' : Tour s B b ds' c) (hA : A ⊆ B')
    (hB : B ⊆ B') (hdis : ∀ q ∈ ds, q ∉ B) : Tour s B' a (ds ++ ds') c := by
  obtain ⟨es, hsteps, hvisits, hreads, hunread⟩ := h
  obtain ⟨es', hsteps', hvisits', hreads', hunread'⟩ := h'
  refine ⟨es ++ es', hsteps.append hsteps', ?_, ?_, ?_⟩
  · rw [← hvisits, ← hvisits']
    exact List.filterMap_append
  · intro e he
    rcases List.mem_append.mp he with he | he
    · exact hA (hreads e he)
    · exact hB (hreads' e he)
  · refine List.pairwise_append.mpr ⟨hunread, hunread', ?_⟩
    intro e he e' he' q hq hread
    have hvisited : q ∈ ds := hvisits ▸ mem_visits he hq
    exact hdis q hvisited (hread ▸ hreads' e' he')

/-- Before a tour, one without a visit. -/
theorem Tour.after (h : Tour s A a [] b) (h' : Tour s B b ds c) (hA : A ⊆ B) : Tour s B a ds c :=
  h.trans h' hA subset_rfl (List.forall_mem_nil _)

end Tours

/-! ## The way down from the root -/

/-- The walk of address `va` comes to table `p` of level `l`, through the tables in `A`. -/
inductive PathTo (s : Phys) (root : Nat) (va : Word) : Nat → Nat → Set Nat → Prop
  | root : PathTo s root va 3 root ∅
  | child {l p c : Nat} {A : Set Nat} : PathTo s root va (l + 1) p A →
      child (s.word p (pageindex va (l + 1))) = some c → PathTo s root va l c (insert p A)

section Path
variable {s : Phys} {root l p stop : Nat} {va va' : Word} {A : Set Nat}

theorem PathTo.level_le (h : PathTo s root va l p A) : l ≤ 3 := by
  induction h with
  | root => exact le_rfl
  | child _ _ ih => exact Nat.le_of_succ_le ih

theorem PathTo.sameRange (h : PathTo s root va l p A) (hva : SameRange (l + 1) va va') :
    PathTo s root va' l p A := by
  induction h with
  | root => exact .root
  | child _ hc ih =>
    refine .child (ih (hva.mono (Nat.le_succ _))) ?_
    rw [hva.pageindex le_rfl]
    exact hc

/-- A descent from the root comes to the entry at its stop level. -/
theorem PathTo.restart (h : PathTo s root va l p A) (hstop : stop ≤ l) :
    Tour s A (some (atEntry root root (pageindex va 3) 3 va false stop)) []
      (some (atEntry root p (pageindex va l) l va false stop)) := by
  induction h with
  | root => exact Tour.refl _ _ _
  | @child l p c A _ hc ih =>
    have hne : l + 1 ≠ stop := by omega
    have henter : Tour s (insert p A)
        (some (atEntry root p (pageindex va (l + 1)) (l + 1) va false stop)) []
        (some (atEntry root c (pageindex va l) l va false stop)) :=
      Tour.round (step_enter hc hne) (Set.mem_insert p A)
    exact (ih (Nat.le_succ_of_le hstop)).after henter (Set.subset_insert p A)

end Path

/-! ## A table and its entries -/

/-- The loop is in table `p` of level `l`, and met none of the tables below on the way. -/
structure Inside (s : Phys) (root l p : Nat) (A : Set Nat) (va : Word) : Prop where
  path : PathTo s root va l p A
  distinct : Radix.Distinct child s.word l p
  apart : ∀ q ∈ Radix.nodes child s.word l p, q ∉ A
  low : va.toNat < 2 ^ 48

/-- The tables below entry `i` of table `p`, children first. -/
def entryTables (s : Phys) (l p : Nat) (i : Fin 512) : List Nat :=
  (child (s.word p i)).elim [] (Radix.postorder child (List.finRange 512) s.word l)

/-- The tables below the entries of `p` from entry `i` on. -/
def tablesFrom (s : Phys) (l p i : Nat) : Set Nat :=
  {q | ∃ j c, i ≤ j.val ∧ child (s.word p j) = some c ∧ q ∈ Radix.nodes child s.word l c}

/-- The loop goes over the tables below table `p` of level `l + 1` and comes to its end. -/
def TableTour (s : Phys) (root l : Nat) : Prop :=
  ∀ p A va, Inside s root (l + 1) p A va → rangeSize (l + 2) ∣ va.toNat →
    ∃ va', SameRange (l + 2) va va' ∧
      Tour s (insert p A ∪ tablesFrom s l p 0) (some (atEntry root p 0 (l + 1) va false 1))
        ((List.finRange 512).flatMap (entryTables s l p)) (behind root (l + 1) va')

section Table
variable {s : Phys} {root l p c : Nat} {i : Fin 512} {A : Set Nat} {va va' : Word}

theorem Inside.sameRange (h : Inside s root l p A va) (hva : SameRange (l + 1) va va') :
    Inside s root l p A va' :=
  ⟨h.path.sameRange hva, h.distinct, h.apart,
    hva.lt_low (Nat.succ_le_succ h.path.level_le) h.low⟩

theorem Inside.enter (h : Inside s root (l + 1) p A va)
    (hc : child (s.word p (pageindex va (l + 1))) = some c) :
    Inside s root l c (insert p A) va := by
  obtain ⟨hdistinct, hp⟩ := h.distinct.1 _ c hc
  refine ⟨.child h.path hc, hdistinct, ?_, h.low⟩
  intro q hq hmem
  rcases Set.mem_insert_iff.mp hmem with rfl | hA
  · exact hp hq
  · exact h.apart q (Radix.nodes_of_child hc hq) hA

/-- The tables below an entry were met neither on the way nor below the entries that follow. -/
theorem Inside.entryTables_apart (h : Inside s root (l + 1) p A va) {q : Nat}
    (hq : q ∈ entryTables s l p i) : q ∉ insert p A ∪ tablesFrom s l p (i.val + 1) := by
  obtain ⟨c, hc, hqc⟩ : ∃ c, child (s.word p i) = some c ∧ q ∈ Radix.nodes child s.word l c := by
    unfold entryTables at hq
    cases hc : child (s.word p i) with
    | none =>
      rw [hc] at hq
      exact absurd hq List.not_mem_nil
    | some c =>
      rw [hc] at hq
      exact ⟨c, rfl, Radix.mem_nodes_of_mem_postorder hq⟩
  intro hmem
  rcases hmem with hmem | ⟨j, d, hij, hd, hqd⟩
  · rcases Set.mem_insert_iff.mp hmem with rfl | hA
    · exact (h.distinct.1 i c hc).2 hqc
    · exact h.apart q (Radix.nodes_of_child hc hqc) hA
  · have hne : i ≠ j := by
      intro heq
      rw [heq] at hij
      exact Nat.not_succ_le_self _ hij
    exact Set.disjoint_left.mp (h.distinct.2 i j c d hc hd hne) hqc hqd

theorem tablesFrom_anti {j k : Nat} (h : j ≤ k) : tablesFrom s l p k ⊆ tablesFrom s l p j := by
  intro q hq
  obtain ⟨j', c, hk, hc, hqc⟩ := hq
  exact ⟨j', c, h.trans hk, hc, hqc⟩

/-- Below an entry that leads to table `c` are `c` and the tables below `c`. -/
theorem below_subset (hc : child (s.word p i) = some c) :
    insert c (insert p A) ∪ tablesFrom s l c 0 ⊆ insert p A ∪ tablesFrom s (l + 1) p i := by
  intro q hq
  have hbelow : ∀ {q}, q ∈ Radix.nodes child s.word (l + 1) c → q ∈ tablesFrom s (l + 1) p i :=
    fun hq => ⟨i, c, le_rfl, hc, hq⟩
  rcases hq with hq | ⟨j, d, -, hd, hq⟩
  · rcases Set.mem_insert_iff.mp hq with rfl | hq
    · exact Or.inr (hbelow Radix.self_mem_nodes)
    · exact Or.inl hq
  · exact Or.inr (hbelow (Radix.nodes_of_child hd hq))

/-- The tables below one entry are visited, and the iterator is at the entry again. -/
theorem tour_entry (hbelow : ∀ l', l = l' + 1 → TableTour s root l')
    (h : Inside s root (l + 1) p A va) (hi : pageindex va (l + 1) = i)
    (hstart : rangeSize (l + 1) ∣ va.toNat) :
    ∃ va' skip, SameRange (l + 1) va va' ∧ Leaves s p i skip ∧
      Tour s (insert p A ∪ tablesFrom s l p i) (some (atEntry root p i (l + 1) va false 1))
        (entryTables s l p i) (some (atEntry root p i (l + 1) va' skip 1)) := by
  have hp : ∀ {B : Set Nat}, p ∈ insert p A ∪ B := Or.inl (Set.mem_insert p A)
  cases hc : child (s.word p i) with
  | none =>
    refine ⟨va, false, rfl, Or.inr hc, ?_⟩
    rw [entryTables, hc]
    exact Tour.refl _ _ _
  | some c =>
    cases l with
    | zero =>
      refine ⟨va, true, rfl, Or.inl rfl, ?_⟩
      rw [entryTables, hc]
      exact Tour.visit (step_visit hc h.low) hp
    | succ l =>
      have hin := h.enter (c := c) (by rw [hi]; exact hc)
      -- down into the table, over the tables below it, up to the root and down again
      have henter : Tour s (insert p A ∪ tablesFrom s (l + 1) p i)
          (some (atEntry root p i (l + 2) va false 1)) []
          (some (atEntry root c (pageindex va (l + 1)) (l + 1) va false 1)) :=
        Tour.round (step_enter hc (by omega)) hp
      rw [pageindex_eq_zero hstart] at henter
      obtain ⟨va', hrange, htable⟩ := hbelow l rfl c (insert p A) va hin hstart
      have hlevel : l + 1 ≠ 3 := by
        have := h.path.level_le
        omega
      have hi' : pageindex va' (l + 2) = i := (hrange.pageindex le_rfl).trans hi
      have hin' := h.sameRange (hrange.mono (Nat.le_succ _))
      have hrestart := hin'.path.restart (le_refl (l + 2))
      have hvisit : Tour s (insert p A) (some (atEntry root p i (l + 2) va' false (l + 2))) [c]
          (some (atEntry root p i (l + 2) va' true 1)) :=
        Tour.visit (step_visit hc hin'.low) (Set.mem_insert p A)
      rw [hi'] at hrestart
      rw [behind, if_neg hlevel] at htable
      have hback := hrestart.after hvisit (Set.subset_insert p A)
      have htail := htable.trans hback (below_subset hc) Set.subset_union_left (by
        intro q hq
        exact hin.apart q (Radix.mem_nodes_of_mem_postorder (List.mem_append_left [c] hq)))
      refine ⟨va', true, hrange, Or.inl rfl, ?_⟩
      rw [entryTables, hc]
      exact henter.after htail subset_rfl

theorem drop_finRange (i : Fin 512) :
    (List.finRange 512).drop i = i :: (List.finRange 512).drop (i.val + 1) := by
  rw [List.drop_eq_getElem_cons (by rw [List.length_finRange]; exact i.isLt), List.getElem_finRange]
  rfl

/-- The entries from entry `i` on, one after another. -/
theorem tour_entries (hbelow : ∀ l', l = l' + 1 → TableTour s root l') (n : Nat)
    (hn : i.val + n = 511) (h : Inside s root (l + 1) p A va) (hi : pageindex va (l + 1) = i)
    (hstart : rangeSize (l + 1) ∣ va.toNat) :
    ∃ va', SameRange (l + 2) va va' ∧
      Tour s (insert p A ∪ tablesFrom s l p i) (some (atEntry root p i (l + 1) va false 1))
        (((List.finRange 512).drop i).flatMap (entryTables s l p)) (behind root (l + 1) va') := by
  have hp : ∀ {B : Set Nat}, p ∈ insert p A ∪ B := Or.inl (Set.mem_insert p A)
  induction n generalizing i va with
  | zero =>
    obtain ⟨va₁, skip, hrange, hleaves, htour⟩ := tour_entry hbelow h hi hstart
    have hi₁ := (hrange.pageindex le_rfl).trans hi
    have hin₁ := h.sameRange (hrange.mono (Nat.le_succ _))
    have hup : Tour s (insert p A ∪ tablesFrom s l p (i.val + 1))
        (some (atEntry root p i (l + 1) va₁ skip 1)) [] (behind root (l + 1) va₁) :=
      Tour.round (step_up hleaves h.path.level_le hin₁.low hi₁ hn) hp
    have hnil : (List.finRange 512).drop (i.val + 1) = [] := by
      apply List.drop_eq_nil_of_le
      rw [List.length_finRange]
      omega
    rw [drop_finRange, hnil, List.flatMap_singleton, ← List.append_nil (entryTables s l p i)]
    exact ⟨va₁, hrange.mono (Nat.le_succ _), htour.trans hup subset_rfl
      (Set.union_subset_union_right _ (tablesFrom_anti (Nat.le_succ _)))
      fun _ => h.entryTables_apart⟩
  | succ n ih =>
    obtain ⟨va₁, skip, hrange, hleaves, htour⟩ := tour_entry hbelow h hi hstart
    have hi₁ := (hrange.pageindex le_rfl).trans hi
    have hin₁ := h.sameRange (hrange.mono (Nat.le_succ _))
    have hlevel := h.path.level_le
    have hlast : i.val ≠ 511 := by omega
    have hlast₁ : (pageindex va₁ (l + 1)).val ≠ 511 := by
      rw [hi₁]
      exact hlast
    have hsucc : (i + 1).val = i.val + 1 := by
      rw [Fin.val_add]
      exact Nat.mod_eq_of_lt (by omega)
    -- on to the next entry
    have hnext : Tour s (insert p A ∪ tablesFrom s l p (i.val + 1))
        (some (atEntry root p i (l + 1) va₁ skip 1)) []
        (some (atEntry root p (i + 1) (l + 1) (lastVa (l + 1) va₁) false 1)) :=
      Tour.round (step_next hleaves hlevel hin₁.low hi₁ hlast) hp
    have hrange₂ := (sameRange_lastVa hlevel hin₁.low).mpr hlast₁
    have hi₂ : pageindex (lastVa (l + 1) va₁) (l + 1) = i + 1 := by
      apply Fin.ext
      rw [pageindex_lastVa hlevel hin₁.low hlast₁, hi₁, hsucc]
    obtain ⟨va', hrange', hrest⟩ := ih (by omega) (hin₁.sameRange hrange₂) hi₂
      (rangeSize_dvd_lastVa hlevel hin₁.low)
    rw [hsucc] at hrest
    have htail := hnext.after hrest subset_rfl
    refine ⟨va', ?_, ?_⟩
    · exact ((hrange.mono (Nat.le_succ _)).trans hrange₂).trans hrange'
    · rw [drop_finRange, List.flatMap_cons]
      exact htour.trans htail subset_rfl
        (Set.union_subset_union_right _ (tablesFrom_anti (Nat.le_succ _)))
        fun _ => h.entryTables_apart

theorem TableTour.of_below (hbelow : ∀ l', l = l' + 1 → TableTour s root l') :
    TableTour s root l := by
  intro p A va h hstart
  have htour := tour_entries (i := 0) hbelow 511 (Nat.zero_add 511) h (pageindex_eq_zero hstart)
    ((rangeSize_dvd (Nat.le_succ _)).trans hstart)
  rw [Fin.val_zero, List.drop_zero] at htour
  exact htour

/-- By induction on the level of the table. -/
theorem tour_table (s : Phys) (root l : Nat) : TableTour s root l := by
  induction l with
  | zero => exact .of_below fun l' hl => absurd hl (Nat.succ_ne_zero l').symm
  | succ l ih =>
    refine .of_below fun l' hl => ?_
    rw [← Nat.succ.inj hl]
    exact ih

end Table

/-! ## The whole loop -/

section Loop
variable {s : Phys} {root : Nat}

/-- The loop visits the tables children first, up to the root, and reads no page that it visited. -/
theorem ptiter_tour (hd : Radix.Distinct child s.word 3 root) :
    ∃ es, Steps (LoopStep s) (some (ptiter root)) es none ∧ Unread es ∧
      visits es ++ [root] = Radix.postorder child (List.finRange 512) s.word 3 root := by
  have hin : Inside s root 3 root ∅ 0 :=
    ⟨.root, hd, fun q _ => Set.notMem_empty q, by decide⟩
  obtain ⟨va', -, es, hsteps, hvisits, -, hunread⟩ := tour_table s root 2 root ∅ 0 hin
    (Nat.dvd_zero _)
  refine ⟨es, hsteps, hunread, ?_⟩
  rw [hvisits]
  rfl

theorem round_page {d : Descent} {it : Ptiter} (h : d.round s = .ok (.inr it)) :
    it.page = d.it.page := by
  unfold Descent.round at h
  dsimp only at h
  split_ifs at h <;> cases h <;> rfl

theorem step_read {d : Descent} {e : TableEvent} {c : Option Descent} (h : d.step s = .ok (e, c)) :
    e.read = d.it.page := by
  unfold Descent.step at h
  cases hround : d.round s with
  | error fault =>
    rw [hround] at h
    cases h
  | ok r =>
    rw [hround] at h
    cases r with
    | inl d' =>
      cases h
      rfl
    | inr it =>
      simp only [Except.map] at h
      split_ifs at h <;> cases h <;> rfl

/-- A round depends on the page that it reads, and on no other. -/
theorem LoopStep.congr {s' : Phys} {c c' : Option Descent} {e : TableEvent} (h : LoopStep s c e c')
    (hs : s'.word e.read = s.word e.read) : LoopStep s' c e c' := by
  obtain ⟨d, hc, hstep⟩ := h
  refine ⟨d, hc, ?_⟩
  rw [step_read hstep] at hs
  have hround : d.round s' = d.round s := by
    unfold Descent.round
    dsimp only
    rw [hs]
  rw [← hstep]
  unfold Descent.step
  rw [hround]
  cases hr : d.round s with
  | error fault => rfl
  | ok r =>
    cases r with
    | inl d' => rfl
    | inr it =>
      simp only [Except.map, round_page hr, hs]

theorem LoopStep.unique {c c₁ c₂ : Option Descent} {e₁ e₂ : TableEvent} (h₁ : LoopStep s c e₁ c₁)
    (h₂ : LoopStep s c e₂ c₂) : e₁ = e₂ ∧ c₁ = c₂ := by
  obtain ⟨d, hc, h₁⟩ := h₁
  obtain ⟨d', hc', h₂⟩ := h₂
  obtain rfl := Option.some.inj (hc.symm.trans hc')
  exact Prod.mk.inj (Except.ok.inj (h₁.symm.trans h₂))

theorem not_loopStep_none {c : Option Descent} {e : TableEvent} : ¬LoopStep s none e c := by
  intro h
  obtain ⟨d, hc, -⟩ := h
  exact Option.some_ne_none d hc.symm

/-- A round of the loop that frees: what is in the visited page afterwards is not known. -/
def FreeStep (a : Phys × Option Descent) (e : TableEvent) (b : Phys × Option Descent) : Prop :=
  LoopStep a.1 a.2 e b.2 ∧ ∀ q, e.visit ≠ some q → b.1.word q = a.1.word q

/-- What happens to the pages behind their visits does not change the rounds that follow. -/
theorem freeing_steps {a b : Phys × Option Descent} {es es' : List TableEvent}
    (hfree : Steps FreeStep a es' b) (hrun : Steps (LoopStep s) a.2 es none) (hunread : Unread es)
    (hsame : ∀ e ∈ es, a.1.word e.read = s.word e.read) : es' <+: es := by
  induction hfree generalizing es with
  | nil a => exact List.nil_prefix
  | @cons a a₁ b e es' hstep _ ih =>
    obtain ⟨hloop, hkeep⟩ := hstep
    generalize a.2 = c at hrun hloop
    cases hrun with
    | nil => exact absurd hloop not_loopStep_none
    | @cons _ c₁ _ e₁ es₁ h₁ hrest =>
      have hsame₁ := hsame e₁ (List.mem_cons_self ..)
      obtain ⟨rfl, rfl⟩ := (h₁.congr hsame₁).unique hloop
      obtain ⟨hlater, hunread₁⟩ := List.pairwise_cons.mp hunread
      refine (List.prefix_cons_inj e₁).mpr (ih hrest hunread₁ ?_)
      intro e' he'
      rw [hkeep e'.read fun hq => hlater e' he' e'.read hq rfl]
      exact hsame e' (List.mem_cons_of_mem e₁ he')

/-- The loop ends. It visits every table but the root once, behind all tables below it, and reads no
entry of a table that it visited, so that it makes the same rounds when every visited table is
freed. -/
theorem ptiter_frees (hd : Radix.Distinct child s.word 3 root) :
    ∃ es, Steps (LoopStep s) (some (ptiter root)) es none ∧ (visits es).Nodup ∧
      (∀ q, q ∈ visits es ↔ q ∈ Radix.nodes child s.word 3 root ∧ q ≠ root) ∧
      (∀ es₁ e es₂ q, es = es₁ ++ e :: es₂ → e.visit = some q →
        (∀ l q', Radix.InTree child s.word 3 root l q → q' ∈ Radix.nodes child s.word l q →
          q' ≠ q → q' ∈ visits es₁) ∧
        ∀ e' ∈ es₂, e'.read ≠ q) ∧
      ∀ es' b, Steps FreeStep (s, some (ptiter root)) es' b → es' <+: es := by
  obtain ⟨es, hrun, hunread, hpost⟩ := ptiter_tour hd
  have hall := List.mem_finRange (n := 512)
  have hnodup := Radix.nodup_postorder (List.nodup_finRange 512) hd
  have hnodup' := hnodup
  rw [← hpost, List.nodup_append] at hnodup'
  obtain ⟨hvisits, -, hroot⟩ := hnodup'
  refine ⟨es, hrun, hvisits, ?_, ?_, ?_⟩
  · intro q
    rw [← Radix.mem_postorder hall, ← hpost, List.mem_append, List.mem_singleton]
    constructor
    · intro hq
      exact ⟨Or.inl hq, hroot q hq root (List.mem_singleton_self root)⟩
    · intro hq
      exact hq.1.resolve_right hq.2
  · intro es₁ e es₂ q hes hq
    have hsplit : Radix.postorder child (List.finRange 512) s.word 3 root =
        visits es₁ ++ q :: (visits es₂ ++ [root]) := by
      rw [← hpost, hes]
      simp only [visits, List.filterMap_append, List.filterMap_cons, hq, List.append_assoc,
        List.cons_append]
    constructor
    · intro l q' hin hq' hne
      exact hin.mem_before hall hnodup hsplit hq' hne
    · intro e' he'
      rw [hes] at hunread
      have htail := (List.pairwise_append.mp hunread).2.1
      exact (List.pairwise_cons.mp htail).1 e' he' q hq
  · intro es' b hfree
    exact freeing_steps hfree hrun hunread fun _ _ => rfl

theorem ptiter_frees_mixed :
    ∃ es, Steps (LoopStep mixedTable) (some (ptiter 1)) es none ∧ (visits es).Nodup ∧
      (∀ q, q ∈ visits es ↔ q ∈ Radix.nodes child mixedTable.word 3 1 ∧ q ≠ 1) ∧
      (∀ es₁ e es₂ q, es = es₁ ++ e :: es₂ → e.visit = some q →
        (∀ l q', Radix.InTree child mixedTable.word 3 1 l q →
          q' ∈ Radix.nodes child mixedTable.word l q → q' ≠ q → q' ∈ visits es₁) ∧
        ∀ e' ∈ es₂, e'.read ≠ q) ∧
      ∀ es' b, Steps FreeStep (mixedTable, some (ptiter 1)) es' b → es' <+: es :=
  ptiter_frees (mixedTable_distinct 3 1)

end Loop

end SystemsProjects.Weensyos
