import Mathlib.Data.Set.Insert
import Mathlib.Data.Set.Disjoint

/-!
# Radix trees in a store

A node is a table of entries, and some entries lead to a node one level below (`child`). A key gives
an index for each level, and `walk` follows it from a node until an entry leads nowhere or level 0
is reached. When no two entries lead to the same node (`Distinct`), writing the entry where the walk
of one key ends does not change the walks of the keys that part from it before.
-/

namespace SystemsProjects.Lib.Radix

variable {N I E : Type} (child : E → Option N)

/-- The nodes below node `p` of level `l`, with `p` itself. -/
def nodes (s : N → I → E) : Nat → N → Set N
  | 0, p => {p}
  | l + 1, p => insert p {q | ∃ i c, child (s p i) = some c ∧ q ∈ nodes s l c}

/-- No node is met twice. -/
def Distinct (s : N → I → E) : Nat → N → Prop
  | 0, _ => True
  | l + 1, p =>
    (∀ i c, child (s p i) = some c → Distinct s l c ∧ p ∉ nodes child s l c) ∧
    ∀ i j c d, child (s p i) = some c → child (s p j) = some d → i ≠ j →
      Disjoint (nodes child s l c) (nodes child s l d)

/-- All entries have the property `P` of their level. -/
def AllEntries (P : Nat → E → Prop) (s : N → I → E) : Nat → N → Prop
  | 0, p => ∀ i, P 0 (s p i)
  | l + 1, p => (∀ i, P (l + 1) (s p i)) ∧
      ∀ i c, child (s p i) = some c → AllEntries P s l c

/-- The level and the node where the walk of a key ends. -/
def walk (s : N → I → E) (key : Nat → I) : Nat → N → Nat × N
  | 0, p => (0, p)
  | l + 1, p =>
    match child (s p (key (l + 1))) with
    | some c => walk s key l c
    | none => (l + 1, p)

variable {child} {s s' : N → I → E} {key key' : Nat → I} {l m : Nat} {p q n c : N} {i : I}

/-! ## Walks -/

theorem self_mem_nodes : p ∈ nodes child s l p := by
  cases l with
  | zero => exact Set.mem_singleton p
  | succ l => exact Set.mem_insert p _

theorem nodes_of_child (h : child (s p i) = some c) :
    nodes child s l c ⊆ nodes child s (l + 1) p :=
  fun _ hq => Set.mem_insert_of_mem _ ⟨i, c, h, hq⟩

theorem walk_some (h : child (s p (key (l + 1))) = some c) :
    walk child s key (l + 1) p = walk child s key l c := by
  simp only [walk, h]

theorem walk_none (h : child (s p (key (l + 1))) = none) :
    walk child s key (l + 1) p = (l + 1, p) := by
  simp only [walk, h]

/-- A walk ends at one of the nodes, at its level or below. -/
theorem walk_mem (child : E → Option N) (s : N → I → E) (key : Nat → I) (l : Nat) (p : N) :
    (walk child s key l p).2 ∈ nodes child s l p := by
  induction l generalizing p with
  | zero => exact Set.mem_singleton p
  | succ l ih =>
    cases h : child (s p (key (l + 1))) with
    | none =>
      rw [walk_none h]
      exact self_mem_nodes
    | some c =>
      rw [walk_some h]
      exact nodes_of_child h (ih c)

theorem walk_le (child : E → Option N) (s : N → I → E) (key : Nat → I) (l : Nat) (p : N) :
    (walk child s key l p).1 ≤ l := by
  induction l generalizing p with
  | zero => exact le_rfl
  | succ l ih =>
    cases h : child (s p (key (l + 1))) with
    | none => rw [walk_none h]
    | some c =>
      rw [walk_some h]
      exact Nat.le_succ_of_le (ih c)

/-- Above level 0 a walk ends at an entry that leads nowhere. -/
theorem walk_end (h : walk child s key l p = (m + 1, q)) : child (s q (key (m + 1))) = none := by
  induction l generalizing p with
  | zero => exact absurd (Prod.mk.inj h).1 (Nat.succ_ne_zero m).symm
  | succ l ih =>
    cases hc : child (s p (key (l + 1))) with
    | none =>
      rw [walk_none hc] at h
      obtain ⟨hm, rfl⟩ := Prod.mk.inj h
      rw [← hm]
      exact hc
    | some c =>
      rw [walk_some hc] at h
      exact ih h

theorem walk_eq_mem (h : walk child s key l p = (m, q)) : q ∈ nodes child s l p ∧ m ≤ l := by
  have hmem := walk_mem child s key l p
  have hle := walk_le child s key l p
  rw [h] at hmem hle
  exact ⟨hmem, hle⟩

theorem allEntries_of_forall {P : Nat → E → Prop} (h : ∀ l p i, P l (s p i)) (l : Nat) (p : N) :
    AllEntries child P s l p := by
  induction l generalizing p with
  | zero => exact h 0 p
  | succ l ih => exact ⟨h (l + 1) p, fun _ c _ => ih c⟩

/-- The entry where a walk ends is one of the entries. -/
theorem AllEntries.at_end {P : Nat → E → Prop} (ha : AllEntries child P s l p)
    (h : walk child s key l p = (m, q)) : P m (s q (key m)) := by
  induction l generalizing p with
  | zero =>
    obtain ⟨rfl, rfl⟩ := Prod.mk.inj h
    exact ha (key 0)
  | succ l ih =>
    cases hc : child (s p (key (l + 1))) with
    | none =>
      rw [walk_none hc] at h
      obtain ⟨rfl, rfl⟩ := Prod.mk.inj h
      exact ha.1 (key (l + 1))
    | some c =>
      rw [walk_some hc] at h
      exact ih (ha.2 _ c hc) h

/-! ## Stores that agree on the nodes -/

section Level
variable (hp : s' p = s p)
include hp

/-- A node that stays has the nodes below it, if those of its children stay. -/
theorem nodes_level (h : ∀ i c, child (s p i) = some c → nodes child s' l c = nodes child s l c) :
    nodes child s' (l + 1) p = nodes child s (l + 1) p := by
  simp only [nodes, hp]
  congr 1
  ext q
  constructor
  · intro hq
    obtain ⟨i, c, hc, hq⟩ := hq
    exact ⟨i, c, hc, h i c hc ▸ hq⟩
  · intro hq
    obtain ⟨i, c, hc, hq⟩ := hq
    exact ⟨i, c, hc, (h i c hc).symm ▸ hq⟩

theorem Distinct.level (hd : Distinct child s (l + 1) p)
    (h : ∀ i c, child (s p i) = some c →
      nodes child s' l c = nodes child s l c ∧ Distinct child s' l c) :
    Distinct child s' (l + 1) p := by
  refine ⟨?_, ?_⟩
  · intro i c hc
    rw [hp] at hc
    rw [(h i c hc).1]
    exact ⟨(h i c hc).2, (hd.1 i c hc).2⟩
  · intro i j c d hc hcd hij
    rw [hp] at hc hcd
    rw [(h i c hc).1, (h j d hcd).1]
    exact hd.2 i j c d hc hcd hij

theorem AllEntries.level {P : Nat → E → Prop} (ha : AllEntries child P s (l + 1) p)
    (h : ∀ i c, child (s p i) = some c → AllEntries child P s' l c) :
    AllEntries child P s' (l + 1) p := by
  refine ⟨?_, ?_⟩
  · intro i
    rw [hp]
    exact ha.1 i
  · intro i c hc
    rw [hp] at hc
    exact h i c hc

end Level

/-- A walk goes on as before if the entry it meets stays. -/
theorem walk_level (hentry : s' p (key (l + 1)) = s p (key (l + 1)))
    (h : ∀ c, child (s p (key (l + 1))) = some c → walk child s' key l c = walk child s key l c) :
    walk child s' key (l + 1) p = walk child s key (l + 1) p := by
  cases hc : child (s p (key (l + 1))) with
  | none => rw [walk_none hc, walk_none (by rw [hentry]; exact hc)]
  | some c =>
    rw [walk_some hc, walk_some (c := c) (by rw [hentry]; exact hc)]
    exact h c hc

theorem nodes_congr (h : ∀ q ∈ nodes child s l p, s' q = s q) :
    nodes child s' l p = nodes child s l p := by
  induction l generalizing p with
  | zero => rfl
  | succ l ih =>
    exact nodes_level (h p self_mem_nodes) fun i c hc =>
      ih fun q hq => h q (nodes_of_child hc hq)

theorem Distinct.congr (hd : Distinct child s l p) (h : ∀ q ∈ nodes child s l p, s' q = s q) :
    Distinct child s' l p := by
  induction l generalizing p with
  | zero => exact trivial
  | succ l ih =>
    refine hd.level (h p self_mem_nodes) fun i c hc => ?_
    have hsub : ∀ q ∈ nodes child s l c, s' q = s q := fun q hq => h q (nodes_of_child hc hq)
    exact ⟨nodes_congr hsub, ih (hd.1 i c hc).1 hsub⟩

theorem AllEntries.congr {P : Nat → E → Prop} (ha : AllEntries child P s l p)
    (h : ∀ q ∈ nodes child s l p, s' q = s q) : AllEntries child P s' l p := by
  induction l generalizing p with
  | zero =>
    have hp := h p self_mem_nodes
    intro i
    rw [hp]
    exact ha i
  | succ l ih =>
    exact ha.level (h p self_mem_nodes) fun i c hc =>
      ih (ha.2 i c hc) fun q hq => h q (nodes_of_child hc hq)

theorem walk_congr (h : ∀ q ∈ nodes child s l p, s' q = s q) :
    walk child s' key l p = walk child s key l p := by
  induction l generalizing p with
  | zero => rfl
  | succ l ih =>
    exact walk_level (by rw [h p self_mem_nodes]) fun c hc =>
      ih fun q hq => h q (nodes_of_child hc hq)

/-! ## Writing one entry -/

/-- The nodes below `p` keep their entries, but for entry `i` of node `q`. -/
def KeepsBut (child : E → Option N) (s s' : N → I → E) (l : Nat) (p q : N) (i : I) : Prop :=
  ∀ p' ∈ nodes child s l p, ∀ j, (p' = q → j ≠ i) → s' p' j = s p' j

theorem KeepsBut.below (h : KeepsBut child s s' (l + 1) p q i) {j : I}
    (hc : child (s p j) = some c) : KeepsBut child s s' l c q i :=
  fun p' hp' => h p' (nodes_of_child hc hp')

/-- Nodes other than `q` keep all entries. -/
theorem KeepsBut.of_ne (h : KeepsBut child s s' l p q i) {p' : N} (hp' : p' ∈ nodes child s l p)
    (hne : p' ≠ q) : s' p' = s p' :=
  funext fun j => h p' hp' j fun he => absurd he hne

theorem KeepsBut.of_notMem (h : KeepsBut child s s' l p q i) (hq : q ∉ nodes child s l p) :
    ∀ p' ∈ nodes child s l p, s' p' = s p' :=
  fun _ hp' => h.of_ne hp' fun he => hq (he ▸ hp')

/-- The walk of `key` and the entry where it ends are the same in both stores. -/
def SameWalk (child : E → Option N) (s s' : N → I → E) (key : Nat → I) (l : Nat) (p : N) : Prop :=
  walk child s' key l p = walk child s key l p ∧
    s' (walk child s key l p).2 (key (walk child s key l p).1) =
      s (walk child s key l p).2 (key (walk child s key l p).1)

theorem SameWalk.of_nodes (h : ∀ q ∈ nodes child s l p, s' q = s q) :
    SameWalk child s s' key l p :=
  ⟨walk_congr h, by rw [h _ (walk_mem child s key l p)]⟩

/-- From a node whose entry stays, with the walk below it. -/
theorem SameWalk.level (hentry : s' p (key (l + 1)) = s p (key (l + 1)))
    (hrest : ∀ c, child (s p (key (l + 1))) = some c → SameWalk child s s' key l c) :
    SameWalk child s s' key (l + 1) p := by
  unfold SameWalk
  cases hc : child (s p (key (l + 1))) with
  | none =>
    rw [walk_none hc, walk_none (by rw [hentry]; exact hc)]
    exact ⟨rfl, hentry⟩
  | some c =>
    rw [walk_some hc, walk_some (c := c) (by rw [hentry]; exact hc)]
    exact hrest c hc

section Walk
variable (hd : Distinct child s l p)
include hd

/-- Keys that part from `key` no later than at the entry written are not affected: their walks and
the entries there stay. -/
theorem walk_off (hw : walk child s key l p = (m, q)) (hk : KeepsBut child s s' l p q (key m))
    {j : Nat} (hmj : m ≤ j) (hjl : j ≤ l) (hne : key' j ≠ key j) :
    SameWalk child s s' key' l p := by
  induction l generalizing p with
  | zero =>
    obtain ⟨rfl, rfl⟩ := Prod.mk.inj hw
    obtain rfl := Nat.le_zero.mp hjl
    exact ⟨rfl, hk p self_mem_nodes _ fun _ => hne⟩
  | succ l ih =>
    cases hc : child (s p (key (l + 1))) with
    | none =>
      -- the entry of `p` on the way of `key` is the one written
      rw [walk_none hc] at hw
      obtain ⟨rfl, rfl⟩ := Prod.mk.inj hw
      obtain rfl := Nat.le_antisymm hjl hmj
      apply SameWalk.level (hk p self_mem_nodes _ fun _ => hne)
      intro c hc'
      exact .of_nodes ((hk.below hc').of_notMem (hd.1 _ c hc').2)
    | some c =>
      rw [walk_some hc] at hw
      have hq := (walk_eq_mem hw).1
      have hpq : p ≠ q := fun he => (hd.1 _ c hc).2 (he ▸ hq)
      apply SameWalk.level (by rw [hk.of_ne self_mem_nodes hpq])
      intro d hc'
      by_cases hkey : key' (l + 1) = key (l + 1)
      · rw [hkey, hc] at hc'
        obtain rfl := Option.some.inj hc'
        have hjl' : j ≤ l := by
          rcases Nat.le_succ_iff.mp hjl with h | h
          · exact h
          · rw [h] at hne
            exact absurd hkey hne
        exact ih (hd.1 _ c hc).1 hw (hk.below hc) hjl'
      · have hdis := hd.2 _ _ c d hc hc' (Ne.symm hkey)
        exact .of_nodes ((hk.below hc').of_notMem (Set.disjoint_left.mp hdis hq))

/-- Keys that agree with `key` down to the entry written go through it. -/
theorem walk_on (hw : walk child s key l p = (m + 1, q))
    (hk : KeepsBut child s s' l p q (key (m + 1))) (hnew : child (s' q (key (m + 1))) = some n)
    (heq : ∀ j, m + 1 ≤ j → j ≤ l → key' j = key j) :
    walk child s key' l p = (m + 1, q) ∧ walk child s' key' l p = walk child s' key' m n := by
  induction l generalizing p with
  | zero => exact absurd (Prod.mk.inj hw).1 (Nat.succ_ne_zero m).symm
  | succ l ih =>
    have hkey := heq (l + 1) (walk_eq_mem hw).2 le_rfl
    cases hc : child (s p (key (l + 1))) with
    | none =>
      rw [walk_none hc] at hw
      obtain ⟨hm, rfl⟩ := Prod.mk.inj hw
      obtain rfl := Nat.succ.inj hm
      exact ⟨walk_none (by rw [hkey]; exact hc), walk_some (by rw [hkey]; exact hnew)⟩
    | some c =>
      rw [walk_some hc] at hw
      have hq := (walk_eq_mem hw).1
      have hpq : p ≠ q := fun he => (hd.1 _ c hc).2 (he ▸ hq)
      have hrec := ih (hd.1 _ c hc).1 hw (hk.below hc)
        fun j hj hjl => heq j hj (Nat.le_succ_of_le hjl)
      rw [walk_some (c := c) (by rw [hkey]; exact hc),
        walk_some (c := c) (by rw [hk.of_ne self_mem_nodes hpq, hkey]; exact hc)]
      exact hrec

end Walk

/-! ## Linking a new node -/

/-- A node without children is a tree of its own. -/
theorem nodes_leaf (h : ∀ i, child (s n i) = none) : nodes child s l n = {n} := by
  cases l with
  | zero => rfl
  | succ l =>
    ext q
    constructor
    · intro hq
      rcases Set.mem_insert_iff.mp hq with hq | ⟨i, c, hc, -⟩
      · exact hq
      · exact absurd ((h i).symm.trans hc) (Option.some_ne_none c).symm
    · intro hq
      exact Set.mem_insert_iff.mpr (.inl hq)

theorem distinct_leaf (h : ∀ i, child (s n i) = none) : Distinct child s l n := by
  cases l with
  | zero => exact trivial
  | succ l =>
    refine ⟨fun i c hc => ?_, fun i j c d hc => ?_⟩
    · exact absurd ((h i).symm.trans hc) (Option.some_ne_none c).symm
    · exact absurd ((h i).symm.trans hc) (Option.some_ne_none c).symm

theorem allEntries_leaf {P : Nat → E → Prop} (h : ∀ i, child (s n i) = none)
    (hP : ∀ l i, P l (s n i)) : AllEntries child P s l n := by
  cases l with
  | zero => exact hP 0
  | succ l =>
    refine ⟨hP (l + 1), fun i c hc => ?_⟩
    exact absurd ((h i).symm.trans hc) (Option.some_ne_none c).symm

/-- A new node `n` without children is linked where the walk of `key` ends. -/
structure Linked (child : E → Option N) (s s' : N → I → E) (key : Nat → I) (l m : Nat)
    (p q n : N) : Prop where
  ends : walk child s key l p = (m + 1, q)
  keeps : KeepsBut child s s' l p q (key (m + 1))
  entry : child (s' q (key (m + 1))) = some n
  fresh : n ∉ nodes child s l p
  leaf : ∀ i, child (s' n i) = none

/-- Linking below node `p`: in the child on the way of `key`, or at the entry of `p` itself. -/
theorem Linked.cases_succ (h : Linked child s s' key (l + 1) m p q n)
    (hd : Distinct child s (l + 1) p) :
    (∃ c, child (s p (key (l + 1))) = some c ∧ s' p = s p ∧ Linked child s s' key l m c q n) ∨
    (child (s p (key (l + 1))) = none ∧ child (s' p (key (l + 1))) = some n ∧ p = q ∧ m = l) := by
  have hw := h.ends
  cases hc : child (s p (key (l + 1))) with
  | none =>
    rw [walk_none hc] at hw
    obtain ⟨hm, rfl⟩ := Prod.mk.inj hw
    obtain rfl := Nat.succ.inj hm
    exact .inr ⟨rfl, h.entry, rfl, rfl⟩
  | some c =>
    rw [walk_some hc] at hw
    have hpq : p ≠ q := fun he => (hd.1 _ c hc).2 (he ▸ (walk_eq_mem hw).1)
    exact .inl ⟨c, rfl, h.keeps.of_ne self_mem_nodes hpq,
      ⟨hw, h.keeps.below hc, h.entry, fun hn => h.fresh (nodes_of_child hc hn), h.leaf⟩⟩

/-- The other entries of `p` stay, and so do the trees they lead to. -/
theorem Linked.other (h : Linked child s s' key (l + 1) m p q n)
    (hd : Distinct child s (l + 1) p) {i : I} (hi : i ≠ key (l + 1)) :
    s' p i = s p i ∧ ∀ c, child (s p i) = some c → ∀ p' ∈ nodes child s l c, s' p' = s p' := by
  rcases h.cases_succ hd with ⟨d, hd', hp, hlink⟩ | ⟨-, -, rfl, rfl⟩
  · refine ⟨by rw [hp], fun c hc => ?_⟩
    have hdis := hd.2 _ _ d c hd' hc (Ne.symm hi)
    exact (h.keeps.below hc).of_notMem
      (Set.disjoint_left.mp hdis (walk_eq_mem hlink.ends).1)
  · refine ⟨h.keeps p self_mem_nodes i fun _ => hi, fun c hc => ?_⟩
    exact (h.keeps.below hc).of_notMem (hd.1 i c hc).2

/-! A node `n` may come in below one entry of `p`, and nothing else changes. -/

section Gain
variable {k : I} (hsub : ∀ i c, child (s' p i) = some c → ∀ x ∈ nodes child s' l c,
  x = n ∧ i = k ∨ ∃ d, child (s p i) = some d ∧ x ∈ nodes child s l d)
include hsub

theorem nodes_gain (hn : n ∈ nodes child s' (l + 1) p)
    (hkeep : nodes child s (l + 1) p ⊆ nodes child s' (l + 1) p) :
    nodes child s' (l + 1) p = insert n (nodes child s (l + 1) p) := by
  apply Set.Subset.antisymm
  · intro x hx
    rcases Set.mem_insert_iff.mp hx with rfl | ⟨i, c, hc, hx⟩
    · exact Set.mem_insert_of_mem _ self_mem_nodes
    · rcases hsub i c hc x hx with ⟨rfl, -⟩ | ⟨d, hd, hx⟩
      · exact Set.mem_insert _ _
      · exact Set.mem_insert_of_mem _ (nodes_of_child hd hx)
  · exact Set.insert_subset hn hkeep

theorem Distinct.gain (hd : Distinct child s (l + 1) p) (hfresh : n ∉ nodes child s (l + 1) p)
    (hdis : ∀ i c, child (s' p i) = some c → Distinct child s' l c) :
    Distinct child s' (l + 1) p := by
  have hpn : p ≠ n := fun he => hfresh (he ▸ self_mem_nodes)
  refine ⟨fun i c hc => ⟨hdis i c hc, fun hp => ?_⟩, fun i j c d hc hcd hij => ?_⟩
  · rcases hsub i c hc p hp with ⟨he, -⟩ | ⟨d, hd', hp⟩
    · exact hpn he
    · exact (hd.1 i d hd').2 hp
  · rw [Set.disjoint_left]
    intro x hx hx'
    have hold : ∀ i d, child (s p i) = some d → x ∈ nodes child s l d → x ≠ n :=
      fun i d hd' hx he => hfresh (he ▸ nodes_of_child hd' hx)
    rcases hsub i c hc x hx with ⟨rfl, hi⟩ | ⟨c₀, hc₀, hx₀⟩ <;>
      rcases hsub j d hcd x hx' with ⟨hxn, hj⟩ | ⟨d₀, hd₀, hx₁⟩
    · exact hij (hi.trans hj.symm)
    · exact hold j d₀ hd₀ hx₁ rfl
    · exact hold i c₀ hc₀ hx₀ hxn
    · exact Set.disjoint_left.mp (hd.2 i j c₀ d₀ hc₀ hd₀ hij) hx₀ hx₁

end Gain

/-- Exactly the new node comes in, and it is met once. -/
theorem Linked.tree (h : Linked child s s' key l m p q n) (hd : Distinct child s l p) :
    nodes child s' l p = insert n (nodes child s l p) ∧ Distinct child s' l p := by
  induction l generalizing p with
  | zero => exact absurd (Prod.mk.inj h.ends).1 (Nat.succ_ne_zero m).symm
  | succ l ih =>
    -- the tree on the way of `key` gets the new node
    obtain ⟨c', hc', hnodes, hdis⟩ : ∃ c', child (s' p (key (l + 1))) = some c' ∧
        nodes child s' l c' =
          insert n {x | ∃ c, child (s p (key (l + 1))) = some c ∧ x ∈ nodes child s l c} ∧
        Distinct child s' l c' := by
      rcases h.cases_succ hd with ⟨c, hc, hp, hlink⟩ | ⟨hnone, hsome, -, -⟩
      · obtain ⟨hnodes, hdis⟩ := ih hlink (hd.1 _ c hc).1
        refine ⟨c, by rw [hp]; exact hc, ?_, hdis⟩
        rw [hnodes]
        simp only [hc, Option.some.injEq, exists_eq_left', Set.ofPred_mem_eq]
      · refine ⟨n, hsome, ?_, distinct_leaf h.leaf⟩
        rw [nodes_leaf h.leaf]
        simp only [hnone, reduceCtorEq, false_and, exists_false, Set.ofPred_false,
          insert_empty_eq]
    -- the other trees stay
    have hother : ∀ i, i ≠ key (l + 1) → ∀ c, child (s' p i) = some c →
        child (s p i) = some c ∧ nodes child s' l c = nodes child s l c ∧
          Distinct child s' l c := by
      intro i hi c hc
      obtain ⟨hentry, hsame⟩ := h.other hd hi
      rw [hentry] at hc
      exact ⟨hc, nodes_congr (hsame c hc), (hd.1 i c hc).1.congr (hsame c hc)⟩
    have hsub : ∀ i c, child (s' p i) = some c → ∀ x ∈ nodes child s' l c,
        x = n ∧ i = key (l + 1) ∨ ∃ d, child (s p i) = some d ∧ x ∈ nodes child s l d := by
      intro i c hc x hx
      by_cases hi : i = key (l + 1)
      · subst hi
        obtain rfl := Option.some.inj (hc.symm.trans hc')
        rw [hnodes] at hx
        rcases Set.mem_insert_iff.mp hx with hx | hx
        · exact .inl ⟨hx, rfl⟩
        · exact .inr hx
      · obtain ⟨hc, hn, -⟩ := hother i hi c hc
        exact .inr ⟨c, hc, hn ▸ hx⟩
    refine ⟨nodes_gain hsub (nodes_of_child hc' (by rw [hnodes]; exact Set.mem_insert _ _)) ?_,
      hd.gain hsub h.fresh fun i c hc => ?_⟩
    · intro x hx
      rcases Set.mem_insert_iff.mp hx with rfl | ⟨i, c, hc, hx⟩
      · exact self_mem_nodes
      · by_cases hi : i = key (l + 1)
        · subst hi
          exact nodes_of_child hc' (by rw [hnodes]; exact Set.mem_insert_of_mem _ ⟨c, hc, hx⟩)
        · obtain ⟨hentry, hsame⟩ := h.other hd hi
          rw [← nodes_congr (hsame c hc)] at hx
          exact nodes_of_child (by rw [hentry]; exact hc) hx
    · by_cases hi : i = key (l + 1)
      · subst hi
        obtain rfl := Option.some.inj (hc.symm.trans hc')
        exact hdis
      · exact (hother i hi c hc).2.2

theorem Linked.allEntries {P : Nat → E → Prop} (h : Linked child s s' key l m p q n)
    (hd : Distinct child s l p) (ha : AllEntries child P s l p)
    (hnew : P (m + 1) (s' q (key (m + 1)))) (hleaf : ∀ l i, P l (s' n i)) :
    AllEntries child P s' l p := by
  induction l generalizing p with
  | zero => exact absurd (Prod.mk.inj h.ends).1 (Nat.succ_ne_zero m).symm
  | succ l ih =>
    refine ⟨fun i => ?_, fun i c hc => ?_⟩
    · by_cases hi : i = key (l + 1)
      · rcases h.cases_succ hd with ⟨c, -, hp, -⟩ | ⟨-, -, rfl, rfl⟩
        · rw [hp]
          exact ha.1 i
        · rw [hi]
          exact hnew
      · rw [(h.other hd hi).1]
        exact ha.1 i
    · by_cases hi : i = key (l + 1)
      · rcases h.cases_succ hd with ⟨d, hd', hp, hlink⟩ | ⟨-, hsome, -, -⟩
        · rw [hp, hi, hd'] at hc
          obtain rfl := Option.some.inj hc
          exact ih hlink (hd.1 _ d hd').1 (ha.2 _ d hd')
        · rw [hi, hsome] at hc
          obtain rfl := Option.some.inj hc
          exact allEntries_leaf h.leaf hleaf
      · obtain ⟨hentry, hsame⟩ := h.other hd hi
        rw [hentry] at hc
        exact (ha.2 i c hc).congr (hsame c hc)

/-! ## Writing an entry of level 0 -/

section Leaf
variable (hw : walk child s key l p = (0, q)) (hk : KeepsBut child s s' l p q (key 0))
  (hd : Distinct child s l p)
include hw hk hd

/-- Above level 0 nothing is written: the tree stays, with each entry of its level. -/
theorem tree_of_leaf {P : Nat → E → Prop} (ha : AllEntries child P s l p)
    (hnew : P 0 (s' q (key 0))) :
    nodes child s' l p = nodes child s l p ∧ Distinct child s' l p ∧
      AllEntries child P s' l p ∧ ∀ key', walk child s' key' l p = walk child s key' l p := by
  induction l generalizing p with
  | zero =>
    obtain ⟨-, rfl⟩ := Prod.mk.inj hw
    refine ⟨rfl, trivial, fun i => ?_, fun _ => rfl⟩
    by_cases hi : i = key 0
    · rw [hi]
      exact hnew
    · rw [hk p self_mem_nodes i fun _ => hi]
      exact ha i
  | succ l ih =>
    cases hc : child (s p (key (l + 1))) with
    | none =>
      rw [walk_none hc] at hw
      exact absurd (Prod.mk.inj hw).1 (Nat.succ_ne_zero l)
    | some c =>
      rw [walk_some hc] at hw
      have hq := (walk_eq_mem hw).1
      have hp : s' p = s p :=
        hk.of_ne self_mem_nodes fun he => (hd.1 _ c hc).2 (he ▸ hq)
      -- each child is the one on the way of `key`, or is not written at all
      have hchild : ∀ i d, child (s p i) = some d → nodes child s' l d = nodes child s l d ∧
          Distinct child s' l d ∧ AllEntries child P s' l d ∧
          ∀ key', walk child s' key' l d = walk child s key' l d := by
        intro i d hid
        by_cases hi : i = key (l + 1)
        · rw [hi, hc] at hid
          obtain rfl := Option.some.inj hid
          exact ih hw (hk.below hc) (hd.1 _ c hc).1 (ha.2 _ c hc)
        · have hdis := hd.2 _ _ c d hc hid (Ne.symm hi)
          have hsame := (hk.below hid).of_notMem (Set.disjoint_left.mp hdis hq)
          exact ⟨nodes_congr hsame, (hd.1 i d hid).1.congr hsame, (ha.2 i d hid).congr hsame,
            fun _ => walk_congr hsame⟩
      refine ⟨?_, ?_, ?_, fun key' => ?_⟩
      · exact nodes_level hp fun i d hid => (hchild i d hid).1
      · exact hd.level hp fun i d hid => ⟨(hchild i d hid).1, (hchild i d hid).2.1⟩
      · exact ha.level hp fun i d hid => (hchild i d hid).2.2.1
      · exact walk_level (by rw [hp]) fun d hid => (hchild _ d hid).2.2.2 key'

end Leaf

end SystemsProjects.Lib.Radix
