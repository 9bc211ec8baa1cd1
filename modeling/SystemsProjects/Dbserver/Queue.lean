import SystemsProjects.Lib.LinkedList
import Mathlib.Logic.Function.Basic

/-!
# The work queue of `queue.c`

A queue of connections, kept as a linked list of `task_t` nodes on the heap. `none` as a result
stands for undefined behaviour: the use of `NULL` or of a node that was freed. The mutex that makes
each function one step is left out here, as is the field `count`, which nothing reads.
-/

namespace SystemsProjects.Dbserver

open SystemsProjects.Lib

/-- The address of a node. -/
abbrev Addr := Nat

/-- `struct task` (`queue.h:8-11`); `none` is `NULL`. -/
structure Task where
  next : Option Addr
  fd : Int
  deriving DecidableEq, Repr

/-- The nodes that are allocated. -/
abbrev Nodes := Addr → Option Task

/-- `queue_t` (`queue.h:14-18`). -/
structure Queue where
  head : Option Addr
  tail : Option Addr
  deriving DecidableEq, Repr

/-- The critical section of `enqueue` up to the signal (`queue.c:14-20`). An empty queue is told by
`head` alone: `tail` is not read there. -/
def enqueue (h : Nodes) (q : Queue) (t : Addr) : Option (Nodes × Queue) :=
  match q.head with
  | none => some (h, { head := some t, tail := some t })
  | some _ => do
    let a ← q.tail
    let last ← h a
    return (Function.update h a (some { last with next := some t }), { q with tail := some t })

/-- One pass of `dequeue` with the lock held (`queue.c:30-37`): `none` as the task means that
`head` was `NULL` and the caller waits. The field `tail` is left as it is. -/
def dequeue (h : Nodes) (q : Queue) : Option (Option Addr × Queue) :=
  match q.head with
  | none => some (none, q)
  | some task => do
    let node ← h task
    return (some task, { q with head := node.next })

/-- The loop of `queue_count` (`queue.c:46-49`), with a bound on its passes. -/
def queueCountLoop (h : Nodes) : Nat → Option Addr → Nat → Option Nat
  | _, none, count => some count
  | 0, some _, _ => none
  | fuel + 1, some task, count => do
    let node ← h task
    queueCountLoop h fuel node.next (count + 1)

/-- `queue_count` (`queue.c:42-52`). -/
def queueCount (h : Nodes) (q : Queue) (fuel : Nat) : Option Nat := queueCountLoop h fuel q.head 0

/-! ## What they do to the list -/

/-- A node as the list sees it. -/
def link (h : Nodes) (a : Addr) : Option (Option Addr × Int) :=
  (h a).map fun t => (t.next, t.fd)

/-- The queue holds the tasks `l`: they are the list from `head`, and `tail` is the last of them.
Nothing is asked of `tail` when there is none. -/
structure Holds (h : Nodes) (q : Queue) (l : List (Addr × Int)) : Prop where
  chain : Chain (link h) q.head l
  tail : ∀ n, l.getLast? = some n → q.tail = some n.1

variable {h h' : Nodes} {q : Queue} {l : List (Addr × Int)} {a t : Addr} {fd : Int}

theorem link_eq_some {p : Option Addr} : link h a = some (p, fd) ↔ h a = some ⟨p, fd⟩ := by
  unfold link
  rw [Option.map_eq_some_iff]
  constructor
  · intro hx
    obtain ⟨x, hx, he⟩ := hx
    obtain ⟨rfl, rfl⟩ := Prod.mk.inj he
    exact hx
  · intro hx
    exact ⟨_, hx, rfl⟩

/-- The nodes outside the list do not matter. -/
theorem Holds.congr (hq : Holds h q l) (heq : ∀ x ∈ l.map Prod.fst, h' x = h x) :
    Holds h' q l := by
  refine ⟨hq.chain.congr ?_, hq.tail⟩
  intro x hx
  unfold link
  rw [heq x hx]

/-- Every node of the queue is allocated. -/
theorem Holds.ne_none (hq : Holds h q l) (ha : a ∈ l.map Prod.fst) : h a ≠ none := by
  have hsome := hq.chain.isSome ha
  unfold link at hsome
  rw [Option.isSome_map] at hsome
  exact Option.isSome_iff_ne_none.mp hsome

/-- `enqueue` appended `(t, fd)`; it changed at most one node, and that one is in the queue. -/
def Appended (h : Nodes) (q : Queue) (l : List (Addr × Int)) (t : Addr) (fd : Int) : Prop :=
  ∃ h' q', enqueue h q t = some (h', q') ∧ Holds h' q' (l ++ [(t, fd)]) ∧
    (∀ x, x ∉ l.map Prod.fst → h' x = h x) ∧ ∀ x, h' x = none ↔ h x = none

/-- On an empty queue the stale `tail` is overwritten and not followed. -/
theorem Holds.enqueue_empty (hq : Holds h q []) (hnew : h t = some ⟨none, fd⟩) :
    Appended h q [] t fd := by
  have hhead : q.head = none := by
    have hchain := hq.chain
    generalize q.head = p at hchain
    cases hchain
    rfl
  refine ⟨h, ⟨some t, some t⟩, ?_, ⟨?_, ?_⟩, fun x _ => rfl, fun x => Iff.rfl⟩
  · simp only [Dbserver.enqueue, hhead]
  · exact Chain.cons (link_eq_some.mpr hnew) Chain.nil
  · intro n hn
    obtain rfl := Option.some.inj hn
    rfl

/-- On a queue with a last node `enqueue` writes the `next` of that node. -/
theorem Holds.enqueue_behind {b : Int} (hq : Holds h q (l ++ [(a, b)]))
    (hnew : h t = some ⟨none, fd⟩) (hfresh : t ∉ (l ++ [(a, b)]).map Prod.fst) :
    Appended h q (l ++ [(a, b)]) t fd := by
  have hlast : h a = some ⟨none, b⟩ := link_eq_some.mp hq.chain.last
  have htail : q.tail = some a := hq.tail (a, b) List.getLast?_concat
  have hmem : a ∈ (l ++ [(a, b)]).map Prod.fst :=
    List.mem_map_of_mem (List.mem_append_right l List.mem_cons_self)
  have hne : t ≠ a := ne_of_mem_of_not_mem hmem hfresh |>.symm
  have honce : a ∉ l.map Prod.fst := hq.chain.last_notMem
  obtain ⟨p, hp⟩ : ∃ p, q.head = some p := by
    cases hp : q.head with
    | some p => exact ⟨p, rfl⟩
    | none =>
      have hnil := (hp ▸ hq.chain).eq_nil
      exact absurd hnil (List.append_ne_nil_of_right_ne_nil l (List.cons_ne_nil _ _))
  refine ⟨Function.update h a (some ⟨some t, b⟩), { q with tail := some t }, ?_, ⟨?_, ?_⟩, ?_, ?_⟩
  · simp only [Dbserver.enqueue, hp, htail, Option.bind_eq_bind, Option.bind_some, hlast]
    rfl
  · apply hq.chain.snoc
    · exact link_eq_some.mpr (Function.update_self a _ h)
    · exact link_eq_some.mpr ((Function.update_of_ne hne _ h).trans hnew)
    · intro x hx
      unfold link
      rw [Function.update_of_ne (ne_of_mem_of_not_mem hx honce)]
  · intro n hn
    rw [List.getLast?_concat] at hn
    obtain rfl := Option.some.inj hn
    rfl
  · intro x hx
    exact Function.update_of_ne (ne_of_mem_of_not_mem hmem hx).symm _ h
  · intro x
    by_cases hxa : x = a
    · rw [hxa, Function.update_self, hlast]
      exact iff_of_false (Option.some_ne_none _) (Option.some_ne_none _)
    · rw [Function.update_of_ne hxa]

/-- `enqueue` of a node that is not in the queue appends it. -/
theorem Holds.enqueue (hq : Holds h q l) (hnew : h t = some ⟨none, fd⟩)
    (hfresh : t ∉ l.map Prod.fst) : Appended h q l t fd := by
  rcases List.eq_nil_or_concat l with hl | ⟨l', n, hl⟩
  · subst hl
    exact hq.enqueue_empty hnew
  · rw [List.concat_eq_append] at hl
    subst hl
    exact hq.enqueue_behind hnew hfresh

/-- `dequeue` on an empty queue waits; otherwise it takes the first task and nothing else. -/
theorem Holds.dequeue (hq : Holds h q l) :
    (l = [] ∧ q.head = none ∧ dequeue h q = some (none, q)) ∨
    (∃ n l' q', l = n :: l' ∧ q.head = some n.1 ∧ (∃ p, h n.1 = some ⟨p, n.2⟩) ∧
      dequeue h q = some (some n.1, q') ∧ Holds h q' l') := by
  obtain ⟨hchain, htail⟩ := hq
  cases hp : q.head with
  | none =>
    rw [hp] at hchain
    exact Or.inl ⟨hchain.eq_nil, rfl, by simp only [Dbserver.dequeue, hp]⟩
  | some a =>
    rw [hp] at hchain
    cases hchain with
    | @cons _ b p l' hlink hrest =>
      have hnode : h a = some ⟨p, b⟩ := link_eq_some.mp hlink
      refine Or.inr ⟨(a, b), l', { q with head := p }, rfl, rfl, ⟨p, hnode⟩, ?_, hrest, ?_⟩
      · simp only [Dbserver.dequeue, hp, hnode, Option.bind_eq_bind, Option.bind_some]
        rfl
      · intro n hn
        refine htail n ?_
        rw [List.getLast?_cons, hn]
        rfl

/-- With room for its passes `queue_count` returns the number of tasks. -/
theorem queueCountLoop_eq {p : Option Addr} (hc : Chain (link h) p l) :
    ∀ fuel count, l.length ≤ fuel → queueCountLoop h fuel p count = some (count + l.length) := by
  induction hc with
  | nil =>
    intro fuel count _
    cases fuel <;> rfl
  | cons hlink _ ih =>
    intro fuel count hfuel
    obtain ⟨fuel, rfl⟩ : ∃ n, fuel = n + 1 :=
      Nat.exists_eq_add_one.mpr (Nat.lt_of_lt_of_le (Nat.succ_pos _) hfuel)
    rw [queueCountLoop, link_eq_some.mp hlink]
    refine (ih fuel (count + 1) (Nat.le_of_succ_le_succ hfuel)).trans ?_
    rw [List.length_cons, Nat.add_assoc, Nat.add_comm 1]

theorem Holds.queueCount (hq : Holds h q l) {fuel : Nat} (hfuel : l.length ≤ fuel) :
    queueCount h q fuel = some l.length := by
  unfold Dbserver.queueCount
  rw [queueCountLoop_eq hq.chain fuel 0 hfuel, Nat.zero_add]

end SystemsProjects.Dbserver
