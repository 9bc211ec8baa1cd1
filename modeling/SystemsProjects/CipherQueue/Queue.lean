import SystemsProjects.Lib.LinkedList
import Mathlib.Data.List.Intervals
import Mathlib.Data.List.Perm.Subperm

/-!
# The queue of strings

`queue.c` (`lab1-TheCarton-main/part2`) with its nodes and strings on a heap. An address is the
number of an allocation, so that no address is used twice and a use of freed memory is a fault.
-/

namespace SystemsProjects.CipherQueue

open SystemsProjects.Lib

/-- Undefined behaviour: the use of `NULL` as a string or as a node, the use of memory that is not
allocated, and a loop that is not over after the rounds it was given. -/
inductive Fault where
  | nullString
  | nullNode
  | dangling
  | running
  deriving DecidableEq, Repr

/-- A pointer; `none` is `NULL`. -/
abbrev Ptr := Option Nat

/-- What one `malloc` returned: a `node_t` (`queue.h:7-10`) or a string. -/
inductive Block where
  | node (next data : Ptr)
  | string (s : List UInt8)
  deriving DecidableEq, Repr

/-- The allocations so far, oldest first; a freed one is `none`. -/
abbrev Heap := List (Option Block)

/-- `queue_t` (`queue.h:13-16`). -/
structure Queue where
  head : Ptr
  tail : Ptr
  deriving DecidableEq, Repr

/-- What is allocated at an address. -/
def Heap.block (h : Heap) (a : Nat) : Option Block := (h[a]?).join

/-- The fields of the node behind a pointer. -/
def Heap.loadNode (h : Heap) (p : Ptr) : Except Fault (Ptr × Ptr) :=
  match p with
  | none => .error .nullNode
  | some a =>
    match h.block a with
    | some (.node next data) => .ok (next, data)
    | _ => .error .dangling

/-- The string behind a pointer. -/
def Heap.loadString (h : Heap) (p : Ptr) : Except Fault (List UInt8) :=
  match p with
  | none => .error .nullString
  | some a =>
    match h.block a with
    | some (.string s) => .ok s
    | _ => .error .dangling

/-- `p->next = next`. -/
def Heap.setNext (h : Heap) (p next : Ptr) : Except Fault Heap :=
  match p with
  | none => .error .nullNode
  | some a =>
    match h.block a with
    | some (.node _ data) => .ok (h.set a (some (.node next data)))
    | _ => .error .dangling

/-- `free`; freeing `NULL` does nothing. -/
def Heap.free (h : Heap) (p : Ptr) : Except Fault Heap :=
  match p with
  | none => .ok h
  | some a => if (h.block a).isSome then .ok (h.set a none) else .error .dangling

/-- `enqueue` (`queue.c:11-25`). -/
def enqueue (h : Heap) (q : Queue) (data : Option (List UInt8)) : Except Fault (Heap × Queue) :=
  match data with
  | none => .error .nullString
  | some s =>
    let newNode := h.length
    let h := h ++ [some (.node none (some (h.length + 1))), some (.string s)]
    if q.head = none then .ok (h, ⟨some newNode, some newNode⟩)
    else (h.setNext q.tail (some newNode)).map fun h => (h, { q with tail := some newNode })

/-- `dequeue` (`queue.c:35-43`), which leaves `tail` as it is. -/
def dequeue (h : Heap) (q : Queue) : Except Fault (Ptr × Queue) :=
  if q.head = none then .ok (none, q)
  else (h.loadNode q.head).map fun r => (q.head, { q with head := r.1 })

/-- `free_node` (`queue.c:53-58`). -/
def freeNode (h : Heap) (n : Ptr) : Except Fault Heap := do
  let (_, data) ← h.loadNode n
  let h ← h.free data
  h.free n

/-- The loop of `free_queue`, with a bound on its rounds. -/
def freeQueueLoop : (rounds : Nat) → Heap → Ptr → Except Fault Heap
  | _, h, none => .ok h
  | 0, _, some _ => .error .running
  | rounds + 1, h, some a => do
    let (next, _) ← h.loadNode (some a)
    let h ← freeNode h (some a)
    freeQueueLoop rounds h next

/-- `free_queue` (`queue.c:61-68`). -/
def freeQueue (h : Heap) (q : Queue) : Except Fault Heap := freeQueueLoop h.length h q.head

/-- The loop of `print_queue`, with a bound on its rounds. -/
def printQueueLoop (h : Heap) : (rounds : Nat) → Ptr → Except Fault (List UInt8)
  | _, none => .ok []
  | 0, some _ => .error .running
  | rounds + 1, some a => do
    let (next, data) ← h.loadNode (some a)
    let s ← h.loadString data
    let out ← printQueueLoop h rounds next
    return [91] ++ s ++ [93] ++ (if next ≠ none then [45, 62] else []) ++ out

/-- `finally: `. -/
def finallyText : List UInt8 := [102, 105, 110, 97, 108, 108, 121, 58, 32]

/-- `print_queue` (`queue.c:97-110`). -/
def printQueue (h : Heap) (q : Queue) : Except Fault (List UInt8) :=
  (printQueueLoop h h.length q.head).map fun out => finallyText ++ out ++ [10]

/-! ## Reading the heap -/

theorem ok_bind {α β : Type} (a : α) (f : α → Except Fault β) : (Except.ok a >>= f) = f a := (rfl)

section Block
variable {h : Heap} {a : Nat} {b : Block}

theorem block_lt (hb : h.block a = some b) : a < h.length := by
  by_contra hge
  rw [Heap.block, List.getElem?_eq_none (Nat.not_lt.mp hge)] at hb
  exact nomatch hb

theorem block_append (h bs : Heap) (ha : a < h.length) : Heap.block (h ++ bs) a = h.block a := by
  unfold Heap.block
  rw [List.getElem?_append_left ha]

theorem block_set_of_ne (h : Heap) {c : Nat} (x : Option Block) (hne : a ≠ c) :
    Heap.block (h.set c x) a = h.block a := by
  unfold Heap.block
  rw [List.getElem?_set_ne (Ne.symm hne)]

theorem block_set_self (x : Option Block) (ha : a < h.length) : Heap.block (h.set a x) a = x := by
  unfold Heap.block
  rw [List.getElem?_set_self ha]
  rfl

end Block

/-! ## What the queue holds -/

/-- A node as the list sees it: the next one, and the string allocated behind it. -/
def link (h : Heap) (a : Nat) : Option (Ptr × List UInt8) :=
  match h.block a, h.block (a + 1) with
  | some (.node next (some d)), some (.string s) => if d = a + 1 then some (next, s) else none
  | _, _ => none

/-- The queue holds the elements `l`: they are the list from `head`, and `tail` is the last of them.
Nothing is asked of `tail` when there is none. -/
structure Holds (h : Heap) (q : Queue) (l : List (Nat × List UInt8)) : Prop where
  chain : Chain (link h) q.head l
  tail : ∀ n, l.getLast? = some n → q.tail = some n.1

variable {h : Heap} {q : Queue} {l : List (Nat × List UInt8)} {a c : Nat} {s : List UInt8} {p : Ptr}

theorem link_eq_some : link h a = some (p, s) ↔
    h.block a = some (.node p (some (a + 1))) ∧ h.block (a + 1) = some (.string s) := by
  unfold link
  constructor
  · intro hlink
    split at hlink
    · rename_i next d t hnode hstring
      split at hlink
      · rename_i hd
        obtain ⟨rfl, rfl⟩ := Prod.mk.inj (Option.some.inj hlink)
        rw [hnode, hd]
        exact ⟨rfl, hstring⟩
      · exact nomatch hlink
    · exact nomatch hlink
  · intro hblocks
    rw [hblocks.1, hblocks.2]
    exact if_pos rfl

theorem link_append (h : Heap) (s : List UInt8) :
    link (h ++ [some (.node none (some (h.length + 1))), some (.string s)]) h.length =
      some (none, s) := by
  rw [link_eq_some]
  unfold Heap.block
  constructor
  · rw [List.getElem?_append_right (Nat.le_refl _), Nat.sub_self]
    rfl
  · rw [List.getElem?_append_right (Nat.le_succ _), show h.length + 1 - h.length = 1 by omega]
    rfl

/-- Links survive an allocation. -/
theorem link_append_left (bs : Heap) (hlink : link h a = some (p, s)) :
    link (h ++ bs) a = some (p, s) := by
  rw [link_eq_some] at hlink ⊢
  rw [block_append h bs (block_lt hlink.1), block_append h bs (block_lt hlink.2)]
  exact hlink

/-- A write to node `c` leaves the links of the others. -/
theorem link_set_of_ne (x : Option Block) (hlink : link h a = some (p, s)) (hne : a ≠ c)
    (hnode : ∃ next data, h.block c = some (.node next data)) :
    link (h.set c x) a = some (p, s) := by
  rw [link_eq_some] at hlink ⊢
  obtain ⟨next, data, hnode⟩ := hnode
  have hne' : a + 1 ≠ c := by
    rintro rfl
    rw [hlink.2] at hnode
    exact nomatch hnode
  rw [block_set_of_ne h x hne, block_set_of_ne h x hne']
  exact hlink

theorem Holds.empty (h : Heap) (p : Ptr) : Holds h ⟨none, p⟩ [] :=
  ⟨Chain.nil, fun _ hn => nomatch hn⟩

/-- Every element has its own link. -/
theorem Holds.link_of_mem (hq : Holds h q l) (ha : (a, s) ∈ l) : ∃ p, link h a = some (p, s) := by
  obtain ⟨l₁, l₂, rfl⟩ := List.append_of_mem ha
  cases hq.chain.drop with
  | cons hlink _ => exact ⟨_, hlink⟩

theorem Holds.lt_length (hq : Holds h q l) (ha : a ∈ l.map Prod.fst) : a + 1 < h.length := by
  obtain ⟨⟨a', s⟩, hmem, rfl⟩ := List.mem_map.mp ha
  obtain ⟨p, hlink⟩ := hq.link_of_mem hmem
  exact block_lt (link_eq_some.mp hlink).2

theorem Holds.head_eq_none (hq : Holds h q l) : q.head = none ↔ l = [] := by
  obtain ⟨hchain, -⟩ := hq
  constructor
  · intro hp
    rw [hp] at hchain
    exact hchain.eq_nil
  · intro hl
    rw [hl] at hchain
    generalize q.head = p at hchain ⊢
    cases hchain
    rfl

theorem Holds.congr {h' : Heap} (hq : Holds h q l)
    (heq : ∀ b r, b ∈ l.map Prod.fst → link h b = some r → link h' b = some r) : Holds h' q l := by
  refine ⟨hq.chain.congr ?_, hq.tail⟩
  intro b hb
  obtain ⟨⟨b, t⟩, hmem, rfl⟩ := List.mem_map.mp hb
  obtain ⟨p, hlink⟩ := hq.link_of_mem hmem
  rw [hlink]
  exact heq b (p, t) hb hlink

/-! ## `enqueue` and `dequeue` -/

/-- On an empty queue the stale `tail` is overwritten and not followed. -/
theorem Holds.enqueue_empty (hq : Holds h q []) (s : List UInt8) :
    ∃ h' q', enqueue h q (some s) = .ok (h', q') ∧ Holds h' q' [(h.length, s)] ∧
      h'.length = h.length + 2 := by
  refine ⟨_, _, if_pos (hq.head_eq_none.mpr rfl), ⟨?_, ?_⟩, List.length_append⟩
  · exact Chain.cons (link_append h s) Chain.nil
  · intro n hn
    obtain rfl := Option.some.inj hn
    rfl

/-- The heap with a new node behind the last node `a`. -/
def attached (h : Heap) (a : Nat) (s : List UInt8) : Heap :=
  (h ++ [some (Block.node none (some (h.length + 1))), some (Block.string s)]).set a
    (some (Block.node (some h.length) (some (a + 1))))

section Attached
variable {t : List UInt8} (hlast : link h a = some (none, t))
include hlast

theorem block_last (bs : Heap) :
    Heap.block (h ++ bs) a = some (.node none (some (a + 1))) := by
  rw [block_append h bs (block_lt (link_eq_some.mp hlast).1)]
  exact (link_eq_some.mp hlast).1

theorem link_attached_last (s : List UInt8) :
    link (attached h a s) a = some (some h.length, t) := by
  obtain ⟨hnode, hstring⟩ := link_eq_some.mp hlast
  rw [link_eq_some]
  refine ⟨block_set_self _ ?_, ?_⟩
  · rw [List.length_append]
    exact Nat.lt_add_right _ (block_lt hnode)
  · unfold attached
    rw [block_set_of_ne _ _ (Nat.succ_ne_self a), block_append h _ (block_lt hstring)]
    exact hstring

theorem link_attached_new (s : List UInt8) :
    link (attached h a s) h.length = some (none, s) :=
  link_set_of_ne _ (link_append h s) (Nat.ne_of_gt (block_lt (link_eq_some.mp hlast).1))
    ⟨_, _, block_last hlast _⟩

/-- The other nodes stay. -/
theorem link_attached_of_ne {b : Nat} {r : Ptr × List UInt8} (s : List UInt8)
    (hb : link h b = some r) (hne : b ≠ a) : link (attached h a s) b = some r :=
  link_set_of_ne _ (link_append_left _ hb) hne ⟨_, _, block_last hlast _⟩

end Attached

/-- On a queue with a last node `enqueue` writes the `next` of that node. -/
theorem Holds.enqueue_behind {t : List UInt8} (hq : Holds h q (l ++ [(a, t)])) (s : List UInt8) :
    ∃ h' q', enqueue h q (some s) = .ok (h', q') ∧
      Holds h' q' (l ++ [(a, t)] ++ [(h.length, s)]) ∧ h'.length = h.length + 2 := by
  have hlast : link h a = some (none, t) := hq.chain.last
  have htail : q.tail = some a := hq.tail (a, t) List.getLast?_concat
  have hhead : q.head ≠ none := by
    rw [Ne, hq.head_eq_none]
    exact List.append_ne_nil_of_right_ne_nil l (List.cons_ne_nil _ _)
  have honce : a ∉ l.map Prod.fst := hq.chain.last_notMem
  have hset : Heap.setNext (h ++ [some (.node none (some (h.length + 1))), some (.string s)])
      q.tail (some h.length) = .ok (attached h a s) := by
    simp only [Heap.setNext, htail, block_last hlast]
    rfl
  refine ⟨attached h a s, { q with tail := some h.length }, ?_, ⟨?_, ?_⟩, ?_⟩
  · unfold CipherQueue.enqueue
    dsimp only
    rw [if_neg hhead, hset]
    rfl
  · apply hq.chain.snoc
    · exact link_attached_last hlast s
    · exact link_attached_new hlast s
    · intro b hb
      obtain ⟨⟨b, u⟩, hmem, rfl⟩ := List.mem_map.mp hb
      obtain ⟨p, hlink⟩ := hq.link_of_mem (List.mem_append_left _ hmem)
      rw [hlink]
      exact link_attached_of_ne hlast s hlink (ne_of_mem_of_not_mem hb honce)
  · intro n hn
    rw [List.getLast?_concat] at hn
    obtain rfl := Option.some.inj hn
    rfl
  · rw [attached, List.length_set, List.length_append]
    rfl

/-- `enqueue` of a string appends it, in a node of its own. -/
theorem Holds.enqueue (hq : Holds h q l) (s : List UInt8) :
    ∃ h' q', enqueue h q (some s) = .ok (h', q') ∧ Holds h' q' (l ++ [(h.length, s)]) ∧
      h'.length = h.length + 2 := by
  rcases List.eq_nil_or_concat l with hl | ⟨l', n, hl⟩
  · subst hl
    exact hq.enqueue_empty s
  · rw [List.concat_eq_append] at hl
    subst hl
    exact hq.enqueue_behind s

theorem Holds.dequeue_nil (hq : Holds h q []) : dequeue h q = .ok (none, q) :=
  if_pos (hq.head_eq_none.mpr rfl)

/-- `dequeue` takes the first node out of the list and nothing else. -/
theorem Holds.dequeue_cons (hq : Holds h q ((a, s) :: l)) :
    q.head = some a ∧ a ∉ l.map Prod.fst ∧ (∃ p, link h a = some (p, s)) ∧
      ∃ q', dequeue h q = .ok (some a, q') ∧ Holds h q' l := by
  have hnodup := hq.chain.nodup
  obtain ⟨hchain, htail⟩ := hq
  cases hp : q.head with
  | none =>
    rw [hp] at hchain
    exact absurd hchain.eq_nil (List.cons_ne_nil _ _)
  | some a' =>
    rw [hp] at hchain
    cases hchain with
    | @cons _ _ p _ hlink hrest =>
      have hnode := (link_eq_some.mp hlink).1
      refine ⟨rfl, (List.nodup_cons.mp hnodup).1, ⟨p, hlink⟩, { q with head := p }, ?_, hrest, ?_⟩
      · unfold dequeue
        rw [hp, if_neg (Option.some_ne_none a)]
        simp only [Heap.loadNode, hnode]
        rfl
      · intro n hn
        refine htail n ?_
        rw [List.getLast?_cons, hn]
        rfl

/-! ## Freeing and printing -/

theorem loadString_of_link (hlink : link h a = some (p, s)) :
    h.loadNode (some a) = .ok (p, some (a + 1)) ∧ h.loadString (some (a + 1)) = .ok s := by
  obtain ⟨hnode, hstring⟩ := link_eq_some.mp hlink
  constructor
  · simp only [Heap.loadNode, hnode]
  · simp only [Heap.loadString, hstring]

theorem free_of_block {b : Block} (hb : h.block a = some b) :
    h.free (some a) = .ok (h.set a none) := by
  simp only [Heap.free, hb, Option.isSome_some, if_true]

/-- `free_node` frees a node with its string and leaves the other ones. -/
theorem freeNode_eq (hlink : link h a = some (p, s)) :
    ∃ h', freeNode h (some a) = .ok h' ∧ h'.length = h.length ∧
      ∀ b r, b ≠ a → link h b = some r → link h' b = some r := by
  obtain ⟨hnode, hstring⟩ := link_eq_some.mp hlink
  have hsecond : Heap.free (h.set (a + 1) none) (some a) =
      .ok ((h.set (a + 1) none).set a none) := by
    apply free_of_block (b := .node p (some (a + 1)))
    rw [block_set_of_ne h none (Nat.ne_of_lt (Nat.lt_succ_self a))]
    exact hnode
  refine ⟨(h.set (a + 1) none).set a none, ?_, ?_, ?_⟩
  · unfold freeNode
    rw [(loadString_of_link hlink).1, ok_bind]
    dsimp only
    rw [free_of_block hstring, ok_bind]
    exact hsecond
  · rw [List.length_set, List.length_set]
  · intro b r hne hb
    obtain ⟨next, t⟩ := r
    rw [link_eq_some] at hb ⊢
    have hb₁ : b ≠ a + 1 := by
      rintro rfl
      rw [hstring] at hb
      exact nomatch hb.1
    have hb₂ : b + 1 ≠ a := by
      rintro rfl
      rw [hnode] at hb
      exact nomatch hb.2
    rw [block_set_of_ne _ _ hne, block_set_of_ne _ _ hb₁, block_set_of_ne _ _ hb₂,
      block_set_of_ne _ _ (fun h => hne (Nat.succ.inj h))]
    exact hb

/-- What is left of the queue survives the freeing of the node that was taken out. -/
theorem Holds.freeNode (hq : Holds h q l) (hlink : link h a = some (p, s))
    (ha : a ∉ l.map Prod.fst) :
    ∃ h', freeNode h (some a) = .ok h' ∧ h'.length = h.length ∧ Holds h' q l := by
  obtain ⟨h', hfree, hlen, hkeep⟩ := freeNode_eq hlink
  exact ⟨h', hfree, hlen, hq.congr fun b r hb => hkeep b r (ne_of_mem_of_not_mem hb ha)⟩

/-- There are at least as many allocations as elements. -/
theorem Holds.length_le (hq : Holds h q l) : l.length ≤ h.length := by
  have hsub : l.map Prod.fst ⊆ List.range h.length := by
    intro a ha
    exact List.mem_range.mpr (Nat.lt_of_succ_lt (hq.lt_length ha))
  have hle := (List.subperm_of_subset hq.chain.nodup hsub).length_le
  rwa [List.length_map, List.length_range] at hle

theorem freeQueueLoop_eq (rounds : Nat) {l : List (Nat × List UInt8)} (hchain : Chain (link h) p l)
    (hrounds : l.length ≤ rounds) : ∃ h', freeQueueLoop rounds h p = .ok h' := by
  induction rounds generalizing h p l with
  | zero =>
    obtain rfl := List.eq_nil_of_length_eq_zero (Nat.le_zero.mp hrounds)
    cases hchain
    exact ⟨h, rfl⟩
  | succ rounds ih =>
    have hnodup := hchain.nodup
    cases hchain with
    | nil => exact ⟨h, rfl⟩
    | @cons a s p l hlink hrest =>
      obtain ⟨h₁, hfree, -, hkeep⟩ := freeNode_eq hlink
      have hrest' : Chain (link h₁) p l := by
        have hholds : Holds h ⟨p, (l.getLast?).map Prod.fst⟩ l :=
          ⟨hrest, fun n hn => by rw [hn]; rfl⟩
        exact (hholds.congr fun b r hb =>
          hkeep b r (ne_of_mem_of_not_mem hb (List.nodup_cons.mp hnodup).1)).chain
      obtain ⟨h', hloop⟩ := ih hrest' (Nat.le_of_succ_le_succ hrounds)
      refine ⟨h', ?_⟩
      unfold freeQueueLoop
      rw [(loadString_of_link hlink).1, ok_bind]
      dsimp only
      rw [hfree, ok_bind]
      exact hloop

theorem Holds.freeQueue (hq : Holds h q l) : ∃ h', freeQueue h q = .ok h' :=
  freeQueueLoop_eq h.length hq.chain hq.length_le

/-- The text of the elements: `[e1]->[e2]->...`. -/
def listText (es : List (List UInt8)) : List UInt8 :=
  List.intercalate [45, 62] (es.map fun e => [91] ++ e ++ [93])

theorem printQueueLoop_eq (rounds : Nat) (hchain : Chain (link h) p l)
    (hrounds : l.length ≤ rounds) :
    printQueueLoop h rounds p = .ok (listText (l.map Prod.snd)) := by
  induction hchain generalizing rounds with
  | nil => cases rounds <;> rfl
  | @cons a s p l hlink hrest ih =>
    obtain ⟨rounds, rfl⟩ := Nat.exists_eq_add_of_lt (Nat.lt_of_lt_of_le (Nat.succ_pos _) hrounds)
    rw [Nat.zero_add] at hrounds ⊢
    unfold printQueueLoop
    rw [(loadString_of_link hlink).1, ok_bind]
    dsimp only
    rw [(loadString_of_link hlink).2, ok_bind, ih rounds (Nat.le_of_succ_le_succ hrounds), ok_bind]
    cases hrest with
    | nil => simp [listText, List.intercalate, pure, Except.pure]
    | cons hlink' hrest' => simp [listText, List.intercalate, pure, Except.pure]

theorem Holds.printQueue (hq : Holds h q l) :
    printQueue h q = .ok (finallyText ++ listText (l.map Prod.snd) ++ [10]) := by
  unfold CipherQueue.printQueue
  rw [printQueueLoop_eq h.length hq.chain hq.length_le]
  rfl

end SystemsProjects.CipherQueue
