import SystemsProjects.Dbserver.Queue
import SystemsProjects.Lib.Steps
import Mathlib.Data.Finset.Basic

/-!
# The queue as a monitor

The listener and the workers share the queue under one mutex and one condition variable. Each
critical section is one action: `enqueue` with its signal, and one pass of `dequeue` from taking
the lock to giving it up, either in `pthread_cond_wait` or with a task. `malloc` may hand out any
address that is not allocated, so also that of a node a worker has freed.
-/

namespace SystemsProjects.Dbserver

open SystemsProjects.Lib

/-- Where a worker stands (`worker.c:141-152`). -/
inductive Worker where
  /-- before the lock of `dequeue` -/
  | idle
  /-- inside `pthread_cond_wait` -/
  | blocked
  /-- out of `pthread_cond_wait`, before its next look at `head` -/
  | woken
  /-- with a task that `dequeue` returned -/
  | running (task : Addr)
  deriving DecidableEq, Repr

/-- The threads and what they share. `built` are the nodes that were filled in but not yet handed
to `enqueue`; `enqueued` and `returned` record the address and descriptor of every task that went
in and came out, oldest first. -/
structure Monitor (ι : Type) where
  nodes : Nodes
  queue : Queue
  built : Finset Addr
  workers : ι → Worker
  enqueued : List (Addr × Int)
  returned : List (Addr × Int)

/-- The critical sections, and what threads do to nodes outside of them. -/
inductive Action (ι : Type) where
  /-- `malloc` and the two assignments of `listen_thread` (`dbserver.c:91-93`) -/
  | build (t : Addr) (fd : Int)
  /-- `enqueue`; the signal reaches `signalled` -/
  | enqueue (t : Addr) (signalled : Option ι)
  /-- one pass of `dequeue` -/
  | dequeue (w : ι)
  /-- a return from `pthread_cond_wait` without a signal -/
  | wake (w : ι)
  /-- `dispatch` of the task and `free` of its node -/
  | finish (w : ι)

section Actions

variable {ι : Type} [DecidableEq ι]

/-- `pthread_cond_signal` (`queue.c:21`) reaches one waiting worker if there is one. -/
def Signals (workers : ι → Worker) : Option ι → Prop
  | none => ∀ w, workers w ≠ .blocked
  | some w => workers w = .blocked

/-- The worker the signal reaches leaves the wait. -/
def signal (workers : ι → Worker) : Option ι → ι → Worker
  | none => workers
  | some w => Function.update workers w .woken

/-- The actions the threads can take in a state. -/
def Enabled (s : Monitor ι) : Action ι → Prop
  | .build t _ => s.nodes t = none
  | .enqueue t signalled => t ∈ s.built ∧ Signals s.workers signalled
  | .dequeue w => s.workers w = .idle ∨ s.workers w = .woken
  | .wake w => s.workers w = .blocked
  | .finish w => ∃ t, s.workers w = .running t

/-- One pass of `dequeue` by worker `w`: it blocks, or it returns a task. -/
def Monitor.dequeue (s : Monitor ι) (w : ι) : Option (Monitor ι) := do
  let (task, q) ← Dbserver.dequeue s.nodes s.queue
  match task with
  | none => return { s with queue := q, workers := Function.update s.workers w .blocked }
  | some t =>
    let node ← s.nodes t
    return { s with
      queue := q
      workers := Function.update s.workers w (.running t)
      returned := s.returned ++ [(t, node.fd)] }

/-- What an action does; `none` is a use of `NULL` or of a freed node. -/
def act (s : Monitor ι) : Action ι → Option (Monitor ι)
  | .build t fd => some { s with
      nodes := Function.update s.nodes t (some { next := none, fd := fd })
      built := insert t s.built }
  | .enqueue t signalled => do
    let node ← s.nodes t
    let (nodes, q) ← Dbserver.enqueue s.nodes s.queue t
    return { s with
      nodes := nodes
      queue := q
      built := s.built.erase t
      workers := signal s.workers signalled
      enqueued := s.enqueued ++ [(t, node.fd)] }
  | .dequeue w => s.dequeue w
  | .wake w => some { s with workers := Function.update s.workers w .woken }
  | .finish w =>
    match s.workers w with
    | .running t => do
      let _ ← s.nodes t
      return { s with
        nodes := Function.update s.nodes t none
        workers := Function.update s.workers w .idle }
    | _ => none

/-- A step: an action the threads can take, and what it does. -/
def Step (s : Monitor ι) (a : Action ι) (s' : Monitor ι) : Prop := Enabled s a ∧ act s a = some s'

end Actions

/-- The state after `init` (`dbserver.c:47-50`). -/
def Monitor.init {ι : Type} : Monitor ι where
  nodes := fun _ => none
  queue := { head := none, tail := none }
  built := ∅
  workers := fun _ => .idle
  enqueued := []
  returned := []

/-! ## The invariant -/

variable {ι : Type}

/-- The queue holds `l`, which is what went in and did not come out; no two of the queue, the
nodes that are built and the tasks of the workers have a node in common, and all of these are
allocated. Nothing is said about `tail` on an empty queue. -/
structure Inv (s : Monitor ι) (l : List (Addr × Int)) : Prop where
  holds : Holds s.nodes s.queue l
  history : s.enqueued = s.returned ++ l
  built : ∀ t ∈ s.built, (∃ fd, s.nodes t = some ⟨none, fd⟩) ∧ t ∉ l.map Prod.fst ∧
    ∀ w, s.workers w ≠ .running t
  running : ∀ w t, s.workers w = .running t → s.nodes t ≠ none ∧ t ∉ l.map Prod.fst ∧
    ∀ w', s.workers w' = .running t → w' = w

variable {s s' : Monitor ι} {l : List (Addr × Int)} {t : Addr} {w : ι}

theorem Inv.init : Inv (Monitor.init : Monitor ι) [] where
  holds := ⟨Chain.nil, fun _ hn => absurd hn (by simp)⟩
  history := rfl
  built := fun _ ht => absurd ht (Finset.notMem_empty _)
  running := fun _ _ hw => nomatch hw

/-- Workers that change to a state without a task change nothing. -/
theorem Inv.workers (hs : Inv s l) {f : ι → Worker}
    (hf : ∀ w t, f w = .running t → s.workers w = .running t) :
    Inv { s with workers := f } l where
  holds := hs.holds
  history := hs.history
  built := by
    intro t ht
    obtain ⟨hnode, hl, hw⟩ := hs.built t ht
    exact ⟨hnode, hl, fun w h => hw w (hf w t h)⟩
  running := by
    intro w t h
    obtain ⟨hnode, hl, hw⟩ := hs.running w t (hf w t h)
    exact ⟨hnode, hl, fun w' h' => hw w' (hf w' t h')⟩

/-- A new node is none of those in use. -/
theorem Inv.build (hs : Inv s l) (ht : s.nodes t = none) (fd : Int) :
    Inv { s with
      nodes := Function.update s.nodes t (some { next := none, fd := fd })
      built := insert t s.built } l := by
  have hne : ∀ x, s.nodes x ≠ none → x ≠ t := fun x hx he => hx (he ▸ ht)
  have hfresh : t ∉ l.map Prod.fst := fun h => hs.holds.ne_none h ht
  refine ⟨?_, hs.history, ?_, ?_⟩
  · apply hs.holds.congr
    intro x hx
    exact Function.update_of_ne (ne_of_mem_of_not_mem hx hfresh) _ _
  · intro x hx
    rcases Finset.mem_insert.mp hx with rfl | hx
    · exact ⟨⟨fd, Function.update_self _ _ _⟩, hfresh, fun w h => (hs.running w x h).1 ht⟩
    · obtain ⟨⟨fd', hnode⟩, hl, hw⟩ := hs.built x hx
      have hxt : x ≠ t := hne x (by rw [hnode]; exact Option.some_ne_none _)
      exact ⟨⟨fd', (Function.update_of_ne hxt _ _).trans hnode⟩, hl, hw⟩
  · intro w x h
    obtain ⟨hnode, hrest⟩ := hs.running w x h
    exact ⟨fun he => hnode ((Function.update_of_ne (hne x hnode) _ _).symm.trans he), hrest⟩

variable [DecidableEq ι]

/-- A worker that gets no task holds one afterwards only if it is another one that did before. -/
theorem running_of_update {x : Worker} (hx : ∀ t, x ≠ .running t) {w' : ι}
    (h : Function.update s.workers w x w' = .running t) : s.workers w' = .running t := by
  by_cases hw : w' = w
  · rw [hw, Function.update_self] at h
    exact absurd h (hx t)
  · rwa [Function.update_of_ne hw] at h

/-- After worker `w` got task `t`, the tasks of the others are as before. -/
theorem running_update {x : Addr} {w' : ι}
    (h : Function.update s.workers w (.running t) w' = .running x) :
    (w' = w ∧ x = t) ∨ s.workers w' = .running x := by
  by_cases hw : w' = w
  · rw [hw, Function.update_self] at h
    exact Or.inl ⟨hw, (Worker.running.inj h).symm⟩
  · rw [Function.update_of_ne hw] at h
    exact Or.inr h

theorem running_of_signal {signalled : Option ι} {w' : ι}
    (h : signal s.workers signalled w' = .running t) : s.workers w' = .running t := by
  cases signalled with
  | none => exact h
  | some w => exact running_of_update (fun t => Worker.noConfusion) h

/-! ## One action -/

/-- `enqueue` moves a built node to the end of the queue. -/
theorem Inv.enqueue (hs : Inv s l) (ht : t ∈ s.built) (signalled : Option ι) :
    ∃ s' fd, act s (.enqueue t signalled) = some s' ∧ Inv s' (l ++ [(t, fd)]) := by
  obtain ⟨⟨fd, hnode⟩, hl, hw⟩ := hs.built t ht
  obtain ⟨h', q', henq, hholds, hrest, hnone⟩ := hs.holds.enqueue hnode hl
  have hmem : ∀ {x}, x ∈ (l ++ [(t, fd)]).map Prod.fst → x ∈ l.map Prod.fst ∨ x = t := by
    intro x hx
    rw [List.map_append, List.mem_append] at hx
    exact hx.imp_right List.mem_singleton.mp
  have hinv : Inv { s with
      nodes := h'
      queue := q'
      built := s.built.erase t
      enqueued := s.enqueued ++ [(t, fd)] } (l ++ [(t, fd)]) := by
    refine ⟨hholds, ?_, ?_, ?_⟩
    · simp only [hs.history, List.append_assoc]
    · intro x hx
      obtain ⟨hxt, hx⟩ := Finset.mem_erase.mp hx
      obtain ⟨⟨fd', hnode'⟩, hl', hw'⟩ := hs.built x hx
      refine ⟨⟨fd', (hrest x hl').trans hnode'⟩, ?_, hw'⟩
      intro h
      exact (hmem h).elim hl' hxt
    · intro w x h
      obtain ⟨hne, hl', hw'⟩ := hs.running w x h
      refine ⟨mt (hnone x).mp hne, ?_, hw'⟩
      intro hx
      exact (hmem hx).elim hl' fun he => hw w (he ▸ h)
  refine ⟨_, fd, ?_, hinv.workers (f := signal s.workers signalled) fun w x h =>
    running_of_signal h⟩
  simp only [act, hnode, henq, Option.bind_eq_bind, Option.bind_some]
  rfl

/-- A pass of `dequeue` blocks exactly on the empty queue; otherwise it moves the first task of
the queue to the worker. -/
theorem Inv.dequeue (hs : Inv s l) (w : ι) :
    ∃ s' l', act s (.dequeue w) = some s' ∧ Inv s' l' := by
  rcases hs.holds.dequeue with ⟨-, -, hdeq⟩ | ⟨⟨t, fd⟩, l', q', rfl, -, ⟨p, hnode⟩, hdeq, hholds⟩
  · refine ⟨_, l, ?_, hs.workers (f := Function.update s.workers w .blocked) fun w' t h =>
      running_of_update (fun t => Worker.noConfusion) h⟩
    simp only [act, Monitor.dequeue, hdeq, Option.bind_eq_bind, Option.bind_some]
    rfl
  · refine ⟨{ s with
      queue := q'
      workers := Function.update s.workers w (.running t)
      returned := s.returned ++ [(t, fd)] }, l', ?_, hholds, ?_, ?_, ?_⟩
    · simp only [act, Monitor.dequeue, hdeq, hnode, Option.bind_eq_bind, Option.bind_some]
      rfl
    · simp only [hs.history, List.append_assoc, List.singleton_append]
    · intro x hx
      obtain ⟨hnode', hl, hxw⟩ := hs.built x hx
      refine ⟨hnode', fun h => hl (List.mem_cons_of_mem _ h), ?_⟩
      intro w' h
      rcases running_update h with ⟨-, rfl⟩ | h
      · exact hl List.mem_cons_self
      · exact hxw w' h
    · -- the task was in the queue, so no other worker has it
      have hnew : ∀ w', s.workers w' ≠ .running t :=
        fun w' h => (hs.running w' t h).2.1 List.mem_cons_self
      intro w' x h
      rcases running_update h with ⟨rfl, rfl⟩ | hold
      · refine ⟨fun he => Option.some_ne_none _ (hnode.symm.trans he),
          (List.nodup_cons.mp hs.holds.chain.nodup).1, ?_⟩
        intro w'' h''
        rcases running_update h'' with ⟨rfl, -⟩ | h''
        · rfl
        · exact absurd h'' (hnew w'')
      · obtain ⟨hne, hl, honce⟩ := hs.running w' x hold
        refine ⟨hne, fun hx => hl (List.mem_cons_of_mem _ hx), ?_⟩
        intro w'' h''
        rcases running_update h'' with ⟨-, rfl⟩ | h''
        · exact absurd hold (hnew w')
        · exact honce w'' h''

/-- A worker frees a node that nothing else uses. -/
theorem Inv.finish (hs : Inv s l) (hw : s.workers w = .running t) :
    ∃ s', act s (.finish w) = some s' ∧ Inv s' l := by
  obtain ⟨hne, hl, honce⟩ := hs.running w t hw
  obtain ⟨node, hnode⟩ := Option.ne_none_iff_exists'.mp hne
  refine ⟨{ s with
    nodes := Function.update s.nodes t none
    workers := Function.update s.workers w .idle }, ?_, ?_, hs.history, ?_, ?_⟩
  · simp only [act, hw, hnode, Option.bind_eq_bind, Option.bind_some]
    rfl
  · apply hs.holds.congr
    intro x hx
    exact Function.update_of_ne (ne_of_mem_of_not_mem hx hl) _ _
  · intro x hx
    obtain ⟨⟨fd, hx'⟩, hxl, hxw⟩ := hs.built x hx
    have hxt : x ≠ t := fun he => hxw w (he ▸ hw)
    exact ⟨⟨fd, (Function.update_of_ne hxt _ _).trans hx'⟩, hxl,
      fun w' h => hxw w' (running_of_update (fun t => Worker.noConfusion) h)⟩
  · intro w' x h
    have hww : w' ≠ w := by
      intro he
      have hidle : Function.update s.workers w .idle w = .running x := he ▸ h
      rw [Function.update_self] at hidle
      exact Worker.noConfusion hidle
    have h := running_of_update (fun t => Worker.noConfusion) h
    obtain ⟨hxne, hxl, hxonce⟩ := hs.running w' x h
    have hxt : x ≠ t := fun he => hww (honce w' (he ▸ h))
    exact ⟨fun he => hxne ((Function.update_of_ne hxt _ _).symm.trans he), hxl,
      fun w'' h'' => hxonce w'' (running_of_update (fun t => Worker.noConfusion) h'')⟩

/-- Every action the threads can take is free of faults and keeps the invariant. -/
theorem Inv.act (hs : Inv s l) {a : Action ι} (ha : Enabled s a) :
    ∃ s' l', act s a = some s' ∧ Inv s' l' := by
  cases a with
  | build t fd => exact ⟨_, l, rfl, hs.build ha fd⟩
  | enqueue t signalled =>
    obtain ⟨s', fd, hact, hinv⟩ := hs.enqueue ha.1 signalled
    exact ⟨s', _, hact, hinv⟩
  | dequeue w => exact hs.dequeue w
  | wake w =>
    exact ⟨_, l, rfl, hs.workers fun w' t h =>
      running_of_update (fun t => Worker.noConfusion) h⟩
  | finish w =>
    obtain ⟨t, ht⟩ := ha
    obtain ⟨s', hact, hinv⟩ := hs.finish ht
    exact ⟨s', l, hact, hinv⟩

theorem Inv.of_steps {as : List (Action ι)} (hrun : Steps Step Monitor.init as s) :
    ∃ l, Inv s l := by
  refine Steps.invariant (P := fun s => ∃ l, Inv s l) ?_ hrun ⟨[], Inv.init⟩
  intro s a s' hs hstep
  obtain ⟨l, hl⟩ := hs
  obtain ⟨u, l', hact, hinv⟩ := hl.act hstep.1
  obtain rfl := Option.some.inj (hstep.2.symm.trans hact)
  exact ⟨l', hinv⟩

/-! ## No task is lost, none comes out twice -/

/-- After any interleaving: what came out is, in order, the first part of what went in, and the
list from `head` is the rest; `queue_count` returns its length; and no thread can run into `NULL`
or a freed node. -/
theorem queue_fifo {as : List (Action ι)} (hrun : Steps Step Monitor.init as s) :
    ∃ l, s.enqueued = s.returned ++ l ∧ (∀ l', Chain (link s.nodes) s.queue.head l' ↔ l' = l) ∧
      (∀ fuel, l.length ≤ fuel → queueCount s.nodes s.queue fuel = some l.length) ∧
      ∀ a, Enabled s a → ∃ s', act s a = some s' := by
  obtain ⟨l, hs⟩ := Inv.of_steps hrun
  refine ⟨l, hs.history, ?_, fun fuel hfuel => hs.holds.queueCount hfuel, ?_⟩
  · intro l'
    constructor
    · exact fun hl' => hl'.unique hs.holds.chain
    · intro he
      rw [he]
      exact hs.holds.chain
  · intro a ha
    obtain ⟨s', -, hact, -⟩ := hs.act ha
    exact ⟨s', hact⟩

/-- One worker takes the only task and frees it, so that `tail` dangles; the next task gets the
same address. -/
def reuseRun : List (Action (Fin 2)) :=
  [.build 0 5, .enqueue 0 none, .dequeue 0, .finish 0, .build 0 6, .enqueue 0 none]

theorem queue_fifo_reuse : ∃ s : Monitor (Fin 2), Steps Step Monitor.init reuseRun s ∧
    s.returned = [(0, 5)] ∧ s.queue.head = some 0 ∧
    ∃ l, s.enqueued = s.returned ++ l ∧ (∀ l', Chain (link s.nodes) s.queue.head l' ↔ l' = l) ∧
      (∀ fuel, l.length ≤ fuel → queueCount s.nodes s.queue fuel = some l.length) ∧
      ∀ a, Enabled s a → ∃ s', act s a = some s' := by
  have hrun : ∃ s : Monitor (Fin 2), Steps Step Monitor.init reuseRun s ∧
      s.returned = [(0, 5)] ∧ s.queue.head = some 0 := by
    refine ⟨_, Steps.cons ⟨rfl, rfl⟩ (Steps.cons ⟨⟨by decide, ?_⟩, rfl⟩ (Steps.cons ⟨?_, rfl⟩
      (Steps.cons ⟨⟨0, rfl⟩, rfl⟩ (Steps.cons ⟨rfl, rfl⟩ (Steps.cons ⟨⟨by decide, ?_⟩, rfl⟩
        (Steps.nil _)))))), rfl, rfl⟩
    · exact fun w => Worker.noConfusion
    · exact Or.inl rfl
    · exact Fin.forall_fin_two.mpr ⟨Worker.noConfusion, Worker.noConfusion⟩
  obtain ⟨s, hsteps, hret, hhead⟩ := hrun
  exact ⟨s, hsteps, hret, hhead, queue_fifo hsteps⟩

/-! ## No wake-up is lost -/

/-- A worker is out of `pthread_cond_wait` whenever there is a task. -/
def Awake (s : Monitor ι) : Prop := s.queue.head ≠ none → ∃ w, s.workers w ≠ .blocked

theorem exists_ne_blocked {workers : ι → Worker} {x : Worker} (hx : x ≠ .blocked) :
    ∃ w', Function.update workers w x w' ≠ .blocked := by
  refine ⟨w, ?_⟩
  rwa [Function.update_self]

/-- A pass of `dequeue` blocks only when `head` is `NULL`. -/
theorem Monitor.dequeue_awake (h : s.dequeue w = some s') : Awake s' := by
  unfold Monitor.dequeue Dbserver.dequeue at h
  cases hp : s.queue.head with
  | none =>
    simp only [hp, Option.bind_eq_bind, Option.bind_some] at h
    obtain rfl := Option.some.inj h
    exact fun hne => absurd hp hne
  | some t =>
    simp only [hp, Option.bind_eq_bind, Option.bind_eq_some_iff] at h
    obtain ⟨_, ⟨_, -, hq⟩, h⟩ := h
    obtain rfl := Option.some.inj hq
    obtain ⟨_, -, h⟩ := Option.bind_eq_some_iff.mp h
    obtain rfl := Option.some.inj h
    exact fun _ => exists_ne_blocked Worker.noConfusion

/-- After a signal there is a worker out of the wait: the one it reached, or any. -/
theorem exists_ne_blocked_of_signal [Nonempty ι] {workers : ι → Worker} {signalled : Option ι}
    (h : Signals workers signalled) : ∃ w, signal workers signalled w ≠ .blocked := by
  cases signalled with
  | none =>
    obtain ⟨w⟩ := ‹Nonempty ι›
    exact ⟨w, h w⟩
  | some w => exact exists_ne_blocked Worker.noConfusion

theorem Awake.step [Nonempty ι] {a : Action ι} (hs : Awake s) (hstep : Step s a s') :
    Awake s' := by
  obtain ⟨hen, hact⟩ := hstep
  cases a with
  | build t fd =>
    obtain rfl := Option.some.inj hact
    exact hs
  | enqueue t signalled =>
    simp only [act, Option.bind_eq_bind, Option.bind_eq_some_iff] at hact
    obtain ⟨_, -, _, -, hact⟩ := hact
    obtain rfl := Option.some.inj hact
    exact fun _ => exists_ne_blocked_of_signal hen.2
  | dequeue w => exact Monitor.dequeue_awake hact
  | wake w =>
    obtain rfl := Option.some.inj hact
    exact fun _ => exists_ne_blocked Worker.noConfusion
  | finish w =>
    obtain ⟨t, ht⟩ := hen
    simp only [act, ht, Option.bind_eq_bind, Option.bind_eq_some_iff] at hact
    obtain ⟨_, -, hact⟩ := hact
    obtain rfl := Option.some.inj hact
    exact fun _ => exists_ne_blocked Worker.noConfusion

/-- In every state of every interleaving: while there is a task, some worker is not blocked. -/
theorem no_lost_wakeup [Nonempty ι] {as : List (Action ι)} (hrun : Steps Step Monitor.init as s)
    (htask : s.queue.head ≠ none) : ∃ w, s.workers w ≠ .blocked := by
  have hinit : Awake (Monitor.init : Monitor ι) := fun h => absurd rfl h
  exact Steps.invariant (P := Awake) (fun _ _ _ hs hstep => hs.step hstep) hrun hinit htask

/-- Both workers wait; one signal for two tasks, and the worker it reached has not run yet. -/
def burstRun : List (Action (Fin 2)) :=
  [.dequeue 0, .dequeue 1, .build 0 5, .build 1 6, .enqueue 0 (some 1), .wake 0, .dequeue 0,
    .finish 0, .enqueue 1 none]

theorem no_lost_wakeup_burst : ∃ s : Monitor (Fin 2), Steps Step Monitor.init burstRun s ∧
    s.queue.head ≠ none ∧ ∃ w, s.workers w ≠ .blocked := by
  have hrun : ∃ s : Monitor (Fin 2), Steps Step Monitor.init burstRun s ∧
      s.queue.head ≠ none := by
    refine ⟨_, Steps.cons ⟨Or.inl rfl, rfl⟩ (Steps.cons ⟨Or.inl rfl, rfl⟩ (Steps.cons ⟨rfl, rfl⟩
      (Steps.cons ⟨rfl, rfl⟩ (Steps.cons ⟨⟨by decide, rfl⟩, rfl⟩ (Steps.cons ⟨rfl, rfl⟩
        (Steps.cons ⟨Or.inr rfl, rfl⟩ (Steps.cons ⟨⟨0, rfl⟩, rfl⟩
          (Steps.cons ⟨⟨by decide, ?_⟩, rfl⟩ (Steps.nil _))))))))), ?_⟩
    · exact Fin.forall_fin_two.mpr ⟨Worker.noConfusion, Worker.noConfusion⟩
    · exact Option.some_ne_none _
  obtain ⟨s, hsteps, hhead⟩ := hrun
  exact ⟨s, hsteps, hhead, no_lost_wakeup hsteps hhead⟩

end SystemsProjects.Dbserver
