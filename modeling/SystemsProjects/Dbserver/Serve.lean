import SystemsProjects.Kvstore.Buffers
import SystemsProjects.Lib.Steps

/-!
# Requests on the shared store

Workers serve read, write and delete requests on one store (`worker.c:35-107`). The functions of the
store are one step each, for they hold its lock. A read takes two: `kv_read` hands out a pointer,
and `strlen`, `crc32` and `write` use it later, without the lock (`worker.c:78-91`).
-/

namespace SystemsProjects.Dbserver

open SystemsProjects.Lib SystemsProjects.Kvstore

/-- What a worker is doing: nothing on the store, or `handle_read` of key `k` with the pointer `p`
that `kv_read` returned. `since` are the stores at all moments from there on. -/
inductive Activity where
  | ready
  | reading (k : Key) (p : Nat) (since : List KvStore)

/-- The store, the workers, and the values sent in replies to reads, oldest first. -/
structure Server (ι : Type) where
  kv : KvStore
  workers : ι → Activity
  sent : List (Key × List UInt8)

/-- The step a worker takes next. -/
inductive Op where
  | write (k : Key) (v : Value)
  | delete (k : Key)
  /-- `kv_read` in `handle_read` -/
  | read (k : Key)
  /-- the rest of `handle_read` -/
  | reply

variable {ι : Type}

/-- The workers see the next store. -/
def Activity.observe (kv : KvStore) : Activity → Activity
  | .ready => .ready
  | .reading k p since => .reading k p (since ++ [kv])

/-- The store changes. -/
def Server.setStore (s : Server ι) (kv : KvStore) : Server ι :=
  { s with kv := kv, workers := fun w => (s.workers w).observe kv }

/-- A worker can start a request when it serves none, and reply when it reads. -/
def Server.Ready (s : Server ι) (w : ι) : Op → Prop
  | .reply => s.workers w ≠ .ready
  | _ => s.workers w = .ready

/-- The steps of `handle_write`, `handle_delete` and `handle_read` on the store; `none` is undefined
behaviour, as the use of a freed buffer is. -/
def Server.serve [DecidableEq ι] (s : Server ι) (w : ι) : Op → Option (Server ι)
  | .write k v => do
    let (kv, _) ← kvWrite s.kv k.bytes v.bytes
    return s.setStore kv
  | .delete k => do
    let kv ← kvDelete s.kv k.bytes
    return s.setStore kv
  | .read k => do
    match ← kvRead s.kv k.bytes with
    | none => return s
    | some p => return { s with workers := Function.update s.workers w (.reading k p [s.kv]) }
  | .reply =>
    match s.workers w with
    | .ready => none
    | .reading k p _ => do
      let v ← deref s.kv.heap (some p)
      return { s with
        workers := Function.update s.workers w .ready
        sent := s.sent ++ [(k, v)] }

/-- Worker `w` takes a step. -/
def ServeStep [DecidableEq ι] (s : Server ι) (a : ι × Op) (s' : Server ι) : Prop :=
  s.Ready a.1 a.2 ∧ s.serve a.1 a.2 = some s'

/-- The server before its first request (`dbserver.c:46-60`): every slot is free, and nothing is
known of the keys and pointers. -/
def Server.start (keys : Fin tableMax → Fin maxKeyLen → UInt8) (values : Fin tableMax → Ptr) :
    Server ι where
  kv := { keys := fun i => { stat := 0, key := keys i }, values := values, heap := [] }
  workers := fun _ => .ready
  sent := []

/-- The value a key has in a store. -/
def lookup (kv : KvStore) (k : Key) : Option (List UInt8) := do deref kv.heap (← kvRead kv k.bytes)

/-- Every buffer that a worker is about to use is live, and holds a value that the key has had
since `kv_read`. -/
def Server.Safe (s : Server ι) : Prop :=
  ∀ w k p since, s.workers w = .reading k p since →
    ∃ v, deref s.kv.heap (some p) = some v ∧ ∃ kv ∈ since, lookup kv k = some v

/-- Some worker stands between `kv_read` of key `k` and its reply. -/
def Server.Reads (s : Server ι) (k : Key) : Prop := ∃ w p since, s.workers w = .reading k p since

/-- A step that takes the buffer from under a read: `kv_delete` of the key, or a `kv_write` that
finds the key above slot 0. -/
def Server.Conflict (s : Server ι) : Op → Prop
  | .delete k => s.Reads k
  | .write k _ => s.Reads k ∧ ∃ n, findKey s.kv k.bytes = some n ∧ n > 0
  | _ => False

/-- A step without such a conflict. -/
def QuietStep [DecidableEq ι] (s : Server ι) (a : ι × Op) (s' : Server ι) : Prop :=
  ServeStep s a s' ∧ ¬ s.Conflict a.2

/-! ## The invariant -/

/-- Every buffer handed out is that of the first slot with its key. -/
structure Server.Sound (s : Server ι) : Prop where
  valid : Valid s.kv
  buffers : ∀ w k p since, s.workers w = .reading k p since →
    ∃ i v, Buffer s.kv k.bytes i p v ∧ ∃ kv ∈ since, lookup kv k = some v

variable {s s' : Server ι} {w : ι} {k : Key} {kv : KvStore}

theorem Server.Sound.safe (hs : s.Sound) : s.Safe := by
  intro w k p since hw
  obtain ⟨i, v, hbuf, hsince⟩ := hs.buffers w k p since hw
  exact ⟨v, hbuf.live, hsince⟩

theorem Server.Sound.start (keys : Fin tableMax → Fin maxKeyLen → UInt8)
    (values : Fin tableMax → Ptr) : (Server.start keys values : Server ι).Sound where
  valid := (refines_empty fun _ => rfl).valid
  buffers := fun _ _ _ _ hw => nomatch hw

theorem Activity.observe_eq_reading {x : Activity} {p : Nat} {since : List KvStore}
    (h : x.observe kv = .reading k p since) :
    ∃ before, x = .reading k p before ∧ since = before ++ [kv] := by
  cases x with
  | ready => exact nomatch h
  | reading k' p' before =>
    obtain ⟨rfl, rfl, rfl⟩ := Activity.reading.inj h
    exact ⟨before, rfl, rfl⟩

/-- A store that keeps the buffers of the keys that are being read keeps the invariant. -/
theorem Server.Sound.setStore (hs : s.Sound) (hv : Valid kv)
    (hkeep : ∀ k i p v, s.Reads k → Buffer s.kv k.bytes i p v → Buffer kv k.bytes i p v) :
    (s.setStore kv).Sound := by
  refine ⟨hv, ?_⟩
  intro w k p since hw
  obtain ⟨before, hbefore, rfl⟩ := Activity.observe_eq_reading hw
  obtain ⟨i, v, hbuf, kv₀, hmem, hlook⟩ := hs.buffers w k p before hbefore
  exact ⟨i, v, hkeep k i p v ⟨w, p, before, hbefore⟩ hbuf, kv₀, List.mem_append_left _ hmem, hlook⟩

/-- A step that frees the buffer of a key under read leaves an unsafe state. -/
theorem Server.Sound.not_safe_setStore (hs : s.Sound) (hr : s.Reads k)
    (hfree : ∀ i p v, Buffer s.kv k.bytes i p v → deref kv.heap (some p) = none) :
    ¬ (s.setStore kv).Safe := by
  obtain ⟨w, p, since, hw⟩ := hr
  obtain ⟨i, v, hbuf, -⟩ := hs.buffers w k p since hw
  intro hsafe
  obtain ⟨v', hlive, -⟩ := hsafe w k p (since ++ [kv])
    (by simp only [Server.setStore, hw, Activity.observe])
  rw [show (s.setStore kv).kv = kv from rfl, hfree i p v hbuf] at hlive
  exact Option.some_ne_none _ hlive.symm

/-! ## One step -/

variable [DecidableEq ι] {a : ι × Op}

theorem Server.Sound.read (hs : s.Sound) (w : ι) (k : Key) :
    ∃ s', s.serve w (.read k) = some s' ∧ s'.Sound := by
  rcases kvRead_buffer hs.valid k.noNul k.short with ⟨i, p, v, hbuf, hread⟩ | hread
  · refine ⟨{ s with workers := Function.update s.workers w (.reading k p [s.kv]) }, ?_,
      hs.valid, ?_⟩
    · simp only [Server.serve, hread, Option.bind_eq_bind, Option.bind_some]
      rfl
    · intro w' k' p' since hw
      by_cases hww : w' = w
      · have hnew : Function.update s.workers w (.reading k p [s.kv]) w = .reading k' p' since :=
          hww ▸ hw
        rw [Function.update_self] at hnew
        obtain ⟨rfl, rfl, rfl⟩ := Activity.reading.inj hnew
        refine ⟨i, v, hbuf, s.kv, List.mem_singleton_self _, ?_⟩
        simp only [lookup, hread, Option.bind_eq_bind, Option.bind_some]
        exact hbuf.live
      · exact hs.buffers w' k' p' since ((Function.update_of_ne hww _ _).symm.trans hw)
  · refine ⟨s, ?_, hs⟩
    simp only [Server.serve, hread, Option.bind_eq_bind, Option.bind_some]
    rfl

theorem Server.Sound.reply (hs : s.Sound) (hw : s.workers w ≠ .ready) :
    ∃ s', s.serve w .reply = some s' ∧ s'.Sound := by
  cases hact : s.workers w with
  | ready => exact absurd hact hw
  | reading k p since =>
    obtain ⟨i, v, hbuf, -⟩ := hs.buffers w k p since hact
    refine ⟨{ s with
      workers := Function.update s.workers w .ready
      sent := s.sent ++ [(k, v)] }, ?_, hs.valid, ?_⟩
    · simp only [Server.serve, hact, hbuf.live, Option.bind_eq_bind, Option.bind_some]
      rfl
    · intro w' k' p' since' hw'
      by_cases hww : w' = w
      · have hready : Function.update s.workers w .ready w = .reading k' p' since' := hww ▸ hw'
        rw [Function.update_self] at hready
        exact nomatch hready
      · exact hs.buffers w' k' p' since' ((Function.update_of_ne hww _ _).symm.trans hw')

/-- Every step is defined; it keeps the invariant, unless it is in conflict with a read: then a
worker holds a freed buffer afterwards. -/
theorem Server.Sound.serve (hs : s.Sound) {r : Op} (hr : s.Ready w r) :
    ∃ s', s.serve w r = some s' ∧ (¬ s.Conflict r → s'.Sound) ∧ (s.Conflict r → ¬ s'.Safe) := by
  cases r with
  | write k v =>
    obtain ⟨kv, n, hwrite, hv⟩ := kvWrite_valid hs.valid k.noNul k.short v.noNul
    refine ⟨s.setStore kv, ?_, ?_, ?_⟩
    · simp only [Server.serve, hwrite, Option.bind_eq_bind, Option.bind_some]
      rfl
    · intro hno
      apply hs.setStore hv
      intro k' i p u hreads hbuf
      apply hbuf.write hs.valid k.noNul k.short v.noNul hwrite
      intro he n hfind hn
      have hkk := Key.eq_of_bytes he
      exact hno ⟨hkk ▸ hreads, n, hfind, hn⟩
    · intro hcon
      obtain ⟨hreads, n, hfind, hn⟩ := hcon
      apply hs.not_safe_setStore hreads
      intro i p u hbuf
      exact hbuf.write_frees hs.valid k.noNul k.short v.noNul hwrite hfind hn
  | delete k =>
    obtain ⟨kv, hdel, hv⟩ := kvDelete_valid hs.valid k.noNul k.short
    refine ⟨s.setStore kv, ?_, ?_, ?_⟩
    · simp only [Server.serve, hdel, Option.bind_eq_bind, Option.bind_some]
      rfl
    · intro hno
      apply hs.setStore hv
      intro k' i p u hreads hbuf
      apply hbuf.delete hs.valid k.noNul k.short hdel
      intro he
      have hkk := Key.eq_of_bytes he
      exact hno (hkk ▸ hreads)
    · intro hreads
      apply hs.not_safe_setStore hreads
      intro i p u hbuf
      exact hbuf.delete_frees hs.valid k.noNul k.short hdel
  | read k =>
    obtain ⟨s', hserve, hs'⟩ := hs.read w k
    exact ⟨s', hserve, fun _ => hs', fun hcon => hcon.elim⟩
  | reply =>
    obtain ⟨s', hserve, hs'⟩ := hs.reply hr
    exact ⟨s', hserve, fun _ => hs', fun hcon => hcon.elim⟩

theorem Server.Sound.of_steps {keys : Fin tableMax → Fin maxKeyLen → UInt8}
    {values : Fin tableMax → Ptr} {as : List (ι × Op)}
    (hrun : Steps QuietStep (Server.start keys values) as s) : s.Sound := by
  refine Steps.invariant ?_ hrun (Server.Sound.start keys values)
  intro s a s' hs hstep
  obtain ⟨⟨hready, hserve⟩, hquiet⟩ := hstep
  obtain ⟨u, hu, hsound, -⟩ := hs.serve hready
  obtain rfl := Option.some.inj (hserve.symm.trans hu)
  exact hsound hquiet

/-! ## Reads of live buffers -/

/-- In every run in which no key is deleted or overwritten while a worker stands between `kv_read`
of it and the reply, every buffer about to be used is live and holds a value the key has had since;
and the first step that breaks this rule leaves a worker with a freed buffer. -/
theorem reply_uses_live_buffer {keys : Fin tableMax → Fin maxKeyLen → UInt8}
    {values : Fin tableMax → Ptr} {as : List (ι × Op)}
    (hrun : Steps QuietStep (Server.start keys values) as s) :
    s.Safe ∧ ∀ w r, s.Ready w r →
      ∃ s', s.serve w r = some s' ∧ (s'.Safe ↔ ¬ s.Conflict r) := by
  have hs := Server.Sound.of_steps hrun
  refine ⟨hs.safe, ?_⟩
  intro w r hr
  obtain ⟨s', hserve, hquiet, hcon⟩ := hs.serve hr
  refine ⟨s', hserve, ?_, fun h => (hquiet h).safe⟩
  intro hsafe h
  exact hcon h hsafe

/-- A server of two workers whose table is all zero. -/
def twoWorkers : Server (Fin 2) := Server.start (fun _ _ => 0) (fun _ => none)

theorem reply_uses_live_buffer_read :
    ∃ s, Steps QuietStep twoWorkers [(0, .write keyA value1), (0, .read keyA)] s ∧ s.Reads keyA ∧
      s.Safe ∧ ∀ w r, s.Ready w r →
        ∃ s', s.serve w r = some s' ∧ (s'.Safe ↔ ¬ s.Conflict r) := by
  have hrun : ∃ s, Steps QuietStep twoWorkers [(0, .write keyA value1), (0, .read keyA)] s ∧
      s.Reads keyA := by
    refine ⟨_, Steps.cons ⟨⟨rfl, rfl⟩, ?_⟩ (Steps.cons ⟨⟨rfl, rfl⟩, id⟩ (Steps.nil _)),
      ⟨0, 0, _, rfl⟩⟩
    intro hcon
    obtain ⟨⟨w, p, since, hw⟩, -⟩ := hcon
    exact nomatch hw
  obtain ⟨s, hsteps, hreads⟩ := hrun
  exact ⟨s, hsteps, hreads, reply_uses_live_buffer hsteps⟩

/-- One worker deletes the key between the two steps of a read by the other. -/
theorem reply_uses_freed_buffer :
    ∃ s, Steps ServeStep twoWorkers
      [(0, .write keyA value1), (0, .read keyA), (1, .delete keyA)] s ∧
      ¬ s.Safe ∧ s.serve 0 .reply = none := by
  refine ⟨_, Steps.cons ⟨rfl, rfl⟩ (Steps.cons ⟨rfl, rfl⟩ (Steps.cons ⟨rfl, rfl⟩
    (Steps.nil _))), ?_, rfl⟩
  intro hsafe
  obtain ⟨v, hlive, -⟩ := hsafe 0 keyA 0 _ rfl
  exact nomatch hlive

end SystemsProjects.Dbserver
