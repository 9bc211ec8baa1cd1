import SystemsProjects.Dbserver.Dispatch
import SystemsProjects.Kvstore.Refine
import SystemsProjects.Lib.Atomic

/-!
# Clients and workers

Any number of clients at once: each connects, sends a request, has it served by a worker and reads
the reply. The calls on the store are one step each, for they hold its lock; `handle_read` takes two
steps, as the buffer is read after the lock is released. In every interleaving in which no request
runs into the defects of the store and of the receive loop, what the clients see is linearizable:
the history of a bounded map.
-/

namespace SystemsProjects.Dbserver

open SystemsProjects.Lib SystemsProjects.Kvstore

variable {ι : Type}

/-- The request a client sends for a call, over what `rq` held before. -/
def requestOf (junk : Request) : Call → Option Request
  | .write k v => setRequest junk k.bytes v.bytes.length
  | .read k => getRequest junk k.bytes
  | .delete k => delRequest junk k.bytes

/-- What the client writes behind the request. -/
def payloadOf : Call → List UInt8
  | .write _ v => v.bytes
  | _ => []

/-- A client and its connection: nothing is open; the request is sent; a worker is in `handle_read`
with the pointer `p`; the worker has replied and closed its end. `rq` is the client's structure and
`held` the worker's. -/
inductive Conn where
  | closed
  | sent (c : Call) (rq : Request)
  | reading (c : Call) (held : Request) (p : Nat)
  | answered (c : Call) (reply : Request) (data : List UInt8)

structure System (ι : Type) where
  kv : KvStore
  conns : ι → Conn

/-- What a client meets when it reads the reply: its structure, the bytes of its first `read`, the
memory behind the structure and under the buffer, and the reads after the first. -/
structure View where
  junk : Request
  got : Option (List UInt8)
  behind : List UInt8
  stack : Nat → UInt8
  peer : Peer

/-- The structure after the first `read`. -/
def View.header (v : View) : Header :=
  match v.got with
  | none => .failed
  | some got => .bytes got.length (v.junk.fill got)

/-- What the client prints at the end of a call. -/
def Prints (v : View) (out : Outcome) : Call → Prop
  | .read _ => ∃ r, out = .printed r ∧
      match v.header with
      | .failed => r = .readError
      | .bytes val rq => GetEnds val rq v.behind v.stack v.peer r
  | _ => out = statusOutcome v.header

/-- One step of a client or of a worker. -/
inductive Exchange (ι : Type) where
  | connect (i : ι) (c : Call) (junk : Request)
  | dispatch (i : ι) (w : Wire)
  | reply (i : ι)
  | receive (i : ι) (v : View) (out : Outcome)

/-- What the clients see of a step. -/
def Exchange.seen : Exchange ι → Option (Event ι Call Outcome)
  | .connect i c _ => some (.invoke i c)
  | .receive i _ out => some (.respond i out)
  | _ => none

/-- The worker reads what the client has written, in order. -/
def Wire.Carries (w : Wire) (rq : Request) (payload : List UInt8) : Prop :=
  w.got.length ≤ requestSize ∧ w.got ++ w.sock.pieces.flatten <+: rq.bytes ++ payload

/-- The client reads what the worker has written, in order. -/
def View.Carries (v : View) (reply : Request) (data : List UInt8) : Prop :=
  ∀ got, v.got = some got → got.length ≤ requestSize ∧
    ∀ n, got ++ v.peer.bytes n <+: reply.bytes ++ data

/-- The connection after a worker's part of the call. -/
def Served.conn (c : Call) : Served → Conn
  | .replied reply data => .answered c reply data
  | .reading held p => .reading c held p
  | .quit => .closed

section Steps
variable [DecidableEq ι]

def System.set (s : System ι) (i : ι) (x : Conn) : System ι :=
  { s with conns := Function.update s.conns i x }

/-- The steps. -/
inductive ExchangeStep : System ι → Exchange ι → System ι → Prop
  | connect {s : System ι} {i : ι} {c : Call} {junk rq : Request} : s.conns i = .closed →
      requestOf junk c = some rq → ExchangeStep s (.connect i c junk) (s.set i (.sent c rq))
  | dispatch {s : System ι} {i : ι} {c : Call} {rq : Request} {w : Wire} {kv : KvStore}
      {served : Served} : s.conns i = .sent c rq → w.Carries rq (payloadOf c) →
      dispatch w s.kv = some (kv, served) → served ≠ .quit →
      ExchangeStep s (.dispatch i w) { s.set i (served.conn c) with kv := kv }
  | reply {s : System ι} {i : ι} {c : Call} {held reply : Request} {p : Nat} {data : List UInt8} :
      s.conns i = .reading c held p → handleReadReply held s.kv.heap p = some (reply, data) →
      ExchangeStep s (.reply i) (s.set i (.answered c reply data))
  | receive {s : System ι} {i : ι} {c : Call} {reply : Request} {data : List UInt8} {v : View}
      {out : Outcome} : s.conns i = .answered c reply data → v.Carries reply data →
      Prints v out c → ExchangeStep s (.receive i v out) (s.set i .closed)

end Steps

/-- The store that `init` sets up, and no client. -/
def System.start (keys : Fin tableMax → Fin maxKeyLen → UInt8) (values : Fin tableMax → Ptr) :
    System ι where
  kv := { keys := fun i => { stat := 0, key := keys i }, values := values, heap := [] }
  conns := fun _ => .closed

/-! ## Requests that meet no defect -/

/-- The name fits in the request, the length in its field, and the value is not empty. -/
def Sized : Call → Prop
  | .write k v => k.bytes.length ≤ 30 ∧ v.bytes ≠ [] ∧ v.bytes.length < 10 ^ 7
  | .read k => k.bytes.length ≤ 30
  | .delete k => k.bytes.length ≤ 30

/-- Somebody is in `handle_read` of the key. -/
def System.Reads (s : System ι) (k : Key) : Prop :=
  ∃ i held p, s.conns i = .reading (.read k) held p

/-- The call frees no buffer that is being read, and does not overwrite the key in slot 0. -/
def System.Spares (s : System ι) : Call → Prop
  | .write k _ => ¬ InSlotZero s.kv k.bytes ∧
      (s.Reads k → ∀ n, findKey s.kv k.bytes = some n → ¬ n > 0)
  | .delete k => ¬ s.Reads k
  | .read _ => True

/-- The request comes whole, and the value in one piece. -/
def Wire.Whole (w : Wire) (payload : List UInt8) : Prop :=
  w.got.length = requestSize ∧ (payload ≠ [] → w.sock.pieces = [payload])

/-- The header of the reply comes whole, and the data in any pieces. -/
def View.Whole (v : View) (data : List UInt8) : Prop :=
  (∃ got, v.got = some got ∧ got.length = requestSize) ∧ v.peer.Sends data

/-- A step that meets no defect. -/
def System.Quiet (s : System ι) : Exchange ι → Prop
  | .connect _ c _ => Sized c
  | .dispatch i w => ∀ c rq, s.conns i = .sent c rq → w.Whole (payloadOf c) ∧ s.Spares c
  | .reply _ => True
  | .receive i v _ => ∀ c reply data, s.conns i = .answered c reply data → v.Whole data

/-! ## The bounded map -/

/-- What a client prints for a result. -/
def outcomeOf : Reply → Outcome
  | .status r => if r = 0 then .ok else .printed (.refused 88)
  | .value none => .printed (.refused 88)
  | .value (some v) => .printed (.value false v.length v)
  | .done => .ok

/-- A call on the map, with what the client prints. -/
def printStep (m : KvMap) (c : Call) : KvMap × Outcome :=
  ((mapStep m c).1, outcomeOf (mapStep m c).2)

/-! ## The invariant -/

/-- A request carries its call. -/
def Requests (rq : Request) : Call → Prop
  | .write k v => rq.opStatus = 87 ∧ cstr (bytesFrom rq.name 0) = some k.bytes ∧
      cstr (bytesFrom rq.len 0) = some (decimal v.bytes.length)
  | .read k => rq.opStatus = 82 ∧ cstr (bytesFrom rq.name 0) = some k.bytes
  | .delete k => rq.opStatus = 68 ∧ cstr (bytesFrom rq.name 0) = some k.bytes

/-- A reply makes the client print `out`. -/
def Answers (reply : Request) (data : List UInt8) (out : Outcome) : Call → Prop
  | .read _ => (reply.opStatus = 88 ∧ out = .printed (.refused 88)) ∨
      (reply.opStatus = 75 ∧ out = .printed (.value false data.length data) ∧
        ∀ behind, announced reply behind = data.length)
  | _ => (reply.opStatus = 75 ∧ out = .ok) ∨ (reply.opStatus = 88 ∧ out = .printed (.refused 88))

/-- A connection against the client of the map: a read is performed when `kv_read` returns. -/
def ConnOk (kv : KvStore) : Conn → Pending Call Outcome → Prop
  | .closed, p => p = .none
  | .sent c rq, p => p = .waiting c ∧ Sized c ∧ Requests rq c
  | .reading c _ a, p => ∃ k v slot, c = .read k ∧ p = .done (.printed (.value false v.length v)) ∧
      Buffer kv k.bytes slot a v ∧ v.length < 10 ^ 7
  | .answered c reply data, p => ∃ out, p = .done out ∧ Answers reply data out c

/-- The system against the map and its clients. -/
structure Follows (s : System ι) (a : Atomic KvMap ι Call Outcome) : Prop where
  refines : Refines s.kv a.state
  sized : ∀ k v, a.state.get k = some v → v.length < 10 ^ 7
  conns : ∀ i, ConnOk s.kv (s.conns i) (a.clients i)

theorem Follows.start (keys : Fin tableMax → Fin maxKeyLen → UInt8) (values : Fin tableMax → Ptr) :
    Follows (System.start keys values : System ι) (.init BoundedMap.empty) where
  refines := refines_empty fun _ => rfl
  sized := fun k v h => by cases h
  conns := fun _ => rfl

/-- The request of a sized call carries it. -/
theorem requestOf_requests {junk rq : Request} {c : Call} (hc : Sized c)
    (h : requestOf junk c = some rq) : Requests rq c := by
  cases c with
  | write k v =>
    obtain ⟨hk, -, hv⟩ := hc
    obtain ⟨text, hname, hkey⟩ := putName_eq junk k.noNul hk
    obtain ⟨digits, hlen, hdec⟩ := putLen_eq { junk with name := text, opStatus := 87 } hv
    simp only [requestOf, setRequest, hname, hlen, Option.bind_eq_bind, Option.bind_some,
      Option.some.injEq] at h
    subst h
    exact ⟨rfl, hkey, hdec⟩
  | read k =>
    obtain ⟨text, hname, hkey⟩ := putName_eq junk k.noNul hc
    obtain ⟨digits, hlen, -⟩ := putLen_eq { junk with name := text, opStatus := 82 }
      (show 0 < 10 ^ 7 by omega)
    simp only [requestOf, getRequest, hname, hlen, Option.bind_eq_bind, Option.bind_some,
      Option.some.injEq] at h
    subst h
    exact ⟨rfl, hkey⟩
  | delete k =>
    obtain ⟨text, hname, hkey⟩ := putName_eq junk k.noNul hc
    simp only [requestOf, delRequest, hname, Option.bind_eq_bind, Option.bind_some, Option.pure_def,
      Option.some.injEq] at h
    subst h
    exact ⟨rfl, hkey⟩

/-- A whole request is read as it was sent. -/
theorem Wire.Carries.fill_eq {w : Wire} {rq : Request} {payload : List UInt8}
    (h : w.Carries rq payload) (hwhole : w.got.length = requestSize) : w.junk.fill w.got = rq := by
  have hgot : w.got = rq.bytes := by
    have hpre : w.got <+: rq.bytes ++ payload := (List.prefix_append _ _).trans h.2
    have hle : w.got <+: rq.bytes := List.prefix_of_prefix_length_le hpre (List.prefix_append _ _)
      (by rw [hwhole, rq.bytes_length])
    exact hle.eq_of_length (by rw [hwhole, rq.bytes_length])
  rw [hgot, Request.fill_bytes]

/-! ## One request -/

section Dispatch
variable {w : Wire} {kv kv' : KvStore} {rq : Request} {k : Key}

theorem dispatch_write {v : Value} {r : Int} (hw : w.Carries rq v.bytes) (hwhole : w.Whole v.bytes)
    (hrq : Requests rq (.write k v)) (hne : v.bytes ≠ [])
    (hkv : kvWrite kv k.bytes v.bytes = some (kv', r)) :
    ∃ reply, dispatch w kv = some (kv', .replied reply []) ∧
      Answers reply [] (outcomeOf (.status r)) (.write k v) := by
  obtain ⟨hop, hname, hlen⟩ := hrq
  have hpieces := hwhole.2 hne
  have hdel : Delivers rq w.sock k.bytes v.bytes :=
    { name := hname, len := hlen, noNul := v.noNul
      pieces := by
        intro p hp
        rw [hpieces] at hp
        rwa [List.mem_singleton.mp hp]
      payload := by rw [hpieces, List.flatten_singleton] }
  have hpos : ¬ (v.bytes.length : Int) ≤ 0 := by
    have := List.length_pos_iff.mpr hne
    omega
  have hcstr : cstr (v.bytes ++ [0]) = some v.bytes :=
    cstr_eq_some_iff.mpr ⟨v.noNul, List.prefix_rfl⟩
  obtain ⟨reply, hreply, hstatus⟩ := respOkay_zero rq
  have hdispatch : dispatch w kv = (handleWrite w.stack w.n₀ rq w.sock kv).bind fun out =>
      some (out.kv, .replied out.reply []) := by
    simp only [dispatch, hw.fill_eq hwhole.1, hwhole.1, hop, ne_eq, not_true_eq_false, if_false,
      if_true]
    rfl
  rw [hdispatch, hdel.handleWrite_eq, receive_one hne hpieces]
  simp only [Option.bind_some, if_neg hpos, hcstr, hkv]
  by_cases hr : r = 0
  · simp only [if_pos hr, hreply, Option.bind_some]
    refine ⟨reply.1, rfl, .inl ⟨hstatus, ?_⟩⟩
    rw [outcomeOf, if_pos hr]
  · simp only [if_neg hr, Option.bind_some]
    refine ⟨respFail rq, rfl, .inr ⟨rfl, ?_⟩⟩
    rw [outcomeOf, if_neg hr]

theorem dispatch_read {x : Ptr} (hw : w.Carries rq []) (hwhole : w.Whole [])
    (hrq : Requests rq (.read k)) (hkv : kvRead kv k.bytes = some x) :
    dispatch w kv = some (kv, match x with
      | none => .replied (respFail rq) []
      | some p => .reading rq p) := by
  obtain ⟨hop, hname⟩ := hrq
  have hdispatch : dispatch w kv = (handleRead rq kv).bind fun served => some (kv, served) := by
    simp only [dispatch, hw.fill_eq hwhole.1, hwhole.1, hop, ne_eq, not_true_eq_false, if_false]
    rfl
  rw [hdispatch]
  simp only [handleRead, hname, hkv, Option.bind_eq_bind, Option.bind_some]
  cases x <;> rfl

theorem dispatch_delete (hw : w.Carries rq []) (hwhole : w.Whole [])
    (hrq : Requests rq (.delete k)) (hkv : kvDelete kv k.bytes = some kv') :
    ∃ reply data, dispatch w kv = some (kv', .replied reply data) ∧
      Answers reply data .ok (.delete k) := by
  obtain ⟨hop, hname⟩ := hrq
  obtain ⟨reply, hreply, hstatus⟩ := respOkay_zero rq
  refine ⟨reply.1, reply.2, ?_, .inl ⟨hstatus, rfl⟩⟩
  have hdispatch : dispatch w kv = handleDelete rq kv := by
    simp only [dispatch, hw.fill_eq hwhole.1, hwhole.1, hop, ne_eq, not_true_eq_false, if_false]
    rfl
  rw [hdispatch]
  simp only [handleDelete, hname, hkv, hreply, Option.bind_eq_bind, Option.bind_some]
  rfl

end Dispatch

/-! ## One step -/

section Steps
variable [DecidableEq ι] {s s' : System ι} {a : Atomic KvMap ι Call Outcome} {i : ι}

theorem ConnOk.keep {kv kv' : KvStore} {x : Conn} {p : Pending Call Outcome} (h : ConnOk kv x p)
    (hkeep : ∀ k held b, x = .reading (.read k) held b → ∀ slot v, Buffer kv k.bytes slot b v →
      Buffer kv' k.bytes slot b v) : ConnOk kv' x p := by
  cases x with
  | reading c held b =>
    obtain ⟨k, v, slot, rfl, hp, hbuf, hv⟩ := h
    exact ⟨k, v, slot, rfl, hp, hkeep k held b rfl slot v hbuf, hv⟩
  | closed => exact h
  | sent c rq => exact h
  | answered c reply data => exact h

/-- One connection moves on, perhaps with a new store. -/
theorem Follows.move (h : Follows s a) {kv : KvStore} {m : KvMap} {x : Conn}
    {p : Pending Call Outcome} (hrefines : Refines kv m)
    (hsized : ∀ k v, m.get k = some v → v.length < 10 ^ 7) (hx : ConnOk kv x p)
    (hkeep : ∀ k, s.Reads k → ∀ slot b v, Buffer s.kv k.bytes slot b v →
      Buffer kv k.bytes slot b v) :
    Follows { s.set i x with kv := kv } { a.set i p with state := m } where
  refines := hrefines
  sized := hsized
  conns := by
    intro j
    by_cases hj : j = i
    · subst hj
      simpa only [System.set, Atomic.set, Function.update_self] using hx
    · simp only [System.set, Atomic.set, Function.update_of_ne hj]
      exact (h.conns j).keep fun k held b hread slot v hbuf =>
        hkeep k ⟨j, held, b, hread⟩ slot b v hbuf

/-- One connection moves on, and the store stays. -/
theorem Follows.stay (h : Follows s a) {x : Conn} {p : Pending Call Outcome}
    (hx : ConnOk s.kv x p) : Follows (s.set i x) (a.set i p) :=
  h.move h.refines h.sized hx fun _ _ _ _ _ hbuf => hbuf

omit [DecidableEq ι] in
theorem Follows.conn (h : Follows s a) {x : Conn} (hx : s.conns i = x) :
    ConnOk s.kv x (a.clients i) := hx ▸ h.conns i

/-- A value of the map after a call was there before or is the value written. -/
theorem mapStep_get {m : KvMap} {c : Call} {key val : List UInt8}
    (h : (mapStep m c).1.get key = some val) :
    m.get key = some val ∨ ∃ k v, c = .write k v ∧ v.bytes = val := by
  cases c with
  | read k => exact .inl h
  | delete k =>
    left
    by_cases hk : key = k.bytes
    · subst hk
      exact absurd h (by simp [mapStep, BoundedMap.get, BoundedMap.remove])
    · rwa [mapStep, BoundedMap.get, BoundedMap.remove, Finmap.lookup_erase_ne hk] at h
  | write k v =>
    cases hput : m.put k.bytes v.bytes with
    | none =>
      simp only [mapStep, hput] at h
      exact .inl h
    | some m' =>
      simp only [mapStep, hput] at h
      unfold BoundedMap.put at hput
      split_ifs at hput
      obtain rfl := Option.some.inj hput
      by_cases hk : key = k.bytes
      · subst hk
        rw [BoundedMap.get, Finmap.lookup_insert] at h
        exact .inr ⟨k, v, rfl, Option.some.inj h⟩
      · rw [BoundedMap.get, Finmap.lookup_insert_of_ne _ hk] at h
        exact .inl h

omit [DecidableEq ι] in
theorem Follows.sized_step (h : Follows s a) {c : Call} (hc : Sized c) {key val : List UInt8}
    (hget : (printStep a.state c).1.get key = some val) : val.length < 10 ^ 7 := by
  rcases mapStep_get hget with hget | ⟨k, v, rfl, rfl⟩
  · exact h.sized key val hget
  · exact hc.2.2

/-- What becomes of a request that is served. -/
def Serves (s : System ι) (a : Atomic KvMap ι Call Outcome) (i : ι) (c : Call) (w : Wire) : Prop :=
  ∃ kv served, dispatch w s.kv = some (kv, served) ∧
    Follows { s.set i (served.conn c) with kv := kv }
      { a.set i (.done (printStep a.state c).2) with state := (printStep a.state c).1 }

theorem Follows.write (h : Follows s a) {k : Key} {v : Value} {rq : Request} {w : Wire}
    (hconn : s.conns i = .sent (.write k v) rq) (hw : w.Carries rq v.bytes)
    (hwhole : w.Whole v.bytes) (hspares : s.Spares (.write k v)) : Serves s a i (.write k v) w := by
  obtain ⟨-, hsized, hrq⟩ := h.conn hconn
  obtain ⟨kv, hexec, hrefines⟩ := h.refines.exec_write k v hspares.1
  obtain ⟨⟨kv', r⟩, hkv, heq⟩ := Option.bind_eq_some_iff.mp hexec
  obtain ⟨rfl, hreply⟩ := Prod.mk.inj (Option.some.inj heq)
  obtain ⟨reply, hdispatch, hanswers⟩ := dispatch_write hw hwhole hrq hsized.2.1 hkv
  refine ⟨kv', _, hdispatch, h.move hrefines (fun key val => h.sized_step hsized) ?_ ?_⟩
  · refine ⟨_, rfl, ?_⟩
    rw [printStep, ← hreply]
    exact hanswers
  · intro k' hread slot b v' hbuf
    refine hbuf.write h.refines.valid k.noNul k.short v.noNul hkv fun hkk => ?_
    rw [← Key.eq_of_bytes hkk] at hread
    exact hspares.2 hread

theorem Follows.delete (h : Follows s a) {k : Key} {rq : Request} {w : Wire}
    (hconn : s.conns i = .sent (.delete k) rq) (hw : w.Carries rq []) (hwhole : w.Whole [])
    (hspares : s.Spares (.delete k)) : Serves s a i (.delete k) w := by
  obtain ⟨-, hsized, hrq⟩ := h.conn hconn
  obtain ⟨kv, hexec, hrefines⟩ := h.refines.exec_delete k
  obtain ⟨kv', hkv, heq⟩ := Option.bind_eq_some_iff.mp hexec
  obtain ⟨rfl, -⟩ := Prod.mk.inj (Option.some.inj heq)
  obtain ⟨reply, data, hdispatch, hanswers⟩ := dispatch_delete hw hwhole hrq hkv
  refine ⟨kv', _, hdispatch, h.move hrefines (fun key val => h.sized_step hsized)
    ⟨_, rfl, hanswers⟩ ?_⟩
  intro k' hread slot b v' hbuf
  refine hbuf.delete h.refines.valid k.noNul k.short hkv fun hkk => ?_
  rw [← Key.eq_of_bytes hkk] at hread
  exact hspares hread

theorem Follows.read (h : Follows s a) {k : Key} {rq : Request} {w : Wire}
    (hconn : s.conns i = .sent (.read k) rq) (hw : w.Carries rq []) (hwhole : w.Whole []) :
    Serves s a i (.read k) w := by
  obtain ⟨-, hsized, hrq⟩ := h.conn hconn
  have hexec := h.refines.exec_read k
  rcases kvRead_buffer h.refines.valid k.noNul k.short with ⟨slot, p, v, hbuf, hkv⟩ | hkv
  · have hget : a.state.get k.bytes = some v := by
      simp only [exec, hkv, hbuf.live, Option.bind_eq_bind, Option.bind_some, Option.pure_def,
        Option.some.injEq, Prod.mk.injEq, Reply.value.injEq, true_and] at hexec
      exact hexec.symm
    refine ⟨s.kv, _, dispatch_read hw hwhole hrq hkv, h.move h.refines h.sized ?_
      fun _ _ _ _ _ hbuf => hbuf⟩
    refine ⟨k, v, slot, rfl, ?_, hbuf, h.sized _ _ hget⟩
    rw [printStep, mapStep, hget]
    rfl
  · have hget : a.state.get k.bytes = none := by
      simp only [exec, hkv, Option.bind_eq_bind, Option.bind_some, Option.pure_def,
        Option.some.injEq, Prod.mk.injEq, Reply.value.injEq, true_and] at hexec
      exact hexec.symm
    refine ⟨s.kv, _, dispatch_read hw hwhole hrq hkv, h.move h.refines h.sized ?_
      fun _ _ _ _ _ hbuf => hbuf⟩
    refine ⟨.printed (.refused 88), ?_, .inl ⟨rfl, rfl⟩⟩
    rw [printStep, mapStep, hget]
    rfl

theorem Follows.served (h : Follows s a) {c : Call} {rq : Request} {w : Wire}
    (hconn : s.conns i = .sent c rq) (hw : w.Carries rq (payloadOf c))
    (hwhole : w.Whole (payloadOf c)) (hspares : s.Spares c) : Serves s a i c w := by
  cases c with
  | write k v => exact h.write hconn hw hwhole hspares
  | read k => exact h.read hconn hw hwhole
  | delete k => exact h.delete hconn hw hwhole hspares

/-- The client prints what the reply says. -/
theorem Answers.prints {reply : Request} {data : List UInt8} {c : Call} {out out' : Outcome}
    (h : Answers reply data out c) {v : View} (hv : v.Carries reply data) (hwhole : v.Whole data)
    (hout : Prints v out' c) : out' = out := by
  obtain ⟨⟨got, hgot, hlen⟩, hsends⟩ := hwhole
  have hbytes : got = reply.bytes := by
    have hpre : got <+: reply.bytes ++ data := (List.prefix_append _ _).trans ((hv got hgot).2 0)
    have hle : got <+: reply.bytes := List.prefix_of_prefix_length_le hpre (List.prefix_append _ _)
      (by rw [hlen, reply.bytes_length])
    exact hle.eq_of_length (by rw [hlen, reply.bytes_length])
  have hheader : v.header = .bytes requestSize reply := by
    rw [View.header, hgot, hbytes]
    simp only [Request.fill_bytes, reply.bytes_length]
  have hstatus : (reply.opStatus = 75 ∧ out = .ok) ∨
      (reply.opStatus = 88 ∧ out = .printed (.refused 88)) →
      out = statusOutcome (.bytes requestSize reply) := by
    rintro (⟨hop, rfl⟩ | ⟨hop, rfl⟩) <;> simp [statusOutcome, hop]
  cases c with
  | write k v' => rw [hstatus h, ← hheader]; exact hout
  | delete k => rw [hstatus h, ← hheader]; exact hout
  | read k =>
    obtain ⟨r, rfl, hr⟩ := hout
    rw [hheader] at hr
    rcases h with ⟨hop, rfl⟩ | ⟨hop, rfl, hann⟩
    · have hget : getStatus (.bytes requestSize reply) v.behind v.stack = .inr (.refused 88) := by
        simp [getStatus, hop]
      simp only [GetEnds, hget] at hr
      rw [ends_inr.mp hr]
    · have hget : getStatus (.bytes requestSize reply) v.behind v.stack =
          .inl (payloadStart data.length v.stack) := by
        simp [getStatus, hop, hann]
      simp only [GetEnds, hget, hann] at hr
      rw [hr.unique (payload_value hsends v.stack)]

/-- Each quiet step is a step of the map and its clients, or none. -/
theorem Follows.step (h : Follows s a) {x : Exchange ι} (hstep : ExchangeStep s x s')
    (hquiet : s.Quiet x) : ∃ a', AtomicMatch printStep a x.seen a' ∧ Follows s' a' := by
  cases hstep with
  | connect hconn hrq =>
    exact ⟨_, .inl (.invoke (h.conn hconn)), h.stay ⟨rfl, hquiet, requestOf_requests hquiet hrq⟩⟩
  | @dispatch i c rq w kv served hconn hw hrun =>
    obtain ⟨hwhole, hspares⟩ := hquiet c rq hconn
    obtain ⟨kv', served', hrun', hfollows⟩ := h.served hconn hw hwhole hspares
    obtain ⟨rfl, rfl⟩ := Prod.mk.inj (Option.some.inj (hrun.symm.trans hrun'))
    exact ⟨_, .inl (.perform (h.conn hconn).1), hfollows⟩
  | @reply i c held reply p data hconn hrun =>
    obtain ⟨k, v, slot, rfl, hdone, hbuf, hv⟩ := h.conn hconn
    obtain ⟨reply', hreply, hop, hann⟩ := respOkay_eq held hv
    have hrun' : handleReadReply held s.kv.heap p = some (reply', v) := by
      simp only [handleReadReply, hbuf.live, Option.bind_eq_bind, Option.bind_some, hreply]
    obtain ⟨rfl, rfl⟩ := Prod.mk.inj (Option.some.inj (hrun.symm.trans hrun'))
    refine ⟨a.set i (.done (.printed (.value false data.length data))), .inr ⟨rfl, ?_⟩, h.stay ?_⟩
    · rw [Atomic.set, ← hdone, Function.update_eq_self]
    · exact ⟨_, rfl, .inr ⟨hop, rfl, hann⟩⟩
  | @receive i c reply data v out hconn hv hout =>
    obtain ⟨out', hdone, hanswers⟩ := h.conn hconn
    obtain rfl := hanswers.prints hv (hquiet c reply data hconn) hout
    exact ⟨_, .inl (.respond hdone), h.stay rfl⟩

/-- In every run of clients and workers in which no request meets a defect, what the clients see is
linearizable: each call takes effect on a bounded map at one moment between its request and its
reply. -/
theorem exchange_linearizable {keys : Fin tableMax → Fin maxKeyLen → UInt8}
    {values : Fin tableMax → Ptr} {xs : List (Exchange ι)} {s : System ι}
    (hrun : Steps (fun s x s' => ExchangeStep s x s' ∧ s.Quiet x) (.start keys values) xs s) :
    Linearizable printStep BoundedMap.empty (xs.map Exchange.seen).reduceOption :=
  linearizable_of_sim Exchange.seen (fun _ _ _ _ ha hstep => ha.step hstep.1 hstep.2) hrun
    (Follows.start keys values)

end Steps

/-- A client that reads nothing behind the header. -/
def headerView (reply : Request) : View where
  junk := writeRequest
  got := some reply.bytes
  behind := []
  stack := fun _ => 0
  peer := ⟨fun _ => .closed, fun _ _ => rfl⟩

theorem headerView_whole (reply : Request) :
    (headerView reply).Carries reply [] ∧ (headerView reply).Whole [] := by
  have hnone : ∀ n, (headerView reply).peer.bytes n = [] := by
    intro n
    induction n with
    | zero => rfl
    | succ n ih => rw [Peer.bytes, ih]; rfl
  refine ⟨fun got hgot => ?_, ⟨_, rfl, reply.bytes_length⟩, 0, by simp, rfl⟩
  obtain rfl := Option.some.inj hgot
  exact ⟨reply.bytes_length.le, fun n => by rw [hnone]⟩

/-- A client stores a value and is told `ok`. -/
theorem exchange_linearizable_write :
    Linearizable printStep BoundedMap.empty
      [.invoke (0 : Fin 2) (.write keyA value1), .respond 0 .ok] := by
  let start : System (Fin 2) := .start (fun _ _ => 0) fun _ => none
  have hsized : Sized (.write keyA value1) := ⟨by decide, by decide, by decide⟩
  obtain ⟨rq, hrq⟩ : ∃ rq, requestOf writeRequest (.write keyA value1) = some rq := ⟨_, rfl⟩
  let w : Wire := ⟨writeRequest, rq.bytes, ⟨[[49]], 0, le_rfl⟩, fun _ => 0, 0⟩
  have hw : w.Carries rq value1.bytes := ⟨rq.bytes_length.le, List.prefix_rfl⟩
  have hwhole : w.Whole value1.bytes := ⟨rq.bytes_length, fun _ => rfl⟩
  obtain ⟨kv, hkv⟩ := kvWrite_of_room zeroStore_room.1 keyA.noNul keyA.short value1.noNul
    zeroStore_room.2
  obtain ⟨reply, hdispatch, hanswers⟩ :=
    dispatch_write hw hwhole (requestOf_requests hsized hrq) hsized.2.1 hkv
  obtain ⟨hv, hvwhole⟩ := headerView_whole reply
  have hout : Prints (headerView reply) .ok (.write keyA value1) :=
    (hanswers.prints hv hvwhole (by rfl)).symm
  have hserve : start.Quiet (.connect 0 (.write keyA value1) writeRequest) ∧
      (start.set 0 (.sent (.write keyA value1) rq)).Quiet (.dispatch 0 w) := by
    refine ⟨hsized, fun c rq' hconn => ?_⟩
    obtain ⟨rfl, rfl⟩ := Conn.sent.inj hconn
    refine ⟨hwhole, fun h => h.1 rfl, ?_⟩
    rintro ⟨j, held, p, hj⟩
    match j with
    | 0 => cases hj
    | 1 => cases hj
  have hreceive : { start.set 0 (.answered (.write keyA value1) reply []) with kv := kv }.Quiet
      (.receive 0 (headerView reply) .ok) := by
    intro c reply' data hconn
    obtain ⟨rfl, rfl, rfl⟩ := Conn.answered.inj hconn
    exact hvwhole
  have hrun : Steps (fun s x s' => ExchangeStep s x s' ∧ s.Quiet x) start
      [.connect 0 (.write keyA value1) writeRequest, .dispatch 0 w,
        .receive 0 (headerView reply) .ok] _ :=
    .cons ⟨.connect rfl hrq, hserve.1⟩
      (.cons ⟨.dispatch rfl hw hdispatch (by simp), hserve.2⟩
        (.single ⟨.receive rfl hv hout, hreceive⟩))
  exact exchange_linearizable hrun

end SystemsProjects.Dbserver
