import SystemsProjects.Dbserver.Receive
import SystemsProjects.Lib.Halting

/-!
# The client's receive loop

`do_get` (`dbclient.c:196-235`) reads the header of the reply and then, in a loop, as many bytes as
the header announces. What the peer does is a sequence of arrivals, one for each call of `read`.
-/

namespace SystemsProjects.Dbserver

open SystemsProjects.Lib

/-- What one call of `read` finds: bytes (never none), the end of the connection, or an error. -/
inductive Arrival where
  | bytes (first : UInt8) (others : List UInt8)
  | closed
  | failed
  deriving DecidableEq

/-- The bytes that arrive. -/
def Arrival.data : Arrival → List UInt8
  | .bytes b bs => b :: bs
  | _ => []

/-- What successive calls of `read` find. A connection the peer has closed stays closed. -/
structure Peer where
  arrives : Nat → Arrival
  stays_closed : ∀ k, arrives k = .closed → arrives (k + 1) = .closed

/-- The reading of the header: an error, or the number of bytes and what `rq` holds then. -/
inductive Header where
  | failed
  | bytes (val : Nat) (rq : Request)

/-- `sizeof (struct request)`. -/
def requestSize : Nat := 40

/-- `int len = atoi (rq.len)`; `behind` is the memory behind the field, which need not be
terminated. -/
def announced (rq : Request) (behind : List UInt8) : Int :=
  (atoiInt (List.ofFn rq.len ++ behind)).toInt

/-- The state of the payload loop: the calls of `read` so far, `ptr - buf` and the buffer. -/
structure Getting where
  reads : Nat
  ptr : Nat
  buf : List UInt8

/-- What `do_get` prints or hands over. -/
inductive GetResult where
  | readError
  | shortRead (val : Nat)
  | refused (opStatus : UInt8)
  | value (readError : Bool) (len : Int) (buf : List UInt8)

/-- `read (sock, ptr, max - ptr)` stores at most that many bytes. -/
def Getting.store (len : Int) (g : Getting) (data : List UInt8) : Getting where
  reads := g.reads + 1
  ptr := g.ptr + (data.take (len - g.ptr).toNat).length
  buf := g.buf.take g.ptr ++ data.take (len - g.ptr).toNat ++
    g.buf.drop (g.ptr + (data.take (len - g.ptr).toNat).length)

/-- One round of the payload loop (`dbclient.c:215-222`). A `read` that returns 0 is a round like
any other. -/
def payloadStep (len : Int) (peer : Peer) (g : Getting) : Getting ⊕ GetResult :=
  if g.ptr < len then
    if peer.arrives g.reads = .failed then .inr (.value true len g.buf)
    else .inl (g.store len (peer.arrives g.reads).data)
  else .inr (.value false len g.buf)

/-- The start of the loop. The buffer holds what was on the stack. -/
def payloadStart (len : Int) (stack : Nat → UInt8) : Getting :=
  ⟨0, 0, (List.range len.toNat).map stack⟩

/-- `do_get` up to its loop (`dbclient.c:205-213`). -/
def getStatus (header : Header) (behind : List UInt8) (stack : Nat → UInt8) : Getting ⊕ GetResult :=
  match header with
  | .failed => .inr .readError
  | .bytes val rq =>
    if val < requestSize then .inr (.shortRead val)
    else if rq.opStatus ≠ 75 then .inr (.refused rq.opStatus)
    else .inl (payloadStart (announced rq behind) stack)

/-! ## When the loop ends -/

/-- The bytes of the first `k` arrivals. -/
def Peer.sent (peer : Peer) : Nat → Nat
  | 0 => 0
  | k + 1 => peer.sent k + (peer.arrives k).data.length

/-- The peer closes the connection, with no failed `read` before, when fewer than `len` bytes have
come. -/
def Peer.ClosesEarly (peer : Peer) (len : Int) : Prop :=
  ∃ k, peer.arrives k = .closed ∧ (∀ i < k, peer.arrives i ≠ .failed) ∧ peer.sent k < len

variable {peer : Peer} {len : Int} {g : Getting} {k : Nat}

theorem Peer.sent_mono (peer : Peer) {n : Nat} (hn : n ≤ k) : peer.sent n ≤ peer.sent k := by
  induction k, hn using Nat.le_induction with
  | base => exact le_rfl
  | succ k _ ih => exact Nat.le_add_right_of_le ih

theorem Peer.closed_from (h : peer.arrives k = .closed) {n : Nat} (hn : k ≤ n) :
    peer.arrives n = .closed := by
  induction n, hn using Nat.le_induction with
  | base => exact h
  | succ n _ ih => exact peer.stays_closed n ih

/-- `ptr` moves by the bytes that arrive, as far as they are asked for. -/
theorem Getting.store_ptr (len : Int) (g : Getting) (data : List UInt8) :
    (g.store len data).ptr = g.ptr + min (len - g.ptr).toNat data.length := by
  simp only [Getting.store, List.length_take]

theorem payloadStep_store (hlt : g.ptr < len) (hok : peer.arrives g.reads ≠ .failed) :
    payloadStep len peer g = .inl (g.store len (peer.arrives g.reads).data) := by
  unfold payloadStep
  rw [if_pos hlt, if_neg hok]

theorem payloadStep_end (h : len ≤ g.ptr) :
    payloadStep len peer g = .inr (.value false len g.buf) :=
  if_neg (not_lt.mpr h)

/-- A connection closed too early is read for ever: `ptr` never gets past what was sent. -/
theorem Peer.ClosesEarly.not_halts (h : peer.ClosesEarly len) (stack : Nat → UInt8) :
    ¬ Halts (payloadStep len peer) (.inl (payloadStart len stack)) := by
  obtain ⟨k, hclosed, hok, hsent⟩ := h
  apply not_halts_of_cycle (P := fun g => g.ptr ≤ peer.sent (min g.reads k))
  · intro g hg
    rcases Nat.lt_or_ge g.reads k with hlt | hge
    · -- before the end of the connection
      rw [Nat.min_eq_left hlt.le] at hg
      have hmono := peer.sent_mono hlt.le
      refine ⟨_, payloadStep_store (by omega) (hok g.reads hlt), ?_⟩
      rw [Getting.store_ptr, show (g.store len _).reads = g.reads + 1 from rfl,
        Nat.min_eq_left hlt, Peer.sent]
      omega
    · -- after it
      have hend := Peer.closed_from hclosed hge
      rw [Nat.min_eq_right hge] at hg
      refine ⟨_, payloadStep_store (by omega) (by rw [hend]; simp), ?_⟩
      rw [Getting.store_ptr, show (g.store len _).reads = g.reads + 1 from rfl,
        Nat.min_eq_right (Nat.le_succ_of_le hge), hend]
      simpa [Arrival.data] using hg
  · exact Nat.zero_le _

/-- The invariant of the other runs: no `read` has failed, and everything sent is in the buffer
unless the buffer is full. -/
def Peer.Keeps (peer : Peer) (len : Int) (g : Getting) : Prop :=
  (∀ i < g.reads, peer.arrives i ≠ .failed) ∧ (g.ptr = peer.sent g.reads ∨ len ≤ g.ptr)

theorem Peer.Keeps.store (h : peer.Keeps len g) (hok : peer.arrives g.reads ≠ .failed) :
    peer.Keeps len (g.store len (peer.arrives g.reads).data) := by
  obtain ⟨hbefore, hptr⟩ := h
  constructor
  · intro i hi
    rcases Nat.lt_succ_iff_lt_or_eq.mp hi with hi | rfl
    · exact hbefore i hi
    · exact hok
  · rw [Getting.store_ptr, show (g.store len _).reads = g.reads + 1 from rfl, Peer.sent]
    omega

theorem halts_of_not_closesEarly (h : ¬ peer.ClosesEarly len) (stack : Nat → UInt8) :
    Halts (payloadStep len peer) (.inl (payloadStart len stack)) := by
  apply halts_of_measure (P := peer.Keeps len) fun g => (len - g.ptr).toNat
  · intro g hg
    by_cases hlt : g.ptr < len
    · by_cases hok : peer.arrives g.reads = .failed
      · left
        rw [halts_inl, payloadStep, if_pos hlt, if_pos hok]
        exact halts_inr _
      · refine .inr ⟨_, payloadStep_store hlt hok, hg.store hok, ?_⟩
        have hptr : g.ptr = peer.sent g.reads := hg.2.resolve_right (not_le.mpr hlt)
        have hpos : 0 < (peer.arrives g.reads).data.length := by
          cases harr : peer.arrives g.reads with
          | bytes b bs => exact Nat.succ_pos bs.length
          | closed => exact absurd ⟨g.reads, harr, hg.1, by omega⟩ h
          | failed => exact absurd harr hok
        rw [Getting.store_ptr]
        omega
    · left
      rw [halts_inl, payloadStep_end (not_lt.mp hlt)]
      exact halts_inr _
  · exact ⟨fun i hi => absurd hi (Nat.not_lt_zero i), .inl rfl⟩

/-- The loop of `do_get` ends exactly when the peer does not close the connection before the
announced bytes have come. -/
theorem payload_halts_iff (rq : Request) (behind : List UInt8) (stack : Nat → UInt8) (peer : Peer) :
    Halts (payloadStep (announced rq behind) peer)
        (.inl (payloadStart (announced rq behind) stack)) ↔
      ¬ peer.ClosesEarly (announced rq behind) := by
  constructor
  · intro hhalts hearly
    exact hearly.not_halts stack hhalts
  · intro h
    exact halts_of_not_closesEarly h stack

/-- A reply `K` that announces 5 bytes. -/
def fiveReply : Request where
  opStatus := 75
  name := fun _ => 0
  len := fun i => if i.val = 0 then 53 else 0

/-- The peer sends two of them and closes the connection. -/
def shortPeer : Peer where
  arrives := fun k => if k = 0 then .bytes 97 [98] else .closed
  stays_closed := fun _ _ => rfl

/-- `do_get` never returns then. -/
theorem payload_short_peer : ∃ g, getStatus (.bytes 40 fiveReply) [] (fun _ => 0) = .inl g ∧
    ¬ Halts (payloadStep (announced fiveReply []) shortPeer) (.inl g) := by
  refine ⟨_, rfl, ?_⟩
  apply Peer.ClosesEarly.not_halts
  exact ⟨1, rfl, by decide, by decide⟩

end SystemsProjects.Dbserver
