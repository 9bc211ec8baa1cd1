import SystemsProjects.Dbserver.Client
import Mathlib.Data.Nat.Digits.Lemmas

/-!
# Requests and replies

The client's requests (`dbclient.c:137-235`), the worker's `dispatch` of them up to the call on the
store and after it (`worker.c:73-131`), and what the client makes of the reply. What a structure or
a buffer holds before it is filled is a parameter. The counters of `stats.c`, the trace and the
texts for `stderr` are left out.
-/

namespace SystemsProjects.Dbserver

open SystemsProjects.Lib SystemsProjects.Kvstore

/-! ## The client's request -/

/-- `snprintf (rq.name, sizeof (rq.name), "%s", name)`. -/
def putName (rq : Request) (name : List UInt8) : Option Request := do
  let text ← strcpy rq.name 0 (name.take 30)
  return { rq with name := text }

/-- `sprintf (rq.len, "%d", len)`; `none` when the text does not fit. -/
def putLen (rq : Request) (len : Nat) : Option Request := do
  let text ← strcpy rq.len 0 (decimal len)
  return { rq with len := text }

/-- The request of `do_set` for a value of `len` bytes. -/
def setRequest (rq : Request) (name : List UInt8) (len : Nat) : Option Request := do
  let rq ← putName rq name
  putLen { rq with opStatus := 87 } len

/-- The request of `do_get`. -/
def getRequest (rq : Request) (name : List UInt8) : Option Request := do
  let rq ← putName rq name
  putLen { rq with opStatus := 82 } 0

/-- The request of `do_del`, which sets no length. -/
def delRequest (rq : Request) (name : List UInt8) : Option Request := do
  let rq ← putName rq name
  return { rq with opStatus := 68 }

/-! ## The worker -/

/-- The bytes of a `struct request`. -/
def Request.bytes (rq : Request) : List UInt8 :=
  rq.opStatus :: (List.ofFn rq.name ++ List.ofFn rq.len)

/-- `read (sock, &rq, sizeof (rq))` with the bytes `got`: those behind them stay. -/
def Request.fill (rq : Request) (got : List UInt8) : Request where
  opStatus := got.getD 0 rq.opStatus
  name := fun i => got.getD (1 + i.val) (rq.name i)
  len := fun i => got.getD (32 + i.val) (rq.len i)

/-- Where a worker is after its call on the store: it has written the reply with the data behind it
and closed the socket, or it holds the pointer that `kv_read` returned, or it ends the program. -/
inductive Served where
  | replied (rq : Request) (data : List UInt8)
  | reading (rq : Request) (p : Nat)
  | quit

/-- `handle_read` up to the unlocking of the store (`worker.c:73-81`). -/
def handleRead (rq : Request) (kv : KvStore) : Option Served := do
  let key ← cstr (bytesFrom rq.name 0)
  match ← kvRead kv key with
  | none => return .replied (respFail rq) []
  | some p => return .reading rq p

/-- The rest of `handle_read` (`worker.c:83-91`): the reply, from the buffer as it is now. -/
def handleReadReply (rq : Request) (heap : Heap) (p : Nat) : Option (Request × List UInt8) := do
  let ret ← deref heap (some p)
  respOkay rq ret.length ret

/-- `handle_delete` (`worker.c:95-108`). -/
def handleDelete (rq : Request) (kv : KvStore) : Option (KvStore × Served) := do
  let key ← cstr (bytesFrom rq.name 0)
  let kv ← kvDelete kv key
  let (reply, data) ← respOkay rq 0 []
  return (kv, .replied reply data)

/-- What a worker meets on its socket and its stack. -/
structure Wire where
  /-- `rq` before it is read -/
  junk : Request
  /-- what `read (sock, &rq, sizeof (rq))` returns -/
  got : List UInt8
  sock : Socket
  stack : Nat → UInt8
  n₀ : Int

/-- `dispatch` (`worker.c:110-131`) up to the call on the store, or to its end. -/
def dispatch (w : Wire) (kv : KvStore) : Option (KvStore × Served) :=
  let rq := w.junk.fill w.got
  if w.got.length ≠ requestSize then some (kv, .replied (respFail rq) [])
  else if rq.opStatus = 87 then do
    let out ← handleWrite w.stack w.n₀ rq w.sock kv
    return (out.kv, .replied out.reply [])
  else if rq.opStatus = 82 then do return (kv, ← handleRead rq kv)
  else if rq.opStatus = 68 then handleDelete rq kv
  else if rq.opStatus = 81 then some (kv, .quit)
  else some (kv, .replied (respFail rq) [])

/-! ## The client's reading of the reply -/

/-- What a client prints. -/
inductive Outcome where
  | ok
  | printed (r : GetResult)

/-- The end of `do_set` and of `do_del`. -/
def statusOutcome (header : Header) : Outcome :=
  match header with
  | .failed => .printed .readError
  | .bytes val rq =>
    if val < requestSize then .printed (.shortRead val)
    else if rq.opStatus ≠ 75 then .printed (.refused rq.opStatus)
    else .ok

/-- The ends of `do_get`, which has read `val` bytes of the header into `rq`. -/
def GetEnds (val : Nat) (rq : Request) (behind : List UInt8) (stack : Nat → UInt8) (peer : Peer) :
    GetResult → Prop :=
  Ends (payloadStep (announced rq behind) peer) (getStatus (.bytes val rq) behind stack)

/-! ## Requests -/

section Requests
variable {rq rq' : Request} {name : List UInt8} {len : Nat}

theorem Request.bytes_length (rq : Request) : rq.bytes.length = requestSize := by
  simp [Request.bytes, requestSize]

/-- A structure filled with all bytes of another one is that one. -/
theorem Request.fill_bytes (junk rq : Request) : junk.fill rq.bytes = rq := by
  have hname : ∀ i : Fin 31, rq.bytes.getD (1 + i.val) (junk.name i) = rq.name i := by
    intro i
    rw [Nat.add_comm, Request.bytes, List.getD_cons_succ,
      List.getD_append _ _ _ _ (by rw [List.length_ofFn]; exact i.isLt), List.getD_eq_getElem?_getD,
      List.getElem?_ofFn, dif_pos i.isLt]
    rfl
  have hlen : ∀ i : Fin 8, rq.bytes.getD (32 + i.val) (junk.len i) = rq.len i := by
    intro i
    rw [show 32 + i.val = 31 + i.val + 1 by omega, Request.bytes, List.getD_cons_succ,
      List.getD_append_right _ _ _ _ (by rw [List.length_ofFn]; omega), List.length_ofFn,
      Nat.add_sub_cancel_left, List.getD_eq_getElem?_getD, List.getElem?_ofFn, dif_pos i.isLt]
    rfl
  unfold Request.fill
  simp only [hname, hlen]
  rfl

/-- A name of up to 30 bytes is in the request as a string. -/
theorem putName_eq (rq : Request) (hnul : 0 ∉ name) (hlen : name.length ≤ 30) :
    ∃ text, putName rq name = some { rq with name := text } ∧
      cstr (bytesFrom text 0) = some name := by
  have htake : name.take 30 = name := List.take_of_length_le hlen
  obtain ⟨text, htext⟩ := strcpy_isSome rq.name 0 name (by omega)
  refine ⟨text, ?_, cstr_strcpy hnul htext⟩
  simp only [putName, htake, htext]
  rfl

theorem notMem_decimal (n : Nat) : 0 ∉ decimal n := fun h =>
  absurd (isDigit_of_mem_decimal h) (by decide)

/-- A length of up to seven digits is in the request as text. -/
theorem putLen_eq (rq : Request) (hlen : len < 10 ^ 7) :
    ∃ text, putLen rq len = some { rq with len := text } ∧
      cstr (bytesFrom text 0) = some (decimal len) := by
  have hdigits : (decimal len).length ≤ 7 := by
    unfold decimal
    split_ifs with h0
    · decide
    · rw [List.length_map, List.length_reverse]
      exact (Nat.digits_length_le_iff (by omega) len).mpr hlen
  obtain ⟨text, htext⟩ := strcpy_isSome rq.len 0 (decimal len) (by omega)
  refine ⟨text, ?_, cstr_strcpy (notMem_decimal len) htext⟩
  simp only [putLen, htext]
  rfl

/-- A reply `K` with seven digits at most announces its length, whatever is behind the field. -/
theorem respOkay_eq (rq : Request) {data : List UInt8} (hlen : data.length < 10 ^ 7) :
    ∃ reply, respOkay rq data.length data = some (reply, data) ∧ reply.opStatus = 75 ∧
      ∀ behind, announced reply behind = data.length := by
  obtain ⟨text, htext, hcstr⟩ := putLen_eq rq hlen
  obtain ⟨text', hcopy, heq⟩ := Option.bind_eq_some_iff.mp htext
  have htt : text' = text := congrArg Request.len (Option.some.inj heq)
  subst htt
  refine ⟨{ rq with opStatus := 75, len := text' }, ?_, rfl, fun behind => ?_⟩
  · simp only [respOkay, hcopy, Option.bind_eq_bind, Option.bind_some, List.take_length]
    rfl
  · obtain ⟨-, rest, hrest⟩ := cstr_eq_some_iff.mp hcstr
    have hfield : List.ofFn text' = decimal data.length ++ ([0] ++ rest) := by
      rw [← List.append_assoc, hrest]
      rfl
    rw [announced, hfield, List.append_assoc]
    exact toInt_atoiInt (atoi_decimal_append _ rfl) (hlen.trans (by decide))

end Requests

/-! ## The data of a reply -/

/-- What has arrived in the first `k` calls of `read`. -/
def Peer.bytes (peer : Peer) : Nat → List UInt8
  | 0 => []
  | k + 1 => peer.bytes k ++ (peer.arrives k).data

/-- The peer sends `data`, in whatever pieces, and no `read` fails before all of it is there. -/
def Peer.Sends (peer : Peer) (data : List UInt8) : Prop :=
  ∃ n, (∀ k < n, peer.arrives k ≠ .failed) ∧ peer.bytes n = data

theorem Peer.bytes_prefix (peer : Peer) {k n : Nat} (hkn : k ≤ n) :
    peer.bytes k <+: peer.bytes n := by
  induction n, hkn using Nat.le_induction with
  | base => exact List.prefix_rfl
  | succ n _ ih => exact ih.trans (List.prefix_append _ _)

/-- What the loop has received is at the start of its buffer. -/
structure Peer.Received (peer : Peer) (data : List UInt8) (g : Getting) : Prop where
  ptr : g.ptr = (peer.bytes g.reads).length
  front : g.buf.take g.ptr = peer.bytes g.reads
  size : g.buf.length = data.length

theorem Peer.Received.store {peer : Peer} {data : List UInt8} {g : Getting}
    (h : peer.Received data g) (hpre : peer.bytes (g.reads + 1) <+: data) :
    peer.Received data (g.store data.length (peer.arrives g.reads).data) := by
  have hle := hpre.length_le
  rw [Peer.bytes, List.length_append, ← h.ptr] at hle
  have htake : (peer.arrives g.reads).data.take ((data.length : Int) - g.ptr).toNat =
      (peer.arrives g.reads).data := List.take_of_length_le (by omega)
  have hfront : (g.buf.take g.ptr).length = g.ptr := by
    rw [List.length_take, h.size]
    omega
  refine ⟨?_, ?_, ?_⟩
  · rw [Getting.store_ptr, show (g.store data.length _).reads = g.reads + 1 from rfl, Peer.bytes,
      List.length_append, ← h.ptr]
    omega
  · rw [Getting.store_ptr]
    simp only [Getting.store, htake, Peer.bytes]
    rw [List.take_left' (by rw [List.length_append, hfront]; omega), h.front]
  · simp only [Getting.store, htake, List.length_append, hfront, List.length_drop, h.size]
    omega

/-- However the data comes, the loop ends with all of it. -/
theorem payload_value {peer : Peer} {data : List UInt8} (h : peer.Sends data)
    (stack : Nat → UInt8) :
    Ends (payloadStep data.length peer) (.inl (payloadStart data.length stack))
      (.value false data.length data) := by
  obtain ⟨n, hok, hdata⟩ := h
  have hfrom : ∀ j (g : Getting), g.reads + j = n → peer.Received data g →
      Ends (payloadStep data.length peer) (.inl g) (.value false data.length data) := by
    intro j
    induction j with
    | zero =>
      intro g hg hrec
      have hptr : g.ptr = data.length := by rw [hrec.ptr, show g.reads = n from hg, hdata]
      have hbuf : g.buf = data := by
        rw [← hdata, ← show g.reads = n from hg, ← hrec.front, hptr, ← hrec.size, List.take_length]
      rw [ends_inl, payloadStep_end (by omega), hbuf]
      exact ends_inr.mpr rfl
    | succ j ih =>
      intro g hg hrec
      have hpre : peer.bytes (g.reads + 1) <+: data := hdata ▸ peer.bytes_prefix (by omega)
      by_cases hlt : (g.ptr : Int) < data.length
      · rw [ends_inl, payloadStep_store hlt (hok g.reads (by omega))]
        exact ih _ (by rw [← hg]; simp only [Getting.store]; omega) (hrec.store hpre)
      · have hle := ((peer.bytes_prefix (Nat.le_succ g.reads)).trans hpre)
        have heq : peer.bytes g.reads = data := by
          refine hle.eq_of_length_le ?_
          rw [← hrec.ptr]
          omega
        have hptr : g.ptr = data.length := by rw [hrec.ptr, heq]
        have hbuf : g.buf = data := by
          rw [← heq, ← hrec.front, hptr, ← hrec.size, List.take_length]
        rw [ends_inl, payloadStep_end (by omega), hbuf]
        exact ends_inr.mpr rfl
  refine hfrom n _ (Nat.zero_add n) ⟨rfl, rfl, ?_⟩
  simp [payloadStart]

end SystemsProjects.Dbserver
