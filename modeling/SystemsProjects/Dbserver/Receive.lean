import SystemsProjects.Kvstore.Buffers
import SystemsProjects.Lib.Decimal

/-!
# Write requests from the socket

`handle_write` reads the value of a write request from the socket into a buffer on its stack
(`worker.c:42-49`). Every `read` of its loop is given the start of the buffer, so that a later piece
overwrites an earlier one, and `n` is not set when there is nothing to read. The trace and the texts
for `stderr` are left out.
-/

namespace SystemsProjects.Dbserver

open SystemsProjects.Lib SystemsProjects.Kvstore

/-- `struct request` (`lab3.h:21-25`). -/
structure Request where
  opStatus : UInt8
  name : Fin 31 → UInt8
  len : Fin 8 → UInt8

/-- What successive calls of `read` on a socket return: the pieces, and after them 0 (the peer has
closed) or -1 (an error). -/
structure Socket where
  pieces : List (List UInt8)
  last : Int
  last_nonpos : last ≤ 0

/-- `resp_fail` (`worker.c:10-22`). -/
def respFail (rq : Request) : Request := { rq with opStatus := 88 }

/-- `resp_okay` (`worker.c:25-32`): the header and the data that are sent. -/
def respOkay (rq : Request) (len : Nat) (data : List UInt8) : Option (Request × List UInt8) := do
  let text ← strcpy rq.len 0 (decimal len)
  return ({ rq with opStatus := 75, len := text }, data.take len)

/-- The loop of `handle_write` (`worker.c:42-48`), with the number of bytes received so far, which
is also `ptr - buf`. -/
def receiveLoop (len : Nat) (last : Int) : List (List UInt8) → Nat → List UInt8 → Int →
    Option (List UInt8 × Int)
  | [], bytes, buf, n => some (buf, if bytes < len then last else n)
  | piece :: pieces, bytes, buf, n =>
    if bytes < len then
      if piece.length > len then none
      else if piece.length = 0 then some (buf, 0)
      else
        -- `read(sock, buf, len)`, not `read(sock, ptr, ...)`
        receiveLoop len last pieces (bytes + piece.length) (piece ++ buf.drop piece.length)
          piece.length
    else some (buf, n)

/-- The buffer with its terminator, and `n`. What the stack holds before is in `stack` and `n₀`. -/
def receive (stack : Nat → UInt8) (n₀ : Int) (len : Nat) (sock : Socket) :
    Option (List UInt8 × Int) := do
  let (buf, n) ← receiveLoop len sock.last sock.pieces 0 ((List.range (len + 1)).map stack) n₀
  return (buf.set len 0, n)

/-- The end of a write request: the store, the reply, and the strings `kv_write` was called with. -/
structure WriteResult where
  kv : KvStore
  reply : Request
  passed : Option (List UInt8 × List UInt8)

/-- `handle_write` (`worker.c:35-71`). -/
def handleWrite (stack : Nat → UInt8) (n₀ : Int) (rq : Request) (sock : Socket) (kv : KvStore) :
    Option WriteResult := do
  let len := atoi (← cstr (bytesFrom rq.len 0))
  if len < 0 then none
  let (buf, n) ← receive stack n₀ len.toNat sock
  if n ≤ 0 then return { kv := kv, reply := respFail rq, passed := none }
  let key ← cstr (bytesFrom rq.name 0)
  let val ← cstr buf
  let (kv, ret) ← kvWrite kv key val
  if ret = 0 then
    let (reply, _) ← respOkay rq 0 []
    return { kv := kv, reply := reply, passed := some (key, val) }
  else return { kv := kv, reply := respFail rq, passed := some (key, val) }

/-! ## What is received -/

variable {stack : Nat → UInt8} {n₀ n : Int} {len : Nat} {sock : Socket} {last : Int}

/-- A value that comes in one piece. -/
theorem receive_one {piece : List UInt8} (hne : piece ≠ []) (hsock : sock.pieces = [piece]) :
    receive stack n₀ piece.length sock = some (piece ++ [0], (piece.length : Int)) := by
  have hpos : 0 < piece.length := List.length_pos_iff.mpr hne
  have hdrop : ((List.range (piece.length + 1)).map stack).drop piece.length =
      [stack piece.length] := by
    rw [← List.map_drop, List.range_succ, List.drop_left' List.length_range]
    rfl
  simp only [receive, hsock, receiveLoop, if_pos hpos, if_neg (lt_irrefl piece.length),
    if_neg hpos.ne', Nat.zero_add, hdrop, gt_iff_lt, Option.bind_eq_bind, Option.bind_some]
  rw [List.set_append_right _ _ le_rfl, Nat.sub_self]
  rfl

/-- With nothing to read `n` is what the stack held. -/
theorem receive_none (hsock : sock.pieces = []) :
    receive stack n₀ 0 sock = some ([0], n₀) := by
  simp only [receive, hsock, receiveLoop, if_neg (lt_irrefl 0), Option.bind_eq_bind,
    Option.bind_some]
  rfl

/-- A byte of the buffer that lies behind every piece keeps its value. -/
theorem receiveLoop_getElem? {i : Nat} {pieces : List (List UInt8)}
    (hshort : ∀ p ∈ pieces, p.length ≤ i) :
    ∀ {bytes : Nat} {buf : List UInt8} {n₀ : Int} {buf' : List UInt8} {n : Int},
      receiveLoop len last pieces bytes buf n₀ = some (buf', n) → i < buf.length →
      buf'[i]? = buf[i]? := by
  induction pieces with
  | nil =>
    intro bytes buf n₀ buf' n h _
    obtain ⟨rfl, -⟩ := Prod.mk.inj (Option.some.inj h)
    rfl
  | cons piece pieces ih =>
    intro bytes buf n₀ buf' n h hi
    have hp : piece.length ≤ i := hshort piece List.mem_cons_self
    have hstay : (piece ++ buf.drop piece.length)[i]? = buf[i]? := by
      rw [List.getElem?_append_right hp, List.getElem?_drop, Nat.add_sub_cancel' hp]
    unfold receiveLoop at h
    split at h
    · split at h
      · exact absurd h (by simp)
      · split at h
        · obtain ⟨rfl, -⟩ := Prod.mk.inj (Option.some.inj h)
          rfl
        · refine (ih (fun p hp => hshort p (List.mem_cons_of_mem _ hp)) h ?_).trans hstay
          rw [List.length_append, List.length_drop]
          omega
    · obtain ⟨rfl, -⟩ := Prod.mk.inj (Option.some.inj h)
      rfl

/-- A string ends at the first NUL. -/
theorem length_le_of_cstr {bytes s : List UInt8} {i : Nat} (hs : cstr bytes = some s)
    (hi : bytes[i]? = some 0) : s.length ≤ i := by
  obtain ⟨hnul, hpre⟩ := cstr_eq_some_iff.mp hs
  by_contra hlt
  rw [not_le] at hlt
  have hget := List.prefix_iff_getElem?.mp hpre i (by rw [List.length_append]; omega)
  rw [List.getElem_append_left hlt, hi] at hget
  exact hnul ((Option.some.inj hget) ▸ List.getElem_mem hlt)

/-- A value that comes in several pieces: the last byte of the buffer is never written, so that on
a stack of zeros the string is shorter than the value. -/
theorem receive_several {p q : List UInt8} {pieces : List (List UInt8)} (hp : p ≠ []) (hq : q ≠ [])
    (hsock : sock.pieces = p :: q :: pieces) (hlen : len = sock.pieces.flatten.length)
    {buf s : List UInt8} (h : receive (fun _ => 0) n₀ len sock = some (buf, n))
    (hs : cstr buf = some s) : s.length < len := by
  have hp : 0 < p.length := List.length_pos_iff.mpr hp
  have hq : 0 < q.length := List.length_pos_iff.mpr hq
  have hsum : len = p.length + (q.length + pieces.flatten.length) := by
    rw [hlen, hsock, List.flatten_cons, List.flatten_cons, List.length_append, List.length_append]
  have hshort : ∀ x ∈ sock.pieces, x.length ≤ len - 1 := by
    intro x hx
    rw [hsock] at hx
    rcases List.mem_cons.mp hx with rfl | hx
    · omega
    rcases List.mem_cons.mp hx with rfl | hx
    · omega
    have hle := (List.sublist_flatten_of_mem hx).length_le
    omega
  obtain ⟨⟨buf₀, n'⟩, hloop, hbuf⟩ := Option.bind_eq_some_iff.mp h
  obtain ⟨rfl, -⟩ := Prod.mk.inj (Option.some.inj hbuf)
  have hget : buf₀[len - 1]? = some 0 := by
    refine (receiveLoop_getElem? hshort hloop ?_).trans ?_
    · rw [List.length_map, List.length_range]
      omega
    · rw [List.getElem?_map, List.getElem?_range (by omega)]
      rfl
  have hlast : (buf₀.set len 0)[len - 1]? = some 0 := by
    rw [List.getElem?_set_ne (by omega)]
    exact hget
  have hle := length_le_of_cstr hs hlast
  omega

/-! ## What is stored -/

/-- `kv_write` of the key does not fail: `find_key` finds it above slot 0, or a slot is free. -/
def HasRoom (kv : KvStore) (key : List UInt8) : Prop :=
  (∃ n, findKey kv key = some n ∧ n > 0) ∨ keyLen kv < tableMax

theorem kvWrite_of_room {kv : KvStore} {key val : List UInt8} (hv : Valid kv) (hk : 0 ∉ key)
    (hlen : key.length < maxKeyLen) (hval : 0 ∉ val) (hroom : HasRoom kv key) :
    ∃ kv', kvWrite kv key val = some (kv', 0) := by
  have hins :
      ∀ n, findKey kv key = some n → ¬ n > 0 → ∃ kv', kvWrite kv key val = some (kv', 0) := by
    intro n hfind hn
    rcases hroom with ⟨m, hm, hpos⟩ | hroom
    · exact absurd (Option.some.inj (hfind.symm.trans hm) ▸ hpos) hn
    · obtain ⟨i, kv', -, hst⟩ := kvWrite_insert hv hk hlen hval hfind hn hroom
      exact ⟨kv', hst.write⟩
  rcases findKey_cases hv hk hlen with ⟨i, v, hfind, hslot⟩ | ⟨hfind, -⟩
  · rcases Nat.eq_zero_or_pos i.val with hi | hpos
    · exact hins _ hfind (by omega)
    · obtain ⟨kv', hst, -⟩ := kvWrite_overwrite hv hval hfind hpos hslot
      exact ⟨kv', hst.write⟩
  · exact hins _ hfind (by omega)

/-- A write request: the name, the text of the length, and a socket that delivers the value in
pieces that are not empty. -/
structure Delivers (rq : Request) (sock : Socket) (key payload : List UInt8) : Prop where
  name : cstr (bytesFrom rq.name 0) = some key
  len : cstr (bytesFrom rq.len 0) = some (decimal payload.length)
  noNul : 0 ∉ payload
  pieces : ∀ p ∈ sock.pieces, p ≠ []
  payload : sock.pieces.flatten = payload

/-- `handle_write` stores the payload and replies `K`. -/
def StoresPayload (stack : Nat → UInt8) (n₀ : Int) (rq : Request) (sock : Socket) (kv : KvStore)
    (key payload : List UInt8) : Prop :=
  ∃ out, handleWrite stack n₀ rq sock kv = some out ∧ out.passed = some (key, payload) ∧
    kvWrite kv key payload = some (out.kv, 0) ∧ out.reply.opStatus = 75

variable {rq : Request} {kv : KvStore} {key payload : List UInt8}

theorem Delivers.key_short (h : Delivers rq sock key payload) :
    0 ∉ key ∧ key.length < maxKeyLen := by
  obtain ⟨hnul, hpre⟩ := cstr_eq_some_iff.mp h.name
  refine ⟨hnul, ?_⟩
  have hle := hpre.length_le
  rw [List.length_append, bytesFrom_length] at hle
  exact Nat.lt_of_lt_of_le (Nat.lt_of_succ_le hle) (by decide)

/-- `handle_write` after its length is read. -/
theorem Delivers.handleWrite_eq (h : Delivers rq sock key payload) :
    handleWrite stack n₀ rq sock kv = (receive stack n₀ payload.length sock).bind fun r =>
      if r.2 ≤ 0 then some { kv := kv, reply := respFail rq, passed := none }
      else (cstr r.1).bind fun val => (kvWrite kv key val).bind fun w =>
        if w.2 = 0 then (respOkay rq 0 []).bind fun reply =>
          some { kv := w.1, reply := reply.1, passed := some (key, val) }
        else some { kv := w.1, reply := respFail rq, passed := some (key, val) } := by
  have hlen : ¬ (payload.length : Int) < 0 := by omega
  simp only [handleWrite, h.len, h.name, atoi_decimal, if_neg hlen, Int.toNat_natCast,
    Option.bind_eq_bind, Option.bind_some]
  rfl

theorem respOkay_zero (rq : Request) : ∃ reply, respOkay rq 0 [] = some reply ∧
    reply.1.opStatus = 75 := by
  obtain ⟨text, htext⟩ := strcpy_isSome rq.len 0 (decimal 0) (by decide)
  exact ⟨_, by simp only [respOkay, htext]; rfl, rfl⟩

theorem Delivers.stores (h : Delivers rq sock key payload) (hv : Valid kv) (hroom : HasRoom kv key)
    (hone : sock.pieces.length = 1) : StoresPayload stack n₀ rq sock kv key payload := by
  obtain ⟨piece, hpiece⟩ := List.length_eq_one_iff.mp hone
  have hne : piece ≠ [] := h.pieces piece (by rw [hpiece]; exact List.mem_singleton_self _)
  have hpayload : piece = payload := by
    have hflat := h.payload
    rwa [hpiece, List.flatten_singleton] at hflat
  subst hpayload
  have hpos : ¬ (piece.length : Int) ≤ 0 := by
    have := List.length_pos_iff.mpr hne
    omega
  have hcstr : cstr (piece ++ [0]) = some piece :=
    cstr_eq_some_iff.mpr ⟨h.noNul, List.prefix_rfl⟩
  obtain ⟨hnul, hshort⟩ := h.key_short
  obtain ⟨kv', hwrite⟩ := kvWrite_of_room hv hnul hshort h.noNul hroom
  obtain ⟨reply, hreply, hstatus⟩ := respOkay_zero rq
  refine ⟨{ kv := kv', reply := reply.1, passed := some (key, piece) }, ?_, rfl, hwrite, hstatus⟩
  rw [h.handleWrite_eq, receive_one hne hpiece]
  simp only [Option.bind_some, if_neg hpos, hcstr, hwrite, if_pos, hreply]

/-- What `kv_write` is given is the string in the buffer. -/
theorem Delivers.passed (h : Delivers rq sock key payload)
    (hst : StoresPayload stack n₀ rq sock kv key payload) :
    ∃ buf n, receive stack n₀ payload.length sock = some (buf, n) ∧ ¬ n ≤ 0 ∧
      cstr buf = some payload := by
  obtain ⟨out, hout, hpassed, -⟩ := hst
  rw [h.handleWrite_eq] at hout
  obtain ⟨⟨buf, n⟩, hrec, hout⟩ := Option.bind_eq_some_iff.mp hout
  refine ⟨buf, n, hrec, ?_⟩
  by_cases hn : n ≤ 0
  · rw [if_pos hn] at hout
    obtain rfl := Option.some.inj hout
    exact absurd hpassed.symm (Option.some_ne_none _)
  · rw [if_neg hn] at hout
    obtain ⟨val, hval, hout⟩ := Option.bind_eq_some_iff.mp hout
    obtain ⟨w, -, hout⟩ := Option.bind_eq_some_iff.mp hout
    refine ⟨hn, hval.trans ?_⟩
    have hpass : out.passed = some (key, val) := by
      split at hout
      · obtain ⟨reply, -, hout⟩ := Option.bind_eq_some_iff.mp hout
        obtain rfl := Option.some.inj hout
        rfl
      · obtain rfl := Option.some.inj hout
        rfl
    exact congrArg some (Prod.mk.inj (Option.some.inj (hpass.symm.trans hpassed))).2

/-- Whatever the stack holds, `handle_write` stores the payload: exactly when the payload is not
empty and comes in one piece. -/
theorem handleWrite_stores_iff (h : Delivers rq sock key payload) (hv : Valid kv)
    (hroom : HasRoom kv key) :
    (∀ stack n₀, StoresPayload stack n₀ rq sock kv key payload) ↔ sock.pieces.length = 1 := by
  constructor
  · intro hall
    cases hp : sock.pieces with
    | nil =>
      -- `n` is 0 by chance
      have hempty : payload = [] := by
        rw [← h.payload, hp]
        rfl
      obtain ⟨buf, n, hrec, hn, -⟩ := h.passed (hall (fun _ => 0) 0)
      rw [hempty, List.length_nil, receive_none hp] at hrec
      obtain ⟨-, rfl⟩ := Prod.mk.inj (Option.some.inj hrec)
      exact absurd le_rfl hn
    | cons p pieces =>
      cases pieces with
      | nil => rfl
      | cons q pieces =>
        obtain ⟨buf, n, hrec, -, hcstr⟩ := h.passed (hall (fun _ => 0) 0)
        have hne := h.pieces
        rw [hp] at hne
        have hlt := receive_several (hne p List.mem_cons_self)
          (hne q (List.mem_cons_of_mem _ List.mem_cons_self)) hp (by rw [h.payload]) hrec hcstr
        exact absurd hlt (lt_irrefl _)
  · exact fun hone stack n₀ => h.stores hv hroom hone

/-- The request `W` for key `a` and two bytes. -/
def writeRequest : Request where
  opStatus := 87
  name := fun i => if i.val = 0 then 97 else 0
  len := fun i => if i.val = 0 then 50 else 0

/-- The value `xy` in one piece, and in two. -/
def wholeSocket : Socket := ⟨[[120, 121]], 0, le_rfl⟩

def splitSocket : Socket := ⟨[[120], [121]], 0, le_rfl⟩

theorem writeRequest_delivers :
    Delivers writeRequest wholeSocket [97] [120, 121] ∧
      Delivers writeRequest splitSocket [97] [120, 121] := by
  have hname : cstr (bytesFrom writeRequest.name 0) = some [97] := by decide
  have hlen : cstr (bytesFrom writeRequest.len 0) = some (decimal 2) := by decide
  exact ⟨⟨hname, hlen, by decide, by decide, rfl⟩, ⟨hname, hlen, by decide, by decide, rfl⟩⟩

theorem zeroStore_room : Valid zeroStore ∧ HasRoom zeroStore [97] :=
  ⟨(refines_empty fun _ => rfl).valid, Or.inr (by decide)⟩

theorem handleWrite_stores_whole :
    StoresPayload (fun _ => 255) 0 writeRequest wholeSocket zeroStore [97] [120, 121] :=
  (handleWrite_stores_iff writeRequest_delivers.1 zeroStore_room.1 zeroStore_room.2).mpr rfl _ _

/-- The second piece overwrites the first. -/
theorem handleWrite_split :
    Delivers writeRequest splitSocket [97] [120, 121] ∧ Valid zeroStore ∧ HasRoom zeroStore [97] ∧
      ¬ StoresPayload (fun _ => 0) 0 writeRequest splitSocket zeroStore [97] [120, 121] := by
  refine ⟨writeRequest_delivers.2, zeroStore_room.1, zeroStore_room.2, ?_⟩
  intro hst
  obtain ⟨out, hout, hpassed, -⟩ := hst
  have hcode : (handleWrite (fun _ => 0) 0 writeRequest splitSocket zeroStore).map
      WriteResult.passed = some (some ([97], [121])) := by rfl
  rw [hout, Option.map_some, hpassed] at hcode
  exact absurd hcode (by decide)

end SystemsProjects.Dbserver
