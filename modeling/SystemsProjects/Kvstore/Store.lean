import SystemsProjects.Lib.CString
import Mathlib.Data.List.FinRange

/-!
# The key-value store of `kvstore.c`

A table of `TABLE_MAX` key entries with one value pointer each (`kvstore.h:14-26`). Value buffers
live on the heap and are named by the order of their allocation, so that a use of a freed buffer
can be told apart. `none` stands for undefined behaviour: a comparison that leaves an array, an
index outside the table, a `free` of what is not allocated. The lock that makes each function one
step is left out here.
-/

namespace SystemsProjects.Kvstore

open SystemsProjects.Lib

/-- `TABLE_MAX` (`lab3.h`). -/
def tableMax : Nat := 200

/-- `MAX_KEY_LEN` (`kvstore.h:5`). -/
def maxKeyLen : Nat := 32

/-- `key_entry_t`: the status (0 is free, 1 is used) and the array of the key. -/
structure KeyEntry where
  stat : Int
  key : Fin maxKeyLen → UInt8

/-- A `char *` to a value: `none` is `NULL`, otherwise the number of the allocation. -/
abbrev Ptr := Option Nat

/-- The buffers allocated so far, oldest first; a freed one is `none`. -/
abbrev Heap := List (Option (List UInt8))

/-- `kvstore_t`, with the heap its values point into. -/
structure KvStore where
  keys : Fin tableMax → KeyEntry
  values : Fin tableMax → Ptr
  heap : Heap

/-- The bytes of an entry's key. -/
def KeyEntry.bytes (e : KeyEntry) : List UInt8 := bytesFrom e.key 0

/-! ## The heap -/

/-- The string a pointer leads to; `none` when it is `NULL` or its buffer was freed. -/
def deref (h : Heap) : Ptr → Option (List UInt8)
  | none => none
  | some a => (h[a]?).join.bind cstr

/-- `free`; freeing `NULL` does nothing. -/
def free (h : Heap) : Ptr → Option Heap
  | none => some h
  | some a =>
    match h[a]? with
    | some (some _) => some (h.set a none)
    | _ => none

/-- `calloc_val` (`kvstore.c:51-56`): a fresh copy of the string and its terminator. -/
def callocVal (h : Heap) (val : List UInt8) : Heap × Ptr :=
  (h ++ [some (val ++ [0])], some h.length)

/-! ## The scans of the table -/

/-- The loop of `find_key` over the slots that are left. -/
def findKeyLoop (kv : KvStore) (key : List UInt8) : List (Fin tableMax) → Option Int
  | [] => some (-1)
  | i :: is =>
    if (kv.keys i).stat = 0 then findKeyLoop kv key is
    else do
      if ← strcmpEq (kv.keys i).bytes (key ++ [0]) then return i.val
      findKeyLoop kv key is

/-- `find_key` (`kvstore.c:16-25`). -/
def findKey (kv : KvStore) (key : List UInt8) : Option Int :=
  findKeyLoop kv key (List.finRange tableMax)

/-- `key_len` (`kvstore.c:27-33`). -/
def keyLen (kv : KvStore) : Nat :=
  (List.finRange tableMax).foldl (fun len i => if (kv.keys i).stat = 1 then len + 1 else len) 0

/-- The loop of `get_new_index` over the slots that are left. -/
def getNewIndexLoop (kv : KvStore) : List (Fin tableMax) → Int
  | [] => -1
  | i :: is => if (kv.keys i).stat = 0 then i.val else getNewIndexLoop kv is

/-- `get_new_index` (`kvstore.c:35-40`). -/
def getNewIndex (kv : KvStore) : Int := getNewIndexLoop kv (List.finRange tableMax)

/-- The element of the two arrays an `int` selects. -/
def atIndex (i : Int) : Option (Fin tableMax) :=
  if h : 0 ≤ i ∧ i < tableMax then some ⟨i.toNat, by omega⟩ else none

/-! ## The operations -/

/-- `kv_read` (`kvstore.c:59-67`) hands out the pointer of the table. -/
def kvRead (kv : KvStore) (key : List UInt8) : Option Ptr := do
  let i ← findKey kv key
  if i ≥ 0 then
    let i ← atIndex i
    return kv.values i
  else return none

/-- The local `new_key` of `kv_write`: `strncpy` copies at most 31 bytes and fills up with NUL,
and the last byte is set to NUL (`kvstore.c:99-102`). -/
def newKey (key : List UInt8) : KeyEntry where
  stat := 1
  key := fun k => if k.val < 31 then key.getD k.val 0 else 0

/-- `kv_write` (`kvstore.c:88-112`). The source tests `key_index > 0`. -/
def kvWrite (kv : KvStore) (key val : List UInt8) : Option (KvStore × Int) := do
  let keyIndex ← findKey kv key
  if keyIndex > 0 then
    let i ← atIndex keyIndex
    let (heap, newVal) := callocVal kv.heap val
    let heap ← free heap (kv.values i)
    return ({ kv with values := Function.update kv.values i newVal, heap := heap }, 0)
  else if keyLen kv < tableMax then
    let i ← atIndex (getNewIndex kv)
    let (heap, newVal) := callocVal kv.heap val
    return ({ keys := Function.update kv.keys i (newKey key)
              values := Function.update kv.values i newVal
              heap := heap }, 0)
  else return (kv, 1)

/-- `kv_delete` (`kvstore.c:122-131`); the freed pointer stays in the table. -/
def kvDelete (kv : KvStore) (key : List UInt8) : Option KvStore := do
  let keyIndex ← findKey kv key
  if keyIndex ≥ 0 then
    let i ← atIndex keyIndex
    let heap ← free kv.heap (kv.values i)
    return { kv with
      keys := Function.update kv.keys i { kv.keys i with stat := 0 }
      heap := heap }
  else return kv

/-! ## Calls -/

/-- A key: a string of at most 31 bytes. -/
structure Key where
  bytes : List UInt8
  noNul : 0 ∉ bytes
  short : bytes.length < maxKeyLen

/-- A value: a NUL-terminated string. -/
structure Value where
  bytes : List UInt8
  noNul : 0 ∉ bytes

inductive Call where
  | write (k : Key) (v : Value)
  | read (k : Key)
  | delete (k : Key)

/-- What a caller sees: the status of `kv_write`, the string `kv_read` points to (or `NULL`). -/
inductive Reply where
  | status (r : Int)
  | value (v : Option (List UInt8))
  | done
  deriving DecidableEq, Repr

/-- One call, with the value of a read looked at right away. -/
def exec (kv : KvStore) : Call → Option (KvStore × Reply)
  | .write k v => do
    let (kv', r) ← kvWrite kv k.bytes v.bytes
    return (kv', .status r)
  | .read k => do
    match ← kvRead kv k.bytes with
    | none => return (kv, .value none)
    | some p => return (kv, .value (some (← deref kv.heap (some p))))
  | .delete k => do return (← kvDelete kv k.bytes, .done)

/-- A sequence of calls and its replies. -/
def runCalls (kv : KvStore) : List Call → Option (KvStore × List Reply)
  | [] => some (kv, [])
  | c :: cs => do
    let (kv, r) ← exec kv c
    let (kv, rs) ← runCalls kv cs
    return (kv, r :: rs)

end SystemsProjects.Kvstore
