import SystemsProjects.Fs5600.Diskfmt
import Mathlib.Data.List.Nodup

/-!
# The image generator

`gen-disk.py` from the objects it makes of the description: `file` and `dir`, with their fields read
as numbers. It lists for each block number what goes there, marks the bitmap, and writes the blocks
one after another. The contents of the files, which come from a random number generator, are a
parameter. `none` is a Python exception.
-/

namespace SystemsProjects.Fs5600
open SystemsProjects.Lib

/-- An entry `[val, name, num]` of a directory. -/
structure ItemEntry where
  val : Bool
  name : List UInt8
  num : Nat
  deriving DecidableEq

/-- The classes `file` (`gen-disk.py:19-43`) and `dir` (`gen-disk.py:45-80`); a file has no
entries. -/
structure Item where
  inum : Nat
  name : List UInt8
  uid : Nat
  gid : Nat
  mode : Nat
  ctime : Nat
  mtime : Nat
  size : Int
  blocks : List Nat
  entries : Option (List ItemEntry)
  deriving DecidableEq

/-- The `ctypes` structure `inode` that `inode ()` fills in; every field keeps the low bits of the
number stored in it. -/
def Item.header (f : Item) : Inode where
  uid := UInt16.ofNat f.uid
  gid := UInt16.ofNat f.gid
  mode := UInt32.ofNat f.mode
  ctime := UInt32.ofNat f.ctime
  mtime := UInt32.ofNat f.mtime
  size := Int32.ofInt f.size
  ptrs := fun i => UInt32.ofNat (f.blocks.getD i.val 0)

/-- `inode ()`. There are 1019 pointers. -/
def Item.inode (f : Item) : Option Block :=
  if f.blocks.length ≤ 1019 then some (encodeInode f.header) else none

/-- An assignment to a field of type `c_char * 28`: a shorter string is followed by a NUL, and the
bytes after it stay. -/
def setChars (old : Fin 28 → UInt8) (name : List UInt8) : Option (Fin 28 → UInt8) :=
  if name.length ≤ 28 then
    some fun k =>
      if h : k.val < name.length then name[k.val] else if k.val = name.length then 0 else old k
  else none

/-- The loop of `dir.block` over the entries that are left, from slot `i` on. One `dirent` is used
for all of them. -/
def fillSlots : List ItemEntry → Nat → Dirent → (Fin 128 → Dirent) → Option (Fin 128 → Dirent)
  | [], _, _, data => some data
  | e :: es, i, de, data => do
    let name ← setChars de.name e.name
    let de : Dirent := { valid := e.val, inode := BitVec.ofNat 31 e.num, name := name }
    fillSlots es (i + 1) de (Function.update data (Fin.ofNat 128 i) de)

/-- A `dirent` of zeros. -/
def blankDirent : Dirent := { valid := false, inode := 0, name := fun _ => 0 }

/-- `block (offset)`: of a directory the entries `128 * offset` to `128 * offset + 127`. -/
def Item.block (content : List UInt8 → Nat → Block) (f : Item) (offset : Nat) : Option Block :=
  match f.entries with
  | none => some (content f.name offset)
  | some entries =>
    (fillSlots ((entries.drop (offset * 128)).take 128) 0 blankDirent fun _ => blankDirent).map
      encodeDirents

/-- What `blocks` holds at a number: `[f]` or `[f, i]`. -/
inductive Cell where
  | inode (f : Item)
  | block (f : Item) (i : Nat)

/-- The block map and the list `blocks` of 400 cells. -/
structure Plan where
  blockmap : Bitmap
  blocks : Nat → Option Cell

/-- `blocks[n] = c`. -/
def Plan.put (plan : Plan) (n : Nat) (c : Cell) : Option (Nat → Option Cell) :=
  if n < 400 then some (Function.update plan.blocks n (some c)) else none

/-- The loop over the blocks of an item (`gen-disk.py:118-124`). A block counted twice is reported,
and then counted again. -/
def placeBlocks (f : Item) : List Nat → Nat → Plan → Option Plan
  | [], _, plan => some plan
  | b :: bs, i, plan => do
    let _ ← plan.blockmap.get b
    let blockmap ← plan.blockmap.set b true
    let blocks ← plan.put b (.block f i)
    placeBlocks f bs (i + 1) ⟨blockmap, blocks⟩

/-- The loop over the items (`gen-disk.py:114-124`). -/
def placeItems : List Item → Plan → Option Plan
  | [], plan => some plan
  | f :: fs, plan => do
    let blocks ← plan.put f.inum (.inode f)
    let blockmap ← plan.blockmap.set f.inum true
    let plan ← placeBlocks f f.blocks 0 ⟨blockmap, blocks⟩
    placeItems fs plan

/-- What is written for block `i` (`gen-disk.py:133-143`). -/
def Plan.row (content : List UInt8 → Nat → Block) (plan : Plan) (i : Nat) : Option Block :=
  if i < 400 then
    match plan.blocks i with
    | none => some Block.zero
    | some (.inode f) => f.inode
    | some (.block f offset) => f.block content offset
  else none

/-- A file of whole blocks. -/
def Disk.ofRows (rows : List Block) : Disk where
  data := fun n => rows.getD n Block.zero
  len := rows.length
  hole := by
    intro n hn
    exact List.getD_eq_default _ _ hn

/-- `gen-disk.py:104-144`: the image of `nblocks` blocks. -/
def genDisk (content : List UInt8 → Nat → Block) (files dirs : List Item) (nblocks : Nat) :
    Option Disk := do
  let blockmap ← Bitmap.zero.set 0 true
  let blockmap ← blockmap.set 1 true
  let plan ← placeItems (files ++ dirs) ⟨blockmap, fun _ => none⟩
  let sb : Super := { magic := fsMagic, diskSize := UInt32.ofNat nblocks }
  let rows ← (List.range' 2 (nblocks - 2)).mapM (plan.row content)
  some (Disk.ofRows (encodeSuper sb :: plan.blockmap.bytes :: rows))

/-! ## Placing -/

/-- The block numbers of an item with what is put there. -/
def Item.cells (f : Item) : List (Nat × Cell) :=
  (f.inum, .inode f) :: f.blocks.zipIdx.map fun b => (b.1, .block f b.2)

/-- Cells assigned one after another. -/
def assign {α : Type} : List (Nat × α) → (Nat → Option α) → Nat → Option α
  | [], g => g
  | c :: cells, g => assign cells (Function.update g c.1 (some c.2))

theorem assign_append {α : Type} (cells cells' : List (Nat × α)) : ∀ g : Nat → Option α,
    assign (cells ++ cells') g = assign cells' (assign cells g) := by
  induction cells with
  | nil => exact fun _ => rfl
  | cons c cells ih => exact fun g => ih _

/-- With the numbers all different, each cell is where it was put. -/
theorem assign_eq_some {α : Type} (cells : List (Nat × α)) : ∀ g : Nat → Option α,
    (cells.map Prod.fst).Nodup → (∀ c ∈ cells, g c.1 = none) → ∀ n x,
      assign cells g n = some x ↔ (n, x) ∈ cells ∨ g n = some x := by
  induction cells with
  | nil => simp [assign]
  | cons c cells ih =>
    intro g hnodup hfree n x
    obtain ⟨hc, hnodup⟩ := List.nodup_cons.mp hnodup
    rw [assign, ih _ hnodup]
    · by_cases hn : n = c.1
      · subst hn
        have hno : (c.1, x) ∉ cells := fun h => hc (List.mem_map.mpr ⟨_, h, rfl⟩)
        simp only [Function.update_self, hno, false_or, List.mem_cons, or_false,
          hfree c List.mem_cons_self, reduceCtorEq, Option.some.injEq]
        exact ⟨fun h => Prod.ext rfl h.symm, fun h => (congrArg Prod.snd h).symm⟩
      · have hne : (n, x) ≠ c := fun h => hn (congrArg Prod.fst h)
        rw [Function.update_of_ne hn]
        simp [hne]
    · intro d hd
      have hdc : d.1 ≠ c.1 := fun h => hc (List.mem_map.mpr ⟨d, hd, h⟩)
      rw [Function.update_of_ne hdc]
      exact hfree d (List.mem_cons_of_mem c hd)

/-- `plan` with `cells` put in, one after another. -/
structure Puts (plan : Plan) (cells : List (Nat × Cell)) (plan' : Plan) : Prop where
  blocks : plan'.blocks = assign cells plan.blocks
  bit : ∀ j < 32768, plan'.blockmap.bit j = true ↔
    plan.blockmap.bit j = true ∨ j ∈ cells.map Prod.fst

section Place
variable {plan : Plan}

theorem Puts.nil (plan : Plan) : Puts plan [] plan := ⟨rfl, by simp⟩

/-- One cell, then the rest. -/
theorem Puts.cons {plan' : Plan} {blockmap : Bitmap} {n : Nat} {c : Cell}
    {cells : List (Nat × Cell)} (hn : n < 400) (hset : plan.blockmap.set n true = some blockmap)
    (h : Puts ⟨blockmap, Function.update plan.blocks n (some c)⟩ cells plan') :
    Puts plan ((n, c) :: cells) plan' := by
  obtain ⟨m, hset', hbits⟩ := plan.blockmap.set_eq (i := n) (by omega) true
  obtain rfl := Option.some.inj (hset.symm.trans hset')
  refine ⟨h.blocks, fun j hj => ?_⟩
  rw [h.bit j hj, hbits j hj]
  by_cases hjn : j = n
  · simp [hjn]
  · simp [hjn]

theorem Puts.append {plan' plan'' : Plan} {cells cells' : List (Nat × Cell)}
    (h : Puts plan cells plan') (h' : Puts plan' cells' plan'') :
    Puts plan (cells ++ cells') plan'' := by
  refine ⟨by rw [h'.blocks, h.blocks, assign_append], fun j hj => ?_⟩
  rw [h'.bit j hj, h.bit j hj, List.map_append, List.mem_append, or_assoc]

theorem placeBlocks_eq (f : Item) : ∀ (bs : List Nat) (i : Nat) (plan : Plan),
    (∀ b ∈ bs, b < 400) → ∃ plan', placeBlocks f bs i plan = some plan' ∧
      Puts plan ((bs.zipIdx i).map fun b => (b.1, .block f b.2)) plan' := by
  intro bs
  induction bs with
  | nil => exact fun i plan _ => ⟨plan, rfl, .nil plan⟩
  | cons b bs ih =>
    intro i plan hlt
    have hb : b < 400 := hlt b List.mem_cons_self
    obtain ⟨m, hset, -⟩ := plan.blockmap.set_eq (i := b) (by omega) true
    obtain ⟨plan', hrun, hputs⟩ := ih (i + 1) ⟨m, Function.update plan.blocks b (some (.block f i))⟩
      fun x hx => hlt x (List.mem_cons_of_mem b hx)
    refine ⟨plan', ?_, .cons hb hset hputs⟩
    simp only [placeBlocks, plan.blockmap.get_eq (show b < 32768 by omega), hset, Plan.put,
      if_pos hb, Option.bind_eq_bind, Option.bind_some, hrun]

theorem placeItems_eq : ∀ (fs : List Item) (plan : Plan),
    (∀ c ∈ fs.flatMap Item.cells, c.1 < 400) → ∃ plan', placeItems fs plan = some plan' ∧
      Puts plan (fs.flatMap Item.cells) plan' := by
  intro fs
  induction fs with
  | nil => exact fun plan _ => ⟨plan, rfl, .nil plan⟩
  | cons f fs ih =>
    intro plan hlt
    have hcell : ∀ c ∈ f.cells, c.1 < 400 := fun c hc => hlt c (List.mem_append_left _ hc)
    have hf : f.inum < 400 := hcell (f.inum, .inode f) List.mem_cons_self
    obtain ⟨m, hset, -⟩ := plan.blockmap.set_eq (i := f.inum) (by omega) true
    obtain ⟨plan₁, hrun₁, hputs₁⟩ := placeBlocks_eq f f.blocks 0
      ⟨m, Function.update plan.blocks f.inum (some (.inode f))⟩ fun b hb => by
        obtain ⟨i, hi⟩ := List.mem_iff_getElem?.mp hb
        exact hcell (b, .block f i) (List.mem_cons_of_mem _
          (List.mem_map.mpr ⟨(b, i), List.mk_mem_zipIdx_iff_getElem?.mpr hi, rfl⟩))
    obtain ⟨plan', hrun, hputs⟩ := ih plan₁ fun c hc => hlt c (List.mem_append_right _ hc)
    refine ⟨plan', ?_, (Puts.cons hf hset hputs₁).append hputs⟩
    simp only [placeItems, hset, Plan.put, if_pos hf, Option.bind_eq_bind, Option.bind_some, hrun₁,
      hrun]

end Place

/-! ## Directory blocks -/

/-- With room for the NUL, the assignment is `strcpy`. -/
theorem setChars_eq (old : Fin 28 → UInt8) {name : List UInt8} (h : name.length ≤ 27) :
    setChars old name = strcpy old 0 name := by
  unfold setChars strcpy
  rw [if_pos (by omega), if_pos (by omega)]
  congr 1
  funext k
  simp only [Nat.not_lt_zero, if_false, Nat.sub_zero]
  by_cases hk : k.val < name.length
  · rw [dif_pos hk, List.getD_append _ _ _ _ hk, List.getD_eq_getElem _ _ hk]
  · rw [dif_neg hk]
    by_cases hk' : k.val = name.length
    · rw [if_pos hk', hk', List.getD_append_right _ _ _ _ le_rfl, Nat.sub_self]
      rfl
    · rw [if_neg hk', List.getD_eq_default]
      simp only [List.length_append, List.length_singleton]
      omega

/-- Slot `de` holds the entry `e`. -/
structure SlotOf (e : ItemEntry) (de : Dirent) : Prop where
  valid : de.valid = e.val
  inode : de.inode = BitVec.ofNat 31 e.num
  name : e.name.length ≤ 27 → 0 ∉ e.name → de.nameOf = some e.name

theorem fillSlots_eq : ∀ (es : List ItemEntry) (i : Nat) (de : Dirent) (data : Fin 128 → Dirent),
    i + es.length ≤ 128 → (∀ e ∈ es, e.name.length ≤ 28) →
      ∃ data', fillSlots es i de data = some data' ∧
        (∀ (k : Fin 128) e, i ≤ k.val → es[k.val - i]? = some e → SlotOf e (data' k)) ∧
        ∀ k : Fin 128, k.val < i ∨ i + es.length ≤ k.val → data' k = data k := by
  intro es
  induction es with
  | nil => exact fun i de data _ _ => ⟨data, rfl, by simp, fun _ _ => rfl⟩
  | cons e es ih =>
    intro i de data hlen hnames
    rw [List.length_cons] at hlen
    obtain ⟨name, hname⟩ : ∃ name, setChars de.name e.name = some name := by
      rw [setChars, if_pos (hnames e List.mem_cons_self)]
      exact ⟨_, rfl⟩
    have hslot : SlotOf e { valid := e.val, inode := BitVec.ofNat 31 e.num, name := name } := by
      refine ⟨rfl, rfl, fun hshort hnul => ?_⟩
      exact cstr_strcpy hnul ((setChars_eq de.name hshort).symm.trans hname)
    obtain ⟨data', hrun, hin, hout⟩ := ih (i + 1)
      { valid := e.val, inode := BitVec.ofNat 31 e.num, name := name }
      (Function.update data (Fin.ofNat 128 i)
        { valid := e.val, inode := BitVec.ofNat 31 e.num, name := name })
      (by omega) fun x hx => hnames x (List.mem_cons_of_mem e hx)
    have hi : (Fin.ofNat 128 i).val = i := Nat.mod_eq_of_lt (by omega)
    refine ⟨data', ?_, fun k x hk hx => ?_, fun k hk => ?_⟩
    · simp only [fillSlots, hname, Option.bind_eq_bind, Option.bind_some]
      exact hrun
    · by_cases hki : k.val = i
      · have hkf : k = Fin.ofNat 128 i := Fin.ext (hki.trans hi.symm)
        rw [hki, Nat.sub_self] at hx
        obtain rfl := Option.some.inj hx
        rw [hout k (.inl (by omega)), hkf, Function.update_self]
        exact hslot
      · refine hin k x (by omega) ?_
        rwa [show k.val - i = k.val - (i + 1) + 1 by omega, List.getElem?_cons_succ] at hx
    · rw [List.length_cons] at hk
      have hkf : k ≠ Fin.ofNat 128 i := fun h => by
        rw [h, hi] at hk
        omega
      rw [hout k (by omega), Function.update_of_ne hkf]

end SystemsProjects.Fs5600
