import SystemsProjects.Fs5600.Gendisk
import SystemsProjects.Fs5600.Accounting
import SystemsProjects.Fs5600.FilesEffect
import SystemsProjects.Fs5600.Remount
import SystemsProjects.Lib.Preorder

/-!
# Generated images

What `gen-disk.py` writes for a description in order: the file system mounts it, it is well formed,
and its paths show what is described. A directory may be described with several blocks of entries,
of which `fs5600.c` knows the first.
-/

namespace SystemsProjects.Fs5600
open SystemsProjects.Lib

/-- The entries in the first block. -/
def Item.first (f : Item) : List ItemEntry := (f.entries.getD []).take 128

/-- The item behind the entry `c` of a directory. -/
def itemStep (items : List Item) (f : Item) (c : List UInt8) : Option Item :=
  (f.first.find? fun e => e.val && decide (e.name = c)).bind fun e =>
    items.find? fun g => decide (g.inum = e.num)

/-- The object that an item describes. -/
def Item.obj (content : List UInt8 → Nat → Block) (f : Item) : Obj where
  mode := UInt32.ofNat f.mode
  uid := UInt16.ofNat f.uid
  gid := UInt16.ofNat f.gid
  ctime := UInt32.ofNat f.ctime
  mtime := UInt32.ofNat f.mtime
  body :=
    match f.entries with
    | some _ => .dir (Int32.ofInt f.size).toInt
    | none => .file ((List.range f.size.toNat).map fun j =>
        content f.name (j / 4096) (Fin.ofNat 4096 (j % 4096)))

/-- The name space that a description describes. -/
def described (content : List UInt8 → Nat → Block) (items : List Item) (root : Item) : Files :=
  spaceOf (itemStep items) (Item.obj content) root

/-- A directory in order: its type, a block for its entries, and names that fit, each used once. -/
structure Item.DirOk (f : Item) (entries : List ItemEntry) : Prop where
  mode : sIsdir (UInt32.ofNat f.mode) = true
  block : f.blocks ≠ []
  fits : ∀ e ∈ entries, e.name.length ≤ 28
  named : ∀ e ∈ f.first, e.val = true → e.name.length ≤ 27 ∧ 0 ∉ e.name
  unique : ∀ (i j : Nat) e e', f.first[i]? = some e → f.first[j]? = some e' → e.val = true →
    e'.val = true → e.name = e'.name → i = j

/-- A file in order: its type, and a block for every byte. -/
structure Item.FileOk (f : Item) : Prop where
  mode : sIsdir (UInt32.ofNat f.mode) = false
  nonneg : 0 ≤ f.size
  blocks : f.size ≤ 4096 * f.blocks.length

/-- A description in order: no block is used twice or lies outside of the image, each item is in
order, and the entries make a tree of all the items. -/
structure Described (items : List Item) (root : Item) (nblocks : Nat) : Prop where
  small : nblocks ≤ 400
  numbers : ((items.flatMap Item.cells).map Prod.fst).Nodup
  inside : ∀ x ∈ (items.flatMap Item.cells).map Prod.fst, 2 ≤ x ∧ x < nblocks
  length : ∀ f ∈ items, f.blocks.length ≤ 1019
  dir : ∀ f ∈ items, ∀ entries, f.entries = some entries → f.DirOk entries
  file : ∀ f ∈ items, f.entries = none → f.FileOk
  root_mem : root ∈ items
  root_inum : root.inum = 2
  root_dir : root.entries ≠ none
  linked : ∀ f ∈ items, ∀ e ∈ f.first, e.val = true → e.num ≠ 2 ∧ ∃ g ∈ items, g.inum = e.num
  once : ∀ f ∈ items, ∀ g ∈ items, ∀ (i j : Nat) e e', f.first[i]? = some e →
    g.first[j]? = some e' → e.val = true → e'.val = true → e.num = e'.num → f = g ∧ i = j
  reached : ∀ f ∈ items, ∃ cs, follow (itemStep items) root cs = some f

/-! ## What is written where -/

/-- The blocks of an image, as `fs5600.c` reads them. -/
structure Laid (content : List UInt8 → Nat → Block) (items : List Item) (nblocks : Nat)
    (d : Disk) : Prop where
  len : d.len = nblocks
  super : d.data 0 = encodeSuper { magic := fsMagic, diskSize := UInt32.ofNat nblocks }
  bitmap : ∀ j < 32768, bitTest (d.data 1) j = true ↔
    j = 0 ∨ j = 1 ∨ j ∈ (items.flatMap Item.cells).map Prod.fst
  inode : ∀ f ∈ items, inodeAt d f.inum = f.header
  data : ∀ f ∈ items, f.entries = none → ∀ i b, f.blocks[i]? = some b →
    d.data b = content f.name i
  table : ∀ f ∈ items, ∀ b, f.entries ≠ none → f.blocks[0]? = some b →
    (∀ (k : Fin 128) e, f.first[k.val]? = some e → SlotOf e (decodeDirents (d.data b) k)) ∧
      ∀ k : Fin 128, f.first.length ≤ k.val → (decodeDirents (d.data b) k).valid = false

section Layout
variable {content : List UInt8 → Nat → Block} {items : List Item} {root : Item} {nblocks : Nat}
  (ok : Described items root nblocks)
include ok

theorem Described.three_le : 3 ≤ nblocks := by
  have h := (ok.inside root.inum (List.mem_map.mpr ⟨_, List.mem_flatMap.mpr
    ⟨root, ok.root_mem, List.mem_cons_self⟩, rfl⟩)).2
  have := ok.root_inum
  omega

theorem Described.cell_eq {n : Nat} {x y : Cell} (hx : (n, x) ∈ items.flatMap Item.cells)
    (hy : (n, y) ∈ items.flatMap Item.cells) : x = y :=
  congrArg Prod.snd (List.inj_on_of_nodup_map ok.numbers hx hy rfl)

omit ok in
theorem inode_mem_cells {f : Item} (hf : f ∈ items) :
    (f.inum, Cell.inode f) ∈ items.flatMap Item.cells :=
  List.mem_flatMap.mpr ⟨f, hf, List.mem_cons_self⟩

omit ok in
theorem block_mem_cells {f : Item} (hf : f ∈ items) {i b : Nat} (hb : f.blocks[i]? = some b) :
    (b, Cell.block f i) ∈ items.flatMap Item.cells :=
  List.mem_flatMap.mpr ⟨f, hf, List.mem_cons_of_mem _
    (List.mem_map.mpr ⟨(b, i), List.mk_mem_zipIdx_iff_getElem?.mpr hb, rfl⟩)⟩

omit ok in
theorem mem_cells {n : Nat} {x : Cell} (h : (n, x) ∈ items.flatMap Item.cells) :
    ∃ f ∈ items, (n = f.inum ∧ x = .inode f) ∨ ∃ i, f.blocks[i]? = some n ∧ x = .block f i := by
  obtain ⟨f, hf, h⟩ := List.mem_flatMap.mp h
  refine ⟨f, hf, ?_⟩
  rcases List.mem_cons.mp h with h | h
  · obtain ⟨rfl, rfl⟩ := Prod.mk.inj h
    exact .inl ⟨rfl, rfl⟩
  · obtain ⟨⟨b, i⟩, hb, h⟩ := List.mem_map.mp h
    obtain ⟨rfl, rfl⟩ := Prod.mk.inj h
    exact .inr ⟨i, List.mk_mem_zipIdx_iff_getElem?.mp hb, rfl⟩

omit ok in
/-- The entries of block `offset` of a directory fit into their slots. -/
theorem Item.DirOk.fillSlots {f : Item} {entries : List ItemEntry} (h : f.DirOk entries)
    (offset : Nat) : ∃ data,
      fillSlots ((entries.drop (offset * 128)).take 128) 0 blankDirent (fun _ => blankDirent) =
        some data ∧
      (∀ (k : Fin 128) e, ((entries.drop (offset * 128)).take 128)[k.val]? = some e →
        SlotOf e (data k)) ∧
      ∀ k : Fin 128, ((entries.drop (offset * 128)).take 128).length ≤ k.val →
        (data k).valid = false := by
  obtain ⟨data, hrun, hin, hout⟩ := fillSlots_eq ((entries.drop (offset * 128)).take 128) 0
    blankDirent (fun _ => blankDirent)
    (by rw [Nat.zero_add]; exact (List.length_take_le 128 _))
    fun e he => h.fits e (List.mem_of_mem_drop (List.mem_of_mem_take he))
  refine ⟨data, hrun, fun k e he => hin k e (Nat.zero_le _) he, fun k hk => ?_⟩
  rw [hout k (.inr (by rwa [Nat.zero_add]))]
  rfl

omit ok in
theorem Item.first_eq {f : Item} {entries : List ItemEntry} (h : f.entries = some entries) :
    f.first = (entries.drop (0 * 128)).take 128 := by
  simp [Item.first, h]

theorem Described.block_isSome {f : Item} (hf : f ∈ items) (o : Nat) :
    ∃ y, f.block content o = some y := by
  unfold Item.block
  cases hentries : f.entries with
  | none => exact ⟨_, rfl⟩
  | some entries =>
    obtain ⟨data, hrun, -⟩ := (ok.dir f hf entries hentries).fillSlots o
    exact ⟨encodeDirents data, by simp only [hrun, Option.map_some]⟩

/-- Every cell can be written. -/
theorem Described.row_isSome {plan : Plan}
    (hplan : ∀ n x, plan.blocks n = some x ↔ (n, x) ∈ items.flatMap Item.cells) {i : Nat}
    (hi : i < nblocks) : ∃ y, plan.row content i = some y := by
  unfold Plan.row
  rw [if_pos (lt_of_lt_of_le hi ok.small)]
  cases hcell : plan.blocks i with
  | none => exact ⟨_, rfl⟩
  | some x =>
    obtain ⟨f, hf, ⟨-, rfl⟩ | ⟨o, -, rfl⟩⟩ := mem_cells ((hplan i x).mp hcell)
    · exact ⟨_, if_pos (ok.length f hf)⟩
    · exact ok.block_isSome hf o

end Layout

/-- The generator succeeds, and every block is where the description has it. -/
theorem genDisk_laid {content : List UInt8 → Nat → Block} {files dirs : List Item} {root : Item}
    {nblocks : Nat} (ok : Described (files ++ dirs) root nblocks) :
    ∃ d, genDisk content files dirs nblocks = some d ∧ Laid content (files ++ dirs) nblocks d := by
  obtain ⟨m₀, hset₀, hbit₀⟩ := Bitmap.zero.set_eq (i := 0) (by omega) true
  obtain ⟨m₁, hset₁, hbit₁⟩ := m₀.set_eq (i := 1) (by omega) true
  obtain ⟨plan, hplace, hputs⟩ := placeItems_eq (files ++ dirs) ⟨m₁, fun _ => none⟩ fun c hc =>
    lt_of_lt_of_le (ok.inside c.1 (List.mem_map.mpr ⟨c, hc, rfl⟩)).2 ok.small
  have hplan : ∀ n x, plan.blocks n = some x ↔ (n, x) ∈ (files ++ dirs).flatMap Item.cells := by
    intro n x
    rw [hputs.blocks, assign_eq_some _ _ ok.numbers (fun _ _ => rfl)]
    simp
  have hrow : ∀ i < nblocks, plan.row content i = some ((plan.row content i).getD Block.zero) := by
    intro i hi
    obtain ⟨y, hy⟩ := ok.row_isSome hplan hi
    rw [hy, Option.getD_some]
  have hrows : (List.range' 2 (nblocks - 2)).mapM (plan.row content) =
      some ((List.range' 2 (nblocks - 2)).map fun i => (plan.row content i).getD Block.zero) :=
    mapM_eq_some_map fun i hi => hrow i (by
      have := List.mem_range'_1.mp hi
      omega)
  have hthree := ok.three_le
  generalize hd : Disk.ofRows (encodeSuper { magic := fsMagic, diskSize := UInt32.ofNat nblocks } ::
    plan.blockmap.bytes ::
      (List.range' 2 (nblocks - 2)).map fun i => (plan.row content i).getD Block.zero) = d
  have hrun : genDisk content files dirs nblocks = some d := by
    simp only [genDisk, hset₀, hset₁, hplace, hrows, Option.bind_eq_bind, Option.bind_some, hd]
  have hdata : ∀ n y, 2 ≤ n → n < nblocks → plan.row content n = some y → d.data n = y := by
    intro n y h2 hn hy
    obtain ⟨k, rfl⟩ : ∃ k, n = k + 2 := ⟨n - 2, by omega⟩
    rw [← hd]
    simp only [Disk.ofRows]
    rw [List.getD_cons_succ, List.getD_cons_succ, List.getD_eq_getElem?_getD, List.getElem?_map,
      List.getElem?_range' (by omega), Option.map_some, Option.getD_some,
      show 2 + 1 * k = k + 2 by omega, hy, Option.getD_some]
  have hcell : ∀ n x, (n, x) ∈ (files ++ dirs).flatMap Item.cells → 2 ≤ n ∧ n < nblocks ∧
      n < 400 ∧ plan.blocks n = some x := by
    intro n x h
    obtain ⟨h2, hn⟩ := ok.inside n (List.mem_map.mpr ⟨_, h, rfl⟩)
    exact ⟨h2, hn, lt_of_lt_of_le hn ok.small, (hplan n x).mpr h⟩
  refine ⟨d, hrun, ?_, ?_, fun j hj => ?_, fun f hf => ?_, fun f hf hfile i b hb => ?_,
    fun f hf b hdir hb => ?_⟩
  · rw [← hd]
    simp only [Disk.ofRows, List.length_cons, List.length_map, List.length_range']
    omega
  · rw [← hd]
    rfl
  · have hbytes : d.data 1 = plan.blockmap.bytes := by
      rw [← hd]
      rfl
    rw [hbytes, plan.blockmap.bitTest_bytes hj, hputs.bit j hj, hbit₁ j hj, hbit₀ j hj]
    have hzero : Bitmap.zero.bit j = false := by
      simp [Bitmap.bit, Bitmap.zero]
    rw [hzero]
    by_cases h0 : j = 0 <;> by_cases h1 : j = 1 <;> simp [h0, h1]
  · obtain ⟨h2, hn, hlt, hblocks⟩ := hcell _ _ (inode_mem_cells hf)
    rw [inodeAt, hdata f.inum (encodeInode f.header) h2 hn, decodeInode_encodeInode]
    simp only [Plan.row, if_pos hlt, hblocks, Item.inode, if_pos (ok.length f hf)]
  · obtain ⟨h2, hn, hlt, hblocks⟩ := hcell _ _ (block_mem_cells hf hb)
    refine hdata b _ h2 hn ?_
    simp only [Plan.row, if_pos hlt, hblocks, Item.block, hfile]
  · obtain ⟨h2, hn, hlt, hblocks⟩ := hcell _ _ (block_mem_cells hf hb)
    obtain ⟨entries, hentries⟩ := Option.ne_none_iff_exists'.mp hdir
    obtain ⟨data, hfill, hin, hout⟩ := (ok.dir f hf entries hentries).fillSlots 0
    have hb' : d.data b = encodeDirents data := by
      refine hdata b _ h2 hn ?_
      simp only [Plan.row, if_pos hlt, hblocks, Item.block, hentries, hfill, Option.map_some]
    rw [hb', decodeDirents_encodeDirents, Item.first_eq hentries]
    exact ⟨hin, hout⟩

/-! ## The tree of a generated image -/

section Tree
variable {content : List UInt8 → Nat → Block} {items : List Item} {root : Item} {nblocks : Nat}
  {d : Disk} (ok : Described items root nblocks) (lay : Laid content items nblocks d)
include ok

theorem Described.number_lt {n : Nat} {x : Cell} (h : (n, x) ∈ items.flatMap Item.cells) :
    2 ≤ n ∧ n < nblocks ∧ n < 400 := by
  obtain ⟨h2, hn⟩ := ok.inside n (List.mem_map.mpr ⟨_, h, rfl⟩)
  exact ⟨h2, hn, lt_of_lt_of_le hn ok.small⟩

theorem Described.inum_inj {f g : Item} (hf : f ∈ items) (hg : g ∈ items)
    (h : f.inum = g.inum) : f = g := by
  have hcell := ok.cell_eq (inode_mem_cells hf) (h ▸ inode_mem_cells hg)
  exact Cell.inode.inj hcell

theorem Described.ptr_eq {f : Item} (hf : f ∈ items) (i : Fin 1019) :
    (f.header.ptrs i).toNat = f.blocks.getD i.val 0 := by
  have hlt : f.blocks.getD i.val 0 < 2 ^ 32 := by
    rw [List.getD_eq_getElem?_getD]
    cases hb : f.blocks[i.val]? with
    | none => simp
    | some b =>
      have := ok.number_lt (block_mem_cells hf hb)
      simp only [Option.getD_some]
      omega
  show (UInt32.ofNat _).toNat = _
  rw [UInt32.toNat_ofNat', Nat.mod_eq_of_lt hlt]

/-- A pointer is the block listed at its position, or 0. -/
theorem Described.ptr_iff {f : Item} (hf : f ∈ items) (i : Fin 1019) (b : Nat) :
    f.header.ptrs i ≠ 0 ∧ (f.header.ptrs i).toNat = b ↔ f.blocks[i.val]? = some b := by
  have hptr := ok.ptr_eq hf i
  rw [List.getD_eq_getElem?_getD] at hptr
  cases hb : f.blocks[i.val]? with
  | none =>
    rw [hb, Option.getD_none] at hptr
    simp [UInt32.toNat_inj.mp (show (f.header.ptrs i).toNat = (0 : UInt32).toNat from hptr)]
  | some c =>
    have hc := ok.number_lt (block_mem_cells hf hb)
    rw [hb, Option.getD_some] at hptr
    rw [hptr, Option.some.injEq]
    refine and_iff_right fun h0 => ?_
    rw [h0, UInt32.toNat_zero] at hptr
    omega

theorem Described.find_inum {g : Item} (hg : g ∈ items) :
    items.find? (fun h => decide (h.inum = g.inum)) = some g := by
  cases hfind : items.find? fun h => decide (h.inum = g.inum) with
  | none => simpa using List.find?_eq_none.mp hfind g hg
  | some h =>
    have hnum := List.find?_some hfind
    simp only [decide_eq_true_eq] at hnum
    rw [ok.inum_inj (List.mem_of_find?_eq_some hfind) hg hnum]

omit ok in
theorem Item.first_nil {f : Item} (h : f.entries = none) : f.first = [] := by
  simp [Item.first, h]

theorem Described.num_lt {f : Item} (hf : f ∈ items) {e : ItemEntry} (he : e ∈ f.first)
    (hv : e.val = true) : e.num < 400 := by
  obtain ⟨-, g, hg, hnum⟩ := ok.linked f hf e he hv
  exact hnum ▸ (ok.number_lt (inode_mem_cells hg)).2.2

theorem Described.first_block {f : Item} (hf : f ∈ items) (hdir : f.entries ≠ none) :
    ∃ b, f.blocks[0]? = some b := by
  obtain ⟨entries, hentries⟩ := Option.ne_none_iff_exists'.mp hdir
  have hne := (ok.dir f hf entries hentries).block
  exact ⟨_, List.getElem?_eq_getElem (List.length_pos_of_ne_nil hne)⟩

include lay

theorem Laid.isDirAt_eq {f : Item} (hf : f ∈ items) : isDirAt d f.inum = f.entries.isSome := by
  unfold isDirAt
  rw [lay.inode f hf]
  cases hentries : f.entries with
  | none => exact (ok.file f hf hentries).mode
  | some entries => exact (ok.dir f hf entries hentries).mode

theorem Laid.tableOf_eq {f : Item} (hf : f ∈ items) {b : Nat} (hb : f.blocks[0]? = some b) :
    tableOf d f.inum = b := by
  unfold tableOf
  rw [lay.inode f hf]
  exact ((ok.ptr_iff hf 0 b).mpr hb).2

/-- The slots of a directory, against its entries. -/
theorem Laid.slots {f : Item} (hf : f ∈ items) (hdir : f.entries ≠ none) :
    (∀ (k : Fin 128) e, f.first[k.val]? = some e → SlotOf e (entriesAt d f.inum k)) ∧
      ∀ k : Fin 128, f.first.length ≤ k.val → (entriesAt d f.inum k).valid = false := by
  obtain ⟨b, hb⟩ := ok.first_block hf hdir
  unfold entriesAt
  rw [lay.tableOf_eq ok hf hb]
  exact lay.table f hf b hdir hb

/-- A valid slot holds an entry of the description. -/
theorem Laid.slot_valid_iff {f : Item} (hf : f ∈ items) (hdir : f.entries ≠ none) (k : Fin 128) :
    (entriesAt d f.inum k).valid = true ↔ ∃ e, f.first[k.val]? = some e ∧ e.val = true := by
  obtain ⟨hin, hout⟩ := lay.slots ok hf hdir
  cases hk : f.first[k.val]? with
  | none => simp [hout k (List.getElem?_eq_none_iff.mp hk)]
  | some e => simp [(hin k e hk).valid]

theorem Laid.slot_inode {f : Item} (hf : f ∈ items) (hdir : f.entries ≠ none) {k : Fin 128}
    {e : ItemEntry} (he : f.first[k.val]? = some e) (hv : e.val = true) :
    (entriesAt d f.inum k).inode.toNat = e.num ∧ (entriesAt d f.inum k).nameOf = some e.name := by
  have hslot := (lay.slots ok hf hdir).1 k e he
  have hmem := List.mem_of_getElem? he
  have hlt := ok.num_lt hf hmem hv
  obtain ⟨entries, hentries⟩ := Option.ne_none_iff_exists'.mp hdir
  obtain ⟨hlen, hnul⟩ := (ok.dir f hf entries hentries).named e hmem hv
  refine ⟨?_, hslot.name hlen hnul⟩
  rw [hslot.inode, BitVec.toNat_ofNat, Nat.mod_eq_of_lt (by omega)]

/-- What an item of the description is said to refer to. -/
def Item.Refers (f : Item) : Label → Nat → Prop
  | .table, x => f.entries ≠ none ∧ f.blocks[0]? = some x
  | .slot i, x => ∃ e, f.first[i.val]? = some e ∧ e.val = true ∧ e.num = x
  | .data i, x => f.entries = none ∧ f.blocks[i.val]? = some x

theorem Laid.refs_iff {f : Item} (hf : f ∈ items) (l : Label) (x : Nat) :
    refs d f.inum l = some x ↔ f.Refers l x := by
  have hisdir := lay.isDirAt_eq ok hf
  cases hentries : f.entries with
  | none =>
    rw [hentries, Option.isSome_none] at hisdir
    cases l with
    | table => simp [refs, hisdir, Item.Refers, hentries]
    | slot i => simp [refs, hisdir, Item.Refers, Item.first_nil hentries]
    | data i =>
      simp only [refs, hisdir, Item.Refers, hentries, ← ok.ptr_iff hf i x, lay.inode f hf]
      simp
  | some entries =>
    rw [hentries, Option.isSome_some] at hisdir
    have hdir : f.entries ≠ none := by simp [hentries]
    cases l with
    | table =>
      obtain ⟨b, hb⟩ := ok.first_block hf hdir
      simp [refs, hisdir, Item.Refers, hentries, lay.tableOf_eq ok hf hb, hb]
    | slot i =>
      simp only [refs, hisdir, Item.Refers, Bool.true_and]
      constructor
      · intro h
        split_ifs at h with hv
        obtain ⟨e, he, hev⟩ := (lay.slot_valid_iff ok hf hdir i).mp hv
        exact ⟨e, he, hev, (lay.slot_inode ok hf hdir he hev).1.symm.trans (Option.some.inj h)⟩
      · rintro ⟨e, he, hev, rfl⟩
        rw [if_pos ((lay.slot_valid_iff ok hf hdir i).mpr ⟨e, he, hev⟩),
          (lay.slot_inode ok hf hdir he hev).1]
    | data i => simp [refs, hisdir, Item.Refers, hentries]

theorem Laid.live_item {n : Nat} (h : Live d n) : ∃ f ∈ items, f.inum = n := by
  induction h with
  | root => exact ⟨root, ok.root_mem, ok.root_inum⟩
  | @step m x l hm hl hout ih =>
    obtain ⟨f, hf, rfl⟩ := ih
    have hrefers := (lay.refs_iff ok hf l x).mp hout
    cases l with
    | table => exact absurd hl id
    | data i => exact absurd hl id
    | slot i =>
      obtain ⟨e, he, hv, rfl⟩ := hrefers
      exact (ok.linked f hf e (List.mem_of_getElem? he) hv).2

/-- A reference to an inode is an entry, and a reference to another block is one of the item whose
block it is. -/
theorem Laid.meets_cases {r : Option (Nat × Label)} {x : Nat}
    (h : Meets Label.IsSlot 2 (refs d) r x) :
    (∃ g ∈ items, x = g.inum ∧ ((r = none ∧ g.inum = 2) ∨ ∃ f ∈ items, ∃ i e,
      r = some (f.inum, .slot i) ∧ f.first[i.val]? = some e ∧ e.val = true ∧ e.num = g.inum)) ∨
    ∃ f ∈ items, ∃ i : Nat, f.blocks[i]? = some x ∧
      ((r = some (f.inum, .table) ∧ f.entries ≠ none ∧ i = 0) ∨
        ∃ j : Fin 1019, r = some (f.inum, .data j) ∧ f.entries = none ∧ i = j.val) := by
  cases r with
  | none =>
    obtain rfl : x = 2 := h
    exact .inl ⟨root, ok.root_mem, ok.root_inum.symm, .inl ⟨rfl, ok.root_inum⟩⟩
  | some q =>
    obtain ⟨m, l⟩ := q
    obtain ⟨hm, hout⟩ := h
    obtain ⟨f, hf, rfl⟩ := lay.live_item ok hm
    have hrefers := (lay.refs_iff ok hf l x).mp hout
    cases l with
    | table => exact .inr ⟨f, hf, 0, hrefers.2, .inl ⟨rfl, hrefers.1, rfl⟩⟩
    | data j => exact .inr ⟨f, hf, j.val, hrefers.2, .inr ⟨j, rfl, hrefers.1, rfl⟩⟩
    | slot i =>
      obtain ⟨e, he, hv, rfl⟩ := hrefers
      obtain ⟨-, g, hg, hnum⟩ := ok.linked f hf e (List.mem_of_getElem? he) hv
      exact .inl ⟨g, hg, hnum.symm, .inr ⟨f, hf, i, e, rfl, he, hv, hnum.symm⟩⟩

theorem Laid.inUse_cell {x : Nat} (h : InUse d x) :
    ∃ c, (x, c) ∈ items.flatMap Item.cells := by
  obtain ⟨r, hr⟩ := h
  rcases lay.meets_cases ok hr with ⟨g, hg, rfl, -⟩ | ⟨f, hf, i, hi, -⟩
  · exact ⟨_, inode_mem_cells hg⟩
  · exact ⟨_, block_mem_cells hf hi⟩

theorem Laid.unshared : Unshared Label.IsSlot 2 (refs d) := by
  intro r r' x hr hr'
  rcases lay.meets_cases ok hr with ⟨g, hg, hx, hcase⟩ | ⟨f, hf, i, hi, hcase⟩ <;>
    rcases lay.meets_cases ok hr' with ⟨g', hg', hx', hcase'⟩ | ⟨f', hf', i', hi', hcase'⟩
  · obtain rfl := ok.inum_inj hg hg' (hx.symm.trans hx')
    rcases hcase with ⟨rfl, h2⟩ | ⟨f, hf, i, e, rfl, he, hv, hnum⟩ <;>
      rcases hcase' with ⟨rfl, h2'⟩ | ⟨f', hf', i', e', rfl, he', hv', hnum'⟩
    · rfl
    · exact absurd (hnum'.trans h2) (ok.linked f' hf' e' (List.mem_of_getElem? he') hv').1
    · exact absurd (hnum.trans h2') (ok.linked f hf e (List.mem_of_getElem? he) hv).1
    · obtain ⟨rfl, hii⟩ := ok.once f hf f' hf' i i' e e' he he' hv hv' (hnum.trans hnum'.symm)
      rw [Fin.ext hii]
  · exact absurd (ok.cell_eq (inode_mem_cells hg) (hx ▸ block_mem_cells hf' hi')) (by simp)
  · exact absurd (ok.cell_eq (inode_mem_cells hg') (hx' ▸ block_mem_cells hf hi)) (by simp)
  · obtain ⟨rfl, rfl⟩ :=
      Cell.block.inj (ok.cell_eq (block_mem_cells hf hi) (block_mem_cells hf' hi'))
    rcases hcase with ⟨rfl, hdir, rfl⟩ | ⟨j, rfl, hfile, rfl⟩ <;>
      rcases hcase' with ⟨rfl, hdir', hi0⟩ | ⟨j', rfl, hfile', hij⟩
    · rfl
    · exact absurd hfile' hdir
    · exact absurd hfile hdir'
    · rw [Fin.ext hij]

/-- The state `fs_init` makes of the image. -/
def mountedState (d : Disk) (nblocks : Nat) : FsState :=
  { disk := d, numBlocks := UInt32.ofNat nblocks, blockBitmap := d.data 1 }

omit ok in
theorem Laid.marked_iff (x : Nat) : Marked (mountedState d nblocks) x ↔
    x < 32768 ∧ (x = 0 ∨ x = 1 ∨ ∃ c, (x, c) ∈ items.flatMap Item.cells) := by
  unfold Marked mountedState
  refine and_congr_right fun hx => ?_
  rw [lay.bitmap x hx]
  simp

omit lay in
theorem Described.size_toInt {f : Item} (hf : f ∈ items) (hfile : f.entries = none) :
    f.header.size.toInt = f.size ∧ 0 ≤ f.size ∧ f.size ≤ 4096 * f.blocks.length ∧
      f.blocks.length ≤ 1019 := by
  have h := ok.file f hf hfile
  have hlen := ok.length f hf
  have hle := h.blocks
  exact ⟨toInt_ofInt32 h.nonneg (by omega), h.nonneg, hle, hlen⟩

theorem Laid.dirOk {f : Item} (hf : f ∈ items) (hdir : f.entries ≠ none) :
    DirOk (entriesAt d f.inum) := by
  obtain ⟨entries, hentries⟩ := Option.ne_none_iff_exists'.mp hdir
  constructor
  · intro i hv
    obtain ⟨e, he, hev⟩ := (lay.slot_valid_iff ok hf hdir i).mp hv
    rw [(lay.slot_inode ok hf hdir he hev).2]
    simp
  · intro i j hi hj hname
    obtain ⟨e, he, hev⟩ := (lay.slot_valid_iff ok hf hdir i).mp hi
    obtain ⟨e', he', hev'⟩ := (lay.slot_valid_iff ok hf hdir j).mp hj
    refine Fin.ext ((ok.dir f hf entries hentries).unique i j e e' he he' hev hev' ?_)
    rw [(lay.slot_inode ok hf hdir he hev).2, (lay.slot_inode ok hf hdir he' hev').2] at hname
    exact Option.some.inj hname

theorem Laid.wellFormed : WellFormed (mountedState d nblocks) where
  reserved := by
    rw [lay.marked_iff, lay.marked_iff, lay.marked_iff]
    exact ⟨⟨by omega, .inl rfl⟩, ⟨by omega, .inr (.inl rfl)⟩, by omega,
      .inr (.inr ⟨_, ok.root_inum ▸ inode_mem_cells ok.root_mem⟩)⟩
  root := by
    show isDirAt d 2 = true
    rw [← ok.root_inum, lay.isDirAt_eq ok ok.root_mem]
    exact Option.isSome_iff_ne_none.mpr ok.root_dir
  distinct := lay.unshared ok
  used := by
    intro x hx
    obtain ⟨c, hc⟩ := lay.inUse_cell ok hx
    obtain ⟨h2, hn, hlt⟩ := ok.number_lt hc
    refine ⟨by omega, by omega, (lay.marked_iff x).mpr ⟨by omega, .inr (.inr ⟨c, hc⟩)⟩, ?_⟩
    show x < d.len
    rw [lay.len]
    exact hn
  dirs := by
    intro n hn hdir
    obtain ⟨f, hf, rfl⟩ := lay.live_item ok hn
    have hsome : f.entries ≠ none := by
      rw [show (mountedState d nblocks).disk = d from rfl, lay.isDirAt_eq ok hf] at hdir
      exact Option.isSome_iff_ne_none.mp hdir
    exact lay.dirOk ok hf hsome
  files := by
    intro n hn hfile
    obtain ⟨f, hf, rfl⟩ := lay.live_item ok hn
    have hnone : f.entries = none := by
      rw [show (mountedState d nblocks).disk = d from rfl, lay.isDirAt_eq ok hf] at hfile
      simpa using hfile
    obtain ⟨hsize, h0, hle, hlen⟩ := ok.size_toInt hf hnone
    show FileOk (inodeAt d f.inum)
    rw [lay.inode f hf]
    refine ⟨by omega, by omega, fun i hi => ?_⟩
    rw [hsize] at hi
    have hb := List.getElem?_eq_getElem (show i.val < f.blocks.length by omega)
    exact ((ok.ptr_iff hf i _).mpr hb).1

/-! ## What its paths show -/

theorem Laid.obj_eq {f : Item} (hf : f ∈ items) : objAt d f.inum = f.obj content := by
  unfold objAt Item.obj
  rw [lay.isDirAt_eq ok hf, lay.inode f hf]
  cases hentries : f.entries with
  | some entries => rfl
  | none =>
    obtain ⟨hsize, h0, hle, hlen⟩ := ok.size_toInt hf hentries
    have hbytes : contents d f.header = (List.range f.size.toNat).map fun j =>
        content f.name (j / 4096) (Fin.ofNat 4096 (j % 4096)) := by
      unfold contents
      rw [hsize]
      refine List.map_congr_left fun j hj => ?_
      rw [List.mem_range] at hj
      have hlt : j / 4096 < f.blocks.length := by omega
      have hi : (Fin.ofNat 1019 (j / 4096)).val = j / 4096 := Nat.mod_eq_of_lt (by omega)
      have hb := List.getElem?_eq_getElem hlt
      have hptr := (ok.ptr_iff hf (Fin.ofNat 1019 (j / 4096)) _).mpr (by rw [hi, hb])
      rw [fileByte, hptr.2, lay.data f hf hentries _ _ hb]
    rw [hbytes]
    rfl

theorem Laid.entryStep_eq {f : Item} (hf : f ∈ items) (c : List UInt8) :
    entryStep d f.inum c = (itemStep items f c).map Item.inum := by
  cases hentries : f.entries with
  | none =>
    have hfile : isDirAt d f.inum = false := by rw [lay.isDirAt_eq ok hf, hentries]; rfl
    rw [entryStep_none fun hdir => absurd (hfile.symm.trans hdir) (by simp), itemStep,
      Item.first_nil hentries]
    rfl
  | some entries =>
    have hsome : f.entries ≠ none := by simp [hentries]
    have hdir : isDirAt d f.inum = true := by rw [lay.isDirAt_eq ok hf, hentries]; rfl
    unfold itemStep
    cases hfind : f.first.find? fun e => e.val && decide (e.name = c) with
    | none =>
      refine entryStep_none fun _ => ?_
      cases hl : lookup d f.inum c with
      | none => rfl
      | some i =>
        obtain ⟨hv, hname⟩ := lookup_eq_some hl
        obtain ⟨e, he, hev⟩ := (lay.slot_valid_iff ok hf hsome i).mp hv
        rw [(lay.slot_inode ok hf hsome he hev).2] at hname
        have hno := List.find?_eq_none.mp hfind e (List.mem_of_getElem? he)
        simp [hev, Option.some.inj hname] at hno
    | some e =>
      have hmem := List.mem_of_find?_eq_some hfind
      have hcond := List.find?_some hfind
      simp only [Bool.and_eq_true, decide_eq_true_eq] at hcond
      obtain ⟨hev, rfl⟩ := hcond
      obtain ⟨k, he⟩ := List.mem_iff_getElem?.mp hmem
      have hk : k < 128 := by
        have hlt := (List.getElem?_eq_some_iff.mp he).1
        have hle : f.first.length ≤ 128 := List.length_take_le _ _
        omega
      have hslot := lay.slot_inode ok hf hsome (k := ⟨k, hk⟩) he hev
      have hl : lookup d f.inum e.name = some ⟨k, hk⟩ :=
        lookup_of_name (lay.dirOk ok hf hsome)
          ((lay.slot_valid_iff ok hf hsome ⟨k, hk⟩).mpr ⟨e, he, hev⟩) hslot.2
      obtain ⟨-, g, hg, hnum⟩ := ok.linked f hf e hmem hev
      rw [entryStep_of_lookup hdir hl, hslot.1, Option.bind_some, ← hnum, ok.find_inum hg]
      rfl

/-- The file system shows what is described. -/
theorem Laid.fileTree_eq :
    fileTree (mountedState d nblocks) = described content items root := by
  have hroot : fileTree (mountedState d nblocks) =
      spaceOf (entryStep d) (objAt d) root.inum := by
    rw [ok.root_inum]
    rfl
  rw [hroot]
  refine spaceOf_hom Item.inum (P := (· ∈ items)) (fun f c hf => lay.entryStep_eq ok hf c)
    (fun f c g _ h => ?_) (fun f hf => lay.obj_eq ok hf) ok.root_mem
  obtain ⟨e, -, hfind⟩ := Option.bind_eq_some_iff.mp h
  exact List.mem_of_find?_eq_some hfind

/-! ## Which blocks are in use -/

theorem Laid.live_of_item {f : Item} (hf : f ∈ items) : Live d f.inum := by
  obtain ⟨cs, hcs⟩ := ok.reached f hf
  induction cs using List.reverseRecOn generalizing f with
  | nil =>
    obtain rfl := Option.some.inj hcs
    rw [ok.root_inum]
    exact .root
  | append_singleton cs c ih =>
    obtain ⟨g, hg, hstep⟩ := follow_concat_eq_some.mp hcs
    obtain ⟨e, hfind, hitem⟩ := Option.bind_eq_some_iff.mp hstep
    have hcond := List.find?_some hfind
    simp only [Bool.and_eq_true, decide_eq_true_eq] at hcond
    have hgm : g ∈ items := by
      cases cs using List.reverseRecOn with
      | nil => exact Option.some.inj hg ▸ ok.root_mem
      | append_singleton cs c =>
        obtain ⟨k, -, hk⟩ := follow_concat_eq_some.mp hg
        obtain ⟨x, -, hx⟩ := Option.bind_eq_some_iff.mp hk
        exact List.mem_of_find?_eq_some hx
    obtain ⟨k, he⟩ := List.mem_iff_getElem?.mp (List.mem_of_find?_eq_some hfind)
    have hk : k < 128 := by
      have hlt := (List.getElem?_eq_some_iff.mp he).1
      have hle : g.first.length ≤ 128 := List.length_take_le _ _
      omega
    have hnum := List.find?_some hitem
    simp only [decide_eq_true_eq] at hnum
    exact .step (l := .slot ⟨k, hk⟩) (ih hgm hg) trivial
      ((lay.refs_iff ok hgm (.slot ⟨k, hk⟩) _).mpr ⟨e, he, hcond.1, hnum.symm⟩)

/-- The bitmap is exact if no directory is described with a second block. -/
theorem Laid.exact_iff : Exact (mountedState d nblocks) ↔
    ∀ f ∈ items, f.entries ≠ none → f.blocks.length = 1 := by
  have hmarked : ∀ {f : Item}, f ∈ items → ∀ {i b : Nat}, f.blocks[i]? = some b →
      Marked (mountedState d nblocks) b := by
    intro f hf i b hb
    have := ok.number_lt (block_mem_cells hf hb)
    exact (lay.marked_iff b).mpr ⟨by omega, .inr (.inr ⟨_, block_mem_cells hf hb⟩)⟩
  constructor
  · intro h f hf hdir
    obtain ⟨b, hb⟩ := ok.first_block hf hdir
    have hpos := (List.getElem?_eq_some_iff.mp hb).1
    by_contra hlen
    have hb' := List.getElem?_eq_getElem (show 1 < f.blocks.length by omega)
    have hnum := ok.number_lt (block_mem_cells hf hb')
    rcases (h _).mp (hmarked hf hb') with h0 | h1 | ⟨r, hr⟩
    · omega
    · omega
    · rcases lay.meets_cases ok hr with ⟨g, hg, hx, -⟩ | ⟨g, hg, i, hi, hcase⟩
      · exact absurd (ok.cell_eq (inode_mem_cells hg) (hx ▸ block_mem_cells hf hb')) (by simp)
      · obtain ⟨rfl, rfl⟩ :=
          Cell.block.inj (ok.cell_eq (block_mem_cells hf hb') (block_mem_cells hg hi))
        rcases hcase with ⟨-, -, hi0⟩ | ⟨-, -, hfile, -⟩
        · omega
        · exact hdir hfile
  · intro h x
    rw [lay.marked_iff]
    constructor
    · rintro ⟨-, h0 | h1 | ⟨c, hc⟩⟩
      · exact .inl h0
      · exact .inr (.inl h1)
      · refine .inr (.inr ?_)
        obtain ⟨f, hf, ⟨rfl, -⟩ | ⟨i, hi, -⟩⟩ := mem_cells hc
        · exact (lay.live_of_item ok hf).owned
        · have hlive := lay.live_of_item ok hf
          by_cases hdir : f.entries = none
          · have hlt : i < 1019 :=
              lt_of_lt_of_le (List.getElem?_eq_some_iff.mp hi).1 (ok.length f hf)
            exact hlive.owned_out ((lay.refs_iff ok hf (.data ⟨i, hlt⟩) x).mpr ⟨hdir, hi⟩)
          · have hi0 : i = 0 := by
              have hlt := (List.getElem?_eq_some_iff.mp hi).1
              have := h f hf hdir
              omega
            subst hi0
            exact hlive.owned_out ((lay.refs_iff ok hf .table x).mpr ⟨hdir, hi⟩)
    · rintro (h0 | h1 | hx)
      · exact ⟨by omega, .inl h0⟩
      · exact ⟨by omega, .inr (.inl h1)⟩
      · obtain ⟨c, hc⟩ := lay.inUse_cell ok hx
        have := ok.number_lt hc
        exact ⟨by omega, .inr (.inr ⟨c, hc⟩)⟩

end Tree

/-- From a description in order the generator makes an image that `fs_init` mounts. The state is
well formed and its paths show what is described, and every block marked is in use if and only if no
directory is described with more than one block. -/
theorem genDisk_mounts {content : List UInt8 → Nat → Block} {files dirs : List Item} {root : Item}
    {nblocks : Nat} (ok : Described (files ++ dirs) root nblocks) :
    ∃ d st, genDisk content files dirs nblocks = some d ∧ (∀ env, fsInit env d = .ok st) ∧
      WellFormed st ∧ Synced st ∧ fileTree st = described content (files ++ dirs) root ∧
      (Exact st ↔ ∀ f ∈ files ++ dirs, f.entries ≠ none → f.blocks.length = 1) := by
  obtain ⟨d, hrun, lay⟩ : ∃ d, genDisk content files dirs nblocks = some d ∧
      Laid content (files ++ dirs) nblocks d := genDisk_laid ok
  refine ⟨d, mountedState d nblocks, hrun, fun env => ?_, lay.wellFormed ok, rfl,
    lay.fileTree_eq ok, lay.exact_iff ok⟩
  have hlen : 1 < d.len := by
    have := ok.three_le
    rw [lay.len]
    omega
  rw [fsInit_eq env hlen, lay.super, decodeSuper_encodeSuper, if_neg (not_not.mpr rfl)]
  rfl

/-- The root directory of `disk1.in`, with the entry of `file.10`. -/
def itemRoot : Item where
  inum := 2
  name := [47]
  uid := 0
  gid := 0
  mode := 0o040777
  ctime := 1565283152
  mtime := 1565283167
  size := 4096
  blocks := [399]
  entries := some [⟨false, [110, 111, 116, 104, 105, 110, 103], 0⟩,
    ⟨true, [102, 105, 108, 101, 46, 49, 48], 268⟩]

/-- `/file.10` of `disk1.in`. -/
def itemFile : Item where
  inum := 268
  name := [47, 102, 105, 108, 101, 46, 49, 48]
  uid := 500
  gid := 500
  mode := 0o100666
  ctime := 1565283152
  mtime := 1565283167
  size := 10
  blocks := [122]
  entries := none

/-- The only valid entry is in slot 1. -/
theorem itemRoot_entry {i : Nat} {e : ItemEntry} (h : itemRoot.first[i]? = some e)
    (hv : e.val = true) : i = 1 := by
  match i with
  | 0 =>
    obtain rfl := Option.some.inj h
    cases hv
  | 1 => rfl
  | i + 2 => cases h

theorem itemRoot_described : Described [itemFile, itemRoot] itemRoot 400 where
  small := le_rfl
  numbers := by decide
  inside := by decide
  length := by decide
  dir := by
    intro f hf entries hentries
    simp only [List.mem_cons, List.not_mem_nil, or_false] at hf
    obtain rfl | rfl := hf
    · cases hentries
    · obtain rfl := Option.some.inj hentries
      refine ⟨by decide, by decide, by decide, by decide, fun i j e e' hi hj hv hv' _ => ?_⟩
      rw [itemRoot_entry hi hv, itemRoot_entry hj hv']
  file := by
    intro f hf hfile
    simp only [List.mem_cons, List.not_mem_nil, or_false] at hf
    obtain rfl | rfl := hf
    · exact ⟨by decide, by decide, by decide⟩
    · cases hfile
  root_mem := by decide
  root_inum := rfl
  root_dir := by decide
  linked := by decide
  once := by
    intro f hf g hg i j e e' hi hj hv hv' _
    simp only [List.mem_cons, List.not_mem_nil, or_false] at hf hg
    obtain rfl | rfl := hf
    · cases hi
    · obtain rfl | rfl := hg
      · cases hj
      · exact ⟨rfl, (itemRoot_entry hi hv).trans (itemRoot_entry hj hv').symm⟩
  reached := by
    intro f hf
    simp only [List.mem_cons, List.not_mem_nil, or_false] at hf
    obtain rfl | rfl := hf
    · exact ⟨[[102, 105, 108, 101, 46, 49, 48]], by decide⟩
    · exact ⟨[], rfl⟩

/-- A disk with `/file.10` is generated, mounted and exact. -/
theorem genDisk_mounts_file : ∃ d st,
    genDisk (fun _ _ _ => 0x61) [itemFile] [itemRoot] 400 = some d ∧ fsInit quietEnv d = .ok st ∧
      WellFormed st ∧ Exact st ∧
      (fileTree st [[102, 105, 108, 101, 46, 49, 48]]).map Obj.size = some 10 := by
  obtain ⟨d, st, hrun, hinit, wf, -, htree, hexact⟩ :=
    @genDisk_mounts (fun _ _ _ => 0x61) [itemFile] [itemRoot] itemRoot 400 itemRoot_described
  refine ⟨d, st, hrun, hinit quietEnv, wf, hexact.mpr (by decide), ?_⟩
  rw [htree]
  decide

end SystemsProjects.Fs5600
