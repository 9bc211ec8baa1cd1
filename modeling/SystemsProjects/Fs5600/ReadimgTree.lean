import SystemsProjects.Fs5600.Readimg
import SystemsProjects.Fs5600.Remount

/-!
# What the image reader shows

The reader shows the objects of a well-formed file system under their paths, each once, but nothing
below a directory whose size is 0, as `fs_mkdir` makes them.
-/

namespace SystemsProjects.Fs5600
open SystemsProjects.Lib

/-- The entry `c` of `n`, if the reader looks at entries of `n`. -/
def shownStep (d : Disk) (n : Nat) (c : List UInt8) : Option Nat :=
  if 0 < (inodeAt d n).size.toInt then entryStep d n c else none

/-- The same with the paths. -/
def pathStep (d : Disk) (b : List UInt8 × Nat) (c : List UInt8) : Option (List UInt8 × Nat) :=
  (shownStep d b.2 c).map fun m => (b.1 ++ slash :: c, m)

/-- A block number, with its mark in block 1. -/
def withMark (d : Disk) (x : Nat) : Nat × Bool := (x, bitTest (d.data 1) x)

def shownLines (d : Disk) (n : Nat) : Lines :=
  if isDirAt d n then
    .tables (if 0 < (inodeAt d n).size.toInt then
      [(withMark d (tableOf d n), entryLines (d.data (tableOf d n)))] else [])
  else if sIsreg (inodeAt d n).mode then
    .blocks ((List.range (inodeAt d n).xblks).map fun i =>
      withMark d ((inodeAt d n).ptrs (Fin.ofNat 1019 i)).toNat)
  else .badMode (inodeAt d n).mode

/-- What the reader prints of the object `b.2` under the name `b.1`. -/
def shownVisit (d : Disk) (b : List UInt8 × Nat) : Visit :=
  (inodeAt d b.2).shown b (bitTest (d.data 1) b.2) (shownLines d b.2)

/-- No directory has a size of more than one block. -/
def SmallDirs (d : Disk) : Prop :=
  ∀ n, Live d n → isDirAt d n = true → (inodeAt d n).size.toInt ≤ 4096

/-! ## One inode -/

theorem Dirent.chars_eq {e : Dirent} {c : List UInt8} (h : e.nameOf = some c) : e.chars = c := by
  obtain ⟨hnul, rest, hrest⟩ := cstr_eq_some_iff.mp h
  unfold Dirent.chars
  rw [← hrest, List.append_assoc, List.takeWhile_append_of_pos]
  · simp
  · intro x hx
    have : x ≠ 0 := fun h0 => hnul (h0 ▸ hx)
    simpa using this

theorem sIsreg_false {mode : UInt32} (h : sIsdir mode = true) : sIsreg mode = false := by
  unfold sIsdir at h
  unfold sIsreg
  rw [beq_iff_eq] at h
  rw [h]
  rfl

theorem Inode.xblks_dir {ino : Inode} (h : ino.size.toInt ≤ 4096) :
    ino.xblks = if 0 < ino.size.toInt then 1 else 0 := by
  unfold Inode.xblks
  split_ifs with hpos <;> omega

theorem FileOk.lt_xblks {ino : Inode} (h : FileOk ino) {i : Nat} (hi : i < ino.xblks) :
    i < 1019 ∧ ino.ptrs (Fin.ofNat 1019 i) ≠ 0 := by
  have hle := h.le
  have hsize : (i * 4096 : Int) < ino.size.toInt := by
    unfold Inode.xblks at hi
    omega
  have hlt : i < 1019 := by omega
  have hmod : (Fin.ofNat 1019 i).val = i := Nat.mod_eq_of_lt hlt
  exact ⟨hlt, h.ptrs _ (by rwa [hmod])⟩

section Visit
variable {st : FsState} {n : Nat}

theorem markedPtr_eq (ino : Inode) (d : Disk) {i : Nat} (hi : i < 1019)
    (hlt : (ino.ptrs (Fin.ofNat 1019 i)).toNat < 32768) :
    ino.markedPtr (.ofBytes (d.data 1)) i =
      some (withMark d (ino.ptrs (Fin.ofNat 1019 i)).toNat) := by
  have hfin : (⟨i, hi⟩ : Fin 1019) = Fin.ofNat 1019 i := Fin.ext (Nat.mod_eq_of_lt hi).symm
  simp only [Inode.markedPtr, dif_pos hi, hfin, Bitmap.get_ofBytes _ hlt, Option.bind_eq_bind,
    Option.bind_some, withMark]

theorem visit_tables {d : Disk} {blkmap : Bitmap} {n : Nat} {alloc : Bool}
    {tables : List ((Nat × Bool) × List EntryLine)} (name : List UInt8) (hn : n < d.len)
    (hget : blkmap.get n = some alloc) (hdir : isDirAt d n = true)
    (h : (List.range (inodeAt d n).xblks).mapM ((inodeAt d n).table d blkmap) = some tables) :
    visit d blkmap (name, n) = some ((inodeAt d n).shown (name, n) alloc (.tables tables),
      tables.flatMap fun t => t.2.map fun e => (name ++ slash :: e.name, e.inode)) := by
  unfold inodeAt at h
  unfold isDirAt inodeAt at hdir
  simp only [visit, if_pos hn, hget, sIsreg_false hdir, hdir, h, Option.bind_eq_bind,
    Option.bind_some, Bool.false_eq_true, if_false, if_true, inodeAt]

theorem visit_other {d : Disk} {blkmap : Bitmap} {n : Nat} {alloc : Bool}
    {ptrs : List (Nat × Bool)} (name : List UInt8) (hn : n < d.len)
    (hget : blkmap.get n = some alloc) (hfile : isDirAt d n = false)
    (h : (List.range (inodeAt d n).xblks).mapM ((inodeAt d n).markedPtr blkmap) = some ptrs) :
    visit d blkmap (name, n) = some ((inodeAt d n).shown (name, n) alloc
      (if sIsreg (inodeAt d n).mode then .blocks ptrs else .badMode (inodeAt d n).mode), []) := by
  unfold inodeAt at h
  unfold isDirAt inodeAt at hfile
  cases hreg : sIsreg (decodeInode (d.data n)).mode <;>
    simp only [visit, if_pos hn, hget, hfile, hreg, h, Option.bind_eq_bind, Option.bind_some,
      Bool.false_eq_true, if_false, if_true, inodeAt]

/-- The names in a directory and the numbers behind them. -/
def slotKids (d : Disk) (b : List UInt8 × Nat) : List (List UInt8 × (List UInt8 × Nat)) :=
  ((List.finRange 128).filter fun j => (entriesAt d b.2 j).valid).map fun j =>
    ((entriesAt d b.2 j).chars,
      (b.1 ++ slash :: (entriesAt d b.2 j).chars, (entriesAt d b.2 j).inode.toNat))

theorem slotKids_once {d : Disk} (b : List UInt8 × Nat) (hok : DirOk (entriesAt d b.2)) :
    ((slotKids d b).map Prod.fst).Nodup := by
  unfold slotKids
  rw [List.map_map]
  refine List.Nodup.map_on ?_ ((List.nodup_finRange 128).filter _)
  intro i hi j hj hname
  have hv := (List.mem_filter.mp hi).2
  have hv' := (List.mem_filter.mp hj).2
  obtain ⟨c, hc⟩ := Option.ne_none_iff_exists'.mp (hok.named i hv)
  obtain ⟨c', hc'⟩ := Option.ne_none_iff_exists'.mp (hok.named j hv')
  have hcc : (entriesAt d b.2 i).chars = (entriesAt d b.2 j).chars := hname
  rw [Dirent.chars_eq hc, Dirent.chars_eq hc'] at hcc
  exact hok.unique i j hv hv' (by rw [hc, hc', hcc])

theorem mem_slotKids {d : Disk} {b m : List UInt8 × Nat} {c : List UInt8}
    (hdir : isDirAt d b.2 = true) (hok : DirOk (entriesAt d b.2)) :
    (c, m) ∈ slotKids d b ↔
      (entryStep d b.2 c).map (fun k => (b.1 ++ slash :: c, k)) = some m := by
  unfold slotKids
  rw [List.mem_map]
  constructor
  · rintro ⟨j, hj, h⟩
    obtain ⟨rfl, rfl⟩ := Prod.mk.inj h
    have hv := (List.mem_filter.mp hj).2
    obtain ⟨c, hc⟩ := Option.ne_none_iff_exists'.mp (hok.named j hv)
    rw [Dirent.chars_eq hc, entryStep_of_lookup hdir (lookup_of_name hok hv hc), Option.map_some]
  · intro h
    obtain ⟨k, hk, rfl⟩ := Option.map_eq_some_iff.mp h
    unfold entryStep at hk
    rw [if_pos hdir] at hk
    obtain ⟨j, hj, rfl⟩ := Option.map_eq_some_iff.mp hk
    obtain ⟨hv, hname⟩ := lookup_eq_some hj
    exact ⟨j, List.mem_filter.mpr ⟨List.mem_finRange j, hv⟩, by rw [Dirent.chars_eq hname]⟩

section
variable (wf : WellFormed st) (hlen : st.disk.len ≤ 32768) (hn : Live st.disk n)
include wf hlen hn

/-- The children that a directory shows are its entries. -/
theorem visit_dir (hsmall : (inodeAt st.disk n).size.toInt ≤ 4096)
    (hdir : isDirAt st.disk n = true) (name : List UInt8) :
    ∃ kids, Visits (visit st.disk (.ofBytes (st.disk.data 1))) (pathStep st.disk) (name, n)
      (shownVisit st.disk (name, n)) kids := by
  have hn' := wf.lt_len hn.owned
  have ht := wf.lt (hn.table_inUse hdir)
  have ht' := wf.lt_len (hn.table_inUse hdir)
  have hok := wf.dirs n hn hdir
  have htable : (inodeAt st.disk n).table st.disk (.ofBytes (st.disk.data 1)) 0 =
      some (withMark st.disk (tableOf st.disk n),
        entryLines (st.disk.data (tableOf st.disk n))) := by
    have hptr := markedPtr_eq (inodeAt st.disk n) st.disk (i := 0) (by omega) ht
    simp only [Inode.table, hptr, Option.bind_eq_bind, Option.bind_some]
    exact if_pos ht'
  have hget := Bitmap.get_ofBytes (st.disk.data 1) (lt_of_lt_of_le hn' hlen)
  have hxblks := Inode.xblks_dir hsmall
  by_cases hpos : 0 < (inodeAt st.disk n).size.toInt
  · rw [if_pos hpos] at hxblks
    have hvisit := visit_tables name hn' hget hdir
      (mapM_eq_some_map (l := List.range (inodeAt st.disk n).xblks) (g := fun _ => (withMark st.disk
        (tableOf st.disk n), entryLines (st.disk.data (tableOf st.disk n)))) fun i hi => by
          rw [hxblks, List.mem_range] at hi
          obtain rfl : i = 0 := by omega
          exact htable)
    rw [hxblks] at hvisit
    refine ⟨slotKids st.disk (name, n), ⟨?_, slotKids_once (name, n) hok, fun c m => ?_⟩⟩
    · rw [hvisit, shownVisit, shownLines, if_pos hdir, if_pos hpos, slotKids, List.map_map]
      simp only [List.range_one, List.map_cons, List.map_nil, List.flatMap_cons, List.flatMap_nil,
        List.append_nil, entryLines, List.map_map]
      rfl
    · rw [mem_slotKids (b := (name, n)) hdir hok, pathStep, shownStep, if_pos hpos]
  · rw [if_neg hpos] at hxblks
    have hvisit := @visit_tables _ _ _ _ [] name hn' hget hdir (by rw [hxblks]; rfl)
    refine ⟨[], ⟨?_, List.nodup_nil, fun c m => ?_⟩⟩
    · rw [hvisit, shownVisit, shownLines, if_pos hdir, if_neg hpos]
      rfl
    · rw [pathStep, shownStep, if_neg hpos]
      simp

theorem visit_file (hfile : isDirAt st.disk n = false) (name : List UInt8) :
    ∃ kids, Visits (visit st.disk (.ofBytes (st.disk.data 1))) (pathStep st.disk) (name, n)
      (shownVisit st.disk (name, n)) kids := by
  have hn' := wf.lt_len hn.owned
  have hok := wf.files n hn hfile
  have hget := Bitmap.get_ofBytes (st.disk.data 1) (lt_of_lt_of_le hn' hlen)
  have hptrs : (List.range (inodeAt st.disk n).xblks).mapM
      ((inodeAt st.disk n).markedPtr (.ofBytes (st.disk.data 1))) =
        some ((List.range (inodeAt st.disk n).xblks).map fun i =>
          withMark st.disk ((inodeAt st.disk n).ptrs (Fin.ofNat 1019 i)).toNat) := by
    refine mapM_eq_some_map fun i hi => ?_
    obtain ⟨hlt, hptr⟩ := hok.lt_xblks (List.mem_range.mp hi)
    exact markedPtr_eq _ st.disk hlt (wf.lt (hn.data_inUse hfile hptr))
  refine ⟨[], ⟨?_, List.nodup_nil, fun c m => ?_⟩⟩
  · rw [visit_other name hn' hget hfile hptrs, shownVisit, shownLines, hfile]
    rfl
  · have hnone : entryStep st.disk n c = none :=
      entryStep_none fun hdir => absurd (hdir.symm.trans hfile) (by simp)
    simp [pathStep, shownStep, hnone]

end

end Visit

/-- Every block of a visit carries its mark. -/
theorem shownVisit_ptrs {d : Disk} {b : List UInt8 × Nat} {x : Nat × Bool}
    (h : x ∈ (shownVisit d b).ptrs) : x.2 = bitTest (d.data 1) x.1 := by
  rcases List.mem_cons.mp h with rfl | h
  · rfl
  · simp only [shownVisit, Inode.shown, shownLines] at h
    split_ifs at h
    · obtain rfl := List.mem_singleton.mp h
      rfl
    · cases h
    · obtain ⟨i, -, rfl⟩ := List.mem_map.mp h
      rfl
    · cases h

/-! ## The walk -/

/-- What is shown is there. -/
theorem follow_shown {d : Disk} {cs : List (List UInt8)} {n m : Nat}
    (h : follow (shownStep d) n cs = some m) : follow (entryStep d) n cs = some m := by
  induction cs generalizing n with
  | nil => exact h
  | cons c cs ih =>
    obtain ⟨k, hk, hcs⟩ := Option.bind_eq_some_iff.mp h
    unfold shownStep at hk
    split_ifs at hk
    rw [follow, hk]
    exact ih hcs

theorem follow_pathStep (d : Disk) (cs : List (List UInt8)) : ∀ (name : List UInt8) (n : Nat),
    follow (pathStep d) (name, n) cs =
      (follow (shownStep d) n cs).map fun m => (name ++ render cs, m) := by
  induction cs with
  | nil => exact fun name n => by simp [follow, render]
  | cons c cs ih =>
    intro name n
    rw [follow, follow, pathStep]
    cases shownStep d n c with
    | none => rfl
    | some m =>
      rw [Option.map_some, Option.bind_some, Option.bind_some, ih, render_cons, List.append_assoc]
      rfl

/-- The name of a path in the output. -/
def shownName (cs : List (List UInt8)) : List UInt8 := if cs = [] then [slash] else render cs

theorem shownVisit_name (d : Disk) (cs : List (List UInt8)) (n : Nat) :
    (shownVisit d (render cs, n)).name = shownName cs := by
  cases cs with
  | nil => rfl
  | cons c cs =>
    have hne : render (c :: cs) ≠ [] := by
      rw [render_cons]
      exact List.cons_ne_nil _ _
    simp [shownVisit, Inode.shown, shownName, hne]

theorem WellFormed.iter_eq {st : FsState} (wf : WellFormed st) (hlen : st.disk.len ≤ 32768)
    (hsmall : SmallDirs st.disk) {limit : Nat}
    (hdepth : ∀ cs n, resolve st.disk 2 cs = .ok n → cs.length < limit) :
    ∃ ps : List (List (List UInt8) × (List UInt8 × Nat)),
      iter st.disk (.ofBytes (st.disk.data 1)) limit ([], 2) =
          some (ps.map fun p => shownVisit st.disk p.2) ∧
        (ps.map Prod.fst).Nodup ∧
        ∀ cs m, (cs, m) ∈ ps ↔ (follow (shownStep st.disk) 2 cs).map (render cs, ·) = some m := by
  have hvisit : ∀ b : List UInt8 × Nat, Live st.disk b.2 →
      ∃ kids, Visits (visit st.disk (.ofBytes (st.disk.data 1))) (pathStep st.disk) b
        (shownVisit st.disk b) kids := by
    rintro ⟨name, n⟩ hn
    cases hdir : isDirAt st.disk n with
    | true => exact visit_dir wf hlen hn (hsmall n hn hdir) hdir name
    | false => exact visit_file wf hlen hn hdir name
  have hclosed : ∀ (b : List UInt8 × Nat) c m, Live st.disk b.2 → pathStep st.disk b c = some m →
      Live st.disk m.2 := by
    intro b c m hb h
    obtain ⟨k, hk, rfl⟩ := Option.map_eq_some_iff.mp h
    unfold shownStep at hk
    split_ifs at hk
    have hone : follow (entryStep st.disk) b.2 [c] = some k := by
      rw [follow, hk]
      rfl
    exact resolve_live hb (follow_entryStep.mp hone)
  obtain ⟨ps, hps, hnodup, hmem⟩ := preorder_eq hvisit hclosed limit ([], 2) .root fun cs m h => by
    rw [follow_pathStep] at h
    obtain ⟨n, hn, -⟩ := Option.map_eq_some_iff.mp h
    exact hdepth cs n (follow_entryStep.mp (follow_shown hn))
  refine ⟨ps, hps, hnodup, fun cs m => ?_⟩
  rw [hmem, follow_pathStep]
  rfl

/-! ## What is shown, as paths -/

/-- The path shows something, and no directory above it has a size of 0 or less. -/
def Files.Visible (s : Files) (cs : List (List UInt8)) : Prop :=
  (s cs).isSome ∧ ∀ ds, ds <+: cs → ds ≠ cs → ∃ o, s ds = some o ∧ 0 < o.size

/-- The directories have at most a block of size. -/
def Files.Small (s : Files) : Prop := ∀ cs o, s cs = some o → o.isDir = true → o.size ≤ 4096

/-- The attributes are printed. -/
structure Obj.Printed (o : Obj) (v : Visit) : Prop where
  uid : v.uid = o.uid
  gid : v.gid = o.gid
  mode : v.mode = o.mode
  size : v.size = o.size

/-- The visits are to the visible paths, to each once. -/
def Report.Lists (r : Report) (s : Files) : Prop :=
  ∃ css : List (List (List UInt8)), css.Nodup ∧ (∀ cs, cs ∈ css ↔ s.Visible cs) ∧
    List.Forall₂ (fun v cs => v.name = shownName cs ∧ ∃ o, s cs = some o ∧ o.Printed v)
      r.visits css

section Shown
variable {st : FsState} (wf : WellFormed st)
include wf

theorem WellFormed.fileTree_size {cs : List (List UInt8)} {n : Nat}
    (h : resolve st.disk 2 cs = .ok n) :
    (objAt st.disk n).size = (inodeAt st.disk n).size.toInt :=
  objAt_size (wf.files n (resolve_live .root h))

theorem WellFormed.follow_shown_iff {cs : List (List UInt8)} {n : Nat} :
    follow (shownStep st.disk) 2 cs = some n ↔
      resolve st.disk 2 cs = .ok n ∧ (fileTree st).Visible cs := by
  induction cs using List.reverseRecOn generalizing n with
  | nil =>
    constructor
    · intro h
      refine ⟨follow_entryStep.mp h, rfl, fun ds hds hne => absurd (List.prefix_nil.mp hds) hne⟩
    · exact fun h => follow_entryStep.mpr h.1
  | append_singleton cs c ih =>
    rw [follow_concat_eq_some]
    constructor
    · rintro ⟨k, hk, hstep⟩
      obtain ⟨hres, -, habove⟩ := ih.mp hk
      unfold shownStep at hstep
      split_ifs at hstep with hpos
      have hres' : resolve st.disk 2 (cs ++ [c]) = .ok n :=
        follow_entryStep.mp (follow_concat_eq_some.mpr ⟨k, follow_entryStep.mpr hres, hstep⟩)
      refine ⟨hres', by rw [fileTree_ok hres']; rfl, fun ds hds hne => ?_⟩
      rcases List.prefix_concat_iff.mp hds with rfl | hds
      · exact absurd rfl hne
      · by_cases heq : ds = cs
        · subst heq
          exact ⟨_, fileTree_ok hres, by rwa [wf.fileTree_size hres]⟩
        · exact habove ds hds heq
    · rintro ⟨hres, -, habove⟩
      obtain ⟨k, hk, hstep⟩ := follow_concat_eq_some.mp (follow_entryStep.mpr hres)
      have hresk := follow_entryStep.mp hk
      obtain ⟨o, ho, hpos⟩ := habove cs (List.prefix_append cs [c]) (by simp)
      obtain rfl := Option.some.inj ((fileTree_ok hresk).symm.trans ho)
      rw [wf.fileTree_size hresk] at hpos
      refine ⟨k, ih.mpr ⟨hresk, by rw [fileTree_ok hresk]; rfl, fun ds hds hne => ?_⟩, ?_⟩
      · refine habove ds (hds.trans (List.prefix_append cs [c])) fun heq => ?_
        have := hds.length_le
        rw [heq, List.length_append, List.length_singleton] at this
        omega
      · rwa [shownStep, if_pos hpos]

theorem WellFormed.live_path {n : Nat} (hn : Live st.disk n) :
    ∃ cs, resolve st.disk 2 cs = .ok n := by
  induction hn with
  | root => exact ⟨[], rfl⟩
  | @step m x l hm hl hout ih =>
    obtain ⟨cs, hcs⟩ := ih
    cases l with
    | table => exact absurd hl id
    | data i => exact absurd hl id
    | slot i =>
      simp only [refs] at hout
      split_ifs at hout with hv
      obtain ⟨hdir, hv⟩ := Bool.and_eq_true_iff.mp hv
      obtain rfl := Option.some.inj hout
      have hok := wf.dirs m hm hdir
      obtain ⟨c, hc⟩ := Option.ne_none_iff_exists'.mp (hok.named i hv)
      refine ⟨cs ++ [c], follow_entryStep.mp (follow_concat_eq_some.mpr
        ⟨m, follow_entryStep.mpr hcs, ?_⟩)⟩
      exact entryStep_of_lookup hdir (lookup_of_name hok hv hc)

theorem WellFormed.smallDirs_iff : SmallDirs st.disk ↔ (fileTree st).Small := by
  constructor
  · intro h cs o ho hdir
    obtain ⟨n, hn, rfl⟩ := fileTree_eq_some.mp ho
    rw [objAt_isDir] at hdir
    rw [wf.fileTree_size hn]
    exact h n (resolve_live .root hn) hdir
  · intro h n hn hdir
    obtain ⟨cs, hcs⟩ := wf.live_path hn
    rw [← wf.fileTree_size hcs]
    exact h cs _ (fileTree_ok hcs) (by rwa [objAt_isDir])

omit wf in
theorem readImg_of_iter {d : Disk} {limit : Nat} {visits : List Visit} (hone : 1 < d.len)
    (hlen : d.len ≤ 32768) (h : iter d (.ofBytes (d.data 1)) limit ([], 2) = some visits) :
    ∃ r, readImg limit d = some r ∧ r.visits = visits ∧
      (∀ x, x ∈ r.used ↔ x < d.len ∧ bitTest (d.data 1) x = true) ∧
      ∀ n, n ∈ r.found ↔ n < d.len ∧ ∃ v ∈ visits, v.inum = n := by
  have hmarks : (List.range d.len).mapM (Bitmap.ofBytes (d.data 1)).get =
      some ((List.range d.len).map (bitTest (d.data 1))) :=
    mapM_eq_some_map fun i hi => Bitmap.get_ofBytes _ (lt_of_lt_of_le (List.mem_range.mp hi) hlen)
  unfold readImg
  simp only [if_neg (show ¬ d.len < 2 by omega), hmarks, h, Option.bind_eq_bind, Option.bind_some]
  refine ⟨_, rfl, rfl, fun x => ?_, fun n => ?_⟩
  · rw [List.mem_filter, List.mem_range]
    refine and_congr_right fun hx => ?_
    rw [List.getD_eq_getElem?_getD, List.getElem?_map, List.getElem?_range hx]
    rfl
  · simp only [List.mem_filter, List.mem_range, List.any_eq_true, beq_iff_eq]

/-- The reader lists what can be seen, and marks what block 1 marks; the inodes it finds are those
that can be seen. -/
theorem WellFormed.readImg_eq (hlen : st.disk.len ≤ 32768) (hsmall : (fileTree st).Small)
    {limit : Nat} (hdepth : ∀ cs, ((fileTree st) cs).isSome → cs.length < limit) :
    ∃ r, readImg limit st.disk = some r ∧ r.Lists (fileTree st) ∧
      (∀ v ∈ r.visits, ∀ x ∈ v.ptrs, x.2 = bitTest (st.disk.data 1) x.1) ∧
      ∀ n, n ∈ r.found ↔ ∃ cs, resolve st.disk 2 cs = .ok n ∧ (fileTree st).Visible cs := by
  obtain ⟨ps, hps, hnodup, hmem⟩ := wf.iter_eq hlen (wf.smallDirs_iff.mpr hsmall)
    fun cs n hn => hdepth cs (by rw [fileTree_ok hn]; rfl)
  have hseen : ∀ cs m, (cs, m) ∈ ps ↔ ∃ n, m = (render cs, n) ∧
      resolve st.disk 2 cs = .ok n ∧ (fileTree st).Visible cs := by
    intro cs m
    rw [hmem, Option.map_eq_some_iff]
    simp only [wf.follow_shown_iff]
    exact exists_congr fun n => by rw [and_comm, eq_comm]
  obtain ⟨r, hr, hvisits, -, hfound⟩ := readImg_of_iter wf.one_lt_len hlen hps
  refine ⟨r, hr, ⟨ps.map Prod.fst, hnodup, fun cs => ?_, ?_⟩, ?_, fun n => ?_⟩
  · rw [List.mem_map]
    constructor
    · rintro ⟨⟨cs, m⟩, hp, rfl⟩
      obtain ⟨n, -, -, hvis⟩ := (hseen cs m).mp hp
      exact hvis
    · intro hvis
      obtain ⟨o, ho⟩ := Option.isSome_iff_exists.mp hvis.1
      obtain ⟨n, hn, -⟩ := fileTree_eq_some.mp ho
      exact ⟨_, (hseen cs _).mpr ⟨n, rfl, hn, hvis⟩, rfl⟩
  · rw [hvisits, List.forall₂_map_left_iff, List.forall₂_map_right_iff, List.forall₂_same]
    rintro ⟨cs, m⟩ hp
    obtain ⟨n, rfl, hn, -⟩ := (hseen cs m).mp hp
    exact ⟨shownVisit_name _ cs n, _, fileTree_ok hn, rfl, rfl, rfl, (wf.fileTree_size hn).symm⟩
  · rw [hvisits]
    rintro v hv x hx
    obtain ⟨p, -, rfl⟩ := List.mem_map.mp hv
    exact shownVisit_ptrs hx
  · rw [hfound]
    constructor
    · rintro ⟨-, v, hv, rfl⟩
      obtain ⟨⟨cs, m⟩, hp, rfl⟩ := List.mem_map.mp hv
      obtain ⟨n, rfl, hn, hvis⟩ := (hseen cs m).mp hp
      exact ⟨cs, hn, hvis⟩
    · rintro ⟨cs, hn, hvis⟩
      exact ⟨wf.lt_len (resolve_live .root hn).owned, _,
        List.mem_map.mpr ⟨_, (hseen cs _).mpr ⟨n, rfl, hn, hvis⟩, rfl⟩, rfl⟩

end Shown

/-! ## Runs -/

section Small
variable {s : Files} (h : s.Small)
include h

theorem Files.Small.put {cs : List (List UInt8)} {o : Obj} (ho : o.isDir = true → o.size ≤ 4096) :
    (s.put cs o).Small := by
  intro ds x hx hdir
  by_cases heq : ds = cs
  · subst heq
    rw [Files.put, Function.update_self] at hx
    obtain rfl := Option.some.inj hx
    exact ho hdir
  · rw [Files.put, Function.update_of_ne heq] at hx
    exact h ds x hx hdir

theorem Files.Small.remove (time : UInt32) (p : CanonPath) : (s.remove time p).Small := by
  intro ds x hx hdir
  by_cases heq : ds = p.dirs
  · subst heq
    rw [Files.remove, Function.update_self] at hx
    obtain ⟨dir, hdir', rfl⟩ := Option.map_eq_some_iff.mp hx
    exact h p.dirs dir hdir' hdir
  · rw [Files.remove, Function.update_of_ne heq] at hx
    by_cases heq' : ds = p.comps
    · rw [heq', Function.update_self] at hx
      cases hx
    · rw [Function.update_of_ne heq'] at hx
      exact h ds x hx hdir

theorem Files.Small.move (p q : List (List UInt8)) : Files.Small (s.move p q) := by
  intro ds x hx hdir
  unfold Space.move at hx
  split_ifs at hx
  · exact h _ x hx hdir
  · exact h _ x hx hdir

theorem Files.Small.on {p : CanonPath} {k : Obj → Int × Files}
    (hk : ∀ o, s p.comps = some o → (k o).2.Small) : (s.on p k).2.Small := by
  unfold Files.on
  cases ho : s p.comps with
  | none => exact h
  | some o => exact hk o ho

theorem Files.Small.create {p : CanonPath} {o : Obj} (ho : o.isDir = true → o.size ≤ 4096) :
    (s.create p o).2.Small := by
  unfold Files.create
  cases s p.dirs with
  | none => exact h
  | some dir =>
    simp only
    split_ifs
    · exact h
    · exact h
    · exact h.put ho

/-- No call makes a directory bigger. -/
theorem Files.Small.exec (env : Env) (op : Op) : (s.exec env op).2.Small := by
  cases op with
  | create p mode => exact h.create fun hdir => by cases hdir
  | mkdir p mode => exact h.create fun _ => show (0 : Int) ≤ 4096 by omega
  | unlink p =>
    refine h.on fun o _ => ?_
    split_ifs
    · exact h
    · exact h.remove env.time p
  | rmdir p =>
    refine h.on fun o _ => ?_
    split_ifs
    · exact h
    · exact h.remove env.time p
    · exact h
  | rename p q =>
    show (s.rename p q).2.Small
    unfold Files.rename
    split_ifs
    · exact h
    · exact h
    · exact h
    · exact h.move p.comps q.comps
  | write p buf off =>
    refine h.on fun o _ => ?_
    split
    · exact h
    · split_ifs
      · exact h
      · exact h
      · exact h.put fun hdir => by cases hdir
  | truncate p len =>
    show (s.truncate env p len).2.Small
    unfold Files.truncate
    split_ifs
    · exact h
    · refine h.on fun o _ => ?_
      split_ifs
      · exact h
      · exact h.put fun hdir => by cases hdir
  | chmod p mode => exact h.on fun o ho => h.put fun hdir => h p.comps o ho hdir
  | utime p ut => exact h.on fun o ho => h.put fun hdir => h p.comps o ho hdir
  | statfs p => exact h
  | getattr p => exact h
  | readdir p => exact h
  | read p len off => exact h

end Small

/-- What a run keeps: its directories stay small, and block 1 is what it was. -/
structure Readable (m : Block) (st : FsState) : Prop extends WellFormed st where
  small : (fileTree st).Small
  marks : st.disk.data 1 = m

theorem CallStep.readable {m : Block} {st st' : FsState} {x : (Env × Op) × Output}
    (hs : Readable m st) (h : CallStep st x st') : Readable m st' := by
  have wf := hs.toWellFormed
  refine ⟨h.1.wellFormed wf, ?_, ?_⟩
  · by_cases hlost : x.1.2.Lost st
    · rw [(h.of_lost wf hlost).2]
      exact hs.small
    · rw [((h.step_iff wf).mpr hlost).2]
      exact hs.small.exec x.1.1 x.1.2
  · obtain ⟨⟨hsized, -, r, hrun⟩, -⟩ := h
    rcases wf.exec_ok hsized hrun with ⟨rfl, -⟩ | ⟨-, heff⟩
    · exact hs.marks
    · exact (heff.reserved wf.toTreeOk (by omega)).1.trans hs.marks

/-- The image after a run, read with `read-img.py`: the visible paths are listed, each once, with
their attributes; a block is noted as not marked if and only if it was not marked in the image the
run started from; and an inode is missed if and only if something is in a directory without a
size. -/
theorem readImg_run {st st' : FsState} {xs : List ((Env × Op) × Output)} (wf : WellFormed st)
    (hsmall : (fileTree st).Small) (hrun : Steps CallStep st xs st') (hlen : st'.disk.len ≤ 32768)
    {limit : Nat} (hdepth : ∀ cs, ((fileTree st') cs).isSome → cs.length < limit) :
    ∃ r, readImg limit st'.disk = some r ∧ r.Lists (fileTree st') ∧
      (∀ v ∈ r.visits, ∀ x ∈ v.ptrs, x.2 = bitTest (st.disk.data 1) x.1) ∧
      ((∀ n, Live st'.disk n → n ∈ r.found) ↔
        ∀ cs c o, fileTree st' cs = some o → (fileTree st' (cs ++ [c])).isSome → 0 < o.size) := by
  have hend : Readable (st.disk.data 1) st' :=
    hrun.invariant (fun _ _ _ hs hstep => hstep.readable hs) ⟨wf, hsmall, rfl⟩
  have wf' := hend.toWellFormed
  obtain ⟨r, hr, hlists, hmarks, hfound⟩ := wf'.readImg_eq hlen hend.small hdepth
  rw [hend.marks] at hmarks
  refine ⟨r, hr, hlists, hmarks, fun h cs c o ho hc => ?_, fun h n hn => ?_⟩
  · obtain ⟨n, hn, rfl⟩ := fileTree_eq_some.mp ho
    obtain ⟨o', ho'⟩ := Option.isSome_iff_exists.mp hc
    obtain ⟨k, hk, rfl⟩ := fileTree_eq_some.mp ho'
    obtain ⟨ds, hds, hvis⟩ := (hfound k).mp (h k (resolve_live .root hk))
    obtain rfl := wf'.resolve_inj hds hk
    obtain ⟨o, ho, hpos⟩ := hvis.2 cs (List.prefix_append cs [c]) (by simp)
    rwa [Option.some.inj ((fileTree_ok hn).symm.trans ho)]
  · obtain ⟨cs, hcs⟩ := wf'.live_path hn
    refine (hfound n).mpr ⟨cs, hcs, by rw [fileTree_ok hcs]; rfl, ?_⟩
    rintro ds ⟨es, rfl⟩ hne
    cases es with
    | nil => simp at hne
    | cons e es =>
      have hes := follow_entryStep.mpr hcs
      rw [follow_append, Option.bind_eq_some_iff] at hes
      obtain ⟨k, hk, hrest⟩ := hes
      obtain ⟨k', hk', -⟩ := Option.bind_eq_some_iff.mp hrest
      have hresk := follow_entryStep.mp hk
      refine ⟨_, fileTree_ok hresk, h ds e _ (fileTree_ok hresk) ?_⟩
      rw [fileTree_concat hresk, hk']
      rfl

/-- `/a` is all there is besides the root. -/
theorem oneFile_fileTree {cs : List (List UInt8)} {o : Obj} (h : fileTree (oneFile 399) cs = some o) :
    cs = [] ∧ o.size = 4096 ∨ cs = pathA.comps ∧ o.isDir = false := by
  have wf : WellFormed (oneFile 399) := oneFile_wellFormed (by omega) (by omega)
  have hfile : isDirAt (oneFile 399).disk 3 = false := oneFile_isDir (by omega) (by omega)
  obtain ⟨n, hn, rfl⟩ := fileTree_eq_some.mp h
  cases cs with
  | nil =>
    have hroot : inodeAt (oneFile 399).disk 2 = inodeAt (emptyDisk 399) 2 :=
      (oneFile_placed (by omega) (by omega)).inodeAt_parent
        (emptyState_wellFormed (by omega) (by omega)).toTreeOk
    refine .inl ⟨rfl, ?_⟩
    rw [wf.fileTree_size hn, Except.ok.inj hn.symm, hroot, emptyDisk_root]
    rfl
  | cons c cs =>
    cases hl : lookup (oneFile 399).disk 2 c with
    | none =>
      rw [resolve_cons_none wf.root hl] at hn
      cases hn
    | some i =>
      obtain ⟨hv, hname⟩ := lookup_eq_some hl
      obtain rfl := oneFile_valid hv
      have hentry : entriesAt (oneFile 399).disk 2 0 = entryA := by
        rw [oneFile_entries (by omega) (by omega), Function.update_self]
      obtain rfl : pathA.last = c := Option.some.inj (entryA_nameOf.symm.trans (hentry ▸ hname))
      rw [resolve_cons_some wf.root hl, hentry] at hn
      cases cs with
      | nil =>
        refine .inr ⟨rfl, ?_⟩
        rw [← Except.ok.inj hn, objAt_isDir]
        exact hfile
      | cons c' cs =>
        exact absurd ((resolve_cons_file hfile).symm.trans hn) (by simp)

/-- The image with the file `/a` when its mode has been changed, with calls of `iter` nested 998 deep
at most. -/
theorem readImg_run_chmod : ∃ st r,
    Steps CallStep (oneFile 399) [((quietEnv, .chmod pathA 0o600), .code 0)] st ∧
      (fileTree st pathA.comps).map Obj.mode = some 0o100600 ∧
      readImg 998 st.disk = some r ∧ r.Lists (fileTree st) ∧ ∀ n, Live st.disk n → n ∈ r.found := by
  have wf : WellFormed (oneFile 399) := oneFile_wellFormed (by omega) (by omega)
  have hres : resolve (oneFile 399).disk 2 pathA.comps = .ok 3 :=
    oneFile_resolve (by omega) (by omega)
  obtain ⟨st, hrun⟩ : ∃ st, fsChmod quietEnv pathA.bytes 0o600 (oneFile 399) = .ok (0, st) :=
    ⟨_, wf.toTreeOk.fsChmod_ok quietEnv pathA 0o600 hres⟩
  have hstep : CallStep (oneFile 399) ((quietEnv, .chmod pathA 0o600), .code 0) st := by
    refine ⟨⟨trivial, fun _ _ => .inl (by decide), 0, hrun⟩, ?_⟩
    simp only [observe, Op.call, exec, hrun, Except.map]
  -- the name space afterwards is the one before, with the new mode at `/a`
  have htree : fileTree st = (fileTree (oneFile 399)).put pathA.comps
      { objAt (oneFile 399).disk 3 with
        mode := 0o600 ||| ((objAt (oneFile 399).disk 3).mode &&& sIfmt) } := by
    obtain ⟨-, hnext⟩ := (hstep.step_iff wf).mpr id
    rw [hnext]
    show (Files.on _ _ _).2 = _
    rw [Files.on, fileTree_ok hres]
  have hshown : ∀ cs o, fileTree st cs = some o →
      cs = [] ∧ o.size = 4096 ∨ cs = pathA.comps ∧ o.isDir = false := by
    intro cs o ho
    rw [htree] at ho
    by_cases hcs : cs = pathA.comps
    · rw [hcs, Files.put, Function.update_self] at ho
      obtain rfl := Option.some.inj ho
      have hfile : (objAt (oneFile 399).disk 3).isDir = false := by
        rw [objAt_isDir]
        exact oneFile_isDir (by omega) (by omega)
      exact .inr ⟨hcs, hfile⟩
    · rw [Files.put, Function.update_of_ne hcs] at ho
      exact oneFile_fileTree ho
  have hsmall : (fileTree (oneFile 399)).Small := by
    intro cs o ho hdir
    rcases oneFile_fileTree ho with ⟨-, hsize⟩ | ⟨-, hfile⟩
    · omega
    · rw [hfile] at hdir
      cases hdir
  have hdepth : ∀ cs, (fileTree st cs).isSome → cs.length < 998 := by
    intro cs h
    obtain ⟨o, ho⟩ := Option.isSome_iff_exists.mp h
    rcases hshown cs o ho with ⟨rfl, -⟩ | ⟨rfl, -⟩ <;> decide
  have hlen : st.disk.len ≤ 32768 := by
    obtain ⟨-, rfl⟩ := Prod.mk.inj (Except.ok.inj (hrun.symm.trans
      (wf.toTreeOk.fsChmod_ok quietEnv pathA 0o600 hres)))
    decide
  obtain ⟨r, hr, hlists, -, hiff⟩ := readImg_run wf hsmall (.single hstep) hlen hdepth
  refine ⟨st, r, .single hstep, ?_, hr, hlists, hiff.mpr fun cs c o ho hc => ?_⟩
  · rw [htree, Files.put, Function.update_self]
    show some (0o600 ||| ((inodeAt (oneFile 399).disk 3).mode &&& sIfmt)) = _
    rw [oneFile_inode (by omega) (by omega)]
    decide
  · -- nothing is below `/a`
    obtain ⟨o', ho'⟩ := Option.isSome_iff_exists.mp hc
    rcases hshown cs o ho with ⟨-, hsize⟩ | ⟨rfl, -⟩
    · omega
    · rcases hshown _ o' ho' with ⟨hnil, -⟩ | ⟨hsame, -⟩
      · cases hnil
      · cases (List.cons.inj hsame).2

end SystemsProjects.Fs5600
