import SystemsProjects.Fs5600.Write
import SystemsProjects.Fs5600.Image

/-!
# The contents of a file

The bytes of a file are its first `size` bytes over the blocks `ptrs[0]`, `ptrs[1]`, ... `fs_read`
returns a slice of them, and `fs_write` replaces a slice.
-/

namespace SystemsProjects.Fs5600
open SystemsProjects.Lib

/-- The bytes of a file. -/
def contents (d : Disk) (ino : Inode) : List UInt8 :=
  (List.range ino.size.toInt.toNat).map (fileByte d ino)

@[simp] theorem contents_length (d : Disk) (ino : Inode) :
    (contents d ino).length = ino.size.toInt.toNat := by
  simp [contents]

theorem contents_getElem (d : Disk) (ino : Inode) (j : Nat) (h : j < (contents d ino).length) :
    (contents d ino)[j] = fileByte d ino j := by
  simp [contents]

/-! ## Reading -/

/-- The chunk `fs_read` copies out of a block. -/
theorem chunk_eq {d : Disk} {ino : Inode} {offset n : Nat} (hmod : offset % 4096 + n ≤ 4096)
    (hi : offset / 4096 < 1019) :
    ((List.ofFn (d.data (ino.ptrs ⟨offset / 4096, hi⟩).toNat)).drop (offset % 4096)).take n =
      (List.range n).map fun j => fileByte d ino (offset + j) := by
  have hlen : ((List.ofFn (d.data (ino.ptrs ⟨offset / 4096, hi⟩).toNat)).drop
      (offset % 4096)).length = 4096 - offset % 4096 := by
    rw [List.length_drop, List.length_ofFn]
  apply List.ext_getElem
  · rw [List.length_take, hlen, List.length_map, List.length_range]
    omega
  · intro j hj hj'
    have hjn : j < n := by simpa using hj'
    have hdiv : Fin.ofNat 1019 ((offset + j) / 4096) = ⟨offset / 4096, hi⟩ := by
      apply Fin.ext
      simp only [Fin.val_ofNat]
      omega
    simp only [List.getElem_take, List.getElem_drop, List.getElem_ofFn, List.getElem_map,
      List.getElem_range, fileByte, hdiv]
    congr 1
    apply Fin.ext
    simp only [Fin.val_ofNat]
    omega

/-- The loop of `fs_read` copies the bytes from `offset` on, block by block. -/
theorem TreeOk.readLoop_eq {st : FsState} (ok : TreeOk st) {f : Nat} (hf : Live st.disk f)
    (hfile : isDirAt st.disk f = false) (hok : FileOk (inodeAt st.disk f)) (len : Nat) :
    ∀ (k total offset : Nat) (data : Block) (buf : List UInt8), len - total = k →
      ((offset + (len - total) : Nat) : Int) ≤ (inodeAt st.disk f).size.toInt →
      readLoop st (inodeAt st.disk f) len total offset data buf =
        .ok (buf ++ (List.range (len - total)).map fun j =>
          fileByte st.disk (inodeAt st.disk f) (offset + j)) := by
  intro k
  induction k using Nat.strong_induction_on with
  | _ k ih =>
    intro total offset data buf hk hend
    have hmax := hok.le
    rw [readLoop]
    by_cases ht : total < len
    · have hn := normLen_eq len offset ht.le
      have hpos := normLen_pos offset ht
      have hi : offset / 4096 < 1019 := by omega
      have hp : (inodeAt st.disk f).ptrs ⟨offset / 4096, hi⟩ ≠ 0 := by
        refine hok.ptrs _ ?_
        show ((offset / 4096 : Nat) * 4096 : Int) < _
        omega
      have huse := hf.data_inUse hfile hp
      rw [dif_pos ht, dif_pos hi]
      simp only [ok.asInt_data hf hfile hp, ok.get_inUse huse data]
      rw [chunk_eq (by omega) hi,
        ih (len - (total + normLen len total offset)) (by omega) _ _ _ _ rfl
        (by omega), List.append_assoc]
      have hsplit : len - total =
          normLen len total offset + (len - (total + normLen len total offset)) := by omega
      rw [hsplit, List.range_add, List.map_append, List.map_map]
      simp only [Function.comp_def, Nat.add_assoc]
    · rw [dif_neg ht, show len - total = 0 by omega]
      simp

/-- A slice of the contents. -/
theorem slice_contents (d : Disk) (ino : Inode) (o n : Nat) :
    ((contents d ino).drop o).take n =
      (List.range (min n (ino.size.toInt.toNat - o))).map fun j => fileByte d ino (o + j) := by
  apply List.ext_getElem
  · simp
  · intro j hj hj'
    simp only [List.getElem_take, List.getElem_drop, List.getElem_map, List.getElem_range,
      contents_getElem]

/-- `fs_read` from the type test on. -/
def readRest (env : Env) (len offset : Nat) (st : FsState) (inode : Inode) :
    Except Fault (Int × List UInt8) :=
  if sIsdir inode.mode then .ok (-eisdir, [])
  else if inode.size.toInt ≤ (offset : Int) then .ok (0, [])
  else do
    let len := if (offset + len : Int) > inode.size.toInt then
      (inode.size.toInt - offset).toNat else len
    let buf ← readLoop st inode len 0 offset (env.junk [1]) []
    .ok ((len : Int).bmod (2 ^ 32), buf)

theorem WellFormed.readRest_eq {st : FsState} (wf : WellFormed st) (env : Env) {f : Nat}
    (hf : Live st.disk f) (hfile : isDirAt st.disk f = false) {len : Nat} (hlen : len < 2 ^ 31)
    (offset : Nat) :
    readRest env len offset st (inodeAt st.disk f) =
      .ok ((min len ((contents st.disk (inodeAt st.disk f)).length - offset) : Nat),
        ((contents st.disk (inodeAt st.disk f)).drop offset).take len) := by
  have hok := wf.files f hf hfile
  have h0 := hok.nonneg
  have hmode : ¬ sIsdir (inodeAt st.disk f).mode = true := by
    rw [show sIsdir (inodeAt st.disk f).mode = false from hfile]
    decide
  rw [readRest, if_neg hmode, slice_contents, contents_length]
  by_cases hoff : (inodeAt st.disk f).size.toInt ≤ (offset : Int)
  · rw [if_pos hoff, show (inodeAt st.disk f).size.toInt.toNat - offset = 0 by omega]
    simp
  · rw [if_neg hoff]
    have hclip : (if (offset + len : Int) > (inodeAt st.disk f).size.toInt then
        ((inodeAt st.disk f).size.toInt - offset).toNat else len) =
        min len ((inodeAt st.disk f).size.toInt.toNat - offset) := by
      split_ifs <;> omega
    simp only [hclip]
    rw [wf.toTreeOk.readLoop_eq hf hfile hok _ _ 0 offset _ _ rfl (by omega), ok_bind, Nat.sub_zero,
      List.nil_append, Int.bmod_eq_of_le] <;> omega

/-- `fs_read` on a path that resolves. -/
theorem TreeOk.fsRead_eq {st : FsState} (ok : TreeOk st) (env : Env) (p : CanonPath) {f : Nat}
    (hres : resolve st.disk 2 p.comps = .ok f) (len offset : Nat) :
    fsRead env p.bytes len offset st = readRest env len offset st (inodeAt st.disk f) := by
  have hf : Live st.disk f := resolve_live .root hres
  have hpath := p.pathToInum_eq ok (env.call 0)
  rw [hres] at hpath
  simp only [fsRead, hpath, ok_bind, codeOf]
  rw [if_neg (by omega), ok.get_inUse hf.owned]
  rfl

/-! ## Paths after a change to a file -/

/-- A change to a file leaves every path as it was. -/
theorem FileStep.resolve_eq {st st' : FsState} {f : Nat} (h : FileStep st st' f)
    (cs : List (List UInt8)) :
    ∀ n, Live st.disk n → resolve st'.disk n cs = resolve st.disk n cs := by
  induction cs with
  | nil => intro n _; rfl
  | cons c cs ih =>
    intro n hn
    by_cases hnf : n = f
    · subst hnf
      simp [resolve, h.file, h.file']
    · have hs := h.same n hn hnf
      cases hdir : isDirAt st.disk n with
      | false => simp [resolve, hs.isDirAt, hdir]
      | true =>
        have hes := hs.entriesAt hdir
        simp only [resolve, hs.isDirAt, hdir, lookup_congr hes, Bool.not_true, Bool.false_eq_true,
          if_false]
        cases hl : lookup st.disk n c with
        | none => rfl
        | some i =>
          simp only [hes]
          exact ih _ (hn.slot_live hdir (lookup_eq_some hl).1)

/-! ## Writing -/

section Written
variable {env : Env} {st st' : FsState} {p : CanonPath} {f off : Nat} {buf : List UInt8}
  (wf : WellFormed st) (w : Writable st p f off buf.length)
  (h : Grown (startWrite env st f off buf.length) st' f off buf)
include wf w h

/-- Bytes outside the range keep their value. -/
theorem Writable.kept {j : Nat} (hj : (j : Int) < (inodeAt st.disk f).size.toInt)
    (hout : j < off ∨ off + buf.length ≤ j) :
    fileByte st'.disk (inodeAt st'.disk f) j = fileByte st.disk (inodeAt st.disk f) j := by
  have hok := wf.files f w.live w.file
  have hmax := hok.le
  have hp : (inodeAt st.disk f).ptrs (Fin.ofNat 1019 (j / 4096)) ≠ 0 := by
    refine hok.ptrs _ ?_
    simp only [Fin.val_ofNat]
    omega
  have hkept := h.kept j (by omega) hout (by rw [inodeAt_startWrite]; exact hp)
  rw [hkept, inodeAt_startWrite]
  unfold fileByte
  rw [growInode_ptrs, startWrite, FsState.write_disk,
    Disk.write_ne _ _ (wf.toTreeOk.live_ne_data w.live w.live w.file hp).symm]

/-- A write replaces a slice of the contents, and what follows it. -/
theorem Writable.contents_eq : contents st'.disk (inodeAt st'.disk f) =
    (contents st.disk (inodeAt st.disk f)).take off ++ buf ++
      (contents st.disk (inodeAt st.disk f)).drop (off + buf.length) := by
  have hsize := w.size_eq h wf
  have h0 := (wf.files f w.live w.file).nonneg
  have hin := w.inside
  have hlen : ((contents st.disk (inodeAt st.disk f)).take off).length = off := by
    rw [List.length_take, contents_length]
    omega
  apply List.ext_getElem
  · simp only [contents_length, List.length_append, hlen, List.length_drop]
    omega
  · intro j hj hj'
    rw [contents_length] at hj
    rw [contents_getElem]
    by_cases hlow : j < off
    · rw [w.kept wf h (by omega) (.inl hlow), List.getElem_append_left (by
        rw [List.length_append, hlen]; omega), List.getElem_append_left (by omega),
        List.getElem_take, contents_getElem]
    · by_cases hmid : j < off + buf.length
      · have hwritten := h.written (j - off) (by omega)
        rw [show off + (j - off) = j by omega] at hwritten
        rw [hwritten, List.getElem_append_left (by rw [List.length_append, hlen]; omega),
          List.getElem_append_right (by omega)]
        simp only [hlen]
      · rw [w.kept wf h (by omega) (.inr (by omega)), List.getElem_append_right (by
          rw [List.length_append, hlen]; omega), List.getElem_drop, contents_getElem]
        congr 1
        rw [List.length_append, hlen]
        omega

end Written

/-- A write to a file, with the offset inside it, the new end within the largest size and a
unmarked block for every missing one, returns the length of the buffer; every read afterwards
returns a slice of the old contents with the buffer put in at the offset. -/
theorem fsWrite_fsRead {st : FsState} (wf : WellFormed st) (env : Env) (p : CanonPath) {f : Nat}
    (hres : resolve st.disk 2 p.comps = .ok f) (hfile : isDirAt st.disk f = false)
    (buf : List UInt8) (off : Nat)
    (hoff : off ≤ (contents st.disk (inodeAt st.disk f)).length)
    (hfit : (contents st.disk (inodeAt st.disk f)).length + buf.length ≤ 1019 * 4096)
    (hfree : (missing (inodeAt st.disk f) off buf.length).card ≤ st.unmarked.card) :
    ∃ st', fsWrite env p.bytes buf off st = .ok (buf.length, st') ∧
      ∀ (env' : Env) (n o : Nat), n < 2 ^ 31 →
        let c := contents st.disk (inodeAt st.disk f)
        let c' := c.take off ++ buf ++ c.drop (off + buf.length)
        fsRead env' p.bytes n o st' =
          .ok ((min n (c'.length - o) : Nat), (c'.drop o).take n) := by
  have h0 := (wf.files f (resolve_live .root hres) hfile).nonneg
  rw [contents_length] at hoff hfit
  have w : Writable st p f off buf.length := ⟨hres, hfile, by omega, by omega⟩
  rcases wf.fsWrite_cases env p buf (by omega) off with
    ⟨r, -, -, hno⟩ | ⟨f', w', ⟨hcard, -⟩ | ⟨st', hrun, hg⟩⟩
  · exact absurd ⟨f, w⟩ hno
  · obtain rfl := Except.ok.inj (w'.resolved.symm.trans hres)
    omega
  · obtain rfl := Except.ok.inj (w'.resolved.symm.trans hres)
    refine ⟨st', hrun, fun env' n o hn => ?_⟩
    have hstep := w.fileStep hg wf.toTreeOk
    have hres' : resolve st'.disk 2 p.comps = .ok f' := by
      rw [hstep.resolve_eq _ 2 .root, hres]
    have hwf' := w.wellFormed hg wf
    dsimp only
    rw [hwf'.toTreeOk.fsRead_eq env' p hres', ← w.contents_eq wf hg]
    exact hwf'.readRest_eq env' (resolve_live .root hres') hstep.file' hn o

theorem oneFile_unmarked : ¬ Marked (oneFile 399) 4 := by
  rw [(oneFile_placed (by omega) (by omega)).marked, emptyState_marked (by omega)]
  simp

theorem oneFile_free : 4 ∈ (oneFile 399).unmarked :=
  FsState.mem_unmarked.mpr ⟨by omega, oneFile_unmarked⟩

/-- There is a block for two bytes in `/a`. -/
theorem oneFile_room :
    (missing (inodeAt (oneFile 399).disk 3) 0 2).card ≤ (oneFile 399).unmarked.card := by
  have hmiss : (missing (inodeAt (oneFile 399).disk 3) 0 2).card ≤ 1 := by
    refine Finset.card_le_one.mpr fun i hi j hj => Fin.ext ?_
    have h1 := (mem_missing.mp hi).2
    have h2 := (mem_missing.mp hj).2
    unfold Touches at h1 h2
    omega
  exact hmiss.trans (Finset.card_pos.mpr ⟨4, oneFile_free⟩)

/-- Writing `hi` to the empty file `/a`. -/
theorem fsWrite_fsRead_oneFile :
    ∃ st', fsWrite quietEnv pathA.bytes [0x68, 0x69] 0 (oneFile 399) = .ok (2, st') ∧
      fsRead quietEnv pathA.bytes 10 1 st' = .ok (1, [0x69]) := by
  have hino : inodeAt (oneFile 399).disk 3 = newFileInode quietEnv 0o644 :=
    oneFile_inode (by omega) (by omega)
  have hc : contents (oneFile 399).disk (inodeAt (oneFile 399).disk 3) = [] := by
    rw [hino]
    rfl
  obtain ⟨st', hrun, hread⟩ := fsWrite_fsRead (oneFile_wellFormed (by omega) (by omega)) quietEnv
    pathA (oneFile_resolve (by omega) (by omega)) (oneFile_isDir (by omega) (by omega))
    [0x68, 0x69] 0 (by omega) (by rw [hc]; decide) oneFile_room
  refine ⟨st', hrun, ?_⟩
  have h := hread quietEnv 10 1 (by omega)
  rw [hc] at h
  exact h

end SystemsProjects.Fs5600
