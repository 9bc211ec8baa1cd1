import SystemsProjects.Fs5600.Frame

/-!
# States that agree on what the tree holds

`Agree st st'`: the two states have the same bitmap and the same objects. An object is the same if
its inode is, if the slots of a directory are valid in both or in neither, with the same inode
numbers and names in the valid ones, and if the bytes of a file up to its size are. The rest of an
entry block, the bytes after the end of a file and the unmarked blocks may differ. Paths lead to the
same objects in both, and the calls that only look give the same results.
-/

namespace SystemsProjects.Fs5600
open SystemsProjects.Lib

/-- Both entries are invalid, or both are valid with the same inode number and name. -/
def Dirent.Agrees (e e' : Dirent) : Prop :=
  e'.valid = e.valid ∧ (e.valid = true → e'.inode = e.inode ∧ e'.nameOf = e.nameOf)

/-- Object `n` is the same on both disks. -/
structure SameObject (d d' : Disk) (n : Nat) : Prop where
  inode : inodeAt d' n = inodeAt d n
  entries : isDirAt d n = true → ∀ i, (entriesAt d n i).Agrees (entriesAt d' n i)
  contents : isDirAt d n = false → contents d' (inodeAt d' n) = contents d (inodeAt d n)

structure Agree (st st' : FsState) : Prop where
  wf : WellFormed st
  wf' : WellFormed st'
  numBlocks : st'.numBlocks = st.numBlocks
  blockBitmap : st'.blockBitmap = st.blockBitmap
  objects : ∀ n, Live st.disk n → SameObject st.disk st'.disk n

/-! ## One object -/

namespace SameObject
variable {d d' : Disk} {n : Nat} (h : SameObject d d' n)
include h

theorem isDirAt : isDirAt d' n = isDirAt d n := by
  unfold Fs5600.isDirAt
  rw [h.inode]

theorem tableOf : tableOf d' n = tableOf d n := by
  unfold Fs5600.tableOf
  rw [h.inode]

theorem refs : refs d' n = refs d n := by
  funext l
  cases hdir : Fs5600.isDirAt d n with
  | false => cases l <;> simp [Fs5600.refs, h.isDirAt, hdir, h.inode]
  | true =>
    cases l with
    | table => simp [Fs5600.refs, h.isDirAt, hdir, h.tableOf]
    | data i => simp [Fs5600.refs, h.isDirAt, hdir]
    | slot i =>
      obtain ⟨hvalid, hsame⟩ := h.entries hdir i
      cases hv : (entriesAt d n i).valid with
      | false => simp [Fs5600.refs, h.isDirAt, hdir, hvalid, hv]
      | true => simp [Fs5600.refs, h.isDirAt, hdir, hvalid, hv, (hsame hv).1]

theorem lookup_eq (hdir : Fs5600.isDirAt d n = true) (c : List UInt8) :
    lookup d' n c = lookup d n c := by
  unfold lookup
  congr 1
  funext i
  obtain ⟨hvalid, hsame⟩ := h.entries hdir i
  cases hv : (entriesAt d n i).valid with
  | false => rw [hvalid, hv, Bool.false_and, Bool.false_and]
  | true => rw [hvalid, hv, (hsame hv).2]

theorem firstInvalid_eq (hdir : Fs5600.isDirAt d n = true) :
    firstInvalid (entriesAt d' n) = firstInvalid (entriesAt d n) := by
  unfold firstInvalid
  congr 1
  funext i
  rw [(h.entries hdir i).1]

/-- An object all of whose blocks stay, on both disks. -/
theorem keep {d₁ d₁' : Disk} (hok : Fs5600.isDirAt d n = false → FileOk (inodeAt d n))
    (hkeep : ∀ x, Own d n x → d₁.data x = d.data x)
    (hkeep' : ∀ x, Own d' n x → d₁'.data x = d'.data x) : SameObject d₁ d₁' n := by
  have hs := sameNode_of_own hkeep
  have hs' := sameNode_of_own hkeep'
  refine ⟨?_, fun hdir i => ?_, fun hfile => ?_⟩
  · rw [hs.inodeAt, hs'.inodeAt, h.inode]
  · have hdir := hs.isDirAt.symm.trans hdir
    rw [hs.entriesAt hdir, hs'.entriesAt (h.isDirAt.trans hdir)]
    exact h.entries hdir i
  · have hfile := hs.isDirAt.symm.trans hfile
    have hfile' := h.isDirAt.trans hfile
    have hok' : FileOk (inodeAt d' n) := by
      rw [h.inode]
      exact hok hfile
    rw [hs.inodeAt, hs'.inodeAt,
      contents_of_own (hok hfile) fun i hi => hkeep _ (own_data hfile hi),
      contents_of_own hok' fun i hi => hkeep' _ (own_data hfile' hi)]
    exact h.contents hfile

end SameObject

/-! ## Paths -/

namespace Agree
variable {st st' : FsState} (h : Agree st st') {n : Nat}
include h

theorem live_iff : Live st'.disk n ↔ Live st.disk n :=
  live_of_refs fun m hm => (h.objects m hm).refs

theorem unmarked : st'.unmarked = st.unmarked := FsState.unmarked_congr h.blockBitmap

theorem marked (x : Nat) : Marked st' x ↔ Marked st x := FsState.marked_congr h.blockBitmap x

theorem isDirAt (hn : Live st.disk n) : isDirAt st'.disk n = isDirAt st.disk n :=
  (h.objects n hn).isDirAt

theorem inodeAt (hn : Live st.disk n) : inodeAt st'.disk n = inodeAt st.disk n :=
  (h.objects n hn).inode

theorem resolve_eq (cs : List (List UInt8)) (hn : Live st.disk n) :
    resolve st'.disk n cs = resolve st.disk n cs := by
  induction cs generalizing n with
  | nil => rfl
  | cons c cs ih =>
    unfold resolve
    rw [h.isDirAt hn]
    cases hdir : Fs5600.isDirAt st.disk n with
    | false => simp only [Bool.not_false, if_true]
    | true =>
      rw [(h.objects n hn).lookup_eq hdir]
      cases hl : lookup st.disk n c with
      | none => rfl
      | some i =>
        have hv := (lookup_eq_some hl).1
        simp only [Bool.not_true, Bool.false_eq_true, if_false,
          (((h.objects n hn).entries hdir i).2 hv).1]
        exact ih (hn.slot_live hdir hv)

theorem resolve_root (cs : List (List UInt8)) : resolve st'.disk 2 cs = resolve st.disk 2 cs :=
  h.resolve_eq cs .root

theorem readyIn {p : CanonPath} (ready : ReadyIn st p n) : ReadyIn st' p n := by
  have hn : Live st.disk n := resolve_live .root ready.resolved
  refine ⟨(h.resolve_root _).trans ready.resolved, (h.isDirAt hn).trans ready.dir, ?_⟩
  rw [(h.objects n hn).lookup_eq ready.dir]
  exact ready.absent

theorem readyIn_iff {p : CanonPath} : ReadyIn st' p n ↔ ReadyIn st p n := by
  refine ⟨fun ready => ?_, h.readyIn⟩
  have hres := (h.resolve_root _).symm.trans ready.resolved
  have hn : Live st.disk n := resolve_live .root hres
  have hdir := (h.isDirAt hn).symm.trans ready.dir
  refine ⟨hres, hdir, ?_⟩
  rw [← (h.objects n hn).lookup_eq hdir]
  exact ready.absent

theorem openError_eq (p : CanonPath) : openError st'.disk p = openError st.disk p := by
  unfold openError
  rw [h.resolve_root]
  cases hres : resolve st.disk 2 p.dirs with
  | error e => rfl
  | ok n =>
    have hn : Live st.disk n := resolve_live .root hres
    simp only [h.isDirAt hn]

theorem namedBy {p : CanonPath} {b : Nat} {i : Fin 128} (named : NamedBy st p n b i) :
    NamedBy st' p n b i := by
  have hn := named.live
  refine ⟨(h.resolve_root _).trans named.resolved, (h.isDirAt hn).trans named.dir, ?_, ?_⟩
  · rw [(h.objects n hn).lookup_eq named.dir]
    exact named.slot
  · rw [(((h.objects n hn).entries named.dir i).2 named.valid).1]
    exact named.target

end Agree

/-! ## The calls that only look -/

/-- The inode behind a valid entry, read into any buffer. -/
theorem TreeOk.get_entry {st : FsState} (ok : TreeOk st) {n : Nat} (hn : Live st.disk n)
    (hdir : isDirAt st.disk n = true) {i : Fin 128} (hv : (entriesAt st.disk n i).valid = true)
    (junk : Block) :
    decodeInode (st.get junk (asInt (UInt32.ofNat (entriesAt st.disk n i).inode.toNat))) =
      inodeAt st.disk (entriesAt st.disk n i).inode.toNat := by
  have hlive := hn.slot_live hdir hv
  have hlt := ok.lt hlive.owned
  have hu : (UInt32.ofNat (entriesAt st.disk n i).inode.toNat).toNat =
      (entriesAt st.disk n i).inode.toNat := by
    rw [UInt32.toNat_ofNat']
    omega
  rw [asInt_of_lt (by omega), hu, ok.get_inUse hlive.owned]
  rfl

/-- An entry as `fs_readdir` shows it: the name up to its NUL, and the fields of the inode. -/
def shown (e : (Fin 28 → UInt8) × Stat) : Option (List UInt8) × Stat :=
  (cstr (bytesFrom e.1 0), e.2)

namespace Agree
variable {st st' : FsState} (h : Agree st st') (env env' : Env) (p : CanonPath)
include h

theorem fsStatfs_eq : fsStatfs st' = fsStatfs st := by
  unfold fsStatfs
  rw [h.blockBitmap, h.numBlocks]

/-- A path leads to the same object in both, or to the same error. -/
theorem pathToInum_cases :
    (∃ e < 0, pathToInum (env.call 0) st.disk p.bytes = .ok e ∧
      pathToInum (env'.call 0) st'.disk p.bytes = .ok e) ∨
    ∃ n : Nat, resolve st.disk 2 p.comps = .ok n ∧ Live st.disk n ∧
      pathToInum (env.call 0) st.disk p.bytes = .ok n ∧
      pathToInum (env'.call 0) st'.disk p.bytes = .ok n := by
  have hpath := p.pathToInum_eq h.wf.toTreeOk (env.call 0)
  have hpath' := p.pathToInum_eq h.wf'.toTreeOk (env'.call 0)
  rw [h.resolve_root] at hpath'
  cases hres : resolve st.disk 2 p.comps with
  | error e =>
    rw [hres] at hpath hpath'
    exact .inl ⟨e, codeOf_error_neg hres, hpath, hpath'⟩
  | ok n =>
    rw [hres] at hpath hpath'
    exact .inr ⟨n, rfl, resolve_live .root hres, hpath, hpath'⟩

/-- The inode of an object, read into any buffer. -/
theorem get_inode {n : Nat} (hn : Live st.disk n) (junk junk' : Block) :
    decodeInode (st.get junk n) = Fs5600.inodeAt st.disk n ∧
      decodeInode (st'.get junk' n) = Fs5600.inodeAt st.disk n := by
  rw [h.wf.toTreeOk.get_inUse hn.owned, h.wf'.toTreeOk.get_inUse (h.live_iff.mpr hn).owned]
  exact ⟨rfl, h.inodeAt hn⟩

theorem fsGetattr_eq : fsGetattr env' p.bytes st' = fsGetattr env p.bytes st := by
  rcases h.pathToInum_cases env env' p with ⟨e, he, hpath, hpath'⟩ | ⟨n, -, hn, hpath, hpath'⟩
  · simp only [fsGetattr, hpath, hpath', ok_bind]
    rw [if_pos he, if_pos he]
  · obtain ⟨hino, hino'⟩ := h.get_inode hn (env.junk [0]) (env'.junk [0])
    simp only [fsGetattr, hpath, hpath', ok_bind, hino, hino']

theorem fsRead_eq {len : Nat} (hlen : len < 2 ^ 31) (offset : Nat) :
    fsRead env' p.bytes len offset st' = fsRead env p.bytes len offset st := by
  rcases h.pathToInum_cases env env' p with ⟨e, he, hpath, hpath'⟩ | ⟨f, hres, hf, -, -⟩
  · simp only [fsRead, hpath, hpath', ok_bind]
    rw [if_pos he, if_pos he]
  · rw [h.wf.toTreeOk.fsRead_eq env p hres,
      h.wf'.toTreeOk.fsRead_eq env' p ((h.resolve_root _).trans hres)]
    cases hfile : Fs5600.isDirAt st.disk f with
    | true =>
      have hmode : sIsdir (Fs5600.inodeAt st.disk f).mode = true := hfile
      rw [h.inodeAt hf, readRest, readRest, if_pos hmode, if_pos hmode]
    | false =>
      rw [h.wf.readRest_eq env hf hfile hlen, h.wf'.readRest_eq env' (h.live_iff.mpr hf)
        ((h.isDirAt hf).trans hfile) hlen, (h.objects f hf).contents hfile]

theorem fillEntries_eq {n : Nat} (hn : Live st.disk n) (hdir : Fs5600.isDirAt st.disk n = true)
    (is : List (Fin 128)) :
    (fillEntries env' st' (entriesAt st'.disk n) is).map shown =
      (fillEntries env st (entriesAt st.disk n) is).map shown := by
  have hn' := h.live_iff.mpr hn
  have hdir' := (h.isDirAt hn).trans hdir
  induction is with
  | nil => rfl
  | cons i is ih =>
    obtain ⟨hvalid, hsame⟩ := (h.objects n hn).entries hdir i
    cases hv : (entriesAt st.disk n i).valid with
    | false =>
      simp only [fillEntries, hvalid, hv, Bool.not_false, if_true]
      exact ih
    | true =>
      have hv' := hvalid.trans hv
      obtain ⟨hinum, hname⟩ := hsame hv
      have hino := h.inodeAt (hn.slot_live hdir hv)
      have hname' : cstr (bytesFrom (entriesAt st'.disk n i).name 0) =
          cstr (bytesFrom (entriesAt st.disk n i).name 0) := hname
      simp only [fillEntries, hv, hv', Bool.not_true, Bool.false_eq_true, if_false, List.map_cons,
        ih, shown, h.wf.toTreeOk.get_entry hn hdir hv, h.wf'.toTreeOk.get_entry hn' hdir' hv']
      rw [hname', hinum, hino]

theorem fsReaddir_eq : (fsReaddir env' p.bytes st').map (fun r => (r.1, r.2.map shown)) =
    (fsReaddir env p.bytes st).map fun r => (r.1, r.2.map shown) := by
  have ok := h.wf.toTreeOk
  have ok' := h.wf'.toTreeOk
  rcases h.pathToInum_cases env env' p with ⟨e, he, hpath, hpath'⟩ | ⟨n, -, hn, hpath, hpath'⟩
  · simp only [fsReaddir, hpath, hpath', ok_bind]
    rw [if_pos he, if_pos he]
  · have hpos : ¬ (n : Int) < 0 := by omega
    obtain ⟨hino, hino'⟩ := h.get_inode hn (env.junk [0]) (env'.junk [0])
    simp only [fsReaddir, hpath, hpath', ok_bind, hino, hino']
    rw [if_neg hpos, if_neg hpos]
    cases hdir : Fs5600.isDirAt st.disk n with
    | false =>
      have hmode : (!sIsdir (Fs5600.inodeAt st.disk n).mode) = true := by
        rw [show sIsdir (Fs5600.inodeAt st.disk n).mode = false from hdir, Bool.not_false]
      rw [if_pos hmode, if_pos hmode]
    | true =>
      have hmode : ¬ (!sIsdir (Fs5600.inodeAt st.disk n).mode) = true := by
        rw [show sIsdir (Fs5600.inodeAt st.disk n).mode = true from hdir]
        decide
      have hdir' := (h.isDirAt hn).trans hdir
      have htable' := ok'.get_entries (h.live_iff.mpr hn) hdir' (env'.junk [1])
      rw [(h.objects n hn).tableOf] at htable'
      rw [if_neg hmode, if_neg hmode, ok.asInt_table hn hdir, ok.get_entries hn hdir, htable']
      simp only [Except.map]
      rw [h.fillEntries_eq env env' hn hdir]

end Agree

end SystemsProjects.Fs5600
