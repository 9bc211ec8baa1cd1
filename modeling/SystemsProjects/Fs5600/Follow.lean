import SystemsProjects.Fs5600.Agree

/-!
# Calls on states that agree

A call that returns on one of two states that agree returns the same value on the other, and the
states afterwards agree again, whatever uninitialised memory holds. The blocks `fs_mkdir` and
`fs_write` hand out are the same in both, since the bitmaps are; the junk that is left in them lies
in invalid entries or behind the end of the file.
-/

namespace SystemsProjects.Fs5600
open SystemsProjects.Lib

/-- Surroundings that differ in uninitialised memory only. -/
structure Env.SameCaller (env env' : Env) : Prop where
  time : env'.time = env.time
  uid : env'.uid = env.uid
  gid : env'.gid = env.gid

/-- If the first call returns, the second one returns the same value in a state that agrees. -/
def Follows (x x' : Except Fault (Int × FsState)) : Prop :=
  ∀ r t, x = .ok (r, t) → ∃ t', x' = .ok (r, t') ∧ Agree t t'

theorem Follows.ok {t t' : FsState} (h : Agree t t') (r : Int) :
    Follows (.ok (r, t)) (.ok (r, t')) := by
  intro r' s hs
  obtain ⟨rfl, rfl⟩ := Prod.mk.inj (Except.ok.inj hs)
  exact ⟨t', rfl, h⟩

theorem Follows.fault (e : Fault) (x' : Except Fault (Int × FsState)) : Follows (.error e) x' := by
  intro r t h
  simp at h

/-! ## The objects after a change -/

theorem Dirent.Agrees.update {es es' : Fin 128 → Dirent} {e e' : Dirent} (he : e.Agrees e')
    (h : ∀ j, (es j).Agrees (es' j)) (i j : Fin 128) :
    (Function.update es i e j).Agrees (Function.update es' i e' j) := by
  by_cases hji : j = i
  · subst hji
    rw [Function.update_self, Function.update_self]
    exact he
  · rw [Function.update_of_ne hji, Function.update_of_ne hji]
    exact h j

section SameObject
variable {d d' : Disk} {n : Nat} (hino : inodeAt d' n = inodeAt d n)
include hino

theorem sameObject_of_dir (hdir : isDirAt d n = true)
    (hes : ∀ i, (entriesAt d n i).Agrees (entriesAt d' n i)) : SameObject d d' n :=
  ⟨hino, fun _ => hes, fun hfile => by simp [hdir] at hfile⟩

theorem sameObject_of_file (hfile : isDirAt d n = false)
    (hcontents : contents d' (inodeAt d' n) = contents d (inodeAt d n)) : SameObject d d' n :=
  ⟨hino, fun hdir => by simp [hfile] at hdir, fun _ => hcontents⟩

end SameObject

theorem contents_empty {ino : Inode} (h : ino.size = 0) (d : Disk) : contents d ino = [] := by
  unfold contents
  rw [h]
  rfl

/-- The bytes of a file do not depend on what else its inode says. -/
theorem contents_rewrite {st : FsState} (wf : WellFormed st) {f : Nat} (hf : Live st.disk f)
    (hfile : isDirAt st.disk f = false) {ino : Inode} (hptrs : ino.ptrs = (inodeAt st.disk f).ptrs)
    (hsize : ino.size = (inodeAt st.disk f).size) :
    contents (st.disk.write f (encodeInode ino)) ino = contents st.disk (inodeAt st.disk f) := by
  have hdata : contents (st.disk.write f (encodeInode ino)) (inodeAt st.disk f) =
      contents st.disk (inodeAt st.disk f) :=
    contents_of_own (wf.files f hf hfile) fun i hi =>
      Disk.write_ne _ _ (wf.toTreeOk.live_ne_data hf hf hfile hi).symm
  rw [← hdata]
  unfold contents fileByte
  rw [hsize, hptrs]

section New
variable {st st' t t' : FsState} {n b : Nat} {i : Fin 128} {c : List UInt8} {tbl : Option Nat}
  {ino : Inode}

/-- The same entry in the same slot of a directory. -/
theorem LinkStep.sameObject (h : LinkStep st t n b i c tbl) (h' : LinkStep st' t' n b i c tbl)
    (hn : SameObject st.disk st'.disk n) : SameObject t.disk t'.disk n := by
  obtain ⟨e, hv, hb, hname, hes⟩ := h.entry
  obtain ⟨e', hv', hb', hname', hes'⟩ := h'.entry
  have he : e.Agrees e' :=
    ⟨hv'.trans hv.symm, fun _ => ⟨BitVec.eq_of_toNat_eq (hb'.trans hb.symm),
      hname'.trans hname.symm⟩⟩
  refine sameObject_of_dir ?_ h.isDir_n fun j => ?_
  · rw [h.inode, h'.inode, hn.inode]
  · rw [hes, hes']
    exact he.update (hn.entries h.dir) i j

/-- A new object is an empty file, or a directory without valid entries. -/
theorem Placed.sameObject (h : Placed st t n b c tbl ino) (h' : Placed st' t' n b c tbl ino)
    (hnew : NewObject ino tbl) : SameObject t.disk t'.disk b := by
  have hino : inodeAt t'.disk b = inodeAt t.disk b := by rw [h.inode, h'.inode]
  cases hdir : isDirAt t.disk b with
  | true =>
    have hdir' : isDirAt t'.disk b = true := by
      unfold isDirAt
      rw [hino]
      exact hdir
    refine sameObject_of_dir hino hdir fun j => ?_
    have hv := h.entries_object hnew hdir j
    exact ⟨(h'.entries_object hnew hdir' j).trans hv.symm, fun hj => by simp [hv] at hj⟩
  | false =>
    have hsize := h.size_object hnew hdir
    refine sameObject_of_file hino hdir ?_
    rw [hino, contents_empty hsize, contents_empty hsize]

end New

namespace Agree
variable {st st' t t' : FsState} (h : Agree st st')
include h

/-- An object all of whose blocks stay in both states. -/
theorem kept {m : Nat} (hm : Live st.disk m)
    (hkeep : ∀ x, Own st.disk m x → t.disk.data x = st.disk.data x)
    (hkeep' : ∀ x, Own st'.disk m x → t'.disk.data x = st'.disk.data x) :
    SameObject t.disk t'.disk m :=
  (h.objects m hm).keep (h.wf.files m hm) hkeep hkeep'

/-- The states afterwards agree if they have marked the same blocks and hold the same objects. -/
theorem next (wf : WellFormed t) (wf' : WellFormed t') (hnum : t.numBlocks = st.numBlocks)
    (hnum' : t'.numBlocks = st'.numBlocks) (hmark : ∀ x, Marked t' x ↔ Marked t x)
    (hobjects : ∀ m, Live t.disk m → SameObject t.disk t'.disk m) : Agree t t' where
  wf := wf
  wf' := wf'
  numBlocks := by rw [hnum', h.numBlocks, hnum]
  blockBitmap := blockBitmap_eq_iff.mpr hmark
  objects := hobjects

/-- A new object in the same blocks, with its entry in the first free slot. -/
theorem placed {n b : Nat} {c : List UInt8} {tbl : Option Nat} {ino : Inode}
    (hp : Placed st t n b c tbl ino) (hp' : Placed st' t' n b c tbl ino)
    (hslot : FirstSlot st.disk t.disk n b c) (hslot' : FirstSlot st'.disk t'.disk n b c)
    (habsent : lookup st.disk n c = none) (hnew : NewObject ino tbl) : Agree t t' := by
  have ok := h.wf.toTreeOk
  have ok' := h.wf'.toTreeOk
  have hn := h.objects n hp.live
  have habsent' := (hn.lookup_eq hp.dir c).trans habsent
  refine h.next (hp.wellFormed h.wf habsent hnew) (hp'.wellFormed h.wf' habsent' hnew) hp.numBlocks
    hp'.numBlocks (fun x => by rw [hp.marked, hp'.marked, h.marked]) fun m hm => ?_
  have hfirst := hn.firstInvalid_eq hp.dir
  cases hi : firstInvalid (entriesAt st.disk n) with
  | none =>
    -- the directory is full in both: the new object stays out of reach
    have hfull := firstInvalid_none.mp hi
    have hfull' := firstInvalid_none.mp (hfirst.trans hi)
    have hm := (live_of_refs fun m hm => (hp.sameNode_of_full ok hfull hm).refs).mp hm
    exact h.kept hm (fun x hx => hp.keep_of_full ok hfull (hx.inUse hm))
      fun x hx => hp'.keep_of_full ok' hfull' (hx.inUse (h.live_iff.mpr hm))
  | some i =>
    have hi' := hfirst.trans hi
    obtain ⟨e, hv, hb, hname, htable⟩ := hslot i hi
    obtain ⟨e', hv', hb', hname', htable'⟩ := hslot' i hi'
    have hlink := hp.linkStep ok habsent hnew (firstInvalid_some hi) ⟨hv, hb, hname⟩ htable
    have hlink' := hp'.linkStep ok' habsent' hnew (firstInvalid_some hi') ⟨hv', hb', hname'⟩ htable'
    rcases hlink.live_iff.mp hm with hm | rfl
    · by_cases hmn : m = n
      · subst hmn
        exact hlink.sameObject hlink' hn
      · exact h.kept hm (fun x hx => hp.keep_own ok hm hx hmn)
          fun x hx => hp'.keep_own ok' (h.live_iff.mpr hm) hx hmn
    · exact hp.sameObject hp' hnew

/-- The same entry cleared. -/
theorem cleared {time : UInt32} {p : CanonPath} {n b : Nat} {i : Fin 128}
    (named : NamedBy st p n b i) (hc : Cleared st t time n b i) (hc' : Cleared st' t' time n b i)
    (hempty : ∀ j, Fs5600.isDirAt st.disk b = true → (entriesAt st.disk b j).valid = false) :
    Agree t t' := by
  have ok := h.wf.toTreeOk
  have ok' := h.wf'.toTreeOk
  have named' := h.namedBy named
  have hn := h.objects n named.live
  have hb := h.objects b named.live_target
  have hstep := hc.unlinkStep ok named hempty
  have hstep' := hc'.unlinkStep ok' named' fun j hdir => by
    have hdir := hb.isDirAt.symm.trans hdir
    exact (hb.entries hdir j).1.trans (hempty j hdir)
  refine h.next (hstep.wellFormed h.wf) (hstep'.wellFormed h.wf') hc.numBlocks hc'.numBlocks
    (fun x => by rw [hc.marked, hc'.marked, h.marked, hb.refs]) fun m hm => ?_
  obtain ⟨hm, -⟩ := (hstep.live_iff ok).mp hm
  by_cases hmn : m = n
  · subst hmn
    refine sameObject_of_dir ?_ hstep.dir' fun j => ?_
    · rw [hc.inode, hc'.inode, hn.inode]
    · rw [hstep.entries', hstep'.entries']
      have he : Dirent.Agrees { entriesAt st.disk m i with valid := false }
          { entriesAt st'.disk m i with valid := false } := ⟨rfl, by simp⟩
      exact he.update (hn.entries named.dir) i j
  · exact h.kept hm (fun x hx => hc.keep_own ok hm hx named hmn)
      fun x hx => hc'.keep_own ok' (h.live_iff.mpr hm) hx named' hmn

/-- The same file emptied. -/
theorem emptied {f : Nat} (he : Emptied st t f) (he' : Emptied st' t' f)
    (hino : Fs5600.inodeAt t'.disk f = Fs5600.inodeAt t.disk f) : Agree t t' := by
  have ok := h.wf.toTreeOk
  have ok' := h.wf'.toTreeOk
  refine h.next (he.wellFormed h.wf) (he'.wellFormed h.wf') he.numBlocks he'.numBlocks
    (fun x => by rw [he.marked, he'.marked, h.marked, (h.objects f he.live).refs]) fun m hm => ?_
  have hm := (he.fileStep ok).live_iff.mp hm
  by_cases hmf : m = f
  · subst hmf
    refine sameObject_of_file hino he.file' ?_
    rw [hino, contents_empty he.size, contents_empty he.size]
  · exact h.kept hm (fun x hx => he.keep_own ok hm hx hmf)
      fun x hx => he'.keep_own ok' (h.live_iff.mpr hm) hx hmf

/-- The same inode rewritten, with its references and its size. -/
theorem rewritten {b : Nat} {ino : Inode} (hb : Live st.disk b)
    (hptrs : ino.ptrs = (Fs5600.inodeAt st.disk b).ptrs)
    (hdir : sIsdir ino.mode = Fs5600.isDirAt st.disk b)
    (hsize : ino.size = (Fs5600.inodeAt st.disk b).size) :
    Agree (st.write b (encodeInode ino)) (st'.write b (encodeInode ino)) := by
  have ok := h.wf.toTreeOk
  have ok' := h.wf'.toTreeOk
  have hb' := h.live_iff.mpr hb
  have hino := h.inodeAt hb
  have hptrs' : ino.ptrs = (Fs5600.inodeAt st'.disk b).ptrs := by rw [hino, hptrs]
  have hdir' : sIsdir ino.mode = Fs5600.isDirAt st'.disk b := hdir.trans (h.isDirAt hb).symm
  refine h.next (h.wf.write_inode hb hptrs hdir hsize)
    (h.wf'.write_inode hb' hptrs' hdir' (by rw [hino, hsize])) rfl rfl
    (fun x => by rw [FsState.marked_write, FsState.marked_write, h.marked]) fun m hlive => ?_
  have hrefs : ∀ m, Live st.disk m → refs (st.write b (encodeInode ino)).disk m = refs st.disk m :=
    fun m hm => ok.refs_write_inode hb hptrs hdir hm
  have hm := (live_of_refs hrefs).mp hlive
  by_cases hmb : m = b
  · subst hmb
    have hself := inodeAt_write_self st.disk m ino
    have hself' := inodeAt_write_self st'.disk m ino
    have hdir₁ : Fs5600.isDirAt (st.disk.write m (encodeInode ino)) m =
        Fs5600.isDirAt st.disk m := by
      unfold Fs5600.isDirAt
      rw [hself]
      exact hdir
    rw [FsState.write_disk, FsState.write_disk]
    cases hmdir : Fs5600.isDirAt st.disk m with
    | true =>
      refine sameObject_of_dir (hself'.trans hself.symm) (hdir₁.trans hmdir) fun j => ?_
      rw [ok.entriesAt_write_inode hb hptrs hm hmdir,
        ok'.entriesAt_write_inode hb' hptrs' hb' ((h.isDirAt hm).trans hmdir)]
      exact (h.objects m hm).entries hmdir j
    | false =>
      refine sameObject_of_file (hself'.trans hself.symm) (hdir₁.trans hmdir) ?_
      rw [hself, hself', contents_rewrite h.wf hb hmdir hptrs hsize,
        contents_rewrite h.wf' hb' ((h.isDirAt hm).trans hmdir) hptrs' (by rw [hino, hsize])]
      exact (h.objects m hm).contents hmdir
  · exact h.kept hm (fun x hx => ok.keep_own_write hm hx hb _ hmb)
      fun x hx => ok'.keep_own_write (h.live_iff.mpr hm) hx hb' _ hmb

end Agree

/-! ## The calls on one object -/

section Calls
variable {st st' : FsState} (h : Agree st st') {env env' : Env} (hcaller : env.SameCaller env')
  (p : CanonPath)
include h

/-- Both calls go on with the same object, or end in the same error. -/
theorem Agree.withInode {k k' : Int → Inode → Except Fault (Int × FsState)}
    (hrest : ∀ n b i, NamedBy st p n b i →
      Follows (k b (Fs5600.inodeAt st.disk b)) (k' b (Fs5600.inodeAt st'.disk b))) :
    Follows (withInode env p.bytes st k) (withInode env' p.bytes st' k') := by
  rcases h.pathToInum_cases env env' p with ⟨e, he, hpath, hpath'⟩ | ⟨b, hres, hb, hpath, hpath'⟩
  · simp only [Fs5600.withInode, hpath, hpath', ok_bind]
    rw [if_pos he, if_pos he]
    exact .ok h e
  · have hpos : ¬ (b : Int) < 0 := by omega
    obtain ⟨n, i, named⟩ := p.namedBy hres
    obtain ⟨hino, hino'⟩ := h.get_inode hb (env.junk [0]) (env'.junk [0])
    rw [← h.inodeAt hb] at hino'
    simp only [Fs5600.withInode, hpath, hpath', ok_bind, hino, hino']
    rw [if_neg hpos, if_neg hpos]
    exact hrest n b i named

/-- Both write the same inode back. -/
theorem Agree.rewriteInode (g g' : Inode → Inode) {b : Nat} (hb : Live st.disk b)
    (hg : g' (Fs5600.inodeAt st.disk b) = g (Fs5600.inodeAt st.disk b))
    (hptrs : (g (Fs5600.inodeAt st.disk b)).ptrs = (Fs5600.inodeAt st.disk b).ptrs)
    (hdir : sIsdir (g (Fs5600.inodeAt st.disk b)).mode = Fs5600.isDirAt st.disk b)
    (hsize : (g (Fs5600.inodeAt st.disk b)).size = (Fs5600.inodeAt st.disk b).size) :
    Follows (rewriteInode g st b (Fs5600.inodeAt st.disk b))
      (rewriteInode g' st' b (Fs5600.inodeAt st'.disk b)) := by
  rw [h.inodeAt hb, Fs5600.rewriteInode, Fs5600.rewriteInode, hg, h.wf.toTreeOk.put_live hb,
    h.wf'.toTreeOk.put_live (h.live_iff.mpr hb), ok_bind, ok_bind]
  exact .ok (h.rewritten hb hptrs hdir hsize) 0

theorem Agree.fsChmod {mode : UInt32}
    (hmode : ∀ b, resolve st.disk 2 p.comps = .ok b →
      TypeAgrees mode (Fs5600.inodeAt st.disk b).mode) :
    Follows (fsChmod env p.bytes mode st) (fsChmod env' p.bytes mode st') :=
  h.withInode p fun _ b _ named => h.rewriteInode (chmodInode mode) (chmodInode mode)
    named.live_target rfl rfl (sIsdir_chmod (hmode b named.resolve_eq)) rfl

include hcaller

theorem Agree.fsUtime (ut : Option UInt32) :
    Follows (fsUtime env p.bytes ut st) (fsUtime env' p.bytes ut st') :=
  h.withInode p fun _ b _ named => h.rewriteInode (utimeInode env ut) (utimeInode env' ut)
    named.live_target (by unfold utimeInode; rw [hcaller.time]) rfl rfl rfl

theorem Agree.fsUnlink : Follows (fsUnlink env p.bytes st) (fsUnlink env' p.bytes st') := by
  rw [fsUnlink_eq, fsUnlink_eq]
  refine h.withInode p fun n b i named => ?_
  have hb := named.live_target
  cases hfile : Fs5600.isDirAt st.disk b with
  | true =>
    have hmode : sIsdir (Fs5600.inodeAt st.disk b).mode = true := hfile
    rw [h.inodeAt hb, unlinkRest, unlinkRest, if_pos hmode, if_pos hmode]
    exact .ok h _
  | false =>
    obtain ⟨t, hrun, hclear⟩ := named.unlink_eq h.wf.toTreeOk env hfile
    obtain ⟨t', hrun', hclear'⟩ := (h.namedBy named).unlink_eq h.wf'.toTreeOk env'
      ((h.isDirAt hb).trans hfile)
    rw [hcaller.time] at hclear'
    rw [hrun, hrun']
    exact .ok (h.cleared named hclear hclear' fun j hdir => by simp [hfile] at hdir) 0

theorem Agree.fsRmdir : Follows (fsRmdir env p.bytes st) (fsRmdir env' p.bytes st') := by
  rw [fsRmdir_eq, fsRmdir_eq]
  refine h.withInode p fun n b i named => ?_
  have ok := h.wf.toTreeOk
  have ok' := h.wf'.toTreeOk
  have hb := named.live_target
  cases hdir : Fs5600.isDirAt st.disk b with
  | false =>
    have hmode : (!sIsdir (Fs5600.inodeAt st.disk b).mode) = true := by
      rw [show sIsdir (Fs5600.inodeAt st.disk b).mode = false from hdir, Bool.not_false]
    rw [h.inodeAt hb, rmdirRest, rmdirRest, if_pos hmode, if_pos hmode]
    exact .ok h _
  | true =>
    have hdir' := (h.isDirAt hb).trans hdir
    have hvalid := fun j => ((h.objects b hb).entries hdir j).1
    by_cases hempty : ∀ j, (entriesAt st.disk b j).valid = false
    · obtain ⟨t, hrun, hclear⟩ := named.rmdir_eq ok env hdir hempty
      obtain ⟨t', hrun', hclear'⟩ := (h.namedBy named).rmdir_eq ok' env' hdir'
        fun j => (hvalid j).trans (hempty j)
      rw [hcaller.time] at hclear'
      rw [hrun, hrun']
      exact .ok (h.cleared named hclear hclear' fun j _ => hempty j) 0
    · have hempty' : ¬ ∀ j, (entriesAt st'.disk b j).valid = false := fun hall =>
        hempty fun j => (hvalid j).symm.trans (hall j)
      rw [ok.rmdirRest_full env p.bytes hb hdir hempty,
        ok'.rmdirRest_full env' p.bytes (h.live_iff.mpr hb) hdir' hempty']
      exact .ok h _

theorem Agree.fsTruncate (len : Int) :
    Follows (fsTruncate env p.bytes len st) (fsTruncate env' p.bytes len st') := by
  by_cases hlen : len = 0
  · subst hlen
    rw [fsTruncate_eq, fsTruncate_eq]
    refine h.withInode p fun n b i named => ?_
    have hb := named.live_target
    cases hfile : Fs5600.isDirAt st.disk b with
    | true =>
      have hmode : sIsdir (Fs5600.inodeAt st.disk b).mode = true := hfile
      rw [h.inodeAt hb, truncateRest, truncateRest, if_pos hmode, if_pos hmode]
      exact .ok h _
    | false =>
      obtain ⟨t, hrun, hempty, hino⟩ := h.wf.toTreeOk.truncate_eq env hb hfile
      obtain ⟨t', hrun', hempty', hino'⟩ := h.wf'.toTreeOk.truncate_eq env' (h.live_iff.mpr hb)
        ((h.isDirAt hb).trans hfile)
      rw [hrun, hrun']
      refine .ok (h.emptied hempty hempty' ?_) 0
      rw [hino, hino', h.inodeAt hb, truncateInode, truncateInode, hcaller.time]
  · have hlen' : len ≠ 0 := hlen
    unfold Fs5600.fsTruncate
    rw [if_pos hlen', if_pos hlen']
    exact .ok h _

end Calls

/-! ## `fs_create` and `fs_mkdir` -/

section Create
variable {st st' : FsState} (h : Agree st st') {env env' : Env} (hcaller : env.SameCaller env')
  (p : CanonPath)
include h

/-- Both take the same error exit, or go on in the same directory. -/
theorem Agree.openParent {k k' : Inode → (Fin 28 → UInt8) → Except Fault (Int × FsState)}
    (hrest : ∀ n name name', ReadyIn st p n → cstr (bytesFrom name 0) = some p.last →
      cstr (bytesFrom name' 0) = some p.last →
      Follows (k (Fs5600.inodeAt st.disk n) name) (k' (Fs5600.inodeAt st'.disk n) name')) :
    Follows (openParent env p.bytes st k) (openParent env' p.bytes st' k') := by
  rcases h.wf.toTreeOk.openParent_cases p env with
    ⟨r, -, -, hno, hrun, hr⟩ | ⟨n, name, ready, hname, hrun⟩
  · rcases h.wf'.toTreeOk.openParent_cases p env' with
      ⟨r', -, -, -, hrun', hr'⟩ | ⟨n, name', ready', -, -⟩
    · rw [hrun, hrun', hr, hr', h.openError_eq]
      exact .ok h _
    · exact absurd ⟨n, h.readyIn_iff.mp ready'⟩ hno
  · rcases h.wf'.toTreeOk.openParent_cases p env' with
      ⟨r', -, -, hno', -, -⟩ | ⟨n', name', ready', hname', hrun'⟩
    · exact absurd ⟨n, h.readyIn ready⟩ hno'
    · obtain rfl := Except.ok.inj (ready'.resolved.symm.trans (h.readyIn ready).resolved)
      rw [hrun, hrun']
      exact hrest n' name name' ready hname hname'

include hcaller

theorem Agree.fsCreate (mode : UInt32) :
    Follows (fsCreate env p.bytes mode st) (fsCreate env' p.bytes mode st') := by
  rw [fsCreate_eq, fsCreate_eq]
  refine h.openParent p fun n name name' ready hname hname' => ?_
  rcases h.wf.toTreeOk.createRest_cases ready.live ready.dir p.storable.le hname env mode with
    ⟨-, hrun⟩ | ⟨b, t, hrun, -, hplaced, hfirst⟩
  · rw [hrun]
    exact .fault _ _
  · rcases h.wf'.toTreeOk.createRest_cases (h.readyIn ready).live
      (h.readyIn ready).dir p.storable.le
      hname' env' mode with
      ⟨hempty, -⟩ | ⟨b', t', hrun', -, hplaced', hfirst'⟩
    · have hb := hfirst.mem_block
      rw [h.unmarked] at hempty
      simp [hempty] at hb
    · have hblock := hfirst'.block
      rw [h.unmarked] at hblock
      obtain rfl := hblock.unique hfirst.block
      have hino : newFileInode env' mode = newFileInode env mode := by
        rw [newFileInode, newFileInode, hcaller.time, hcaller.uid, hcaller.gid]
      rw [hino] at hplaced'
      rw [hrun, hrun']
      exact .ok (h.placed hplaced hplaced' hfirst.slot hfirst'.slot ready.absent
        (newObject_file env mode)) 0

theorem Agree.fsMkdir {mode : UInt32} (hmode : TypeAgrees mode sIfdir) :
    Follows (fsMkdir env p.bytes mode st) (fsMkdir env' p.bytes mode st') := by
  rw [fsMkdir_eq, fsMkdir_eq]
  refine h.openParent p fun n name name' ready hname hname' => ?_
  rcases h.wf.toTreeOk.mkdirRest_cases ready.live ready.dir p.storable.le hname env mode with
    ⟨-, hrun⟩ | ⟨b, tb, t, hrun, htb, -, hplaced, hfirst⟩
  · rw [hrun]
    exact .fault _ _
  · have htable := hfirst.table tb rfl
    rcases h.wf'.toTreeOk.mkdirRest_cases (h.readyIn ready).live (h.readyIn ready).dir p.storable.le
      hname' env' mode with
      ⟨hcard, -⟩ | ⟨b', tb', t', hrun', -, -, hplaced', hfirst'⟩
    · have htwo := hfirst.card_erase
      rw [h.unmarked] at hcard
      omega
    · have hblock := hfirst'.block
      have htable' := hfirst'.table tb' rfl
      rw [h.unmarked] at hblock htable'
      obtain rfl := hblock.unique hfirst.block
      obtain rfl := htable'.unique htable
      have hino : newDirInode env' mode tb' = newDirInode env mode tb' := by
        rw [newDirInode, newDirInode, hcaller.time, hcaller.uid, hcaller.gid]
      rw [hino] at hplaced'
      rw [hrun, hrun']
      exact .ok (h.placed hplaced hplaced' hfirst.slot hfirst'.slot ready.absent
        (newObject_dir env (typeAgrees_dir hmode) htb)) 0

end Create

/-! ## `fs_write` -/

/-- File `f` has the same inode in both states, and the same blocks are unmarked. Its blocks may
hold different bytes. -/
structure SameFile (s s' : FsState) (f : Nat) : Prop where
  ok : TreeOk s
  ok' : TreeOk s'
  live : Live s.disk f
  live' : Live s'.disk f
  file : isDirAt s.disk f = false
  inode : inodeAt s'.disk f = inodeAt s.disk f
  unmarked : s'.unmarked = s.unmarked

namespace SameFile
variable {s s' t t' : FsState} {f : Nat} (h : SameFile s s' f)
include h

theorem file' : isDirAt s'.disk f = false := by
  unfold isDirAt
  rw [h.inode]
  exact h.file

theorem marked (x : Nat) : Marked s' x ↔ Marked s x := by
  rw [FsState.marked_iff_notMem, FsState.marked_iff_notMem, h.unmarked]

/-- A range with at most one missing block: both states give it the first unmarked one. -/
theorem grown {off : Nat} {bytes : List UInt8} (hg : Grown s t f off bytes)
    (hg' : Grown s' t' f off bytes)
    (hone : ∀ i ∈ missing (inodeAt s.disk f) off bytes.length,
      ∀ j ∈ missing (inodeAt s.disk f) off bytes.length, i = j) : SameFile t t' f := by
  have hfit' := hg'.fit
  have hcard' := hg'.card
  rw [h.unmarked] at hfit' hcard'
  rw [h.inode] at hcard'
  have hun : t'.unmarked = t.unmarked := hfit'.eq_of_card hg.fit (by have := hg.card; omega)
  suffices hptrs : (inodeAt t'.disk f).ptrs = (inodeAt t.disk f).ptrs by
    exact
      { ok := hg.ok, ok' := hg'.ok, live := hg.step.live_iff.mpr h.live
        live' := hg'.step.live_iff.mpr h.live', file := hg.step.file', unmarked := hun
        inode := by rw [hg'.inode, hptrs, h.inode, ← hg.inode] }
  funext i
  by_cases hi : i ∈ missing (inodeAt s.disk f) off bytes.length
  · -- the block one state has taken is marked afterwards in both
    have hi' : i ∈ missing (inodeAt s'.disk f) off bytes.length := by rwa [h.inode]
    have hmark' := (hg'.marked _).mpr (.inr ⟨i, hi', rfl⟩)
    rw [FsState.marked_iff_notMem, hun, ← FsState.marked_iff_notMem] at hmark'
    rcases (hg.marked _).mp hmark' with hold | ⟨j, hj, hij⟩
    · exact absurd ((h.marked _).mpr hold) (hg'.filled i hi').2
    · rw [hone i hi j hj]
      rw [hone i hi j hj] at hij
      exact UInt32.toNat_inj.mp hij
  · rw [hg.keep i hi, hg'.keep i (by rwa [h.inode]), h.inode]

end SameFile

/-- The loop takes the same blocks in the same order. -/
theorem sameFile_writeLoop {env env' : Env} {f : Nat} (buf : List UInt8) :
    ∀ (k wrote offset : Nat) (s s' t t' : FsState), buf.length - wrote = k → SameFile s s' f →
      offset + (buf.length - wrote) ≤ 1019 * 4096 →
      writeLoop env f buf wrote offset (inodeAt s.disk f) s = .ok t →
      writeLoop env' f buf wrote offset (inodeAt s'.disk f) s' = .ok t' → SameFile t t' f := by
  intro k
  induction k using Nat.strong_induction_on with
  | _ k ih =>
    intro wrote offset s s' t t' hk h hbound hrun hrun'
    by_cases hw : wrote < buf.length
    · have hn := normLen_eq buf.length offset hw.le
      have hpos := normLen_pos offset hw
      have hi : offset / 4096 < 1019 := by omega
      rw [writeLoop_step env f _ s hw hi] at hrun
      rw [writeLoop_step env' f _ s' hw hi] at hrun'
      rcases h.ok.writeBlock_cases h.live h.file env hw (i := ⟨offset / 4096, hi⟩) rfl with
        ⟨-, -, hblock⟩ | ⟨u, hblock, hg⟩
      · rw [hblock, error_bind] at hrun
        exact absurd hrun (by simp)
      · rcases h.ok'.writeBlock_cases h.live' h.file' env' hw (i := ⟨offset / 4096, hi⟩) rfl with
          ⟨-, -, hblock'⟩ | ⟨u', hblock', hg'⟩
        · rw [hblock', error_bind] at hrun'
          exact absurd hrun' (by simp)
        · rw [hblock, ok_bind] at hrun
          rw [hblock', ok_bind] at hrun'
          refine ih (buf.length - (wrote + normLen buf.length wrote offset))
            (by omega) _ _ u u' t t'
            rfl (h.grown hg hg' fun i hi j hj => ?_) (by omega) hrun hrun'
          -- a chunk lies in one block
          have hchunk : ((buf.drop wrote).take (normLen buf.length wrote offset)).length =
              normLen buf.length wrote offset := by
            rw [List.length_take, List.length_drop]
            omega
          rw [hchunk] at hi hj
          have hiv := (touches_block hpos (by omega)).mp (mem_missing.mp hi).2
          have hjv := (touches_block hpos (by omega)).mp (mem_missing.mp hj).2
          exact Fin.ext (hiv.trans hjv.symm)
    · rw [writeLoop_done env f offset _ s (by omega)] at hrun
      rw [writeLoop_done env' f offset _ s' (by omega)] at hrun'
      obtain rfl := Except.ok.inj hrun
      obtain rfl := Except.ok.inj hrun'
      exact h

section Write
variable {st st' : FsState} (h : Agree st st') {env env' : Env} {p : CanonPath} {f off : Nat}
  {buf : List UInt8}
include h

theorem Agree.writable (w : Writable st p f off buf.length) :
    Writable st' p f off buf.length where
  resolved := (h.resolve_root _).trans w.resolved
  file := (h.isDirAt w.live).trans w.file
  inside := by rw [h.inodeAt w.live]; exact w.inside
  fits := by rw [h.inodeAt w.live]; exact w.fits

theorem Agree.sameFile (hcaller : env.SameCaller env') (w : Writable st p f off buf.length) :
    SameFile (startWrite env st f off buf.length) (startWrite env' st' f off buf.length) f := by
  have ok := h.wf.toTreeOk
  have ok' := h.wf'.toTreeOk
  have w' := h.writable w
  have hstep : FileStep st (startWrite env st f off buf.length) f := w.accepts.fileStep_start ok
  have hstep' : FileStep st' (startWrite env' st' f off buf.length) f :=
    w'.accepts.fileStep_start ok'
  exact
    { ok := w.accepts.treeOk_start ok, ok' := w'.accepts.treeOk_start ok'
      live := hstep.live_iff.mpr w.live
      live' := hstep'.live_iff.mpr w'.live, file := hstep.file'
      inode := by
        rw [inodeAt_startWrite, inodeAt_startWrite, h.inodeAt w.live, growInode, growInode,
          hcaller.time]
      unmarked := by rw [unmarked_startWrite, unmarked_startWrite, h.unmarked] }

/-- The same bytes written. What else the new blocks hold lies behind the end of the file. -/
theorem Agree.written {t t' : FsState} (w : Writable st p f off buf.length)
    (hg : Grown (startWrite env st f off buf.length) t f off buf)
    (hg' : Grown (startWrite env' st' f off buf.length) t' f off buf) (hsame : SameFile t t' f) :
    Agree t t' := by
  have ok := h.wf.toTreeOk
  have ok' := h.wf'.toTreeOk
  have w' := h.writable w
  refine h.next (w.wellFormed hg h.wf) (w'.wellFormed hg' h.wf') hg.numBlocks hg'.numBlocks
    hsame.marked fun m hlive => ?_
  have hm := (w.fileStep hg ok).live_iff.mp hlive
  by_cases hmf : m = f
  · subst hmf
    refine sameObject_of_file hsame.inode hsame.file ?_
    rw [w.contents_eq h.wf hg, w'.contents_eq h.wf' hg', (h.objects m hm).contents w.file]
  · exact h.kept hm (fun x hx => w.keep_own ok hm hx hg hmf)
      fun x hx => w'.keep_own ok' (h.live_iff.mpr hm) hx hg' hmf

theorem Agree.fsWrite (hcaller : env.SameCaller env') (hbuf : buf.length < 2 ^ 31) :
    Follows (fsWrite env p.bytes buf off st) (fsWrite env' p.bytes buf off st') := by
  rw [fsWrite_eq, fsWrite_eq]
  refine h.withInode p fun n f i named => ?_
  by_cases w : Writable st p f off buf.length
  · have w' := h.writable w
    rw [w.accepts.writeRest_eq h.wf hbuf env, w'.accepts.writeRest_eq h.wf' hbuf env']
    rcases w.accepts.writeLoop_cases h.wf env with ⟨-, hrun⟩ | ⟨t, hrun, hg⟩
    · rw [hrun, error_bind]
      exact .fault _ _
    · rcases w'.accepts.writeLoop_cases h.wf' env' with ⟨hcard, -⟩ | ⟨t', hrun', hg'⟩
      · have hroom := hg.card
        rw [unmarked_startWrite, inodeAt_startWrite, missing_growInode] at hroom
        rw [h.unmarked, h.inodeAt w.live] at hcard
        omega
      · have hend := hg.bound
        have hsame := sameFile_writeLoop buf _ 0 off _ _ t t' rfl (h.sameFile hcaller w)
          (by omega) hrun hrun'
        rw [hrun, hrun', ok_bind, ok_bind]
        exact .ok (h.written w hg hg' hsame) _
  · have hno : ¬ Accepts st f off buf.length :=
      fun a => w ⟨named.resolve_eq, a.file, a.inside, a.fits⟩
    obtain ⟨r, -, hrun⟩ := h.wf.writeRest_error hbuf named.live_target hno
    rw [h.inodeAt named.live_target, hrun, hrun]
    exact .ok h r

end Write

end SystemsProjects.Fs5600
