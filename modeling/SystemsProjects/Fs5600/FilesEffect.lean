import SystemsProjects.Fs5600.Files

/-!
# What the effects of a call do to the name space

A new entry is a new path, a removed entry is a path less, a renamed entry moves everything below
it, and the other changes are changes of one object.
-/

namespace SystemsProjects.Fs5600
open SystemsProjects.Lib

section Effects
variable {st st' : FsState} (wf : WellFormed st)
include wf

/-! ## New objects -/

section Placed
variable {n b : Nat} {c : List UInt8} {tbl : Option Nat} {ino : Inode}
  (h : Placed st st' n b c tbl ino)
include h

theorem Placed.objAt_old {k : Nat} (hk : Live st.disk k) :
    objAt st'.disk k = objAt st.disk k := by
  by_cases hkn : k = n
  · subst hkn
    exact objAt_dir (h.inodeAt_parent wf.toTreeOk) h.dir
  · exact objAt_of_own (wf.files k hk) fun x hx => h.keep_own wf.toTreeOk hk hx hkn

/-- With a slot left, the object is behind the new path. -/
theorem Placed.fileTree_put {dirs : List (List UInt8)} (hn : resolve st.disk 2 dirs = .ok n)
    (habsent : lookup st.disk n c = none) (hnew : NewObject ino tbl)
    (hroom : ∃ i, (entriesAt st.disk n i).valid = false) :
    fileTree st' = (fileTree st).put (dirs ++ [c]) (objAt st'.disk b) := by
  have ok := wf.toTreeOk
  rcases h.entry with ⟨hfull, -⟩ | ⟨i, e, hslot, hv, hi, hname, htable⟩
  · obtain ⟨i, hi⟩ := hroom
    simp [hfull i] at hi
  · have hlink := h.linkStep ok habsent hnew hslot ⟨hv, hi, hname⟩ htable
    have hes := h.entriesAt_parent ok htable
    refine spaceOf_attach ok.onePath (follow_entryStep.mpr hn) ?_ ?_ ?_ ?_ ?_
    · exact entryStep_none fun _ => habsent
    · have hl : lookup st'.disk n c = some i :=
        lookup_of_name (hlink.dirOk_n ok) (by rw [hes, Function.update_self, hv])
          (by rw [hes, Function.update_self, hname])
      rw [entryStep_of_lookup hlink.isDir_n hl, hes, Function.update_self, hi]
    · exact fun d => entryStep_none fun hdir =>
        lookup_none_of_empty fun j => hlink.entries j hdir
    · intro cs k d hk hedge
      by_cases hkn : k = n
      · subst hkn
        refine entryStep_update h.dir hlink.isDir_n hes (fun hv' => ?_) fun _ => ?_
        · simp [hslot] at hv'
        · rw [hname]
          exact fun he => (hedge rfl).1 (Option.some.inj he).symm
      · exact (h.sameNode ok (resolve_live .root (follow_entryStep.mp hk)) hkn).entryStep
    · exact fun cs k hk => h.objAt_old wf (resolve_live .root (follow_entryStep.mp hk))

/-- Without a slot left, nothing can be seen of it. -/
theorem Placed.fileTree_full (hfull : ∀ i, (entriesAt st.disk n i).valid = true) :
    fileTree st' = fileTree st := by
  have ok := wf.toTreeOk
  refine spaceOf_congr (follow_congr fun cs k d hk => ?_) fun cs k hk => ?_
  · exact (h.sameNode_of_full ok hfull (resolve_live .root (follow_entryStep.mp hk))).entryStep
  · exact h.objAt_old wf (resolve_live .root (follow_entryStep.mp hk))

end Placed

/-! ## Removed objects -/

section Cleared
variable {time : UInt32} {p : CanonPath} {n b : Nat} {i : Fin 128}

/-- The object goes, and the modification time of the directory changes. -/
theorem Cleared.fileTree_remove (h : Cleared st st' time n b i) (named : NamedBy st p n b i)
    (hempty : ∀ j, isDirAt st.disk b = true → (entriesAt st.disk b j).valid = false) :
    fileTree st' = (fileTree st).remove time p := by
  have ok := wf.toTreeOk
  have hunlink := h.unlinkStep ok named hempty
  have hat : follow (entryStep st.disk) 2 p.dirs = some n := follow_entryStep.mpr named.resolved
  have hname := (lookup_eq_some named.slot).2
  have hold : entryStep st.disk n p.last = some b := by
    rw [entryStep_of_lookup named.dir named.slot, named.target]
  have hnew : entryStep st'.disk n p.last = none := by
    refine entryStep_none fun _ => ?_
    cases hl : lookup st'.disk n p.last with
    | none => rfl
    | some j =>
      obtain ⟨hv, hname'⟩ := lookup_eq_some hl
      rw [hunlink.entries'] at hv hname'
      by_cases hji : j = i
      · rw [hji, Function.update_self] at hv
        simp at hv
      · rw [Function.update_of_ne hji] at hv hname'
        exact absurd ((ok.dirs n named.live named.dir).unique j i hv named.valid
          (hname'.trans hname.symm)) hji
  have hleaf : ∀ d, entryStep st.disk b d = none := fun d => entryStep_none fun hdir =>
    lookup_none_of_empty fun j => hempty j hdir
  have hsame : SameEdges (entryStep st.disk) (entryStep st'.disk) 2 n p.last p.last := by
    intro cs k d hk hedge
    by_cases hkn : k = n
    · subst hkn
      refine entryStep_update named.dir hunlink.dir' hunlink.entries' (fun _ => ?_) fun hv => ?_
      · rw [hname]
        exact fun he => (hedge rfl).1 (Option.some.inj he).symm
      · simp at hv
    · exact (hunlink.same k (resolve_live .root (follow_entryStep.mp hk)) hkn).entryStep
  have hone' := OnePath.detach ok.onePath hat hold hnew hleaf hsame
  have hfollow : ∀ ds k, follow (entryStep st'.disk) 2 ds = some k →
      follow (entryStep st.disk) 2 ds = some k :=
    fun ds k hk => ((follow_detach ok.onePath hat hold hnew hleaf hsame).mp hk).1
  have hat' : follow (entryStep st'.disk) 2 p.dirs = some n :=
    (follow_detach ok.onePath hat hold hnew hleaf hsame).mpr ⟨hat, by simp⟩
  have hobj : objAt st'.disk n = { objAt st.disk n with mtime := time } := by
    unfold objAt
    rw [h.inode, hunlink.dir', named.dir]
    rfl
  calc fileTree st'
      = Function.update (spaceOf (entryStep st'.disk) (objAt st.disk) 2) p.dirs
          (some (objAt st'.disk n)) := by
        refine spaceOf_touch hone' hat' (fun _ => rfl) fun ds k hk hkn => ?_
        have hlive : Live st.disk k := resolve_live .root (follow_entryStep.mp (hfollow ds k hk))
        exact objAt_of_own (wf.files k hlive) fun x hx => h.keep_own ok hlive hx named hkn
    _ = (fileTree st).remove time p := by
        rw [spaceOf_detach ok.onePath hat hold hnew hleaf hsame, Files.remove,
          fileTree_ok named.resolved, hobj]
        rfl

end Cleared

/-! ## Renamed entries -/

section Renamed
variable {p q : CanonPath} {n b : Nat} {i j : Fin 128}

theorem Renamed.objAt_eq (h : Renamed st st' n i q.last) {k : Nat} (hk : Live st.disk k) :
    objAt st'.disk k = objAt st.disk k := by
  have ok := wf.toTreeOk
  by_cases hkn : k = n
  · subst hkn
    exact objAt_dir (h.inodeAt_eq ok) h.dir
  · refine objAt_of_own (wf.files k hk) fun x hx => ?_
    obtain ⟨e, -, -, -, rfl⟩ := h.write
    exact Disk.write_ne _ _ (ok.own_ne hk hx h.live hkn (own_table h.dir))

/-- The live entry: everything at and below `p` is at `q` now. -/
theorem Renamed.fileTree_move (h : Renamed st st' n j q.last) (named : NamedBy st p n b j)
    (ready : RenameReady st p q) (hdirs : p.dirs = q.dirs) :
    fileTree st' = (fileTree st).move p.comps q.comps := by
  have ok := wf.toTreeOk
  have named' := h.named_target ok named ready
  obtain ⟨e, -, -, hname, hes⟩ := h.entriesAt_eq ok
  have hne : p.last ≠ q.last := by
    intro he
    exact absurd (named.slot.symm.trans (he ▸ h.absent)) (by simp)
  have hmove : spaceOf (entryStep st'.disk) (objAt st.disk) 2 =
      (spaceOf (entryStep st.disk) (objAt st.disk) 2).move (p.dirs ++ [p.last])
        (p.dirs ++ [q.last]) :=
    spaceOf_move ok.onePath (follow_entryStep.mpr named.resolved) (b := b) ?_ ?_ ?_ ?_
  · unfold CanonPath.comps
    rw [← hdirs]
    refine Eq.trans (spaceOf_congr (fun _ => rfl) fun cs k hk => ?_) hmove
    refine h.objAt_eq wf ?_
    exact (live_of_refs fun m hm => h.refs_eq ok hm).mp
      (resolve_live .root (follow_entryStep.mp hk))
  · rw [entryStep_of_lookup named.dir named.slot, named.target]
  · rw [entryStep_of_lookup named'.dir named'.slot, named'.target]
  · exact entryStep_none fun _ => h.lookup_source ok named
  · intro cs k d hk hedge
    by_cases hkn : k = n
    · subst hkn
      refine entryStep_update named.dir (h.isDirAt_eq ok) hes (fun _ => ?_) fun _ => ?_
      · rw [(lookup_eq_some named.slot).2]
        exact fun he => (hedge rfl).1 (Option.some.inj he).symm
      · rw [hname]
        exact fun he => (hedge rfl).2 (Option.some.inj he).symm
    · exact (h.sameNode ok (resolve_live .root (follow_entryStep.mp hk)) hkn).entryStep

/-- An entry that is not valid: nothing can be seen of it. -/
theorem Renamed.fileTree_stale (h : Renamed st st' n i q.last)
    (hstale : (entriesAt st.disk n i).valid = false) : fileTree st' = fileTree st := by
  have ok := wf.toTreeOk
  obtain ⟨e, hv, -, -, hes⟩ := h.entriesAt_eq ok
  refine spaceOf_congr (follow_congr fun cs k d hk => ?_) fun cs k hk => ?_
  · by_cases hkn : k = n
    · subst hkn
      refine entryStep_update h.dir (h.isDirAt_eq ok) hes (fun hv' => ?_) fun hv' => ?_
      · simp [hstale] at hv'
      · simp [hv, hstale] at hv'
    · exact (h.sameNode ok (resolve_live .root (follow_entryStep.mp hk)) hkn).entryStep
  · exact h.objAt_eq wf (resolve_live .root (follow_entryStep.mp hk))

end Renamed

/-! ## Changed objects -/

section Changed
variable {cs : List (List UInt8)} {b : Nat} (hb : resolve st.disk 2 cs = .ok b)
include hb

/-- A file that keeps its place. -/
theorem FileStep.fileTree_put (h : FileStep st st' b)
    (hkeep : ∀ m, Live st.disk m → m ≠ b → ∀ x, Own st.disk m x →
      st'.disk.data x = st.disk.data x) :
    fileTree st' = (fileTree st).put cs (objAt st'.disk b) := by
  refine spaceOf_touch wf.toTreeOk.onePath (follow_entryStep.mpr hb) (fun ds => ?_)
    fun ds k hk hkb => ?_
  · ext k
    rw [follow_entryStep, follow_entryStep, h.resolve_eq ds 2 .root]
  · have hlive : Live st.disk k := resolve_live .root (follow_entryStep.mp hk)
    exact objAt_of_own (wf.files k hlive) fun x hx => hkeep k hlive hkb x hx

/-- An inode that keeps its type, its size and its pointers. -/
theorem fileTree_write_inode {ino : Inode} (hptrs : ino.ptrs = (inodeAt st.disk b).ptrs)
    (hdir : sIsdir ino.mode = isDirAt st.disk b) (hsize : ino.size = (inodeAt st.disk b).size) :
    fileTree (st.write b (encodeInode ino)) = (fileTree st).put cs
      { objAt st.disk b with
        mode := ino.mode, uid := ino.uid, gid := ino.gid, ctime := ino.ctime,
        mtime := ino.mtime } := by
  have ok := wf.toTreeOk
  have hlive : Live st.disk b := resolve_live .root hb
  have hself : inodeAt (st.write b (encodeInode ino)).disk b = ino := inodeAt_write_self _ _ _
  have hdir' : ∀ m, Live st.disk m →
      isDirAt (st.write b (encodeInode ino)).disk m = isDirAt st.disk m := fun m hm =>
    isDirAt_of_refs (ok.refs_write_inode hlive hptrs hdir hm)
  have hobj : objAt (st.write b (encodeInode ino)).disk b = { objAt st.disk b with
      mode := ino.mode, uid := ino.uid, gid := ino.gid, ctime := ino.ctime,
      mtime := ino.mtime } := by
    unfold objAt
    rw [hdir' b hlive, hself]
    cases hfile : isDirAt st.disk b with
    | true => simp [hsize]
    | false => simp [contents_rewrite wf hlive hfile hptrs hsize, FsState.write_disk]
  rw [← hobj]
  refine spaceOf_touch ok.onePath (follow_entryStep.mpr hb) (follow_congr fun ds k d hk => ?_)
    fun ds k hk hkb => ?_
  · have hk : Live st.disk k := resolve_live .root (follow_entryStep.mp hk)
    exact entryStep_congr (hdir' k hk) fun hkdir => ok.entriesAt_write_inode hlive hptrs hk hkdir
  · have hk : Live st.disk k := resolve_live .root (follow_entryStep.mp hk)
    exact objAt_of_own (wf.files k hk) fun x hx => ok.keep_own_write hk hx hlive _ hkb

end Changed

end Effects

end SystemsProjects.Fs5600
