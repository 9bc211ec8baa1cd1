import SystemsProjects.Fs5600.Depth

/-!
# Listing and lookup

`fs_readdir` and `get_dirent_index` scan the entries of a directory independently of each other.
On an image in order they see the same names: what `fs_readdir` passes to `filler` is what
`path_to_inum` and `fs_getattr` say about the paths one level down.
-/

namespace SystemsProjects.Fs5600
open SystemsProjects.Lib

/-- Every valid entry has a name of 1 to 26 bytes without a slash. -/
def ShortNames (st : FsState) : Prop :=
  ∀ n i c, Live st.disk n → isDirAt st.disk n = true → (entriesAt st.disk n i).valid = true →
    (entriesAt st.disk n i).nameOf = some c → Component c

/-- The call of `filler` for slot `i` of directory `n`. -/
def fillerCall (d : Disk) (n : Nat) (i : Fin 128) : (Fin 28 → UInt8) × Stat :=
  ((entriesAt d n i).name, inodeToStat (inodeAt d (entriesAt d n i).inode.toNat)
    (UInt32.ofNat (entriesAt d n i).inode.toNat))

section Listing
variable {st : FsState} (ok : TreeOk st) {n : Nat} (hn : Live st.disk n)
  (hdir : isDirAt st.disk n = true)
include ok hn hdir

/-- The loop of `fs_readdir` over the slots that are left. -/
theorem TreeOk.fillEntries_eq (env : Env) (is : List (Fin 128)) :
    fillEntries env st (entriesAt st.disk n) is =
      (is.filter fun i => (entriesAt st.disk n i).valid).map (fillerCall st.disk n) := by
  induction is with
  | nil => rfl
  | cons i is ih =>
    cases hv : (entriesAt st.disk n i).valid with
    | false => simp only [fillEntries, hv, Bool.not_false, if_true, ih, List.filter_cons,
        Bool.false_eq_true, if_false]
    | true =>
      have hlive := hn.slot_live hdir hv
      have hlt := ok.lt hlive.owned
      have hnum : (UInt32.ofNat (entriesAt st.disk n i).inode.toNat).toNat =
          (entriesAt st.disk n i).inode.toNat := by
        rw [UInt32.toNat_ofNat']
        omega
      have hread := ok.get_inUse hlive.owned (env.junk [2, i.val])
      simp only [fillEntries, hv, Bool.not_true, Bool.false_eq_true, if_false,
        asInt_of_lt (hnum ▸ (by omega : (entriesAt st.disk n i).inode.toNat < 2 ^ 31)), hnum, hread,
        ih, List.filter_cons, if_true, List.map_cons]
      rfl

/-- `fs_readdir` on a directory. -/
theorem TreeOk.fsReaddir_eq (env : Env) {path : List UInt8}
    (hpath : pathToInum (env.call 0) st.disk path = .ok n) :
    fsReaddir env path st = .ok (0, ((List.finRange 128).filter fun i =>
      (entriesAt st.disk n i).valid).map (fillerCall st.disk n)) := by
  have hread : st.get (env.junk [0]) n = st.disk.data n := ok.get_inUse hn.owned _
  have hmode : sIsdir (decodeInode (st.disk.data n)).mode = true := hdir
  have hents : decodeDirents (st.get (env.junk [1]) (asInt ((inodeAt st.disk n).ptrs 0))) =
      entriesAt st.disk n := by
    rw [ok.asInt_table hn hdir, ok.get_entries hn hdir]
  unfold inodeAt at hents
  simp only [fsReaddir, hpath, ok_bind, hread, hmode, hents, ok.fillEntries_eq hn hdir,
    Bool.not_true, Bool.false_eq_true, if_false]
  rw [if_neg (by omega)]

end Listing

/-- The name and the inode number of a call of `filler`. -/
theorem mem_calls {d : Disk} {n : Nat} {x : (Fin 28 → UInt8) × Stat} :
    x ∈ ((List.finRange 128).filter fun i => (entriesAt d n i).valid).map (fillerCall d n) ↔
      ∃ i, (entriesAt d n i).valid = true ∧ fillerCall d n i = x := by
  simp

theorem fillerCall_name (d : Disk) (n : Nat) (i : Fin 128) :
    cstr (bytesFrom (fillerCall d n i).1 0) = (entriesAt d n i).nameOf := rfl

theorem fillerCall_ino (d : Disk) (n : Nat) (i : Fin 128) :
    (fillerCall d n i).2.ino.toNat = (entriesAt d n i).inode.toNat := by
  have := (entriesAt d n i).inode.isLt
  show (UInt32.ofNat (entriesAt d n i).inode.toNat).toNat = _
  rw [UInt32.toNat_ofNat']
  omega

/-- `fs_readdir` calls `filler` once for each valid entry, in slot order; the names and inode
numbers it reports are those `path_to_inum` finds below the directory, and the attributes those of
`fs_getattr`. The path of the root is `/`. -/
theorem fsReaddir_agrees {st : FsState} (wf : WellFormed st) (hnames : ShortNames st) (env : Env)
    {dirs : List (List UInt8)} (hdirs : ∀ c ∈ dirs, Component c) (hlen : dirs.length ≤ 9) {n : Nat}
    (hn : resolve st.disk 2 dirs = .ok n) (hdir : isDirAt st.disk n = true) :
    ∃ calls, fsReaddir env (parentBytes dirs) st = .ok (0, calls) ∧
      calls = ((List.finRange 128).filter fun i => (entriesAt st.disk n i).valid).map
        (fillerCall st.disk n) ∧
      (∀ env' c, FileName c → ∀ k : Nat,
        (∃ x ∈ calls, cstr (bytesFrom x.1 0) = some c ∧ x.2.ino.toNat = k) ↔
          pathToInum env' st.disk (render (dirs ++ [c])) = .ok k) ∧
      ∀ env', ∀ x ∈ calls, ∀ c, cstr (bytesFrom x.1 0) = some c →
        fsGetattr env' (render (dirs ++ [c])) st = .ok (0, some x.2) := by
  have ok := wf.toTreeOk
  have hlive : Live st.disk n := resolve_live .root hn
  have hpath := fun env => ok.pathToInum_parentBytes env hdirs (by omega)
  simp only [hn, codeOf] at hpath
  -- a valid entry is found under its name
  have hfound : ∀ env' i c, (entriesAt st.disk n i).valid = true →
      (entriesAt st.disk n i).nameOf = some c →
      pathToInum env' st.disk (render (dirs ++ [c])) =
        .ok ((entriesAt st.disk n i).inode.toNat : Int) := by
    intro env' i c hv hname
    have hc := hnames n i c hlive hdir hv hname
    have hle := hc.le
    rw [ok.pathToInum_last env' hdirs hc.fileName hlen, if_pos (by omega), resolve_append, hn]
    simp only [resolve, hdir, lookup_of_name (ok.dirs n hlive hdir) hv hname, Bool.not_true,
      Bool.false_eq_true, if_false, codeOf]
  refine ⟨_, ok.fsReaddir_eq hlive hdir env (hpath _), rfl, fun env' c hc k => ⟨?_, ?_⟩, ?_⟩
  · rintro ⟨x, hx, hname, rfl⟩
    obtain ⟨i, hv, rfl⟩ := mem_calls.mp hx
    rw [hfound env' i c hv hname, fillerCall_ino]
  · intro hk
    rw [ok.pathToInum_last env' hdirs hc hlen] at hk
    split at hk
    · obtain ⟨m, i, hm, -, hl, htarget⟩ := resolve_concat (codeOf_eq_natCast (Except.ok.inj hk))
      obtain rfl := Except.ok.inj (hm.symm.trans hn)
      obtain ⟨hv, hname⟩ := lookup_eq_some hl
      exact ⟨_, mem_calls.mpr ⟨i, hv, rfl⟩, hname, by rw [fillerCall_ino, htarget]⟩
    · simp at hk
  · intro env' x hx c hname
    obtain ⟨i, hv, rfl⟩ := mem_calls.mp hx
    have hread := ok.get_inUse (hlive.slot_live hdir hv).owned (env'.junk [0])
    simp only [fsGetattr, hfound (env'.call 0) i c hv hname, ok_bind, hread]
    have hnum : UInt32.ofInt (entriesAt st.disk n i).inode.toNat =
        UInt32.ofNat (entriesAt st.disk n i).inode.toNat := by
      have hlt := ok.lt (hlive.slot_live hdir hv).owned
      apply UInt32.toNat_inj.mp
      rw [toNat_ofInt (by omega), UInt32.toNat_ofNat', Nat.mod_eq_of_lt (by omega)]
    rw [if_neg (by omega), hnum]
    rfl

theorem oneFile_valid {i : Fin 128} (h : (entriesAt (oneFile 399).disk 2 i).valid = true) :
    i = 0 := by
  by_contra hi
  rw [oneFile_entries (by omega) (by omega), Function.update_of_ne hi] at h
  exact absurd h (by decide)

theorem oneFile_shortNames : ShortNames (oneFile 399) := by
  intro n i c hn hdir hv hname
  have hplaced : Placed (emptyState 399) (oneFile 399) 2 3 pathA.last none _ :=
    oneFile_placed (by omega) (by omega)
  have ok : TreeOk (emptyState 399) := (emptyState_wellFormed (by omega) (by omega)).toTreeOk
  have hready : ReadyIn (emptyState 399) pathA 2 := emptyState_readyIn (by omega) (by omega)
  have hroot : n = 2 := by
    rcases hplaced.entry with ⟨hfull, -⟩ | ⟨j, e, hslot, hev, hei, hen, htable⟩
    · have h0 := hfull 0
      rw [show (emptyState 399).disk = emptyDisk 399 from rfl,
        emptyDisk_entries (by omega) (by omega)] at h0
      exact absurd h0 (by decide)
    · have hlink := hplaced.linkStep ok hready.absent (newObject_file quietEnv _) hslot
        ⟨hev, hei, hen⟩ htable
      rcases hlink.live_iff.mp hn with hold | rfl
      · exact emptyDisk_live (by omega) (by omega) hold
      · rw [oneFile_isDir (by omega) (by omega)] at hdir
        exact absurd hdir (by simp)
  subst hroot
  obtain rfl := oneFile_valid hv
  rw [oneFile_entries (by omega) (by omega), Function.update_self, entryA_nameOf] at hname
  exact Option.some.inj hname ▸ pathA.last_component

/-- `fs_readdir ("/")` with one file reports `a` and nothing else. -/
theorem fsReaddir_oneFile : ∃ stat, stat.ino = 3 ∧
    fsReaddir quietEnv [slash] (oneFile 399) = .ok (0, [(entryA.name, stat)]) ∧
    fsGetattr quietEnv pathA.bytes (oneFile 399) = .ok (0, some stat) := by
  have wf : WellFormed (oneFile 399) := oneFile_wellFormed (by omega) (by omega)
  have hes := @oneFile_entries 399 (by omega) (by omega)
  have hnone : ∀ c ∈ ([] : List (List UInt8)), Component c := by simp
  obtain ⟨calls, hrun, hcalls, -, hattr⟩ := fsReaddir_agrees wf oneFile_shortNames quietEnv hnone
    (by simp) rfl wf.root
  have hone :
      (List.finRange 128).filter (fun i => (entriesAt (oneFile 399).disk 2 i).valid) = [0] := by
    rw [hes]
    decide
  rw [hone, List.map_singleton] at hcalls
  subst hcalls
  refine ⟨(fillerCall (oneFile 399).disk 2 0).2, ?_, ?_, ?_⟩
  · show UInt32.ofNat (entriesAt (oneFile 399).disk 2 0).inode.toNat = 3
    rw [hes, Function.update_self]
    rfl
  · refine hrun.trans ?_
    rw [fillerCall, hes, Function.update_self]
  · refine hattr quietEnv _ (by simp) pathA.last ?_
    rw [fillerCall_name, hes, Function.update_self]
    exact entryA_nameOf

end SystemsProjects.Fs5600
