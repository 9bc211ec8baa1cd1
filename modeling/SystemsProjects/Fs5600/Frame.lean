import SystemsProjects.Fs5600.Invariant

/-!
# What a call leaves alone

Every block in use belongs to one object: to an inode, as the inode itself, as its entry block or
as one of its data blocks. A call writes only to blocks of the object its path names, to blocks of
the parent directory, and to blocks that were not in use.
-/

namespace SystemsProjects.Fs5600
open SystemsProjects.Lib

/-- Block `x` belongs to object `m`. -/
def Own (d : Disk) (m x : Nat) : Prop :=
  x = m ∨ refs d m .table = some x ∨ ∃ i, refs d m (.data i) = some x

/-- The entries of directory `n` as a set of names and inodes. -/
def pairs (d : Disk) (n : Nat) : Set (Option (List UInt8) × Nat) :=
  { q | ∃ i, (entriesAt d n i).valid = true ∧
    q = ((entriesAt d n i).nameOf, (entriesAt d n i).inode.toNat) }

/-- The path of a call that works on one object. -/
def Op.path : Op → Option CanonPath
  | .create p _ | .mkdir p _ | .unlink p | .rmdir p | .write p _ _ | .truncate p _ | .chmod p _
  | .utime p _ => some p
  | _ => none

/-! ## Blocks of an object -/

section Own
variable {d : Disk} {m x : Nat}

theorem Own.inUse (hm : Live d m) (h : Own d m x) : InUse d x := by
  rcases h with rfl | h | ⟨i, h⟩
  · exact hm.owned
  · exact hm.owned_out h
  · exact hm.owned_out h

theorem own_table (h : isDirAt d m = true) : Own d m (tableOf d m) := .inr (.inl (refs_table h))

theorem own_data {i : Fin 1019} (h : isDirAt d m = false) (hp : (inodeAt d m).ptrs i ≠ 0) :
    Own d m ((inodeAt d m).ptrs i).toNat := .inr (.inr ⟨i, refs_data h hp⟩)

/-- Objects do not share blocks. -/
theorem TreeOk.own_inj {st : FsState} (ok : TreeOk st) {m n x : Nat} (hm : Live st.disk m)
    (hn : Live st.disk n) (h : Own st.disk m x) (h' : Own st.disk n x) : m = n := by
  have hmeet : ∀ k, Live st.disk k → Own st.disk k x → x ≠ k →
      ∃ l, (∀ i, l ≠ .slot i) ∧ Meets Label.IsSlot 2 (refs st.disk) (some (k, l)) x := by
    rintro k hk (h | h | ⟨i, h⟩) hne
    · exact absurd h hne
    · exact ⟨.table, by simp, hk, h⟩
    · exact ⟨.data i, by simp, hk, h⟩
  -- an inode is met by the root or through a slot, its other blocks are not
  have hinode : ∀ k k', Live st.disk x → Live st.disk k' → Own st.disk k' x → k = x → k = k' := by
    rintro k k' hx hk' hown rfl
    by_contra hne
    obtain ⟨l, hl, hr⟩ := hmeet k' hk' hown hne
    obtain ⟨r, hr', rfl | ⟨m', i, rfl⟩⟩ := hx.meets
    · simpa using ok.distinct _ _ _ hr hr'
    · have := ok.distinct _ _ _ hr hr'
      simp only [Option.some.injEq, Prod.mk.injEq] at this
      exact hl i this.2
  by_cases hxm : x = m
  · exact hinode m n (hxm ▸ hm) hn h' hxm.symm
  · by_cases hxn : x = n
    · exact (hinode n m (hxn ▸ hn) hm h hxn.symm).symm
    · obtain ⟨l, -, hr⟩ := hmeet m hm h hxm
      obtain ⟨l', -, hr'⟩ := hmeet n hn h' hxn
      have := ok.distinct _ _ _ hr hr'
      simp only [Option.some.injEq, Prod.mk.injEq] at this
      exact this.1

/-- An object all of whose blocks stay is the same object afterwards. -/
theorem sameNode_of_own {d d' : Disk} {m : Nat}
    (h : ∀ x, Own d m x → d'.data x = d.data x) : SameNode d d' m :=
  ⟨h m (.inl rfl), fun hdir => h _ (own_table hdir)⟩

/-- A file all of whose data blocks stay has the same bytes afterwards. -/
theorem contents_of_own {d d' : Disk} {ino : Inode} (hok : FileOk ino)
    (h : ∀ i, ino.ptrs i ≠ 0 → d'.data (ino.ptrs i).toNat = d.data (ino.ptrs i).toNat) :
    contents d' ino = contents d ino := by
  unfold contents
  refine List.map_congr_left fun j hj => ?_
  have hmax := hok.le
  rw [List.mem_range] at hj
  unfold fileByte
  rw [h _ (hok.ptrs _ ?_)]
  simp only [Fin.val_ofNat]
  omega

theorem pairs_of_entries {d d' : Disk} {m : Nat} (h : entriesAt d' m = entriesAt d m) :
    pairs d' m = pairs d m := by
  unfold pairs
  rw [h]

end Own

/-! ## The frame of an effect -/

section Keep
variable {st st' : FsState} (ok : TreeOk st) {m x : Nat} (hm : Live st.disk m)
  (hx : Own st.disk m x)
include ok hm hx

/-- A block of one object is no block of another. -/
theorem TreeOk.own_ne {n : Nat} (hn : Live st.disk n) (hne : m ≠ n) {y : Nat}
    (hy : Own st.disk n y) : x ≠ y := by
  rintro rfl
  exact hne (ok.own_inj hm hn hx hy)

theorem Placed.keep_own {n b : Nat} {c : List UInt8} {tbl : Option Nat} {ino : Inode}
    (h : Placed st st' n b c tbl ino) (hne : m ≠ n) : st'.disk.data x = st.disk.data x :=
  h.keep ok (hx.inUse hm) (ok.own_ne hm hx h.live hne (own_table h.dir))

theorem Cleared.keep_own {time : UInt32} {p : CanonPath} {n b : Nat} {i : Fin 128}
    (h : Cleared st st' time n b i) (named : NamedBy st p n b i) (hne : m ≠ n) :
    st'.disk.data x = st.disk.data x :=
  h.frame x (ok.own_ne hm hx named.live hne (.inl rfl))
    (ok.own_ne hm hx named.live hne (own_table named.dir))

theorem Writable.keep_own {env : Env} {p : CanonPath} {f off : Nat} {buf : List UInt8}
    (w : Writable st p f off buf.length)
    (h : Grown (startWrite env st f off buf.length) st' f off buf) (hne : m ≠ f) :
    st'.disk.data x = st.disk.data x := by
  have hxf := ok.own_ne hm hx w.live hne (.inl rfl)
  rw [h.frame x hxf fun i hi => ?_, startWrite, FsState.write_disk, Disk.write_ne _ _ hxf]
  by_cases hold : (inodeAt st.disk f).ptrs i = 0
  · -- a pointer that was missing leads to a block that was not in use
    rintro rfl
    exact h.unmarked_start (mem_missing.mpr ⟨hold, hi⟩) (ok.used _ (hx.inUse hm)).2.2.1
  · rw [h.ptr_keep_start hold]
    exact ok.own_ne hm hx w.live hne (own_data w.file hold)

theorem Emptied.keep_own {f : Nat} (h : Emptied st st' f) (hne : m ≠ f) :
    st'.disk.data x = st.disk.data x :=
  h.frame x (ok.own_ne hm hx h.live hne (.inl rfl))

theorem TreeOk.keep_own_write {n : Nat} (hn : Live st.disk n) (b : Block) (hne : m ≠ n) :
    (st.write n b).disk.data x = st.disk.data x :=
  Disk.write_ne _ _ (ok.own_ne hm hx hn hne (.inl rfl))

end Keep

section Effect
variable {env : Env} {st st' : FsState} {op : Op} {p : CanonPath}

/-- No block of an object changes that is neither named by the path nor its directory. -/
theorem Effect.frame (h : Effect env st op st') (ok : TreeOk st) (hp : op.path = some p)
    {m : Nat} (hm : Live st.disk m) (hnamed : resolve st.disk 2 p.comps ≠ .ok m)
    (hparent : resolve st.disk 2 p.dirs ≠ .ok m) {x : Nat} (hx : Own st.disk m x) :
    st'.disk.data x = st.disk.data x := by
  cases h with
  | create ready _ hplaced =>
    obtain rfl := Option.some.inj hp
    exact hplaced.keep_own ok hm hx fun h => hparent (h ▸ ready.resolved)
  | mkdir ready _ _ hplaced =>
    obtain rfl := Option.some.inj hp
    exact hplaced.keep_own ok hm hx fun h => hparent (h ▸ ready.resolved)
  | unlink named _ hclear =>
    obtain rfl := Option.some.inj hp
    exact hclear.keep_own ok hm hx named fun h => hparent (h ▸ named.resolved)
  | rmdir named _ _ hclear =>
    obtain rfl := Option.some.inj hp
    exact hclear.keep_own ok hm hx named fun h => hparent (h ▸ named.resolved)
  | rename => simp [Op.path] at hp
  | write w hgrown =>
    obtain rfl := Option.some.inj hp
    exact w.keep_own ok hm hx hgrown fun h => hnamed (h ▸ w.resolved)
  | truncate named hempty =>
    obtain rfl := Option.some.inj hp
    exact hempty.keep_own ok hm hx fun h => hnamed (h ▸ named.resolve_eq)
  | chmod named =>
    obtain rfl := Option.some.inj hp
    exact ok.keep_own_write hm hx named.live_target _ fun h => hnamed (h ▸ named.resolve_eq)
  | utime named =>
    obtain rfl := Option.some.inj hp
    exact ok.keep_own_write hm hx named.live_target _ fun h => hnamed (h ▸ named.resolve_eq)

end Effect

/-! ## The entries of the parent directory -/

/-- `S'` is `S`, or `S` with the pair `e` more or less. -/
def OneMoreOrLess {α : Type} (S S' : Set α) (e : α) : Prop :=
  S' = S ∨ S' = insert e S ∨ S' = S \ {e}

theorem pairs_insert {d d' : Disk} {n : Nat} {i : Fin 128} {e : Dirent}
    (hfree : (entriesAt d n i).valid = false) (hv : e.valid = true)
    (hes : entriesAt d' n = Function.update (entriesAt d n) i e) :
    pairs d' n = insert (e.nameOf, e.inode.toNat) (pairs d n) := by
  ext q
  simp only [pairs, hes, Set.mem_ofPred_eq, Set.mem_insert_iff]
  constructor
  · rintro ⟨j, hj, rfl⟩
    by_cases hji : j = i
    · subst hji
      exact .inl (by rw [Function.update_self])
    · rw [Function.update_of_ne hji] at hj ⊢
      exact .inr ⟨j, hj, rfl⟩
  · rintro (rfl | ⟨j, hj, rfl⟩)
    · exact ⟨i, by rw [Function.update_self]; exact ⟨hv, rfl⟩⟩
    · have hji : j ≠ i := by
        rintro rfl
        simp [hfree] at hj
      exact ⟨j, by rw [Function.update_of_ne hji]; exact ⟨hj, rfl⟩⟩

theorem pairs_remove {d d' : Disk} {n : Nat} {i : Fin 128} (hok : DirOk (entriesAt d n))
    (hv : (entriesAt d n i).valid = true)
    (hes : entriesAt d' n =
      Function.update (entriesAt d n) i { entriesAt d n i with valid := false }) :
    pairs d' n =
      pairs d n \ {((entriesAt d n i).nameOf, (entriesAt d n i).inode.toNat)} := by
  ext q
  simp only [pairs, hes, Set.mem_ofPred_eq, Set.mem_sdiff, Set.mem_singleton_iff]
  constructor
  · rintro ⟨j, hj, rfl⟩
    by_cases hji : j = i
    · subst hji
      simp at hj
    · rw [Function.update_of_ne hji] at hj ⊢
      refine ⟨⟨j, hj, rfl⟩, fun heq => hji ?_⟩
      exact hok.unique j i hj hv (Prod.mk.inj heq).1
  · rintro ⟨⟨j, hj, rfl⟩, hne⟩
    have hji : j ≠ i := by
      rintro rfl
      exact hne rfl
    exact ⟨j, by rw [Function.update_of_ne hji]; exact ⟨hj, rfl⟩⟩

theorem Placed.pairs_parent {st st' : FsState} {n b : Nat} {c : List UInt8} {tbl : Option Nat}
    {ino : Inode} (h : Placed st st' n b c tbl ino) (ok : TreeOk st) :
    OneMoreOrLess (pairs st.disk n) (pairs st'.disk n) (some c, b) := by
  have hes : entriesAt st'.disk n = decodeDirents (st'.disk.data (tableOf st.disk n)) := by
    unfold entriesAt
    rw [h.tableOf_parent ok]
  rcases h.entry with ⟨-, htable⟩ | ⟨i, e, hfree, hv, hino, hname, htable⟩
  · exact .inl (pairs_of_entries (by rw [hes, htable]; rfl))
  · rw [htable, decodeDirents_encodeDirents] at hes
    have hpairs := pairs_insert hfree hv hes
    rw [hname, hino] at hpairs
    exact .inr (.inl hpairs)

theorem Cleared.pairs_parent {st st' : FsState} {time : UInt32} {p : CanonPath} {n b : Nat}
    {i : Fin 128} (h : Cleared st st' time n b i) (ok : TreeOk st) (named : NamedBy st p n b i) :
    OneMoreOrLess (pairs st.disk n) (pairs st'.disk n) (some p.last, b) := by
  have htable : tableOf st'.disk n = tableOf st.disk n := by unfold tableOf; rw [h.inode]
  have hes : entriesAt st'.disk n = decodeDirents (st'.disk.data (tableOf st.disk n)) := by
    unfold entriesAt
    rw [htable]
  rw [h.table, decodeDirents_encodeDirents] at hes
  have hpairs := pairs_remove (ok.dirs n named.live named.dir) named.valid hes
  rw [(lookup_eq_some named.slot).2, named.target] at hpairs
  exact .inr (.inr hpairs)

/-- A change to a file leaves every directory alone. -/
theorem FileStep.pairs_dir {st st' : FsState} {f n : Nat} (h : FileStep st st' f)
    (hn : Live st.disk n) (hdir : isDirAt st.disk n = true)
    {e : Option (List UInt8) × Nat} :
    OneMoreOrLess (pairs st.disk n) (pairs st'.disk n) e := by
  have hne : n ≠ f := by
    rintro rfl
    rw [h.file] at hdir
    exact absurd hdir (by simp)
  exact .inl (pairs_of_entries ((h.same n hn hne).entriesAt hdir))

/-- A call has an effect only if the parent of its path is a directory. -/
theorem Effect.parent {env : Env} {st st' : FsState} {op : Op} {p : CanonPath}
    (h : Effect env st op st') (hp : op.path = some p) :
    ∃ n, resolve st.disk 2 p.dirs = .ok n ∧ isDirAt st.disk n = true := by
  cases h with
  | create ready => obtain rfl := Option.some.inj hp; exact ⟨_, ready.resolved, ready.dir⟩
  | mkdir ready => obtain rfl := Option.some.inj hp; exact ⟨_, ready.resolved, ready.dir⟩
  | unlink named => obtain rfl := Option.some.inj hp; exact ⟨_, named.resolved, named.dir⟩
  | rmdir named => obtain rfl := Option.some.inj hp; exact ⟨_, named.resolved, named.dir⟩
  | rename => simp [Op.path] at hp
  | write w =>
    obtain rfl := Option.some.inj hp
    obtain ⟨n, i, named⟩ := CanonPath.namedBy _ w.resolved
    exact ⟨n, named.resolved, named.dir⟩
  | truncate named => obtain rfl := Option.some.inj hp; exact ⟨_, named.resolved, named.dir⟩
  | chmod named => obtain rfl := Option.some.inj hp; exact ⟨_, named.resolved, named.dir⟩
  | utime named => obtain rfl := Option.some.inj hp; exact ⟨_, named.resolved, named.dir⟩

/-- In the parent directory at most the entry with the last component comes or goes. -/
theorem Effect.pairs_parent {env : Env} {st st' : FsState} {op : Op} {p : CanonPath}
    (h : Effect env st op st') (ok : TreeOk st) (hp : op.path = some p) {n : Nat}
    (hn : resolve st.disk 2 p.dirs = .ok n) (hdir : isDirAt st.disk n = true) :
    ∃ b, OneMoreOrLess (pairs st.disk n) (pairs st'.disk n) (some p.last, b) := by
  have hlive : Live st.disk n := resolve_live .root hn
  have honly : ∀ n', resolve st.disk 2 p.dirs = .ok n' → n' = n := fun n' hn' =>
    Except.ok.inj (hn'.symm.trans hn)
  cases h with
  | create ready _ hplaced =>
    obtain rfl := Option.some.inj hp
    obtain rfl := honly _ ready.resolved
    exact ⟨_, hplaced.pairs_parent ok⟩
  | mkdir ready _ _ hplaced =>
    obtain rfl := Option.some.inj hp
    obtain rfl := honly _ ready.resolved
    exact ⟨_, hplaced.pairs_parent ok⟩
  | unlink named _ hclear =>
    obtain rfl := Option.some.inj hp
    obtain rfl := honly _ named.resolved
    exact ⟨_, hclear.pairs_parent ok named⟩
  | rmdir named _ _ hclear =>
    obtain rfl := Option.some.inj hp
    obtain rfl := honly _ named.resolved
    exact ⟨_, hclear.pairs_parent ok named⟩
  | rename => simp [Op.path] at hp
  | write w hgrown => exact ⟨0, (w.fileStep hgrown ok).pairs_dir hlive hdir⟩
  | truncate named hempty => exact ⟨0, (hempty.fileStep ok).pairs_dir hlive hdir⟩
  | @chmod p' mode n' b i named =>
    have hptrs : (chmodInode mode (inodeAt st.disk b)).ptrs = (inodeAt st.disk b).ptrs := rfl
    exact ⟨0, .inl (pairs_of_entries
      (ok.entriesAt_write_inode named.live_target hptrs hlive hdir))⟩
  | @utime p' ut n' b i named =>
    have hptrs : (utimeInode env ut (inodeAt st.disk b)).ptrs = (inodeAt st.disk b).ptrs := rfl
    exact ⟨0, .inl (pairs_of_entries
      (ok.entriesAt_write_inode named.live_target hptrs hlive hdir))⟩

/-! ## The frame of a call -/

/-- A call on the path `p` leaves every file alone but the one it names, every directory but the
one it names and its parent, and all entries of the parent but the last component's. -/
theorem exec_frame {st st' : FsState} (wf : WellFormed st) (env : Env) (op : Op) (hop : op.Sized)
    {p : CanonPath} (hp : op.path = some p) {r : Int} (h : exec env st op.call = .ok (r, st')) :
    (∀ m, Live st.disk m → isDirAt st.disk m = false → resolve st.disk 2 p.comps ≠ .ok m →
      inodeAt st'.disk m = inodeAt st.disk m ∧
        contents st'.disk (inodeAt st'.disk m) = contents st.disk (inodeAt st.disk m)) ∧
    (∀ m, Live st.disk m → isDirAt st.disk m = true → resolve st.disk 2 p.comps ≠ .ok m →
      resolve st.disk 2 p.dirs ≠ .ok m →
      inodeAt st'.disk m = inodeAt st.disk m ∧ pairs st'.disk m = pairs st.disk m) ∧
    ∀ n, resolve st.disk 2 p.dirs = .ok n → isDirAt st.disk n = true →
      ∃ b, OneMoreOrLess (pairs st.disk n) (pairs st'.disk n) (some p.last, b) := by
  have ok := wf.toTreeOk
  rcases wf.exec_ok hop h with ⟨rfl, -⟩ | ⟨-, heff⟩
  · exact ⟨fun _ _ _ _ => ⟨rfl, rfl⟩, fun _ _ _ _ _ => ⟨rfl, rfl⟩, fun _ _ _ => ⟨0, .inl rfl⟩⟩
  · refine ⟨fun m hm hfile hnamed => ?_, fun m hm hdir hnamed hparent => ?_,
      fun n hn hdir => heff.pairs_parent ok hp hn hdir⟩
    · have hparent : resolve st.disk 2 p.dirs ≠ .ok m := by
        intro hres
        obtain ⟨n, hn, hdir⟩ := heff.parent hp
        obtain rfl := Except.ok.inj (hn.symm.trans hres)
        simp [hfile] at hdir
      have hkeep := fun x hx => heff.frame ok hp hm hnamed hparent (x := x) hx
      have hino := (sameNode_of_own hkeep).inodeAt
      refine ⟨hino, ?_⟩
      rw [hino]
      exact contents_of_own (wf.files m hm hfile) fun i hi => hkeep _ (own_data hfile hi)
    · have hs := sameNode_of_own fun x hx => heff.frame ok hp hm hnamed hparent hx
      exact ⟨hs.inodeAt, pairs_of_entries (hs.entriesAt hdir)⟩

/-- Creating `/b` leaves the file `/a` alone, and adds at most its entry to the root directory. -/
theorem exec_frame_create : ∃ st' b,
    exec quietEnv (oneFile 399) (Op.create pathB 0o644).call = .ok (0, st') ∧
      inodeAt st'.disk 3 = newFileInode quietEnv 0o644 ∧
      OneMoreOrLess (pairs (oneFile 399).disk 2) (pairs st'.disk 2) (some pathB.last, b) := by
  have wf : WellFormed (oneFile 399) := oneFile_wellFormed (by omega) (by omega)
  obtain ⟨_, st', hrun, -⟩ :=
    oneFile_readyIn.fsCreate_ok wf.toTreeOk quietEnv 0o644 ⟨4, oneFile_free⟩
  obtain ⟨hfiles, -, hparent⟩ := exec_frame wf quietEnv (.create pathB 0o644) trivial rfl hrun
  have hlive : Live (oneFile 399).disk 3 :=
    resolve_live .root (oneFile_resolve (by omega) (by omega))
  have hnone : resolve (oneFile 399).disk 2 pathB.comps ≠ .ok 3 := by
    intro hres
    obtain ⟨n, i, named⟩ := pathB.namedBy hres
    obtain rfl := Except.ok.inj named.resolved
    exact absurd (named.slot.symm.trans oneFile_readyIn.absent) (Option.some_ne_none i)
  obtain ⟨hino, -⟩ := hfiles 3 hlive (oneFile_isDir (by omega) (by omega)) hnone
  obtain ⟨b, hb⟩ := hparent 2 rfl (oneFile_isDir_root (by omega) (by omega))
  exact ⟨st', b, hrun, hino.trans (oneFile_inode (by omega) (by omega)), hb⟩

end SystemsProjects.Fs5600
