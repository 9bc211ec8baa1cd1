import SystemsProjects.Fs5600.Entries

/-!
# Names of 27 bytes

The name of a directory entry has room for 27 bytes and a terminator, and `get_last_filename`
refuses longer ones only. But it hands 27 bytes to its callers, so that a name of exactly that
length arrives without a terminator: `fs_create` and `fs_mkdir` depend on the next byte of their
array of 28, `fs_unlink` and `fs_rmdir` read behind their array of 27.
-/

namespace SystemsProjects.Fs5600
open SystemsProjects.Lib

/-! ## The life of a name -/

/-- Slot `i` of directory `n` was free and holds the name now, for block `b`, which was not marked.
The path leads there. -/
structure NewEntry (st st' : FsState) (dirs : List (List UInt8)) (name : List UInt8) (n b : Nat)
    (i : Fin 128) : Prop where
  free : (entriesAt st.disk n i).valid = false
  fresh : ¬ Marked st b
  valid : (entriesAt st'.disk n i).valid = true
  named : (entriesAt st'.disk n i).nameOf = some name
  target : (entriesAt st'.disk n i).inode.toNat = b
  path : ∀ env, pathToInum env st'.disk (render (dirs ++ [name])) = .ok b

/-- Slot `i` is no longer valid, and nothing else has changed among the entries of `n`. -/
def SlotCleared (d d' : Disk) (n : Nat) (i : Fin 128) : Prop :=
  entriesAt d' n = Function.update (entriesAt d n) i { entriesAt d n i with valid := false }

/-- A file that was made under the name can be unlinked. -/
def FileLife (st : FsState) (dirs : List (List UInt8)) (name : List UInt8) (n : Nat) : Prop :=
  ∀ env mode st₁, fsCreate env (render (dirs ++ [name])) mode st = .ok (0, st₁) →
    ∃ b i, NewEntry st st₁ dirs name n b i ∧
      ∀ env₂, ∃ st₂, fsUnlink env₂ (render (dirs ++ [name])) st₁ = .ok (0, st₂) ∧
        SlotCleared st₁.disk st₂.disk n i

/-- A directory that was made under the name can be used: a file is made in it and removed, and
then the directory. -/
def DirLife (st : FsState) (dirs : List (List UInt8)) (name : List UInt8) (n : Nat) : Prop :=
  ∀ env mode st₁, TypeAgrees mode sIfdir →
    fsMkdir env (render (dirs ++ [name])) mode st = .ok (0, st₁) →
    ∃ b i, NewEntry st st₁ dirs name n b i ∧
      ∀ child, Component child → ∀ env₂ mode₂, ∃ (st₂ : FsState) (f : Nat),
        fsCreate env₂ (render (dirs ++ [name] ++ [child])) mode₂ st₁ = .ok (0, st₂) ∧
        ¬ Marked st₁ f ∧
        (∀ env', pathToInum env' st₂.disk (render (dirs ++ [name] ++ [child])) = .ok f) ∧
        ∀ env₃, ∃ st₃, fsUnlink env₃ (render (dirs ++ [name] ++ [child])) st₂ = .ok (0, st₃) ∧
          ∀ env₄, ∃ st₄, fsRmdir env₄ (render (dirs ++ [name])) st₃ = .ok (0, st₄) ∧
            SlotCleared st₁.disk st₄.disk n i

/-- Both lives of a name in the directory `n`. -/
structure NameLife (st : FsState) (dirs : List (List UInt8)) (name : List UInt8) (n : Nat) :
    Prop where
  file : FileLife st dirs name n
  dir : DirLife st dirs name n

/-! ## A name without its terminator -/

/-- The scan for a name without a terminator ends at the entry of that name, behind the array. -/
theorem direntIndexFrom_unterminated {es : Fin 128 → Dirent} {filename : List UInt8}
    (hnul : 0 ∉ filename) {i : Fin 128} (hv : (es i).valid = true)
    (hpre : filename <+: bytesFrom (es i).name 0) :
    ∀ is : List (Fin 128), i ∈ is → direntIndexFrom es filename is = .error .outOfBounds := by
  intro is
  induction is with
  | nil => intro hi; simp at hi
  | cons j is ih =>
    intro hi
    unfold direntIndexFrom
    split
    · cases hcmp : strcmpEq (bytesFrom (es j).name 0) filename with
      | none => rfl
      | some eq =>
        cases eq with
        | true => exact absurd hcmp (strcmpEq_ne_true hnul)
        | false =>
          have hij : i ≠ j := by
            rintro rfl
            rw [strcmpEq_unterminated hpre hnul] at hcmp
            simp at hcmp
          simp only [orFault, ok_bind, Bool.false_eq_true, if_false]
          exact ih ((List.mem_cons.mp hi).resolve_left hij)
    · rename_i hinvalid
      have hij : i ≠ j := by
        rintro rfl
        exact hinvalid hv
      exact ih ((List.mem_cons.mp hi).resolve_left hij)

/-- 27 bytes fill the array of `fs_unlink`. -/
theorem Stored.bytesFrom_eq {name : List UInt8} {buf : Fin 27 → UInt8} (h : Stored name buf)
    (hlen : name.length = 27) : bytesFrom buf 0 = name := by
  refine List.ext_getElem? fun k => ?_
  rw [bytesFrom_getElem?]
  split
  · rename_i hk
    have hget : name[k]? = some (name.get ⟨k, by omega⟩) := List.getElem?_eq_getElem (by omega)
    rw [hget, Option.some_inj]
    refine h ⟨0 + k, hk⟩ hk _ ?_
    simp only [Nat.zero_add]
    rw [List.getElem?_append_left (by omega), hget]
  · rename_i hk
    rw [List.getElem?_eq_none (by omega)]

section
variable {st : FsState} (ok : TreeOk st) {dirs : List (List UInt8)} {name : List UInt8}
  (hp : Storable dirs name) {n : Nat} (hn : resolve st.disk 2 dirs = .ok n)
  (hdir : isDirAt st.disk n = true)
include ok hp hn hdir

/-- `fs_unlink` on a file with a name of 27 bytes reads behind its array. -/
theorem TreeOk.fsUnlink_27 (hlen : name.length = 27) {i : Fin 128}
    (hl : lookup st.disk n name = some i)
    (hfile : isDirAt st.disk (entriesAt st.disk n i).inode.toNat = false) (env : Env) :
    fsUnlink env (render (dirs ++ [name])) st = .error .outOfBounds := by
  have hlive : Live st.disk n := resolve_live .root hn
  obtain ⟨hv, hname⟩ := lookup_eq_some hl
  have hb := hlive.slot_live hdir hv
  obtain ⟨filename, hstored, hfind⟩ := ok.findParent_eq hp hn env 1
  obtain ⟨s, -, -, -, hrun⟩ := ok.unlinkRest_eq env hlive hdir hb hfile hfind
  have hpath := hp.pathToInum_eq ok (env.call 0)
  rw [resolve_append, hn] at hpath
  simp only [resolve_cons_some hdir hl, resolve_nil, codeOf] at hpath
  have hpre : name <+: bytesFrom (entriesAt st.disk n i).name 0 :=
    (List.prefix_append name [0]).trans (cstr_eq_some_iff.mp hname).2
  have hclear : clearDirent (entriesAt st.disk n) (bytesFrom filename 0) = .error .outOfBounds := by
    rw [hstored.bytesFrom_eq hlen, clearDirent, getDirentIndex,
      direntIndexFrom_unterminated hp.last.no_nul hv hpre _ (List.mem_finRange i), error_bind]
  have hread : decodeInode (st.get (env.junk [0]) (entriesAt st.disk n i).inode.toNat) =
      inodeAt st.disk (entriesAt st.disk n i).inode.toNat := by
    rw [ok.get_inUse hb.owned]
    rfl
  rw [fsUnlink_eq, withInode, hpath, ok_bind, if_neg (by omega), hread, hrun, hclear, error_bind]

omit ok hdir in
/-- The same right after the file was made. -/
theorem LinkStep.fsUnlink_27 {st' : FsState} {b : Nat} {i : Fin 128} {tbl : Option Nat}
    (hlink : LinkStep st st' n b i name tbl) (wf : WellFormed st)
    (hfile : isDirAt st'.disk b = false) (hlen : name.length = 27) (env : Env) :
    fsUnlink env (render (dirs ++ [name])) st' = .error .outOfBounds := by
  refine (hlink.wellFormed wf).toTreeOk.fsUnlink_27 hp (wf.toTreeOk.resolve_to hlink.same hn)
    hlink.isDir_n hlen (hlink.lookup_new wf.toTreeOk) ?_ env
  rw [hlink.target_new, hfile]

/-- `fs_create` of a new name, when the byte behind its 27 bytes is zero. -/
theorem TreeOk.fsCreate_stored (hl : lookup st.disk n name = none) {env : Env}
    (hzero : env.bytes 28 1 27 = 0) (mode : UInt32) :
    (st.unmarked = ∅ ∧ fsCreate env (render (dirs ++ [name])) mode st = .error .assertion) ∨
    ∃ b st', fsCreate env (render (dirs ++ [name])) mode st = .ok (0, st') ∧
      FirstFit st.unmarked st'.unmarked ∧ Placed st st' n b name none (newFileInode env mode) ∧
      FirstFree st st' n b name none := by
  have hle := hp.le
  obtain ⟨filename, hstored, hend, hrun⟩ := ok.openParent_absent hp hn hdir hl env
  have hname : cstr (bytesFrom filename 0) = some name := by
    refine hstored.cstr_of_end (by omega) hp.le hp.last.no_nul fun k hk _ => ?_
    obtain rfl : k = 27 := Fin.ext hk
    rw [hend, hzero]
  rw [fsCreate_eq, hrun]
  exact ok.createRest_cases (resolve_live .root hn) hdir hp.le hname env mode

/-- Without an unmarked block neither call returns 0, nor when the name is taken. -/
theorem TreeOk.creation_fails
    (h : lookup st.disk n name ≠ none ∨ st.unmarked = ∅) (env : Env) (mode : UInt32)
    (st' : FsState) : fsCreate env (render (dirs ++ [name])) mode st ≠ .ok (0, st') ∧
      fsMkdir env (render (dirs ++ [name])) mode st ≠ .ok (0, st') := by
  rw [fsCreate_eq, fsMkdir_eq]
  cases hl : lookup st.disk n name with
  | some i =>
    rw [ok.openParent_present hp hn hdir hl, ok.openParent_present hp hn hdir hl]
    simp [eexist]
  | none =>
    have hempty := h.resolve_left (not_not_intro hl)
    obtain ⟨filename, -, -, hrun⟩ := ok.openParent_absent hp hn hdir hl env
    rw [hrun, hrun, createRest_full hempty, mkdirRest_full hempty]
    simp

end

/-! ## Names of up to 26 bytes -/

section Short
variable {st : FsState} (wf : WellFormed st) {p : CanonPath} {n : Nat}
include wf

theorem LinkStep.newEntry {st' : FsState} {b : Nat} {i : Fin 128} {tbl : Option Nat}
    (h : LinkStep st st' n b i p.last tbl) (hn : resolve st.disk 2 p.dirs = .ok n)
    (hfresh : ¬ Marked st b) : NewEntry st st' p.dirs p.last n b i := by
  have named := h.namedBy wf.toTreeOk hn rfl
  refine ⟨h.free, hfresh, named.valid, (lookup_eq_some named.slot).2, named.target, fun env => ?_⟩
  show pathToInum env st'.disk p.bytes = _
  rw [p.pathToInum_eq (h.wellFormed wf).toTreeOk, named.resolve_eq]
  rfl

theorem fileLife_of_room (hn : resolve st.disk 2 p.dirs = .ok n)
    (hroom : ∃ i, (entriesAt st.disk n i).valid = false) : FileLife st p.dirs p.last n := by
  have ok := wf.toTreeOk
  intro env mode st₁ hrun
  obtain ⟨m, b, ready, hplaced, -⟩ := ok.fsCreate_zero env mode (p := p) hrun
  obtain rfl := Except.ok.inj (ready.resolved.symm.trans hn)
  have hnew := newObject_file env mode
  obtain ⟨i, hlink⟩ := hplaced.linked ok ready.absent hnew hroom
  have ok₁ := (hlink.wellFormed wf).toTreeOk
  have named := hlink.namedBy ok hn rfl
  have hfile : isDirAt st₁.disk b = false := hplaced.isDirAt_object.trans hnew.1
  refine ⟨b, i, hlink.newEntry wf hn (hplaced.unmarked b (.inl rfl)).1, fun env₂ => ?_⟩
  obtain ⟨st₂, hrun₂, hclear⟩ := named.fsUnlink_ok ok₁ hfile env₂
  exact ⟨st₂, hrun₂, (hclear.unlinkStep ok₁ named fun j hj => by simp [hfile] at hj).entries'⟩

/-- A child is made in an empty directory and removed, and then the directory. -/
theorem NamedBy.childLife {b : Nat} {i : Fin 128} (named : NamedBy st p n b i)
    (hdepth : p.dirs.length ≤ 8) (hdir : isDirAt st.disk b = true)
    (hempty : ∀ j, (entriesAt st.disk b j).valid = false) (hfree : st.unmarked.Nonempty)
    {child : List UInt8} (hchild : Component child) (env₂ : Env) (mode₂ : UInt32) :
    ∃ (st₂ : FsState) (f : Nat),
      fsCreate env₂ (render (p.comps ++ [child])) mode₂ st = .ok (0, st₂) ∧ ¬ Marked st f ∧
      (∀ env', pathToInum env' st₂.disk (render (p.comps ++ [child])) = .ok f) ∧
      ∀ env₃, ∃ st₃, fsUnlink env₃ (render (p.comps ++ [child])) st₂ = .ok (0, st₃) ∧
        ∀ env₄, ∃ st₄, fsRmdir env₄ p.bytes st₃ = .ok (0, st₄) ∧
          SlotCleared st.disk st₄.disk n i := by
  have ok := wf.toTreeOk
  let q : CanonPath := ⟨p.comps, child, component_concat p.components hchild,
    by simp [CanonPath.comps]; omega⟩
  have hnb : n ≠ b := by
    rintro rfl
    have hlen := congrArg List.length (ok.resolve_inj named.resolved named.resolve_eq)
    simp [CanonPath.comps] at hlen
  -- the child is made
  have ready : ReadyIn st q b := ⟨named.resolve_eq, hdir, lookup_of_invalid hempty child⟩
  obtain ⟨f, st₂, hrun, hplaced, -⟩ := ready.fsCreate_ok ok env₂ mode₂ hfree
  have hnew := newObject_file env₂ mode₂
  obtain ⟨j, hlink⟩ := hplaced.linked ok ready.absent hnew ⟨0, hempty 0⟩
  have wf₂ := hlink.wellFormed wf
  have ok₂ := wf₂.toTreeOk
  have namedq : NamedBy st₂ q b f j := hlink.namedBy ok ready.resolved rfl
  have hfile : isDirAt st₂.disk f = false := hplaced.isDirAt_object.trans hnew.1
  have hsame := hlink.same n named.live hnb
  have hdirs₂ : resolve st₂.disk 2 p.dirs = .ok n := by
    rw [ok.resolve_upto hlink.same named.resolve_eq (List.prefix_append _ _), named.resolved]
  refine ⟨st₂, f, hrun, (hplaced.unmarked f (.inl rfl)).1, fun env' => ?_, fun env₃ => ?_⟩
  · show pathToInum env' st₂.disk q.bytes = _
    rw [q.pathToInum_eq ok₂, namedq.resolve_eq]
    rfl
  -- and removed: the directory has no entries again, and the one above it is as it was
  obtain ⟨st₃, hrun₃, hclear⟩ := namedq.fsUnlink_ok ok₂ hfile env₃
  have hstep := hclear.unlinkStep ok₂ namedq fun k hk => by simp [hfile] at hk
  have ok₃ := (hstep.wellFormed wf₂).toTreeOk
  have hsame' := hstep.same n (resolve_live .root hdirs₂) hnb
  have hn₂ : isDirAt st₂.disk n = true := hsame.isDirAt.trans named.dir
  have hents : entriesAt st₃.disk n = entriesAt st.disk n :=
    (hsame'.entriesAt hn₂).trans (hsame.entriesAt named.dir)
  have hempty₃ : ∀ k, (entriesAt st₃.disk b k).valid = false := by
    intro k
    obtain ⟨e, -, -, -, hes⟩ := hlink.entry
    rw [hstep.entries']
    by_cases hk : k = j
    · subst hk
      rw [Function.update_self]
    · rw [Function.update_of_ne hk, hes, Function.update_of_ne hk, hempty k]
  have named₃ : NamedBy st₃ p n b i := by
    refine ⟨?_, hsame'.isDirAt.trans hn₂, ?_, ?_⟩
    · rw [ok₂.resolve_upto hstep.same namedq.resolved (List.prefix_append _ _), hdirs₂]
    · rw [lookup_congr hents, named.slot]
    · rw [hents, named.target]
  refine ⟨st₃, hrun₃, fun env₄ => ?_⟩
  obtain ⟨st₄, hrun₄, hclear₄⟩ := named₃.fsRmdir_ok ok₃ hstep.dir' hempty₃ env₄
  have hcleared := (hclear₄.unlinkStep ok₃ named₃ fun k _ => hempty₃ k).entries'
  rw [hents] at hcleared
  exact ⟨st₄, hrun₄, hcleared⟩

/-- With a third unmarked block there is one left for the child. -/
theorem dirLife_of_room (hdepth : p.dirs.length ≤ 8) (hn : resolve st.disk 2 p.dirs = .ok n)
    (hroom : ∃ i, (entriesAt st.disk n i).valid = false) (hcard : st.unmarked.card ≠ 2) :
    DirLife st p.dirs p.last n := by
  have ok := wf.toTreeOk
  intro env mode st₁ hmode hrun
  obtain ⟨m, b, t, ready, ht, hplaced, hfirst⟩ := ok.fsMkdir_zero env mode (p := p) hrun
  obtain rfl := Except.ok.inj (ready.resolved.symm.trans hn)
  have hnew := newObject_dir env (typeAgrees_dir hmode) ht
  obtain ⟨i, hlink⟩ := hplaced.linked ok ready.absent hnew hroom
  have hdir : isDirAt st₁.disk b = true := hplaced.isDirAt_object.trans hnew.1
  have hfree : st₁.unmarked.Nonempty := by
    have hle := hplaced.card_unmarked.trans (Nat.add_le_add_left (Finset.card_insert_le _ _) _)
    have htwo := hfirst.card_erase
    simp only [Option.toFinset_some, Finset.card_singleton] at hle
    exact Finset.card_pos.mp (by omega)
  refine ⟨b, i, hlink.newEntry wf hn (hplaced.unmarked b (.inl rfl)).1, ?_⟩
  intro child hchild env₂ mode₂
  exact (hlink.namedBy ok hn rfl).childLife (hlink.wellFormed wf) hdepth hdir
    (fun j => hlink.entries j hdir) hfree hchild env₂ mode₂

end Short

/-! ## All names -/

section
variable {st : FsState} (wf : WellFormed st) {dirs : List (List UInt8)} {name : List UInt8}
  (hdirs : ∀ x ∈ dirs, Component x) (hdepth : dirs.length ≤ 8) {n : Nat}
  (hn : resolve st.disk 2 dirs = .ok n) (hdir : isDirAt st.disk n = true)
include wf hdirs hdepth hn hdir

/-- With exactly two unmarked blocks a new directory takes them, and nothing is left for a child. -/
theorem dirLife_two (hname : Component name) (hl : lookup st.disk n name = none)
    (htwo : st.unmarked.card = 2) : ¬ DirLife st dirs name n := by
  intro hlife
  have ok := wf.toTreeOk
  let p : CanonPath := ⟨dirs, name, component_concat hdirs hname, by omega⟩
  have ready : ReadyIn st p n := ⟨hn, hdir, hl⟩
  rcases ok.fsMkdir_cases quietEnv p 0o755 with
    ⟨r, -, -, hno, -⟩ | ⟨m, ready', ⟨hcard, -⟩ | ⟨b, t, st₁, hrun, ht, -, hplaced, hfirst⟩⟩
  · exact hno ⟨n, ready⟩
  · omega
  · have hfull : st₁.unmarked = ∅ := by
      have hsub : st₁.unmarked ⊆ (st.unmarked.erase b).erase t := by
        intro x hx
        rw [FsState.mem_unmarked, hplaced.marked, not_or, not_or] at hx
        obtain ⟨hlt, hx, hxb, hxt⟩ := hx
        refine Finset.mem_erase.mpr ⟨fun h => hxt (by rw [h]), Finset.mem_erase.mpr ⟨hxb, ?_⟩⟩
        exact FsState.mem_unmarked.mpr ⟨hlt, hx⟩
      have hcard := hfirst.card_erase
      have hle := Finset.card_le_card hsub
      exact Finset.card_eq_zero.mp (by omega)
    have hchild : Component [0x78] := ⟨by decide, by decide, by decide, by decide⟩
    let q : CanonPath := ⟨p.comps, [0x78], component_concat p.components hchild,
      by simp [CanonPath.comps, p]; omega⟩
    obtain ⟨b', i, -, hlives⟩ := hlife quietEnv 0o755 st₁ (.inl (by decide)) hrun
    obtain ⟨st₂, f, hcreate, -⟩ := hlives [0x78] hchild quietEnv 0o644
    have ok₁ := (hplaced.wellFormed wf ready'.absent
      (newObject_dir quietEnv (.inl (by decide)) ht)).toTreeOk
    obtain ⟨k, x, -, -, hfirst₂⟩ := ok₁.fsCreate_zero quietEnv 0o644 (p := q) hcreate
    have hmem := hfirst₂.mem_block
    simp [hfull] at hmem

/-- A name lives in a directory if and only if it is not made there, or has up to 26 bytes and
finds a slot and, for a child, a third block. -/
theorem nameLife_iff (hname : FileName name) (hle : name.length ≤ 27) :
    NameLife st dirs name n ↔ lookup st.disk n name ≠ none ∨ st.unmarked = ∅ ∨
      (name.length ≤ 26 ∧ (∃ i, (entriesAt st.disk n i).valid = false) ∧
        st.unmarked.card ≠ 2) := by
  have ok := wf.toTreeOk
  have hp : Storable dirs name := ⟨hdirs, hname, by omega, hle, by omega⟩
  constructor
  · intro hlife
    by_contra hno
    simp only [not_or, not_not] at hno
    obtain ⟨hl, hfree, hcond⟩ := hno
    rcases ok.fsCreate_stored hp hn hdir hl (rfl : quietEnv.bytes 28 1 27 = 0) 0o644 with
      ⟨hempty, -⟩ | ⟨b, st₁, hrun, -, hplaced, -⟩
    · exact hfree hempty
    obtain ⟨b', i, hentry, hunlink⟩ := hlife.file quietEnv 0o644 st₁ hrun
    have hnew := newObject_file quietEnv 0o644
    obtain ⟨j, hlink⟩ := hplaced.linked ok hl hnew ⟨i, hentry.free⟩
    have hshort : name.length ≤ 26 := by
      by_contra hlong
      have hfault := hlink.fsUnlink_27 hp hn wf (hplaced.isDirAt_object.trans hnew.1) (by omega)
        quietEnv
      obtain ⟨st₂, hok, -⟩ := hunlink quietEnv
      rw [hfault] at hok
      exact absurd hok (by simp)
    have htwo : st.unmarked.card = 2 := by
      by_contra htwo
      exact hcond ⟨hshort, ⟨i, hentry.free⟩, htwo⟩
    exact dirLife_two wf hdirs hdepth hn hdir
      ⟨hname.ne_nil, hshort, hname.no_slash, hname.no_nul⟩ hl htwo hlife.dir
  · intro hcond
    by_cases hfails : lookup st.disk n name ≠ none ∨ st.unmarked = ∅
    · have hno := fun env mode st' => ok.creation_fails hp hn hdir hfails env mode st'
      exact ⟨fun env mode st₁ hrun => absurd hrun (hno env mode st₁).1,
        fun env mode st₁ _ hrun => absurd hrun (hno env mode st₁).2⟩
    · obtain ⟨hshort, hroom, htwo⟩ := (or_assoc.mpr hcond).resolve_left hfails
      have hc : Component name := ⟨hname.ne_nil, hshort, hname.no_slash, hname.no_nul⟩
      let p : CanonPath := ⟨dirs, name, component_concat hdirs hc, by omega⟩
      have hn' : resolve st.disk 2 p.dirs = .ok n := hn
      exact ⟨fileLife_of_room wf hn' hroom, dirLife_of_room wf hdepth hn' hroom htwo⟩

end

theorem emptyState_slot : (entriesAt (emptyState 399).disk 2 0).valid = false := by
  rw [show (emptyState 399).disk = emptyDisk 399 from rfl, emptyDisk_entries (by omega) (by omega)]
  rfl

/-- The name `a` in the root of an empty image. -/
theorem nameLife_short : NameLife (emptyState 399) [] [0x61] 2 := by
  have hroom := emptyState_room
  refine (nameLife_iff (emptyState_wellFormed (by omega) (by omega)) (by simp) (by simp) rfl
    (emptyDisk_isDir 399) ⟨by decide, by decide, by decide⟩ (by decide)).mpr (.inr (.inr ?_))
  exact ⟨by decide, ⟨0, emptyState_slot⟩, by omega⟩

/-- The letter `a`, 27 times. -/
def longName : List UInt8 := List.replicate 27 0x61

/-- In an empty image `fs_create` makes a file of that name, provided that the stack holds zeros,
and the path leads to it; `fs_unlink` reads behind its array. -/
theorem nameLife_27 : ∃ (b : Nat) (st' : FsState),
    fsCreate quietEnv (render ([] ++ [longName])) 0o644 (emptyState 399) = .ok (0, st') ∧
    (∀ env, pathToInum env st'.disk (render ([] ++ [longName])) = .ok b) ∧
    (∀ env, fsUnlink env (render ([] ++ [longName])) st' = .error .outOfBounds) ∧
    ¬ NameLife (emptyState 399) [] longName 2 := by
  have wf : WellFormed (emptyState 399) := emptyState_wellFormed (by omega) (by omega)
  have ok := wf.toTreeOk
  have hp : Storable [] longName :=
    ⟨by simp, ⟨by decide, by decide, by decide⟩, by decide, by decide, by decide⟩
  have hl : lookup (emptyState 399).disk 2 longName = none := by
    refine lookup_of_invalid (fun i => ?_) longName
    rw [show (emptyState 399).disk = emptyDisk 399 from rfl,
      emptyDisk_entries (by omega) (by omega)]
    rfl
  rcases ok.fsCreate_stored hp rfl (emptyDisk_isDir 399) hl (rfl : quietEnv.bytes 28 1 27 = 0)
    0o644 with ⟨hempty, -⟩ | ⟨b, st', hrun, -, hplaced, -⟩
  · have hroom := emptyState_room
    simp [hempty] at hroom
  · have hnew := newObject_file quietEnv 0o644
    obtain ⟨i, hlink⟩ := hplaced.linked ok hl hnew ⟨0, emptyState_slot⟩
    have hfault := hlink.fsUnlink_27 hp rfl wf (hplaced.isDirAt_object.trans hnew.1) (by decide)
    refine ⟨b, st', hrun, fun env => ?_, hfault, fun hlife => ?_⟩
    · rw [hp.pathToInum_eq (hlink.wellFormed wf).toTreeOk, resolve_append]
      show Except.ok (codeOf (resolve st'.disk 2 [longName])) = _
      simp only [resolve, hlink.isDir_n, hlink.lookup_new ok, hlink.target_new, Bool.not_true,
        Bool.false_eq_true, if_false, codeOf]
    · obtain ⟨x, j, -, hunlink⟩ := hlife.file quietEnv 0o644 st' hrun
      obtain ⟨st₂, hok, -⟩ := hunlink quietEnv
      rw [hfault] at hok
      exact absurd hok (by simp)

end SystemsProjects.Fs5600
