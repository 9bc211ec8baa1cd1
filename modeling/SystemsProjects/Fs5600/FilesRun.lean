import SystemsProjects.Fs5600.FilesEffect

/-!
# The file system is a name space of files

Every call answers what the name space says and makes of it what the name space says, and so does
every run. The exceptions are an object created in a directory without a slot left and a rename that
finds a removed entry first: they return 0, and nothing has happened.
-/

namespace SystemsProjects.Fs5600
open SystemsProjects.Lib

section Codes
variable {st st' : FsState} (wf : WellFormed st) (env : Env) (p : CanonPath) {r : Int}
include wf

/-! ## The object behind a path -/

/-- Both look for the object first, and fail alike. -/
theorem WellFormed.fileTree_on {k : Int → Inode → Except Fault (Int × FsState)}
    {f : Obj → Int × Files} (h : withInode env p.bytes st k = .ok (r, st'))
    (hrest : ∀ b, resolve st.disk 2 p.comps = .ok b → Live st.disk b →
      k b (inodeAt st.disk b) = .ok (r, st') → f (objAt st.disk b) = (r, fileTree st')) :
    (fileTree st).on p f = (r, fileTree st') := by
  unfold Files.on
  rcases wf.toTreeOk.withInode_cases env p with ⟨e, hres, -, heq⟩ | ⟨b, hres, hb, heq⟩
  · obtain ⟨hnone, hcode⟩ := fileTree_error hres
    obtain ⟨rfl, rfl⟩ := Prod.mk.inj (Except.ok.inj ((heq k).symm.trans h))
    rw [hnone, hcode]
  · rw [fileTree_ok hres]
    exact hrest b hres hb ((heq k).symm.trans h)

/-! ## `fs_create` and `fs_mkdir` -/

omit wf in
/-- Nothing to create in: the codes agree. -/
theorem fileTree_create_error (hno : ¬ ∃ n, ReadyIn st p n) (o : Obj) :
    (fileTree st).create p o = (openError st.disk p, fileTree st) := by
  unfold Files.create openError
  cases hd : resolve st.disk 2 p.dirs with
  | error e => rw [(fileTree_error hd).1]
  | ok n =>
    rw [fileTree_ok hd]
    cases hdir : isDirAt st.disk n with
    | false => simp [objAt_isDir, hdir]
    | true =>
      cases hl : lookup st.disk n p.last with
      | none => exact absurd ⟨n, hd, hdir, hl⟩ hno
      | some i =>
        have hsome : (fileTree st p.comps).isSome = true := by
          unfold CanonPath.comps
          rw [fileTree_concat hd, entryStep_of_lookup hdir hl]
          rfl
        simp [objAt_isDir, hdir, hsome]

omit wf in
theorem ReadyIn.fileTree_create {n : Nat} (ready : ReadyIn st p n) (o : Obj) :
    (fileTree st).create p o = (0, (fileTree st).put p.comps o) := by
  have hnone : fileTree st p.comps = none := by
    unfold CanonPath.comps
    rw [fileTree_concat ready.resolved, entryStep_none fun _ => ready.absent]
    rfl
  simp [Files.create, fileTree_ok ready.resolved, objAt_isDir, ready.dir, hnone]

omit wf in
theorem objAt_newFile {b : Nat} {mode : UInt32}
    (h : inodeAt st'.disk b = newFileInode env mode) :
    objAt st'.disk b = .fresh env (mode ||| sIfreg) (.file []) := by
  have hfile : isDirAt st'.disk b = false := by
    unfold isDirAt
    rw [h]
    exact sIsdir_reg mode
  have hcontents : contents st'.disk (newFileInode env mode) = [] := contents_empty rfl _
  unfold objAt
  rw [hfile, h, hcontents]
  rfl

omit wf in
theorem objAt_newDir {b t : Nat} {mode : UInt32} (hmode : TypeAgrees mode sIfdir)
    (h : inodeAt st'.disk b = newDirInode env mode t) :
    objAt st'.disk b = .fresh env (mode ||| sIfdir) (.dir 0) := by
  have hdir : isDirAt st'.disk b = true := by
    unfold isDirAt
    rw [h]
    exact sIsdir_dir (typeAgrees_dir hmode)
  unfold objAt
  rw [hdir, h]
  rfl

/-- The calls that return 0 with nothing done: an object made in a directory without a slot left,
and a rename that comes upon a removed entry of the name first. -/
def Op.Lost (st : FsState) : Op → Prop
  | .create p _ | .mkdir p _ => ∃ n, ReadyIn st p n ∧ ∀ i, (entriesAt st.disk n i).valid = true
  | .rename p q => RenameReady st p q ∧ Shadowed st p
  | _ => False

/-- A call that has done what the name space says, or that is lost. -/
structure Outcome (st st' : FsState) (lost : Prop) (spec : Int × Files) (r : Int) : Prop where
  done : ¬ lost → spec = (r, fileTree st')
  lost : lost → r = 0 ∧ spec.1 = 0 ∧ fileTree st' = fileTree st ∧ spec.2 ≠ fileTree st

theorem Placed.outcome {n b : Nat} {tbl : Option Nat} {ino : Inode} {o : Obj}
    (h : Placed st st' n b p.last tbl ino) (ready : ReadyIn st p n) (hnew : NewObject ino tbl)
    (hobj : objAt st'.disk b = o) :
    Outcome st st' (∃ n, ReadyIn st p n ∧ ∀ i, (entriesAt st.disk n i).valid = true)
      ((fileTree st).create p o) 0 := by
  rw [ready.fileTree_create]
  constructor
  · intro hno
    have hroom : ∃ i, (entriesAt st.disk n i).valid = false := by
      by_contra hall
      exact hno ⟨n, ready, fun i => by simpa using not_exists.mp hall i⟩
    rw [h.fileTree_put wf ready.resolved ready.absent hnew hroom, hobj]
    rfl
  · rintro ⟨n', ready', hfull⟩
    obtain rfl := Except.ok.inj (ready'.resolved.symm.trans ready.resolved)
    refine ⟨rfl, rfl, h.fileTree_full wf hfull, fun heq => ?_⟩
    have hat : (fileTree st).put p.comps o p.comps = fileTree st p.comps := congrFun heq p.comps
    rw [Files.put, Function.update_self] at hat
    rw [CanonPath.comps, fileTree_concat ready.resolved,
      entryStep_none fun _ => ready.absent] at hat
    simp at hat

theorem WellFormed.fileTree_create {mode : UInt32}
    (h : fsCreate env p.bytes mode st = .ok (r, st')) :
    Outcome st st' ((Op.create p mode).Lost st) ((fileTree st).exec env (.create p mode)) r := by
  rcases wf.toTreeOk.fsCreate_cases env p mode with
    ⟨e, -, -, hno, hrun, hcode⟩ | ⟨n, ready, ⟨-, hrun⟩ | ⟨b, s, hrun, -, hplaced, -⟩⟩
  · obtain ⟨rfl, rfl⟩ := Prod.mk.inj (Except.ok.inj (hrun.symm.trans h))
    refine ⟨fun _ => ?_, fun hlost => absurd ⟨_, hlost.choose_spec.1⟩ hno⟩
    rw [hcode]
    exact fileTree_create_error p hno _
  · simp [hrun] at h
  · obtain ⟨rfl, rfl⟩ := Prod.mk.inj (Except.ok.inj (hrun.symm.trans h))
    exact hplaced.outcome wf p ready (newObject_file env mode) (objAt_newFile env hplaced.inode)

theorem WellFormed.fileTree_mkdir {mode : UInt32} (hmode : TypeAgrees mode sIfdir)
    (h : fsMkdir env p.bytes mode st = .ok (r, st')) :
    Outcome st st' ((Op.mkdir p mode).Lost st) ((fileTree st).exec env (.mkdir p mode)) r := by
  rcases wf.toTreeOk.fsMkdir_cases env p mode with
    ⟨e, -, -, hno, hrun, hcode⟩ | ⟨n, ready, ⟨-, hrun⟩ | ⟨b, t, s, hrun, ht, -, hplaced, -⟩⟩
  · obtain ⟨rfl, rfl⟩ := Prod.mk.inj (Except.ok.inj (hrun.symm.trans h))
    refine ⟨fun _ => ?_, fun hlost => absurd ⟨_, hlost.choose_spec.1⟩ hno⟩
    rw [hcode]
    exact fileTree_create_error p hno _
  · simp [hrun] at h
  · obtain ⟨rfl, rfl⟩ := Prod.mk.inj (Except.ok.inj (hrun.symm.trans h))
    exact hplaced.outcome wf p ready (newObject_dir env (typeAgrees_dir hmode) ht)
      (objAt_newDir env hmode hplaced.inode)

/-! ## `fs_rename` -/

omit wf in
theorem parentBytes_inj {p q : CanonPath} (h : parentBytes p.dirs = parentBytes q.dirs) :
    p.dirs = q.dirs := by
  have htokens : ∀ p : CanonPath, tokens slash (parentBytes p.dirs) = p.dirs := by
    intro p
    unfold parentBytes
    split_ifs with hnil
    · rw [tokens_delims (by simp), hnil]
    · exact tokens_render fun c hc => (p.components c (by simp [hc])).fileName
  rw [← htokens p, h, htokens q]

omit wf in
theorem fileTree_rename_error {q : CanonPath} (hno : ¬ RenameReady st p q) :
    (fileTree st).rename p q = (renameError st.disk p q, fileTree st) := by
  unfold Files.rename renameError
  cases hres : resolve st.disk 2 p.comps with
  | error e => simp [(fileTree_error hres).1]
  | ok b =>
    cases hres' : resolve st.disk 2 q.comps with
    | ok b' => simp [fileTree_ok hres, fileTree_ok hres']
    | error e =>
      have hdirs : p.dirs ≠ q.dirs := fun hdirs =>
        hno ⟨⟨b, hres⟩, fun b' hb' => absurd (hres'.symm.trans hb') (by simp), by rw [hdirs]⟩
      simp [fileTree_ok hres, (fileTree_error hres').1, hdirs]

omit wf in
theorem RenameReady.fileTree_rename {q : CanonPath} (ready : RenameReady st p q) :
    (fileTree st).rename p q = (0, (fileTree st).move p.comps q.comps) := by
  obtain ⟨b, hb⟩ := ready.source
  have hnone : fileTree st q.comps = none := fileTree_eq_none.mpr ready.free
  simp [Files.rename, fileTree_ok hb, hnone, parentBytes_inj ready.parent]

theorem WellFormed.fileTree_rename {q : CanonPath}
    (h : fsRename env p.bytes q.bytes st = .ok (r, st')) :
    Outcome st st' ((Op.rename p q).Lost st) ((fileTree st).exec env (.rename p q)) r := by
  have ok := wf.toTreeOk
  by_cases hready : RenameReady st p q
  · rcases ok.fsRename_cases env p q with
      ⟨-, -, -, hno⟩ | ⟨n, b, j, i, s, named, hrun, hren, -, hfirst⟩
    · exact absurd hready hno
    · obtain ⟨rfl, rfl⟩ := Prod.mk.inj (Except.ok.inj (hrun.symm.trans h))
      have hij := hfirst.eq_iff ok named
      show Outcome st s _ ((fileTree st).rename p q) 0
      rw [hready.fileTree_rename]
      constructor
      · intro hno
        obtain rfl := hij.mpr fun hsh => hno ⟨hready, hsh⟩
        rw [hren.fileTree_move wf named hready (parentBytes_inj hready.parent)]
      · rintro ⟨-, hsh⟩
        have hstale : (entriesAt st.disk n i).valid = false := by
          cases hv : (entriesAt st.disk n i).valid with
          | false => rfl
          | true =>
            refine absurd ((ok.dirs n named.live named.dir).unique i j hv named.valid ?_)
              fun he => hij.mp he hsh
            rw [hfirst.1, (lookup_eq_some named.slot).2]
        refine ⟨rfl, rfl, hren.fileTree_stale wf hstale, fun heq => ?_⟩
        have hat : fileTree st p.comps = fileTree st q.comps :=
          ((fileTree st).move_target p.comps q.comps).symm.trans (congrFun heq q.comps)
        rw [fileTree_ok named.resolve_eq, fileTree_eq_none.mpr hready.free] at hat
        simp at hat
  · rw [ok.fsRename_error env hready] at h
    obtain ⟨rfl, rfl⟩ := Prod.mk.inj (Except.ok.inj h)
    exact ⟨fun _ => fileTree_rename_error p hready, fun hlost => absurd hlost.1 hready⟩

/-! ## `fs_unlink` and `fs_rmdir` -/

theorem WellFormed.fileTree_unlink (h : fsUnlink env p.bytes st = .ok (r, st')) :
    (fileTree st).exec env (.unlink p) = (r, fileTree st') := by
  refine wf.fileTree_on env p (k := unlinkRest env p.bytes st) h fun b hres hb hrun => ?_
  rw [objAt_isDir]
  cases hfile : isDirAt st.disk b with
  | true =>
    have hmode : sIsdir (inodeAt st.disk b).mode = true := hfile
    rw [unlinkRest, if_pos hmode] at hrun
    obtain ⟨rfl, rfl⟩ := Prod.mk.inj (Except.ok.inj hrun)
    rfl
  | false =>
    obtain ⟨n, i, named⟩ := p.namedBy hres
    obtain ⟨s, hrun', hclear⟩ := named.unlink_eq wf.toTreeOk env hfile
    obtain ⟨rfl, rfl⟩ := Prod.mk.inj (Except.ok.inj (hrun'.symm.trans hrun))
    rw [hclear.fileTree_remove wf named fun j hdir => absurd (hfile.symm.trans hdir) (by simp)]
    rfl

/-- A directory shows nothing when none of its entries is valid. -/
theorem WellFormed.fileTree_empty_iff {b : Nat} (hres : resolve st.disk 2 p.comps = .ok b)
    (hdir : isDirAt st.disk b = true) :
    (fileTree st).Empty p ↔ ∀ j, (entriesAt st.disk b j).valid = false := by
  have hb : Live st.disk b := resolve_live .root hres
  constructor
  · intro h j
    by_contra hv
    have hv : (entriesAt st.disk b j).valid = true := by simpa using hv
    have hok := wf.dirs b hb hdir
    obtain ⟨c, hc⟩ := Option.ne_none_iff_exists'.mp (hok.named j hv)
    have hsome := h c
    rw [fileTree_concat hres, entryStep_of_lookup hdir (lookup_of_name hok hv hc)] at hsome
    simp at hsome
  · intro h c
    rw [fileTree_concat hres, entryStep_none fun _ => lookup_none_of_empty h]
    rfl

theorem WellFormed.fileTree_rmdir (h : fsRmdir env p.bytes st = .ok (r, st')) :
    (fileTree st).exec env (.rmdir p) = (r, fileTree st') := by
  refine wf.fileTree_on env p (k := rmdirRest env p.bytes st) h fun b hres hb hrun => ?_
  rw [objAt_isDir]
  cases hdir : isDirAt st.disk b with
  | false =>
    have hmode : (!sIsdir (inodeAt st.disk b).mode) = true := by
      rw [show sIsdir (inodeAt st.disk b).mode = false from hdir, Bool.not_false]
    rw [rmdirRest, if_pos hmode] at hrun
    obtain ⟨rfl, rfl⟩ := Prod.mk.inj (Except.ok.inj hrun)
    rfl
  | true =>
    rw [if_neg (by simp), wf.fileTree_empty_iff p hres hdir]
    by_cases hempty : ∀ j, (entriesAt st.disk b j).valid = false
    · obtain ⟨n, i, named⟩ := p.namedBy hres
      obtain ⟨s, hrun', hclear⟩ := named.rmdir_eq wf.toTreeOk env hdir hempty
      obtain ⟨rfl, rfl⟩ := Prod.mk.inj (Except.ok.inj (hrun'.symm.trans hrun))
      rw [if_neg (not_not.mpr hempty), hclear.fileTree_remove wf named fun j _ => hempty j]
    · rw [wf.toTreeOk.rmdirRest_full env p.bytes hb hdir hempty] at hrun
      obtain ⟨rfl, rfl⟩ := Prod.mk.inj (Except.ok.inj hrun)
      rw [if_pos hempty]

/-! ## `fs_write` and `fs_truncate` -/

omit wf in
theorem Writable.objAt_eq (wf : WellFormed st) {f off : Nat} {buf : List UInt8}
    (w : Writable st p f off buf.length)
    (h : Grown (startWrite env st f off buf.length) st' f off buf) :
    objAt st'.disk f = { objAt st.disk f with
      mtime := env.time,
      body := .file (Files.splice (contents st.disk (inodeAt st.disk f)) buf off) } := by
  have hino := h.inode
  rw [inodeAt_startWrite] at hino
  have hcontents := w.contents_eq wf h
  unfold objAt
  rw [h.step.file', hcontents, hino]
  rfl

theorem WellFormed.fileTree_write {buf : List UInt8} (hbuf : buf.length < 2 ^ 31) {off : Nat}
    (h : fsWrite env p.bytes buf off st = .ok (r, st')) :
    (fileTree st).exec env (.write p buf off) = (r, fileTree st') := by
  have ok := wf.toTreeOk
  refine wf.fileTree_on env p (k := writeRest env buf off st) h fun b hres hb hrun => ?_
  cases hfile : isDirAt st.disk b with
  | true =>
    have hmode : sIsdir (inodeAt st.disk b).mode = true := hfile
    rw [writeRest, if_pos hmode] at hrun
    obtain ⟨rfl, rfl⟩ := Prod.mk.inj (Except.ok.inj hrun)
    rw [objAt_body_dir hfile]
  | false =>
    have hmode : ¬ sIsdir (inodeAt st.disk b).mode = true := by
      rw [show sIsdir (inodeAt st.disk b).mode = false from hfile]
      decide
    have hsize := (wf.files b hb hfile).nonneg
    rw [objAt_body_file hfile]
    simp only [contents_length, Files.maxSize]
    by_cases hin : (off : Int) ≤ (inodeAt st.disk b).size.toInt
    · rw [if_neg (by omega)]
      by_cases hfit : (inodeAt st.disk b).size.toInt + buf.length ≤ 1019 * 4096
      · rw [if_neg (by omega)]
        have w : Writable st p b off buf.length := ⟨hres, hfile, hin, hfit⟩
        rcases w.accepts.writeRest_cases wf hbuf env with ⟨-, hfault⟩ | ⟨s, hrun', hgrown⟩
        · simp [hfault] at hrun
        · obtain ⟨rfl, rfl⟩ := Prod.mk.inj (Except.ok.inj (hrun'.symm.trans hrun))
          rw [(w.fileStep hgrown ok).fileTree_put wf hres
            fun m hm hne x hx => w.keep_own ok hm hx hgrown hne, w.objAt_eq env p wf hgrown]
      · rw [wf.writeRest_enospc hbuf hb hfile hin (by omega)] at hrun
        obtain ⟨rfl, rfl⟩ := Prod.mk.inj (Except.ok.inj hrun)
        rw [if_pos (by omega)]
    · rw [writeRest, if_neg hmode, if_pos (by omega)] at hrun
      obtain ⟨rfl, rfl⟩ := Prod.mk.inj (Except.ok.inj hrun)
      rw [if_pos (by omega)]

theorem WellFormed.fileTree_truncate {len : Int}
    (h : fsTruncate env p.bytes len st = .ok (r, st')) :
    (fileTree st).exec env (.truncate p len) = (r, fileTree st') := by
  have ok := wf.toTreeOk
  by_cases hlen : len = 0
  · subst hlen
    rw [fsTruncate_eq] at h
    show (fileTree st).truncate env p 0 = _
    rw [Files.truncate, if_neg (not_not.mpr rfl)]
    refine wf.fileTree_on env p h fun b hres hb hrun => ?_
    rw [objAt_isDir]
    cases hfile : isDirAt st.disk b with
    | true =>
      have hmode : sIsdir (inodeAt st.disk b).mode = true := hfile
      rw [truncateRest, if_pos hmode] at hrun
      obtain ⟨rfl, rfl⟩ := Prod.mk.inj (Except.ok.inj hrun)
      rfl
    | false =>
      obtain ⟨s, hrun', hempty, hino⟩ := ok.truncate_eq env hb hfile
      obtain ⟨rfl, rfl⟩ := Prod.mk.inj (Except.ok.inj (hrun'.symm.trans hrun))
      have hobj : objAt s.disk b =
          { objAt st.disk b with mtime := env.time, body := .file [] } := by
        have hcontents : contents s.disk (inodeAt s.disk b) = [] := contents_empty hempty.size _
        unfold objAt
        rw [hempty.file', hcontents, hino]
        rfl
      rw [(hempty.fileStep ok).fileTree_put wf hres
        fun m hm hne x hx => hempty.keep_own ok hm hx hne, hobj]
      rfl
  · have hlen' : len ≠ 0 := hlen
    rw [fsTruncate, if_pos hlen'] at h
    obtain ⟨rfl, rfl⟩ := Prod.mk.inj (Except.ok.inj h)
    exact if_pos hlen'

/-! ## `fs_chmod` and `fs_utime` -/

omit wf in
theorem rewriteInode_live (ok : TreeOk st) {b : Nat} (hb : Live st.disk b) (f : Inode → Inode)
    (h : rewriteInode f st b (inodeAt st.disk b) = .ok (r, st')) :
    r = 0 ∧ st' = st.write b (encodeInode (f (inodeAt st.disk b))) := by
  unfold rewriteInode at h
  rw [ok.put_live hb, ok_bind] at h
  obtain ⟨rfl, rfl⟩ := Prod.mk.inj (Except.ok.inj h)
  exact ⟨rfl, rfl⟩

theorem WellFormed.fileTree_chmod {mode : UInt32} (hmode : (Op.chmod p mode).ModeOk st)
    (h : fsChmod env p.bytes mode st = .ok (r, st')) :
    (fileTree st).exec env (.chmod p mode) = (r, fileTree st') := by
  refine wf.fileTree_on env p (k := rewriteInode (chmodInode mode) st) h fun b hres hb hrun => ?_
  obtain ⟨rfl, rfl⟩ := rewriteInode_live wf.toTreeOk hb _ hrun
  rw [fileTree_write_inode wf hres (by rfl) (sIsdir_chmod (hmode b hres)) (by rfl)]
  rfl

theorem WellFormed.fileTree_utime {ut : Option UInt32}
    (h : fsUtime env p.bytes ut st = .ok (r, st')) :
    (fileTree st).exec env (.utime p ut) = (r, fileTree st') := by
  refine wf.fileTree_on env p (k := rewriteInode (utimeInode env ut) st) h
    fun b hres hb hrun => ?_
  obtain ⟨rfl, rfl⟩ := rewriteInode_live wf.toTreeOk hb _ hrun
  rw [fileTree_write_inode wf hres (by rfl) (by rfl) (by rfl)]
  rfl

/-! ## Outputs -/

omit wf in
theorem inodeToStat_shows (wf : WellFormed st) {b : Nat} (hb : Live st.disk b) (ino : UInt32) :
    (objAt st.disk b).Shows (inodeToStat (inodeAt st.disk b) ino) :=
  objAt_shows (wf.files b hb) ino

/-- The entries `fs_readdir` passes on are the names in the directory. -/
theorem WellFormed.fileTree_lists {b : Nat} (hres : resolve st.disk 2 p.comps = .ok b)
    (hdir : isDirAt st.disk b = true) :
    (fileTree st).Lists p.comps ((((List.finRange 128).filter fun i =>
      (entriesAt st.disk b i).valid).map (fillerCall st.disk b)).map shown) := by
  have hb : Live st.disk b := resolve_live .root hres
  have hok := wf.dirs b hb hdir
  have hpath : ∀ i c, (entriesAt st.disk b i).valid = true →
      (entriesAt st.disk b i).nameOf = some c → fileTree st (p.comps ++ [c]) =
        some (objAt st.disk (entriesAt st.disk b i).inode.toNat) := by
    intro i c hv hname
    rw [fileTree_concat hres, entryStep_of_lookup hdir (lookup_of_name hok hv hname)]
    rfl
  rw [List.map_map]
  constructor
  · rw [List.map_map]
    refine ((List.nodup_finRange 128).filter _).map_on fun i hi j hj hij => ?_
    exact hok.unique i j (List.mem_filter.mp hi).2 (List.mem_filter.mp hj).2 hij
  · intro x hx
    obtain ⟨i, hi, rfl⟩ := List.mem_map.mp hx
    have hv : (entriesAt st.disk b i).valid = true := (List.mem_filter.mp hi).2
    obtain ⟨c, hname⟩ := Option.ne_none_iff_exists'.mp (hok.named i hv)
    exact ⟨c, _, hname, hpath i c hv hname, inodeToStat_shows wf (hb.slot_live hdir hv) _⟩
  · intro c hsome
    rw [fileTree_concat hres, Option.isSome_map, entryStep, if_pos hdir, Option.isSome_map] at hsome
    obtain ⟨i, hl⟩ := Option.isSome_iff_exists.mp hsome
    obtain ⟨hv, hname⟩ := lookup_eq_some hl
    refine ⟨(fillerCall st.disk b i).2, List.mem_map.mpr ⟨i, ?_, Prod.ext hname rfl⟩⟩
    exact List.mem_filter.mpr ⟨List.mem_finRange i, hv⟩

theorem WellFormed.observe_getattr {out : Output} (h : observe env st (.getattr p) = .ok out) :
    (fileTree st).Stats p out := by
  have hpath := p.pathToInum_eq wf.toTreeOk (env.call 0)
  unfold Files.Stats
  cases hres : resolve st.disk 2 p.comps with
  | error e =>
    obtain ⟨hnone, hcode⟩ := fileTree_error hres
    rw [hres] at hpath
    simp only [observe, fsGetattr, hpath, ok_bind, codeOf, if_pos (codeOf_error_neg hres)] at h
    obtain rfl := Except.ok.inj h
    simp only [hnone, hcode]
  | ok b =>
    have hb : Live st.disk b := resolve_live .root hres
    rw [hres] at hpath
    simp only [observe, fsGetattr, hpath, ok_bind, codeOf] at h
    rw [if_neg (by omega), wf.toTreeOk.get_inUse hb.owned] at h
    obtain rfl := Except.ok.inj h
    rw [fileTree_ok hres]
    exact ⟨_, inodeToStat_shows wf hb _, rfl⟩

theorem WellFormed.observe_readdir {out : Output} (h : observe env st (.readdir p) = .ok out) :
    (fileTree st).Listing p out := by
  have ok := wf.toTreeOk
  have hpath := p.pathToInum_eq ok (env.call 0)
  unfold Files.Listing
  cases hres : resolve st.disk 2 p.comps with
  | error e =>
    obtain ⟨hnone, hcode⟩ := fileTree_error hres
    rw [hres] at hpath
    simp only [observe, fsReaddir, hpath, ok_bind, codeOf, if_pos (codeOf_error_neg hres)] at h
    obtain rfl := Except.ok.inj h
    simp only [hnone, hcode]
    rfl
  | ok b =>
    have hb : Live st.disk b := resolve_live .root hres
    rw [hres] at hpath
    rw [fileTree_ok hres]
    simp only [objAt_isDir]
    cases hdir : isDirAt st.disk b with
    | false =>
      have hmode : (!sIsdir (decodeInode (st.disk.data b)).mode) = true := by
        rw [show sIsdir (decodeInode (st.disk.data b)).mode = false from hdir, Bool.not_false]
      simp only [observe, fsReaddir, hpath, ok_bind, codeOf] at h
      rw [if_neg (by omega), ok.get_inUse hb.owned, if_pos hmode] at h
      exact (Except.ok.inj h).symm
    | true =>
      rw [observe, ok.fsReaddir_eq hb hdir env hpath] at h
      exact ⟨_, wf.fileTree_lists p hres hdir, (Except.ok.inj h).symm⟩

theorem WellFormed.observe_read {len off : Nat} (hlen : len < 2 ^ 31) {out : Output}
    (h : observe env st (.read p len off) = .ok out) :
    (fileTree st).Reads p len off out := by
  have ok := wf.toTreeOk
  unfold Files.Reads
  cases hres : resolve st.disk 2 p.comps with
  | error e =>
    have hpath := p.pathToInum_eq ok (env.call 0)
    obtain ⟨hnone, hcode⟩ := fileTree_error hres
    rw [hres] at hpath
    simp only [observe, fsRead, hpath, ok_bind, codeOf, if_pos (codeOf_error_neg hres)] at h
    obtain rfl := Except.ok.inj h
    simp only [hnone, hcode]
  | ok b =>
    have hb : Live st.disk b := resolve_live .root hres
    rw [fileTree_ok hres]
    rw [observe, ok.fsRead_eq env p hres] at h
    cases hfile : isDirAt st.disk b with
    | true =>
      have hmode : sIsdir (inodeAt st.disk b).mode = true := hfile
      rw [readRest, if_pos hmode] at h
      simp only [objAt_body_dir hfile]
      exact (Except.ok.inj h).symm
    | false =>
      rw [wf.readRest_eq env hb hfile hlen] at h
      simp only [objAt_body_file hfile, List.length_take, List.length_drop]
      exact (Except.ok.inj h).symm

end Codes

/-! ## One call, and a run of calls -/

/-- A call that returns, labelled with its output. -/
def CallStep (st : FsState) (x : (Env × Op) × Output) (st' : FsState) : Prop :=
  OpStep st x.1 st' ∧ observe x.1.1 st x.1.2 = .ok x.2

theorem Outcome.step_iff {st st' : FsState} {lost : Prop} {spec : Int × Files} {r : Int}
    (h : Outcome st st' lost spec r) :
    (Output.code r = .code spec.1 ∧ fileTree st' = spec.2) ↔ ¬ lost := by
  constructor
  · rintro ⟨-, hnext⟩ hlost
    obtain ⟨-, -, hsame, hne⟩ := h.lost hlost
    exact hne (hnext.symm.trans hsame)
  · intro hno
    rw [h.done hno]
    exact ⟨rfl, rfl⟩

theorem step_of_eq {st' : FsState} {spec : Int × Files} {r : Int} (h : spec = (r, fileTree st')) :
    (Output.code r = .code spec.1 ∧ fileTree st' = spec.2) ↔ ¬ False := by
  rw [h]
  exact iff_of_true ⟨rfl, rfl⟩ not_false

/-- A call that changes nothing answers what the name space says. -/
theorem fileTree_look {st st' : FsState} {answers : Prop} {r : Int} {α : Type}
    {x : Except Fault (Int × α)} (h : (x.map fun r => (r.1, st)) = .ok (r, st'))
    (hanswers : answers) : (answers ∧ fileTree st' = fileTree st) ↔ ¬ False := by
  cases x with
  | error e => simp [Except.map] at h
  | ok y =>
    obtain ⟨-, rfl⟩ := Prod.mk.inj (Except.ok.inj h)
    exact iff_of_true ⟨hanswers, rfl⟩ not_false

/-- The output of a call that changes the state. -/
theorem output_eq_code {x : Except Fault (Int × FsState)} {r : Int} {st' : FsState} {out : Output}
    (hrun : x = .ok (r, st')) (hout : x.map (fun r => Output.code r.1) = .ok out) :
    out = .code r := by
  rw [hrun] at hout
  exact (Except.ok.inj hout).symm

/-- A call is a step of the name space unless it is lost. -/
theorem CallStep.step_iff {st st' : FsState} {x : (Env × Op) × Output} (h : CallStep st x st')
    (wf : WellFormed st) :
    Files.Step (fileTree st) x (fileTree st') ↔ ¬ x.1.2.Lost st := by
  obtain ⟨⟨env, op⟩, out⟩ := x
  obtain ⟨⟨hsized, hmode, r, hrun⟩, hout⟩ := h
  cases op with
  | create p mode =>
    obtain rfl := output_eq_code hrun hout
    exact (wf.fileTree_create env p hrun).step_iff
  | mkdir p mode =>
    obtain rfl := output_eq_code hrun hout
    exact (wf.fileTree_mkdir env p hmode hrun).step_iff
  | unlink p =>
    obtain rfl := output_eq_code hrun hout
    exact step_of_eq (wf.fileTree_unlink env p hrun)
  | rmdir p =>
    obtain rfl := output_eq_code hrun hout
    exact step_of_eq (wf.fileTree_rmdir env p hrun)
  | rename p q =>
    obtain rfl := output_eq_code hrun hout
    exact (wf.fileTree_rename env p hrun).step_iff
  | write p buf off =>
    obtain rfl := output_eq_code hrun hout
    exact step_of_eq (wf.fileTree_write env p hsized hrun)
  | truncate p len =>
    obtain rfl := output_eq_code hrun hout
    exact step_of_eq (wf.fileTree_truncate env p hrun)
  | chmod p mode =>
    obtain rfl := output_eq_code hrun hout
    exact step_of_eq (wf.fileTree_chmod env p hmode hrun)
  | utime p ut =>
    obtain rfl := output_eq_code hrun hout
    exact step_of_eq (wf.fileTree_utime env p hrun)
  | statfs p =>
    obtain ⟨-, rfl⟩ := Prod.mk.inj (Except.ok.inj hrun)
    exact iff_of_true ⟨⟨_, (Except.ok.inj hout).symm⟩, rfl⟩ not_false
  | getattr p => exact fileTree_look hrun (wf.observe_getattr env p hout)
  | readdir p => exact fileTree_look hrun (wf.observe_readdir env p hout)
  | read p len off => exact fileTree_look hrun (wf.observe_read env p hsized hout)

/-- A lost call returns 0 and changes nothing that can be seen. -/
theorem CallStep.of_lost {st st' : FsState} {x : (Env × Op) × Output} (h : CallStep st x st')
    (wf : WellFormed st) (hlost : x.1.2.Lost st) :
    x.2 = .code 0 ∧ fileTree st' = fileTree st := by
  obtain ⟨⟨env, op⟩, out⟩ := x
  obtain ⟨⟨-, hmode, r, hrun⟩, hout⟩ := h
  cases op with
  | create p mode =>
    obtain ⟨rfl, -, hsame, -⟩ := (wf.fileTree_create env p hrun).lost hlost
    exact ⟨output_eq_code hrun hout, hsame⟩
  | mkdir p mode =>
    obtain ⟨rfl, -, hsame, -⟩ := (wf.fileTree_mkdir env p hmode hrun).lost hlost
    exact ⟨output_eq_code hrun hout, hsame⟩
  | rename p q =>
    obtain ⟨rfl, -, hsame, -⟩ := (wf.fileTree_rename env p hrun).lost hlost
    exact ⟨output_eq_code hrun hout, hsame⟩
  | _ => exact hlost.elim

/-- A call that returns is a step of the name space exactly when it is not lost; a lost call returns
0 and leaves the name space as it is. -/
theorem callStep_iff {st st' : FsState} (wf : WellFormed st) {x : (Env × Op) × Output}
    (h : CallStep st x st') :
    (Files.Step (fileTree st) x (fileTree st') ↔ ¬ x.1.2.Lost st) ∧
      (x.1.2.Lost st → x.2 = .code 0 ∧ fileTree st' = fileTree st) :=
  ⟨h.step_iff wf, h.of_lost wf⟩

theorem emptyState_callStep : ∃ st',
    CallStep (emptyState 399) ((quietEnv, .create pathA 0o644), .code 0) st' ∧
      ¬ (Op.create pathA 0o644).Lost (emptyState 399) := by
  obtain ⟨st', hrun, -⟩ := emptyState_create 399 (by omega) (by omega)
  refine ⟨st', ⟨⟨trivial, .inl (by decide), 0, hrun⟩, ?_⟩, ?_⟩
  · simp only [observe, hrun, Except.map]
  · rintro ⟨n, ready, hfull⟩
    obtain rfl : 2 = n := Except.ok.inj ready.resolved
    have hslot := hfull 0
    rw [show (emptyState 399).disk = emptyDisk 399 from rfl,
      emptyDisk_entries (by omega) (by omega)] at hslot
    simp [noEntry] at hslot

/-- `fs_create ("/a", 0644)` in an empty file system. -/
theorem callStep_iff_create : ∃ st', Files.Step (fileTree (emptyState 399))
    ((quietEnv, .create pathA 0o644), .code 0) (fileTree st') := by
  obtain ⟨st', hstep, hno⟩ := emptyState_callStep
  exact ⟨st', (callStep_iff (emptyState_wellFormed (by omega) (by omega)) hstep).1.mpr hno⟩

/-- A run without lost calls is a run of the name space, with the same outputs. -/
theorem callStep_run {st st' : FsState} {xs : List ((Env × Op) × Output)} (wf : WellFormed st)
    (hrun : Steps (fun s x s' => CallStep s x s' ∧ ¬ x.1.2.Lost s) st xs st') :
    Steps Files.Step (fileTree st) xs (fileTree st') :=
  hrun.refine fileTree (fun _ _ _ hwf h => h.1.1.wellFormed hwf)
    (fun _ _ _ hwf h => (h.1.step_iff hwf).mpr h.2) wf

/-- `/a` is created and looked at. -/
theorem callStep_run_create : ∃ st' out, Steps Files.Step (fileTree (emptyState 399))
    [((quietEnv, .create pathA 0o644), .code 0), ((quietEnv, .getattr pathA), out)]
    (fileTree st') := by
  have wf : WellFormed (emptyState 399) := emptyState_wellFormed (by omega) (by omega)
  obtain ⟨st', hstep, hno⟩ := emptyState_callStep
  obtain ⟨r, hr⟩ := (hstep.1.wellFormed wf).fsGetattr_returns quietEnv pathA
  have hlook : CallStep st' ((quietEnv, .getattr pathA), .stat r.1 r.2) st' := by
    refine ⟨⟨trivial, trivial, r.1, ?_⟩, ?_⟩
    · simp only [Op.call, exec, hr, Except.map]
    · simp only [observe, hr, Except.map]
  exact ⟨st', _, callStep_run wf (.cons ⟨hstep, hno⟩ (.single ⟨hlook, id⟩))⟩

end SystemsProjects.Fs5600
