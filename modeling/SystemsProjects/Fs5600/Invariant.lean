import SystemsProjects.Fs5600.Create
import SystemsProjects.Fs5600.Contents
import SystemsProjects.Fs5600.Image
import SystemsProjects.Lib.Steps

/-!
# Runs of the file system

`Effect` lists what a call on a well-formed image can do besides failing: one case for each
operation that changes the state. `WellFormed.exec_cases` says that every call with canonical
paths does one of three things: it leaves the state alone, it has its effect, or it aborts because
fewer blocks are unmarked than it needs. The results about runs are read off this list.
-/

namespace SystemsProjects.Fs5600
open SystemsProjects.Lib

/-- A call with canonical paths. -/
inductive Op where
  | create (p : CanonPath) (mode : UInt32)
  | mkdir (p : CanonPath) (mode : UInt32)
  | unlink (p : CanonPath)
  | rmdir (p : CanonPath)
  | rename (p q : CanonPath)
  | write (p : CanonPath) (buf : List UInt8) (offset : Nat)
  | truncate (p : CanonPath) (len : Int)
  | chmod (p : CanonPath) (mode : UInt32)
  | utime (p : CanonPath) (ut : Option UInt32)
  | statfs (p : CanonPath)
  | getattr (p : CanonPath)
  | readdir (p : CanonPath)
  | read (p : CanonPath) (len offset : Nat)

def Op.call : Op → Call
  | .create p mode => .create p.bytes mode
  | .mkdir p mode => .mkdir p.bytes mode
  | .unlink p => .unlink p.bytes
  | .rmdir p => .rmdir p.bytes
  | .rename p q => .rename p.bytes q.bytes
  | .write p buf offset => .write p.bytes buf offset
  | .truncate p len => .truncate p.bytes len
  | .chmod p mode => .chmod p.bytes mode
  | .utime p ut => .utime p.bytes ut
  | .statfs p => .statfs p.bytes
  | .getattr p => .getattr p.bytes
  | .readdir p => .readdir p.bytes
  | .read p len offset => .read p.bytes len offset

/-- Lengths are below 2^31. -/
def Op.Sized : Op → Prop
  | .write _ buf _ => buf.length < 2 ^ 31
  | .read _ len _ => len < 2 ^ 31
  | _ => True

/-- The type bits of a mode argument are absent or agree with the object. -/
def Op.ModeOk (st : FsState) : Op → Prop
  | .create _ mode => TypeAgrees mode sIfreg
  | .mkdir _ mode => TypeAgrees mode sIfdir
  | .chmod p mode => ∀ b, resolve st.disk 2 p.comps = .ok b →
      TypeAgrees mode (inodeAt st.disk b).mode
  | _ => True

/-- The blocks a call takes once it is past its tests. -/
inductive Needs (st : FsState) : Op → Nat → Prop
  | create {p : CanonPath} {mode : UInt32} {n : Nat} :
      ReadyIn st p n → Needs st (.create p mode) 1
  | mkdir {p : CanonPath} {mode : UInt32} {n : Nat} :
      ReadyIn st p n → Needs st (.mkdir p mode) 2
  | write {p : CanonPath} {buf : List UInt8} {off f : Nat} : Writable st p f off buf.length →
      Needs st (.write p buf off) (missing (inodeAt st.disk f) off buf.length).card

/-- The call takes or gives back at least one block. -/
def Op.MovesBlocks (st : FsState) : Op → Prop
  | .create p _ => ∃ n, ReadyIn st p n
  | .mkdir p _ => ∃ n, ReadyIn st p n
  | .unlink p => ∃ n b i, NamedBy st p n b i ∧ isDirAt st.disk b = false
  | .rmdir p => ∃ n b i, NamedBy st p n b i ∧ isDirAt st.disk b = true ∧
      ∀ j, (entriesAt st.disk b j).valid = false
  | .write p buf off => ∃ f, Writable st p f off buf.length ∧
      (missing (inodeAt st.disk f) off buf.length).Nonempty
  | .truncate p len => len = 0 ∧ ∃ n b i, NamedBy st p n b i ∧ isDirAt st.disk b = false ∧
      ∃ j, (inodeAt st.disk b).ptrs j ≠ 0
  | _ => False

/-- What a call that succeeds does to the state. -/
inductive Effect (env : Env) (st : FsState) : Op → FsState → Prop
  | create {p : CanonPath} {mode : UInt32} {n b : Nat} {st' : FsState} : ReadyIn st p n →
      FirstFit st.unmarked st'.unmarked →
      Placed st st' n b p.last none (newFileInode env mode) → Effect env st (.create p mode) st'
  | mkdir {p : CanonPath} {mode : UInt32} {n b t : Nat} {st' : FsState} : ReadyIn st p n →
      t < 32768 → FirstFit st.unmarked st'.unmarked →
      Placed st st' n b p.last (some t) (newDirInode env mode t) → Effect env st (.mkdir p mode) st'
  | unlink {p : CanonPath} {n b : Nat} {i : Fin 128} {st' : FsState} : NamedBy st p n b i →
      isDirAt st.disk b = false → Cleared st st' env.time n b i → Effect env st (.unlink p) st'
  | rmdir {p : CanonPath} {n b : Nat} {i : Fin 128} {st' : FsState} : NamedBy st p n b i →
      isDirAt st.disk b = true → (∀ j, (entriesAt st.disk b j).valid = false) →
      Cleared st st' env.time n b i → Effect env st (.rmdir p) st'
  | rename {p q : CanonPath} {n b : Nat} {i j : Fin 128} {st' : FsState} : NamedBy st p n b j →
      Renamed st st' n i q.last → Effect env st (.rename p q) st'
  | write {p : CanonPath} {buf : List UInt8} {off f : Nat} {st' : FsState} :
      Writable st p f off buf.length → Grown (startWrite env st f off buf.length) st' f off buf →
      Effect env st (.write p buf off) st'
  | truncate {p : CanonPath} {n b : Nat} {i : Fin 128} {st' : FsState} : NamedBy st p n b i →
      Emptied st st' b → Effect env st (.truncate p 0) st'
  | chmod {p : CanonPath} {mode : UInt32} {n b : Nat} {i : Fin 128} : NamedBy st p n b i →
      Effect env st (.chmod p mode) (st.write b (encodeInode (chmodInode mode (inodeAt st.disk b))))
  | utime {p : CanonPath} {ut : Option UInt32} {n b : Nat} {i : Fin 128} : NamedBy st p n b i →
      Effect env st (.utime p ut) (st.write b (encodeInode (utimeInode env ut (inodeAt st.disk b))))

/-! ## The calls that only look -/

section Look
variable {st : FsState} (wf : WellFormed st) (env : Env) (p : CanonPath)
include wf

theorem WellFormed.fsGetattr_returns : ∃ r, fsGetattr env p.bytes st = .ok r := by
  have hpath := p.pathToInum_eq wf.toTreeOk (env.call 0)
  simp only [fsGetattr, hpath, ok_bind]
  split_ifs
  · exact ⟨_, rfl⟩
  · exact ⟨_, rfl⟩

theorem WellFormed.fsReaddir_returns : ∃ r, fsReaddir env p.bytes st = .ok r := by
  have hpath := p.pathToInum_eq wf.toTreeOk (env.call 0)
  simp only [fsReaddir, hpath, ok_bind]
  split_ifs
  · exact ⟨_, rfl⟩
  · exact ⟨_, rfl⟩
  · exact ⟨_, rfl⟩

theorem WellFormed.fsRead_returns {len : Nat} (hlen : len < 2 ^ 31) (offset : Nat) :
    ∃ r, fsRead env p.bytes len offset st = .ok r := by
  have ok := wf.toTreeOk
  cases hres : resolve st.disk 2 p.comps with
  | error e =>
    have hpath := p.pathToInum_eq ok (env.call 0)
    have he := codeOf_error_neg hres
    rw [hres] at hpath
    simp only [fsRead, hpath, ok_bind, codeOf]
    rw [if_pos he]
    exact ⟨_, rfl⟩
  | ok f =>
    rw [ok.fsRead_eq env p hres]
    cases hfile : isDirAt st.disk f with
    | true =>
      have hmode : sIsdir (inodeAt st.disk f).mode = true := hfile
      exact ⟨_, by rw [readRest, if_pos hmode]⟩
    | false => exact ⟨_, wf.readRest_eq env (resolve_live .root hres) hfile hlen offset⟩

end Look

/-! ## The three outcomes of a call -/

/-- A call leaves the state alone, has its effect, or aborts for want of blocks. A call that
leaves the state alone would have moved no block. -/
theorem WellFormed.exec_cases {st : FsState} (wf : WellFormed st) (env : Env) (op : Op)
    (hop : op.Sized) :
    (∃ r, exec env st op.call = .ok (r, st) ∧ ¬ op.MovesBlocks st) ∨
    (∃ r st', 0 ≤ r ∧ exec env st op.call = .ok (r, st') ∧ Effect env st op st') ∨
    ∃ k, Needs st op k ∧ st.unmarked.card < k ∧ exec env st op.call = .error .assertion := by
  have ok := wf.toTreeOk
  cases op with
  | create p mode =>
    rcases ok.fsCreate_cases env p mode with
      ⟨r, -, -, hno, hrun, -⟩ | ⟨n, ready, ⟨hempty, hrun⟩ | ⟨b, st', hrun, hfit, hplaced, -⟩⟩
    · exact .inl ⟨r, hrun, hno⟩
    · exact .inr (.inr ⟨1, .create ready, by simp [hempty], hrun⟩)
    · exact .inr (.inl ⟨0, st', le_rfl, hrun, .create ready hfit hplaced⟩)
  | mkdir p mode =>
    rcases ok.fsMkdir_cases env p mode with
      ⟨r, -, -, hno, hrun, -⟩ |
      ⟨n, ready, ⟨hcard, hrun⟩ | ⟨b, t, st', hrun, ht, hfit, hplaced, -⟩⟩
    · exact .inl ⟨r, hrun, hno⟩
    · exact .inr (.inr ⟨2, .mkdir ready, hcard, hrun⟩)
    · exact .inr (.inl ⟨0, st', le_rfl, hrun, .mkdir ready ht hfit hplaced⟩)
  | unlink p =>
    rcases ok.fsUnlink_cases env p with
      ⟨r, -, hrun, hno⟩ | ⟨n, b, i, st', named, hfile, hrun, hclear⟩
    · exact .inl ⟨r, hrun, hno⟩
    · exact .inr (.inl ⟨0, st', le_rfl, hrun, .unlink named hfile hclear⟩)
  | rmdir p =>
    rcases ok.fsRmdir_cases env p with
      ⟨r, -, hrun, hno⟩ | ⟨n, b, i, st', named, hdir, hempty, hrun, hclear⟩
    · exact .inl ⟨r, hrun, hno⟩
    · exact .inr (.inl ⟨0, st', le_rfl, hrun, .rmdir named hdir hempty hclear⟩)
  | rename p q =>
    rcases ok.fsRename_cases env p q with
      ⟨r, -, hrun, -⟩ | ⟨n, b, j, i, st', named, hrun, hren, -, -⟩
    · exact .inl ⟨r, hrun, id⟩
    · exact .inr (.inl ⟨0, st', le_rfl, hrun, .rename named hren⟩)
  | write p buf off =>
    rcases wf.fsWrite_cases env p buf hop off with
      ⟨r, -, hrun, hno⟩ | ⟨f, w, ⟨hcard, hrun⟩ | ⟨st', hrun, hgrown⟩⟩
    · exact .inl ⟨r, hrun, fun ⟨f, w, _⟩ => hno ⟨f, w⟩⟩
    · exact .inr (.inr ⟨_, .write w, hcard, hrun⟩)
    · exact .inr (.inl ⟨buf.length, st', by omega, hrun, .write w hgrown⟩)
  | truncate p len =>
    rcases ok.fsTruncate_cases env p len with
      ⟨r, -, hrun, hno⟩ | ⟨hlen, n, b, i, st', named, hrun, hempty⟩
    · exact .inl ⟨r, hrun, fun ⟨hlen, n, b, i, named, hfile, _⟩ =>
        hno ⟨hlen, n, b, i, named, hfile⟩⟩
    · subst hlen
      exact .inr (.inl ⟨0, st', le_rfl, hrun, .truncate named hempty⟩)
  | chmod p mode =>
    rcases ok.fsChmod_cases env p mode with ⟨r, -, hrun⟩ | ⟨n, b, i, named, hrun⟩
    · exact .inl ⟨r, hrun, id⟩
    · exact .inr (.inl ⟨0, _, le_rfl, hrun, .chmod named⟩)
  | utime p ut =>
    rcases ok.fsUtime_cases env p ut with ⟨r, -, hrun⟩ | ⟨n, b, i, named, hrun⟩
    · exact .inl ⟨r, hrun, id⟩
    · exact .inr (.inl ⟨0, _, le_rfl, hrun, .utime named⟩)
  | statfs p => exact .inl ⟨0, rfl, id⟩
  | getattr p =>
    obtain ⟨r, hrun⟩ := wf.fsGetattr_returns env p
    exact .inl ⟨r.1, by simp only [Op.call, exec, hrun]; rfl, id⟩
  | readdir p =>
    obtain ⟨r, hrun⟩ := wf.fsReaddir_returns env p
    exact .inl ⟨r.1, by simp only [Op.call, exec, hrun]; rfl, id⟩
  | read p len offset =>
    obtain ⟨r, hrun⟩ := wf.fsRead_returns env p hop offset
    exact .inl ⟨r.1, by simp only [Op.call, exec, hrun]; rfl, id⟩

/-- A call that returns has left the state alone, with nothing to move, or has had its effect. -/
theorem WellFormed.exec_ok {st st' : FsState} (wf : WellFormed st) {env : Env} {op : Op}
    (hop : op.Sized) {r : Int} (h : exec env st op.call = .ok (r, st')) :
    (st' = st ∧ ¬ op.MovesBlocks st) ∨ (0 ≤ r ∧ Effect env st op st') := by
  rcases wf.exec_cases env op hop with ⟨r', hrun, hno⟩ | ⟨r', s', hr, hrun, heff⟩ | ⟨k, -, -, hrun⟩
  · rw [hrun] at h
    obtain ⟨-, rfl⟩ := Prod.mk.inj (Except.ok.inj h)
    exact .inl ⟨rfl, hno⟩
  · rw [hrun] at h
    obtain ⟨rfl, rfl⟩ := Prod.mk.inj (Except.ok.inj h)
    exact .inr ⟨hr, heff⟩
  · rw [hrun] at h
    exact absurd h (by simp)

/-! ## The invariant -/

theorem typeAgrees_dir {mode : UInt32} (h : TypeAgrees mode sIfdir) :
    mode &&& sIfmt = 0 ∨ mode &&& sIfmt = sIfdir := by
  rcases h with h | h
  · exact .inl h
  · exact .inr (h.trans (by decide))

/-- Every effect keeps the image well formed. -/
theorem Effect.wellFormed {env : Env} {st st' : FsState} {op : Op} (h : Effect env st op st')
    (wf : WellFormed st) (hmode : op.ModeOk st) : WellFormed st' := by
  have ok := wf.toTreeOk
  cases h with
  | create ready _ hplaced => exact hplaced.wellFormed wf ready.absent (newObject_file env _)
  | mkdir ready ht _ hplaced =>
    exact hplaced.wellFormed wf ready.absent (newObject_dir env (typeAgrees_dir hmode) ht)
  | unlink named hfile hclear =>
    exact (hclear.unlinkStep ok named fun j hdir => by simp [hfile] at hdir).wellFormed wf
  | rmdir named hdir hempty hclear =>
    exact (hclear.unlinkStep ok named fun j _ => hempty j).wellFormed wf
  | rename named hren => exact hren.wellFormed wf
  | write w hgrown => exact w.wellFormed hgrown wf
  | truncate named hempty => exact hempty.wellFormed wf
  | chmod named =>
    exact wf.write_inode named.live_target rfl (sIsdir_chmod (hmode _ named.resolve_eq)) rfl
  | utime named => exact wf.write_inode named.live_target rfl rfl rfl

/-- A call, in its surroundings, that returns. -/
def OpStep (st : FsState) (x : Env × Op) (st' : FsState) : Prop :=
  x.2.Sized ∧ x.2.ModeOk st ∧ ∃ r, exec x.1 st x.2.call = .ok (r, st')

theorem OpStep.wellFormed {st st' : FsState} {x : Env × Op} (wf : WellFormed st)
    (h : OpStep st x st') : WellFormed st' := by
  obtain ⟨hsized, hmode, r, hrun⟩ := h
  rcases wf.exec_ok hsized hrun with ⟨rfl, -⟩ | ⟨-, heff⟩
  · exact wf
  · exact heff.wellFormed wf hmode

/-- Every run of calls keeps the image well formed, and in every state it reaches the next call
returns as well, unless it needs more blocks than are unmarked. -/
theorem wellFormed_run {st st' : FsState} {xs : List (Env × Op)} (wf : WellFormed st)
    (hrun : Steps OpStep st xs st') :
    WellFormed st' ∧ ∀ (env : Env) (op : Op), op.Sized →
      (∃ r st'', exec env st' op.call = .ok (r, st'')) ∨
      (exec env st' op.call = .error .assertion ∧ ∃ k, Needs st' op k ∧ st'.unmarked.card < k) := by
  have hwf : WellFormed st' :=
    hrun.invariant (fun s x t hs hstep => OpStep.wellFormed hs hstep) wf
  refine ⟨hwf, fun env op hop => ?_⟩
  rcases hwf.exec_cases env op hop with ⟨r, hr, -⟩ | ⟨r, s, -, hr, -⟩ | ⟨k, hk, hcard, hr⟩
  · exact .inl ⟨r, st', hr⟩
  · exact .inl ⟨r, s, hr⟩
  · exact .inr ⟨hr, k, hk, hcard⟩

/-- `fs_create ("/a")` in an empty file system returns 0. -/
theorem emptyState_create (table : Nat) (h3 : 3 ≤ table) (hlt : table < 32767) :
    ∃ st', exec quietEnv (emptyState table) (Op.create pathA 0o644).call = .ok (0, st') ∧
      ∃ b, Placed (emptyState table) st' 2 b pathA.last none (newFileInode quietEnv 0o644) := by
  have wf : WellFormed (emptyState table) := emptyState_wellFormed h3 (by omega)
  have hready : ReadyIn (emptyState table) pathA 2 := emptyState_readyIn h3 (by omega)
  have hfree : table + 1 ∈ (emptyState table).unmarked := FsState.mem_unmarked.mpr
    ⟨by omega, by rw [emptyState_marked (by omega)]; omega⟩
  obtain ⟨b, st', hrun, hplaced, -⟩ :=
    hready.fsCreate_ok wf.toTreeOk quietEnv 0o644 ⟨table + 1, hfree⟩
  exact ⟨st', hrun, b, hplaced⟩

theorem wellFormed_run_create : ∃ st', Steps OpStep (emptyState 399)
    [(quietEnv, .create pathA 0o644)] st' ∧ WellFormed st' := by
  obtain ⟨st', hrun, -⟩ := emptyState_create 399 (by omega) (by omega)
  have hstep : OpStep (emptyState 399) (quietEnv, .create pathA 0o644) st' :=
    ⟨trivial, .inl (by decide), 0, hrun⟩
  have hsteps := Steps.cons hstep (Steps.nil st')
  exact ⟨st', hsteps, (wellFormed_run (emptyState_wellFormed (by omega) (by omega)) hsteps).1⟩

/-- A call that returns a negative value has changed neither the disk nor the bitmap. -/
theorem exec_atomic {st st' : FsState} (wf : WellFormed st) (env : Env) (op : Op) (hop : op.Sized)
    {r : Int} (h : exec env st op.call = .ok (r, st')) (hr : r < 0) : st' = st := by
  rcases wf.exec_ok hop h with ⟨heq, -⟩ | ⟨hpos, -⟩
  · exact heq
  · omega

/-- `fs_unlink ("/a")` in an empty file system returns `-ENOENT`. -/
theorem exec_atomic_unlink :
    exec quietEnv (emptyState 399) (Op.unlink pathA).call = .ok (-enoent, emptyState 399) := by
  have wf : WellFormed (emptyState 399) := emptyState_wellFormed (by omega) (by omega)
  have hready : ReadyIn (emptyState 399) pathA 2 := emptyState_readyIn (by omega) (by omega)
  have hres : resolve (emptyState 399).disk 2 pathA.comps = .error (-enoent) := by
    rw [pathA.resolve_last hready.resolved]
    exact resolve_cons_none hready.dir hready.absent
  rcases wf.toTreeOk.withInode_cases quietEnv pathA with ⟨e, he, -, hrun⟩ | ⟨b, hb, -, -⟩
  · obtain rfl := Except.error.inj (he.symm.trans hres)
    have hcall :
        ∃ st', exec quietEnv (emptyState 399) (Op.unlink pathA).call = .ok (-enoent, st') :=
      ⟨_, hrun (unlinkRest quietEnv pathA.bytes (emptyState 399))⟩
    obtain ⟨st', hcall⟩ := hcall
    rw [hcall, exec_atomic wf quietEnv (.unlink pathA) trivial hcall (by decide)]
  · simp [hres] at hb

end SystemsProjects.Fs5600
