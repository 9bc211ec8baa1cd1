import SystemsProjects.Fs5600.Follow
import Mathlib.Data.List.Forall2

/-!
# Deleted data stays hidden

The bytes of an unmarked block and of uninitialised memory are never seen: two states that differ
only there give the same outputs under the same calls. `fs_rename` is left out. It compares the
names in all slots of a directory, and so depends on what the invalid ones hold.
-/

namespace SystemsProjects.Fs5600
open SystemsProjects.Lib

/-- What the caller gets of a call: the return value, and what is stored for it. -/
inductive Output where
  | code (r : Int)
  | stat (r : Int) (sb : Option Stat)
  | statvfs (r : Int) (st : Statvfs)
  | entries (r : Int) (es : List (Option (List UInt8) × Stat))
  | bytes (r : Int) (buf : List UInt8)

/-- The output of a call. -/
def observe (env : Env) (st : FsState) : Op → Except Fault Output
  | .statfs _ => .ok (.statvfs 0 (fsStatfs st))
  | .getattr p => (fsGetattr env p.bytes st).map fun r => .stat r.1 r.2
  | .readdir p => (fsReaddir env p.bytes st).map fun r => .entries r.1 (r.2.map shown)
  | .read p len offset => (fsRead env p.bytes len offset st).map fun r => .bytes r.1 r.2
  | op => (exec env st op.call).map fun r => .code r.1

/-- The outputs of calls made one after another. -/
def outputs (st : FsState) : List (Env × Op) → Except Fault (List Output)
  | [] => .ok []
  | x :: xs => do
    let out ← observe x.1 st x.2
    let (_, st) ← exec x.1 st x.2.call
    let outs ← outputs st xs
    .ok (out :: outs)

/-- The same call by the same caller at the same time. -/
def SameCall (x x' : Env × Op) : Prop := x.1.SameCaller x'.1 ∧ x'.2 = x.2

/-- States with the same bitmap agree if they agree on the marked blocks. -/
theorem agree_of_marked {st st' : FsState} (wf : WellFormed st) (wf' : WellFormed st')
    (hnum : st'.numBlocks = st.numBlocks) (hbitmap : st'.blockBitmap = st.blockBitmap)
    (hdata : ∀ b, Marked st b → st'.disk.data b = st.disk.data b) : Agree st st' where
  wf := wf
  wf' := wf'
  numBlocks := hnum
  blockBitmap := hbitmap
  objects := by
    intro n hn
    have hself : SameObject st.disk st.disk n :=
      ⟨rfl, fun _ _ => ⟨rfl, fun _ => ⟨rfl, rfl⟩⟩, fun _ => rfl⟩
    exact hself.keep (wf.files n hn) (fun _ _ => rfl)
      fun x hx => hdata x (wf.used x (hx.inUse hn)).2.2.1

/-! ## One call -/

/-- If the first call returns, the second one returns the same value in a state that agrees, and
both have the same output. -/
def SeenAlike (o o' : Except Fault Output) (x x' : Except Fault (Int × FsState)) : Prop :=
  ∀ r t, x = .ok (r, t) → ∃ out t', o = .ok out ∧ o' = .ok out ∧ x' = .ok (r, t') ∧ Agree t t'

/-- The calls whose only output is the return value. -/
theorem Follows.seenAlike {x x' : Except Fault (Int × FsState)} (h : Follows x x') :
    SeenAlike (x.map fun r => .code r.1) (x'.map fun r => .code r.1) x x' := by
  intro r t hx
  obtain ⟨t', hx', hagree⟩ := h r t hx
  refine ⟨.code r, t', ?_, ?_, hx', hagree⟩
  · rw [hx]
    rfl
  · rw [hx']
    rfl

/-- The calls that leave the state alone. `g` is the part of the result that can be seen. -/
theorem Agree.seenAlike {st st' : FsState} (h : Agree st st') {α β : Type} (g : α → β)
    (mk : Int → β → Output) {x x' : Except Fault (Int × α)}
    (hx : x'.map (fun r => (r.1, g r.2)) = x.map fun r => (r.1, g r.2)) :
    SeenAlike (x.map fun r => mk r.1 (g r.2)) (x'.map fun r => mk r.1 (g r.2))
      (x.map fun r => (r.1, st)) (x'.map fun r => (r.1, st')) := by
  intro r t hrun
  cases x with
  | error e => simp [Except.map] at hrun
  | ok y =>
    cases x' with
    | error e => simp [Except.map] at hx
    | ok y' =>
      obtain ⟨hr, hseen⟩ := Prod.mk.inj (Except.ok.inj hx)
      obtain ⟨rfl, rfl⟩ := Prod.mk.inj (Except.ok.inj hrun)
      refine ⟨mk y.1 (g y.2), st', rfl, ?_, ?_, h⟩
      · simp only [Except.map, hr, hseen]
      · simp only [Except.map, hr]

theorem Agree.step {st st' : FsState} (h : Agree st st') {env env' : Env}
    (hcaller : env.SameCaller env') {op : Op} (hsized : op.Sized) (hmode : op.ModeOk st)
    (hrename : ∀ p q, op ≠ .rename p q) :
    SeenAlike (observe env st op) (observe env' st' op) (exec env st op.call)
      (exec env' st' op.call) := by
  cases op with
  | create p mode => exact (h.fsCreate hcaller p mode).seenAlike
  | mkdir p mode => exact (h.fsMkdir hcaller p hmode).seenAlike
  | unlink p => exact (h.fsUnlink hcaller p).seenAlike
  | rmdir p => exact (h.fsRmdir hcaller p).seenAlike
  | rename p q => exact absurd rfl (hrename p q)
  | write p buf off => exact (h.fsWrite hcaller hsized).seenAlike
  | truncate p len => exact (h.fsTruncate hcaller p len).seenAlike
  | chmod p mode => exact (h.fsChmod p hmode).seenAlike
  | utime p ut => exact (h.fsUtime hcaller p ut).seenAlike
  | statfs p =>
    intro r t hrun
    obtain ⟨rfl, rfl⟩ := Prod.mk.inj (Except.ok.inj hrun)
    refine ⟨_, st', rfl, ?_, rfl, h⟩
    simp only [observe, h.fsStatfs_eq]
  | getattr p => exact h.seenAlike id .stat (by rw [h.fsGetattr_eq env env' p])
  | readdir p => exact h.seenAlike (List.map shown) .entries (h.fsReaddir_eq env env' p)
  | read p len off => exact h.seenAlike id .bytes (by rw [h.fsRead_eq env env' p hsized off])

theorem Agree.modeOk {st st' : FsState} (h : Agree st st') {op : Op} (hmode : op.ModeOk st) :
    op.ModeOk st' := by
  cases op with
  | chmod p mode =>
    intro b hres
    rw [h.resolve_root] at hres
    rw [h.inodeAt (resolve_live .root hres)]
    exact hmode b hres
  | _ => exact hmode

/-! ## Runs -/

theorem Agree.run {st st' t : FsState} {xs xs' : List (Env × Op)} (h : Agree st st')
    (hrun : Steps OpStep st xs t) (hcalls : List.Forall₂ SameCall xs xs')
    (hrename : ∀ x ∈ xs, ∀ p q, x.2 ≠ .rename p q) :
    ∃ outs t', outputs st xs = .ok outs ∧ outputs st' xs' = .ok outs ∧ Steps OpStep st' xs' t' := by
  induction hrun generalizing st' xs' with
  | nil st =>
    cases hcalls with
    | nil => exact ⟨[], st', rfl, rfl, .nil st'⟩
  | @cons st u t x xs hstep hrun ih =>
    cases hcalls with
    | @cons _ x' _ xs' hcall hcalls =>
      obtain ⟨hsized, hmode, r, hexec⟩ := hstep
      obtain ⟨env', op'⟩ := x'
      obtain ⟨hcaller, rfl⟩ := hcall
      obtain ⟨out, u', hout, hout', hexec', hagree⟩ :=
        h.step hcaller hsized hmode (hrename x List.mem_cons_self) r u hexec
      obtain ⟨outs, t', houts, houts', hsteps⟩ := ih hagree hcalls
        fun y hy => hrename y (List.mem_cons_of_mem x hy)
      refine ⟨out :: outs, t', ?_, ?_, .cons ⟨hsized, h.modeOk hmode, r, hexec'⟩ hsteps⟩
      · simp only [outputs, hout, hexec, houts, ok_bind]
      · simp only [outputs, hout', hexec', houts', ok_bind]

/-- Two well-formed states with the same bitmap and the same marked blocks give the same outputs in
every run of calls that return, whatever their unmarked blocks and uninitialised memory hold. -/
theorem outputs_eq_of_marked {st st' t : FsState} (wf : WellFormed st) (wf' : WellFormed st')
    (hnum : st'.numBlocks = st.numBlocks) (hbitmap : st'.blockBitmap = st.blockBitmap)
    (hdata : ∀ b, Marked st b → st'.disk.data b = st.disk.data b) {xs xs' : List (Env × Op)}
    (hrun : Steps OpStep st xs t) (hcalls : List.Forall₂ SameCall xs xs')
    (hrename : ∀ x ∈ xs, ∀ p q, x.2 ≠ .rename p q) :
    ∃ outs t', outputs st xs = .ok outs ∧ outputs st' xs' = .ok outs ∧ Steps OpStep st' xs' t' :=
  (agree_of_marked wf wf' hnum hbitmap hdata).run hrun hcalls hrename

/-- Surroundings in which the stack holds 0xff everywhere. -/
def noisyEnv : Env := { quietEnv with junk := fun _ _ => 0xff }

/-- Two bytes written to `/a` and read back: the new block 4 holds zeros in one state and 0xff
everywhere in the other. -/
theorem outputs_eq_oneFile : ∃ outs,
    outputs (oneFile 399) [(quietEnv, .write pathA [0x68, 0x69] 0), (quietEnv, .read pathA 10 0)] =
      .ok outs ∧
    outputs ((oneFile 399).write 4 fun _ => 0xff)
      [(noisyEnv, .write pathA [0x68, 0x69] 0), (noisyEnv, .read pathA 10 0)] = .ok outs := by
  have wf : WellFormed (oneFile 399) := oneFile_wellFormed (by omega) (by omega)
  have hino : inodeAt (oneFile 399).disk 3 = newFileInode quietEnv 0o644 :=
    oneFile_inode (by omega) (by omega)
  have w : Writable (oneFile 399) pathA 3 0 2 :=
    ⟨oneFile_resolve (by omega) (by omega), oneFile_isDir (by omega) (by omega),
      by rw [hino]; decide, by rw [hino]; decide⟩
  have htwo : [(0x68 : UInt8), 0x69].length < 2 ^ 31 := by decide
  have hten : 10 < 2 ^ 31 := by decide
  obtain ⟨t, hwrite⟩ : ∃ t, OpStep (oneFile 399) (quietEnv, .write pathA [0x68, 0x69] 0) t := by
    rcases wf.fsWrite_cases quietEnv pathA [0x68, 0x69] htwo 0 with
      ⟨r, -, -, hno⟩ | ⟨f, w', ⟨hcard, -⟩ | ⟨t, hrun, -⟩⟩
    · exact absurd ⟨3, w⟩ hno
    · obtain rfl := Except.ok.inj (w'.resolved.symm.trans w.resolved)
      exact absurd hcard (not_lt.mpr oneFile_room)
    · exact ⟨t, htwo, trivial, _, hrun⟩
  have hread : OpStep t (quietEnv, .read pathA 10 0) t := by
    obtain ⟨r, hread⟩ := (OpStep.wellFormed wf hwrite).fsRead_returns quietEnv pathA hten 0
    exact ⟨hten, trivial, r.1, by simp only [Op.call, exec, hread, Except.map]⟩
  have hcaller : quietEnv.SameCaller noisyEnv := ⟨rfl, rfl, rfl⟩
  have hcalls : List.Forall₂ SameCall
      [(quietEnv, .write pathA [0x68, 0x69] 0), (quietEnv, .read pathA 10 0)]
      [(noisyEnv, .write pathA [0x68, 0x69] 0), (noisyEnv, .read pathA 10 0)] :=
    .cons ⟨hcaller, rfl⟩ (.cons ⟨hcaller, rfl⟩ .nil)
  obtain ⟨outs, -, houts, houts', -⟩ := outputs_eq_of_marked wf
    (wf.write_unused (fun h => oneFile_unmarked (wf.used 4 h).2.2.1) fun _ => 0xff) rfl rfl
    (fun b hb => Disk.write_ne _ _ fun h => oneFile_unmarked (h ▸ hb))
    (.cons hwrite (.cons hread (.nil t))) hcalls (by simp)
  exact ⟨outs, houts, houts'⟩

end SystemsProjects.Fs5600
