import SystemsProjects.Fs5600.Secrecy
import SystemsProjects.Fs5600.Listing
import SystemsProjects.Fs5600.Rename
import SystemsProjects.Fs5600.Errors
import SystemsProjects.Lib.NameSpace
import Mathlib.Data.List.Infix

/-!
# What the file system is for

A name space of files and directories, without blocks, slots, inode numbers or a bitmap: `Files`
says what each path shows, and `Files.exec` and `Files.Answers` say what each call makes of it and
answers. `fileTree st` is the name space a state of `fs5600.c` stands for.
-/

namespace SystemsProjects.Fs5600
open SystemsProjects.Lib

/-- The bytes of a file, or the `size` field of a directory. -/
inductive Body where
  | file (bytes : List UInt8)
  | dir (size : Int)

/-- What a path shows. -/
structure Obj where
  mode : UInt32
  uid : UInt16
  gid : UInt16
  ctime : UInt32
  mtime : UInt32
  body : Body

def Obj.isDir (o : Obj) : Bool :=
  match o.body with
  | .file _ => false
  | .dir _ => true

def Obj.size (o : Obj) : Int :=
  match o.body with
  | .file bytes => bytes.length
  | .dir size => size

/-- The attributes `sb` of an object, under some inode number. -/
def Obj.Shows (o : Obj) (sb : Stat) : Prop :=
  sb = { ino := sb.ino, mode := o.mode, nlink := 1, uid := o.uid, gid := o.gid, size := o.size,
         blksize := (o.size + 4096 - 1).tdiv 4096, atime := o.mtime, mtime := o.mtime,
         ctime := o.ctime }

/-- A file or directory that has just been made. -/
def Obj.fresh (env : Env) (mode : UInt32) (body : Body) : Obj :=
  { mode := mode, uid := env.uid, gid := env.gid, ctime := env.time, mtime := env.time,
    body := body }

abbrev Files := Space (List UInt8) Obj

namespace Files

/-- The code of a path that shows nothing: it leads through a file, or a component is missing. -/
def error (s : Files) (cs : List (List UInt8)) : Int :=
  if cs.inits.any fun ds => (s ds).any fun o => !o.isDir then -enotdir else -enoent

def put (s : Files) (cs : List (List UInt8)) (o : Obj) : Files := Function.update s cs (some o)

/-- A call on what a path shows. -/
def on (s : Files) (p : CanonPath) (k : Obj → Int × Files) : Int × Files :=
  match s p.comps with
  | none => (s.error p.comps, s)
  | some o => k o

def create (s : Files) (p : CanonPath) (o : Obj) : Int × Files :=
  match s p.dirs with
  | none => (-enoent, s)
  | some dir =>
    if !dir.isDir then (-enotdir, s)
    else if (s p.comps).isSome then (-eexist, s)
    else (0, s.put p.comps o)

/-- `p` goes, and its directory gets a new modification time. -/
def remove (s : Files) (time : UInt32) (p : CanonPath) : Files :=
  Function.update (Function.update s p.comps none) p.dirs
    ((s p.dirs).map fun dir => { dir with mtime := time })

/-- The directory `p` shows nothing. -/
def Empty (s : Files) (p : CanonPath) : Prop := ∀ c, s (p.comps ++ [c]) = none

def rename (s : Files) (p q : CanonPath) : Int × Files :=
  if (s p.comps).isNone then (-enoent, s)
  else if (s q.comps).isSome then (-eexist, s)
  else if p.dirs ≠ q.dirs then (-einval, s)
  else (0, s.move p.comps q.comps)

/-- `buf` over the bytes from `off` on. -/
def splice (bytes buf : List UInt8) (off : Nat) : List UInt8 :=
  bytes.take off ++ buf ++ bytes.drop (off + buf.length)

/-- `NUM_PTRS_INODE * FS_BLOCK_SIZE`. -/
def maxSize : Nat := 1019 * 4096

def write (s : Files) (env : Env) (p : CanonPath) (buf : List UInt8) (off : Nat) : Int × Files :=
  s.on p fun o =>
    match o.body with
    | .dir _ => (-eisdir, s)
    | .file bytes =>
      if off > bytes.length then (-einval, s)
      else if bytes.length + buf.length > maxSize then (-enospc, s)
      else (buf.length,
        s.put p.comps { o with mtime := env.time, body := .file (splice bytes buf off) })

def truncate (s : Files) (env : Env) (p : CanonPath) (len : Int) : Int × Files :=
  if len ≠ 0 then (-einval, s)
  else s.on p fun o =>
    if o.isDir then (-eisdir, s)
    else (0, s.put p.comps { o with mtime := env.time, body := .file [] })

open Classical in
/-- The return value of a call and the name space after it. -/
noncomputable def exec (env : Env) (s : Files) : Op → Int × Files
  | .create p mode => s.create p (.fresh env (mode ||| sIfreg) (.file []))
  | .mkdir p mode => s.create p (.fresh env (mode ||| sIfdir) (.dir 0))
  | .unlink p => s.on p fun o => if o.isDir then (-eisdir, s) else (0, s.remove env.time p)
  | .rmdir p => s.on p fun o =>
      if !o.isDir then (-enotdir, s)
      else if ¬ s.Empty p then (-enotempty, s)
      else (0, s.remove env.time p)
  | .rename p q => s.rename p q
  | .write p buf off => s.write env p buf off
  | .truncate p len => s.truncate env p len
  | .chmod p mode => s.on p fun o =>
      (0, s.put p.comps { o with mode := mode ||| (o.mode &&& sIfmt) })
  | .utime p ut => s.on p fun o => (0, s.put p.comps { o with mtime := ut.getD env.time })
  | _ => (0, s)

/-- `es` are the names in directory `cs`, each once, with the attributes of what they show. -/
structure Lists (s : Files) (cs : List (List UInt8)) (es : List (Option (List UInt8) × Stat)) :
    Prop where
  once : (es.map Prod.fst).Nodup
  sound : ∀ x ∈ es, ∃ c o, x.1 = some c ∧ s (cs ++ [c]) = some o ∧ o.Shows x.2
  complete : ∀ c, (s (cs ++ [c])).isSome → ∃ sb, (some c, sb) ∈ es

/-- The outputs of `getattr`. -/
def Stats (s : Files) (p : CanonPath) (out : Output) : Prop :=
  match s p.comps with
  | none => out = .stat (s.error p.comps) none
  | some o => ∃ sb, o.Shows sb ∧ out = .stat 0 (some sb)

/-- The outputs of `readdir`. -/
def Listing (s : Files) (p : CanonPath) (out : Output) : Prop :=
  match s p.comps with
  | none => out = .entries (s.error p.comps) []
  | some o =>
    if !o.isDir then out = .entries (-enotdir) []
    else ∃ es, s.Lists p.comps es ∧ out = .entries 0 es

/-- The output of `read`. -/
def Reads (s : Files) (p : CanonPath) (len off : Nat) (out : Output) : Prop :=
  match s p.comps with
  | none => out = .bytes (s.error p.comps) []
  | some o =>
    match o.body with
    | .dir _ => out = .bytes (-eisdir) []
    | .file bytes => out = .bytes ((bytes.drop off).take len).length ((bytes.drop off).take len)

/-- The outputs a call may have. -/
def Answers (env : Env) (s : Files) : Op → Output → Prop
  | .statfs _, out => ∃ v, out = .statvfs 0 v
  | .getattr p, out => s.Stats p out
  | .readdir p, out => s.Listing p out
  | .read p len off, out => s.Reads p len off out
  | op, out => out = .code (s.exec env op).1

/-- One call, labelled with its output. -/
def Step (s : Files) (x : (Env × Op) × Output) (s' : Files) : Prop :=
  s.Answers x.1.1 x.1.2 x.2 ∧ s' = (s.exec x.1.1 x.1.2).2

end Files

/-! ## The name space of a state -/

/-- The object in inode block `n`. -/
def objAt (d : Disk) (n : Nat) : Obj where
  mode := (inodeAt d n).mode
  uid := (inodeAt d n).uid
  gid := (inodeAt d n).gid
  ctime := (inodeAt d n).ctime
  mtime := (inodeAt d n).mtime
  body := if isDirAt d n then .dir (inodeAt d n).size.toInt else .file (contents d (inodeAt d n))

/-- The inode behind the entry `c` of `n`. -/
def entryStep (d : Disk) (n : Nat) (c : List UInt8) : Option Nat :=
  if isDirAt d n then (lookup d n c).map fun i => (entriesAt d n i).inode.toNat else none

/-- What the paths show. -/
def fileTree (st : FsState) : Files := spaceOf (entryStep st.disk) (objAt st.disk) 2

section Objects
variable {d d' : Disk} {n : Nat}

theorem objAt_isDir (d : Disk) (n : Nat) : (objAt d n).isDir = isDirAt d n := by
  unfold objAt Obj.isDir
  cases isDirAt d n <;> rfl

theorem objAt_body_file (h : isDirAt d n = false) :
    (objAt d n).body = .file (contents d (inodeAt d n)) := by
  simp [objAt, h]

theorem objAt_body_dir (h : isDirAt d n = true) :
    (objAt d n).body = .dir (inodeAt d n).size.toInt := by
  simp [objAt, h]

theorem objAt_size (hok : isDirAt d n = false → FileOk (inodeAt d n)) :
    (objAt d n).size = (inodeAt d n).size.toInt := by
  unfold Obj.size
  cases hdir : isDirAt d n with
  | true => rw [objAt_body_dir hdir]
  | false =>
    rw [objAt_body_file hdir]
    simp only [contents_length]
    exact Int.toNat_of_nonneg (hok hdir).nonneg

/-- `inode_to_stat` shows what the object has. -/
theorem objAt_shows (hok : isDirAt d n = false → FileOk (inodeAt d n)) (ino : UInt32) :
    (objAt d n).Shows (inodeToStat (inodeAt d n) ino) := by
  unfold Obj.Shows
  rw [objAt_size hok]
  rfl

/-- An object all of whose blocks stay. -/
theorem objAt_of_own (hok : isDirAt d n = false → FileOk (inodeAt d n))
    (h : ∀ x, Own d n x → d'.data x = d.data x) : objAt d' n = objAt d n := by
  have hsame := sameNode_of_own h
  unfold objAt
  rw [hsame.inodeAt, hsame.isDirAt]
  cases hdir : isDirAt d n with
  | true => rfl
  | false =>
    rw [contents_of_own (hok hdir) fun i hi => h _ (own_data hdir hi)]

/-- The entry block of a directory is no part of the object. -/
theorem objAt_dir (hino : inodeAt d' n = inodeAt d n) (hdir : isDirAt d n = true) :
    objAt d' n = objAt d n := by
  have hdir' : isDirAt d' n = true := by rwa [isDirAt, hino]
  unfold objAt
  rw [hino, hdir, hdir']
  rfl

end Objects

section Entries
variable {d d' : Disk} {n : Nat} {c : List UInt8}

theorem follow_entryStep {cs : List (List UInt8)} {m : Nat} :
    follow (entryStep d) n cs = some m ↔ resolve d n cs = .ok m := by
  induction cs generalizing n with
  | nil => simp [follow, resolve]
  | cons c cs ih =>
    unfold follow entryStep
    cases hdir : isDirAt d n with
    | false => simp [resolve_cons_file hdir]
    | true =>
      cases hl : lookup d n c with
      | none => simp [resolve_cons_none hdir hl]
      | some i =>
        rw [resolve_cons_some hdir hl, ← ih]
        rfl

theorem entryStep_of_lookup {i : Fin 128} (hdir : isDirAt d n = true) (hl : lookup d n c = some i) :
    entryStep d n c = some (entriesAt d n i).inode.toNat := by
  rw [entryStep, if_pos hdir, hl, Option.map_some]

theorem entryStep_none (h : isDirAt d n = true → lookup d n c = none) : entryStep d n c = none := by
  unfold entryStep
  split_ifs with hdir
  · rw [h hdir, Option.map_none]
  · rfl

theorem lookup_none_of_empty (h : ∀ j, (entriesAt d n j).valid = false) : lookup d n c = none := by
  unfold lookup
  simp [h]

theorem entryStep_congr (hdir : isDirAt d' n = isDirAt d n)
    (hes : isDirAt d n = true → entriesAt d' n = entriesAt d n) :
    entryStep d' n c = entryStep d n c := by
  unfold entryStep
  rw [hdir]
  split_ifs with h
  · rw [lookup_congr (hes h), hes h]
  · rfl

theorem SameNode.entryStep (h : SameNode d d' n) : entryStep d' n c = entryStep d n c :=
  entryStep_congr h.isDirAt h.entriesAt

/-- A changed slot that has the name neither before nor after. -/
theorem entryStep_update {i : Fin 128} {e : Dirent} (hdir : isDirAt d n = true)
    (hdir' : isDirAt d' n = true) (hes : entriesAt d' n = Function.update (entriesAt d n) i e)
    (hold : (entriesAt d n i).valid = true → (entriesAt d n i).nameOf ≠ some c)
    (hnew : e.valid = true → e.nameOf ≠ some c) : entryStep d' n c = entryStep d n c := by
  have hl : lookup d' n c = lookup d n c := by
    unfold lookup
    congr 1
    funext k
    by_cases hk : k = i
    · subst hk
      rw [hes, Function.update_self]
      cases hv : e.valid <;> cases hv' : (entriesAt d n k).valid <;> simp_all
    · rw [hes, Function.update_of_ne hk]
  unfold entryStep
  rw [hdir, hdir', hl]
  cases hk : lookup d n c with
  | none => rfl
  | some k =>
    have hki : k ≠ i := by
      rintro rfl
      exact hold (lookup_eq_some hk).1 (lookup_eq_some hk).2
    rw [hes, Option.map_some, Option.map_some, Function.update_of_ne hki]

end Entries

section Paths
variable {st : FsState} {cs : List (List UInt8)} {n : Nat}

theorem TreeOk.onePath (ok : TreeOk st) : OnePath (entryStep st.disk) 2 := fun _ _ _ h h' =>
  ok.resolve_inj (follow_entryStep.mp h) (follow_entryStep.mp h')

theorem fileTree_ok (h : resolve st.disk 2 cs = .ok n) :
    fileTree st cs = some (objAt st.disk n) := by
  rw [fileTree, spaceOf, follow_entryStep.mpr h, Option.map_some]

theorem fileTree_eq_some {o : Obj} :
    fileTree st cs = some o ↔ ∃ n, resolve st.disk 2 cs = .ok n ∧ objAt st.disk n = o := by
  unfold fileTree spaceOf
  rw [Option.map_eq_some_iff]
  simp only [follow_entryStep]

theorem fileTree_eq_none : fileTree st cs = none ↔ ∀ n, resolve st.disk 2 cs ≠ .ok n := by
  rw [Option.eq_none_iff_forall_ne_some]
  constructor
  · intro h n hn
    exact h _ (fileTree_ok hn)
  · intro h o ho
    obtain ⟨n, hn, -⟩ := fileTree_eq_some.mp ho
    exact h n hn

theorem fileTree_concat (hn : resolve st.disk 2 cs = .ok n) (c : List UInt8) :
    fileTree st (cs ++ [c]) = (entryStep st.disk n c).map (objAt st.disk) := by
  rw [fileTree, spaceOf, follow_concat, follow_entryStep.mpr hn, Option.bind_some]

/-- A path that fails to resolve shows nothing, and the name space gives the same code. -/
theorem fileTree_error {e : Int} (h : resolve st.disk 2 cs = .error e) :
    fileTree st cs = none ∧ (fileTree st).error cs = e := by
  refine ⟨fileTree_eq_none.mpr fun n hn => absurd (h.symm.trans hn) (by simp), ?_⟩
  have hany : (cs.inits.any fun ds => (fileTree st ds).any fun o => !o.isDir) = true ↔
      ThroughFile st.disk cs := by
    simp only [List.any_eq_true, List.mem_inits, Option.any_eq_true, Bool.not_eq_true']
    constructor
    · rintro ⟨ds, hds, o, ho, hfile⟩
      obtain ⟨n, hn, rfl⟩ := fileTree_eq_some.mp ho
      exact ⟨ds, n, hds, hn, (objAt_isDir _ _).symm.trans hfile⟩
    · rintro ⟨ds, n, hds, hn, hfile⟩
      exact ⟨ds, hds, _, fileTree_ok hn, (objAt_isDir _ _).trans hfile⟩
  unfold Files.error
  rcases resolve_error_code h with ⟨hthrough, rfl⟩ | ⟨hnot, rfl⟩
  · rw [if_pos (hany.mpr hthrough)]
  · rw [if_neg (fun h => hnot (hany.mp h))]

end Paths

end SystemsProjects.Fs5600
