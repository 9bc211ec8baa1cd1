import SystemsProjects.Fs5600.Entries

/-!
# Spellings of a path

A path string is cut at slashes, and `strtok` skips any number of them: the components are
`tokens slash path`. `path_to_inum` walks over the components however they are spelled. Strings
without components are the exception, and so is the way `get_parent_path` cuts a string
(`fs5600.c:533-547`), which looks for one slash from the right.
-/

namespace SystemsProjects.Fs5600
open SystemsProjects.Lib

/-! ## Resolving a spelling -/

/-- The first ten components decide what `path_to_inum` does. -/
theorem pathToInum_congr (env : Env) (d : Disk) {p q : List UInt8}
    (h : (tokens slash p).take 10 = (tokens slash q).take 10) (hne : tokens slash p ≠ []) :
    pathToInum env d p = pathToInum env d q := by
  have hslash : tokens slash [slash] = [] := tokens_delims (by simp)
  have hp : p ≠ [slash] := by
    rintro rfl
    exact hne hslash
  have hq : q ≠ [slash] := by
    rintro rfl
    rw [hslash, List.take_nil, List.take_eq_nil_iff] at h
    exact hne (h.resolve_left (by omega))
  unfold pathToInum
  rw [if_neg hp, if_neg hq, splitPath_congr _ h]

theorem getLastFilename_congr {n : Nat} (env : Env) (buf : Fin n → UInt8) {p q : List UInt8}
    (h : tokens slash p = tokens slash q) :
    getLastFilename env p buf = getLastFilename env q buf := by
  have hsplit : splitPath (fun token => decide (27 < token.length)) 10 0 p (env.bytes 270 0) =
      splitPath (fun token => decide (27 < token.length)) 10 0 q (env.bytes 270 0) :=
    splitPath_congr _ (by rw [h])
  unfold getLastFilename
  rw [hsplit]

/-- The walk of a path over the tree, left to right, with the number it ends with: the inode
number of the object named by the last component, or the code of the first failure. -/
inductive WalksTo (d : Disk) : Nat → List (List UInt8) → Int → Prop
  | done (n : Nat) : WalksTo d n [] n
  | step {n : Nat} {i : Fin 128} {c : List UInt8} {cs : List (List UInt8)} {r : Int} :
      isDirAt d n = true → (entriesAt d n i).valid = true → (entriesAt d n i).nameOf = some c →
      WalksTo d (entriesAt d n i).inode.toNat cs r → WalksTo d n (c :: cs) r
  | notDir {n : Nat} {c : List UInt8} {cs : List (List UInt8)} :
      isDirAt d n = false → WalksTo d n (c :: cs) (-enotdir)
  | missing {n : Nat} {c : List UInt8} {cs : List (List UInt8)} : isDirAt d n = true →
      (∀ i, (entriesAt d n i).valid = true → (entriesAt d n i).nameOf ≠ some c) →
      WalksTo d n (c :: cs) (-enoent)

/-- On a tree in order there is one walk. -/
theorem TreeOk.walksTo_iff {st : FsState} (ok : TreeOk st) {cs : List (List UInt8)} {n : Nat}
    (hn : Live st.disk n) {r : Int} :
    WalksTo st.disk n cs r ↔ r = codeOf (resolve st.disk n cs) := by
  induction cs generalizing n with
  | nil =>
    constructor
    · rintro ⟨⟩
      rfl
    · rintro rfl
      exact .done n
  | cons c cs ih =>
    cases hdir : isDirAt st.disk n with
    | false =>
      rw [resolve_cons_file hdir, codeOf]
      constructor
      · intro h
        cases h with
        | step hdir' => simp [hdir] at hdir'
        | notDir => rfl
        | missing hdir' => simp [hdir] at hdir'
      · rintro rfl
        exact .notDir hdir
    | true =>
      cases hl : lookup st.disk n c with
      | none =>
        rw [resolve_cons_none hdir hl, codeOf]
        constructor
        · intro h
          cases h with
          | step _ hv hname => exact absurd hname (lookup_eq_none hl _ hv)
          | notDir hdir' => simp [hdir] at hdir'
          | missing => rfl
        · rintro rfl
          exact .missing hdir (lookup_eq_none hl)
      | some i =>
        obtain ⟨hv, hname⟩ := lookup_eq_some hl
        rw [resolve_cons_some hdir hl, ← ih (hn.slot_live hdir hv)]
        constructor
        · intro h
          cases h with
          | @step _ j _ _ _ _ hv' hname' hwalk =>
            rwa [(ok.dirs n hn hdir).unique i j hv hv' (hname.trans hname'.symm)]
          | notDir hdir' => simp [hdir] at hdir'
          | missing _ hno => exact absurd hname (hno i hv)
        · exact .step hdir hv hname

/-- `path_to_inum` on any spelling of one to ten components. -/
theorem TreeOk.pathToInum_tokens {st : FsState} (ok : TreeOk st) (env : Env) {path : List UInt8}
    (hcs : ∀ c ∈ tokens slash path, Component c) (hne : tokens slash path ≠ [])
    (hlen : (tokens slash path).length ≤ 10) :
    pathToInum env st.disk path = .ok (codeOf (resolve st.disk 2 (tokens slash path))) := by
  have hrender := tokens_render fun c hc => (hcs c hc).fileName
  rw [pathToInum_congr env st.disk (by rw [hrender]) hne, ok.pathToInum_render env hcs hne hlen]

/-- `path_to_inum` returns, for every spelling of one to ten components, what the walk from
block 2 over them ends with. -/
theorem pathToInum_walks {st : FsState} (wf : WellFormed st) (env : Env) {path : List UInt8}
    (hcs : ∀ c ∈ tokens slash path, Component c) (hne : tokens slash path ≠ [])
    (hlen : (tokens slash path).length ≤ 10) :
    ∃ r, pathToInum env st.disk path = .ok r ∧
      ∀ r', WalksTo st.disk 2 (tokens slash path) r' ↔ r' = r :=
  ⟨_, wf.toTreeOk.pathToInum_tokens env hcs hne hlen, fun _ => wf.toTreeOk.walksTo_iff .root⟩

/-- `//a/` is a spelling of `/a`. -/
def slashyA : List UInt8 := [slash, slash, 0x61, slash]

theorem tokens_slashyA : tokens slash slashyA = [pathA.last] := by
  rw [show slashyA = [slash, slash] ++ ([0x61] ++ slash :: []) from rfl,
    tokens_delims_append (by simp), tokens_append_cons, tokens_nil, List.append_nil,
    tokens_of_notMem (by simp) (by decide)]
  rfl

/-- `//a/` leads to the file in block 3. -/
theorem pathToInum_walks_slashyA :
    pathToInum quietEnv (oneFile 399).disk slashyA = .ok 3 ∧
      WalksTo (oneFile 399).disk 2 [pathA.last] 3 := by
  have wf : WellFormed (oneFile 399) := oneFile_wellFormed (by omega) (by omega)
  have hcs : ∀ c ∈ tokens slash slashyA, Component c := by
    rw [tokens_slashyA]
    exact pathA.components
  obtain ⟨r, hrun, hwalk⟩ := pathToInum_walks wf quietEnv hcs (by rw [tokens_slashyA]; simp)
    (by rw [tokens_slashyA]; decide)
  have h3 : WalksTo (oneFile 399).disk 2 [pathA.last] 3 := by
    rw [wf.toTreeOk.walksTo_iff .root, show [pathA.last] = pathA.comps from rfl,
      oneFile_resolve (by omega) (by omega)]
    rfl
  rw [tokens_slashyA] at hwalk
  refine ⟨?_, h3⟩
  rw [hrun, (hwalk 3).mp h3]

/-! ## Spellings of the root -/

theorem pathToInum_root (env : Env) (d : Disk) : pathToInum env d [slash] = .ok 2 := if_pos rfl

/-- A string without components other than `/` gets the number of the root's entry block, the
value `block_inum` starts with. -/
theorem TreeOk.pathToInum_slashes {st : FsState} (ok : TreeOk st) (env : Env) {path : List UInt8}
    (h : tokens slash path = []) (hne : path ≠ [slash]) :
    pathToInum env st.disk path = .ok (tableOf st.disk 2) := by
  have hread := ok.get_live .root (env.junk [1])
  have hdir : sIsdir (decodeInode (st.disk.data 2)).mode = true := ok.root
  rw [show ((2 : Nat) : Int) = 2 from rfl] at hread
  have hsplit := splitPath_done (fun _ => false) 10 0 (env.bytes 270 0) h
  have htable := ok.asInt_table .root ok.root
  unfold inodeAt at htable
  unfold pathToInum
  simp only [hne, if_false, hsplit, ok_bind, hread, hdir, Bool.not_true, Bool.false_eq_true]
  rw [walk, htable]

/-- Two spellings of the same components get the same result, and the root inode when there are
none, exactly when there are components or both strings are `/`. -/
theorem pathToInum_spelling_iff {st : FsState} (wf : WellFormed st) (env env' : Env)
    {p q : List UInt8} (hcs : ∀ c ∈ tokens slash p, Component c)
    (hlen : (tokens slash p).length ≤ 10) (heq : tokens slash p = tokens slash q) :
    (pathToInum env st.disk p = pathToInum env' st.disk q ∧
      (tokens slash p = [] → pathToInum env st.disk p = .ok 2)) ↔
    tokens slash p ≠ [] ∨ (p = [slash] ∧ q = [slash]) := by
  have ok := wf.toTreeOk
  have htable : (tableOf st.disk 2 : Int) ≠ 2 := by
    have := ok.live_ne_table .root .root ok.root
    omega
  constructor
  · rintro ⟨hsame, hroot⟩
    by_cases hnil : tokens slash p = []
    · have hp := hroot hnil
      refine .inr ⟨?_, ?_⟩
      · by_contra hne
        rw [ok.pathToInum_slashes env hnil hne] at hp
        exact htable (Except.ok.inj hp)
      · by_contra hne
        rw [hp, ok.pathToInum_slashes env' (heq ▸ hnil) hne] at hsame
        exact htable (Except.ok.inj hsame).symm
    · exact .inl hnil
  · rintro (hne | ⟨rfl, rfl⟩)
    · refine ⟨?_, fun hnil => absurd hnil hne⟩
      rw [ok.pathToInum_tokens env hcs hne hlen, heq,
        ok.pathToInum_tokens env' (heq ▸ hcs) (heq ▸ hne) (heq ▸ hlen)]
    · rw [pathToInum_root, pathToInum_root]
      exact ⟨rfl, fun _ => rfl⟩

/-- `/a` and `//a/` have the same result in an image with one file. -/
theorem pathToInum_spelling_slashyA :
    pathToInum quietEnv (oneFile 399).disk pathA.bytes =
      pathToInum quietEnv (oneFile 399).disk slashyA := by
  have hp : tokens slash pathA.bytes = [pathA.last] :=
    tokens_render fun c hc => (pathA.components c hc).fileName
  exact ((pathToInum_spelling_iff (oneFile_wellFormed (by omega) (by omega)) quietEnv quietEnv
    (by rw [hp]; exact pathA.components) (by rw [hp]; decide) (hp.trans tokens_slashyA.symm)).mpr
    (.inl (by rw [hp]; simp))).1

/-- In an empty file system of 400 blocks `/` is the root inode 2 and `//` is block 399. -/
theorem pathToInum_two_slashes : WellFormed (emptyState 399) ∧
    tokens slash [slash] = [] ∧ tokens slash [slash, slash] = [] ∧
    pathToInum quietEnv (emptyState 399).disk [slash] = .ok 2 ∧
    pathToInum quietEnv (emptyState 399).disk [slash, slash] = .ok 399 := by
  have wf : WellFormed (emptyState 399) := emptyState_wellFormed (by omega) (by omega)
  have htable : tableOf (emptyState 399).disk 2 = 399 := emptyDisk_table (by omega)
  have h2 : tokens slash [slash, slash] = [] := tokens_delims (by simp)
  refine ⟨wf, tokens_delims (by simp), h2, pathToInum_root _ _, ?_⟩
  rw [wf.toTreeOk.pathToInum_slashes quietEnv h2 (by decide), htable]
  rfl

/-! ## The two halves of a string -/

/-- The object found through the two halves of a path, as the callers of `get_parent_path` and
`get_last_filename` look for it: the parent string is resolved to a directory, and the last name
is looked up in its entry block. `cap` and `n` are the sizes of their buffers. -/
def splitLookup (env : Env) (cap n : Nat) (st : FsState) (path : List UInt8) :
    Except Fault Int := do
  let parent ← getParentPath cap path
  let (_, filename) ← getLastFilename (env.call 0) path (env.bytes n 0)
  let dirInum ← pathToInum (env.call 1) st.disk parent
  if dirInum < 0 then .ok dirInum
  else
    let dirInode := decodeInode (st.get (env.junk [1]) dirInum)
    if !sIsdir dirInode.mode then .ok (-enotdir)
    else
      let entries := decodeDirents (st.get (env.junk [2]) (asInt (dirInode.ptrs 0)))
      let k ← getDirentIndex entries (bytesFrom filename 0)
      if k < 0 then .ok k
      else .ok (entries (Fin.ofNat 128 k.toNat)).inode.toNat

theorem TreeOk.splitLookup_eq {st : FsState} (ok : TreeOk st) (env : Env) {cap n : Nat}
    {path s c : List UInt8} {ds : List (List UInt8)} {r : Int} {filename : Fin n → UInt8}
    (hparent : getParentPath cap path = .ok s)
    (hlast : getLastFilename (env.call 0) path (env.bytes n 0) = .ok (r, filename))
    (hname : cstr (bytesFrom filename 0) = some c)
    (hres : pathToInum (env.call 1) st.disk s = .ok (codeOf (resolve st.disk 2 ds))) :
    splitLookup env cap n st path = .ok (codeOf (resolve st.disk 2 (ds ++ [c]))) := by
  rw [resolve_append]
  cases hds : resolve st.disk 2 ds with
  | error e =>
    have he := codeOf_error_neg hds
    simp only [splitLookup, hparent, hlast, hres, hds, ok_bind, codeOf]
    rw [if_pos he]
  | ok m =>
    have hm : Live st.disk m := resolve_live .root hds
    have hread : st.get (env.junk [1]) m = st.disk.data m := ok.get_inUse hm.owned _
    simp only [splitLookup, hparent, hlast, hres, hds, ok_bind, codeOf, hread]
    rw [if_neg (by omega)]
    change (if !isDirAt st.disk m then _ else _) = _
    cases hdir : isDirAt st.disk m with
    | false => simp [resolve_cons_file hdir]
    | true =>
      have hents : decodeDirents (st.get (env.junk [2]) (asInt ((inodeAt st.disk m).ptrs 0))) =
          entriesAt st.disk m := by
        rw [ok.asInt_table hm hdir, ok.get_entries hm hdir]
      unfold inodeAt at hents
      simp only [Bool.not_true, Bool.false_eq_true, if_false, hents,
        (ok.dirs m hm hdir).getDirentIndex_eq hname, ok_bind, resolve, hdir]
      cases hl : lookup st.disk m c with
      | none => simp [enoent]
      | some i => simp

/-- The halves of a string are those of a canonical path. -/
structure Spells (path : List UInt8) (p : CanonPath) : Prop where
  tokens : tokens slash path = p.comps
  parent : ∀ cap, 270 ≤ cap → ∃ s, getParentPath cap path = .ok s ∧
    ∀ env d, pathToInum env d s = pathToInum env d (parentBytes p.dirs)

section Spells
variable {path : List UInt8} {p : CanonPath} (h : Spells path p)
include h

theorem Spells.tokens_bytes : Lib.tokens slash path = Lib.tokens slash p.bytes := by
  rw [h.tokens]
  exact (tokens_render fun c hc => (p.components c hc).fileName).symm

theorem Spells.pathToInum_eq (env : Env) (d : Disk) :
    pathToInum env d path = pathToInum env d p.bytes :=
  pathToInum_congr env d (by rw [h.tokens_bytes]) (by rw [h.tokens]; simp [CanonPath.comps])

theorem Spells.getLastFilename_eq {n : Nat} (env : Env) (buf : Fin n → UInt8) :
    getLastFilename env path buf = getLastFilename env p.bytes buf :=
  getLastFilename_congr env buf h.tokens_bytes

theorem Spells.openParent_eq (env : Env) (st : FsState)
    (k : Inode → (Fin 28 → UInt8) → Except Fault (Int × FsState)) :
    openParent env path st k = openParent env p.bytes st k := by
  obtain ⟨s, hs, hsame⟩ := h.parent 280 (by omega)
  unfold openParent
  simp only [h.pathToInum_eq, h.getLastFilename_eq, hs, p.getParentPath_eq 280 (by omega), ok_bind,
    hsame]

theorem Spells.findParent_eq (env : Env) (j : Nat) (st : FsState)
    (k : Int → Inode → (Fin 27 → UInt8) → Except Fault (Int × FsState)) :
    findParent env path j st k = findParent env p.bytes j st k := by
  obtain ⟨s, hs, hsame⟩ := h.parent 270 le_rfl
  unfold findParent
  simp only [h.getLastFilename_eq, hs, p.getParentPath_eq 270 le_rfl, ok_bind, hsame]

/-- The calls that cut a path act on the string as on the canonical path. -/
theorem Spells.fsCreate_eq (env : Env) (mode : UInt32) (st : FsState) :
    fsCreate env path mode st = fsCreate env p.bytes mode st := by
  rw [Fs5600.fsCreate_eq, Fs5600.fsCreate_eq, h.openParent_eq]

theorem Spells.fsUnlink_eq (env : Env) (st : FsState) :
    fsUnlink env path st = fsUnlink env p.bytes st := by
  simp only [Fs5600.fsUnlink_eq, withInode, unlinkRest, h.pathToInum_eq, h.findParent_eq]

theorem Spells.fsRmdir_eq (env : Env) (st : FsState) :
    fsRmdir env path st = fsRmdir env p.bytes st := by
  simp only [Fs5600.fsRmdir_eq, withInode, rmdirRest, h.pathToInum_eq, h.findParent_eq]

/-- Through the halves the object is found that the whole string leads to. -/
theorem Spells.splitLookup_eq {st : FsState} (ok : TreeOk st) (env env' : Env) {cap n : Nat}
    (hcap : 270 ≤ cap) (hn : 27 ≤ n) :
    splitLookup env cap n st path = pathToInum env' st.disk path := by
  obtain ⟨s, hs, hsame⟩ := h.parent cap hcap
  obtain ⟨filename, hlast, hname⟩ := p.getLastFilename_eq (env.call 0) (env.bytes n 0) hn
  rw [← h.getLastFilename_eq] at hlast
  rw [h.pathToInum_eq, p.pathToInum_eq ok]
  exact ok.splitLookup_eq env hs hlast hname (by rw [hsame, p.pathToInum_parent ok])

end Spells

/-! ## Strings that are cut right -/

/-- The one changed entry is that of the object the path leads to, and it is cleared. -/
def ClearsResolved (st st' : FsState) (path : List UInt8) : Prop :=
  ∃ (n b : Nat) (i : Fin 128), (∀ env, pathToInum env st.disk path = .ok b) ∧ Live st.disk n ∧
    isDirAt st.disk n = true ∧ (entriesAt st.disk n i).valid = true ∧
    (entriesAt st.disk n i).inode.toNat = b ∧
    entriesAt st'.disk n =
      Function.update (entriesAt st.disk n) i { entriesAt st.disk n i with valid := false } ∧
    ∀ m, Live st.disk m → isDirAt st.disk m = true → m ≠ n →
      entriesAt st'.disk m = entriesAt st.disk m

/-- An entry that has changed is one for the last component, in the directory the others lead
to. -/
def AddsLast (st st' : FsState) (path : List UInt8) : Prop :=
  ∃ n, resolve st.disk 2 (tokens slash path).dropLast = .ok n ∧
    ∀ m i, Live st.disk m → isDirAt st.disk m = true →
      entriesAt st'.disk m i ≠ entriesAt st.disk m i →
      m = n ∧ (entriesAt st'.disk m i).nameOf = (tokens slash path).getLast?

/-- What the split of a string promises on every well-formed image: through the halves the object
is found that the whole string leads to, in the buffers of `fs_unlink` and `fs_rmdir` and in those
of `fs_create`; and the calls change the entry of that object, never one outside the array. -/
structure SplitAgrees (path : List UInt8) : Prop where
  found : ∀ st env env', WellFormed st →
    splitLookup env 270 27 st path = pathToInum env' st.disk path ∧
    splitLookup env 280 28 st path = pathToInum env' st.disk path
  create : ∀ st env mode r st', WellFormed st → fsCreate env path mode st = .ok (r, st') →
    st' = st ∨ AddsLast st st' path
  unlink : ∀ st env, WellFormed st → ∃ r st', fsUnlink env path st = .ok (r, st') ∧
    (st' = st ∨ ClearsResolved st st' path)
  rmdir : ∀ st env, WellFormed st → ∃ r st', fsRmdir env path st = .ok (r, st') ∧
    (st' = st ∨ ClearsResolved st st' path)

/-- The string does not end in a slash, has one, and what stands before its last slash is nothing,
a single slash or holds a component, in fewer than 270 bytes. -/
def CutsRight (path : List UInt8) : Prop :=
  ∃ pre c, path = pre ++ slash :: c ∧ slash ∉ c ∧ c ≠ [] ∧
    (pre = [] ∨ pre = [slash] ∨ tokens slash pre ≠ []) ∧ pre.length < 270

theorem CutsRight.spells {path : List UInt8} (h : CutsRight path)
    (hcs : ∀ c ∈ tokens slash path, Component c) (hlen : (tokens slash path).length ≤ 10) :
    ∃ p, Spells path p := by
  obtain ⟨pre, c, rfl, hc, hne, hpre, hcap⟩ := h
  have htokens : tokens slash (pre ++ slash :: c) = tokens slash pre ++ [c] := by
    rw [tokens_append_cons, tokens_of_notMem hne hc]
  rw [htokens] at hcs hlen
  simp only [List.length_append, List.length_singleton] at hlen
  refine ⟨⟨tokens slash pre, c, hcs, by omega⟩, htokens, fun cap hge => ?_⟩
  have hparent : getParentPath cap (pre ++ slash :: c) =
      .ok (if pre = [] then [slash] else pre) := by
    unfold getParentPath
    rw [cutLast_split hc, if_pos]
    split_ifs
    · simp; omega
    · omega
  refine ⟨_, hparent, fun env d => ?_⟩
  rcases hpre with rfl | rfl | hpre
  · simp [parentBytes]
  · simp [parentBytes]
  · have hnil : pre ≠ [] := by
      rintro rfl
      exact hpre tokens_nil
    rw [if_neg hnil, parentBytes, if_neg hpre]
    refine pathToInum_congr env d ?_ hpre
    rw [tokens_render fun x hx => (hcs x (by simp [hx])).fileName]

section Acts
variable {path : List UInt8} {p : CanonPath} (h : Spells path p) {st st' : FsState}
  (wf : WellFormed st)
include h wf

theorem Spells.clearsResolved {time : UInt32} {n b : Nat} {i : Fin 128}
    (hclear : Cleared st st' time n b i) (named : NamedBy st p n b i)
    (hempty : ∀ j, isDirAt st.disk b = true → (entriesAt st.disk b j).valid = false) :
    ClearsResolved st st' path := by
  have hstep := hclear.unlinkStep wf.toTreeOk named hempty
  refine ⟨n, b, i, fun env => ?_, named.live, named.dir, named.valid, named.target, hstep.entries',
    fun m hm hdir hmn => (hstep.same m hm hmn).entriesAt hdir⟩
  rw [h.pathToInum_eq, p.pathToInum_eq wf.toTreeOk, named.resolve_eq]
  rfl

theorem Spells.addsLast {n b : Nat} {tbl : Option Nat} {ino : Inode} (ready : ReadyIn st p n)
    (hplaced : Placed st st' n b p.last tbl ino) : AddsLast st st' path := by
  have ok := wf.toTreeOk
  rw [AddsLast, h.tokens, CanonPath.comps]
  refine ⟨n, by simpa using ready.resolved, fun m i hm hdir hne => ?_⟩
  by_cases hmn : m = n
  · subst hmn
    refine ⟨rfl, ?_⟩
    rcases hplaced.entry with ⟨hfull, -⟩ | ⟨j, e, -, -, -, hname, htable⟩
    · rw [(hplaced.sameNode_of_full ok hfull hm).entriesAt hdir] at hne
      exact absurd rfl hne
    · rw [hplaced.entriesAt_parent ok htable] at hne ⊢
      by_cases hij : i = j
      · subst hij
        rw [Function.update_self, hname]
        simp
      · exact absurd (Function.update_of_ne hij _ _) hne
  · rw [(hplaced.sameNode ok hm hmn).entriesAt hdir] at hne
    exact absurd rfl hne

end Acts

theorem Spells.splitAgrees {path : List UInt8} {p : CanonPath} (h : Spells path p) :
    SplitAgrees path where
  found := fun st env env' wf =>
    ⟨h.splitLookup_eq wf.toTreeOk env env' le_rfl le_rfl,
      h.splitLookup_eq wf.toTreeOk env env' (by omega) (by omega)⟩
  create := by
    intro st env mode r st' wf hrun
    rw [h.fsCreate_eq] at hrun
    rcases wf.toTreeOk.fsCreate_cases env p mode with
      ⟨r', -, -, -, heq, -⟩ | ⟨n, ready, ⟨-, heq⟩ | ⟨b, s, heq, -, hplaced, -⟩⟩
    · rw [heq] at hrun
      exact .inl (Prod.mk.inj (Except.ok.inj hrun)).2.symm
    · simp [heq] at hrun
    · rw [heq] at hrun
      obtain ⟨-, rfl⟩ := Prod.mk.inj (Except.ok.inj hrun)
      exact .inr (h.addsLast wf ready hplaced)
  unlink := by
    intro st env wf
    rw [h.fsUnlink_eq]
    rcases wf.toTreeOk.fsUnlink_cases env p with
      ⟨r, -, heq, -⟩ | ⟨n, b, i, st', named, hfile, heq, hclear⟩
    · exact ⟨r, st, heq, .inl rfl⟩
    · exact ⟨0, st', heq, .inr (h.clearsResolved wf hclear named fun j hj => by simp [hfile] at hj)⟩
  rmdir := by
    intro st env wf
    rw [h.fsRmdir_eq]
    rcases wf.toTreeOk.fsRmdir_cases env p with
      ⟨r, -, heq, -⟩ | ⟨n, b, i, st', named, -, hempty, heq, hclear⟩
    · exact ⟨r, st, heq, .inl rfl⟩
    · exact ⟨0, st', heq, .inr (h.clearsResolved wf hclear named fun j _ => hempty j)⟩

/-! ## Strings that are not -/

/-- The last slash of a string. -/
theorem last_slash (path : List UInt8) :
    slash ∉ path ∨ ∃ pre c, path = pre ++ slash :: c ∧ slash ∉ c := by
  by_cases h : slash ∈ path
  · obtain ⟨c, pre, heq, hc⟩ := List.eq_append_cons_of_mem (List.mem_reverse.mpr h)
    refine .inr ⟨pre.reverse, c.reverse, ?_, by simpa using hc⟩
    have := congrArg List.reverse heq
    simpa using this
  · exact .inl h

/-- Another path does not lead to the same object. -/
theorem TreeOk.codeOf_resolve_ne {st : FsState} (ok : TreeOk st) {cs ds : List (List UInt8)}
    {n : Nat} (h : resolve st.disk 2 cs = .ok n) (hne : ds ≠ cs) :
    codeOf (resolve st.disk 2 ds) ≠ n := by
  cases hds : resolve st.disk 2 ds with
  | error e =>
    have := codeOf_error_neg hds
    show e ≠ n
    omega
  | ok m =>
    intro he
    obtain rfl : m = n := Int.ofNat.inj he
    exact hne (ok.resolve_inj hds h)

/-- If the parent string leads elsewhere than the components before the last one, the halves lead
elsewhere than the string, in an image where the string leads to an object. -/
theorem not_splitAgrees {path : List UInt8} (ds : List (List UInt8))
    (hcs : ∀ c ∈ tokens slash path, Component c) (hne : tokens slash path ≠ [])
    (hlen : (tokens slash path).length ≤ 10)
    (hparent : ∀ s, getParentPath 280 path = .ok s → ∀ st, TreeOk st →
      pathToInum (quietEnv.call 1) st.disk s = .ok (codeOf (resolve st.disk 2 ds)))
    (hds : ds ≠ (tokens slash path).dropLast) : ¬ SplitAgrees path := by
  intro hagrees
  obtain ⟨dirs, c, htokens⟩ := (List.eq_nil_or_concat' (tokens slash path)).resolve_left hne
  have hnested := nested_mkdirAll hcs hlen
  generalize mkdirAll (emptyState 399) [] (tokens slash path) = st at hnested
  obtain ⟨n, hn, -⟩ := hnested.path
  have ok := hnested.wf.toTreeOk
  have hfound := (hagrees.found st quietEnv quietEnv hnested.wf).2
  rw [ok.pathToInum_tokens quietEnv hcs hne hlen, hn] at hfound
  cases hs : getParentPath 280 path with
  | error f =>
    rw [splitLookup, hs, error_bind] at hfound
    exact absurd hfound (by simp)
  | ok s =>
    rw [htokens] at hcs hlen
    simp only [List.length_append, List.length_singleton] at hlen
    let p : CanonPath := ⟨dirs, c, hcs, by omega⟩
    obtain ⟨filename, hlast, hname⟩ :=
      p.getLastFilename_eq (quietEnv.call 0) (quietEnv.bytes 28 0) (by omega)
    have hbytes : tokens slash path = tokens slash p.bytes :=
      htokens.trans (tokens_render fun x hx => (p.components x hx).fileName).symm
    rw [← getLastFilename_congr _ _ hbytes] at hlast
    rw [ok.splitLookup_eq quietEnv hs hlast hname (hparent s hs st ok)] at hfound
    refine ok.codeOf_resolve_ne hn ?_ (Except.ok.inj hfound)
    rw [htokens]
    intro he
    refine hds ?_
    rw [htokens, List.dropLast_concat]
    exact (List.append_inj' he rfl).1

theorem getParentPath_eq_ok {cap : Nat} {path s : List UInt8} (h : getParentPath cap path = .ok s) :
    s = cutLast path path.length := by
  simp only [getParentPath] at h
  split at h
  · exact (Except.ok.inj h).symm
  · simp at h

section Bad
variable {pre c : List UInt8}

/-- With a slash at the end the parent string is another spelling of the whole path. -/
theorem not_splitAgrees_trailing (hcs : ∀ x ∈ tokens slash (pre ++ [slash]), Component x)
    (hne : tokens slash (pre ++ [slash]) ≠ [])
    (hlen : (tokens slash (pre ++ [slash])).length ≤ 10) :
    ¬ SplitAgrees (pre ++ [slash]) := by
  have htokens : tokens slash (pre ++ [slash]) = tokens slash pre := by simp
  refine not_splitAgrees (tokens slash pre) hcs hne hlen ?_ ?_
  · intro s hs st ok
    rw [htokens] at hcs hne hlen
    have hpre : pre ≠ [] := by
      rintro rfl
      exact hne tokens_nil
    rw [getParentPath_eq_ok hs, cutLast_split (by simp), if_neg hpre]
    exact ok.pathToInum_tokens _ hcs hne hlen
  · intro he
    have hcount := congrArg List.length he
    rw [List.length_dropLast, htokens] at hcount
    have hpos := List.length_pos_iff.mpr hne
    rw [htokens] at hpos
    omega

/-- Without any slash the parent string is the first character of the name. -/
theorem not_splitAgrees_bare {path : List UInt8} (hslash : slash ∉ path)
    (hcs : ∀ x ∈ tokens slash path, Component x) (hne : tokens slash path ≠ []) :
    ¬ SplitAgrees path := by
  cases path with
  | nil => exact absurd tokens_nil hne
  | cons x path =>
    have htokens : tokens slash (x :: path) = [x :: path] := tokens_of_notMem (by simp) hslash
    refine not_splitAgrees [[x]] hcs hne (by rw [htokens]; simp) ?_ (by rw [htokens]; simp)
    intro s hs st ok
    have hc := hcs (x :: path) (by rw [htokens]; simp)
    have hx : Component [x] := by
      have hs := hc.no_slash
      have h0 := hc.no_nul
      simp only [List.mem_cons, not_or] at hs h0
      exact ⟨by simp, by simp, by simpa using hs.1, by simpa using h0.1⟩
    have hfirst : cutLast (x :: path) (x :: path).length = [x] := by
      refine cutLast_eq _ 0 _ (Nat.zero_le _) (fun j _ _ hj => ?_) (.inl rfl)
      exact hslash (List.mem_of_getElem? hj)
    have htok : tokens slash [x] = [[x]] := tokens_of_notMem (by simp) hx.no_slash
    rw [getParentPath_eq_ok hs, hfirst, ok.pathToInum_tokens _ (by simpa [htok] using hx)
      (by simp [htok]) (by simp [htok]), htok]

/-- Two or more slashes before the last one are taken for the root's entry block. -/
theorem not_splitAgrees_slashes (hpre : tokens slash pre = []) (hnil : pre ≠ [])
    (hroot : pre ≠ [slash]) (hslash : slash ∉ c)
    (hcs : ∀ x ∈ tokens slash (pre ++ slash :: c), Component x)
    (hne : tokens slash (pre ++ slash :: c) ≠ [])
    (hlen : (tokens slash (pre ++ slash :: c)).length ≤ 10) :
    ¬ SplitAgrees (pre ++ slash :: c) := by
  intro hagrees
  have wf : WellFormed (emptyState 399) := emptyState_wellFormed (by omega) (by omega)
  have ok := wf.toTreeOk
  have hfound := (hagrees.found (emptyState 399) quietEnv quietEnv wf).2
  have hentries : entriesAt (emptyState 399).disk 2 = fun _ => noEntry :=
    emptyDisk_entries (by omega) (by omega)
  have htable : tableOf (emptyState 399).disk 2 = 399 := emptyDisk_table (by omega)
  have hmissing : ∀ cs, cs ≠ [] → resolve (emptyState 399).disk 2 cs = .error (-enoent) := by
    intro cs hcs
    obtain ⟨x, xs, rfl⟩ := List.exists_cons_of_ne_nil hcs
    exact resolve_cons_none wf.root (lookup_of_invalid (fun i => by rw [hentries]; rfl) x)
  rw [ok.pathToInum_tokens quietEnv hcs hne hlen, hmissing _ hne] at hfound
  have hc : c ≠ [] := by
    rintro rfl
    exact hne (by rw [tokens_append_cons, hpre, tokens_nil, List.nil_append])
  have htokens : tokens slash (pre ++ slash :: c) = [c] := by
    rw [tokens_append_cons, hpre, tokens_of_notMem hc hslash, List.nil_append]
  let p := rootPath c (hcs c (by rw [htokens]; simp))
  have hbytes : tokens slash (pre ++ slash :: c) = tokens slash p.bytes :=
    htokens.trans (tokens_render fun x hx => (p.components x hx).fileName).symm
  obtain ⟨filename, hlast, -⟩ :=
    p.getLastFilename_eq (quietEnv.call 0) (quietEnv.bytes 28 0) (by omega)
  rw [← getLastFilename_congr _ _ hbytes] at hlast
  cases hs : getParentPath 280 (pre ++ slash :: c) with
  | error f =>
    rw [splitLookup, hs, error_bind] at hfound
    exact absurd hfound (by simp)
  | ok s =>
    obtain rfl : s = pre := by rw [getParentPath_eq_ok hs, cutLast_split hslash, if_neg hnil]
    have hread : (emptyState 399).get (quietEnv.junk [1]) (399 : Nat) =
        encodeDirents fun _ => noEntry :=
      FsState.get_of_lt _ _ (by omega) (show 399 < max 3 400 by omega)
    -- read as an inode, the entry block of the empty directory is no directory
    have hmode : sIsdir (decodeInode (encodeDirents fun _ => noEntry)).mode = false := by decide
    simp only [splitLookup, hs, hlast, ok.pathToInum_slashes _ hpre hroot, htable, ok_bind, hread,
      hmode, codeOf] at hfound
    rw [if_neg (by decide), if_pos (by decide)] at hfound
    exact absurd (Except.ok.inj hfound) (by decide)

theorem not_splitAgrees_long (hslash : slash ∉ c) (hlong : 270 ≤ pre.length)
    (hcs : ∀ x ∈ tokens slash (pre ++ slash :: c), Component x)
    (hne : tokens slash (pre ++ slash :: c) ≠ [])
    (hlen : (tokens slash (pre ++ slash :: c)).length ≤ 10) :
    ¬ SplitAgrees (pre ++ slash :: c) := by
  intro hagrees
  have wf : WellFormed (emptyState 399) := emptyState_wellFormed (by omega) (by omega)
  have hfound := (hagrees.found (emptyState 399) quietEnv quietEnv wf).1
  have hnil : pre ≠ [] := by
    rintro rfl
    simp at hlong
  have hparent : getParentPath 270 (pre ++ slash :: c) = .error .outOfBounds := by
    simp only [getParentPath, cutLast_split hslash, if_neg hnil]
    rw [if_neg (by omega)]
  rw [splitLookup, hparent, error_bind, wf.toTreeOk.pathToInum_tokens quietEnv hcs hne hlen]
    at hfound
  exact absurd hfound (by simp)

end Bad

/-- The halves of a string lead where the string leads, and the calls change the entry of the
object it leads to, exactly when the string is cut right. -/
theorem splitAgrees_iff {path : List UInt8} (hcs : ∀ c ∈ tokens slash path, Component c)
    (hne : tokens slash path ≠ []) (hlen : (tokens slash path).length ≤ 10) :
    SplitAgrees path ↔ CutsRight path := by
  constructor
  · intro hagrees
    rcases last_slash path with hslash | ⟨pre, c, rfl, hslash⟩
    · exact absurd hagrees (not_splitAgrees_bare hslash hcs hne)
    · refine ⟨pre, c, rfl, hslash, ?_, ?_, ?_⟩
      · rintro rfl
        exact not_splitAgrees_trailing hcs hne hlen hagrees
      · by_contra hno
        simp only [not_or, not_not] at hno
        exact not_splitAgrees_slashes hno.2.2 hno.1 hno.2.1 hslash hcs hne hlen hagrees
      · by_contra hlong
        exact not_splitAgrees_long hslash (by omega) hcs hne hlen hagrees
  · intro hcut
    obtain ⟨p, hp⟩ := hcut.spells hcs hlen
    exact hp.splitAgrees

/-- `//a` is cut right. -/
theorem splitAgrees_doubleSlash : SplitAgrees [slash, slash, 0x61] := by
  have htokens : tokens slash [slash, slash, 0x61] = [pathA.last] := by
    rw [show [slash, slash, 0x61] = [slash, slash] ++ [0x61] from rfl,
      tokens_delims_append (by simp), tokens_of_notMem (by simp) (by decide)]
    rfl
  refine (splitAgrees_iff (by rw [htokens]; exact pathA.components) (by rw [htokens]; simp)
    (by rw [htokens]; decide)).mpr ?_
  exact ⟨[slash], [0x61], rfl, by decide, by simp, .inr (.inl rfl), by decide⟩

/-- `/a/`. -/
def trailingA : List UInt8 := [slash, 0x61, slash]

theorem tokens_trailingA : tokens slash trailingA = tokens slash pathA.bytes := by
  show tokens slash (pathA.bytes ++ slash :: []) = _
  simp

theorem oneFile_trailingA (env : Env) : pathToInum env (oneFile 399).disk trailingA = .ok 3 := by
  have hbytes : tokens slash pathA.bytes = pathA.comps :=
    tokens_render fun c hc => (pathA.components c hc).fileName
  rw [← @oneFile_pathA 399 (by omega) (by omega) env]
  exact pathToInum_congr env _ (by rw [tokens_trailingA])
    (by rw [tokens_trailingA, hbytes]; simp [CanonPath.comps])

/-- The superblock of the image, read as directory entries, has none for `a`. -/
theorem oneFile_block_zero {filename : List UInt8} (h : cstr filename = some pathA.last)
    {s : FsState} (hs : s.disk = (oneFile 399).disk) (b junk : Block) :
    clearDirent (decodeDirents ((s.write 3 b).get junk 0)) filename = .error .outOfBounds := by
  have hzero : (s.write 3 b).disk.data 0 =
      encodeSuper { magic := fsMagic, diskSize := UInt32.ofNat 400 } := by
    rw [FsState.write_disk, Disk.write_ne _ _ (by omega), hs,
      (oneFile_placed (by omega) (by omega)).frame_low
        (emptyState_wellFormed (by omega) (by omega)).toTreeOk (by omega)]
    rfl
  have hlen : 0 < (s.write 3 b).disk.len := by
    rw [FsState.write_disk, Disk.lt_write_len]
    omega
  have hread : (s.write 3 b).get junk 0 =
      encodeSuper { magic := fsMagic, diskSize := UInt32.ofNat 400 } :=
    (FsState.get_of_lt _ junk (by omega) hlen).trans hzero
  have hfind : (List.finRange 128).find? (fun i =>
      (decodeDirents (encodeSuper { magic := fsMagic, diskSize := UInt32.ofNat 400 }) i).valid &&
      decide ((decodeDirents (encodeSuper { magic := fsMagic, diskSize := UInt32.ofNat 400 })
        i).nameOf = some pathA.last)) = none := by decide
  rw [hread]
  unfold clearDirent getDirentIndex
  rw [direntIndexFrom_eq _ (fun _ _ => strcmpEq_of_cstr h (by rw [bytesFrom_length]; decide)),
    hfind, ok_bind, if_pos (by decide)]

/-- `fs_unlink ("/a/")` looks for the entry in block 0, as the file has no first block, does not
find it and uses `-ENOENT` as the index. -/
theorem oneFile_unlink_trailingA :
    fsUnlink quietEnv trailingA (oneFile 399) = .error .outOfBounds := by
  have ok := (@oneFile_wellFormed 399 (by omega) (by omega)).toTreeOk
  have hfile : sIsdir (newFileInode quietEnv 0o644).mode = false := by decide
  have hlive : Live (oneFile 399).disk 3 :=
    resolve_live .root (oneFile_resolve (by omega) (by omega))
  have hread : ∀ junk, decodeInode ((oneFile 399).get junk (3 : Nat)) =
      newFileInode quietEnv 0o644 := by
    intro junk
    rw [ok.get_inUse hlive.owned]
    exact oneFile_inode (by omega) (by omega)
  obtain ⟨s, hfree, hdisk, -, -⟩ := freePtrs_eq (newFileInode quietEnv 0o644)
    (List.finRange 1019) ((oneFile 399).release 3) fun i _ hi => absurd rfl hi
  rw [FsState.release_disk] at hdisk
  obtain ⟨filename, hlast, hname⟩ :=
    pathA.getLastFilename_eq (quietEnv.call 1) (quietEnv.bytes 27 1) le_rfl
  rw [← getLastFilename_congr _ _ tokens_trailingA] at hlast
  have hparent : getParentPath 270 trailingA = .ok pathA.bytes := rfl
  have hpathA := fun env => @oneFile_pathA 399 (by omega) (by omega) env
  have hread' :
      decodeInode (s.get (quietEnv.junk [2]) (3 : Nat)) = newFileInode quietEnv 0o644 := by
    rw [← hread (quietEnv.junk [2]), FsState.get_eq, FsState.get_eq, hdisk]
  generalize hino : newFileInode quietEnv 0o644 = ino at hfile hread hread' hfree
  have hput := s.put_of_lt (encodeInode { ino with mtime := quietEnv.time }) (n := 3) (by omega)
    (by omega)
  have hptr : asInt (ino.ptrs 0) = 0 := by
    rw [← hino]
    decide
  simp only [fsUnlink_eq, withInode, oneFile_trailingA, ok_bind]
  rw [if_neg (by decide), show (3 : Int) = (3 : Nat) from rfl, hread, unlinkRest]
  simp only [hfile, Bool.false_eq_true, if_false, freeBlk_release (oneFile 399) (b := 3) (by omega),
    hfree, ok_bind, findParent, hparent, hlast, hdisk, hpathA, unlinkTail]
  simp only [show (3 : Int) = (3 : Nat) from rfl, hread', hput, ok_bind, hptr,
    oneFile_block_zero hname hdisk, error_bind]

/-- `/a/` leads to the file in block 3, its halves to a lookup in that file, and `fs_unlink`
leaves the array of entries. -/
theorem splitAgrees_trailing_slash : WellFormed (oneFile 399) ∧
    pathToInum quietEnv (oneFile 399).disk trailingA = .ok 3 ∧
    splitLookup quietEnv 270 27 (oneFile 399) trailingA = .ok (-enotdir) ∧
    fsUnlink quietEnv trailingA (oneFile 399) = .error .outOfBounds := by
  have wf : WellFormed (oneFile 399) := oneFile_wellFormed (by omega) (by omega)
  have ok := wf.toTreeOk
  have hres : resolve (oneFile 399).disk 2 pathA.comps = .ok 3 :=
    oneFile_resolve (by omega) (by omega)
  have hfile : isDirAt (oneFile 399).disk 3 = false := oneFile_isDir (by omega) (by omega)
  have hparent : getParentPath 270 trailingA = .ok pathA.bytes := rfl
  refine ⟨wf, oneFile_trailingA _, ?_, oneFile_unlink_trailingA⟩
  obtain ⟨filename, hlast, hname⟩ :=
    pathA.getLastFilename_eq (quietEnv.call 0) (quietEnv.bytes 27 0) le_rfl
  rw [← getLastFilename_congr _ _ tokens_trailingA] at hlast
  rw [ok.splitLookup_eq quietEnv hparent hlast hname (pathA.pathToInum_eq ok _), resolve_append,
    hres]
  simp [resolve_cons_file hfile, codeOf]

end SystemsProjects.Fs5600
