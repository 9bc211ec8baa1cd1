import SystemsProjects.Fs5600.Spelling

/-!
# Paths of more than ten components

The array of names in `path_to_inum` has ten rows, and the loop that fills it stops there
(`fs5600.c:163-170`). A longer path is resolved as its first ten components: below a directory at
depth ten every path leads to that directory.
-/

namespace SystemsProjects.Fs5600
open SystemsProjects.Lib

/-- `path_to_inum` on a canonical path of any number of components. -/
theorem TreeOk.pathToInum_take {st : FsState} (ok : TreeOk st) (env : Env)
    {cs : List (List UInt8)} (hcs : ∀ c ∈ cs, Component c) (hne : cs ≠ []) :
    pathToInum env st.disk (render cs) = .ok (codeOf (resolve st.disk 2 (cs.take 10))) := by
  have htake : ∀ c ∈ cs.take 10, Component c := fun c hc => hcs c (List.mem_of_mem_take hc)
  have hne' : cs.take 10 ≠ [] := by simpa using hne
  rw [← ok.pathToInum_render env htake hne' (by simp)]
  refine pathToInum_congr env st.disk ?_ ?_
  · rw [tokens_render fun c hc => (hcs c hc).fileName,
      tokens_render fun c hc => (htake c hc).fileName, List.take_take, Nat.min_self]
  · rwa [tokens_render fun c hc => (hcs c hc).fileName]

theorem codeOf_eq_natCast {d : Disk} {cs : List (List UInt8)} {n k : Nat}
    (h : codeOf (resolve d n cs) = k) : resolve d n cs = .ok k := by
  cases hres : resolve d n cs with
  | error e =>
    have he := codeOf_error_neg hres
    rw [hres] at h
    have : e = k := h
    omega
  | ok m =>
    rw [hres] at h
    rw [Int.ofNat.inj h]

/-- A file can be made there: the directory exists, has no such entry and a slot left, and a block
is free. -/
structure Creatable (st : FsState) (dirs : List (List UInt8)) (c : List UInt8) : Prop where
  parent : ∃ n, resolve st.disk 2 dirs = .ok n ∧ isDirAt st.disk n = true ∧
    lookup st.disk n c = none ∧ ∃ i, (entriesAt st.disk n i).valid = false
  block : st.unmarked.Nonempty

/-- What is promised of a path at any depth: it leads to no other object than its own, and a file
that can be made is made, found and removed there. -/
structure DeepOk (st : FsState) (dirs : List (List UInt8)) (c : List UInt8) : Prop where
  own : ∀ (env : Env) (k : Nat), pathToInum env st.disk (render (dirs ++ [c])) = .ok k →
    resolve st.disk 2 (dirs ++ [c]) = .ok k
  usable : Creatable st dirs c → ∀ env mode, ∃ (st' : FsState) (b : Nat),
    fsCreate env (render (dirs ++ [c])) mode st = .ok (0, st') ∧
    (∀ env', pathToInum env' st'.disk (render (dirs ++ [c])) = .ok b) ∧
    resolve st'.disk 2 (dirs ++ [c]) = .ok b ∧
    ∀ env', ∃ st'', fsUnlink env' (render (dirs ++ [c])) st' = .ok (0, st'') ∧
      resolve st''.disk 2 (dirs ++ [c]) = .error (-enoent)

/-- Up to ten components a file is made, found and removed. -/
theorem Creatable.usable {st : FsState} (wf : WellFormed st) (p : CanonPath)
    (h : Creatable st p.dirs p.last) (env : Env) (mode : UInt32) : ∃ (st' : FsState) (b : Nat),
    fsCreate env p.bytes mode st = .ok (0, st') ∧
    (∀ env', pathToInum env' st'.disk p.bytes = .ok b) ∧ resolve st'.disk 2 p.comps = .ok b ∧
    ∀ env', ∃ st'', fsUnlink env' p.bytes st' = .ok (0, st'') ∧
      resolve st''.disk 2 p.comps = .error (-enoent) := by
  have ok := wf.toTreeOk
  obtain ⟨n, hn, hdir, habsent, hroom⟩ := h.parent
  have ready : ReadyIn st p n := ⟨hn, hdir, habsent⟩
  obtain ⟨b, st', hrun, hplaced, -⟩ := ready.fsCreate_ok ok env mode h.block
  have hnew := newObject_file env mode
  have ok' := (hplaced.wellFormed wf habsent hnew).toTreeOk
  obtain ⟨i, named⟩ := hplaced.namedBy ok ready hnew hroom
  have hfile : isDirAt st'.disk b = false := hplaced.isDirAt_object.trans hnew.1
  refine ⟨st', b, hrun, fun env' => ?_, named.resolve_eq, fun env' => ?_⟩
  · rw [p.pathToInum_eq ok', named.resolve_eq]
    rfl
  · obtain ⟨s, hrm, hclear⟩ := named.fsUnlink_ok ok' hfile env'
    have hgone := hclear.readyIn ok' named fun j hj => by simp [hfile] at hj
    refine ⟨s, hrm, ?_⟩
    rw [p.resolve_last hgone.resolved]
    exact resolve_cons_none hgone.dir hgone.absent

/-- The promise is kept exactly by the paths of up to ten components and by those whose first ten
lead nowhere. -/
theorem deepOk_iff {st : FsState} (wf : WellFormed st) {dirs : List (List UInt8)}
    {c : List UInt8} (hcs : ∀ x ∈ dirs ++ [c], Component x) :
    DeepOk st dirs c ↔
      (dirs ++ [c]).length ≤ 10 ∨ ∀ n, resolve st.disk 2 ((dirs ++ [c]).take 10) ≠ .ok n := by
  have ok := wf.toTreeOk
  have hpath := fun env => ok.pathToInum_take env hcs (by simp)
  constructor
  · intro hdeep
    by_contra hno
    simp only [not_or, not_forall, not_not] at hno
    obtain ⟨hlong, n, hn⟩ := hno
    have hown := hdeep.own quietEnv n (by rw [hpath, hn]; rfl)
    have hlen := congrArg List.length (ok.resolve_inj hn hown)
    simp only [List.length_take] at hlen
    omega
  · intro h
    by_cases hlen : (dirs ++ [c]).length ≤ 10
    · have hdepth : dirs.length ≤ 9 := by
        rw [List.length_append, List.length_singleton] at hlen
        omega
      let p : CanonPath := ⟨dirs, c, hcs, hdepth⟩
      refine ⟨fun env k hk => ?_, fun hcreate => hcreate.usable wf p⟩
      rw [hpath, List.take_of_length_le hlen] at hk
      exact codeOf_eq_natCast (Except.ok.inj hk)
    · have hnone := h.resolve_left hlen
      refine ⟨fun env k hk => ?_, fun hcreate => ?_⟩
      · rw [hpath] at hk
        exact absurd (codeOf_eq_natCast (Except.ok.inj hk)) (hnone k)
      · -- the directory itself is below the tenth component
        obtain ⟨n, hn, -⟩ := hcreate.parent
        simp only [List.length_append, List.length_singleton] at hlen
        obtain ⟨k, hk⟩ := resolve_prefix (List.take_prefix 10 dirs) hn
        rw [← List.take_append_of_le_length (by omega)] at hk
        exact absurd hk (hnone k)

/-- `/a` in an image with that file. -/
theorem deepOk_oneFile : DeepOk (oneFile 399) pathA.dirs pathA.last :=
  (deepOk_iff (oneFile_wellFormed (by omega) (by omega)) pathA.components).mpr
    (.inl (by decide))

/-- The name `d`, ten times. -/
def tenDeep : List (List UInt8) := List.replicate 10 [0x64]

/-- Ten directories below each other. `/d/…/d` of eleven components does not exist, but leads to
the tenth directory, and `fs_create` says that it exists. -/
theorem deepOk_eleven : ∃ n,
    WellFormed (mkdirAll (emptyState 399) [] tenDeep) ∧
    (∀ ds m, resolve (mkdirAll (emptyState 399) [] tenDeep).disk 2 ds = .ok m → ds.length ≤ 10) ∧
    resolve (mkdirAll (emptyState 399) [] tenDeep).disk 2 tenDeep = .ok n ∧
    isDirAt (mkdirAll (emptyState 399) [] tenDeep).disk n = true ∧
    resolve (mkdirAll (emptyState 399) [] tenDeep).disk 2 (tenDeep ++ [[0x64]]) =
      .error (-enoent) ∧
    pathToInum quietEnv (mkdirAll (emptyState 399) [] tenDeep).disk
      (render (tenDeep ++ [[0x64]])) = .ok n ∧
    fsCreate quietEnv (render (tenDeep ++ [[0x64]])) 0o644 (mkdirAll (emptyState 399) [] tenDeep) =
      .ok (-eexist, mkdirAll (emptyState 399) [] tenDeep) := by
  have hd : Component [0x64] := ⟨by decide, by decide, by decide, by decide⟩
  have hten : ∀ x ∈ tenDeep, Component x := fun x hx => List.eq_of_mem_replicate hx ▸ hd
  have heleven : ∀ x ∈ tenDeep ++ [[0x64]], Component x := component_concat hten hd
  have hnested := nested_mkdirAll hten (by decide)
  generalize mkdirAll (emptyState 399) [] tenDeep = st at hnested
  have ok := hnested.wf.toTreeOk
  obtain ⟨n, hn, hdir, hempty⟩ := hnested.path
  have hpath : ∀ env, pathToInum env st.disk (render (tenDeep ++ [[0x64]])) = .ok n := by
    intro env
    have htake : List.take 10 (tenDeep ++ [[0x64]]) = tenDeep := rfl
    rw [ok.pathToInum_take env heleven (by simp), htake, hn]
    rfl
  have hpos := ok.two_le (resolve_live .root hn).owned
  refine ⟨n, hnested.wf, fun ds m hds => (hnested.only ds m hds).length_le, hn, hdir, ?_,
    hpath _, ?_⟩
  · rw [resolve_append, hn]
    exact resolve_cons_none hdir (lookup_of_invalid hempty _)
  · rw [fsCreate_eq, openParent, hpath, ok_bind, if_pos (by omega)]

end SystemsProjects.Fs5600
