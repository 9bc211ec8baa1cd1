import SystemsProjects.Fs5600.Frame

/-!
# What `fs_rename` renames

`path_to_inum` finds an entry among the valid slots of a directory, the loop of `fs_rename` among
all of them (`fs5600.c:614-622`). When an entry that was removed lies before the live one and still
holds its name, the wrong slot gets the new name. Otherwise `fs_rename` moves the live entry and
nothing else.
-/

namespace SystemsProjects.Fs5600
open SystemsProjects.Lib

/-! ## Paths in a tree -/

section Paths
variable {st : FsState} {m : Nat} {cs : List (List UInt8)}

/-- The last step of a walk. -/
theorem resolve_concat {d : Disk} {c : List UInt8} (h : resolve d 2 (cs ++ [c]) = .ok m) :
    ∃ n i, resolve d 2 cs = .ok n ∧ isDirAt d n = true ∧ lookup d n c = some i ∧
      (entriesAt d n i).inode.toNat = m := by
  rw [resolve_append] at h
  cases hn : resolve d 2 cs with
  | error e => simp [hn] at h
  | ok n =>
    simp only [hn, resolve] at h
    cases hdir : isDirAt d n with
    | false => simp [hdir] at h
    | true =>
      cases hl : lookup d n c with
      | none => simp [hdir, hl] at h
      | some i =>
        simp only [hdir, hl, Bool.not_true, Bool.false_eq_true, if_false, Except.ok.injEq] at h
        exact ⟨n, i, rfl, hdir, hl, h⟩

/-- The slot through which a walk reaches its end refers to it. -/
theorem meets_of_concat {n : Nat} {i : Fin 128} {c : List UInt8}
    (hn : resolve st.disk 2 cs = .ok n) (hdir : isDirAt st.disk n = true)
    (hl : lookup st.disk n c = some i) (hm : (entriesAt st.disk n i).inode.toNat = m) :
    Meets Label.IsSlot 2 (refs st.disk) (some (n, .slot i)) m :=
  ⟨resolve_live .root hn, by rw [refs_slot hdir (lookup_eq_some hl).1, hm]⟩

/-- One path leads to each object. -/
theorem TreeOk.resolve_inj (ok : TreeOk st) {cs' : List (List UInt8)}
    (h : resolve st.disk 2 cs = .ok m) (h' : resolve st.disk 2 cs' = .ok m) : cs = cs' := by
  induction cs using List.reverseRecOn generalizing cs' m with
  | nil =>
    rcases List.eq_nil_or_concat cs' with rfl | ⟨cs', c', rfl⟩
    · rfl
    · -- the root is not in a slot
      obtain ⟨n, i, hn, hdir, hl, hm⟩ := resolve_concat (by rwa [List.concat_eq_append] at h')
      have hroot := Except.ok.inj h
      exact absurd (ok.distinct none _ m hroot.symm (meets_of_concat hn hdir hl hm)) (by simp)
  | append_singleton cs c ih =>
    obtain ⟨n, i, hn, hdir, hl, hm⟩ := resolve_concat h
    rcases List.eq_nil_or_concat cs' with rfl | ⟨cs', c', rfl⟩
    · have hroot := Except.ok.inj h'
      exact absurd (ok.distinct none _ m hroot.symm (meets_of_concat hn hdir hl hm)) (by simp)
    · rw [List.concat_eq_append] at h' ⊢
      obtain ⟨n', i', hn', hdir', hl', hm'⟩ := resolve_concat h'
      have hsame := ok.distinct _ _ m (meets_of_concat hn hdir hl hm)
        (meets_of_concat hn' hdir' hl' hm')
      simp only [Option.some.injEq, Prod.mk.injEq, Label.slot.injEq] at hsame
      obtain ⟨rfl, rfl⟩ := hsame
      have hname := (lookup_eq_some hl).2.symm.trans (lookup_eq_some hl').2
      rw [ih hn hn', Option.some.inj hname]

/-- A walk does not see changes to objects that are not on it before its end. -/
theorem resolve_congr {d d' : Disk} {n : Nat}
    (h : ∀ pre, pre <+: cs → pre ≠ cs → ∀ m, resolve d n pre = .ok m → SameNode d d' m) :
    resolve d' n cs = resolve d n cs := by
  induction cs generalizing n with
  | nil => rfl
  | cons c cs ih =>
    have hn : SameNode d d' n := h [] List.nil_prefix (List.cons_ne_nil c cs).symm n rfl
    unfold resolve
    rw [hn.isDirAt]
    cases hdir : isDirAt d n with
    | false => simp only [Bool.not_false, if_true]
    | true =>
      rw [lookup_congr (hn.entriesAt hdir)]
      cases hl : lookup d n c with
      | none => rfl
      | some i =>
        simp only [Bool.not_true, Bool.false_eq_true, if_false, hn.entriesAt hdir]
        apply ih
        intro pre hpre hne m hm
        refine h (c :: pre) (List.cons_prefix_cons.mpr ⟨rfl, hpre⟩) ?_ m ?_
        · intro he
          exact hne (List.cons.inj he).2
        · rw [resolve_cons_some hdir hl]
          exact hm

end Paths

/-! ## The outcome of a rename -/

/-- What `fs_rename` is for: the object has the new path and no longer the old one, no object comes
or goes, and every other pair of every directory stays. -/
structure Moved (st st' : FsState) (p q : CanonPath) : Prop where
  target : ∀ env env', pathToInum env st'.disk q.bytes = pathToInum env' st.disk p.bytes
  gone : ∀ env, pathToInum env st'.disk p.bytes = .ok (-enoent)
  live : ∀ n, Live st'.disk n ↔ Live st.disk n
  others : ∀ n, Live st.disk n → isDirAt st.disk n = true → ∀ x,
    (∀ b j, NamedBy st p n b j → x ≠ (some p.last, b) ∧ x ≠ (some q.last, b)) →
      (x ∈ pairs st'.disk n ↔ x ∈ pairs st.disk n)

/-- An entry that was removed holds the name of the live entry of `p`, in a slot before it. -/
def Shadowed (st : FsState) (p : CanonPath) : Prop :=
  ∃ n b j i, NamedBy st p n b j ∧ i < j ∧ (entriesAt st.disk n i).valid = false ∧
    (entriesAt st.disk n i).nameOf = some p.last

section Rename
variable {st st' : FsState} {p q : CanonPath} {n b : Nat} {i j : Fin 128}

theorem NamedBy.unique (named : NamedBy st p n b j) {n' b' : Nat} {j' : Fin 128}
    (named' : NamedBy st p n' b' j') : n' = n ∧ b' = b ∧ j' = j := by
  obtain rfl := Except.ok.inj (named'.resolved.symm.trans named.resolved)
  obtain rfl := Option.some.inj (named'.slot.symm.trans named.slot)
  exact ⟨rfl, named'.target.symm.trans named.target, rfl⟩

/-- The directory of the path is found as before. -/
theorem Renamed.resolve_dirs (hren : Renamed st st' n i q.last) (ok : TreeOk st)
    (hdirs : resolve st.disk 2 p.dirs = .ok n) : resolve st'.disk 2 p.dirs = .ok n := by
  rw [resolve_congr, hdirs]
  intro pre _ hne m hm
  apply hren.sameNode ok (resolve_live .root hm)
  intro hmn
  exact hne (ok.resolve_inj (hmn ▸ hm) hdirs)

theorem Renamed.valid_iff (hren : Renamed st st' n i q.last) (ok : TreeOk st) (k : Fin 128) :
    (entriesAt st'.disk n k).valid = (entriesAt st.disk n k).valid ∧
      (entriesAt st'.disk n k).inode = (entriesAt st.disk n k).inode := by
  obtain ⟨e, hv, hino, -, hes⟩ := hren.entriesAt_eq ok
  rw [hes]
  by_cases hk : k = i
  · rw [hk, Function.update_self]
    exact ⟨hv, hino⟩
  · rw [Function.update_of_ne hk]
    exact ⟨rfl, rfl⟩

/-- The name in the slot that was changed, and the names in the others. -/
theorem Renamed.nameOf_eq (hren : Renamed st st' n i q.last) (ok : TreeOk st) (k : Fin 128) :
    (entriesAt st'.disk n k).nameOf =
      if k = i then some q.last else (entriesAt st.disk n k).nameOf := by
  obtain ⟨e, -, -, hname, hes⟩ := hren.entriesAt_eq ok
  rw [hes]
  by_cases hk : k = i
  · rw [if_pos hk, hk, Function.update_self, hname]
  · rw [if_neg hk, Function.update_of_ne hk]

/-- A slot that is not the live one is changed: the source is still there. -/
theorem Renamed.not_moved (hren : Renamed st st' n i q.last) (ok : TreeOk st)
    (named : NamedBy st p n b j) (hij : j ≠ i) : ¬ Moved st st' p q := by
  intro hmoved
  have ok' := hren.treeOk ok
  have hslot : lookup st'.disk n p.last = some j := by
    apply lookup_of_name (hren.dirOk ok)
    · rw [(hren.valid_iff ok j).1]
      exact named.valid
    · rw [hren.nameOf_eq ok, if_neg hij]
      exact (lookup_eq_some named.slot).2
  have named' : NamedBy st' p n b j :=
    { resolved := hren.resolve_dirs ok named.resolved
      dir := hren.isDirAt_eq ok
      slot := hslot
      target := by rw [(hren.valid_iff ok j).2]; exact named.target }
  have hgone := hmoved.gone quietEnv
  rw [p.pathToInum_eq ok', named'.resolve_eq] at hgone
  have hcode := Except.ok.inj hgone
  simp only [codeOf, enoent] at hcode
  omega

/-! ### The live slot is changed -/

section Live
variable (hren : Renamed st st' n j q.last) (ok : TreeOk st) (named : NamedBy st p n b j)
include hren ok named

/-- The new path leads to the object. -/
theorem Renamed.named_target (ready : RenameReady st p q) : NamedBy st' q n b j where
  resolved := hren.resolve_dirs ok (ok.resolve_sameParent quietEnv ready.parent named.resolved)
  dir := hren.isDirAt_eq ok
  slot := by
    apply lookup_of_name (hren.dirOk ok)
    · rw [(hren.valid_iff ok j).1]
      exact named.valid
    · rw [hren.nameOf_eq ok, if_pos rfl]
  target := by
    rw [(hren.valid_iff ok j).2]
    exact named.target

/-- The old name is gone. -/
theorem Renamed.lookup_source : lookup st'.disk n p.last = none := by
  have hpname := (lookup_eq_some named.slot).2
  cases hl : lookup st'.disk n p.last with
  | none => rfl
  | some k =>
    obtain ⟨hv, hname⟩ := lookup_eq_some hl
    rw [hren.nameOf_eq ok] at hname
    by_cases hk : k = j
    · rw [if_pos hk] at hname
      have habsent := hren.absent
      rw [Option.some.inj hname, named.slot] at habsent
      exact absurd habsent (Option.some_ne_none _)
    · rw [if_neg hk] at hname
      rw [(hren.valid_iff ok k).1] at hv
      exact absurd ((ok.dirs n hren.live hren.dir).unique k j hv named.valid
        (hname.trans hpname.symm)) hk

/-- The other pairs of the directory stay. -/
theorem Renamed.pairs_iff {x : Option (List UInt8) × Nat} (hp : x ≠ (some p.last, b))
    (hq : x ≠ (some q.last, b)) : x ∈ pairs st'.disk n ↔ x ∈ pairs st.disk n := by
  constructor
  · intro hmem
    obtain ⟨k, hv, rfl⟩ := hmem
    have hk : k ≠ j := by
      intro hk
      apply hq
      rw [hren.nameOf_eq ok, if_pos hk, (hren.valid_iff ok k).2, hk, named.target]
    refine ⟨k, (hren.valid_iff ok k).1.symm.trans hv, ?_⟩
    rw [hren.nameOf_eq ok, if_neg hk, (hren.valid_iff ok k).2]
  · intro hmem
    obtain ⟨k, hv, rfl⟩ := hmem
    have hk : k ≠ j := by
      intro hk
      apply hp
      rw [hk, (lookup_eq_some named.slot).2, named.target]
    refine ⟨k, (hren.valid_iff ok k).1.trans hv, ?_⟩
    rw [hren.nameOf_eq ok, if_neg hk, (hren.valid_iff ok k).2]

theorem Renamed.moved (ready : RenameReady st p q) : Moved st st' p q := by
  have ok' := hren.treeOk ok
  refine ⟨?_, ?_, fun m => live_of_refs fun m hm => hren.refs_eq ok hm, ?_⟩
  · intro env env'
    rw [q.pathToInum_eq ok', p.pathToInum_eq ok, named.resolve_eq,
      (hren.named_target ok named ready).resolve_eq]
  · intro env
    rw [p.pathToInum_eq ok', p.resolve_last (hren.resolve_dirs ok named.resolved)]
    simp only [resolve, hren.isDirAt_eq ok, hren.lookup_source ok named, Bool.not_true,
      Bool.false_eq_true, if_false, codeOf]
  · intro m hm hdir x hx
    by_cases hmn : m = n
    · subst hmn
      obtain ⟨hxp, hxq⟩ := hx b j named
      exact hren.pairs_iff ok named hxp hxq
    · rw [pairs_of_entries ((hren.sameNode ok hm hmn).entriesAt hdir)]

end Live

/-- The slot that is changed is the live one, unless the live one is shadowed. -/
theorem FirstNamed.eq_iff (ok : TreeOk st) (named : NamedBy st p n b j)
    (hfirst : FirstNamed (entriesAt st.disk n) i p.last) : i = j ↔ ¬ Shadowed st p := by
  have hname := (lookup_eq_some named.slot).2
  constructor
  · intro hij hsh
    obtain ⟨n', b', j', k, named', hk, -, hkname⟩ := hsh
    obtain ⟨rfl, rfl, rfl⟩ := named.unique named'
    exact hfirst.2 k (hij ▸ hk) hkname
  · intro hno
    rcases lt_trichotomy i j with hlt | heq | hgt
    · refine absurd ⟨n, b, j, i, named, hlt, ?_, hfirst.1⟩ hno
      -- a valid slot with this name is the live one
      cases hv : (entriesAt st.disk n i).valid with
      | false => rfl
      | true =>
        have hij := (ok.dirs n named.live named.dir).unique i j hv named.valid
          (hfirst.1.trans hname.symm)
        exact absurd hij hlt.ne
    · exact heq
    · exact absurd hname (hfirst.2 j hgt)

/-- On every state that calls can reach, `fs_rename` moves the live entry and nothing else exactly
when no removed entry with the name of the source lies before it. -/
theorem fsRename_moves_iff {st₀ : FsState} {xs : List (Env × Op)} (wf : WellFormed st₀)
    (hrun : Steps OpStep st₀ xs st) (env : Env) (p q : CanonPath) :
    (∀ st', fsRename env p.bytes q.bytes st = .ok (0, st') → Moved st st' p q) ↔
      (RenameReady st p q → ¬ Shadowed st p) := by
  have ok : TreeOk st :=
    (hrun.invariant (fun s x t hs hstep => OpStep.wellFormed hs hstep) wf).toTreeOk
  rcases ok.fsRename_cases env p q with
    ⟨r, hr, hcall, hno⟩ | ⟨n, b, j, i, st', named, hcall, hren, ready, hfirst⟩
  · refine iff_of_true ?_ fun hready => absurd hready hno
    intro st' h
    have hzero := (Prod.mk.inj (Except.ok.inj (hcall.symm.trans h))).1
    exact absurd hzero hr.ne
  · constructor
    · intro hall _
      rw [← hfirst.eq_iff ok named]
      by_contra hij
      exact hren.not_moved ok named (Ne.symm hij) (hall st' hcall)
    · intro hno st'' h
      obtain rfl := (Prod.mk.inj (Except.ok.inj (hcall.symm.trans h))).2
      obtain rfl := (hfirst.eq_iff ok named).mpr (hno ready)
      exact hren.moved ok named ready

end Rename

/-- `fs_rename ("/a", "/b")` in a file system where nothing was removed. -/
theorem fsRename_moves_only : WellFormed (oneFile 399) ∧
    ∃ st', fsRename quietEnv pathA.bytes pathB.bytes (oneFile 399) = .ok (0, st') ∧
      Moved (oneFile 399) st' pathA pathB := by
  have wf : WellFormed (oneFile 399) := oneFile_wellFormed (by omega) (by omega)
  have hlookup := @oneFile_lookup 399 (by omega) (by omega)
  have hno : ¬ Shadowed (oneFile 399) pathA := by
    intro hsh
    obtain ⟨n, b, j, i, named, hij, -, -⟩ := hsh
    obtain rfl := Except.ok.inj named.resolved
    obtain rfl := Option.some.inj (named.slot.symm.trans hlookup)
    exact absurd hij (Fin.not_lt_zero i)
  have ready : RenameReady (oneFile 399) pathA pathB := by
    refine ⟨⟨3, oneFile_resolve (by omega) (by omega)⟩, ?_, rfl⟩
    intro b hb
    obtain ⟨n, i, named⟩ := pathB.namedBy hb
    obtain rfl := Except.ok.inj named.resolved
    exact absurd (named.slot.symm.trans oneFile_readyIn.absent) (Option.some_ne_none i)
  refine ⟨wf, ?_⟩
  rcases wf.toTreeOk.fsRename_cases quietEnv pathA pathB with
    ⟨r, -, -, hnot⟩ | ⟨n, b, j, i, st', -, hcall, -⟩
  · exact absurd ready hnot
  · exact ⟨st', hcall, (fsRename_moves_iff wf (Steps.nil (oneFile 399)) quietEnv pathA pathB).mpr
      (fun _ => hno) st' hcall⟩

/-! ## A run with a removed entry -/

/-- The root directory has an entry `c₁` in slot 1 and nothing after it. Slot 0 holds the name
`c₀`, live when `v` holds. -/
structure TwoSlots (st : FsState) (v : Bool) (c₀ c₁ : List UInt8) : Prop where
  wellFormed : WellFormed st
  first : (entriesAt st.disk 2 0).valid = v ∧ (entriesAt st.disk 2 0).nameOf = some c₀
  second : (entriesAt st.disk 2 1).valid = true ∧ (entriesAt st.disk 2 1).nameOf = some c₁
  rest : ∀ i, 1 < i → (entriesAt st.disk 2 i).valid = false

namespace TwoSlots
variable {st st' : FsState} {v : Bool} {c₀ c₁ c : List UInt8} (h : TwoSlots st v c₀ c₁)
include h

theorem dirOk : DirOk (entriesAt st.disk 2) := h.wellFormed.dirs 2 .root h.wellFormed.root

/-- The live entries are those in the two slots. -/
theorem eq_or_eq {i : Fin 128} (hv : (entriesAt st.disk 2 i).valid = true) : i = 0 ∨ i = 1 := by
  by_contra hne
  have hi : 1 < i := by omega
  exact absurd ((h.rest i hi).symm.trans hv) (by simp)

theorem namedBy_second (hc : Component c₁) :
    NamedBy st (rootPath c₁ hc) 2 (entriesAt st.disk 2 1).inode.toNat 1 where
  resolved := rfl
  dir := h.wellFormed.root
  slot := lookup_of_name h.dirOk h.second.1 h.second.2
  target := rfl

/-- A name in neither slot is free. -/
theorem free (hc : Component c) (h₀ : v = true → c₀ ≠ c) (h₁ : c₁ ≠ c) (b : Nat) :
    resolve st.disk 2 (rootPath c hc).comps ≠ .ok b := by
  intro hb
  obtain ⟨n, i, named⟩ := (rootPath c hc).namedBy hb
  obtain rfl := Except.ok.inj named.resolved
  have hname := (lookup_eq_some named.slot).2
  rcases h.eq_or_eq named.valid with rfl | rfl
  · exact h₀ (h.first.1.symm.trans named.valid) (Option.some.inj (h.first.2.symm.trans hname))
  · exact h₁ (Option.some.inj (h.second.2.symm.trans hname))

/-- Without a live entry in slot 0, `/c₁` can be renamed to every other name; the slot that changes
is the first of the two with this name. -/
theorem rename (hv : v = false) (hc₁ : Component c₁) (hc : Component c) (hne : c₁ ≠ c) :
    ∃ i st', fsRename quietEnv (rootPath c₁ hc₁).bytes (rootPath c hc).bytes st = .ok (0, st') ∧
      Renamed st st' 2 i c ∧ i = if c₀ = c₁ then 0 else 1 := by
  have ready : RenameReady st (rootPath c₁ hc₁) (rootPath c hc) :=
    ⟨⟨_, (h.namedBy_second hc₁).resolve_eq⟩, h.free hc (fun hv' => absurd (hv.symm.trans hv')
      (by simp)) hne, rfl⟩
  rcases h.wellFormed.toTreeOk.fsRename_cases quietEnv (rootPath c₁ hc₁) (rootPath c hc) with
    ⟨r, -, -, hno⟩ | ⟨n, b, j, i, st', named, hcall, hren, -, hname, hfirst⟩
  · exact absurd ready hno
  · obtain ⟨rfl, -, rfl⟩ := (h.namedBy_second hc₁).unique named
    refine ⟨i, st', hcall, hren, ?_⟩
    split_ifs with heq
    · by_contra hi
      exact hfirst 0 (Fin.pos_of_ne_zero hi) (heq ▸ h.first.2)
    · have hi0 : i ≠ 0 := by
        intro hi
        rw [hi, h.first.2] at hname
        exact heq (Option.some.inj hname)
      have hi1 : ¬ 1 < i := fun hi => hfirst 1 hi h.second.2
      omega

end TwoSlots

/-- `fs_create ("/b")` after `fs_create ("/a")`. -/
theorem oneFile_create :
    ∃ st', exec quietEnv (oneFile 399) (Op.create pathB 0o644).call = .ok (0, st') ∧
      TwoSlots st' true pathA.last pathB.last ∧
      isDirAt st'.disk (entriesAt st'.disk 2 0).inode.toNat = false := by
  have wf : WellFormed (oneFile 399) := oneFile_wellFormed (by omega) (by omega)
  have hes := @oneFile_entries 399 (by omega) (by omega)
  have hready : ReadyIn (oneFile 399) pathB 2 := oneFile_readyIn
  have hslot : firstInvalid (entriesAt (oneFile 399).disk 2) = some 1 := by
    rw [hes]
    decide
  obtain ⟨b, st', hrun, hplaced, hfirst⟩ :=
    hready.fsCreate_ok wf.toTreeOk quietEnv 0o644 ⟨4, oneFile_free⟩
  obtain ⟨e, hv, -, hname, htable⟩ := hfirst.slot 1 hslot
  have hes' := hplaced.entriesAt_parent wf.toTreeOk htable
  have hfirst : entriesAt st'.disk 2 0 = entryA := by
    rw [hes', Function.update_of_ne (by decide), hes, Function.update_self]
  refine ⟨st', hrun, ⟨hplaced.wellFormed wf hready.absent (newObject_file quietEnv _),
    ?_, ?_, ?_⟩, ?_⟩
  · rw [hfirst]
    exact ⟨rfl, entryA_nameOf⟩
  · rw [hes', Function.update_self]
    exact ⟨hv, hname⟩
  · intro i hi
    rw [hes', Function.update_of_ne hi.ne', hes, Function.update_of_ne (by omega)]
    rfl
  · have hlive := resolve_live .root (@oneFile_resolve 399 (by omega) (by omega))
    rw [hfirst]
    exact (hplaced.sameNode wf.toTreeOk hlive (by decide)).isDirAt.trans
      (oneFile_isDir (by omega) (by omega))

/-- `fs_unlink ("/a")` leaves the name in slot 0. -/
theorem TwoSlots.unlink {st : FsState} (h : TwoSlots st true pathA.last pathB.last)
    (hfile : isDirAt st.disk (entriesAt st.disk 2 0).inode.toNat = false) :
    ∃ st', exec quietEnv st (Op.unlink pathA).call = .ok (0, st') ∧
      TwoSlots st' false pathA.last pathB.last := by
  have ok := h.wellFormed.toTreeOk
  have named : NamedBy st pathA 2 (entriesAt st.disk 2 0).inode.toNat 0 :=
    ⟨rfl, h.wellFormed.root, lookup_of_name h.dirOk h.first.1 h.first.2, rfl⟩
  obtain ⟨st', hrun, hclear⟩ := named.fsUnlink_ok ok hfile quietEnv
  have hstep := hclear.unlinkStep ok named fun j hdir => absurd (hfile.symm.trans hdir) (by simp)
  have hes : entriesAt st'.disk 2 = Function.update (entriesAt st.disk 2) 0
      { entriesAt st.disk 2 0 with valid := false } := by
    show decodeDirents (st'.disk.data (tableOf st'.disk 2)) = _
    rw [hstep.table', hclear.table, decodeDirents_encodeDirents]
  refine ⟨st', hrun, hstep.wellFormed h.wellFormed, ?_, ?_, ?_⟩
  · rw [hes, Function.update_self]
    exact ⟨rfl, h.first.2⟩
  · rw [hes, Function.update_of_ne (by decide)]
    exact h.second
  · intro i hi
    rw [hes, Function.update_of_ne (by omega)]
    exact h.rest i hi

/-- After `/a` was removed and `/b` renamed to `/a`, the scan finds the removed entry: `fs_rename`
of `/a` to `/c` returns 0, and `/a` is still there. -/
theorem fsRename_removed_entry : WellFormed (oneFile 399) ∧ ∃ st st', Steps OpStep (oneFile 399)
      [(quietEnv, .create pathB 0o644), (quietEnv, .unlink pathA), (quietEnv, .rename pathB pathA)]
      st ∧
    fsRename quietEnv pathA.bytes pathC.bytes st = .ok (0, st') ∧ ¬ Moved st st' pathA pathC := by
  refine ⟨oneFile_wellFormed (by omega) (by omega), ?_⟩
  obtain ⟨st₁, hcreate, h₁, hfile⟩ := oneFile_create
  obtain ⟨st₂, hunlink, h₂⟩ := h₁.unlink hfile
  obtain ⟨i, st₃, hrename, hren, hi⟩ :=
    h₂.rename rfl component_b (pathA.last_component) (by decide)
  rw [if_neg (by decide)] at hi
  subst hi
  have ok₂ := h₂.wellFormed.toTreeOk
  have h₃ : TwoSlots st₃ false pathA.last pathA.last := by
    refine ⟨hren.wellFormed h₂.wellFormed, ?_, ?_, ?_⟩
    · rw [(hren.valid_iff ok₂ 0).1, hren.nameOf_eq ok₂, if_neg (by decide)]
      exact h₂.first
    · rw [(hren.valid_iff ok₂ 1).1, hren.nameOf_eq ok₂, if_pos rfl]
      exact ⟨h₂.second.1, rfl⟩
    · intro i hi
      rw [(hren.valid_iff ok₂ i).1]
      exact h₂.rest i hi
  obtain ⟨i, st₄, hcall, hren', hi⟩ :=
    h₃.rename rfl (pathA.last_component) component_c (by decide)
  rw [if_pos rfl] at hi
  subst hi
  have hsteps : Steps OpStep (oneFile 399)
      [(quietEnv, .create pathB 0o644), (quietEnv, .unlink pathA), (quietEnv, .rename pathB pathA)]
      st₃ :=
    .cons ⟨trivial, .inl (by decide), 0, hcreate⟩
      (.cons ⟨trivial, trivial, 0, hunlink⟩ (.cons ⟨trivial, trivial, 0, hrename⟩ (.nil st₃)))
  exact ⟨st₃, st₄, hsteps, hcall, hren'.not_moved h₃.wellFormed.toTreeOk
    (h₃.namedBy_second pathA.last_component) (by decide)⟩

end SystemsProjects.Fs5600
