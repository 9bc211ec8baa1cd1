import SystemsProjects.Fs5600.Spelling

/-!
# The name buffers

The components of a path go through `filenames[10][27]` with `strcpy`, whatever their length: a
component of 27 bytes or more runs into the next row, and the next component overwrites it there.
`rowNames` are the strings that the rows hold in the end. The only test of a length is in
`get_last_filename`, after `path_to_inum` has stored the components, and `get_parent_path` copies
the text before the last slash into a buffer of 270 or 280 bytes without any test.
-/

namespace SystemsProjects.Fs5600
open SystemsProjects.Lib

variable {n : Nat} {c : List UInt8} {cs : List (List UInt8)}

/-! ## Strings in a buffer -/

theorem cstr_append {s t : List UInt8} (hs : 0 ∉ s) : cstr (s ++ t) = (cstr t).map (s ++ ·) := by
  induction s with
  | nil => simp
  | cons x s ih =>
    simp only [List.mem_cons, not_or] at hs
    rw [List.cons_append, cstr, if_neg (Ne.symm hs.1), ih hs.2, Option.map_map]
    rfl

theorem bytesFrom_split (buf : Fin n → UInt8) (off k : Nat) :
    bytesFrom buf off = (bytesFrom buf off).take k ++ bytesFrom buf (off + k) := by
  simp only [bytesFrom, ← List.drop_drop, List.take_append_drop]

/-- What `strcpy` leaves below the string, and the string. -/
theorem strcpy_get {buf buf' : Fin n → UInt8} {off : Nat} (h : strcpy buf off c = some buf') :
    off + c.length < n ∧ (∀ k : Fin n, k.val < off → buf' k = buf k) ∧
      ∀ (j : Nat) x, (c)[j]? = some x → (bytesFrom buf' off)[j]? = some x := by
  unfold strcpy at h
  split at h
  · rename_i hfit
    obtain rfl := Option.some.inj h
    refine ⟨hfit, fun k hk => if_pos hk, ?_⟩
    intro j x hx
    have hj := (List.getElem?_eq_some_iff.mp hx).1
    rw [bytesFrom_getElem?, dif_pos (by omega)]
    simp [List.getD_eq_getElem?_getD, List.getElem?_append_left hj, hx]
  · exact absurd h (by simp)

/-- Bytes of a string of 27 bytes or more that are left in its row. -/
theorem take_row {buf : Fin 270 → UInt8} {off : Nat} (hlen : 27 ≤ c.length)
    (h : ∀ (j : Nat) x, j < 27 → (c)[j]? = some x → (bytesFrom buf off)[j]? = some x) :
    (bytesFrom buf off).take 27 = c.take 27 := by
  apply List.ext_getElem?
  intro j
  by_cases hj : j < 27
  · rw [List.getElem?_take_of_lt hj, List.getElem?_take_of_lt hj]
    have hx := List.getElem?_eq_getElem (show j < c.length by omega)
    rw [hx]
    exact h j _ hj hx
  · have hj' : 27 ≤ j := Nat.not_lt.mp hj
    rw [List.getElem?_take_eq_none hj', List.getElem?_take_eq_none hj']

/-! ## The rows -/

/-- The string in the row of `c`, when `next` is the string in the row behind it. -/
def rowName (c : List UInt8) : Option (List UInt8) → List UInt8
  | none => c
  | some next => if c.length < 27 then c else c.take 27 ++ next

/-- The strings in the rows of `cs`. -/
def rowNames : List (List UInt8) → List (List UInt8)
  | [] => []
  | c :: cs => rowName c (rowNames cs).head? :: rowNames cs

theorem rowNames_length (cs : List (List UInt8)) : (rowNames cs).length = cs.length := by
  induction cs with
  | nil => rfl
  | cons c cs ih => simp [rowNames, ih]

theorem rowName_ne_nil (hc : c ≠ []) (next : Option (List UInt8)) : rowName c next ≠ [] := by
  cases next with
  | none => exact hc
  | some next =>
    rw [rowName]
    split
    · exact hc
    · have : c.take 27 ≠ [] := by simp [hc]
      simp [this]

theorem rowNames_ne_nil (hcs : ∀ c ∈ cs, c ≠ []) : ∀ r ∈ rowNames cs, r ≠ [] := by
  induction cs with
  | nil => simp [rowNames]
  | cons c cs ih =>
    obtain ⟨hc, hcs⟩ := List.forall_mem_cons.mp hcs
    exact List.forall_mem_cons.mpr ⟨rowName_ne_nil hc _, ih hcs⟩

/-- The components fit into the array of names, from row `i` on. -/
def RowsFit (i : Nat) (cs : List (List UInt8)) : Prop :=
  ∀ j c, cs[j]? = some c → 27 * (i + j) + c.length < 270

theorem RowsFit.tail {i : Nat} (h : RowsFit i (c :: cs)) : RowsFit (i + 1) cs := by
  intro j x hx
  have := h (j + 1) x (by simpa using hx)
  omega

/-- The row of a component `t`, once the rows behind it are filled. -/
theorem first_row {i : Nat} {t : List UInt8} {names names₁ names' : Fin 270 → UInt8} (ht : 0 ∉ t)
    (hcpy : strcpy names (27 * i) t = some names₁) (hnil : cs = [] → names' = names₁)
    (hkeep : ∀ k : Fin 270, k.val < 27 * (i + 1) → names' k = names₁ k)
    (hnext : ∀ next, (rowNames cs)[0]? = some next →
      cstr (bytesFrom names' (27 * (i + 1 + 0))) = some next) :
    cstr (bytesFrom names' (27 * (i + 0))) = some (rowName t (rowNames cs).head?) := by
  obtain ⟨hfit, -, hbytes⟩ := strcpy_get hcpy
  have hstr := cstr_strcpy ht hcpy
  cases hhead : (rowNames cs).head? with
  | none =>
    -- no component follows: the whole string is left
    have hempty : cs = [] := by
      rw [← List.length_eq_zero_iff, ← rowNames_length, List.length_eq_zero_iff]
      exact List.head?_eq_none_iff.mp hhead
    rw [hnil hempty]
    exact hstr
  | some next =>
    by_cases hshort : t.length < 27
    · obtain ⟨-, hpre⟩ := cstr_eq_some_iff.mp hstr
      rw [rowName, if_pos hshort]
      refine cstr_eq_some_iff.mpr ⟨ht, List.prefix_iff_getElem?.mpr ?_⟩
      intro k hk
      have hold := List.prefix_iff_getElem?.mp hpre k hk
      have hk' : k < t.length + 1 := by simpa using hk
      rw [bytesFrom_getElem?, dif_pos (by omega)] at hold ⊢
      rw [hkeep _ (by simp only; omega)]
      exact hold
    · -- the row runs on into the next one
      have hlen : 27 ≤ t.length := Nat.not_lt.mp hshort
      have hfirst := hnext next (by rw [← hhead, List.head?_eq_getElem?])
      have hrow : (bytesFrom names' (27 * (i + 0))).take 27 = t.take 27 := by
        apply take_row hlen
        intro j x hj hx
        have hold := hbytes j x hx
        rw [bytesFrom_getElem?, dif_pos (by omega)] at hold ⊢
        rw [← hold, Option.some_inj]
        exact hkeep _ (by simp only; omega)
      have htake : 0 ∉ t.take 27 := fun h0 => ht (List.mem_of_mem_take h0)
      rw [rowName, if_neg hshort, bytesFrom_split names' (27 * (i + 0)) 27, hrow,
        cstr_append htake, show 27 * (i + 0) + 27 = 27 * (i + 1 + 0) by omega, hfirst]
      rfl

/-- The tokenizing loop fills the rows. -/
theorem splitPath_rows (tooLong : List UInt8 → Bool) {left i : Nat} {s : List UInt8}
    (names : Fin 270 → UInt8) (hs : (tokens slash s).take left = cs)
    (hcs : ∀ c ∈ cs, 0 ∉ c ∧ tooLong c = false) (hfit : RowsFit i cs) :
    ∃ names', splitPath tooLong left i s names = .ok (names', i + cs.length, false) ∧
      (cs = [] → names' = names) ∧ (∀ k : Fin 270, k.val < 27 * i → names' k = names k) ∧
      ∀ j r, (rowNames cs)[j]? = some r → cstr (bytesFrom names' (27 * (i + j))) = some r := by
  induction left generalizing i s names cs with
  | zero =>
    subst hs
    exact ⟨names, rfl, fun _ => rfl, fun _ _ => rfl, by simp [rowNames]⟩
  | succ left ih =>
    rcases strtok_cases slash s with ⟨hnone, htok⟩ | ⟨t, rest, htokens, htok⟩
    · rw [hnone, List.take_nil] at hs
      subst hs
      exact ⟨names, by simp [splitPath, htok], fun _ => rfl, fun _ _ => rfl, by simp [rowNames]⟩
    · rw [htokens, List.take_succ_cons] at hs
      subst hs
      obtain ⟨⟨ht, hlong⟩, hcs⟩ := List.forall_mem_cons.mp hcs
      have htfit : 27 * i + t.length < 270 := by simpa using hfit 0 t rfl
      obtain ⟨names₁, hcpy⟩ := strcpy_isSome names (27 * i) t htfit
      obtain ⟨-, hbelow, -⟩ := strcpy_get hcpy
      obtain ⟨names', hrun, hnil, hkeep, hrows⟩ := ih names₁ rfl hcs hfit.tail
      refine ⟨names', ?_, by simp, ?_, ?_⟩
      · simp only [splitPath, htok, hlong, hcpy, orFault, ok_bind, hrun, Bool.false_eq_true,
          if_false, List.length_cons]
        rw [Nat.add_right_comm, Nat.add_assoc]
      · intro k hk
        rw [hkeep k (by omega), hbelow k hk]
      · intro j r hr
        cases j with
        | zero =>
          simp only [rowNames, List.getElem?_cons_zero, Option.some.injEq] at hr
          subst hr
          exact first_row ht hcpy hnil hkeep fun next => hrows 0 next
        | succ j =>
          simp only [rowNames, List.getElem?_cons_succ] at hr
          have hrow := hrows j r hr
          rwa [show i + 1 + j = i + (j + 1) by omega] at hrow

/-- If no store of the loop leaves the array, the components fit. -/
theorem splitPath_fits {left i : Nat} {s : List UInt8} {names : Fin 270 → UInt8}
    {r : (Fin 270 → UInt8) × Nat × Bool}
    (h : splitPath (fun _ => false) left i s names = .ok r) :
    RowsFit i ((tokens slash s).take left) := by
  induction left generalizing i s names with
  | zero => simp [RowsFit]
  | succ left ih =>
    rcases strtok_cases slash s with ⟨hnone, -⟩ | ⟨t, rest, htokens, htok⟩
    · simp [hnone, RowsFit]
    · simp only [splitPath, htok, Bool.false_eq_true, if_false] at h
      cases hcpy : strcpy names (27 * i) t with
      | none =>
        rw [hcpy, orFault, error_bind] at h
        exact absurd h (by simp)
      | some names₁ =>
        rw [hcpy, orFault, ok_bind] at h
        intro j c hc
        rw [htokens, List.take_succ_cons] at hc
        cases j with
        | zero =>
          obtain rfl := Option.some.inj hc
          exact (strcpy_get hcpy).1
        | succ j =>
          have := ih h j c (by simpa using hc)
          omega

/-! ## `get_last_filename` -/

/-- The test of `get_last_filename`. -/
def tooLong (token : List UInt8) : Bool := decide (27 < token.length)

/-- A component that is too long stops the loop before it is stored; the components before it are
in rows where 27 bytes fit. -/
theorem splitPath_long {left i : Nat} {s : List UInt8} (names : Fin 270 → UInt8)
    (hi : i + left ≤ 10) (hlong : ∃ c ∈ (tokens slash s).take left, tooLong c = true) :
    ∃ names' k, splitPath tooLong left i s names = .ok (names', k, true) := by
  induction left generalizing i s names with
  | zero => simp at hlong
  | succ left ih =>
    rcases strtok_cases slash s with ⟨hnone, -⟩ | ⟨t, rest, htokens, htok⟩
    · simp [hnone] at hlong
    · rw [htokens, List.take_succ_cons] at hlong
      by_cases ht : tooLong t = true
      · exact ⟨names, i, by simp [splitPath, htok, ht]⟩
      · have hlater : ∃ c ∈ (tokens slash rest).take left, tooLong c = true := by
          obtain ⟨c, hc, hcl⟩ := hlong
          rcases List.mem_cons.mp hc with rfl | hc
          · exact absurd hcl ht
          · exact ⟨c, hc, hcl⟩
        have hleft : 0 < left := by
          obtain ⟨c, hc, -⟩ := hlater
          exact Nat.lt_of_lt_of_le (List.length_pos_of_mem hc) (List.length_take_le _ _)
        have htlen : t.length ≤ 27 := by simpa [tooLong] using ht
        obtain ⟨names₁, hcpy⟩ := strcpy_isSome names (27 * i) t (by omega)
        obtain ⟨names', k, hrun⟩ := ih names₁ (i := i + 1) (by omega) hlater
        refine ⟨names', k, ?_⟩
        simp only [splitPath, htok, ht, Bool.false_eq_true, if_false, hcpy, orFault, ok_bind, hrun]

/-- The components that `path_to_inum` and `get_last_filename` read. -/
def comps (path : List UInt8) : List (List UInt8) := (tokens slash path).take 10

/-- With a component that is too long, `get_last_filename` stores nothing for its caller. -/
theorem getLastFilename_long (env : Env) {path : List UInt8}
    (hlong : ∃ c ∈ comps path, 27 < c.length) (buf : Fin n → UInt8) :
    getLastFilename env path buf = .ok (-einval, buf) := by
  have hlong' : ∃ c ∈ (tokens slash path).take 10, tooLong c = true := by
    simpa [tooLong, comps] using hlong
  obtain ⟨names', k, hsplit⟩ := splitPath_long (env.bytes 270 0) (i := 0) (by omega) hlong'
  unfold getLastFilename
  rw [show (fun token => decide (27 < List.length token)) = tooLong from rfl, hsplit, ok_bind]
  rfl

/-- Without components it reads before its array. -/
theorem getLastFilename_none (env : Env) {path : List UInt8} (h : comps path = [])
    (buf : Fin n → UInt8) : getLastFilename env path buf = .error .outOfBounds := by
  have htokens : tokens slash path = [] := (List.take_eq_nil_iff.mp h).resolve_left (by omega)
  unfold getLastFilename
  rw [splitPath_done _ _ _ _ htokens, ok_bind]
  rfl

/-! ## Looking up a name that is too long -/

/-- No entry has a name of 28 bytes. -/
theorem lookup_long (d : Disk) (m : Nat) (hlen : 28 ≤ c.length) : lookup d m c = none := by
  cases hl : lookup d m c with
  | none => rfl
  | some i =>
    obtain ⟨-, hname⟩ := lookup_eq_some hl
    have hle := (cstr_eq_some_iff.mp hname).2.length_le
    rw [bytesFrom_length, List.length_append] at hle
    simp at hle
    omega

/-- A row that a component of 27 bytes or more starts in holds at least 28, unless the component is
the last and has exactly 27. -/
theorem rowName_long (hcs : ∀ c ∈ cs, c ≠ []) (hlen : 27 ≤ c.length)
    (hlast : cs = [] → 27 < c.length) : 28 ≤ (rowName c (rowNames cs).head?).length := by
  cases hnext : (rowNames cs).head? with
  | none =>
    have hnil : cs = [] := by
      rw [← List.length_eq_zero_iff, ← rowNames_length, List.length_eq_zero_iff]
      exact List.head?_eq_none_iff.mp hnext
    exact hlast hnil
  | some next =>
    have hne : next ≠ [] := rowNames_ne_nil hcs next (List.mem_of_head? hnext)
    have hpos := List.length_pos_iff.mpr hne
    rw [rowName, if_neg (by omega), List.length_append, List.length_take]
    omega

/-- The walk over the rows does not get past a component that is too long. -/
theorem resolve_long_error (d : Disk) (hcs : ∀ c ∈ cs, c ≠ []) (hlong : ∃ c ∈ cs, 27 < c.length)
    (m : Nat) : ∃ e, resolve d m (rowNames cs) = .error e := by
  induction cs generalizing m with
  | nil => simp at hlong
  | cons x cs ih =>
    obtain ⟨-, hcs⟩ := List.forall_mem_cons.mp hcs
    cases hdir : isDirAt d m with
    | false => exact ⟨_, resolve_cons_file hdir⟩
    | true =>
      rw [rowNames]
      by_cases hshort : x.length < 27
      · -- the row holds the component, which is not the one that is too long
        have hlater : ∃ c ∈ cs, 27 < c.length := by
          obtain ⟨c, hc, hlen⟩ := hlong
          rcases List.mem_cons.mp hc with rfl | hc
          · omega
          · exact ⟨c, hc, hlen⟩
        cases hl : lookup d m (rowName x (rowNames cs).head?) with
        | none => exact ⟨_, resolve_cons_none hdir hl⟩
        | some i =>
          rw [resolve_cons_some hdir hl]
          exact ih hcs hlater _
      · refine ⟨_, resolve_cons_none hdir (lookup_long d m ?_)⟩
        apply rowName_long hcs (Nat.not_lt.mp hshort)
        rintro rfl
        obtain ⟨c, hc, hlen⟩ := hlong
        rwa [List.mem_singleton.mp hc] at hlen

/-- Behind components that lead to a directory it fails with `ENOENT`, as the row of the long one or
of a component of 27 bytes before it holds a name that no entry has. -/
theorem resolve_concat_long {d : Disk} (hcs : ∀ c ∈ cs, c ≠ []) (hc : 27 < c.length) {m k : Nat}
    (h : resolve d m (rowNames cs) = .ok k) (hdir : isDirAt d k = true) :
    resolve d m (rowNames (cs ++ [c])) = .error (-enoent) := by
  have hne : c ≠ [] := by
    rintro rfl
    simp at hc
  induction cs generalizing m with
  | nil =>
    obtain rfl := Except.ok.inj h
    exact resolve_cons_none hdir (lookup_long d m hc)
  | cons x cs ih =>
    obtain ⟨-, hcs⟩ := List.forall_mem_cons.mp hcs
    cases hm : isDirAt d m with
    | false =>
      rw [rowNames, resolve_cons_file hm] at h
      exact absurd h (by simp)
    | true =>
      rw [List.cons_append, rowNames]
      by_cases hshort : x.length < 27
      · have hrow : ∀ next, rowName x next = x := by
          intro next
          cases next with
          | none => rfl
          | some next => rw [rowName, if_pos hshort]
        rw [rowNames, hrow] at h
        rw [hrow]
        cases hl : lookup d m x with
        | none => exact resolve_cons_none hm hl
        | some i =>
          rw [resolve_cons_some hm hl] at h ⊢
          exact ih hcs h
      · apply resolve_cons_none hm
        apply lookup_long
        apply rowName_long
        · rintro y hy
          rcases List.mem_append.mp hy with hy | hy
          · exact hcs y hy
          · rwa [List.mem_singleton.mp hy]
        · exact Nat.not_lt.mp hshort
        · intro hnil
          exact absurd hnil (by simp)

/-- `path_to_inum` walks over the rows. -/
theorem TreeOk.pathToInum_rows {st : FsState} (ok : TreeOk st) (env : Env) {path : List UInt8}
    (hnul : ∀ c ∈ comps path, 0 ∉ c) (hne : comps path ≠ []) (hfit : RowsFit 0 (comps path)) :
    pathToInum env st.disk path = .ok (codeOf (resolve st.disk 2 (rowNames (comps path)))) := by
  have hroot : path ≠ [slash] := by
    rintro rfl
    exact hne (by rw [comps, tokens_delims (by simp), List.take_nil])
  obtain ⟨names', hsplit, -, -, hrows⟩ := splitPath_rows (fun _ => false)
    (env.bytes 270 0) (show (tokens slash path).take 10 = comps path from rfl)
    (fun c hc => ⟨hnul c hc, rfl⟩) hfit
  have hread := ok.get_live .root (env.junk [1])
  have hdir : sIsdir (decodeInode (st.disk.data 2)).mode = true := ok.root
  rw [show ((2 : Nat) : Int) = 2 from rfl] at hread
  unfold pathToInum
  rw [if_neg hroot, hsplit, ok_bind]
  simp only [hread, hdir, Bool.not_true, Bool.false_eq_true, if_false]
  rw [Nat.zero_add, ← rowNames_length]
  apply ok.walk_eq names' _ 0 2 _ _ .root
  · right
    intro hnil
    exact hne (List.length_eq_zero_iff.mp (by rw [← rowNames_length, hnil]; rfl))
  · intro j hj
    exact hrows j _ (List.getElem?_eq_getElem hj)

/-! ## Paths that stay inside the buffers -/

/-- Every store of the three path functions goes into its array: the components in `path_to_inum`,
the components and the last name in `get_last_filename`, the parent path in the buffers of its
callers. -/
structure StoresInside (path : List UInt8) : Prop where
  rows : path = [slash] ∨ ∀ names, ∃ r, splitPath (fun _ => false) 10 0 path names = .ok r
  last : ∀ (env : Env) (n : Nat) (buf : Fin n → UInt8), ∃ r, getLastFilename env path buf = .ok r
  parent : ∀ cap ∈ [270, 280], ∃ p, getParentPath cap path = .ok p

/-- The path has a component of more than 27 bytes. -/
def LongIn (path : List UInt8) : Prop := ∃ c ∈ tokens slash path, 27 < c.length

/-- A path with a component of more than 27 bytes is refused: lookups fail with `ENOENT`, and
nothing is created. -/
structure Refused (st : FsState) (path : List UInt8) : Prop where
  lookups : LongIn path → ∀ env, pathToInum env st.disk path = .ok (-enoent) ∧
    fsGetattr env path st = .ok (-enoent, none) ∧ fsReaddir env path st = .ok (-enoent, []) ∧
    ∀ len offset, fsRead env path len offset st = .ok (-enoent, [])
  creation : LongIn path → ∀ env mode, fsCreate env path mode st = .ok (-einval, st) ∧
    fsMkdir env path mode st = .ok (-einval, st)

/-- The path has a component, the first ten end inside the array of names, and the text before the
last slash has at most 269 bytes. -/
def Fits (path : List UInt8) : Prop :=
  comps path ≠ [] ∧ RowsFit 0 (comps path) ∧ (cutLast path path.length).length < 270

theorem strtok_mem {s t rest : List UInt8} (h : strtok slash s = some (t, rest)) :
    (∀ x ∈ t, x ∈ s) ∧ ∀ x ∈ rest, x ∈ s := by
  unfold strtok at h
  split at h
  · exact absurd h (by simp)
  · rename_i c r hskip
    obtain ⟨rfl, rfl⟩ := Prod.mk.inj (Option.some.inj h)
    have hsub : ∀ x ∈ c :: r, x ∈ s := by
      rw [← hskip]
      exact (List.dropWhile_suffix _).subset
    refine ⟨fun x hx => hsub x (List.takeWhile_subset _ hx), fun x hx => hsub x ?_⟩
    exact (List.dropWhile_suffix _).subset (List.mem_of_mem_drop hx)

/-- The loop reads characters of the path only. -/
theorem mem_of_mem_tokens {left : Nat} {s : List UInt8} {x : UInt8}
    (hc : c ∈ (tokens slash s).take left) (hx : x ∈ c) : x ∈ s := by
  induction left generalizing s with
  | zero => simp at hc
  | succ left ih =>
    rcases strtok_cases slash s with ⟨hnone, -⟩ | ⟨t, rest, htokens, htok⟩
    · simp [hnone] at hc
    · obtain ⟨ht, hrest⟩ := strtok_mem htok
      rw [htokens, List.take_succ_cons] at hc
      rcases List.mem_cons.mp hc with rfl | hc
      · exact ht x hx
      · exact hrest x (ih hc)

theorem comps_ne_nil {path : List UInt8} (hc : c ∈ comps path) : c ≠ [] := by
  have hmem := List.mem_of_mem_take hc
  simp only [tokens, List.mem_filter] at hmem
  simpa using hmem.2

theorem StoresInside.fits {path : List UInt8} (h : StoresInside path) (env : Env) : Fits path := by
  have hne : comps path ≠ [] := by
    intro hnil
    obtain ⟨r, hr⟩ := h.last env 28 (env.bytes 28 1)
    rw [getLastFilename_none env hnil] at hr
    exact absurd hr (by simp)
  refine ⟨hne, ?_, ?_⟩
  · rcases h.rows with rfl | hrows
    · exact absurd (by rw [comps, tokens_delims (by simp), List.take_nil]) hne
    · obtain ⟨r, hr⟩ := hrows (env.bytes 270 0)
      exact splitPath_fits hr
  · obtain ⟨p, hp⟩ := h.parent 270 (by simp)
    unfold getParentPath at hp
    dsimp only at hp
    split at hp
    · assumption
    · exact absurd hp (by simp)

/-! ## Where the long component is -/

/-- The text that `get_parent_path` leaves. -/
def parentPath (path : List UInt8) : List UInt8 := cutLast path path.length

/-- The object that `path` leads to: by its rows, or, where it has no component and is not `/`, the
entry block of the root. -/
def leadsTo (d : Disk) (path : List UInt8) : Except Int Nat :=
  if path = [slash] then .ok 2
  else if comps path = [] then .ok (tableOf d 2)
  else resolve d 2 (rowNames (comps path))

/-- One of the first ten components is too long, and the text before the last slash leads to a
directory. -/
structure LongLast (d : Disk) (path : List UInt8) : Prop where
  early : ∃ c ∈ comps path, 27 < c.length
  parent : ∃ n, leadsTo d (parentPath path) = .ok n ∧ isDirAt d n = true

/-- What `get_parent_path` takes away: everything behind the first character, if there is no slash;
slashes; or the last component. -/
theorem parentPath_cases {path : List UInt8} (hne : path ≠ []) :
    (slash ∉ path ∧ ∃ x ∈ path, parentPath path = [x]) ∨
      tokens slash path = tokens slash (parentPath path) ∨
      ∃ c, c ≠ [] ∧ tokens slash path = tokens slash (parentPath path) ++ [c] := by
  rcases last_slash path with hslash | ⟨pre, c, rfl, hslash⟩
  · obtain ⟨x, rest, rfl⟩ := List.exists_cons_of_ne_nil hne
    refine .inl ⟨hslash, x, List.mem_cons_self, ?_⟩
    refine cutLast_eq _ 0 _ (Nat.zero_le _) (fun j _ _ hj => ?_) (.inl rfl)
    exact hslash (List.mem_of_getElem? hj)
  · have hpre : tokens slash (parentPath (pre ++ slash :: c)) = tokens slash pre := by
      rw [parentPath, cutLast_split hslash]
      split
      · rename_i hnil
        rw [hnil, tokens_delims (by simp), tokens_nil]
      · rfl
    rw [hpre, tokens_append_cons]
    by_cases hc : c = []
    · exact .inr (.inl (by rw [hc, tokens_nil, List.append_nil]))
    · exact .inr (.inr ⟨c, hc, by rw [tokens_of_notMem hc hslash]⟩)

section Parent

variable {st : FsState} {path : List UInt8}

theorem parentPath_mem (path : List UInt8) {x : UInt8} (hx : x ∈ parentPath path) : x ∈ path := by
  have h : ∀ i, x ∈ cutLast path i → x ∈ path := by
    intro i
    induction i with
    | zero => exact fun hx => List.mem_of_mem_take hx
    | succ i ih =>
      unfold cutLast
      split
      · exact fun hx => List.mem_of_mem_take hx
      · exact ih
  exact h _ hx

theorem path_ne_nil (hne : comps path ≠ []) : path ≠ [] := by
  rintro rfl
  exact hne (by rw [comps, tokens_nil, List.take_nil])

/-- The parent's components fit where those of the path do. -/
theorem RowsFit.parent (hne : comps path ≠ []) (h : RowsFit 0 (comps path)) :
    RowsFit 0 (comps (parentPath path)) := by
  rcases parentPath_cases (path_ne_nil hne) with ⟨hslash, x, hx, hp⟩ | heq | ⟨c, -, heq⟩
  · have hxs : slash ∉ [x] := by
      rw [List.mem_singleton]
      exact fun h => hslash (h ▸ hx)
    intro j c hc
    rw [hp, comps, tokens_of_notMem (by simp) hxs] at hc
    cases j with
    | zero =>
      obtain rfl : [x] = c := by simpa using hc
      simp
    | succ j => simp at hc
  · rwa [comps, ← heq]
  · intro j x hx
    refine h j x ?_
    rw [comps, List.getElem?_take] at hx ⊢
    split
    · rename_i hj
      rw [if_pos hj] at hx
      rw [heq, List.getElem?_append_left (List.getElem?_eq_some_iff.mp hx).1]
      exact hx
    · rename_i hj
      rw [if_neg hj] at hx
      exact absurd hx (by simp)

/-- `path_to_inum` on a path whose components fit. -/
theorem TreeOk.pathToInum_leadsTo (ok : TreeOk st) (env : Env) (hnul : 0 ∉ path)
    (hfit : RowsFit 0 (comps path)) :
    pathToInum env st.disk path = .ok (codeOf (leadsTo st.disk path)) := by
  unfold leadsTo
  split
  · rename_i hroot
    rw [hroot, pathToInum_root]
    rfl
  · rename_i hroot
    split
    · rename_i hnil
      have htokens : tokens slash path = [] :=
        (List.take_eq_nil_iff.mp hnil).resolve_left (by omega)
      rw [ok.pathToInum_slashes env htokens hroot]
      rfl
    · rename_i hne
      exact ok.pathToInum_rows env (fun _ hc h0 => hnul (mem_of_mem_tokens hc h0)) hne hfit

theorem leadsTo_inUse (ok : TreeOk st) {n : Nat} (h : leadsTo st.disk path = .ok n) :
    InUse st.disk n := by
  unfold leadsTo at h
  split at h
  · obtain rfl := Except.ok.inj h
    exact (Reach.root : Live st.disk 2).owned
  · split at h
    · obtain rfl := Except.ok.inj h
      exact Live.table_inUse .root ok.root
    · exact (resolve_live .root h).owned

theorem leadsTo_of_comps (d : Disk) (hne : comps path ≠ []) :
    leadsTo d path = resolve d 2 (rowNames (comps path)) := by
  have hroot : path ≠ [slash] := by
    rintro rfl
    exact hne (by rw [comps, tokens_delims (by simp), List.take_nil])
  rw [leadsTo, if_neg hroot, if_neg hne]

/-- A path with a component that is too long among its first ten leads nowhere. -/
theorem leadsTo_long (d : Disk) (hlong : ∃ c ∈ comps path, 27 < c.length) :
    ∃ e, leadsTo d path = .error e := by
  have hne : comps path ≠ [] := by
    obtain ⟨c, hc, -⟩ := hlong
    exact List.ne_nil_of_mem hc
  rw [leadsTo_of_comps d hne]
  exact resolve_long_error d (fun _ hc => comps_ne_nil hc) hlong 2

/-- The long component is the last one then, behind those of the parent or alone. -/
theorem LongLast.comps_eq {d : Disk} (h : LongLast d path) : ∃ ds c,
    comps path = ds ++ [c] ∧ 27 < c.length ∧ (ds = [] ∨ ds = comps (parentPath path)) := by
  obtain ⟨hearly, n, hparent, -⟩ := h
  have hne : comps path ≠ [] := by
    obtain ⟨c, hc, -⟩ := hearly
    exact List.ne_nil_of_mem hc
  -- the parent has no component that is too long
  have hshort : ¬ ∃ c ∈ comps (parentPath path), 27 < c.length := by
    intro hlong
    obtain ⟨e, he⟩ := leadsTo_long d hlong
    rw [hparent] at he
    exact absurd he (by simp)
  obtain ⟨x, hx, hlen⟩ := hearly
  rcases parentPath_cases (path_ne_nil hne) with ⟨hslash, -⟩ | heq | ⟨c, -, heq⟩
  · have hcomps : comps path = [path] := by
      rw [comps, tokens_of_notMem (path_ne_nil hne) hslash]
      rfl
    rw [hcomps, List.mem_singleton] at hx
    exact ⟨[], path, hcomps, hx ▸ hlen, .inl rfl⟩
  · rw [comps, heq] at hx
    exact absurd ⟨x, hx, hlen⟩ hshort
  · by_cases hten : 10 ≤ (tokens slash (parentPath path)).length
    · rw [comps, heq, List.take_append_of_le_length hten] at hx
      exact absurd ⟨x, hx, hlen⟩ hshort
    · have hdirs : comps (parentPath path) = tokens slash (parentPath path) :=
        List.take_of_length_le (by omega)
      have hcomps : comps path = comps (parentPath path) ++ [c] := by
        rw [hdirs, comps, heq, List.take_of_length_le]
        rw [List.length_append, List.length_singleton]
        omega
      rw [hcomps] at hx
      rcases List.mem_append.mp hx with hx | hx
      · exact absurd ⟨x, hx, hlen⟩ hshort
      · exact ⟨_, c, hcomps, List.mem_singleton.mp hx ▸ hlen, .inr rfl⟩

/-- The lookup fails at it. -/
theorem LongLast.leadsTo_eq (ok : TreeOk st) (h : LongLast st.disk path) :
    leadsTo st.disk path = .error (-enoent) := by
  obtain ⟨ds, c, hcomps, hlen, hds⟩ := h.comps_eq
  obtain ⟨n, hparent, hdir⟩ := h.parent
  have hwalk : ∃ k, resolve st.disk 2 (rowNames ds) = .ok k ∧ isDirAt st.disk k = true := by
    by_cases hnil : ds = []
    · exact ⟨2, by rw [hnil]; rfl, ok.root⟩
    · obtain rfl := hds.resolve_left hnil
      exact ⟨n, by rw [← leadsTo_of_comps _ hnil, hparent], hdir⟩
  obtain ⟨k, hwalk, hk⟩ := hwalk
  have hmem : ∀ x ∈ ds, x ≠ [] := by
    intro x hx
    have hin : x ∈ comps path := by
      rw [hcomps]
      exact List.mem_append_left _ hx
    exact comps_ne_nil hin
  rw [leadsTo_of_comps _ (by rw [hcomps]; simp), hcomps]
  exact resolve_concat_long hmem hlen hwalk hk

/-- The inode a path leads to is read as it is on the disk. -/
theorem TreeOk.get_leadsTo (ok : TreeOk st) {n : Nat} (h : leadsTo st.disk path = .ok n)
    (buf : Block) : st.get buf n = st.disk.data n := ok.get_inUse (leadsTo_inUse ok h) buf

theorem Fits.getParentPath_eq (h : Fits path) : getParentPath 280 path = .ok (parentPath path) :=
  if_pos (Nat.le_trans h.2.2 (by omega))

theorem Fits.pathToInum_parent (h : Fits path) (ok : TreeOk st) (hnul : 0 ∉ path) (env : Env) :
    pathToInum env st.disk (parentPath path) =
      .ok (codeOf (leadsTo st.disk (parentPath path))) :=
  ok.pathToInum_leadsTo env (fun h0 => hnul (parentPath_mem path h0)) (h.2.1.parent h.1)

end Parent

/-! ## Creating under a name that is too long -/

section Creating

variable {st st' : FsState} {path : List UInt8}
  {k : Inode → (Fin 28 → UInt8) → Except Fault (Int × FsState)}

/-- With its long component in its place the path is turned down. -/
theorem LongLast.openParent (ok : TreeOk st) (hlong : LongLast st.disk path) (h : Fits path)
    (hnul : 0 ∉ path) (env : Env) : openParent env path st k = .ok (-einval, st) := by
  obtain ⟨n, hparent, hdir⟩ := hlong.parent
  have hpath := ok.pathToInum_leadsTo (env.call 0) hnul h.2.1
  have hdirInum := h.pathToInum_parent ok hnul (env.call 1)
  have hmode : sIsdir (decodeInode (st.disk.data n)).mode = true := hdir
  have hcode : ¬ (-enoent : Int) > 0 := by decide
  have hpos : ¬ (n : Int) < 0 := by omega
  have hback : -einval < 0 := by decide
  rw [hlong.leadsTo_eq ok] at hpath
  rw [hparent] at hdirInum
  simp only [Fs5600.openParent, hpath, h.getParentPath_eq, hdirInum, ok_bind, codeOf]
  rw [if_neg hcode, if_neg hpos]
  simp only [ok.get_leadsTo hparent, hmode, Bool.not_true, Bool.false_eq_true, if_false,
    getLastFilename_long (env.call 2) hlong.early, ok_bind]
  rw [if_pos hback]

end Creating

theorem Fits.refused {st : FsState} (ok : TreeOk st) {path : List UInt8} (h : Fits path)
    (hnul : 0 ∉ path) (hlast : LongIn path → LongLast st.disk path) : Refused st path := by
  have hneg : -enoent < 0 := by decide
  refine ⟨?_, ?_⟩
  · intro hlong env
    have hlook : ∀ env, pathToInum env st.disk path = .ok (-enoent) := by
      intro env
      rw [ok.pathToInum_leadsTo env hnul h.2.1, (hlast hlong).leadsTo_eq ok]
      rfl
    refine ⟨hlook env, ?_, ?_, fun len offset => ?_⟩
    · rw [fsGetattr, hlook, ok_bind, if_pos hneg]
    · rw [fsReaddir, hlook, ok_bind, if_pos hneg]
    · rw [fsRead, hlook, ok_bind, if_pos hneg]
  · intro hlong env mode
    rw [fsCreate_eq, fsMkdir_eq]
    exact ⟨(hlast hlong).openParent ok h hnul env, (hlast hlong).openParent ok h hnul env⟩

end SystemsProjects.Fs5600
