import SystemsProjects.Fs5600.Tree
import Mathlib.Data.List.Induction
import Mathlib.Tactic.Linarith

/-!
# Path resolution is the walk over the tree

`resolve` is the left-to-right walk over the components of a path. On a tree in order,
`path_to_inum` computes it for every canonical path, and `get_parent_path` and `get_last_filename`
split off the last component. The buffers, tokens and rows of `fs5600.c` do not appear in the
results.
-/

namespace SystemsProjects.Fs5600
open SystemsProjects.Lib

/-- A component of 1 to 26 bytes. -/
structure Component (c : List UInt8) : Prop where
  ne_nil : c ≠ []
  le : c.length ≤ 26
  no_slash : slash ∉ c
  no_nul : 0 ∉ c

/-- A name that can stand between two slashes, of any length. -/
structure FileName (c : List UInt8) : Prop where
  ne_nil : c ≠ []
  no_slash : slash ∉ c
  no_nul : 0 ∉ c

theorem Component.fileName {c : List UInt8} (h : Component c) : FileName c :=
  ⟨h.ne_nil, h.no_slash, h.no_nul⟩

/-- The path `/c₁/c₂/…`. -/
def render (cs : List (List UInt8)) : List UInt8 := cs.flatMap (slash :: ·)

/-- A canonical absolute path: 1 to 10 components, no repeated or trailing slash. -/
structure CanonPath where
  dirs : List (List UInt8)
  last : List UInt8
  components : ∀ c ∈ dirs ++ [last], Component c
  depth : dirs.length ≤ 9

/-- All components of the path. -/
def CanonPath.comps (p : CanonPath) : List (List UInt8) := p.dirs ++ [p.last]

/-- The path as the string the operations get. -/
def CanonPath.bytes (p : CanonPath) : List UInt8 := render p.comps

/-- The slot of the entry for name `c` in directory `n`. -/
def lookup (d : Disk) (n : Nat) (c : List UInt8) : Option (Fin 128) :=
  (List.finRange 128).find? fun i =>
    (entriesAt d n i).valid && decide ((entriesAt d n i).nameOf = some c)

/-- The walk from object `n` over the components `cs`: the object reached, or the code of the
first failure from the left. -/
def resolve (d : Disk) : Nat → List (List UInt8) → Except Int Nat
  | n, [] => .ok n
  | n, c :: cs =>
    if !isDirAt d n then .error (-enotdir)
    else
      match lookup d n c with
      | none => .error (-enoent)
      | some i => resolve d (entriesAt d n i).inode.toNat cs

/-- The result of a walk as the `int` that `path_to_inum` returns. -/
def codeOf : Except Int Nat → Int
  | .ok n => n
  | .error e => e

theorem asInt_of_lt {n : UInt32} (h : n.toNat < 2 ^ 31) : asInt n = n.toNat := by
  unfold asInt
  rw [Int32.toInt, UInt32.toBitVec_toInt32, BitVec.toInt_eq_toNat_of_lt]
  · rfl
  · show 2 * n.toNat < 2 ^ 32
    omega

theorem toNat_ofInt {n : Nat} (h : n < 2 ^ 32) : (UInt32.ofInt n).toNat = n := by
  unfold UInt32.ofInt
  rw [UInt32.toNat_ofNat']
  omega

/-! ## Lookup -/

section Lookup
variable {d : Disk} {n : Nat} {c : List UInt8} {i : Fin 128}

theorem lookup_eq_some (h : lookup d n c = some i) :
    (entriesAt d n i).valid = true ∧ (entriesAt d n i).nameOf = some c := by
  have := List.find?_some h
  simpa using this

theorem lookup_eq_none (h : lookup d n c = none) (i : Fin 128)
    (hv : (entriesAt d n i).valid = true) : (entriesAt d n i).nameOf ≠ some c := by
  have := List.find?_eq_none.mp h i (List.mem_finRange i)
  simpa [hv] using this

theorem lookup_congr {d' : Disk} (h : entriesAt d' n = entriesAt d n) (c : List UInt8) :
    lookup d' n c = lookup d n c := by
  unfold lookup
  rw [h]

/-- In a directory in order a name leads to its own entry. -/
theorem lookup_of_name (hok : DirOk (entriesAt d n)) (hv : (entriesAt d n i).valid = true)
    (hname : (entriesAt d n i).nameOf = some c) : lookup d n c = some i := by
  cases h : lookup d n c with
  | none => exact absurd hname (lookup_eq_none h i hv)
  | some j =>
    obtain ⟨hj, hj'⟩ := lookup_eq_some h
    rw [hok.unique j i hj hv (hj'.trans hname.symm)]

/-- Where every comparison stays inside its arrays, the scan finds the first entry of that name. -/
theorem direntIndexFrom_eq (es : Fin 128 → Dirent) {filename : List UInt8}
    (hcmp : ∀ i, (es i).valid = true → strcmpEq (bytesFrom (es i).name 0) filename =
      some (decide ((es i).nameOf = some c))) (is : List (Fin 128)) :
    direntIndexFrom es filename is =
      .ok (match is.find? fun i => (es i).valid && decide ((es i).nameOf = some c) with
        | some i => i.val
        | none => -enoent) := by
  induction is with
  | nil => rfl
  | cons i is ih =>
    unfold direntIndexFrom
    rw [List.find?_cons]
    cases hv : (es i).valid with
    | false => simpa using ih
    | true =>
      rw [hcmp i hv]
      by_cases hname : (es i).nameOf = some c
      · simp [orFault, hname, bind, Except.bind]
      · simpa [orFault, hname, bind, Except.bind] using ih

/-- Names up to 27 bytes are compared inside the entry. -/
theorem getDirentIndex_eq {filename : List UInt8} (hc : cstr filename = some c)
    (hlen : c.length < 28) :
    getDirentIndex (entriesAt d n) filename =
      .ok (match lookup d n c with
        | some i => i.val
        | none => -enoent) :=
  direntIndexFrom_eq _ (fun _ _ => strcmpEq_of_cstr hc (by rw [bytesFrom_length]; omega)) _

/-- In a directory in order names of any length are. -/
theorem DirOk.getDirentIndex_eq (hok : DirOk (entriesAt d n)) {filename : List UInt8}
    (hc : cstr filename = some c) :
    getDirentIndex (entriesAt d n) filename =
      .ok (match lookup d n c with
        | some i => i.val
        | none => -enoent) := by
  refine direntIndexFrom_eq _ (fun i hv => ?_) _
  obtain ⟨t, ht⟩ := Option.ne_none_iff_exists'.mp (hok.named i hv)
  rw [ht, strcmpEq_of_cstr_cstr ht hc]
  simp

end Lookup

/-- Up to 27 bytes fit into the name of an entry. -/
theorem strcpy_nameOf {e : Dirent} {c : List UInt8} (hlen : c.length ≤ 27) (hnul : 0 ∉ c) :
    ∃ name, strcpy e.name 0 c = some name ∧ cstr (bytesFrom name 0) = some c := by
  obtain ⟨name, hcpy⟩ := strcpy_isSome e.name 0 c (by omega)
  exact ⟨name, hcpy, cstr_strcpy hnul hcpy⟩

/-! ## The walk, piece by piece -/

section

variable {d : Disk} {n : Nat} {c : List UInt8} {cs : List (List UInt8)}

theorem resolve_nil : resolve d n [] = .ok n := rfl

theorem resolve_cons_file (hdir : isDirAt d n = false) :
    resolve d n (c :: cs) = .error (-enotdir) := by
  simp [resolve, hdir]

theorem resolve_cons_none (hdir : isDirAt d n = true) (hl : lookup d n c = none) :
    resolve d n (c :: cs) = .error (-enoent) := by
  simp [resolve, hdir, hl]

theorem resolve_cons_some {i : Fin 128} (hdir : isDirAt d n = true) (hl : lookup d n c = some i) :
    resolve d n (c :: cs) = resolve d (entriesAt d n i).inode.toNat cs := by
  simp [resolve, hdir, hl]

end

/-- The two ways a walk fails, and its codes. -/
theorem resolve_error_cases {d : Disk} {cs : List (List UInt8)} {n : Nat} {e : Int}
    (h : resolve d n cs = .error e) :
    (e = -enotdir ∧ ∃ ds m, ds <+: cs ∧ resolve d n ds = .ok m ∧ isDirAt d m = false) ∨
    (e = -enoent ∧ ∀ ds m, ds <+: cs → resolve d n ds = .ok m → isDirAt d m = true) := by
  induction cs generalizing n with
  | nil => simp [resolve] at h
  | cons c cs ih =>
    cases hdir : isDirAt d n with
    | false =>
      rw [resolve_cons_file hdir] at h
      exact .inl ⟨(Except.error.inj h).symm, [], n, List.nil_prefix, rfl, hdir⟩
    | true =>
      cases hl : lookup d n c with
      | none =>
        rw [resolve_cons_none hdir hl] at h
        refine .inr ⟨(Except.error.inj h).symm, fun ds m hds hm => ?_⟩
        cases ds with
        | nil =>
          obtain rfl := Except.ok.inj hm
          exact hdir
        | cons x ds =>
          obtain ⟨rfl, -⟩ := List.cons_prefix_cons.mp hds
          simp [resolve_cons_none hdir hl] at hm
      | some i =>
        rw [resolve_cons_some hdir hl] at h
        rcases ih h with ⟨he, ds, m, hds, hm, hfile⟩ | ⟨he, hall⟩
        · exact .inl ⟨he, c :: ds, m, List.cons_prefix_cons.mpr ⟨rfl, hds⟩,
            (resolve_cons_some hdir hl).trans hm, hfile⟩
        · refine .inr ⟨he, fun ds m hds hm => ?_⟩
          cases ds with
          | nil =>
            obtain rfl := Except.ok.inj hm
            exact hdir
          | cons x ds =>
            obtain ⟨rfl, hrest⟩ := List.cons_prefix_cons.mp hds
            rw [resolve_cons_some hdir hl] at hm
            exact hall ds m hrest hm

theorem resolve_error {d : Disk} {cs : List (List UInt8)} {n : Nat} {e : Int}
    (h : resolve d n cs = .error e) : e = -enoent ∨ e = -enotdir := by
  rcases resolve_error_cases h with ⟨he, -⟩ | ⟨he, -⟩
  · exact .inr he
  · exact .inl he

theorem resolve_append {d : Disk} (cs : List (List UInt8)) (c : List UInt8) :
    ∀ n : Nat, resolve d n (cs ++ [c]) =
      match resolve d n cs with
      | .error e => .error e
      | .ok m => resolve d m [c] := by
  induction cs with
  | nil => intro n; simp [resolve]
  | cons c' cs ih =>
    intro n
    simp only [List.cons_append, resolve]
    cases hdir : isDirAt d n with
    | false => rfl
    | true =>
      cases hl : lookup d n c' with
      | none => rfl
      | some i => simp only [Bool.not_true, Bool.false_eq_true, if_false]; exact ih _

theorem codeOf_error_neg {d : Disk} {cs : List (List UInt8)} {n : Nat} {e : Int}
    (h : resolve d n cs = .error e) : e < 0 := by
  rcases resolve_error h with rfl | rfl <;> decide

/-! ## Cutting a path into rows -/

theorem render_cons (c : List UInt8) (cs : List (List UInt8)) :
    render (c :: cs) = slash :: (c ++ render cs) := by
  simp [render]

theorem render_concat (cs : List (List UInt8)) (c : List UInt8) :
    render (cs ++ [c]) = render cs ++ slash :: c := by
  simp [render]

/-- The components of a rendered path are the tokens of the string. -/
theorem tokens_render {cs : List (List UInt8)} (hcs : ∀ c ∈ cs, FileName c) :
    tokens slash (render cs) = cs := by
  induction cs using List.reverseRecOn with
  | nil => exact tokens_nil
  | append_singleton cs c ih =>
    have hc := hcs c (by simp)
    rw [render_concat, tokens_append_cons, ih fun c' hc' => hcs c' (by simp [hc']),
      tokens_of_notMem hc.ne_nil hc.no_slash]

/-- The tokenizing loop sees the first `left` tokens of its string. -/
theorem splitPath_congr (tooLong : List UInt8 → Bool) {left i : Nat} {s s' : List UInt8}
    {names : Fin 270 → UInt8} (h : (tokens slash s).take left = (tokens slash s').take left) :
    splitPath tooLong left i s names = splitPath tooLong left i s' names := by
  induction left generalizing i s s' names with
  | zero => rfl
  | succ left ih =>
    unfold splitPath
    rcases strtok_cases slash s with ⟨hs, htok⟩ | ⟨t, rest, hs, htok⟩ <;>
      rcases strtok_cases slash s' with ⟨hs', htok'⟩ | ⟨t', rest', hs', htok'⟩ <;>
      rw [hs, hs'] at h
    · rw [htok, htok']
    · simp at h
    · simp at h
    · simp only [List.take_succ_cons, List.cons.injEq] at h
      obtain ⟨rfl, h⟩ := h
      rw [htok, htok']
      simp only [ih h]

theorem splitPath_done (tooLong : List UInt8 → Bool) (left i : Nat) {s : List UInt8}
    (names : Fin 270 → UInt8) (h : tokens slash s = []) :
    splitPath tooLong left i s names = .ok (names, i, false) := by
  have hnil : splitPath tooLong left i s names = splitPath tooLong left i [] names :=
    splitPath_congr tooLong (by rw [h, tokens_nil])
  rw [hnil]
  cases left <;> rfl

/-- The tokenizing loop stores every component in its row, leaves the rows before alone, and goes
on with the tokens that are left. -/
theorem splitPath_run (tooLong : List UInt8 → Bool) (cs : List (List UInt8))
    {more : List (List UInt8)} :
    ∀ (left i : Nat) (s : List UInt8) (names : Fin 270 → UInt8),
      (∀ c ∈ cs, Component c ∧ tooLong c = false) → tokens slash s = cs ++ more →
      cs.length ≤ left → i + left ≤ 10 →
      ∃ names' s', tokens slash s' = more ∧ splitPath tooLong left i s names =
          splitPath tooLong (left - cs.length) (i + cs.length) s' names' ∧
        (∀ j (h : j < cs.length), cstr (bytesFrom names' (27 * (i + j))) = some cs[j]) ∧
        ∀ off t, cstr (bytesFrom names off) = some t → off + t.length < 27 * i →
          cstr (bytesFrom names' off) = some t := by
  induction cs with
  | nil =>
    intro left i s names _ hs _ _
    exact ⟨names, s, hs, rfl, by simp, fun _ _ h _ => h⟩
  | cons c cs ih =>
    intro left i s names hcs hs hleft hten
    cases left with
    | zero => simp at hleft
    | succ left =>
      have hc := (hcs c (by simp)).1
      have hlong := (hcs c (by simp)).2
      have hlen := hc.le
      simp only [List.length_cons] at hleft
      rcases strtok_cases slash s with ⟨hnone, -⟩ | ⟨t, rest, htokens, htok⟩
      · simp [hnone] at hs
      · rw [htokens, List.cons_append, List.cons.injEq] at hs
        obtain ⟨rfl, hrest⟩ := hs
        obtain ⟨names₁, hcpy⟩ := strcpy_isSome names (27 * i) t (by omega)
        obtain ⟨names', s', hmore, hrun, hrows, hkeep⟩ := ih left (i + 1) rest names₁
          (fun c' hc' => hcs c' (by simp [hc'])) hrest (by omega) (by omega)
        refine ⟨names', s', hmore, ?_, ?_, ?_⟩
        · simp only [splitPath, htok, hlong, hcpy, orFault, ok_bind, hrun, List.length_cons,
            Bool.false_eq_true, if_false, Nat.add_sub_add_right]
          rw [Nat.add_right_comm, Nat.add_assoc]
        · intro j hj
          cases j with
          | zero =>
            simp only [Nat.add_zero, List.getElem_cons_zero]
            exact hkeep _ _ (cstr_strcpy hc.no_nul hcpy) (by omega)
          | succ j =>
            have hrow := hrows j (by simpa using hj)
            simpa [show i + 1 + j = i + (j + 1) by omega] using hrow
        · intro off t' ht' hoff
          exact hkeep off t' (cstr_strcpy_of_le ht' hoff hcpy) (by omega)

theorem component_concat {dirs : List (List UInt8)} {c : List UInt8}
    (hdirs : ∀ x ∈ dirs, Component x) (hc : Component c) : ∀ x ∈ dirs ++ [c], Component x :=
  List.forall_mem_append.mpr ⟨hdirs, List.forall_mem_singleton.mpr hc⟩

theorem fileName_concat {dirs : List (List UInt8)} {c : List UInt8}
    (hdirs : ∀ x ∈ dirs, Component x) (hc : FileName c) : ∀ x ∈ dirs ++ [c], FileName x := by
  intro x hx
  rcases List.mem_append.mp hx with hx | hx
  · exact (hdirs x hx).fileName
  · rwa [List.mem_singleton.mp hx]

/-- The rows after the whole path has been cut. The last component may have any length, as long
as it ends inside the array of names. -/
theorem splitPath_last (tooLong : List UInt8 → Bool) {dirs : List (List UInt8)} {c : List UInt8}
    (hdirs : ∀ x ∈ dirs, Component x) (hc : FileName c) (hlen : dirs.length ≤ 9)
    (hlong : ∀ x ∈ dirs ++ [c], tooLong x = false) (names : Fin 270 → UInt8) :
    (270 ≤ 27 * dirs.length + c.length ∧
      splitPath tooLong 10 0 (render (dirs ++ [c])) names = .error .outOfBounds) ∨
    (27 * dirs.length + c.length < 270 ∧ ∃ names',
      splitPath tooLong 10 0 (render (dirs ++ [c])) names = .ok (names', dirs.length + 1, false) ∧
      ∀ j (h : j < (dirs ++ [c]).length),
        cstr (bytesFrom names' (27 * j)) = some (dirs ++ [c])[j]) := by
  obtain ⟨names₁, s, hmore, hrun, hrows, -⟩ := splitPath_run tooLong dirs 10 0
    (render (dirs ++ [c])) names (fun x hx => ⟨hdirs x hx, hlong x (by simp [hx])⟩)
    (tokens_render (fileName_concat hdirs hc)) (by omega) le_rfl
  obtain ⟨left, hleft⟩ : ∃ left, 10 - dirs.length = left + 1 := ⟨9 - dirs.length, by omega⟩
  rcases strtok_cases slash s with ⟨hnone, -⟩ | ⟨t, rest, htokens, htok⟩
  · simp [hnone] at hmore
  · rw [htokens, List.cons.injEq] at hmore
    obtain ⟨rfl, hrest⟩ := hmore
    have hstep : splitPath tooLong 10 0 (render (dirs ++ [t])) names =
        (orFault (strcpy names₁ (27 * dirs.length) t) >>= fun names' =>
          splitPath tooLong left (dirs.length + 1) rest names') := by
      rw [hrun, hleft, Nat.zero_add, splitPath, htok]
      simp only [hlong t (by simp), Bool.false_eq_true, if_false]
    by_cases hfit : 27 * dirs.length + t.length < 270
    · obtain ⟨names', hcpy⟩ := strcpy_isSome names₁ (27 * dirs.length) t hfit
      refine .inr ⟨hfit, names', ?_, fun j hj => ?_⟩
      · rw [hstep, hcpy, orFault, ok_bind, splitPath_done _ _ _ _ hrest]
      · rcases Nat.lt_or_ge j dirs.length with hlt | hge
        · have hx := (hdirs dirs[j] (List.getElem_mem hlt)).le
          have hrow := hrows j hlt
          rw [Nat.zero_add] at hrow
          rw [List.getElem_append_left hlt]
          exact cstr_strcpy_of_le hrow (by omega) hcpy
        · obtain rfl : j = dirs.length := by simp at hj; omega
          rw [List.getElem_concat_length rfl]
          exact cstr_strcpy hc.no_nul hcpy
    · refine .inl ⟨by omega, ?_⟩
      rw [hstep, strcpy, if_neg hfit, orFault, error_bind]

/-! ## The walk -/

section Walk
variable {st : FsState} (ok : TreeOk st)
include ok

theorem TreeOk.get_live {n : Nat} (hn : Live st.disk n) (junk : Block) :
    (blockRead st.disk junk n).1 = st.disk.data n := by
  rw [blockRead_of_lt junk (ok.lt hn.owned) (ok.lt_len hn.owned)]

theorem TreeOk.asInt_table {n : Nat} (hn : Live st.disk n) (hdir : isDirAt st.disk n = true) :
    asInt ((inodeAt st.disk n).ptrs 0) = tableOf st.disk n := by
  have hlt : tableOf st.disk n < 32768 := ok.lt (hn.table_inUse hdir)
  exact asInt_of_lt (lt_trans hlt (by norm_num))

theorem TreeOk.get_table {n : Nat} (hn : Live st.disk n) (hdir : isDirAt st.disk n = true)
    (junk : Block) :
    (blockRead st.disk junk (asInt ((inodeAt st.disk n).ptrs 0))).1 =
      st.disk.data (tableOf st.disk n) := by
  have huse := hn.table_inUse hdir
  rw [ok.asInt_table hn hdir, blockRead_of_lt junk (ok.lt huse) (ok.lt_len huse)]

omit ok in
theorem resolve_live {n m : Nat} {cs : List (List UInt8)} (hn : Live st.disk n)
    (h : resolve st.disk n cs = .ok m) : Live st.disk m := by
  induction cs generalizing n with
  | nil =>
    simp only [resolve, Except.ok.injEq] at h
    exact h ▸ hn
  | cons c cs ih =>
    unfold resolve at h
    split at h
    · exact absurd h (by simp)
    · rename_i hdir
      split at h
      · exact absurd h (by simp)
      · rename_i i hi
        exact ih (hn.slot_live (by simpa using hdir) (lookup_eq_some hi).1) h

/-- From a live object the loop of `path_to_inum` follows `resolve`. -/
theorem TreeOk.walk_eq (filenames : Fin 270 → UInt8) (cs : List (List UInt8)) :
    ∀ (i n : Nat) (inum : UInt32) (entries : Block), Live st.disk n →
      inum.toNat = n ∨ cs ≠ [] →
      (∀ j (h : j < cs.length), cstr (bytesFrom filenames (27 * (i + j))) = some cs[j]) →
      walk st.disk filenames cs.length i (st.disk.data n) inum entries =
        .ok (codeOf (resolve st.disk n cs)) := by
  induction cs with
  | nil =>
    intro i n inum entries hn hinum _
    obtain rfl := hinum.resolve_right (by simp)
    have hlt : inum.toNat < 32768 := ok.lt hn.owned
    simp only [List.length_nil, walk, resolve, codeOf]
    rw [asInt_of_lt (by omega)]
  | cons c cs ih =>
    intro i n inum entries hn _ hrows
    have hrow : cstr (bytesFrom filenames (27 * i)) = some c := hrows 0 (Nat.succ_pos _)
    simp only [List.length_cons, walk]
    change (if !isDirAt st.disk n then _ else _) = _
    cases hdir : isDirAt st.disk n with
    | false => simp [resolve_cons_file hdir, codeOf]
    | true =>
      have htable := ok.get_table hn hdir entries
      have hindex := (ok.dirs n hn hdir).getDirentIndex_eq hrow
      unfold entriesAt at hindex
      unfold inodeAt at htable
      simp only [Bool.not_true, Bool.false_eq_true, if_false, htable, hindex, bind, Except.bind,
        resolve, hdir]
      cases hl : lookup st.disk n c with
      | none => simp [codeOf, enoent]
      | some k =>
        have hk := lookup_eq_some hl
        have hlive : Live st.disk (entriesAt st.disk n k).inode.toNat := hn.slot_live hdir hk.1
        have hlt := ok.lt hlive.owned
        have hu : (UInt32.ofNat (entriesAt st.disk n k).inode.toNat).toNat =
            (entriesAt st.disk n k).inode.toNat := by
          rw [UInt32.toNat_ofNat']
          omega
        have hfin : Fin.ofNat 128 (Int.toNat (k.val : Int)) = k := by
          apply Fin.ext
          simp
        have hread := ok.get_live hlive (st.disk.data n)
        rw [← hu, ← asInt_of_lt (by omega), hu] at hread
        simp only [hfin, show ¬ ((k.val : Int) < 0) from by omega, if_false]
        change walk st.disk filenames cs.length (i + 1)
          (blockRead st.disk (st.disk.data n)
            (asInt (UInt32.ofNat (entriesAt st.disk n k).inode.toNat))).1
          (UInt32.ofNat (entriesAt st.disk n k).inode.toNat) _ = _
        rw [hread]
        refine ih (i + 1) _ _ _ hlive (.inl hu) ?_
        intro j hj
        rw [show i + 1 + j = i + (j + 1) by omega]
        exact hrows (j + 1) (Nat.succ_lt_succ hj)

/-- `path_to_inum` on a path whose last component has any length: it is resolved, or does not fit
into the array of names. -/
theorem TreeOk.pathToInum_last (env : Env) {dirs : List (List UInt8)} {c : List UInt8}
    (hdirs : ∀ x ∈ dirs, Component x) (hc : FileName c) (hlen : dirs.length ≤ 9) :
    pathToInum env st.disk (render (dirs ++ [c])) =
      if 27 * dirs.length + c.length < 270 then .ok (codeOf (resolve st.disk 2 (dirs ++ [c])))
      else .error .outOfBounds := by
  have hroot : render (dirs ++ [c]) ≠ [slash] := by
    intro h
    have htokens := tokens_render (fileName_concat hdirs hc)
    rw [h, show tokens slash [slash] = [] from tokens_delims (by simp)] at htokens
    simp at htokens
  unfold pathToInum
  rw [if_neg hroot]
  rcases splitPath_last (fun _ => false) hdirs hc hlen (fun _ _ => rfl)
    (env.bytes 270 0) with ⟨hover, hsplit⟩ | ⟨hfit, names, hsplit, hrows⟩
  · rw [if_neg (by omega), hsplit, error_bind]
  · have hread := ok.get_live .root (env.junk [1])
    have hdir : sIsdir (decodeInode (st.disk.data 2)).mode = true := ok.root
    rw [show ((2 : Nat) : Int) = 2 from rfl] at hread
    simp only [hsplit, ok_bind, hread, hdir, Bool.not_true, Bool.false_eq_true, if_false, hfit,
      if_true]
    rw [show dirs.length + 1 = (dirs ++ [c]).length by simp]
    exact ok.walk_eq names (dirs ++ [c]) 0 2 _ _ .root (.inr (by simp)) (by simpa using hrows)

/-- `path_to_inum` on a canonical path. -/
theorem TreeOk.pathToInum_render (env : Env) {cs : List (List UInt8)}
    (hcs : ∀ c ∈ cs, Component c) (hne : cs ≠ []) (hlen : cs.length ≤ 10) :
    pathToInum env st.disk (render cs) = .ok (codeOf (resolve st.disk 2 cs)) := by
  obtain ⟨dirs, c, rfl⟩ := (List.eq_nil_or_concat' cs).resolve_left hne
  have hc := hcs c (by simp)
  have hle := hc.le
  simp only [List.length_append, List.length_singleton] at hlen
  rw [ok.pathToInum_last env (fun x hx => hcs x (by simp [hx])) hc.fileName (by omega),
    if_pos (by omega)]

end Walk

/-! ## Splitting off the last component -/

/-- The string `get_parent_path` produces for a path with the directories `dirs`. -/
def parentBytes (dirs : List (List UInt8)) : List UInt8 :=
  if dirs = [] then [slash] else render dirs

theorem TreeOk.pathToInum_parentBytes {st : FsState} (ok : TreeOk st) (env : Env)
    {dirs : List (List UInt8)} (hdirs : ∀ c ∈ dirs, Component c) (hlen : dirs.length ≤ 10) :
    pathToInum env st.disk (parentBytes dirs) = .ok (codeOf (resolve st.disk 2 dirs)) := by
  unfold parentBytes
  split
  · rename_i hnil
    rw [hnil]
    rfl
  · rename_i hnil
    exact ok.pathToInum_render env hdirs hnil hlen

/-- Cutting stops at the last slash, or at the first character. -/
theorem cutLast_eq (path : List UInt8) (k : Nat) :
    ∀ i, k ≤ i → (∀ j, k < j → j ≤ i → path[j]? ≠ some slash) →
      (k = 0 ∨ path[k]? = some slash) → cutLast path i = path.take (max k 1) := by
  intro i
  induction i with
  | zero =>
    intro hk _ _
    obtain rfl := Nat.le_zero.mp hk
    rfl
  | succ i ih =>
    intro hk hno hat
    unfold cutLast
    by_cases hki : k = i + 1
    · subst hki
      rw [if_pos (hat.resolve_left (by omega))]
      congr 1
      omega
    · rw [if_neg (hno (i + 1) (by omega) le_rfl)]
      exact ih (by omega) (fun j hj hji => hno j hj (by omega)) hat

/-- A string with a slash is cut before the last one, but not before the first character. -/
theorem cutLast_split {pre c : List UInt8} (hc : slash ∉ c) :
    cutLast (pre ++ slash :: c) (pre ++ slash :: c).length = if pre = [] then [slash] else pre := by
  rw [cutLast_eq _ pre.length]
  · split
    · rename_i hpre
      simp [hpre]
    · rename_i hpre
      have : pre.length ≠ 0 := fun h => hpre (List.length_eq_zero_iff.mp h)
      rw [max_eq_left (by omega), List.take_left]
  · simp
  · intro j hj _ hslash
    rw [List.getElem?_append_right (by omega)] at hslash
    obtain ⟨k, hk⟩ : ∃ k, j - pre.length = k + 1 := ⟨j - pre.length - 1, by omega⟩
    rw [hk, List.getElem?_cons_succ] at hslash
    exact hc (List.mem_of_getElem? hslash)
  · right
    simp

theorem render_length_le {cs : List (List UInt8)} (hcs : ∀ c ∈ cs, Component c) :
    (render cs).length ≤ 27 * cs.length := by
  induction cs with
  | nil => simp [render]
  | cons c cs ih =>
    have hc := (hcs c (by simp)).le
    have := ih fun c' hc' => hcs c' (by simp [hc'])
    simp only [render_cons, List.length_cons, List.length_append]
    omega

theorem render_eq_nil {cs : List (List UInt8)} : (render cs).length = 0 ↔ cs = [] := by
  cases cs <;> simp [render]

/-- A path that fits into the array of names: its last component has up to 27 bytes, the others up
to 26. -/
structure Storable (dirs : List (List UInt8)) (c : List UInt8) : Prop where
  above : ∀ x ∈ dirs, Component x
  last : FileName c
  depth : dirs.length ≤ 9
  le : c.length ≤ 27
  fits : 27 * dirs.length + c.length < 270

/-- What `get_last_filename` leaves in the caller's array: the first 27 bytes of the component and
its terminator. -/
def Stored {n : Nat} (c : List UInt8) (buf : Fin n → UInt8) : Prop :=
  ∀ k : Fin n, k.val < 27 → ∀ x, (c ++ [0])[k.val]? = some x → buf k = x

/-- 27 bytes have no terminator unless the byte behind them happens to be zero. -/
theorem Stored.cstr_of_end {n : Nat} {c : List UInt8} {buf : Fin n → UInt8} (h : Stored c buf)
    (hn : c.length < n) (hle : c.length ≤ 27) (hnul : 0 ∉ c)
    (hend : ∀ k : Fin n, k.val = 27 → c.length = 27 → buf k = 0) :
    cstr (bytesFrom buf 0) = some c := by
  refine cstr_eq_some_iff.mpr ⟨hnul, List.prefix_iff_getElem?.mpr ?_⟩
  intro i hi
  have hi' : i < c.length + 1 := by simpa using hi
  rw [bytesFrom_getElem?, dif_pos (by omega), Option.some_inj]
  by_cases h27 : i < 27
  · exact h ⟨0 + i, by omega⟩ (by simp; omega) _ (by simp)
  · rw [hend ⟨0 + i, by omega⟩ (by simp; omega) (by omega), List.getElem_append_right (by omega)]
    simp

/-- Up to 26 bytes come with their terminator. -/
theorem Stored.cstr_eq {n : Nat} {c : List UInt8} {buf : Fin n → UInt8} (h : Stored c buf)
    (hn : 27 ≤ n) (hc : Component c) : cstr (bytesFrom buf 0) = some c := by
  have hlen := hc.le
  exact h.cstr_of_end (by omega) (by omega) hc.no_nul fun k _ h27 => by omega

section Storable
variable {dirs : List (List UInt8)} {c : List UInt8} (h : Storable dirs c)
include h

theorem Storable.pathToInum_eq {st : FsState} (ok : TreeOk st) (env : Env) :
    pathToInum env st.disk (render (dirs ++ [c])) =
      .ok (codeOf (resolve st.disk 2 (dirs ++ [c]))) := by
  rw [ok.pathToInum_last env h.above h.last h.depth, if_pos h.fits]

theorem Storable.pathToInum_parent {st : FsState} (ok : TreeOk st) (env : Env) :
    pathToInum env st.disk (parentBytes dirs) = .ok (codeOf (resolve st.disk 2 dirs)) := by
  have := h.depth
  exact ok.pathToInum_parentBytes env h.above (by omega)

/-- `get_last_filename` stores the component, and nothing behind the first 27 bytes. -/
theorem Storable.getLastFilename_eq {n : Nat} (env : Env) (buf : Fin n → UInt8) :
    ∃ buf', getLastFilename env (render (dirs ++ [c])) buf = .ok (0, buf') ∧ Stored c buf' ∧
      ∀ k : Fin n, 27 ≤ k.val → buf' k = buf k := by
  have hle := h.le
  have hfit := h.fits
  have hlong : ∀ x ∈ dirs ++ [c], decide (27 < x.length) = false := by
    intro x hx
    rcases List.mem_append.mp hx with hx | hx
    · have := (h.above x hx).le
      simp
      omega
    · rw [List.mem_singleton.mp hx]
      simpa using hle
  obtain ⟨hover, -⟩ | ⟨-, names, hsplit, hrows⟩ := splitPath_last
    (fun token => decide (27 < token.length)) h.above h.last h.depth hlong (env.bytes 270 0)
  · omega
  · have hrow : cstr (bytesFrom names (27 * dirs.length)) = some c := by
      simpa using hrows dirs.length (by simp)
    obtain ⟨lf, hcpy⟩ := strcpy_isSome (env.bytes 28 1) 0 c (by omega)
    have hpre := (cstr_eq_some_iff.mp (cstr_strcpy h.last.no_nul hcpy)).2
    refine ⟨fun k => if k.val < 27 then Function.update lf 27 0 (Fin.ofNat 28 k.val) else buf k,
      ?_, fun k hk x hx => ?_, fun k hk => if_neg (by omega)⟩
    · unfold getLastFilename
      simp only [hsplit, ok_bind, Bool.false_eq_true, if_false, Nat.add_sub_cancel,
        show ¬ dirs.length + 1 = 0 from by omega, hrow, orFault, hcpy]
    · have hi := (List.getElem?_eq_some_iff.mp hx).1
      have hold := List.prefix_iff_getElem?.mp hpre k.val hi
      rw [bytesFrom_getElem?, dif_pos (by omega)] at hold
      rw [List.getElem?_eq_getElem hi] at hx
      simp only [hk, if_true]
      rw [← Option.some_inj, ← hx, ← hold, Function.update_of_ne]
      · congr 2
        apply Fin.ext
        simp
        omega
      · intro he
        have := congrArg Fin.val he
        simp at this
        omega

/-- `get_parent_path`; its callers' buffers have 270 or 280 bytes. -/
theorem Storable.getParentPath_eq (cap : Nat) (hcap : 270 ≤ cap) :
    getParentPath cap (render (dirs ++ [c])) = .ok (parentBytes dirs) := by
  have hcut : cutLast (render (dirs ++ [c])) (render (dirs ++ [c])).length = parentBytes dirs := by
    rw [render_concat, cutLast_split h.last.no_slash]
    simp only [parentBytes, ← List.length_eq_zero_iff, render_eq_nil]
  have hshort : (parentBytes dirs).length ≤ 243 := by
    have h1 := render_length_le h.above
    have h2 := h.depth
    unfold parentBytes
    split
    · simp
    · omega
  simp only [getParentPath, hcut]
  rw [if_pos (by omega)]

end Storable

section CanonPath
variable (p : CanonPath)

theorem CanonPath.dirs_components {c : List UInt8} (h : c ∈ p.dirs) : Component c :=
  p.components c (by simp [h])

theorem CanonPath.last_component : Component p.last := p.components p.last (by simp)

theorem CanonPath.storable : Storable p.dirs p.last := by
  have hle := p.last_component.le
  have hdepth := p.depth
  exact ⟨fun _ hc => p.dirs_components hc, p.last_component.fileName, hdepth, by omega, by omega⟩

theorem CanonPath.getParentPath_eq (cap : Nat) (hcap : 270 ≤ cap) :
    getParentPath cap p.bytes = .ok (parentBytes p.dirs) := p.storable.getParentPath_eq cap hcap

/-- `get_last_filename` on a canonical path. -/
theorem CanonPath.getLastFilename_eq {n : Nat} (env : Env) (buf : Fin n → UInt8) (hn : 27 ≤ n) :
    ∃ buf', getLastFilename env p.bytes buf = .ok (0, buf') ∧
      cstr (bytesFrom buf' 0) = some p.last := by
  obtain ⟨buf', hrun, hstored, -⟩ := p.storable.getLastFilename_eq env buf
  exact ⟨buf', hrun, hstored.cstr_eq hn p.last_component⟩

theorem CanonPath.resolve_last {d : Disk} {n : Nat} (h : resolve d 2 p.dirs = .ok n) :
    resolve d 2 p.comps = resolve d n [p.last] := by
  unfold CanonPath.comps
  rw [resolve_append, h]

variable {st : FsState} (ok : TreeOk st)
include ok

theorem CanonPath.pathToInum_eq (env : Env) :
    pathToInum env st.disk p.bytes = .ok (codeOf (resolve st.disk 2 p.comps)) :=
  p.storable.pathToInum_eq ok env

theorem CanonPath.pathToInum_parent (env : Env) :
    pathToInum env st.disk (parentBytes p.dirs) = .ok (codeOf (resolve st.disk 2 p.dirs)) :=
  p.storable.pathToInum_parent ok env

end CanonPath

end SystemsProjects.Fs5600
