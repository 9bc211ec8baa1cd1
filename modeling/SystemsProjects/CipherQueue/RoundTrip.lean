import SystemsProjects.CipherQueue.Ciphered

/-!
# The way of a word through the ciphered queue

A word goes into the queue by `encode_enqueue` and comes out by `dequeue_decode` with the same key.
The mark for a bad character, `ILLCHAR`, is a text that a key can make from a good word.
-/

namespace SystemsProjects.CipherQueue

open SystemsProjects.Lib

/-- The line `encode_enqueue k w`. -/
def encodeEnqueueText (k : BitVec 32) (w : Word) : List UInt8 :=
  encodeEnqueueWord ++ 32 :: (signed k.toInt ++ 32 :: (w.text ++ [10]))

/-- The line `dequeue_decode k`. -/
def dequeueDecodeText (k : BitVec 32) : List UInt8 :=
  dequeueDecodeWord ++ 32 :: (signed k.toInt ++ [10])

/-! ## The two lines -/

theorem keyOf_signed (k : BitVec 32) {rest : List UInt8} (hrest : rest.takeWhile isDigit = []) :
    keyOf (signed k.toInt ++ rest) = k :=
  atoiInt_of_atoi (atoi_signed_append _ hrest)

/-- The text of a number has no blank, no newline and no NUL. -/
theorem notMem_signed (z : Int) : 32 ∉ signed z ∧ 10 ∉ signed z ∧ 0 ∉ signed z := by
  have h : ∀ c : UInt8, c ≠ 45 → isDigit c = false → c ∉ signed z := by
    intro c hc hdigit hmem
    rcases mem_signed hmem with h | h
    · exact hc h
    · rw [hdigit] at h
      exact nomatch h
  exact ⟨h 32 (by decide) (by decide), h 10 (by decide) (by decide), h 0 (by decide) (by decide)⟩

theorem processLine2_encodeEnqueue (st : State) (k : BitVec 32) (w : Word) :
    processLine2 st (encodeEnqueueText k w) = enqueueLine st (some (encode w.text k)) := by
  have hzero : 0 ∉ encodeEnqueueText k w := by
    simp only [encodeEnqueueText, List.mem_append, List.mem_cons, not_or]
    exact ⟨by decide, by decide, (notMem_signed _).2.2, by decide, w.noNul, by decide,
      List.not_mem_nil⟩
  have hfirst : strtok 32 (encodeEnqueueText k w) =
      some (encodeEnqueueWord, signed k.toInt ++ 32 :: (w.text ++ [10])) :=
    strtok_of_begins (by decide) (by decide) ⟨[], List.forall_mem_nil _, Or.inr rfl⟩
  have hsecond : strtok 32 (signed k.toInt ++ 32 :: (w.text ++ [10])) =
      some (signed k.toInt, w.text ++ [10]) :=
    strtok_of_begins (signed_ne_nil _) (notMem_signed _).1
      ⟨[], List.forall_mem_nil _, Or.inr rfl⟩
  have hthird : strtok 10 (w.text ++ [10]) = some (w.text, []) :=
    strtok_of_begins w.nonempty w.noNewline ⟨[], List.forall_mem_nil _, Or.inr rfl⟩
  have hkey : keyOf (signed k.toInt) = k := by
    have hnil : ([] : List UInt8).takeWhile isDigit = [] := rfl
    have h := keyOf_signed k hnil
    rwa [List.append_nil] at h
  unfold processLine2
  rw [cstring_eq_self hzero, hfirst]
  dsimp only
  unfold cipheredAction
  rw [if_pos rfl]
  unfold encodeEnqueueLine
  rw [hsecond]
  dsimp only
  rw [hthird]
  dsimp only
  rw [hkey]
  rfl

theorem processLine2_dequeueDecode (st : State) (k : BitVec 32) :
    processLine2 st (dequeueDecodeText k) = dequeueDecode st k := by
  have hzero : 0 ∉ dequeueDecodeText k := by
    simp only [dequeueDecodeText, List.mem_append, List.mem_cons, not_or]
    exact ⟨by decide, by decide, (notMem_signed _).2.2, by decide, List.not_mem_nil⟩
  have hfirst : strtok 32 (dequeueDecodeText k) =
      some (dequeueDecodeWord, signed k.toInt ++ [10]) :=
    strtok_of_begins (by decide) (by decide) ⟨[], List.forall_mem_nil _, Or.inr rfl⟩
  have hsecond : strtok 32 (signed k.toInt ++ [10]) = some (signed k.toInt ++ [10], []) := by
    apply strtok_of_begins
    · exact List.append_ne_nil_of_right_ne_nil _ (List.cons_ne_nil _ _)
    · rw [List.mem_append, not_or]
      exact ⟨(notMem_signed _).1, by decide⟩
    · exact ⟨[], List.forall_mem_nil _, Or.inl ⟨rfl, rfl⟩⟩
  have hkey : keyOf (signed k.toInt ++ [10]) = k := keyOf_signed k rfl
  unfold processLine2
  rw [cstring_eq_self hzero, hfirst]
  dsimp only
  unfold cipheredAction
  rw [if_neg (by decide), if_pos rfl]
  unfold dequeueDecodeLine
  rw [hsecond]
  dsimp only
  rw [hkey]

/-! ## The element on its way -/

/-- The node at `n` holds `x` as long as it is an element. -/
def Carries (n : Nat) (x : List UInt8) (st : State) : Prop :=
  n < st.heap.length ∧ ∃ l, Holds st.heap st.q l ∧ ∀ y, (n, y) ∈ l → y = x

variable {n : Nat} {x : List UInt8} {st st' : State} {l : List (Nat × List UInt8)}

/-- No line changes an element or puts another one at its address. -/
theorem Carries.step {line : List UInt8} (h : Carries n x st)
    (hline : processLine2 st line = .ok st') :
    Carries n x st' := by
  obtain ⟨hlt, l, hq, hx⟩ := h
  rcases (processLine2_executed hq hline).cases with ⟨y, hq', hlen, -⟩ | ⟨-, hq', hlen, -⟩
  · refine ⟨by omega, _, hq', ?_⟩
    intro z hz
    rcases List.mem_append.mp hz with hz | hz
    · exact hx z hz
    · have hn := (Prod.mk.inj (List.mem_singleton.mp hz)).1
      exact absurd hn (Nat.ne_of_lt hlt)
  · refine ⟨by omega, _, hq', ?_⟩
    intro z hz
    exact hx z (List.mem_of_mem_tail hz)

/-! ## What is printed -/

/-- The word that the key turns into `ILLCHAR`: every letter goes back by the key. -/
def turnedBack (k : BitVec 32) : List UInt8 :=
  illchar.map fun c => UInt8.ofInt (65 + ((c.toNat : Int) - 65 - k.toInt) % 26)

theorem upper_of_mem_illchar : ∀ c ∈ illchar, Ring.upper.Has c := by
  unfold Ring.Has
  decide +kernel

theorem illchar_alnum : Alnum illchar := by
  intro c hc
  exact isAlphanumeric_iff.mpr ⟨.upper, upper_of_mem_illchar c hc⟩

theorem toNat_turned (z : Int) : ((UInt8.ofInt (65 + z % 26)).toNat : Int) = 65 + z % 26 := by
  have hnonneg := Int.emod_nonneg z (by decide : (26 : Int) ≠ 0)
  have hlt := Int.emod_lt_of_pos z (by decide : (0 : Int) < 26)
  rw [UInt8.ofInt, UInt8.toNat_ofNat', Nat.mod_eq_of_lt (by omega)]
  omega

theorem decode_illchar {k : BitVec 32} (hk : k ≠ BitVec.intMin 32) :
    decode illchar k = turnedBack k := by
  rw [decode_eq illchar_alnum]
  apply List.map_congr_left
  intro c hc
  apply UInt8.toNat_inj.mp
  have h := shiftChar_toNat (upper_of_mem_illchar c hc) (-k)
  rw [toInt_neg_key hk] at h
  exact Int.ofNat_inj.mp (h.trans (toNat_turned _).symm)

theorem turnedBack_eq_illchar_iff (k : BitVec 32) : turnedBack k = illchar ↔ 26 ∣ k.toInt := by
  constructor
  · intro h
    have hfirst : UInt8.ofInt (65 + ((73 : Int) - 65 - k.toInt) % 26) = 73 := (List.cons.inj h).1
    have hnat := toNat_turned ((73 : Int) - 65 - k.toInt)
    rw [hfirst] at hnat
    change (73 : Int) = _ at hnat
    omega
  · intro h
    conv_rhs => rw [← List.map_id illchar]
    apply List.map_congr_left
    intro c hc
    apply UInt8.toNat_inj.mp
    apply Int.ofNat_inj.mp
    rw [toNat_turned]
    obtain ⟨hlow, hhigh⟩ := upper_of_mem_illchar c hc
    simp only [Ring.first, Ring.len] at hlow hhigh
    change _ = (c.toNat : Int)
    omega

/-- The text that `dequeue_decode` prints for the element made of `w` is `w`, or `ILLCHAR` for a bad
word, exactly when `w` is not a word that the key turns into `ILLCHAR` and that is another one. -/
theorem printed_iff {w : List UInt8} {k : BitVec 32} (hk : k ≠ BitVec.intMin 32) :
    (if encode w k = illchar then encode w k else decode (encode w k) k) =
        (if Alnum w then w else illchar) ↔ (w = turnedBack k → 26 ∣ k.toInt) := by
  by_cases hw : Alnum w
  · rw [if_pos hw, decode_encode hw hk]
    by_cases hmark : encode w k = illchar
    · have hback : w = turnedBack k := by
        rw [← decode_illchar hk, ← hmark, decode_encode hw hk]
      rw [if_pos hmark, hmark, ← turnedBack_eq_illchar_iff, ← hback, eq_comm]
      exact ⟨fun h _ => h, fun h => h rfl⟩
    · rw [if_neg hmark]
      refine ⟨fun _ hback => absurd ?_ hmark, fun _ => rfl⟩
      rw [hback, ← decode_illchar hk, encode_decode illchar_alnum hk]
  · rw [if_neg hw, if_pos (encode_bad hw k), encode_bad hw k]
    refine ⟨fun _ hback => absurd ?_ hw, fun _ => rfl⟩
    rw [hback, ← decode_illchar hk, decode_eq illchar_alnum]
    exact illchar_alnum.map_shiftChar (-k)

/-- In any script, a word that went in by `encode_enqueue` and is at the front when `dequeue_decode`
comes with the same key is printed as it was, or as `ILLCHAR` when it has a bad character, exactly
when it is not one that the key turns into `ILLCHAR`. -/
theorem roundTrip_iff (pre mid : List (List UInt8)) (w : Word) (k : BitVec 32)
    (hk : k ≠ BitVec.intMin 32) {st₀ st₁ st₂ : State}
    (hpre : pre.foldlM processLine2 State.start = .ok st₀)
    (henq : processLine2 st₀ (encodeEnqueueText k w) = .ok st₁)
    (hmid : mid.foldlM processLine2 st₁ = .ok st₂) (hfront : st₂.q.head = st₁.q.tail) :
    ∃ st₃ printed, processLine2 st₂ (dequeueDecodeText k) = .ok st₃ ∧
      st₃.out = st₂.out ++ printed ++ [10] ∧
      (printed = (if Alnum w.text then w.text else illchar) ↔
        (w.text = turnedBack k → 26 ∣ k.toInt)) := by
  obtain ⟨l₀, hq₀⟩ := run_holds Holds.start hpre
  obtain ⟨st, hst, -, hlen, hq₁⟩ := enqueueLine_eq hq₀ (encode w.text k)
  rw [processLine2_encodeEnqueue, hst] at henq
  obtain rfl := Except.ok.inj henq
  have hnew : Carries st₀.heap.length (encode w.text k) st := by
    refine ⟨by omega, _, hq₁, ?_⟩
    intro y hy
    rcases List.mem_append.mp hy with hy | hy
    · have hlt := hq₀.lt_length (List.mem_map_of_mem hy)
      exact absurd hlt (by omega)
    · exact (Prod.mk.inj (List.mem_singleton.mp hy)).2
  obtain ⟨-, l₂, hq₂, hcarried⟩ := run_preserves (fun _ _ _ => Carries.step) hnew hmid
  rw [hq₁.tail _ List.getLast?_concat] at hfront
  cases l₂ with
  | nil =>
    rw [hq₂.head_eq_none.mpr rfl] at hfront
    exact nomatch hfront
  | cons n l₂ =>
    obtain ⟨a, x⟩ := n
    rw [hq₂.dequeue_cons.1, Option.some.injEq] at hfront
    dsimp only at hfront
    subst hfront
    have hx : x = encode w.text k := hcarried x List.mem_cons_self
    subst hx
    obtain ⟨st₃, hline, hout, -, -⟩ := dequeueDecode_cons hq₂ k
    refine ⟨st₃, _, ?_, hout, printed_iff hk⟩
    rw [processLine2_dequeueDecode, hline]

/-- `ABC`. -/
def abc : Word := ⟨[65, 66, 67], by decide, by decide, by decide⟩

theorem roundTrip_abc :
    ∃ st₃ printed, processLine2 ⟨[some (.node none (some 1)), some (.string [66, 67, 68])],
        ⟨some 0, some 0⟩, []⟩ (dequeueDecodeText 1) = .ok st₃ ∧
      st₃.out = [] ++ printed ++ [10] ∧
      (printed = (if Alnum abc.text then abc.text else illchar) ↔
        (abc.text = turnedBack 1 → 26 ∣ (1 : BitVec 32).toInt)) :=
  roundTrip_iff [] [] abc 1 (by decide) rfl (by decide) rfl rfl

/-- `HKKBGZQ` is a good word, and with key 1 it comes out as `ILLCHAR`. -/
theorem roundTrip_marked :
    Alnum [72, 75, 75, 66, 71, 90, 81] ∧
      cipheredQueueMain (encodeEnqueueWord ++ [32, 49, 32, 72, 75, 75, 66, 71, 90, 81, 10] ++
        dequeueDecodeWord ++ [32, 49, 10]) =
        .finished (illchar ++ [10] ++ finallyText ++ [10]) := by
  decide +kernel

end SystemsProjects.CipherQueue
