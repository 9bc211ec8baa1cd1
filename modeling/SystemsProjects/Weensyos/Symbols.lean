import SystemsProjects.Lib.Bisect
import SystemsProjects.Weensyos.Paging
import Mathlib.Data.List.MinMax
import Mathlib.Data.List.Pairwise

/-!
# The symbol table of the kernel

`mkchickadeesymtab` sorts the symbol table when the kernel is built (`elf_info::sort_symtab`,
`build/mkchickadeesymtab.cc:231-261`), and `lookup_symbol` (`k-hardware.cc:629-663`) searches it for
the addresses of a backtrace. The order is by address only among functions and objects; sections and
files come first, wherever they are.
-/

namespace SystemsProjects.Weensyos
open SystemsProjects.Lib

/-- `ELF_STT_MASK` and `ELF_STT_FUNC`; `elf.h` is not in the repository. -/
structure ElfConsts where
  sttMask : UInt8
  sttFunc : UInt8

structure ElfSymbol where
  name : Nat
  info : UInt8
  value : Word
  size : Word

/-! ## Sorting -/

section Sorting
variable (elf : ElfConsts)

/-- Sections, files and the like. -/
def ElfSymbol.special (a : ElfSymbol) : Bool := decide (a.info &&& elf.sttMask > elf.sttFunc)

/-- `symbol_less`. -/
def symbolLess (a b : ElfSymbol) : Bool :=
  let asp := a.special elf
  let bsp := b.special elf
  if asp || bsp then asp && !bsp
  else decide (a.value < b.value) || (decide (a.value = b.value) && decide (a.size < b.size))

/-- `!symbol_less (symtab_[i], symtab_[i - 1])` for all symbols but the first. -/
def symtabOrdered : List ElfSymbol → Bool
  | a :: b :: syms => !symbolLess elf b a && symtabOrdered (b :: syms)
  | _ => true

/-- `elf_info::sort_symtab`. The first symbol stays where it is. -/
def sortSymtab : List ElfSymbol → List ElfSymbol
  | [] => []
  | null :: syms =>
    if symtabOrdered elf syms then null :: syms
    else null :: syms.mergeSort fun a b => !symbolLess elf b a

variable {elf} {a b c : ElfSymbol} {null : ElfSymbol} {syms : List ElfSymbol}

/-- One symbol is not behind another one. -/
theorem symbolLess_eq_false_iff : symbolLess elf b a = false ↔
    (b.special elf = true → a.special elf = true) ∧
      (a.special elf = false → b.special elf = false →
        a.value < b.value ∨ a.value = b.value ∧ a.size ≤ b.size) := by
  unfold symbolLess
  cases ha : a.special elf with
  | true => cases b.special elf <;> simp
  | false =>
    cases hb : b.special elf with
    | true => simp
    | false =>
      simp only [Bool.or_self, Bool.false_eq_true, if_false, false_implies, true_and, true_implies,
        Bool.or_eq_false_iff, Bool.and_eq_false_imp, decide_eq_false_iff_not, decide_eq_true_eq,
        BitVec.lt_def, BitVec.le_def, ← BitVec.toNat_inj]
      omega

/-- Behind a function or object there is no section or file. -/
theorem special_behind (h : symbolLess elf b a = false) (ha : a.special elf = false) :
    b.special elf = false := by
  by_contra hb
  exact absurd ((symbolLess_eq_false_iff.mp h).1 (Bool.not_eq_false _ ▸ hb)) (by rw [ha]; decide)

theorem symbolLess_total (a b : ElfSymbol) :
    (!symbolLess elf b a || !symbolLess elf a b) = true := by
  rw [Bool.or_eq_true, Bool.not_eq_true', Bool.not_eq_true', symbolLess_eq_false_iff,
    symbolLess_eq_false_iff]
  simp only [BitVec.lt_def, BitVec.le_def, ← BitVec.toNat_inj]
  cases a.special elf <;> cases b.special elf <;> simp
  omega

theorem symbolLess_trans (hab : symbolLess elf b a = false) (hbc : symbolLess elf c b = false) :
    symbolLess elf c a = false := by
  obtain ⟨hspecial, hvalue⟩ := symbolLess_eq_false_iff.mp hab
  obtain ⟨hspecial', hvalue'⟩ := symbolLess_eq_false_iff.mp hbc
  refine symbolLess_eq_false_iff.mpr ⟨fun hc => hspecial (hspecial' hc), fun ha hc => ?_⟩
  have hb := special_behind hab ha
  have h₁ := hvalue ha hb
  have h₂ := hvalue' hb hc
  simp only [BitVec.lt_def, BitVec.le_def, ← BitVec.toNat_inj] at h₁ h₂ ⊢
  omega

theorem symtabOrdered_pairwise (h : symtabOrdered elf syms = true) :
    syms.Pairwise fun a b => symbolLess elf b a = false := by
  induction syms with
  | nil => exact .nil
  | cons a syms ih =>
    cases syms with
    | nil => exact List.pairwise_singleton _ a
    | cons b syms =>
      unfold symtabOrdered at h
      rw [Bool.and_eq_true, Bool.not_eq_true'] at h
      have hrest := ih h.2
      refine List.pairwise_cons.mpr ⟨fun c hc => ?_, hrest⟩
      rcases List.mem_cons.mp hc with rfl | hc
      · exact h.1
      · exact symbolLess_trans h.1 (List.rel_of_pairwise_cons hrest hc)

/-- Not sorting an ordered table makes no difference. -/
theorem sortSymtab_eq (null : ElfSymbol) (syms : List ElfSymbol) :
    sortSymtab elf (null :: syms) =
      null :: syms.mergeSort fun a b => !symbolLess elf b a := by
  simp only [sortSymtab]
  split_ifs with h
  · rw [List.mergeSort_of_pairwise]
    exact (symtabOrdered_pairwise h).imp fun h => by rw [h]; rfl
  · rfl

theorem sortSymtab_pairwise (syms : List ElfSymbol) :
    (syms.mergeSort fun a b => !symbolLess elf b a).Pairwise
      fun a b => symbolLess elf b a = false := by
  have h : (syms.mergeSort fun a b => !symbolLess elf b a).Pairwise
      fun a b => (!symbolLess elf b a) = true := by
    refine List.pairwise_mergeSort (fun a b c hab hbc => ?_) symbolLess_total syms
    rw [Bool.not_eq_true'] at hab hbc ⊢
    exact symbolLess_trans hab hbc
  exact h.imp fun h => by simpa using h

end Sorting

/-! ## Searching -/

/-- What makes `lookup_symbol` stop at index `m`: the address is between the symbol and the next
one, or in the 4 KiB from the last one on, and it is not behind the end of the symbol. -/
def symbolCovers (tbl : List ElfSymbol) (addr : Word) (m : Nat) : Bool :=
  match tbl[m]? with
  | some sym =>
    decide (sym.value ≤ addr) &&
      (match tbl[m + 1]? with
      | some next => decide (addr < next.value)
      | none => decide (addr < sym.value + 0x1000)) &&
      (decide (sym.size = 0) || decide (addr ≤ sym.value + sym.size))
  | none => false

/-- `sym.st_value < addr`. -/
def symbolBelow (tbl : List ElfSymbol) (addr : Word) (m : Nat) : Bool :=
  match tbl[m]? with
  | some sym => decide (sym.value < addr)
  | none => false

/-- `lookup_symbol` (`k-hardware.cc:629-663`): where the name is in the string table, and the
address of the symbol. That the table gets mapped first is left out. -/
def lookupSymbol (tbl : List ElfSymbol) (addr : Word) : Option (Nat × Word) := do
  let m ← bisect (symbolCovers tbl addr) (symbolBelow tbl addr) 0 tbl.length
  let sym ← tbl[m]?
  if sym.value = 0 then none else return (sym.name, sym.value)

/-- The symbol with the highest address up to `addr`, if that is not too far away. -/
structure Nearest (syms : List ElfSymbol) (addr : Word) (sym : ElfSymbol) : Prop where
  mem : sym ∈ syms
  le : sym.value ≤ addr
  highest : ∀ sym' ∈ syms, sym'.value ≤ addr → sym'.value ≤ sym.value
  within : (∃ sym' ∈ syms, sym.value < sym'.value) ∨ addr < sym.value + 0x1000
  size : sym.size = 0 ∨ addr ≤ sym.value + sym.size

section Lookup
variable {elf : ElfConsts} {null : ElfSymbol} {syms : List ElfSymbol} {addr : Word}

/-- The functions and objects of a table. -/
def functionsOf (elf : ElfConsts) (syms : List ElfSymbol) : List ElfSymbol :=
  syms.filter fun a => !a.special elf

/-- The order of a sorted table in which no two functions or objects have the same address. -/
def SymbolOrder (elf : ElfConsts) (a b : ElfSymbol) : Prop :=
  a.special elf = false → b.special elf = false ∧ a.value < b.value

theorem mem_functionsOf {a : ElfSymbol} :
    a ∈ functionsOf elf syms ↔ a ∈ syms ∧ a.special elf = false := by
  unfold functionsOf
  rw [List.mem_filter, Bool.not_eq_true']

theorem sortSymtab_order (hdist : (functionsOf elf syms).Pairwise fun a b => a.value ≠ b.value) :
    (syms.mergeSort fun a b => !symbolLess elf b a).Pairwise (SymbolOrder elf) := by
  have hperm := (List.mergeSort_perm syms fun a b => !symbolLess elf b a).symm.filter
    fun a => !a.special elf
  have hdist' := (hperm.pairwise_iff fun h => Ne.symm h).mp hdist
  rw [List.pairwise_filter] at hdist'
  refine ((sortSymtab_pairwise syms).and hdist').imp ?_
  intro a b hab ha
  obtain ⟨hless, hne⟩ := hab
  have hb := special_behind hless ha
  have hle := (symbolLess_eq_false_iff.mp hless).2 ha hb
  have hne := hne (by rw [ha]; rfl) (by rw [hb]; rfl)
  simp only [BitVec.lt_def, BitVec.le_def, ← BitVec.toNat_inj, ne_eq] at hle hne ⊢
  exact ⟨hb, by omega⟩

section Split
variable {S : List ElfSymbol} (hord : S.Pairwise (SymbolOrder elf)) {t : Nat} {sym : ElfSymbol}
  (hsym : S[t]? = some sym)
include hord hsym

theorem SymbolOrder.behind (hfun : sym.special elf = false) {m : Nat} (hm : t < m) {a : ElfSymbol}
    (ha : S[m]? = some a) : a.special elf = false ∧ sym.value < a.value := by
  obtain ⟨ht, rfl⟩ := List.getElem?_eq_some_iff.mp hsym
  obtain ⟨hm', rfl⟩ := List.getElem?_eq_some_iff.mp ha
  exact List.pairwise_iff_getElem.mp hord t m ht hm' hm hfun

theorem SymbolOrder.before {m : Nat} (hm : m < t) {a : ElfSymbol} (ha : S[m]? = some a) :
    a.special elf = true ∨ a.value < sym.value := by
  obtain ⟨ht, rfl⟩ := List.getElem?_eq_some_iff.mp hsym
  obtain ⟨hm', rfl⟩ := List.getElem?_eq_some_iff.mp ha
  cases hs : S[m].special elf with
  | true => exact .inl rfl
  | false => exact .inr (List.pairwise_iff_getElem.mp hord m t hm' ht hm hs).2

end Split

/-- The symbol at index `t` of the sorted table is the function or object with the highest address
up to `addr`, and what is neither is below `addr`. -/
structure Splits (elf : ElfConsts) (null : ElfSymbol) (S : List ElfSymbol) (addr : Word) (t : Nat)
    (sym : ElfSymbol) : Prop where
  order : S.Pairwise (SymbolOrder elf)
  null : null.value < addr
  special : ∀ a ∈ S, a.special elf = true → a.value < addr
  get : S[t]? = some sym
  func : sym.special elf = false
  le : sym.value ≤ addr
  highest : ∀ a ∈ S, a.special elf = false → a.value ≤ addr → a.value ≤ sym.value

namespace Splits
variable {S : List ElfSymbol} {t : Nat} {sym : ElfSymbol} (h : Splits elf null S addr t sym)
include h

theorem before {m : Nat} (hm : m ≤ t) {a : ElfSymbol} (ha : (null :: S)[m]? = some a) :
    a.value < addr := by
  cases m with
  | zero =>
    obtain rfl := Option.some.inj ha
    exact h.null
  | succ m =>
    rw [List.getElem?_cons_succ] at ha
    rcases SymbolOrder.before h.order h.get hm ha with hs | hlt
    · exact h.special a (List.mem_of_getElem? ha) hs
    · have hle := h.le
      rw [BitVec.lt_def] at hlt ⊢
      rw [BitVec.le_def] at hle
      exact Nat.lt_of_lt_of_le hlt hle

theorem behind {m : Nat} (hm : t + 1 < m) {a : ElfSymbol} (ha : (null :: S)[m]? = some a) :
    addr < a.value := by
  obtain ⟨m, rfl⟩ : ∃ k, m = k + 1 := ⟨m - 1, by omega⟩
  rw [List.getElem?_cons_succ] at ha
  obtain ⟨hfun, hlt⟩ := SymbolOrder.behind h.order h.get h.func (by omega) ha
  by_contra hle
  have hhigh := h.highest a (List.mem_of_getElem? ha) hfun (BitVec.not_lt.mp hle)
  exact absurd hlt (BitVec.not_lt.mpr hhigh)

theorem le_before {m : Nat} (hm : m ≤ t + 1) {a : ElfSymbol} (ha : (null :: S)[m]? = some a) :
    a.value ≤ addr := by
  rcases Nat.lt_or_eq_of_le hm with hlt | rfl
  · exact BitVec.le_of_lt (h.before (Nat.le_of_lt_succ hlt) ha)
  · rw [List.getElem?_cons_succ, h.get] at ha
    obtain rfl := Option.some.inj ha
    exact h.le

theorem length : t + 1 < (null :: S).length := by
  obtain ⟨ht, -⟩ := List.getElem?_eq_some_iff.mp h.get
  exact Nat.succ_lt_succ ht

/-- The search does not stop before the symbol, and goes on behind. -/
theorem probe_before {m : Nat} (hm : m < t + 1) :
    symbolCovers (null :: S) addr m = false ∧ symbolBelow (null :: S) addr m = true := by
  have hlen := h.length
  have ha := List.getElem?_eq_getElem (l := null :: S) (i := m) (by omega)
  have hnext := List.getElem?_eq_getElem (l := null :: S) (i := m + 1) (by omega)
  have hlt := h.before (Nat.le_of_lt_succ hm) ha
  have hle := h.le_before hm hnext
  constructor
  · simp only [symbolCovers, ha, hnext, Bool.and_eq_false_iff, decide_eq_false_iff_not]
    exact .inl (.inr (BitVec.not_lt.mpr hle))
  · simp only [symbolBelow, ha, decide_eq_true_eq]
    exact hlt

/-- The search does not stop behind the symbol, and goes on before. -/
theorem probe_behind {m : Nat} (hm : t + 1 < m) (hlen : m < (null :: S).length) :
    symbolCovers (null :: S) addr m = false ∧ symbolBelow (null :: S) addr m = false := by
  have ha := List.getElem?_eq_getElem hlen
  have hlt := h.behind hm ha
  constructor
  · simp only [symbolCovers, ha, Bool.and_eq_false_iff, decide_eq_false_iff_not]
    exact .inl (.inl (BitVec.not_le.mpr hlt))
  · simp only [symbolBelow, ha, decide_eq_false_iff_not]
    exact BitVec.not_lt.mpr (BitVec.le_of_lt hlt)

/-- The search stops at the symbol if it is not too far away. -/
theorem covers_iff : symbolCovers (null :: S) addr (t + 1) = true ↔
    ((∃ a ∈ functionsOf elf S, sym.value < a.value) ∨ addr < sym.value + 0x1000) ∧
      (sym.size = 0 ∨ addr ≤ sym.value + sym.size) := by
  have hget : (null :: S)[t + 1]? = some sym := h.get
  have hnext : (match (null :: S)[t + 1 + 1]? with
      | some next => decide (addr < next.value)
      | none => decide (addr < sym.value + 0x1000)) = true ↔
      (∃ a ∈ functionsOf elf S, sym.value < a.value) ∨ addr < sym.value + 0x1000 := by
    cases hb : (null :: S)[t + 1 + 1]? with
    | none =>
      rw [decide_eq_true_eq]
      refine (or_iff_right ?_).symm
      rintro ⟨a, ha, hlt⟩
      obtain ⟨hmem, hfun⟩ := mem_functionsOf.mp ha
      obtain ⟨m, hm⟩ := List.mem_iff_getElem?.mp hmem
      have hlen := List.getElem?_eq_none_iff.mp hb
      obtain ⟨hmS, -⟩ := List.getElem?_eq_some_iff.mp hm
      rw [List.length_cons] at hlen
      rcases Nat.lt_or_eq_of_le (show m ≤ t by omega) with hbefore | rfl
      · rcases SymbolOrder.before h.order h.get hbefore hm with hs | hlt'
        · exact absurd hs (by rw [hfun]; decide)
        · exact absurd (BitVec.le_of_lt hlt') (BitVec.not_le.mpr hlt)
      · obtain rfl := Option.some.inj (hm.symm.trans h.get)
        exact BitVec.lt_irrefl _ hlt
    | some next =>
      rw [decide_eq_true_eq]
      refine iff_of_true (h.behind (Nat.lt_succ_self (t + 1)) hb) (.inl ⟨next, ?_, ?_⟩)
      · rw [List.getElem?_cons_succ] at hb
        exact mem_functionsOf.mpr ⟨List.mem_of_getElem? hb,
          (SymbolOrder.behind h.order h.get h.func (Nat.lt_succ_self t) hb).1⟩
      · rw [List.getElem?_cons_succ] at hb
        exact (SymbolOrder.behind h.order h.get h.func (Nat.lt_succ_self t) hb).2
  simp only [symbolCovers, hget, Bool.and_eq_true, Bool.or_eq_true, decide_eq_true_eq, hnext, h.le,
    true_and]

/-- The search ends at the symbol or nowhere. -/
theorem bisect_eq {m : Nat} :
    bisect (symbolCovers (null :: S) addr) (symbolBelow (null :: S) addr) 0
      (null :: S).length = some m ↔ m = t + 1 ∧ symbolCovers (null :: S) addr (t + 1) = true := by
  constructor
  · intro hm
    obtain ⟨-, hlen, hhit⟩ := bisect_hit hm
    rcases Nat.lt_trichotomy m (t + 1) with hlt | rfl | hlt
    · exact absurd hhit (by rw [(h.probe_before hlt).1]; decide)
    · exact ⟨rfl, hhit⟩
    · exact absurd hhit (by rw [(h.probe_behind hlt hlen).1]; decide)
  · rintro ⟨rfl, hhit⟩
    exact bisect_eq_some (Nat.zero_le _) h.length hhit (fun m _ hm => h.probe_before hm)
      fun m hm hlen => h.probe_behind hm hlen

theorem lookupSymbol_eq {name : Nat} {start : Word} :
    lookupSymbol (null :: S) addr = some (name, start) ↔
      symbolCovers (null :: S) addr (t + 1) = true ∧ sym.value ≠ 0 ∧
        sym.name = name ∧ sym.value = start := by
  have hget : (null :: S)[t + 1]? = some sym := h.get
  unfold lookupSymbol
  rw [Option.bind_eq_bind, Option.bind_eq_some_iff]
  constructor
  · rintro ⟨m, hm, hsym⟩
    obtain ⟨rfl, hhit⟩ := h.bisect_eq.mp hm
    rw [hget] at hsym
    simp only [Option.bind_eq_bind, Option.bind_some] at hsym
    split_ifs at hsym with hzero
    obtain ⟨hname, hstart⟩ := Prod.mk.inj (Option.some.inj hsym)
    exact ⟨hhit, hzero, hname, hstart⟩
  · rintro ⟨hhit, hzero, rfl, rfl⟩
    refine ⟨t + 1, h.bisect_eq.mpr ⟨rfl, hhit⟩, ?_⟩
    rw [hget]
    simp only [Option.bind_eq_bind, Option.bind_some, if_neg hzero]
    rfl

end Splits

theorem mem_functionsOf_sorted {a : ElfSymbol} :
    a ∈ functionsOf elf (syms.mergeSort fun a b => !symbolLess elf b a) ↔
      a ∈ functionsOf elf syms := by
  rw [mem_functionsOf, mem_functionsOf, List.mem_mergeSort]

/-- Some symbol has the highest address up to `addr`. -/
theorem exists_highest (hlow : ∃ a ∈ syms, a.value ≤ addr) :
    ∃ sym ∈ syms, sym.value ≤ addr ∧ ∀ a ∈ syms, a.value ≤ addr → a.value ≤ sym.value := by
  have hmem : ∀ a, a ∈ syms.filter (fun a => decide (a.value ≤ addr)) ↔
      a ∈ syms ∧ a.value ≤ addr := fun a => by rw [List.mem_filter, decide_eq_true_eq]
  cases hmax : (syms.filter fun a => decide (a.value ≤ addr)).argmax fun a => a.value.toNat with
  | none =>
    obtain ⟨a, ha, hle⟩ := hlow
    have hin := (hmem a).mpr ⟨ha, hle⟩
    rw [List.argmax_eq_none.mp hmax] at hin
    exact absurd hin List.not_mem_nil
  | some sym =>
    obtain ⟨hsym, hle⟩ := (hmem sym).mp (List.argmax_mem hmax)
    refine ⟨sym, hsym, hle, fun a ha hale => ?_⟩
    exact List.le_of_mem_argmax ((hmem a).mpr ⟨ha, hale⟩) hmax

/-- In a table that `mkchickadeesymtab` has sorted, `lookup_symbol` finds the function or object
with the highest address up to the one it is given, if that is not too far away. No two of them may
have the same address, and the sections and files of the table, which come first in it, have to be
below the address. -/
theorem lookupSymbol_sorted (hnull : null.value < addr)
    (hspecial : ∀ a ∈ syms, a.special elf = true → a.value < addr)
    (hdist : (functionsOf elf syms).Pairwise fun a b => a.value ≠ b.value)
    (hlow : ∃ a ∈ functionsOf elf syms, a.value ≤ addr) (name : Nat) (start : Word) :
    lookupSymbol (sortSymtab elf (null :: syms)) addr = some (name, start) ↔
      ∃ sym, Nearest (functionsOf elf syms) addr sym ∧ sym.value ≠ 0 ∧
        sym.name = name ∧ sym.value = start := by
  have hsplits : ∀ sym ∈ functionsOf elf syms, sym.value ≤ addr →
      (∀ a ∈ functionsOf elf syms, a.value ≤ addr → a.value ≤ sym.value) →
      ∃ t, Splits elf null (syms.mergeSort fun a b => !symbolLess elf b a) addr t sym := by
    intro sym hsym hle hhigh
    obtain ⟨t, ht⟩ := List.mem_iff_getElem?.mp
      (mem_functionsOf.mp (mem_functionsOf_sorted.mpr hsym)).1
    exact ⟨t, {
      order := sortSymtab_order hdist
      null := hnull
      special := fun a ha => hspecial a (List.mem_mergeSort.mp ha)
      get := ht
      func := (mem_functionsOf.mp hsym).2
      le := hle
      highest := fun a ha hfun => hhigh a (mem_functionsOf.mpr ⟨List.mem_mergeSort.mp ha, hfun⟩) }⟩
  simp only [sortSymtab_eq]
  constructor
  · intro h
    obtain ⟨sym, hsym, hle, hhigh⟩ := exists_highest hlow
    obtain ⟨t, hsplit⟩ := hsplits sym hsym hle hhigh
    obtain ⟨hcovers, hzero, hname, hstart⟩ := hsplit.lookupSymbol_eq.mp h
    obtain ⟨hwithin, hsize⟩ := hsplit.covers_iff.mp hcovers
    simp only [mem_functionsOf_sorted] at hwithin
    exact ⟨sym, ⟨hsym, hle, hhigh, hwithin, hsize⟩, hzero, hname, hstart⟩
  · rintro ⟨sym, hnear, hzero, hname, hstart⟩
    obtain ⟨t, hsplit⟩ := hsplits sym hnear.mem hnear.le hnear.highest
    have hwithin := hnear.within
    simp only [← @mem_functionsOf_sorted elf syms] at hwithin
    exact hsplit.lookupSymbol_eq.mpr
      ⟨hsplit.covers_iff.mpr ⟨hwithin, hnear.size⟩, hzero, hname, hstart⟩

end Lookup

/-- A table with a file, and with two functions that are not in order. -/
def sampleSymtab : List ElfSymbol :=
  [{ name := 12, info := 2, value := 0x40200, size := 0 },
   { name := 1, info := 4, value := 0, size := 0 },
   { name := 5, info := 2, value := 0x40000, size := 0x180 }]

theorem lookupSymbol_sorted_second :
    lookupSymbol
      (sortSymtab ⟨15, 2⟩ ({ name := 0, info := 0, value := 0, size := 0 } :: sampleSymtab))
        0x40210 = some (12, 0x40200) ↔
      ∃ sym, Nearest (functionsOf ⟨15, 2⟩ sampleSymtab) 0x40210 sym ∧ sym.value ≠ 0 ∧
        sym.name = 12 ∧ sym.value = 0x40200 :=
  lookupSymbol_sorted (by decide) (by decide) (by decide) (by decide) 12 0x40200

end SystemsProjects.Weensyos
