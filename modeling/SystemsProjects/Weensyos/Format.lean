import SystemsProjects.Lib.Decimal
import SystemsProjects.Weensyos.Numbers
import Mathlib.Data.Int.Init

/-!
# Formatted messages

`printer::vprintf` (`lab4-TheCarton-main/lib.cc:394-570`) turns a format and its arguments into the
characters that it passes to `putc`. A format is the list of its characters without the NUL, and an
argument that points to a string comes with the bytes from there on. `none` marks a fault: an
argument that is missing or of the wrong kind, or a string that is not terminated. An `int` that
the format makes overflow is not wrapped.
-/

namespace SystemsProjects.Weensyos

open SystemsProjects.Lib

/-- An argument: a number or pointer, or a pointer to a string. -/
inductive VaArg where
  | word (w : BitVec 64)
  | str (bytes : List UInt8)

/-- `va_arg (val, long)` and `va_arg (val, void*)`. -/
def vaLong : List VaArg → Option (BitVec 64 × List VaArg)
  | .word w :: val => some (w, val)
  | _ => none

/-- `va_arg (val, int)`. -/
def vaInt (val : List VaArg) : Option (BitVec 32 × List VaArg) :=
  (vaLong val).map fun r => (r.1.setWidth 32, r.2)

/-- `va_arg (val, char*)`. -/
def vaStr : List VaArg → Option (List UInt8 × List VaArg)
  | .str bytes :: val => some (bytes, val)
  | _ => none

/-! ## Flags, width, precision and length -/

def flagAlt : BitVec 32 := 1 <<< 0
def flagZero : BitVec 32 := 1 <<< 1
def flagLeftjustify : BitVec 32 := 1 <<< 2
def flagSpacepositive : BitVec 32 := 1 <<< 3
def flagPluspositive : BitVec 32 := 1 <<< 4
def flagNumeric : BitVec 32 := 1 <<< 6
def flagSigned : BitVec 32 := 1 <<< 7
def flagNegative : BitVec 32 := 1 <<< 8
def flagAlt2 : BitVec 32 := 1 <<< 9

/-- `flags & flag`. -/
def hasFlag (flags flag : BitVec 32) : Bool := flags &&& flag != 0

/-- `flag_chars`: `#0- +'`. -/
def flagChars : List UInt8 := [35, 48, 45, 32, 43, 39]

/-- The flags of a conversion (`lib.cc:405-412`). -/
def processFlags : List UInt8 → BitVec 32 → BitVec 32 × List UInt8
  | [], flags => (flags, [])
  | c :: format, flags =>
    match flagChars.findIdx? (· == c) with
    | some i => processFlags format (flags ||| 1 <<< i)
    | none => (flags, c :: format)

/-- A run of decimal digits. -/
def processDigits : List UInt8 → Int → Int × List UInt8
  | [], n => (n, [])
  | c :: format, n =>
    if isDigit c then processDigits format (10 * n + (c.toNat - 48)) else (n, c :: format)

/-- The width (`lib.cc:415-423`). -/
def processWidth (format : List UInt8) (val : List VaArg) :
    Option (Int × List UInt8 × List VaArg) :=
  match format with
  | [] => some (-1, [], val)
  | c :: rest =>
    if isDigit c && c != 48 then
      some ((processDigits format 0).1, (processDigits format 0).2, val)
    else if c = 42 then (vaInt val).map fun r => (r.1.toInt, rest, r.2)
    else some (-1, format, val)

/-- The precision behind its dot (`lib.cc:428-438`). -/
def processPrecision (format : List UInt8) (val : List VaArg) :
    Option (Int × List UInt8 × List VaArg) :=
  match format with
  | 46 :: c :: rest =>
    if isDigit c then
      some ((processDigits (c :: rest) 0).1, (processDigits (c :: rest) 0).2, val)
    else if c = 42 then (vaInt val).map fun r => (max r.1.toInt 0, rest, r.2)
    else some (0, c :: rest, val)
  | [46] => some (0, [], val)
  | _ => some (-1, format, val)

/-- The length (`lib.cc:441-452`): `l`, `t` and `z`, or `h`. -/
def processLength : List UInt8 → Bool × List UInt8
  | [] => (false, [])
  | c :: format =>
    if c = 108 ∨ c = 116 ∨ c = 122 then (true, format)
    else if c = 104 then (false, format)
    else (false, c :: format)

/-! ## The conversion -/

/-- What the conversion character sets: the flags, the number and its base, or the data. -/
structure Conversion where
  flags : BitVec 32
  base : Int
  num : BitVec 64
  data : List UInt8

/-- `format_unsigned`. -/
def formatUnsigned (length : Bool) (base : Int) (flags : BitVec 32) (val : List VaArg) :
    Option (Option Conversion × List VaArg) := do
  let (w, val) ← vaLong val
  let num := if length then w else (w.setWidth 32).setWidth 64
  return (some ⟨flags ||| flagNumeric, base, num, []⟩, val)

/-- The main conversion character (`lib.cc:459-506`), `none` at the end of the format. `%C` prints
nothing. -/
def convert (c : Option UInt8) (length : Bool) (flags : BitVec 32) (val : List VaArg) :
    Option (Option Conversion × List VaArg) :=
  match c with
  | some 100 | some 105 => do
    let (w, val) ← vaLong val
    let x := if length then w else (w.setWidth 32).signExtend 64
    let negative := if x.slt 0 then flagNegative else 0
    return (some ⟨flags ||| (flagNumeric ||| flagSigned ||| negative), 10,
      if x.slt 0 then -x else x, []⟩, val)
  | some 117 => formatUnsigned length 10 flags val
  | some 120 => formatUnsigned length (-16) flags val
  | some 88 => formatUnsigned length 16 flags val
  | some 112 => do
    let (w, val) ← vaLong val
    return (some ⟨flags ||| (flagAlt ||| flagAlt2 ||| flagNumeric), -16, w, []⟩, val)
  | some 115 => do
    let (bytes, val) ← vaStr val
    return (some ⟨flags, 10, 0, bytes⟩, val)
  | some 67 => (vaInt val).map fun r => (none, r.2)
  | some 99 => do
    let (x, val) ← vaInt val
    return (some ⟨flags, 10, 0, [UInt8.ofBitVec (x.setWidth 8), 0]⟩, val)
  | some c => some (some ⟨flags, 10, 0, [c, 0]⟩, val)
  | none => some (some ⟨flags, 10, 0, [37, 0]⟩, val)

/-! ## The output of one conversion -/

/-- `strnlen`. -/
def strnlen : List UInt8 → Nat → Option Nat
  | _, 0 => some 0
  | [], _ + 1 => none
  | c :: s, n + 1 => if c = 0 then some 0 else (strnlen s n).map (· + 1)

/-- The sign or the `0x` before a number (`lib.cc:512-525`). -/
def numberSign (cv : Conversion) : List UInt8 :=
  if hasFlag cv.flags flagNumeric && hasFlag cv.flags flagSigned then
    if hasFlag cv.flags flagNegative then [45]
    else if hasFlag cv.flags flagPluspositive then [43]
    else if hasFlag cv.flags flagSpacepositive then [32]
    else []
  else if hasFlag cv.flags flagNumeric && hasFlag cv.flags flagAlt &&
      (cv.base == 16 || cv.base == -16) && (cv.num != 0 || hasFlag cv.flags flagAlt2) then
    if cv.base = -16 then [48, 120] else [48, 88]
  else []

/-- `numbuf`. Nothing of what it held before is read. -/
def numbuf : List UInt8 := List.replicate 32 0

/-- The bytes from `data` on (`lib.cc:508-510`). -/
def Conversion.bytes (cv : Conversion) : Option (List UInt8) :=
  if hasFlag cv.flags flagNumeric then
    (printNumber numbuf cv.num.toNat cv.base cv.flags).map fun p => p.buf.drop p.pos
  else some cv.data

/-- `datalen` (`lib.cc:527-532`). -/
def Conversion.datalen (cv : Conversion) (precision : Int) (data : List UInt8) : Option Nat :=
  if precision ≥ 0 && !hasFlag cv.flags flagNumeric then strnlen data precision.toNat
  else (cstr data).map List.length

/-- The characters of a conversion (`lib.cc:534-568`): padding, sign, zeros, data, padding. -/
def Conversion.emit (cv : Conversion) (width precision : Int) : Option (List UInt8) := do
  let data ← cv.bytes
  let datalen ← cv.datalen precision data
  let sign := numberSign cv
  let zeros : Int :=
    if hasFlag cv.flags flagNumeric && precision ≥ 0 then max (precision - datalen) 0
    else if hasFlag cv.flags flagNumeric && hasFlag cv.flags flagZero &&
        !hasFlag cv.flags flagLeftjustify && datalen + sign.length < width then
      width - datalen - sign.length
    else 0
  let padding := List.replicate (width - (datalen + zeros + sign.length)).toNat 32
  return (if hasFlag cv.flags flagLeftjustify then [] else padding) ++ sign ++
    List.replicate zeros.toNat 48 ++ data.take datalen ++
    if hasFlag cv.flags flagLeftjustify then padding else []

/-- The characters of a conversion, if there is one. -/
def emitted (width precision : Int) : Option Conversion → Option (List UInt8)
  | some cv => cv.emit width precision
  | none => some []

/-- What follows a `%`: the characters it prints, the rest of the format and of the arguments. -/
def directive (format : List UInt8) (val : List VaArg) :
    Option (List UInt8 × List UInt8 × List VaArg) := do
  let (flags, format) := processFlags format 0
  let (width, format, val) ← processWidth format val
  let (precision, format, val) ← processPrecision format val
  let (cv, val) ←
    convert (processLength format).2.head? (processLength format).1 flags val
  let out ← emitted width precision cv
  return (out, (processLength format).2.tail, val)

/-! ## What is left of the format -/

theorem processFlags_suffix (format : List UInt8) (flags : BitVec 32) :
    (processFlags format flags).2 <:+ format := by
  induction format generalizing flags with
  | nil => exact List.suffix_rfl
  | cons c format ih =>
    unfold processFlags
    split
    · exact (ih _).trans (List.suffix_cons c format)
    · exact List.suffix_rfl

theorem processDigits_suffix (format : List UInt8) (n : Int) :
    (processDigits format n).2 <:+ format := by
  induction format generalizing n with
  | nil => exact List.suffix_rfl
  | cons c format ih =>
    unfold processDigits
    split
    · exact (ih _).trans (List.suffix_cons c format)
    · exact List.suffix_rfl

section Suffix
variable {format rest : List UInt8} {val val' : List VaArg} {n : Int}

theorem processWidth_suffix (h : processWidth format val = some (n, rest, val')) :
    rest <:+ format := by
  unfold processWidth at h
  split at h
  · obtain ⟨-, rfl, -⟩ := h
    exact List.suffix_rfl
  · split at h
    · obtain ⟨-, rfl, -⟩ := h
      exact processDigits_suffix _ 0
    · split at h
      · obtain ⟨r, -, hr⟩ := Option.map_eq_some_iff.mp h
        obtain ⟨-, rfl, -⟩ := hr
        exact List.suffix_cons _ _
      · obtain ⟨-, rfl, -⟩ := h
        exact List.suffix_rfl

theorem processPrecision_suffix (h : processPrecision format val = some (n, rest, val')) :
    rest <:+ format := by
  unfold processPrecision at h
  split at h
  · split at h
    · obtain ⟨-, rfl, -⟩ := h
      exact (processDigits_suffix _ 0).trans (List.suffix_cons _ _)
    · split at h
      · obtain ⟨r, -, hr⟩ := Option.map_eq_some_iff.mp h
        obtain ⟨-, rfl, -⟩ := hr
        exact (List.suffix_cons _ _).trans (List.suffix_cons _ _)
      · obtain ⟨-, rfl, -⟩ := h
        exact List.suffix_cons _ _
  · obtain ⟨-, rfl, -⟩ := h
    exact List.nil_suffix
  · obtain ⟨-, rfl, -⟩ := h
    exact List.suffix_rfl

theorem processLength_suffix (format : List UInt8) : (processLength format).2 <:+ format := by
  cases format with
  | nil => exact List.suffix_rfl
  | cons c format =>
    unfold processLength
    dsimp only
    split_ifs
    · exact List.suffix_cons c format
    · exact List.suffix_cons c format
    · exact List.suffix_rfl

/-- The steps of a directive, one after the other. -/
theorem directive_eq_some {out : List UInt8} (h : directive format val = some (out, rest, val')) :
    ∃ width precision f₁ f₂ val₁ val₂ cv,
      processWidth (processFlags format 0).2 val = some (width, f₁, val₁) ∧
      processPrecision f₁ val₁ = some (precision, f₂, val₂) ∧
      convert (processLength f₂).2.head? (processLength f₂).1 (processFlags format 0).1 val₂ =
        some (cv, val') ∧
      rest = (processLength f₂).2.tail ∧
      emitted width precision cv = some out := by
  unfold directive at h
  obtain ⟨⟨width, f₁, val₁⟩, hwidth, h⟩ := Option.bind_eq_some_iff.mp h
  obtain ⟨⟨precision, f₂, val₂⟩, hprec, h⟩ := Option.bind_eq_some_iff.mp h
  obtain ⟨⟨cv, val₃⟩, hconv, h⟩ := Option.bind_eq_some_iff.mp h
  obtain ⟨out', hout, h⟩ := Option.bind_eq_some_iff.mp h
  obtain ⟨rfl, rfl, rfl⟩ := h
  exact ⟨width, precision, f₁, f₂, val₁, val₂, cv, hwidth, hprec, hconv, rfl, hout⟩

theorem directive_suffix {out : List UInt8} (h : directive format val = some (out, rest, val')) :
    rest <:+ format := by
  obtain ⟨width, precision, f₁, f₂, val₁, val₂, cv, hwidth, hprec, -, rfl, -⟩ := directive_eq_some h
  calc (processLength f₂).2.tail
    _ <:+ (processLength f₂).2 := List.tail_suffix _
    _ <:+ f₂ := processLength_suffix f₂
    _ <:+ f₁ := processPrecision_suffix hprec
    _ <:+ (processFlags format 0).2 := processWidth_suffix hwidth
    _ <:+ format := processFlags_suffix format 0

end Suffix

/-! ## `printer::vprintf` -/

/-- `printer::vprintf`: the characters passed to `putc`. -/
def vprintf (format : List UInt8) (val : List VaArg) : Option (List UInt8) :=
  match format with
  | [] => some []
  | c :: format =>
    if c ≠ 37 then (vprintf format val).map (c :: ·)
    else
      match _h : directive format val with
      | none => none
      | some (out, format, val) => (vprintf format val).map (out ++ ·)
termination_by format.length
decreasing_by
  · exact Nat.lt_succ_self _
  · exact Nat.lt_succ_of_le (directive_suffix _h).length_le

/-- A format without conversions prints itself. -/
theorem vprintf_plain {format : List UInt8} (val : List VaArg) (h : 37 ∉ format) :
    vprintf format val = some format := by
  induction format with
  | nil => rw [vprintf]
  | cons c format ih =>
    rw [List.mem_cons, not_or] at h
    rw [vprintf, if_pos (Ne.symm h.1), ih h.2]
    rfl

/-! ## No NUL is printed -/

theorem strnlen_take {bytes : List UInt8} {n k : Nat} (h : strnlen bytes n = some k) :
    0 ∉ bytes.take k := by
  induction bytes generalizing n k with
  | nil => simp
  | cons c bytes ih =>
    cases n with
    | zero =>
      obtain rfl := Option.some.inj h
      simp
    | succ n =>
      unfold strnlen at h
      split_ifs at h with hc
      · obtain rfl := Option.some.inj h
        simp
      · obtain ⟨k, hk, rfl⟩ := Option.map_eq_some_iff.mp h
        rw [List.take_succ_cons, List.mem_cons, not_or]
        exact ⟨Ne.symm hc, ih hk⟩

theorem cstr_take {bytes s : List UInt8} (h : cstr bytes = some s) : 0 ∉ bytes.take s.length := by
  obtain ⟨hnul, t, rfl⟩ := cstr_eq_some_iff.mp h
  rw [List.append_assoc, List.take_left]
  exact hnul

theorem numberSign_noNul (cv : Conversion) : 0 ∉ numberSign cv := by
  unfold numberSign
  split_ifs <;> decide

theorem replicate_noNul {c : UInt8} (hc : c ≠ 0) (n : Nat) : 0 ∉ List.replicate n c :=
  fun h => hc (List.eq_of_mem_replicate h).symm

theorem ite_noNul {p : Prop} [Decidable p] {s t : List UInt8} (hs : 0 ∉ s) (ht : 0 ∉ t) :
    0 ∉ if p then s else t := by
  split
  · exact hs
  · exact ht

theorem Conversion.emit_noNul {cv : Conversion} {width precision : Int} {out : List UInt8}
    (h : cv.emit width precision = some out) : 0 ∉ out := by
  unfold Conversion.emit at h
  obtain ⟨data, -, h⟩ := Option.bind_eq_some_iff.mp h
  obtain ⟨datalen, hlen, h⟩ := Option.bind_eq_some_iff.mp h
  have hdata : 0 ∉ data.take datalen := by
    unfold Conversion.datalen at hlen
    split_ifs at hlen
    · exact strnlen_take hlen
    · obtain ⟨s, hs, rfl⟩ := Option.map_eq_some_iff.mp hlen
      exact cstr_take hs
  obtain rfl := Option.some.inj h
  have hpad := replicate_noNul (c := 32) (by decide)
  have hzeros := replicate_noNul (c := 48) (by decide)
  simp only [List.mem_append, not_or]
  exact ⟨⟨⟨⟨ite_noNul List.not_mem_nil (hpad _), numberSign_noNul cv⟩, hzeros _⟩, hdata⟩,
    ite_noNul (hpad _) List.not_mem_nil⟩

theorem emitted_noNul {cv : Option Conversion} {width precision : Int} {out : List UInt8}
    (h : emitted width precision cv = some out) : 0 ∉ out := by
  cases cv with
  | none =>
    obtain rfl := Option.some.inj h
    exact List.not_mem_nil
  | some cv => exact cv.emit_noNul h

/-- A formatted message has no NUL in it. -/
theorem vprintf_noNul (format : List UInt8) (val : List VaArg) {out : List UInt8}
    (hformat : 0 ∉ format) (h : vprintf format val = some out) : 0 ∉ out := by
  fun_induction vprintf format val generalizing out with
  | case1 val =>
    obtain rfl := Option.some.inj h
    exact List.not_mem_nil
  | case2 val c format hc ih =>
    obtain ⟨out, hout, rfl⟩ := Option.map_eq_some_iff.mp h
    rw [List.mem_cons, not_or] at hformat ⊢
    exact ⟨hformat.1, ih hformat.2 hout⟩
  | case3 => exact nomatch h
  | case4 val c format hc out' format' val' hdir ih =>
    obtain ⟨out, hout, rfl⟩ := Option.map_eq_some_iff.mp h
    rw [List.mem_append, not_or]
    constructor
    · obtain ⟨width, precision, -, -, -, -, cv, -, -, -, -, hcv⟩ := directive_eq_some hdir
      exact emitted_noNul hcv
    · apply ih _ hout
      intro hmem
      exact hformat (List.mem_cons_of_mem c ((directive_suffix hdir).mem hmem))

end SystemsProjects.Weensyos
