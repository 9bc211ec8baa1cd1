import SystemsProjects.Lib.Scrollback
import SystemsProjects.Weensyos.Paging

/-!
# The console

`console_puts` and its `console_printer` (`lab4-TheCarton-main/lib.cc:605-693`) over the 25 rows of
80 cells of the CGA console. Printing at the cursor scrolls, and the screen then shows the end of
all that was printed, from the start of a row on. An access outside the console is `none`.
-/

namespace SystemsProjects.Weensyos

open SystemsProjects.Lib SystemsProjects.Lib.Scrollback

/-- A cell: a character and its color. -/
abbrev Cell := BitVec 16

/-- `CONSOLE_ROWS * CONSOLE_COLUMNS`. -/
def consoleSize : Nat := 25 * 80

/-- `console` and `cursorpos`. -/
structure Screen where
  console : Nat → Cell
  cursorpos : Nat

/-- `console_printer`; `cell` is `cell_ - console`. -/
structure ConsolePrinter where
  console : Nat → Cell
  cell : Nat
  scroll : Bool

/-- `c | color`, as it is stored in a cell. -/
def cellOf (c : UInt8) (color : BitVec 32) : Cell := (c.toBitVec.setWidth 32 ||| color).setWidth 16

/-- The loops of `console_printer::scroll` (`lib.cc:642-649`). -/
def scrollConsole (console : Nat → Cell) : Nat → Cell :=
  (List.range' (24 * 80) 80).foldl (fun console i => Function.update console i 0)
    ((List.range (24 * 80)).foldl
      (fun console i => Function.update console i (console (i + 80))) console)

/-- `console_printer::scroll` (`lib.cc:639-655`); `none` when its assertion fails. -/
def ConsolePrinter.scrollRow (cp : ConsolePrinter) : Option ConsolePrinter :=
  if cp.cell < consoleSize then none
  else if cp.scroll then
    some { cp with console := scrollConsole cp.console, cell := cp.cell - 80 }
  else some { cp with cell := 0 }

theorem ConsolePrinter.scrollRow_cell {cp cp' : ConsolePrinter} (h : cp.scrollRow = some cp') :
    cp'.cell < cp.cell := by
  unfold scrollRow consoleSize at h
  split_ifs at h with hcell hscroll
  · obtain rfl := Option.some.inj h
    dsimp only
    omega
  · obtain rfl := Option.some.inj h
    dsimp only
    omega

/-- The loop at the start of `putc` (`lib.cc:667-669`). -/
def ConsolePrinter.makeRoom (cp : ConsolePrinter) : Option ConsolePrinter :=
  if cp.cell < consoleSize then some cp
  else
    match _h : cp.scrollRow with
    | none => none
    | some cp' => cp'.makeRoom
termination_by cp.cell
decreasing_by exact ConsolePrinter.scrollRow_cell _h

/-- `*cell_++ = w`. -/
def ConsolePrinter.store (cp : ConsolePrinter) (w : Cell) : Option ConsolePrinter :=
  if cp.cell < consoleSize then
    some { cp with console := Function.update cp.console cp.cell w, cell := cp.cell + 1 }
  else none

/-- The loop that fills the row behind a newline (`lib.cc:671-675`), with the cells that are left.
-/
def ConsolePrinter.pad (color : BitVec 32) : Nat → ConsolePrinter → Option ConsolePrinter
  | 0, cp => some cp
  | left + 1, cp => do
    let cp ← cp.store (cellOf 32 color)
    ConsolePrinter.pad color left cp

/-- `console_printer::putc` (`lib.cc:666-679`). -/
def ConsolePrinter.putc (cp : ConsolePrinter) (color : BitVec 32) (c : UInt8) :
    Option ConsolePrinter := do
  let cp ← cp.makeRoom
  if c = 10 then cp.pad color (80 - cp.cell % 80) else cp.store (cellOf c color)

/-- `console_printer (cpos, scroll)` (`lib.cc:629-636`). -/
def consolePrinter (cpos : Int) (scroll : Bool) (st : Screen) : ConsolePrinter where
  console := st.console
  cell := if cpos < 0 then st.cursorpos else if cpos ≤ consoleSize then cpos.toNat else 0
  scroll := scroll

/-- `console_puts` (`lib.cc:682-693`): the cell after the last one, and the screen. -/
def consolePuts (cpos : Int) (color : BitVec 32) (s : List UInt8) (st : Screen) :
    Option (Nat × Screen) := do
  let cp ← s.foldlM (fun cp c => cp.putc color c) (consolePrinter cpos (cpos < 0) st)
  let cursorpos := if cpos < 0 then cp.cell else st.cursorpos
  return (cp.cell, { console := cp.console, cursorpos := cursorpos })

/-- `console_clear` (`lib.cc:608-613`). -/
def consoleClear (st : Screen) : Screen where
  console := (List.range consoleSize).foldl (fun console i => Function.update console i 0x0720)
    st.console
  cursorpos := 0

/-! ## The tape -/

/-- The cells a character takes when `n` cells are written. -/
def laid (color : BitVec 32) (n : Nat) (c : UInt8) : List Cell :=
  if c = 10 then List.replicate (80 - n % 80) (cellOf 32 color) else [cellOf c color]

/-- A text printed on the tape. -/
def typed (t : Tape Cell) (color : BitVec 32) (s : List UInt8) : Tape Cell :=
  s.foldl (fun t c => t.puts (laid color t.length c)) t

/-- The tape a screen shows: all in front of the cursor is written, and a new row is 0. -/
def Screen.tape (st : Screen) : Tape Cell where
  written := (List.range st.cursorpos).map st.console
  rest := fun i => if i < consoleSize then st.console i else 0

/-! ## Scrolling -/

theorem foldl_copy (d n : Nat) (console : Nat → Cell) (i : Nat) :
    (List.range n).foldl (fun console i => Function.update console i (console (i + d))) console i =
      if i < n then console (i + d) else console i := by
  induction n generalizing i with
  | zero => rfl
  | succ n ih =>
    rw [List.range_succ, List.foldl_append, List.foldl_cons, List.foldl_nil,
      Function.update_apply, ih, ih]
    by_cases hi : i = n
    · subst hi
      rw [if_pos rfl, if_neg (by omega), if_pos (by omega)]
    · rw [if_neg hi]
      by_cases hlt : i < n
      · rw [if_pos hlt, if_pos (by omega)]
      · rw [if_neg hlt, if_neg (by omega)]

theorem foldl_clear (w : Cell) (a n : Nat) (console : Nat → Cell) (i : Nat) :
    (List.range' a n).foldl (fun console i => Function.update console i w) console i =
      if a ≤ i ∧ i < a + n then w else console i := by
  induction n generalizing a console with
  | zero => rw [if_neg (by omega)]; rfl
  | succ n ih =>
    rw [List.range'_succ, List.foldl_cons, ih, Function.update_apply]
    by_cases hi : i = a
    · subst hi
      rw [if_neg (by omega), if_pos rfl, if_pos (by omega)]
    · rw [if_neg hi]
      by_cases hin : a + 1 ≤ i ∧ i < a + 1 + n
      · rw [if_pos hin, if_pos (by omega)]
      · rw [if_neg hin, if_neg (by omega)]

theorem scrollConsole_eq (console : Nat → Cell) :
    scrollConsole console = scrolled consoleSize 80 0 console := by
  funext i
  unfold scrollConsole scrolled consoleSize
  rw [foldl_clear, foldl_copy]
  split_ifs <;> first | rfl | omega

/-! ## One character -/

/-- The printer shows the tape, and scrolls. -/
structure ConsolePrinter.On (cp : ConsolePrinter) (t : Tape Cell) : Prop where
  scrolls : cp.scroll = true
  shows : ∃ k, Displays consoleSize 80 t cp.console k cp.cell
  rest : ∀ i, consoleSize ≤ i → t.rest i = 0

section Putc
variable {cp : ConsolePrinter} {t : Tape Cell} {k : Nat}

theorem ConsolePrinter.store_eq (hcell : cp.cell < consoleSize) (w : Cell) :
    cp.store w = some
      { cp with console := Function.update cp.console cp.cell w, cell := cp.cell + 1 } :=
    if_pos hcell

/-- The cells of a row, as far as there is room. -/
theorem pad_shows (color : BitVec 32) (left : Nat)
    (h : Shows consoleSize t cp.console k cp.cell) (hleft : cp.cell + left ≤ consoleSize) :
    ∃ cp', ConsolePrinter.pad color left cp = some cp' ∧ cp'.scroll = cp.scroll ∧
      cp'.cell = cp.cell + left ∧
      Shows consoleSize (t.puts (List.replicate left (cellOf 32 color))) cp'.console k
        cp'.cell := by
  induction left generalizing cp t with
  | zero => exact ⟨cp, rfl, rfl, rfl, h⟩
  | succ left ih =>
    have hput := h.put (show cp.cell < consoleSize by omega) (cellOf 32 color)
    obtain ⟨cp', hpad, hscroll, hcell, hshows⟩ := @ih
      { cp with
        console := Function.update cp.console cp.cell (cellOf 32 color), cell := cp.cell + 1 }
      _ hput (by dsimp only; omega)
    refine ⟨cp', ?_, hscroll, by rw [hcell]; dsimp only; omega, hshows⟩
    rw [ConsolePrinter.pad, cp.store_eq (by omega)]
    exact hpad

/-- After the loop there is room for a character, in a row that has to be shown. -/
theorem ConsolePrinter.On.makeRoom (h : cp.On t) : ∃ cp' k, cp.makeRoom = some cp' ∧
    cp'.scroll = true ∧ Shows consoleSize t cp'.console k cp'.cell ∧ 80 ∣ k ∧
    cp'.cell < consoleSize ∧ (k = 0 ∨ consoleSize ≤ cp'.cell + 80) := by
  obtain ⟨k, hk⟩ := h.shows
  by_cases hcell : cp.cell < consoleSize
  · refine ⟨cp, k, ?_, h.scrolls, hk.toShows, hk.rows, hcell, hk.late.imp_right le_of_lt⟩
    rw [ConsolePrinter.makeRoom, if_pos hcell]
  · have hfull : cp.cell = consoleSize := le_antisymm hk.room (Nat.not_lt.mp hcell)
    have hshows := hk.toShows
    rw [hfull] at hshows
    have hscroll := hshows.scroll (show 80 ≤ consoleSize by decide) h.rest
    have hrow : cp.scrollRow = some { cp with
        console := scrollConsole cp.console, cell := cp.cell - 80 } := by
      rw [ConsolePrinter.scrollRow, if_neg hcell, if_pos h.scrolls]
    have hlast : consoleSize - 80 < consoleSize := by decide
    refine ⟨{ cp with console := scrollConsole cp.console, cell := cp.cell - 80 }, k + 80, ?_,
      h.scrolls, ?_, Nat.dvd_add hk.rows (Nat.dvd_refl 80), ?_, .inr ?_⟩
    · rw [ConsolePrinter.makeRoom, if_neg hcell]
      split
      · rename_i hnone
        rw [hrow] at hnone
        cases hnone
      · rename_i cp' hsome
        rw [hrow] at hsome
        obtain rfl := Option.some.inj hsome
        rw [ConsolePrinter.makeRoom, if_pos (by dsimp only; rw [hfull]; exact hlast)]
    · dsimp only
      rw [hfull, scrollConsole_eq]
      exact hscroll
    · dsimp only
      rw [hfull]
      exact hlast
    · dsimp only
      rw [hfull]
      decide

/-- A character is printed on the tape. -/
theorem ConsolePrinter.On.putc (h : cp.On t) (color : BitVec 32) (c : UInt8) :
    ∃ cp', cp.putc color c = some cp' ∧ cp'.On (t.puts (laid color t.length c)) := by
  obtain ⟨cp', k, hroom, hscroll, hshows, hrows, hcell, hlate⟩ := h.makeRoom
  have hrest : ∀ i, consoleSize ≤ i → (t.puts (laid color t.length c)).rest i = 0 := by
    intro i hi
    rw [t.rest_puts]
    exact h.rest i hi
  have hsize : consoleSize = 2000 := rfl
  unfold ConsolePrinter.putc
  rw [hroom]
  simp only [Option.bind_eq_bind, Option.bind_some]
  unfold laid at hrest ⊢
  split_ifs at hrest ⊢ with hc
  · -- a newline fills the row
    have hmod : t.length % 80 = cp'.cell % 80 := by
      obtain ⟨q, rfl⟩ := hrows
      rw [hshows.length, Nat.mul_add_mod]
    have hfits : cp'.cell + (80 - cp'.cell % 80) ≤ consoleSize := by omega
    obtain ⟨cp'', hpad, hscroll', hcell', hshows'⟩ := pad_shows color _ hshows hfits
    rw [hmod] at hrest ⊢
    refine ⟨cp'', hpad, hscroll'.trans hscroll, ⟨k, hshows', hrows, ?_⟩, hrest⟩
    exact hlate.imp_right fun hlate => by omega
  · refine ⟨_, cp'.store_eq hcell _, hscroll, ⟨k, hshows.put hcell _, hrows, ?_⟩, hrest⟩
    exact hlate.imp_right fun hlate => Nat.lt_of_le_of_lt hlate (by dsimp only; omega)

end Putc

/-! ## Texts -/

theorem ConsolePrinter.On.puts {cp : ConsolePrinter} {t : Tape Cell} (h : cp.On t)
    (color : BitVec 32) (s : List UInt8) :
    ∃ cp', s.foldlM (fun cp c => cp.putc color c) cp = some cp' ∧ cp'.On (typed t color s) := by
  induction s generalizing cp t with
  | nil => exact ⟨cp, rfl, h⟩
  | cons c s ih =>
    obtain ⟨cp', hputc, hon⟩ := h.putc color c
    obtain ⟨cp'', hputs, hon'⟩ := ih hon
    refine ⟨cp'', ?_, hon'⟩
    rw [List.foldlM_cons, hputc]
    exact hputs

/-- The screen shows the tape, and the cursor is behind it. -/
structure Screen.Shows (st : Screen) (t : Tape Cell) : Prop where
  shows : ∃ k, Displays consoleSize 80 t st.console k st.cursorpos
  rest : ∀ i, consoleSize ≤ i → t.rest i = 0

@[simp] theorem Screen.length_tape (st : Screen) : st.tape.length = st.cursorpos := by
  simp [Screen.tape, Tape.length]

theorem Screen.tape_shows (st : Screen) (hpos : st.cursorpos ≤ consoleSize) :
    st.Shows st.tape where
  shows := by
    refine ⟨0, ⟨?_, hpos, ?_⟩, Nat.dvd_zero 80, .inl rfl⟩
    · rw [st.length_tape, Nat.zero_add]
    · intro i hi
      unfold Screen.tape Tape.get
      dsimp only
      rw [Nat.zero_add, if_pos hi]
      by_cases hlt : i < st.cursorpos
      · simp [hlt]
      · rw [List.getD_eq_default _ _ (by simp; omega)]
  rest := fun i hi => if_neg (Nat.not_lt.mpr hi)

/-- A text printed at the cursor. -/
theorem Screen.Shows.consolePuts {st : Screen} {t : Tape Cell} (h : st.Shows t)
    (color : BitVec 32) (s : List UInt8) : ∃ st', consolePuts (-1) color s st =
      some (st'.cursorpos, st') ∧ st'.Shows (typed t color s) := by
  have hstart : (consolePrinter (-1) true st).On t :=
    { scrolls := rfl, shows := h.shows, rest := h.rest }
  obtain ⟨cp, hputs, hon⟩ := hstart.puts color s
  refine ⟨{ console := cp.console, cursorpos := cp.cell }, ?_, hon.shows, hon.rest⟩
  unfold Weensyos.consolePuts
  rw [show decide ((-1 : Int) < 0) = true from rfl, hputs]
  rfl

/-- Texts printed one after the other at the cursor, each in its color. -/
def putsAll : List (BitVec 32 × List UInt8) → Screen → Option Screen
  | [], st => some st
  | (color, s) :: texts, st => do
    let (_, st) ← consolePuts (-1) color s st
    putsAll texts st

def typedAll (t : Tape Cell) (texts : List (BitVec 32 × List UInt8)) : Tape Cell :=
  texts.foldl (fun t text => typed t text.1 text.2) t

theorem Screen.Shows.putsAll {st : Screen} {t : Tape Cell} (h : st.Shows t)
    (texts : List (BitVec 32 × List UInt8)) :
    ∃ st', putsAll texts st = some st' ∧ st'.Shows (typedAll t texts) := by
  induction texts generalizing st t with
  | nil => exact ⟨st, rfl, h⟩
  | cons text texts ih =>
    obtain ⟨st', hputs, hshows⟩ := h.consolePuts text.1 text.2
    obtain ⟨st'', hall, hshows'⟩ := ih hshows
    refine ⟨st'', ?_, hshows'⟩
    rw [Weensyos.putsAll, hputs]
    exact hall

/-- Whatever is printed at the cursor, no cell outside the console is touched, and the screen shows
the end of all that was printed: it has scrolled by as many rows as it had to, and by no more. -/
theorem putsAll_run (st : Screen) (hpos : st.cursorpos ≤ consoleSize)
    (texts : List (BitVec 32 × List UInt8)) : ∃ st', putsAll texts st = some st' ∧
      let tape := typedAll st.tape texts
      let first := firstCell consoleSize 80 tape.length
      st'.cursorpos = tape.length - first ∧ st'.cursorpos ≤ consoleSize ∧
        ∀ i, i < consoleSize → st'.console i = tape.get (first + i) := by
  obtain ⟨st', hputs, hshows⟩ := (st.tape_shows hpos).putsAll texts
  obtain ⟨k, hk⟩ := hshows.shows
  have hfirst := hk.first_eq (by decide)
  refine ⟨st', hputs, ?_, hk.room, ?_⟩
  · have hlen := hk.length
    rw [← hfirst]
    omega
  · intro i hi
    rw [← hfirst]
    exact hk.cell i hi

theorem putsAll_run_last_row :
    ∃ st', putsAll [(0x700, [97, 10]), (0x700, [98])] ⟨fun _ => 0x0730, 1999⟩ = some st' ∧
      st'.cursorpos = 2000 - 80 + 1 := by
  obtain ⟨st', hputs, hcursor, -⟩ :=
    putsAll_run ⟨fun _ => 0x0730, 1999⟩ (by decide) [(0x700, [97, 10]), (0x700, [98])]
  have htape : (typedAll (Screen.tape ⟨fun _ => 0x0730, 1999⟩)
      [(0x700, [97, 10]), (0x700, [98])]).length = 2081 := by
    simp [typedAll, typed, laid]
  refine ⟨st', hputs, hcursor.trans ?_⟩
  rw [htape]
  decide

end SystemsProjects.Weensyos
