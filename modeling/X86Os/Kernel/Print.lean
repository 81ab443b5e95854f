import X86Os.Kernel.Stdio

/-!
# The console

`lib/kernel/print.S`: the text screen of 25 lines of 80 cells, two bytes a cell, and the cursor, a
number of 16 bits that the display controller keeps. `put_char` reads the cursor, writes at most one
cell, and sets the cursor; the line after the last one is made by scrolling. The arithmetic is on
`bx`, and the cell is addressed by twice its value.

What a console is for is said by `Console`, a screen with the cursor on it, and `Console.step`.
`put_char` does the same, with one exception: a backspace with the cursor on the first cell. `dec
bx` makes 65535 of it, the address 65534 is outside the video segment, and the processor stops the
kernel.

The second half of the file is `put_int`, which fills a buffer of eight digits from the right, skips
the zeros in front and prints the rest.

## Main results

* `putChar_step`, `putChar_fault` — one character
* `console_stays_iff` — **when the output stays on the screen**
* `backspace_at_top` — a backspace that does not
* `hex_printers_agree` — **`put_int` and `itoa` print the same numeral**
-/

namespace X86Os.Print

open X86Os.Comp X86Os.Numeral X86Os.Stdio

/-! ### The code -/

/-- The video memory, by offset, the cursor, and the offsets of the bytes written so far. -/
structure Screen where
  text : Buf
  cursor : BitVec 16
  written : List ℕ

/-- `mov byte [gs:off], b`; the video segment has 32 KB. -/
def store (off : ℕ) (b : Byte) : Kern Screen Unit := do
  check (decide (off < 0x8000)) .wild
  modify fun s => { s with text := Function.update s.text off b, written := off :: s.written }

/-- `.set_cursor`. -/
def setCursor (bx : BitVec 16) : Kern Screen Unit := modify fun s => { s with cursor := bx }

/-- `movsd`, of the double word `i`, to the line before. -/
def movsd (i : ℕ) : Kern Screen Unit := modify fun s =>
  { s with
    text := s.text.splice (4 * i) (fun j => s.text (0xa0 + 4 * i + j)) 4
    written := [4 * i, 4 * i + 1, 4 * i + 2, 4 * i + 3] ++ s.written }

/-- `rep movsd`, from the double word `i` on. -/
def repMovsd : (ecx i : ℕ) → Kern Screen Unit
  | 0, _ => pure ()
  | ecx + 1, i => do
    movsd i
    repMovsd ecx (i + 1)

/-- `.cls`: `ecx` blank cells from the offset `ebx` on. -/
def cls : (ecx ebx : ℕ) → Kern Screen Unit
  | 0, _ => pure ()
  | ecx + 1, ebx => do
    store ebx 0x20
    store (ebx + 1) 0x07
    cls ecx (ebx + 2)

/-- `.roll_screen`. -/
def rollScreen : Kern Screen Unit := do
  repMovsd 960 0
  cls 80 3840
  setCursor 1920

/-- `.is_line_feed` and `.is_carriage_return`. -/
def lineFeed (bx : BitVec 16) : Kern Screen Unit :=
  let dx := bx % 80
  let bx := bx - dx + 80
  if bx.slt 2000 then setCursor bx else rollScreen

/-- `.is_backspace`. -/
def backspace (bx : BitVec 16) : Kern Screen Unit := do
  let bx := (bx - 1) <<< 1
  store bx.toNat 0x20
  let bx := bx + 1
  store bx.toNat 0x07
  setCursor (bx >>> 1)

/-- `.put_other`. -/
def putOther (bx : BitVec 16) (cl : Byte) : Kern Screen Unit := do
  let bx := bx <<< 1
  store bx.toNat cl
  let bx := bx + 1
  store bx.toNat 0x07
  let bx := bx >>> 1 + 1
  if bx.slt 2000 then setCursor bx else lineFeed bx

/-- `put_char`. -/
def putChar (cl : Byte) : Kern Screen Unit := do
  let s ← get
  let bx := s.cursor
  if cl = 0x0d then lineFeed bx
  else if cl = 0x0a then lineFeed bx
  else if cl = 0x08 then backspace bx
  else putOther bx cl

/-- `cls_screen`. -/
def clsScreen : Kern Screen Unit := do
  cls (80 * 25) 0
  setCursor 0

/-- The bytes printed one after the other. -/
def putAll : List Byte → Kern Screen Unit
  | [] => pure ()
  | b :: bytes => do
    putChar b
    putAll bytes

/-! ### What a console is for -/

/-- The byte of a blank cell. -/
def blank (k : ℕ) : Byte := if k % 2 = 0 then 0x20 else 0x07

/-- Cells made blank. -/
def clear (text : Buf) (lo hi : ℕ) : Buf := fun k =>
  if lo ≤ k ∧ k < hi then blank k else text k

/-- The screen scrolled by one line. -/
def scroll (text : Buf) : Buf :=
  clear (fun k => if k < 3840 then text (k + 160) else text k) 3840 4000

/-- One cell written. -/
def putCell (text : Buf) (cell : ℕ) (b : Byte) : Buf :=
  Function.update (Function.update text (2 * cell) b) (2 * cell + 1) 0x07

/-- A screen, with the cursor on it. -/
structure Console where
  text : Buf
  cursor : Fin 2000

namespace Console

/-- Move to a cell, or to the start of the last line if the cell is after the last one. -/
def moveTo (text : Buf) (cell : ℕ) : Console :=
  if h : cell < 2000 then ⟨text, ⟨cell, h⟩⟩ else ⟨scroll text, 1920⟩

/-- One character; there is nothing to delete before the first cell. -/
def step (c : Console) (b : Byte) : Option Console :=
  if b = 0x0d ∨ b = 0x0a then some (moveTo c.text (80 * (c.cursor / 80 + 1)))
  else if b = 0x08 then
    if c.cursor = 0 then none
    else some (moveTo (putCell c.text (c.cursor - 1) 0x20) (c.cursor - 1))
  else some (moveTo (putCell c.text c.cursor b) (c.cursor + 1))

end Console

/-! ### Loops -/

/-- The bytes written since `s` are before the offset `hi`. -/
def WroteBelow (hi : ℕ) (s s' : Screen) : Prop := ∀ o ∈ s'.written, o ∈ s.written ∨ o < hi

theorem WroteBelow.trans {hi : ℕ} {s1 s2 s3 : Screen} (h : WroteBelow hi s2 s3)
    (h' : WroteBelow hi s1 s2) : WroteBelow hi s1 s3 := fun o ho =>
  (h o ho).elim (h' o) .inr

section

variable {s : Screen} {E : Fault → Prop}

theorem wp_store {off : ℕ} {b : Byte} {Q : Unit → Screen → Prop} (h : off < 0x8000) :
    wp (store off b) Q E s ↔
      Q () { s with text := Function.update s.text off b, written := off :: s.written } := by
  simp [store, h]

theorem clear_update (text : Buf) {lo hi : ℕ} (hlo : lo % 2 = 0) (hhi : lo + 2 ≤ hi) :
    clear (Function.update (Function.update text lo 0x20) (lo + 1) 0x07) (lo + 2) hi =
      clear text lo hi := by
  funext k
  simp only [clear, blank, Function.update_apply]
  split_ifs <;> first | rfl | omega

theorem cls_wp (ecx ebx : ℕ) (hebx : ebx % 2 = 0) (hlim : ebx + 2 * ecx ≤ 0x8000) :
    wp (cls ecx ebx) (fun _ s' => s'.text = clear s.text ebx (ebx + 2 * ecx) ∧
      WroteBelow (ebx + 2 * ecx) s s') E s := by
  induction ecx generalizing ebx s with
  | zero =>
    refine ⟨?_, fun o ho => .inl ho⟩
    funext k
    exact (if_neg (by omega)).symm
  | succ ecx ih =>
    rw [cls, wp_bind, wp_store (by omega), wp_bind, wp_store (by omega)]
    refine (ih (ebx + 2) (by omega) (by omega)).mono ?_ fun _ h => h
    rintro - s' ⟨htext, hwrote⟩
    rw [show ebx + 2 + 2 * ecx = ebx + 2 * (ecx + 1) by omega] at htext hwrote
    refine ⟨htext.trans (clear_update s.text hebx (by omega)), hwrote.trans ?_⟩
    intro o ho
    simp only [List.mem_cons] at ho
    rcases ho with rfl | rfl | ho
    · exact .inr (by omega)
    · exact .inr (by omega)
    · exact .inl ho

theorem repMovsd_wp (ecx i : ℕ) :
    wp (repMovsd ecx i) (fun _ s' => s'.text = (fun k =>
        if 4 * i ≤ k ∧ k < 4 * (i + ecx) then s.text (k + 160) else s.text k) ∧
      WroteBelow (4 * (i + ecx)) s s') E s := by
  induction ecx generalizing i s with
  | zero =>
    refine ⟨?_, fun o ho => .inl ho⟩
    funext k
    exact (if_neg (by omega)).symm
  | succ ecx ih =>
    rw [repMovsd, wp_bind, movsd, wp_modify]
    refine (ih (i + 1)).mono ?_ fun _ h => h
    rintro - s' ⟨htext, hwrote⟩
    rw [show i + 1 + ecx = i + (ecx + 1) by omega] at htext hwrote
    refine ⟨htext.trans ?_, hwrote.trans ?_⟩
    · -- a double word is read before it is written over
      funext k
      simp only [Buf.splice]
      split_ifs <;> first | omega | rfl | (congr 1; omega)
    · intro o ho
      rcases List.mem_append.1 ho with ho | ho
      · simp only [List.mem_cons, List.not_mem_nil, or_false] at ho
        exact .inr (by omega)
      · exact .inl ho

end

-- the loops are not to be run
attribute [irreducible] repMovsd cls

section

variable {s : Screen} {E : Fault → Prop}

theorem rollScreen_wp :
    wp rollScreen (fun _ s' => s'.text = scroll s.text ∧ s'.cursor = 1920 ∧ WroteBelow 4000 s s')
      E s := by
  have hmove := repMovsd_wp (E := E) (s := s) 960 0
  rw [rollScreen, wp_bind]
  refine hmove.mono ?_ fun _ h => h
  rintro - s1 ⟨htext1, hwrote1⟩
  rw [wp_bind]
  refine (cls_wp 80 3840 (by decide) (by decide)).mono ?_ fun _ h => h
  rintro - s2 ⟨htext2, hwrote2⟩
  rw [setCursor, wp_modify]
  refine ⟨?_, rfl, hwrote2.trans fun o ho => (hwrote1 o ho).imp_right fun _ => by omega⟩
  rw [htext2, htext1, scroll]
  congr 1
  funext k
  simp

/-! ### One character -/

/-- The screen shows the console. -/
def Shows (s : Screen) (c : Console) : Prop := s.text = c.text ∧ s.cursor.toNat = c.cursor

theorem slt_2000 {bx : BitVec 16} (h : bx.toNat < 0x8000) :
    bx.slt 2000 = decide (bx.toNat < 2000) := by
  rw [BitVec.slt, BitVec.toInt_eq_toNat_of_lt (by omega)]
  simp

/-- A cell is addressed by twice its number. -/
theorem toNat_shl {bx : BitVec 16} (h : bx.toNat < 0x8000) : (bx <<< 1).toNat = 2 * bx.toNat := by
  rw [BitVec.toNat_shiftLeft, Nat.shiftLeft_eq]
  omega

theorem toNat_shl_add {bx : BitVec 16} (h : bx.toNat < 0x8000) :
    (bx <<< 1 + 1).toNat = 2 * bx.toNat + 1 := by
  rw [BitVec.toNat_add, toNat_shl h]
  simp
  omega

theorem shl_add_shr {bx : BitVec 16} (h : bx.toNat < 0x8000) : (bx <<< 1 + 1) >>> 1 = bx := by
  refine BitVec.eq_of_toNat_eq ?_
  rw [BitVec.toNat_ushiftRight, toNat_shl_add h, Nat.shiftRight_eq_div_pow]
  omega

theorem lineFeed_wp {bx : BitVec 16} (h : bx.toNat ≤ 2000) :
    wp (lineFeed bx) (fun _ s' => Shows s' (.moveTo s.text (80 * (bx.toNat / 80 + 1))) ∧
      WroteBelow 4000 s s') E s := by
  have hbx : (bx - bx % 80 + 80).toNat = 80 * (bx.toNat / 80 + 1) := by
    have hmod : (bx % 80).toNat = bx.toNat % 80 := BitVec.toNat_umod
    have hle : (bx % 80).toNat ≤ bx.toNat := by omega
    rw [BitVec.toNat_add, BitVec.toNat_sub_of_le hle, hmod]
    simp
    omega
  rw [lineFeed, slt_2000 (by omega), hbx, Console.moveTo]
  split_ifs with hlt hlt' hlt'
  · exact ⟨⟨rfl, hbx⟩, fun o ho => .inl ho⟩
  · simp at hlt; omega
  · simp at hlt; omega
  · refine rollScreen_wp.mono ?_ fun _ h => h
    rintro - s' ⟨htext, hcursor, hwrote⟩
    exact ⟨⟨htext, by rw [hcursor]; rfl⟩, hwrote⟩

/-- The two stores of a cell. -/
def Screen.putCell (s : Screen) (cell : ℕ) (b : Byte) : Screen :=
  { s with
    text := Print.putCell s.text cell b
    written := (2 * cell + 1) :: 2 * cell :: s.written }

theorem wroteBelow_putCell {cell : ℕ} (h : cell < 2000) (b : Byte) :
    WroteBelow 4000 s (s.putCell cell b) := by
  intro o ho
  rcases List.mem_cons.1 ho with rfl | ho
  · exact .inr (by omega)
  · rcases List.mem_cons.1 ho with rfl | ho
    · exact .inr (by omega)
    · exact .inl ho

theorem moveTo_of_lt {text : Buf} {cell : ℕ} (h : cell < 2000) :
    Console.moveTo text cell = ⟨text, ⟨cell, h⟩⟩ := dif_pos h

theorem moveTo_of_ge {text : Buf} {cell : ℕ} (h : 2000 ≤ cell) :
    Console.moveTo text cell = ⟨scroll text, 1920⟩ := dif_neg (by omega)

theorem putOther_wp {bx : BitVec 16} (h : bx.toNat < 2000) (b : Byte) :
    wp (putOther bx b) (fun _ s' =>
      Shows s' (.moveTo (putCell s.text bx.toNat b) (bx.toNat + 1)) ∧
        WroteBelow 4000 s s') E s := by
  have hbx : bx.toNat < 0x8000 := by omega
  have hnext : (bx + 1).toNat = bx.toNat + 1 := by
    rw [BitVec.toNat_add]
    simp
    omega
  rw [putOther]
  dsimp only
  rw [toNat_shl hbx, toNat_shl_add hbx, shl_add_shr hbx, wp_bind, wp_store (by omega), wp_bind,
    wp_store (by omega), slt_2000 (by omega), hnext]
  change wp _ _ E (s.putCell bx.toNat b)
  have hwrote : WroteBelow 4000 s (s.putCell bx.toNat b) := wroteBelow_putCell h b
  rcases Nat.lt_or_ge (bx.toNat + 1) 2000 with hlt | hge
  · rw [if_pos (decide_eq_true hlt), moveTo_of_lt hlt]
    exact ⟨⟨rfl, hnext⟩, hwrote⟩
  · rw [if_neg (by simpa using hge), moveTo_of_ge hge]
    have hle : (bx + 1).toNat ≤ 2000 := by omega
    refine (lineFeed_wp hle).mono ?_ fun _ h => h
    rintro - s' ⟨hshows, hwrote'⟩
    rw [moveTo_of_ge (by omega)] at hshows
    exact ⟨hshows, hwrote'.trans hwrote⟩

theorem backspace_wp {bx : BitVec 16} (h0 : bx ≠ 0) (h : bx.toNat < 2000) :
    wp (backspace bx) (fun _ s' =>
      Shows s' (.moveTo (putCell s.text (bx.toNat - 1) 0x20) (bx.toNat - 1)) ∧
        WroteBelow 4000 s s') E s := by
  have hpos : (1 : BitVec 16).toNat ≤ bx.toNat :=
    Nat.one_le_iff_ne_zero.2 fun hzero => h0 (BitVec.eq_of_toNat_eq hzero)
  have hprev : (bx - 1).toNat = bx.toNat - 1 := BitVec.toNat_sub_of_le hpos
  have hbx : (bx - 1).toNat < 0x8000 := by omega
  rw [backspace]
  dsimp only
  rw [toNat_shl hbx, toNat_shl_add hbx, shl_add_shr hbx, hprev, wp_bind, wp_store (by omega),
    wp_bind, wp_store (by omega), moveTo_of_lt (by omega)]
  exact ⟨⟨rfl, hprev⟩, wroteBelow_putCell (by omega) 0x20⟩

/-- **One character.** -/
theorem putChar_step {c c' : Console} {b : Byte} (hs : Shows s c) (hstep : c.step b = some c') :
    wp (putChar b) (fun _ s' => Shows s' c' ∧ WroteBelow 4000 s s') E s := by
  obtain ⟨htext, hcursor⟩ := hs
  have hlt := c.cursor.isLt
  have hline : c' = .moveTo s.text (80 * (s.cursor.toNat / 80 + 1)) →
      wp (lineFeed s.cursor) (fun _ s' => Shows s' c' ∧ WroteBelow 4000 s s') E s := by
    rintro rfl
    exact lineFeed_wp (by omega)
  rw [putChar, wp_bind, wp_get]
  rw [Console.step, ← htext, ← hcursor] at hstep
  split_ifs at hstep with hcr hbs hzero
  · obtain rfl := Option.some.inj hstep
    rcases hcr with rfl | rfl
    · exact hline rfl
    · exact hline rfl
  · obtain rfl := Option.some.inj hstep
    have hne : s.cursor ≠ 0 := fun h0 => hzero (Fin.ext (by rw [← hcursor, h0]; rfl))
    subst hbs
    rw [if_neg (by decide), if_neg (by decide), if_pos rfl]
    exact backspace_wp hne (by omega)
  · obtain rfl := Option.some.inj hstep
    rw [not_or] at hcr
    rw [if_neg hcr.1, if_neg hcr.2, if_neg hbs]
    exact putOther_wp (by omega) b

/-- **A backspace before the first cell.** -/
theorem putChar_fault (hs : s.cursor = 0) : putChar 0x08 s = .error .wild := by
  have hoff : ((0 - 1 : BitVec 16) <<< 1).toNat = 0xfffe := by decide
  rw [putChar, bind_apply, get_apply]
  dsimp only
  rw [hs, if_neg (by decide), if_neg (by decide), if_pos rfl, backspace]
  dsimp only
  rw [hoff]
  rfl

/-- It is the only character that a console does not take. -/
theorem step_eq_none {c : Console} {b : Byte} (h : c.step b = none) : b = 0x08 ∧ c.cursor = 0 := by
  rw [Console.step] at h
  split_ifs at h with hcr hbs hzero
  exact ⟨hbs, hzero⟩

theorem clsScreen_wp :
    wp clsScreen (fun _ s' => Shows s' ⟨clear s.text 0 4000, 0⟩ ∧ WroteBelow 4000 s s') E s := by
  rw [clsScreen, wp_bind]
  refine (cls_wp (80 * 25) 0 (by decide) (by decide)).mono ?_ fun _ h => h
  rintro - s' ⟨htext, hwrote⟩
  exact ⟨⟨htext, rfl⟩, hwrote⟩

end

/-! ### Runs -/

/-- The bytes printed on a screen that `cls_screen` has cleared. -/
def printed (text : Buf) (cursor : BitVec 16) (bytes : List Byte) : Except Fault (Unit × Screen) :=
  (do clsScreen; putAll bytes : Kern Screen Unit) ⟨text, cursor, []⟩

/-- The cursor is on the screen, and nothing has been written outside it. -/
def OnScreen (s : Screen) : Prop := s.cursor.toNat < 2000 ∧ ∀ o ∈ s.written, o < 4000

/-- What a character other than a backspace does. -/
def Moves (s : Screen) (b : Byte) (s' : Screen) : Prop :=
  (b = 0x0d ∨ b = 0x0a → Shows s' (.moveTo s.text (80 * (s.cursor.toNat / 80 + 1)))) ∧
  (b ≠ 0x0d → b ≠ 0x0a → b ≠ 0x08 →
    Shows s' (.moveTo (putCell s.text s.cursor.toNat b) (s.cursor.toNat + 1)))

/-- **The output stays on the screen**, and every character does what it should. -/
def Stays (text : Buf) (cursor : BitVec 16) (bytes : List Byte) : Prop :=
  ∀ pre, pre <+: bytes → ∃ s, printed text cursor pre = .ok ((), s) ∧ OnScreen s ∧
    ∀ b, pre ++ [b] <+: bytes →
      ∃ s', printed text cursor (pre ++ [b]) = .ok ((), s') ∧ Moves s b s'

/-- No backspace comes with the cursor on the first cell. -/
def NoBackspaceAtTop (text : Buf) (cursor : BitVec 16) (bytes : List Byte) : Prop :=
  ∀ pre s, pre ++ [0x08] <+: bytes → printed text cursor pre = .ok ((), s) → s.cursor ≠ 0

section

variable {text : Buf} {cursor : BitVec 16} {bytes pre : List Byte} {b : Byte} {s : Screen}

theorem putAll_concat (pre : List Byte) (b : Byte) (s : Screen) :
    putAll (pre ++ [b]) s = (putAll pre >>= fun _ => putChar b) s := by
  induction pre generalizing s with
  | nil =>
    change (putChar b >>= fun _ => pure ()) s = putChar b s
    rw [bind_apply]
    cases putChar b s with
    | ok r => rfl
    | error e => rfl
  | cons c pre ih =>
    change (putChar c >>= fun _ => putAll (pre ++ [b])) s =
      ((putChar c >>= fun _ => putAll pre) >>= fun _ => putChar b) s
    rw [bind_bind, bind_apply, bind_apply]
    cases putChar c s with
    | ok r => exact ih r.2
    | error e => rfl

theorem printed_concat (h : printed text cursor pre = .ok ((), s)) :
    printed text cursor (pre ++ [b]) = putChar b s := by
  rw [printed, bind_apply] at h ⊢
  cases hcls : clsScreen ⟨text, cursor, []⟩ with
  | error e => rw [hcls] at h; cases h
  | ok r =>
    rw [hcls] at h
    exact (putAll_concat pre b r.2).trans (bind_of_ok h)

theorem printed_nil (text : Buf) (cursor : BitVec 16) :
    ∃ s, printed text cursor [] = .ok ((), s) ∧ Shows s ⟨clear text 0 4000, 0⟩ ∧
      ∀ o ∈ s.written, o < 4000 := by
  obtain ⟨u, s, hrun, hs, hwrote⟩ :=
    (clsScreen_wp (E := fun _ => False) (s := ⟨text, cursor, []⟩)).returns
  refine ⟨s, ?_, hs, fun o ho => (hwrote o ho).elim (absurd · List.not_mem_nil) id⟩
  exact bind_of_ok hrun

theorem Shows.moves {c c' : Console} {s' : Screen} (hs : Shows s c) (hstep : c.step b = some c')
    (hs' : Shows s' c') : Moves s b s' := by
  obtain ⟨htext, hcursor⟩ := hs
  rw [Console.step, ← htext, ← hcursor] at hstep
  refine ⟨fun hcr => ?_, fun hcr hlf hbs => ?_⟩
  · rw [if_pos hcr] at hstep
    rwa [Option.some.inj hstep]
  · rw [if_neg (not_or.2 ⟨hcr, hlf⟩), if_neg hbs] at hstep
    rwa [Option.some.inj hstep]

/-- One more byte, if it is not a backspace at the top. -/
theorem printed_step {c : Console} (hok : printed text cursor pre = .ok ((), s)) (hs : Shows s c)
    (hw : ∀ o ∈ s.written, o < 4000) (hb : b = 0x08 → s.cursor ≠ 0) :
    ∃ s' c', printed text cursor (pre ++ [b]) = .ok ((), s') ∧ c.step b = some c' ∧ Shows s' c' ∧
      ∀ o ∈ s'.written, o < 4000 := by
  cases hstep : c.step b with
  | none =>
    obtain ⟨rfl, hzero⟩ := step_eq_none hstep
    refine absurd (BitVec.eq_of_toNat_eq ?_) (hb rfl)
    rw [hs.2, hzero]
    rfl
  | some c' =>
    obtain ⟨u, s', hrun, hs', hwrote⟩ := (putChar_step hs hstep).returns
    exact ⟨s', c', (printed_concat hok).trans hrun, rfl, hs', fun o ho =>
      (hwrote o ho).elim (hw o) id⟩

theorem printed_ok (h : NoBackspaceAtTop text cursor bytes) (hpre : pre <+: bytes) :
    ∃ s c, printed text cursor pre = .ok ((), s) ∧ Shows s c ∧ ∀ o ∈ s.written, o < 4000 := by
  induction pre using List.reverseRecOn with
  | nil =>
    obtain ⟨s, hok, hs, hw⟩ := printed_nil text cursor
    exact ⟨s, _, hok, hs, hw⟩
  | append_singleton pre b ih =>
    obtain ⟨s, c, hok, hs, hw⟩ := ih ((List.prefix_append pre [b]).trans hpre)
    obtain ⟨s', c', hok', -, hs', hw'⟩ := printed_step hok hs hw fun hb => h pre s (hb ▸ hpre) hok
    exact ⟨s', c', hok', hs', hw'⟩

end

/-- **When the output stays on the screen.** -/
theorem console_stays_iff (text : Buf) (cursor : BitVec 16) (bytes : List Byte) :
    Stays text cursor bytes ↔ NoBackspaceAtTop text cursor bytes := by
  constructor
  · intro hstays pre s hpre hok hzero
    obtain ⟨s', hok', -⟩ := hstays _ hpre
    rw [printed_concat hok, putChar_fault hzero] at hok'
    cases hok'
  · intro h pre hpre
    obtain ⟨s, c, hok, hs, hw⟩ := printed_ok h hpre
    refine ⟨s, hok, ⟨hs.2 ▸ c.cursor.isLt, hw⟩, fun b hb => ?_⟩
    obtain ⟨s', c', hok', hstep, hs', -⟩ := printed_step hok hs hw fun he => h pre s (he ▸ hb) hok
    exact ⟨s', hok', hs.moves hstep hs'⟩

/-- **A backspace on an empty screen** stops the kernel. -/
theorem backspace_at_top : printed (fun _ => 0) 0 [0x08] = .error .wild ∧
    ¬ Stays (fun _ => 0) 0 [0x08] := by
  obtain ⟨s, hok, hs, -⟩ := printed_nil (fun _ => 0) 0
  have hfault : printed (fun _ => 0) 0 [0x08] = .error .wild :=
    (printed_concat hok).trans (putChar_fault (BitVec.eq_of_toNat_eq hs.2))
  refine ⟨hfault, fun hstays => ?_⟩
  obtain ⟨s', hok', -⟩ := hstays _ (List.prefix_refl _)
  rw [hfault] at hok'
  cases hok'

/-! ### Numbers -/

/-- The memory at `put_int_buffer`, by offset, and the characters passed to `put_char` so far. -/
structure IntState where
  putIntBuffer : ℤ → Byte
  sent : List Byte

/-- The character of the lowest four bits. -/
def hexChar (edx : Word) : Byte :=
  let edx := edx &&& 0x0000000f
  if (9 : Word).slt edx then (edx - 10 + 0x41).setWidth 8 else (edx + 0x30).setWidth 8

/-- `.16based_4bits`, `ecx` times; what `edi` is afterwards. -/
def based16 : (ecx : ℕ) → (eax : Word) → (edi : ℤ) → Kern IntState ℤ
  | 0, _, edi => pure edi
  | ecx + 1, eax, edi => do
    modify fun s => { s with putIntBuffer := Function.update s.putIntBuffer edi (hexChar eax) }
    based16 ecx (eax >>> 4) (edi - 1)

/-- `.skip_prefix_0`: `edi` and the character in `cl` when it is left. -/
def skipPrefix0 : (fuel : ℕ) → (edi : ℤ) → Kern IntState (ℤ × Byte)
  | 0, _ => stop .hang
  | fuel + 1, edi =>
    if edi = 8 then pure (edi, 0x30)
    else do
      let s ← get
      let cl := s.putIntBuffer edi
      let edi := edi + 1
      if cl = 0x30 then skipPrefix0 fuel edi else pure (edi - 1, cl)

/-- `.put_each_num`. -/
def putEachNum : (fuel : ℕ) → (edi : ℤ) → (cl : Byte) → Kern IntState Unit
  | 0, _, _ => stop .hang
  | fuel + 1, edi, cl => do
    modify fun s => { s with sent := s.sent ++ [cl] }
    let edi := edi + 1
    let s ← get
    let cl := s.putIntBuffer edi
    if edi < 8 then putEachNum fuel edi cl else pure ()

/-- `put_int`. No loop is run more than nine times. -/
def putInt (value : Word) : Kern IntState Unit := do
  let edi ← based16 8 value 7
  let (edi, cl) ← skipPrefix0 9 (edi + 1)
  putEachNum 9 edi cl

section

variable {v n : ℕ} {s : IntState}

theorem hexChar_eq (edx : Word) : hexChar edx = digitChar (edx.toNat % 16) := by
  have hmask : edx &&& 0x0000000f = BitVec.ofNat 32 (edx.toNat % 16) := by
    refine BitVec.eq_of_toNat_eq ?_
    rw [BitVec.toNat_and, BitVec.toNat_ofNat, Nat.mod_eq_of_lt (b := 2 ^ 32) (by omega)]
    exact Nat.and_two_pow_sub_one_eq_mod _ 4
  have hall : ∀ m < 16, (if (9 : Word).slt (BitVec.ofNat 32 m) then
      (BitVec.ofNat 32 m - 10 + 0x41 : Word).setWidth 8
      else (BitVec.ofNat 32 m + 0x30 : Word).setWidth 8) = digitChar m := by decide
  rw [hexChar, hmask]
  exact hall _ (Nat.mod_lt _ (by decide))

/-- The digits of `v` are in the buffer. -/
def Filled (s : IntState) (v : ℕ) : Prop :=
  ∀ n : ℕ, n < 8 → s.putIntBuffer (7 - n) = digitChar (v / 16 ^ n % 16)

/-- **The buffer is filled from the right.** -/
theorem based16_eq (ecx : ℕ) (eax : Word) (edi : ℤ) (s : IntState) :
    ∃ s', based16 ecx eax edi s = .ok (edi - ecx, s') ∧
      (∀ j : ℕ, j < ecx → s'.putIntBuffer (edi - j) = digitChar (eax.toNat / 16 ^ j % 16)) ∧
      (∀ i, edi < i → s'.putIntBuffer i = s.putIntBuffer i) ∧ s'.sent = s.sent := by
  induction ecx generalizing eax edi s with
  | zero => exact ⟨s, by simp [based16], nofun, fun _ _ => rfl, rfl⟩
  | succ ecx ih =>
    obtain ⟨s', hrun, hdigits, hrest, hsent⟩ := ih (eax >>> 4) (edi - 1)
      { s with putIntBuffer := Function.update s.putIntBuffer edi (hexChar eax) }
    have hshift : (eax >>> 4).toNat = eax.toNat / 16 := by
      rw [BitVec.toNat_ushiftRight, Nat.shiftRight_eq_div_pow]
    refine ⟨s', ?_, fun j hj => ?_, fun i hi => ?_, hsent⟩
    · rw [show edi - ((ecx + 1 : ℕ) : ℤ) = edi - 1 - ecx by push_cast; ring]
      exact hrun
    · cases j with
      | zero =>
        rw [Nat.cast_zero, sub_zero, hrest edi (by omega), pow_zero, Nat.div_one, ← hexChar_eq]
        exact Function.update_self _ _ _
      | succ j =>
        rw [show edi - ((j + 1 : ℕ) : ℤ) = edi - 1 - j by push_cast; ring,
          hdigits j (by omega), hshift, Nat.div_div_eq_div_mul, ← pow_succ']
    · rw [hrest i (by omega)]
      exact Function.update_of_ne (by omega) _ _

/-- One round of the search for the first digit. -/
theorem skipPrefix0_round (h : Filled s v) (hn : n < 8) :
    skipPrefix0 (n + 1 + 1) (8 - (n + 1 : ℕ)) s = if v / 16 ^ n % 16 = 0 then
      skipPrefix0 (n + 1) (8 - n) s else .ok ((7 - n, digitChar (v / 16 ^ n % 16)), s) := by
  have hedi : (8 : ℤ) - ((n + 1 : ℕ) : ℤ) = 7 - n := by push_cast; ring
  rw [skipPrefix0, hedi, if_neg (by omega), bind_apply, get_apply]
  dsimp only
  rw [h n hn, show (7 : ℤ) - n + 1 = 8 - n by ring, show (8 : ℤ) - n - 1 = 7 - n by ring]
  have hchar : digitChar (v / 16 ^ n % 16) = 0x30 ↔ v / 16 ^ n % 16 = 0 :=
    ⟨digitChar_eq_zero _ (Nat.mod_lt _ (by decide)), fun h0 => by rw [h0]; rfl⟩
  by_cases h0 : v / 16 ^ n % 16 = 0
  · rw [if_pos (hchar.2 h0), if_pos h0]
  · rw [if_neg (mt hchar.1 h0), if_neg h0]
    rfl

theorem skipPrefix0_eq (h : Filled s v) (hn : n ≤ 8) (hv : v < 16 ^ n) (h0 : v ≠ 0) :
    ∃ m < n, 16 ^ m ≤ v ∧ v < 16 ^ (m + 1) ∧
      skipPrefix0 (n + 1) (8 - n) s = .ok ((7 - m, digitChar (v / 16 ^ m % 16)), s) := by
  induction n with
  | zero =>
    rw [pow_zero] at hv
    omega
  | succ n ih =>
    have hmod : v / 16 ^ n % 16 = v / 16 ^ n :=
      Nat.mod_eq_of_lt (Nat.div_lt_of_lt_mul (by rwa [← pow_succ]))
    rw [skipPrefix0_round h (by omega)]
    by_cases hzero : v / 16 ^ n % 16 = 0
    · rw [hmod, Nat.div_eq_zero_iff] at hzero
      have hlt : v < 16 ^ n := hzero.resolve_left (by positivity)
      obtain ⟨m, hm, hrest⟩ := ih (by omega) hlt
      rw [if_pos (hmod.trans (Nat.div_eq_of_lt hlt))]
      exact ⟨m, by omega, hrest⟩
    · rw [if_neg hzero]
      refine ⟨n, Nat.lt_succ_self n, ?_, hv, rfl⟩
      by_contra hlt
      exact hzero (hmod.trans (Nat.div_eq_of_lt (by omega)))

theorem skipPrefix0_zero (h : Filled s 0) (hn : n ≤ 8) :
    skipPrefix0 (n + 1) (8 - n) s = .ok ((8, 0x30), s) := by
  induction n with
  | zero => rfl
  | succ n ih =>
    rw [skipPrefix0_round h (by omega), Nat.zero_div, if_pos rfl]
    exact ih (by omega)

theorem putEachNum_eq {fuel : ℕ} (h : Filled s v) (hn : n < 8) (hfuel : n < fuel) :
    putEachNum fuel (7 - n) (digitChar (v / 16 ^ n % 16)) s =
      .ok ((), { s with sent := s.sent ++ lastDigits digitChar 16 (n + 1) v }) := by
  obtain ⟨fuel, rfl⟩ : ∃ k, fuel = k + 1 := ⟨fuel - 1, by omega⟩
  induction n generalizing fuel s with
  | zero =>
    rw [putEachNum, bind_apply, modify_apply]
    dsimp only
    rw [bind_apply, get_apply]
    dsimp only
    rw [if_neg (by norm_num)]
    rfl
  | succ n ih =>
    obtain ⟨fuel, rfl⟩ : ∃ k, fuel = k + 1 := ⟨fuel - 1, by omega⟩
    rw [putEachNum, bind_apply, modify_apply]
    dsimp only
    rw [bind_apply, get_apply]
    dsimp only
    have hedi : (7 : ℤ) - ((n + 1 : ℕ) : ℤ) + 1 = 7 - n := by push_cast; ring
    have hsend := ih (s := { s with
      sent := s.sent ++ [digitChar (v / 16 ^ (n + 1) % 16)] }) h (by omega) fuel (by omega)
    rw [List.append_assoc, List.singleton_append] at hsend
    rw [hedi, if_pos (by omega), h n (by omega)]
    exact hsend

end

/-- What a digit is worth. -/
def digitVal (c : Byte) : ℕ := if c.toNat < 0x41 then c.toNat - 0x30 else c.toNat - 0x41 + 10

/-- **`put_int` and `itoa` print the same numeral**, and `itoa` prints the numeral in any base. -/
theorem hex_printers_agree (v : Word) :
    (∀ s, ∃ s', putInt v s = .ok ((), s') ∧
      s'.sent = s.sent ++ numeral digitChar 16 v.toNat) ∧
    ∀ base, 2 ≤ base → base ≤ 16 →
      (∀ o, itoa v base o = .ok ((), o.append (numeral digitChar base v.toNat))) ∧
      Canonical digitChar base (numeral digitChar base v.toNat) ∧
      value digitVal base (numeral digitChar base v.toNat) = v.toNat := by
  have hval : ∀ d < 16, digitVal (digitChar d) = d := by decide
  refine ⟨fun s => ?_, fun base hb hb' => ⟨itoa_eq v hb, canonical_digitChar hb hb' _,
    value_numeral digitChar hb (fun d hd => hval d (by omega)) _⟩⟩
  obtain ⟨s', hrun, hfilled, -, hsent⟩ := based16_eq 8 v 7 s
  have hedi : (7 : ℤ) - ((8 : ℕ) : ℤ) + 1 = 8 - ((8 : ℕ) : ℤ) := by ring
  rw [putInt, bind_of_ok hrun, hedi, ← hsent]
  by_cases h0 : v.toNat = 0
  · have hskip := skipPrefix0_zero (n := 8) (h0 ▸ hfilled) (by decide)
    rw [bind_of_ok hskip, h0, numeral_of_lt digitChar (by decide)]
    exact ⟨_, rfl, rfl⟩
  · obtain ⟨m, hm, hle, hlt, hskip⟩ := skipPrefix0_eq (n := 8) hfilled (by decide) v.isLt h0
    rw [bind_of_ok hskip, numeral_eq_lastDigits digitChar (by decide) hle hlt]
    exact ⟨_, putEachNum_eq hfilled hm (by omega), rfl⟩

/-- The number `0xff`. -/
theorem hex_printers_agree_ff :
    (∃ s', putInt 0xff ⟨fun _ => 0, []⟩ = .ok ((), s') ∧ s'.sent = numeral digitChar 16 0xff) ∧
    itoa 0xff 10 ⟨fun _ => 0, 0⟩ =
      .ok ((), OutBuf.append ⟨fun _ => 0, 0⟩ (numeral digitChar 10 0xff)) := by
  obtain ⟨hput, hitoa⟩ := hex_printers_agree 0xff
  exact ⟨hput ⟨fun _ => 0, []⟩, (hitoa 10 (by decide) (by decide)).1 ⟨fun _ => 0, 0⟩⟩

end X86Os.Print
