import X86Os.Kernel.Debug
import X86Os.Lib.CStr
import X86Os.Lib.Numeral

/-!
# Formatted output

`itoa` and `vsprintf` of `lib/stdio.c`, and the two routines of `lib/string.c` that they end in.

`vsprintf` stores characters in three ways: an ordinary character and the digits of a number are
stored one by one, and a string is copied with its terminator, over which the next directive
writes. What nobody writes is a terminator at the end. If the last thing in the format is a `%s` its
terminator stays; otherwise the result is a string only if the buffer held a zero there before, and
`strlen`, which computes the value returned, runs on into what the buffer held.
-/

namespace X86Os.Stdio

open X86Os.Comp X86Os.Numeral

/-! ### The code -/

/-- The destination and the place of the next character. -/
structure OutBuf where
  str : Buf
  bufPtr : ℕ

/-- `*(buf_ptr++) = c`. -/
def putc (c : Byte) : Kern OutBuf Unit :=
  modify fun o => ⟨Function.update o.str o.bufPtr c, o.bufPtr + 1⟩

/-- The character of a digit. -/
def digitChar (m : ℕ) : Byte :=
  if m < 10 then BitVec.ofNat 8 (m + 0x30) else BitVec.ofNat 8 (m - 10 + 0x41)

/-- `itoa`, to a depth of `fuel` calls. -/
def itoaRec (base : ℕ) : (fuel : ℕ) → (value : ℕ) → Kern OutBuf Unit
  | 0, _ => stop .hang
  | fuel + 1, value => do
    check (base != 0) .wild
    let m := value % base
    let i := value / base
    if i ≠ 0 then itoaRec base fuel i
    putc (digitChar m)

/-- `itoa`. A number of 32 bits has at most 32 digits, so that this depth is not reached, unless the
base is 1, in which the calls have no end. -/
def itoa (value : Word) (base : ℕ) : Kern OutBuf Unit := itoaRec base 33 value.toNat

/-- `strcpy(buf_ptr, arg_str)`; the pointer stays. -/
def strcpy (argStr : List Byte) : Kern OutBuf Unit :=
  modify fun o => { o with str := go o.str o.bufPtr argStr }
where
  /-- The loop, up to and with the terminator. -/
  go (dst : Buf) (i : ℕ) : List Byte → Buf
    | [] => Function.update dst i 0
    | c :: s => go (Function.update dst i c) (i + 1) s

/-- `strlen`, the loop of which is at `p`. -/
def strlenFrom : (fuel : ℕ) → (p : ℕ) → Kern OutBuf ℕ
  | 0, _ => stop .hang
  | fuel + 1, p => do
    let o ← get
    if o.str p = 0 then pure p else strlenFrom fuel (p + 1)

/-- What a `va_list` points to: a string, without its terminator, or a word. -/
inductive Arg
  | str (s : List Byte)
  | word (w : Word)

/-- `va_arg(ap, char*)`. -/
def argStr : List Arg → Kern OutBuf (List Byte × List Arg)
  | .str s :: ap => pure (s, ap)
  | _ => stop .wild

/-- `va_arg(ap, int)`. -/
def argInt : List Arg → Kern OutBuf (Word × List Arg)
  | .word w :: ap => pure (w, ap)
  | _ => stop .wild

/-- The `case 'd'` of `vsprintf`. -/
def putDec (argInt : Word) : Kern OutBuf Unit :=
  if argInt.slt 0 then do
    putc 0x2d
    itoa (0 - argInt) 10
  else itoa argInt 10

/-- The loop of `vsprintf`; what is left of the format starts with `index_char`. -/
def vsprintfLoop : (format : List Byte) → (ap : List Arg) → Kern OutBuf Unit
  | [], _ => pure ()
  | [c], _ =>
    -- a `%` at the end has nothing after it
    if c ≠ 0x25 then putc c else pure ()
  | c :: d :: format, ap =>
    if c ≠ 0x25 then do
      putc c
      vsprintfLoop (d :: format) ap
    else if d = 0x73 then do
      let (s, ap) ← argStr ap
      strcpy s
      modify fun o => { o with bufPtr := o.bufPtr + s.length }
      vsprintfLoop format ap
    else if d = 0x63 then do
      let (w, ap) ← argInt ap
      putc (w.setWidth 8)
      vsprintfLoop format ap
    else if d = 0x64 then do
      let (w, ap) ← argInt ap
      putDec w
      vsprintfLoop format ap
    else if d = 0x78 then do
      let (w, ap) ← argInt ap
      itoa w 16
      vsprintfLoop format ap
    else
      -- no case of the `switch`: the character is the next one of the loop
      vsprintfLoop (d :: format) ap

/-- `vsprintf`. -/
def vsprintf (fuel : ℕ) (format : List Byte) (ap : List Arg) : Kern OutBuf ℕ := do
  modify fun o => { o with bufPtr := 0 }
  vsprintfLoop format ap
  strlenFrom fuel 0

/-! ### Appending -/

/-- Append a row of characters. -/
def OutBuf.append (o : OutBuf) (s : List Byte) : OutBuf :=
  ⟨o.str.put o.bufPtr s, o.bufPtr + s.length⟩

theorem OutBuf.append_append (o : OutBuf) (s t : List Byte) :
    (o.append s).append t = o.append (s ++ t) := by
  rw [append, append, append, Buf.put_append, List.length_append, Nat.add_assoc]

theorem putc_eq (c : Byte) (o : OutBuf) : putc c o = .ok ((), o.append [c]) := by
  rw [OutBuf.append, Buf.put_singleton]
  rfl

theorem strcpy_go (dst : Buf) (i : ℕ) (s : List Byte) :
    strcpy.go dst i s = dst.put i (s ++ [0]) := by
  induction s generalizing dst i with
  | nil => rw [strcpy.go, List.nil_append, Buf.put_singleton]
  | cons c s ih => rw [strcpy.go, ih, List.cons_append, ← Buf.put_cons]

/-- **`itoa` appends the numeral.** -/
theorem itoaRec_eq {base : ℕ} (hb : 2 ≤ base) (fuel : ℕ) {value : ℕ} (hv : value < base ^ fuel)
    (o : OutBuf) :
    itoaRec base (fuel + 1) value o = .ok ((), o.append (numeral digitChar base value)) := by
  have hbase : (base != 0) = true := by simp; omega
  induction fuel generalizing value o with
  | zero =>
    have hv : value = 0 := by simpa using hv
    subst hv
    rw [itoaRec, bind_of_ok (check_of_true _ _ hbase), numeral_of_lt digitChar (by omega)]
    dsimp only
    rw [if_neg (not_not.2 (Nat.zero_div base)), Nat.zero_mod]
    exact putc_eq _ o
  | succ fuel ih =>
    rw [itoaRec, bind_of_ok (check_of_true _ _ hbase)]
    dsimp only
    rcases Nat.lt_or_ge value base with hlt | hge
    · rw [if_neg (not_not.2 (Nat.div_eq_of_lt hlt)), Nat.mod_eq_of_lt hlt,
        numeral_of_lt digitChar hlt]
      exact putc_eq _ o
    · have hq : value / base < base ^ fuel := Nat.div_lt_of_lt_mul (by rwa [← pow_succ'])
      rw [if_pos (Nat.div_pos hge (by omega)).ne', bind_of_ok (ih hq o), putc_eq,
        OutBuf.append_append, numeral_of_le digitChar hb hge]

theorem itoa_eq (value : Word) {base : ℕ} (hb : 2 ≤ base) (o : OutBuf) :
    itoa value base o = .ok ((), o.append (numeral digitChar base value.toNat)) := by
  refine itoaRec_eq hb 32 (value.isLt.trans_le ?_) o
  exact Nat.pow_le_pow_left hb 32

/-! ### Formats and what they stand for -/

/-- A piece of a format with the argument that it takes. -/
inductive Item
  /-- An ordinary character. -/
  | plain (c : { c : Byte // c ≠ 0 ∧ c ≠ 0x25 })
  /-- `%s`, and a string. -/
  | str (s : { s : List Byte // ∀ c ∈ s, c ≠ 0 })
  /-- `%c`, and a word with a character in its lowest byte. -/
  | chr (w : { w : Word // w.setWidth 8 ≠ (0 : Byte) })
  /-- `%d`. -/
  | dec (w : Word)
  /-- `%x`. -/
  | hex (w : Word)

/-- The decimal numeral of an integer. -/
def signed (z : ℤ) : List Byte :=
  if z < 0 then 0x2d :: numeral digitChar 10 z.natAbs else numeral digitChar 10 z.natAbs

namespace Item

/-- The piece of the format. -/
def format : Item → List Byte
  | plain c => [c]
  | str _ => [0x25, 0x73]
  | chr _ => [0x25, 0x63]
  | dec _ => [0x25, 0x64]
  | hex _ => [0x25, 0x78]

/-- The argument. -/
def args : Item → List Arg
  | plain _ => []
  | str s => [.str s]
  | chr w => [.word w]
  | dec w => [.word w]
  | hex w => [.word w]

/-- What is to be printed. -/
def render : Item → List Byte
  | plain c => [c]
  | str s => s
  | chr w => [w.1.setWidth 8]
  | dec w => signed w.toInt
  | hex w => numeral digitChar 16 w.toNat

/-- The terminator that is stored with it. -/
def nul : Item → List Byte
  | str _ => [0]
  | plain _ | chr _ | dec _ | hex _ => []

/-- What the piece does to the buffer. -/
def step (i : Item) (o : OutBuf) : OutBuf :=
  ⟨o.str.put o.bufPtr (i.render ++ i.nul), o.bufPtr + i.render.length⟩

end Item

/-- The format string. -/
def format (items : List Item) : List Byte := items.flatMap Item.format

/-- Its arguments. -/
def args (items : List Item) : List Arg := items.flatMap Item.args

/-- **The rendering.** -/
def render (items : List Item) : List Byte := items.flatMap Item.render

/-- The terminator that is left at the end. -/
def endNul (items : List Item) : List Byte := (items.getLast?.map Item.nul).getD []

theorem vsprintfLoop_plain {c : Byte} (hc : c ≠ 0x25) (f : List Byte) (ap : List Arg)
    (o : OutBuf) : vsprintfLoop (c :: f) ap o = vsprintfLoop f ap (o.append [c]) := by
  cases f with
  | nil =>
    change (if c ≠ 0x25 then putc c else pure ()) o = _
    rw [if_pos hc, putc_eq]
    rfl
  | cons d f => rw [vsprintfLoop, if_pos hc, bind_of_ok (putc_eq c o)]

theorem putDec_eq (w : Word) (o : OutBuf) : putDec w o = .ok ((), o.append (signed w.toInt)) := by
  have hslt : w.slt 0 = decide (w.toInt < 0) := rfl
  rw [putDec, hslt, signed]
  by_cases hneg : w.toInt < 0
  · have habs : (0 - w).toNat = w.toInt.natAbs := by
      rw [BitVec.toInt_eq_toNat_cond] at hneg ⊢
      rw [BitVec.toNat_sub]
      have := w.isLt
      split_ifs at hneg ⊢ <;> simp <;> omega
    rw [if_pos (decide_eq_true hneg), if_pos hneg, bind_of_ok (putc_eq _ o),
      itoa_eq _ (by decide), OutBuf.append_append, habs]
    rfl
  · have habs : w.toNat = w.toInt.natAbs := by
      rw [BitVec.toInt_eq_toNat_cond] at hneg ⊢
      have := w.isLt
      split_ifs at hneg ⊢ <;> omega
    rw [if_neg (by simpa using hneg), if_neg hneg, itoa_eq _ (by decide), habs]

/-- **One piece.** -/
theorem vsprintfLoop_item (i : Item) (f : List Byte) (ap : List Arg) (o : OutBuf) :
    vsprintfLoop (i.format ++ f) (i.args ++ ap) o = vsprintfLoop f ap (i.step o) := by
  cases i with
  | plain c => exact vsprintfLoop_plain c.2.2 f ap o
  | str s =>
    change vsprintfLoop (0x25 :: 0x73 :: f) (.str s.1 :: ap) o = _
    rw [vsprintfLoop, if_neg (by decide), if_pos rfl, Item.step, Item.nul, ← strcpy_go]
    rfl
  | chr w =>
    change vsprintfLoop (0x25 :: 0x63 :: f) (.word w.1 :: ap) o = _
    rw [vsprintfLoop, if_neg (by decide), if_neg (by decide), if_pos rfl, Item.step, Item.nul,
      List.append_nil]
    change (putc (w.1.setWidth 8) >>= fun _ => vsprintfLoop f ap) o = _
    rw [bind_of_ok (putc_eq _ o)]
    rfl
  | dec w =>
    change vsprintfLoop (0x25 :: 0x64 :: f) (.word w :: ap) o = _
    rw [vsprintfLoop, if_neg (by decide), if_neg (by decide), if_neg (by decide), if_pos rfl,
      Item.step, Item.nul, List.append_nil]
    change (putDec w >>= fun _ => vsprintfLoop f ap) o = _
    rw [bind_of_ok (putDec_eq w o)]
    rfl
  | hex w =>
    change vsprintfLoop (0x25 :: 0x78 :: f) (.word w :: ap) o = _
    rw [vsprintfLoop, if_neg (by decide), if_neg (by decide), if_neg (by decide),
      if_neg (by decide), if_pos rfl, Item.step, Item.nul, List.append_nil]
    change (itoa w 16 >>= fun _ => vsprintfLoop f ap) o = _
    rw [bind_of_ok (itoa_eq w (by decide) o)]
    rfl

theorem Item.nul_cases (i : Item) : i.nul = [] ∨ i.nul = [0] := by
  cases i with
  | str s => exact .inr rfl
  | plain _ | chr _ | dec _ | hex _ => exact .inl rfl

theorem Item.stores (i : Item) : i.render ++ i.nul ≠ [] := by
  have hnum : ∀ {base} v, 2 ≤ base → numeral digitChar base v ≠ [] := fun v hb =>
    numeral_ne_nil digitChar hb v
  cases i with
  | plain c => simp [render]
  | str s => simp [nul]
  | chr w => simp [render]
  | dec w =>
    rw [render, signed]
    split <;> simp [hnum]
  | hex w => simp [render, hnum]

theorem endNul_cons_cons (i j : Item) (items : List Item) :
    endNul (i :: j :: items) = endNul (j :: items) := by
  rw [endNul, endNul, List.getLast?_cons_cons]

theorem render_cons (i : Item) (items : List Item) :
    render (i :: items) = i.render ++ render items := List.flatMap_cons

theorem stores (i : Item) (items : List Item) :
    render (i :: items) ++ endNul (i :: items) ≠ [] := by
  induction items generalizing i with
  | nil =>
    rw [render_cons, render, List.flatMap_nil, List.append_nil]
    exact i.stores
  | cons j items ih =>
    rw [render_cons, endNul_cons_cons, List.append_assoc]
    exact List.append_ne_nil_of_right_ne_nil _ (ih j)

/-- **What the loop leaves in the buffer.** -/
theorem vsprintfLoop_eq (items : List Item) (o : OutBuf) :
    vsprintfLoop (format items) (args items) o = .ok ((),
      ⟨o.str.put o.bufPtr (render items ++ endNul items),
        o.bufPtr + (render items).length⟩) := by
  induction items generalizing o with
  | nil =>
    change Except.ok ((), o) = .ok ((), OutBuf.mk (o.str.put o.bufPtr []) o.bufPtr)
    rw [Buf.put_nil]
  | cons i items ih =>
    rw [format, args, List.flatMap_cons, List.flatMap_cons, vsprintfLoop_item]
    refine (ih (i.step o)).trans ?_
    rw [render_cons, List.length_append, ← Nat.add_assoc]
    refine congrArg (fun str => Except.ok ((), OutBuf.mk str _)) ?_
    -- the terminator of this piece is overwritten if there is another piece
    cases items with
    | nil =>
      change (o.str.put o.bufPtr (i.render ++ i.nul)).put _ [] = _
      rw [Buf.put_nil]
      change _ = o.str.put o.bufPtr (i.render ++ [] ++ i.nul)
      rw [List.append_nil]
    | cons j items =>
      rw [endNul_cons_cons, List.append_assoc]
      change (o.str.put o.bufPtr (i.render ++ i.nul)).put (o.bufPtr + i.render.length) _ = _
      rcases i.nul_cases with hnul | hnul
      · rw [hnul, List.append_nil, Buf.put_append]
      · rw [hnul, Buf.put_overlap (stores j items)]

/-! ### The length -/

theorem strlenFrom_holdsStr {s : List Byte} {o : OutBuf} (h : o.str.HoldsStr 0 s) {fuel p : ℕ}
    (hp : p ≤ s.length) (hfuel : s.length < p + fuel) :
    strlenFrom fuel p o = .ok (s.length, o) := by
  induction fuel generalizing p with
  | zero => omega
  | succ fuel ih =>
    rw [strlenFrom, bind_apply, get_apply]
    dsimp only
    rcases Nat.lt_or_eq_of_le hp with hlt | rfl
    · have hbyte := h.bytes p hlt
      rw [Nat.zero_add] at hbyte
      rw [if_neg (hbyte ▸ h.ne_zero _ (List.getElem_mem hlt))]
      exact ih hlt (by omega)
    · have hnul := h.nul
      rw [Nat.zero_add] at hnul
      rw [if_pos hnul]
      rfl

theorem strlenFrom_eq_ok {o o' : OutBuf} {fuel p n : ℕ} (h : strlenFrom fuel p o = .ok (n, o')) :
    o.str n = 0 := by
  induction fuel generalizing p with
  | zero => exact absurd h (by simp [strlenFrom])
  | succ fuel ih =>
    rw [strlenFrom, bind_apply, get_apply] at h
    dsimp only at h
    split_ifs at h with hzero
    · rw [← (pure_eq_ok.1 h).1]
      exact hzero
    · exact ih h

theorem digitChar_ne_zero : ∀ d < 16, digitChar d ≠ 0 := by decide

theorem digitChar_eq_zero : ∀ d < 16, digitChar d = digitChar 0 → d = 0 := by decide

theorem canonical_digitChar {base : ℕ} (hb : 2 ≤ base) (hb' : base ≤ 16) (v : ℕ) :
    Canonical digitChar base (numeral digitChar base v) :=
  canonical_numeral digitChar hb (fun d hd => digitChar_eq_zero d (by omega)) v

theorem numeral_ne_zero {base : ℕ} (hb : 2 ≤ base) (hb' : base ≤ 16) (v : ℕ) :
    ∀ c ∈ numeral digitChar base v, c ≠ 0 := by
  intro c hc
  obtain ⟨d, hd, rfl⟩ := (canonical_digitChar hb hb' v).digits c hc
  exact digitChar_ne_zero d (by omega)

theorem Item.render_ne_zero (i : Item) : ∀ c ∈ i.render, c ≠ 0 := by
  intro x hx
  cases i with
  | plain c => exact List.mem_singleton.1 hx ▸ c.2.1
  | str s => exact s.2 x hx
  | chr w => exact List.mem_singleton.1 hx ▸ w.2
  | dec w =>
    rw [render, signed] at hx
    split at hx
    · rcases List.mem_cons.1 hx with rfl | hx
      · decide
      · exact numeral_ne_zero (by decide) (by decide) _ x hx
    · exact numeral_ne_zero (by decide) (by decide) _ x hx
  | hex w => exact numeral_ne_zero (by decide) (by decide) _ x hx

/-! ### The whole -/

/-- `vsprintf` leaves the rendering and a terminator, and returns its length. -/
def Renders (items : List Item) (o : OutBuf) : Prop :=
  ∀ fuel, (render items).length < fuel → ∃ o', vsprintf fuel (format items) (args items) o =
    .ok ((render items).length, o') ∧ o'.str.HoldsStr 0 (render items)

/-- The last thing in the format is a `%s`. -/
def EndsInStr (items : List Item) : Prop := ∃ s, items.getLast? = some (.str s)

theorem endNul_cases (items : List Item) :
    EndsInStr items ∧ endNul items = [0] ∨ ¬ EndsInStr items ∧ endNul items = [] := by
  rw [EndsInStr, endNul]
  cases items.getLast? with
  | none => exact .inr ⟨nofun, rfl⟩
  | some i =>
    cases i with
    | str s => exact .inl ⟨⟨s, rfl⟩, rfl⟩
    | plain _ | chr _ | dec _ | hex _ => exact .inr ⟨nofun, rfl⟩

theorem put_render_end (items : List Item) (str : Buf) :
    str.put 0 (render items ++ endNul items) (render items).length = 0 ↔
      EndsInStr items ∨ str (render items).length = 0 := by
  rcases endNul_cases items with ⟨hstr, hnul⟩ | ⟨hstr, hnul⟩
  · have hbyte : str.put 0 (render items ++ [0]) (0 + (render items).length) = 0 := by
      rw [Buf.put_add (by simp)]
      simp
    rw [Nat.zero_add] at hbyte
    rw [hnul]
    exact iff_of_true hbyte (.inl hstr)
  · rw [hnul, List.append_nil, Buf.put_of_not_mem (by omega)]
    exact ⟨.inr, fun hor => hor.resolve_left hstr⟩

/-- What `vsprintf` leaves is the rendering, if there is a zero after it. -/
theorem put_render_holdsStr {items : List Item} {str : Buf}
    (h : str.put 0 (render items ++ endNul items) (render items).length = 0) :
    (str.put 0 (render items ++ endNul items)).HoldsStr 0 (render items) := by
  refine ⟨fun i hi => ?_, fun c hc => ?_, by rwa [Nat.zero_add]⟩
  · rw [Buf.put_add (by rw [List.length_append]; omega), List.getElem_append_left]
  · obtain ⟨i, -, hi⟩ := List.mem_flatMap.1 hc
    exact i.render_ne_zero c hi

/-- **When `vsprintf` leaves the rendering, terminated**: if the format ends in `%s`, or if the
buffer held a zero where the rendering ends. -/
theorem vsprintf_renders_iff (items : List Item) (o : OutBuf) :
    Renders items o ↔ EndsInStr items ∨ o.str (render items).length = 0 := by
  have hrun : ∀ fuel, vsprintf fuel (format items) (args items) o = strlenFrom fuel 0
      ⟨o.str.put 0 (render items ++ endNul items), 0 + (render items).length⟩ := fun fuel => by
    rw [vsprintf, bind_apply, modify_apply]
    exact bind_of_ok (vsprintfLoop_eq items { o with bufPtr := 0 })
  rw [← put_render_end]
  constructor
  · intro h
    obtain ⟨o', hok, -⟩ := h _ (Nat.lt_succ_self _)
    rw [hrun] at hok
    exact strlenFrom_eq_ok hok
  · intro h fuel hfuel
    have hstr := put_render_holdsStr h
    rw [hrun]
    exact ⟨_, strlenFrom_holdsStr hstr (Nat.zero_le _) (by omega), hstr⟩

/-- A buffer that held `"zz"`. -/
def usedBuf : OutBuf := ⟨fun i => if i < 2 then 0x7a else 0, 0⟩

/-- **No terminator is stored.** Of the format `"a"` the buffer is left with `"az"`, and 2 is
returned. -/
theorem vsprintf_unterminated :
    (vsprintf 3 [0x61] [] usedBuf).map (fun r => (r.1, r.2.str 0, r.2.str 1, r.2.str 2)) =
      .ok (2, 0x61, 0x7a, 0) ∧ ¬ Renders [.plain ⟨0x61, by decide⟩] usedBuf := by
  have hval : (vsprintf 3 [0x61] []).value? usedBuf = some 2 := by decide
  refine ⟨rfl, fun h => ?_⟩
  obtain ⟨o', hok, -⟩ := h 3 (by decide)
  have hok : vsprintf 3 [0x61] [] usedBuf = .ok (1, o') := hok
  rw [value?, hok] at hval
  exact absurd (Option.some.inj hval) (by decide)

end X86Os.Stdio
