import X86Os.Kernel.Debug
import X86Os.Lib.Bytes

/-!
# Bitmaps

`lib/kernel/bitmap.c`. A bitmap is a byte count and a pointer to its bytes, so the bytes are a
buffer: the offsets from `btmpBytesLen` on are whatever memory follows the bitmap. That matters,
because the multi-bit loop of `bitmap_scan` looks one bit past the end.
-/

namespace X86Os

/-- `struct bitmap`: its length in bytes, and the memory at `bits`. -/
structure Bitmap where
  btmpBytesLen : ℕ
  bits : Buf

namespace Bitmap

/-- Bit `i`. -/
def bit (b : Bitmap) (i : ℕ) : Bool := (b.bits (i / 8)).getLsbD (i % 8)

end Bitmap

open Bitmap

/-! ### One bit -/

/-- `BITMAP_MASK << bit_odd`. -/
def bitmapMask (odd : ℕ) : Byte := 1#8 <<< odd

theorem getLsbD_bitmapMask {odd i : ℕ} (hi : i < 8) :
    (bitmapMask odd).getLsbD i = decide (i = odd) := by
  simp only [bitmapMask, BitVec.getLsbD_shiftLeft, BitVec.getLsbD_one]
  grind

/-- `bitmap_init`: all bits clear. -/
def bitmapInit (btmpBytesLen : ℕ) : Bitmap := ⟨btmpBytesLen, fun _ => 0⟩

@[simp] theorem btmpBytesLen_bitmapInit (n : ℕ) : (bitmapInit n).btmpBytesLen = n := rfl

@[simp] theorem bit_bitmapInit (n i : ℕ) : (bitmapInit n).bit i = false := by
  simp [bitmapInit, bit]

/-- `bitmap_scan_test`: whether bit `bitIdx` is set. -/
def bitmapScanTest (btmp : Bitmap) (bitIdx : ℕ) : Bool :=
  btmp.bits (bitIdx / 8) &&& bitmapMask (bitIdx % 8) ≠ 0#8

/-- `bitmap_set`. -/
def bitmapSet (btmp : Bitmap) (bitIdx : ℕ) (value : Bool) : Bitmap :=
  let byteIdx := bitIdx / 8
  let bitOdd := bitIdx % 8
  let byte := if value then btmp.bits byteIdx ||| bitmapMask bitOdd
    else btmp.bits byteIdx &&& ~~~ bitmapMask bitOdd
  { btmp with bits := fun k => if k = byteIdx then byte else btmp.bits k }

/-- Masking a byte with one bit leaves something exactly when that bit is set. -/
theorem and_bitmapMask_ne_zero {x : Byte} {k : ℕ} (h : k < 8) :
    x &&& bitmapMask k ≠ 0#8 ↔ x.getLsbD k = true := by
  constructor
  · intro hne
    by_contra hx
    refine hne (BitVec.eq_of_getLsbD_eq fun i hi => ?_)
    rw [BitVec.getLsbD_and, getLsbD_bitmapMask hi, BitVec.getLsbD_zero]
    by_cases hio : i = k
    · subst hio; simpa using hx
    · simp [hio]
  · intro hx h0
    have hbit := congrArg (fun v : Byte => v.getLsbD k) h0
    simp only [BitVec.getLsbD_and, getLsbD_bitmapMask h, BitVec.getLsbD_zero] at hbit
    simp [hx] at hbit

theorem bitmapScanTest_eq (btmp : Bitmap) (i : ℕ) : bitmapScanTest btmp i = btmp.bit i := by
  rw [Bool.eq_iff_iff, bitmapScanTest, decide_eq_true_iff]
  exact and_bitmapMask_ne_zero (Nat.mod_lt _ (by omega))

@[simp] theorem btmpBytesLen_bitmapSet (btmp : Bitmap) (i : ℕ) (v : Bool) :
    (bitmapSet btmp i v).btmpBytesLen = btmp.btmpBytesLen := rfl

/-- **Setting a bit changes that bit and no other.** -/
theorem bit_bitmapSet (btmp : Bitmap) (i j : ℕ) (v : Bool) :
    (bitmapSet btmp i v).bit j = if j = i then v else btmp.bit j := by
  have hj : j % 8 < 8 := Nat.mod_lt _ (by omega)
  simp only [bitmapSet, bit]
  by_cases hb : j / 8 = i / 8
  · rw [if_pos hb]
    have hji : j % 8 = i % 8 ↔ j = i := by omega
    cases v
    · simp only [Bool.false_eq_true, if_false, BitVec.getLsbD_and, BitVec.getLsbD_not,
        getLsbD_bitmapMask hj, hji, ← hb]
      by_cases h : j = i <;> simp [h, hj]
    · simp only [if_true, BitVec.getLsbD_or, getLsbD_bitmapMask hj, hji, ← hb]
      by_cases h : j = i <;> simp [h]
  · rw [if_neg hb, if_neg (fun h => hb (by rw [h]))]

@[simp] theorem bit_bitmapSet_self (btmp : Bitmap) (i : ℕ) (v : Bool) :
    (bitmapSet btmp i v).bit i = v := by rw [bit_bitmapSet, if_pos rfl]

section

variable {btmp : Bitmap} {cnt : ℕ}

theorem bit_bitmapSet_of_ne {i j : ℕ} (v : Bool) (h : j ≠ i) :
    (bitmapSet btmp i v).bit j = btmp.bit j := by rw [bit_bitmapSet, if_neg h]

/-- Bytes other than the one holding the bit are untouched. -/
theorem bits_bitmapSet_of_ne {i k : ℕ} (v : Bool) (h : k ≠ i / 8) :
    (bitmapSet btmp i v).bits k = btmp.bits k := if_neg h

theorem Bitmap.ext_bit {b b' : Bitmap} (hl : b.btmpBytesLen = b'.btmpBytesLen)
    (hb : ∀ i, b.bit i = b'.bit i) : b = b' := by
  obtain ⟨n, x⟩ := b
  obtain ⟨n', x'⟩ := b'
  obtain rfl : n = n' := hl
  refine congrArg (Bitmap.mk n) (funext fun k => BitVec.eq_of_getLsbD_eq fun j hj => ?_)
  have := hb (8 * k + j)
  rwa [bit, bit, show (8 * k + j) / 8 = k by omega, show (8 * k + j) % 8 = j by omega] at this

/-- The first loop of `bitmap_scan`: skip the bytes that are `0xff`, up to the end. -/
def skipFull (btmp : Bitmap) : (fuel : ℕ) → (idxByte : ℕ) → ℕ
  | 0, idxByte => idxByte
  | fuel + 1, idxByte =>
    if 0xff#8 = btmp.bits idxByte ∧ idxByte < btmp.btmpBytesLen then
      skipFull btmp fuel (idxByte + 1)
    else idxByte

/-- The second loop: the position of the lowest clear bit of a byte. -/
def lowClear (byte : Byte) : (fuel : ℕ) → (idxBit : ℕ) → ℕ
  | 0, idxBit => idxBit
  | fuel + 1, idxBit =>
    if bitmapMask idxBit &&& byte ≠ 0#8 then lowClear byte fuel (idxBit + 1) else idxBit

/-- The third loop: look for `cnt` clear bits in a row, `count` of them seen just before
`nextBit`. -/
def scanRun (btmp : Bitmap) (cnt : ℕ) : (bitLeft : ℕ) → (nextBit : ℕ) → (count : ℕ) → Int
  | 0, _, _ => -1
  | bitLeft + 1, nextBit, count =>
    let count := if !bitmapScanTest btmp nextBit then count + 1 else 0
    if count = cnt then (nextBit : Int) - cnt + 1 else scanRun btmp cnt bitLeft (nextBit + 1) count

/-- `bitmap_scan`: the start of a run of `cnt` clear bits, or `-1`. The `ASSERT` stands before the
test that would return `-1` for a full bitmap, so a full bitmap panics. -/
def bitmapScan (btmp : Bitmap) (cnt : ℕ) : Except Fault Int :=
  let idxByte := skipFull btmp (btmp.btmpBytesLen + 1) 0
  if ¬ idxByte < btmp.btmpBytesLen then .error (.panic .bitmapScan)
  else if idxByte = btmp.btmpBytesLen then .ok (-1)
  else
    let idxBit := lowClear (btmp.bits idxByte) 8 0
    let bitIdxStart := idxByte * 8 + idxBit
    if cnt = 1 then .ok bitIdxStart
    else .ok (scanRun btmp cnt (btmp.btmpBytesLen * 8 - bitIdxStart) (bitIdxStart + 1) 1)

theorem skipFull_spec (btmp : Bitmap) (fuel i : ℕ) (hi : i ≤ btmp.btmpBytesLen)
    (hfuel : btmp.btmpBytesLen < i + fuel) :
    i ≤ skipFull btmp fuel i ∧ skipFull btmp fuel i ≤ btmp.btmpBytesLen ∧
      (∀ k, i ≤ k → k < skipFull btmp fuel i → btmp.bits k = 0xff#8) ∧
      (skipFull btmp fuel i < btmp.btmpBytesLen → btmp.bits (skipFull btmp fuel i) ≠ 0xff#8) := by
  induction fuel generalizing i with
  | zero => omega
  | succ fuel ih =>
    simp only [skipFull]
    split
    · rename_i h
      obtain ⟨h1, h2, h3, h4⟩ := ih (i + 1) (by omega) (by omega)
      refine ⟨by omega, h2, fun k hk hlt => ?_, h4⟩
      rcases Nat.eq_or_lt_of_le hk with rfl | hk
      · exact h.1.symm
      · exact h3 k hk hlt
    · rename_i h
      exact ⟨Nat.le_refl _, hi, fun k hk hlt => absurd hlt (by omega),
        fun hlt hff => h ⟨hff.symm, hlt⟩⟩

theorem lowClear_spec (byte : Byte) (fuel i : ℕ) (hfuel : i + fuel = 8) :
    i ≤ lowClear byte fuel i ∧ lowClear byte fuel i ≤ 8 ∧
      (∀ k, i ≤ k → k < lowClear byte fuel i → byte.getLsbD k = true) ∧
      (lowClear byte fuel i < 8 → byte.getLsbD (lowClear byte fuel i) = false) := by
  induction fuel generalizing i with
  | zero => exact ⟨Nat.le_refl _, by simp [lowClear]; omega, fun k hk hlt => absurd hlt (by
      simp only [lowClear]; omega), fun h => absurd h (by simp only [lowClear]; omega)⟩
  | succ fuel ih =>
    have hbit := and_bitmapMask_ne_zero (x := byte) (k := i) (by omega)
    rw [BitVec.and_comm] at hbit
    simp only [lowClear]
    split
    · rename_i h
      obtain ⟨h1, h2, h3, h4⟩ := ih (i + 1) (by omega)
      refine ⟨by omega, h2, fun k hk hlt => ?_, h4⟩
      rcases Nat.eq_or_lt_of_le hk with rfl | hk
      · exact hbit.mp h
      · exact h3 k hk hlt
    · rename_i h
      exact ⟨Nat.le_refl _, by omega, fun k hk hlt => absurd hlt (by omega),
        fun _ => by simpa using fun hb => h (hbit.mpr hb)⟩

/-- A byte that is not `0xff` has a clear bit. -/
theorem exists_clear_of_ne {byte : Byte} (h : byte ≠ 0xff#8) :
    ∃ k < 8, byte.getLsbD k = false := by
  by_contra hcon
  simp only [not_exists, not_and, Bool.not_eq_false] at hcon
  refine h (BitVec.eq_of_getLsbD_eq fun i hi => ?_)
  rw [hcon i hi, show (0xff#8 : Byte) = BitVec.allOnes 8 from rfl, BitVec.getLsbD_allOnes,
    decide_eq_true hi]

theorem bit_of_full {i : ℕ} (h : btmp.bits (i / 8) = 0xff#8) :
    btmp.bit i = true := by
  rw [bit, h, show (0xff#8 : Byte) = BitVec.allOnes 8 from rfl, BitVec.getLsbD_allOnes,
    decide_eq_true (Nat.mod_lt _ (by omega))]

/-- What the first two loops find: the lowest clear bit of the bitmap, if it has one. -/
theorem scanStart_spec {b : Bitmap}
    (h : skipFull b (b.btmpBytesLen + 1) 0 < b.btmpBytesLen) :
    let i := skipFull b (b.btmpBytesLen + 1) 0
    let r := i * 8 + lowClear (b.bits i) 8 0
    r < 8 * b.btmpBytesLen ∧ b.bit r = false ∧ ∀ j < r, b.bit j = true := by
  intro i r
  obtain ⟨-, -, hfull, hne⟩ := skipFull_spec b (b.btmpBytesLen + 1) 0 (by omega) (by omega)
  obtain ⟨-, hle, hset, hclear⟩ := lowClear_spec (b.bits i) 8 0 rfl
  obtain ⟨k, hk, hkc⟩ := exists_clear_of_ne (hne h)
  have hlt : lowClear (b.bits i) 8 0 < 8 := by
    by_contra hge
    have := hset k (by omega) (by omega)
    rw [hkc] at this
    cases this
  have hdiv : r / 8 = i := by omega
  have hmod : r % 8 = lowClear (b.bits i) 8 0 := by omega
  refine ⟨by omega, by rw [bit, hdiv, hmod]; exact hclear hlt, fun j hj => ?_⟩
  rcases Nat.lt_or_ge (j / 8) i with hji | hji
  · exact bit_of_full (hfull (j / 8) (by omega) hji)
  · have hj8 : j / 8 = i := by omega
    rw [bit, hj8]
    exact hset (j % 8) (by omega) (by omega)

/-- **A scan for one bit** returns the lowest clear bit of the bitmap. -/
theorem bitmapScan_one {r : Int} (h : bitmapScan btmp 1 = .ok r) :
    ∃ i : ℕ, r = i ∧ i < 8 * btmp.btmpBytesLen ∧ btmp.bit i = false ∧
      ∀ j < i, btmp.bit j = true := by
  simp only [bitmapScan] at h
  split at h
  · cases h
  · rename_i hlt
    rw [if_neg (by omega), if_pos trivial] at h
    exact ⟨_, (Except.ok.inj h).symm, scanStart_spec (by omega)⟩

theorem bitmapScan_error {f : Fault}
    (h : bitmapScan btmp cnt = .error f) : f = .panic .bitmapScan := by
  simp only [bitmapScan] at h
  split at h
  · exact (Except.error.inj h).symm
  · split at h
    · cases h
    · split at h <;> cases h

/-- It panics exactly when every byte of the bitmap is full. -/
theorem bitmapScan_one_isOk {i : ℕ} (hi : i < 8 * btmp.btmpBytesLen)
    (hc : btmp.bit i = false) : ∃ r, bitmapScan btmp 1 = .ok r := by
  obtain ⟨-, hle, hfull, -⟩ := skipFull_spec btmp (btmp.btmpBytesLen + 1) 0 (by omega) (by omega)
  have hlt : skipFull btmp (btmp.btmpBytesLen + 1) 0 < btmp.btmpBytesLen := by
    by_contra hge
    have := bit_of_full (hfull (i / 8) (by omega) (by omega))
    rw [hc] at this
    cases this
  simp only [bitmapScan]
  rw [if_neg (by omega), if_neg (by omega), if_pos trivial]
  exact ⟨_, rfl⟩

/-- A scan that panics found every bit set. -/
theorem full_of_bitmapScan_error {f : Fault}
    (h : bitmapScan btmp cnt = .error f) {i : ℕ} (hi : i < 8 * btmp.btmpBytesLen) :
    btmp.bit i = true := by
  obtain ⟨-, -, hfull, -⟩ := skipFull_spec btmp (btmp.btmpBytesLen + 1) 0 (by omega) (by omega)
  simp only [bitmapScan] at h
  split at h
  · exact bit_of_full (hfull (i / 8) (by omega) (by omega))
  · split at h
    · cases h
    · split at h <;> cases h

/-- A scan that returns found a clear bit. -/
theorem exists_clear_of_bitmapScan {r : Int}
    (h : bitmapScan btmp cnt = .ok r) : ∃ i < 8 * btmp.btmpBytesLen, btmp.bit i = false := by
  simp only [bitmapScan] at h
  split at h
  · cases h
  · rename_i hlt
    obtain ⟨hi, hc, -⟩ := scanStart_spec (b := btmp) (not_not.1 hlt)
    exact ⟨_, hi, hc⟩

theorem scanRun_ge (left next count : ℕ) (hle : count ≤ next) :
    scanRun btmp cnt left next count = -1 ∨ 0 ≤ scanRun btmp cnt left next count := by
  induction left generalizing next count with
  | zero => exact .inl rfl
  | succ left ih =>
    simp only [scanRun]
    have hcount : (if (!bitmapScanTest btmp next) = true then count + 1 else 0) ≤ next + 1 := by
      split <;> omega
    generalize (if (!bitmapScanTest btmp next) = true then count + 1 else 0) = c at *
    split
    · right; omega
    · exact ih _ _ hcount

/-- What a scan returns is `-1` or an index. -/
theorem bitmapScan_ge {r : Int} (h : bitmapScan btmp cnt = .ok r) :
    r = -1 ∨ 0 ≤ r := by
  simp only [bitmapScan] at h
  split at h
  · cases h
  · split at h
    · exact .inl (Except.ok.inj h).symm
    · split at h
      · exact .inr (by rw [← Except.ok.inj h]; omega)
      · rw [← Except.ok.inj h]
        exact scanRun_ge _ _ _ (by omega)

/-- The run the third loop returns is clear: the `count` bits before `nextBit` were, and so is
each bit it counts. -/
theorem scanRun_sound (hcnt : 0 < cnt) :
    ∀ {left next count : ℕ} {r : Int}, count < cnt → count ≤ next →
      (∀ j, next - count ≤ j → j < next → btmp.bit j = false) →
      scanRun btmp cnt left next count = r → 0 ≤ r →
      ∃ i : ℕ, r = i ∧ next - count ≤ i ∧ i + cnt ≤ next + left ∧
        ∀ j, i ≤ j → j < i + cnt → btmp.bit j = false := by
  intro left
  induction left with
  | zero => intro next count r _ _ _ h h0; simp only [scanRun] at h; omega
  | succ left ih =>
    intro next count r hlt hle hrun h h0
    simp only [scanRun, bitmapScanTest_eq] at h
    by_cases hb : btmp.bit next = true
    · -- a set bit starts the count again
      simp only [hb, Bool.not_true, Bool.false_eq_true, if_false] at h
      rw [if_neg (by omega)] at h
      obtain ⟨i, hr, h1, h2, h3⟩ := @ih (next + 1) 0 r hcnt (by omega)
        (fun j _ _ => by omega) h h0
      exact ⟨i, hr, by omega, by omega, h3⟩
    · rw [Bool.not_eq_true] at hb
      have hrun' : ∀ j, next - count ≤ j → j < next + 1 → btmp.bit j = false := by
        intro j h1 h2
        rcases Nat.lt_or_ge j next with hj | hj
        · exact hrun j h1 hj
        · rw [show j = next by omega]; exact hb
      simp only [hb, Bool.not_false, if_true] at h
      by_cases hc : count + 1 = cnt
      · rw [if_pos hc] at h
        exact ⟨next - count, by omega, Nat.le_refl _, by omega,
          fun j h1 h2 => hrun' j h1 (by omega)⟩
      · rw [if_neg hc] at h
        obtain ⟨i, hr, h1, h2, h3⟩ := @ih (next + 1) (count + 1) r (by omega)
          (by omega) (fun j h1 h2 => hrun' j (by omega) h2) h h0
        exact ⟨i, hr, by omega, by omega, h3⟩

/-- **What a scan returns** is the start of a run of `cnt` clear bits. The run may include the
first bit after the bitmap, and no later one. -/
theorem bitmapScan_sound (hcnt : 0 < cnt) {r : Int}
    (h : bitmapScan btmp cnt = .ok r) (h0 : 0 ≤ r) :
    ∃ i : ℕ, r = i ∧ i < 8 * btmp.btmpBytesLen ∧ i + cnt ≤ 8 * btmp.btmpBytesLen + 1 ∧
      ∀ j, i ≤ j → j < i + cnt → btmp.bit j = false := by
  by_cases h1 : cnt = 1
  · subst h1
    obtain ⟨i, hr, hi, hc, -⟩ := bitmapScan_one h
    exact ⟨i, hr, hi, by omega, fun j hle h2 => by rw [show j = i by omega]; exact hc⟩
  · simp only [bitmapScan, if_neg h1] at h
    split at h
    · cases h
    · rename_i hlt
      rw [if_neg (by omega)] at h
      obtain ⟨hs, hc, -⟩ := scanStart_spec (b := btmp) (by omega)
      obtain ⟨i, hr, hle, h2, h3⟩ := scanRun_sound hcnt (by omega) (by omega)
        (fun j hle h2 => by
          rw [show j = _ from Nat.le_antisymm (Nat.lt_succ_iff.mp h2) (by omega)]
          exact hc)
        (Except.ok.inj h) h0
      exact ⟨i, hr, by omega, by omega, h3⟩

/-- The third loop misses no run: `count` is the number of clear bits just before `nextBit`, so what
starts no later than those and was not returned holds a set bit. -/
theorem scanRun_missed {left next count : ℕ} (hlt : count < cnt)
    (hle : count ≤ next) {i : ℕ} (hi : next ≤ i + count)
    (h : scanRun btmp cnt left next count = -1 ∧ i + cnt ≤ next + left ∨
      (i : Int) < scanRun btmp cnt left next count) :
    ∃ j, i ≤ j ∧ j < i + cnt ∧ btmp.bit j = true := by
  induction left generalizing next count with
  | zero => simp only [scanRun] at h; omega
  | succ left ih =>
    simp only [scanRun, bitmapScanTest_eq] at h
    by_cases hb : btmp.bit next = true
    · simp only [hb, Bool.not_true, Bool.false_eq_true, if_false] at h
      rcases Nat.lt_or_ge next i with hin | hin
      · rw [if_neg (by omega)] at h
        exact ih (by omega) (by omega) (by omega) (h.imp_left fun h => ⟨h.1, by omega⟩)
      · exact ⟨next, hin, by omega, hb⟩
    · rw [Bool.not_eq_true] at hb
      simp only [hb, Bool.not_false, if_true] at h
      by_cases hc : count + 1 = cnt
      · rw [if_pos hc] at h
        omega
      · rw [if_neg hc] at h
        exact ih (by omega) (by omega) (by omega) (h.imp_left fun h => ⟨h.1, by omega⟩)

/-- **A scan misses no run.** One that starts before the result, or that fits when there is none,
holds a set bit. -/
theorem bitmapScan_missed (hcnt : 0 < cnt) {r : Int}
    (h : bitmapScan btmp cnt = .ok r) {i : ℕ}
    (hi : r = -1 ∧ i + cnt ≤ 8 * btmp.btmpBytesLen + 1 ∨ (i : Int) < r) :
    ∃ j, i ≤ j ∧ j < i + cnt ∧ btmp.bit j = true := by
  by_cases h1 : cnt = 1
  · subst h1
    obtain ⟨k, hk, -, -, hset⟩ := bitmapScan_one h
    exact ⟨i, Nat.le_refl i, by omega, hset i (by omega)⟩
  · simp only [bitmapScan, if_neg h1] at h
    split at h
    · cases h
    · rename_i hlt
      rw [if_neg (by omega)] at h
      obtain ⟨hs, -, hset⟩ := scanStart_spec (b := btmp) (by omega)
      -- below the lowest clear bit there is nothing to miss
      rcases Nat.lt_or_ge i (skipFull btmp (btmp.btmpBytesLen + 1) 0 * 8 +
        lowClear (btmp.bits (skipFull btmp (btmp.btmpBytesLen + 1) 0)) 8 0) with hlow | hlow
      · exact ⟨i, Nat.le_refl i, by omega, hset i hlow⟩
      · rw [← Except.ok.inj h] at hi
        exact scanRun_missed (by omega) (by omega) (by omega)
          (hi.imp_left fun hi => ⟨hi.1, by omega⟩)

/-- **A scan that returns −1** found no run of `cnt` clear bits. -/
theorem bitmapScan_complete (hcnt : 0 < cnt)
    (h : bitmapScan btmp cnt = .ok (-1)) {i : ℕ} (hi : i + cnt ≤ 8 * btmp.btmpBytesLen + 1) :
    ∃ j, i ≤ j ∧ j < i + cnt ∧ btmp.bit j = true :=
  bitmapScan_missed hcnt h (.inl ⟨rfl, hi⟩)

end

end X86Os
