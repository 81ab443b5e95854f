import X86Os.Kernel.Bitmap

/-!
# What `bitmap_scan` finds

`Bitmap` has the scan over unbounded indices, the form the allocators use. Here it is compared
with the scan in the types of the source — a `uint32_t` length, a `uint32_t` count, and an index
that is an `int` — and both are compared with what a scan is for.

* The two agree on every bitmap of at most `2 ^ 28` bytes. Past that an `int` cannot name the bits.
* The scan is first-fit: where a run of clear bits lies inside the bitmap, it returns the start of
  the first one (`bitmapScan_first`).
* The third loop looks at `bit_left` bits, of which `start` itself was one, so it looks one bit past
  the end. That bit decides the result exactly when no run lies inside the bitmap and the bitmap
  ends in `cnt - 1` clear bits (`Overhangs`).
-/

namespace X86Os

/-! ### The scan in machine words -/

/-- The third loop of `bitmap_scan` in `uint32_t`s. What it leaves in the `int bit_idx_start`. -/
def scanRunWord (btmp : Bitmap) (cnt : Word) : (bitLeft : ℕ) → (nextBit count : Word) → Word
  | 0, _, _ => -1
  | bitLeft + 1, nextBit, count =>
    let count := if !bitmapScanTest btmp nextBit.toNat then count + 1 else 0
    if count = cnt then nextBit - cnt + 1 else scanRunWord btmp cnt bitLeft (nextBit + 1) count

/-- `bitmap_scan` in the types of the source. The index of a byte stays below the length, and is a
number here; the index of a bit is eight times as large, and wraps. -/
def bitmapScanWord (btmpBytesLen : Word) (bits : Buf) (cnt : Word) : Except Fault Int :=
  let btmp : Bitmap := ⟨btmpBytesLen.toNat, bits⟩
  let idxByte := skipFull btmp (btmpBytesLen.toNat + 1) 0
  if ¬ idxByte < btmpBytesLen.toNat then .error (.panic .bitmapScan)
  else if idxByte = btmpBytesLen.toNat then .ok (-1)
  else
    let idxBit := lowClear (bits idxByte) 8 0
    let bitIdxStart := BitVec.ofNat 32 (idxByte * 8 + idxBit)
    if cnt = 1 then .ok bitIdxStart.toInt
    else
      let bitLeft := btmpBytesLen * 8 - bitIdxStart
      .ok (scanRunWord btmp cnt bitLeft.toNat (bitIdxStart + 1) 1).toInt

theorem toInt_ofNat_of_lt {n : ℕ} (h : n < 2 ^ 31) : (BitVec.ofNat 32 n).toInt = n := by
  rw [BitVec.toInt_eq_toNat_of_lt, BitVec.toNat_ofNat, Nat.mod_eq_of_lt (by omega)]
  rw [BitVec.toNat_ofNat, Nat.mod_eq_of_lt (by omega)]
  omega

/-- Up to bit `2 ^ 31`, and while the run so far lies behind `nextBit`, nothing wraps. -/
theorem scanRunWord_eq {btmp : Bitmap} {cnt : ℕ} (hcnt : 1 < cnt) (hword : cnt < 2 ^ 32)
    {left next count : ℕ} (hend : next + left ≤ 2 ^ 31 + 1) (hlt : count < cnt)
    (hle : count ≤ next) :
    (scanRunWord btmp (BitVec.ofNat 32 cnt) left (BitVec.ofNat 32 next)
      (BitVec.ofNat 32 count)).toInt = scanRun btmp cnt left next count := by
  induction left generalizing next count with
  | zero => rfl
  | succ left ih =>
    have hnext : (BitVec.ofNat 32 next).toNat = next := by
      rw [BitVec.toNat_ofNat, Nat.mod_eq_of_lt (by omega)]
    simp only [scanRunWord, scanRun, hnext]
    -- the count in a word is the count
    have hcount : (if (!bitmapScanTest btmp next) = true then BitVec.ofNat 32 count + 1 else 0) =
        BitVec.ofNat 32 (if (!bitmapScanTest btmp next) = true then count + 1 else 0) := by
      split
      · rw [BitVec.ofNat_add]
        rfl
      · rfl
    have hle' : (if (!bitmapScanTest btmp next) = true then count + 1 else 0) ≤ count + 1 := by
      split <;> omega
    rw [hcount]
    generalize (if (!bitmapScanTest btmp next) = true then count + 1 else 0) = c at hle'
    have hc : BitVec.ofNat 32 c = BitVec.ofNat 32 cnt ↔ c = cnt := by
      rw [← BitVec.toNat_inj, BitVec.toNat_ofNat, BitVec.toNat_ofNat,
        Nat.mod_eq_of_lt (by omega), Nat.mod_eq_of_lt hword]
    by_cases hcc : c = cnt
    · rw [if_pos (hc.2 hcc), if_pos hcc]
      have hstart : BitVec.ofNat 32 next - BitVec.ofNat 32 cnt + 1 =
          BitVec.ofNat 32 (next + 1 - cnt) := by
        apply BitVec.eq_of_toNat_eq
        have hone : BitVec.toNat (1 : Word) = 1 := rfl
        simp only [BitVec.toNat_add, BitVec.toNat_sub, BitVec.toNat_ofNat, hone]
        omega
      rw [hstart, toInt_ofNat_of_lt (by omega)]
      omega
    · rw [if_neg (fun h => hcc (hc.1 h)), if_neg hcc,
        show BitVec.ofNat 32 next + 1 = BitVec.ofNat 32 (next + 1) by rw [BitVec.ofNat_add]; rfl]
      exact ih (by omega) (by omega) (by omega)

/-- **Nothing wraps** in a bitmap of at most `2 ^ 28` bytes. -/
theorem bitmapScanWord_eq {len cnt : Word} (bits : Buf) (hlen : len.toNat ≤ 2 ^ 28)
    (hcnt : cnt ≠ 0) : bitmapScanWord len bits cnt = bitmapScan ⟨len.toNat, bits⟩ cnt.toNat := by
  have hpos : cnt.toNat ≠ 0 := fun h => hcnt (BitVec.eq_of_toNat_eq h)
  have hone : cnt = 1 ↔ cnt.toNat = 1 := by rw [← BitVec.toNat_inj]; rfl
  simp only [bitmapScanWord, bitmapScan]
  by_cases hfull : skipFull ⟨len.toNat, bits⟩ (len.toNat + 1) 0 < len.toNat
  · obtain ⟨hstart, -, -⟩ := scanStart_spec (b := ⟨len.toNat, bits⟩) hfull
    dsimp only at hstart
    rw [if_neg (not_not.2 hfull), if_neg (not_not.2 hfull), if_neg (Nat.ne_of_lt hfull),
      if_neg (Nat.ne_of_lt hfull)]
    generalize skipFull ⟨len.toNat, bits⟩ (len.toNat + 1) 0 * 8 +
      lowClear (bits (skipFull ⟨len.toNat, bits⟩ (len.toNat + 1) 0)) 8 0 = start at hstart
    by_cases h1 : cnt = 1
    · rw [if_pos h1, if_pos (hone.1 h1), toInt_ofNat_of_lt (by omega)]
    · have hne : cnt.toNat ≠ 1 := fun h => h1 (hone.2 h)
      rw [if_neg h1, if_neg hne]
      have hleft : (len * 8 - BitVec.ofNat 32 start).toNat = len.toNat * 8 - start := by
        have height : BitVec.toNat (8 : Word) = 8 := rfl
        simp only [BitVec.toNat_sub, BitVec.toNat_mul, BitVec.toNat_ofNat, height]
        omega
      have hrun := @scanRunWord_eq ⟨len.toNat, bits⟩ cnt.toNat (by omega) cnt.isLt
        (len.toNat * 8 - start) (start + 1) 1 (by omega) (by omega) (by omega)
      rw [BitVec.ofNat_toNat, BitVec.setWidth_eq, BitVec.ofNat_add] at hrun
      rw [hleft, ← hrun]
      rfl
  · rw [if_pos hfull, if_pos hfull]

/-! ### Runs of the bitmap -/

/-- `cnt` clear bits from `i` on, all of them bits of the bitmap. -/
def Bitmap.HasRun (btmp : Bitmap) (cnt i : ℕ) : Prop :=
  i + cnt ≤ 8 * btmp.btmpBytesLen ∧ ∀ j, i ≤ j → j < i + cnt → btmp.bit j = false

/-- **First fit.** Where there is a run, the scan returns the start of the first. -/
theorem bitmapScan_first {btmp : Bitmap} {cnt : ℕ} (hcnt : 0 < cnt)
    (h : ∃ i, btmp.HasRun cnt i) :
    ∃ i : ℕ, bitmapScan btmp cnt = .ok i ∧ btmp.HasRun cnt i ∧
      ∀ k, btmp.HasRun cnt k → i ≤ k := by
  obtain ⟨k, hk⟩ := h
  cases hr : bitmapScan btmp cnt with
  | error f =>
    -- a panic would have found every bit set
    have hset := full_of_bitmapScan_error hr (i := k) (by have := hk.1; omega)
    rw [hk.2 k (Nat.le_refl k) (by omega)] at hset
    cases hset
  | ok r =>
    -- what the scan passed over is no run
    have hpassed : ∀ k, btmp.HasRun cnt k →
        ¬ (r = -1 ∧ k + cnt ≤ 8 * btmp.btmpBytesLen + 1 ∨ (k : Int) < r) := by
      intro k hk hpast
      obtain ⟨j, h1, h2, hset⟩ := bitmapScan_missed hcnt hr hpast
      rw [hk.2 j h1 h2] at hset
      cases hset
    have hend := hk.1
    have hr0 : 0 ≤ r := by
      have := hpassed k hk
      have := bitmapScan_ge hr
      omega
    obtain ⟨i, rfl, -, -, hclear⟩ := bitmapScan_sound hcnt hr hr0
    have hle : ∀ k, btmp.HasRun cnt k → i ≤ k := by
      intro k hk
      have := hpassed k hk
      omega
    have := hle k hk
    exact ⟨i, rfl, ⟨by omega, hclear⟩, hle⟩

/-- The bitmap ends in `cnt - 1` clear bits and has no run of `cnt`: the bit after it, which is not
its own, makes the difference between a run and none. -/
def Bitmap.Overhangs (btmp : Bitmap) (cnt : ℕ) : Prop :=
  1 < cnt ∧ cnt - 1 ≤ 8 * btmp.btmpBytesLen ∧
    btmp.HasRun (cnt - 1) (8 * btmp.btmpBytesLen - (cnt - 1)) ∧ ∀ i, ¬ btmp.HasRun cnt i

/-- What is wanted of a scan of `btmpBytesLen` bytes at `bits`: an index it returns is the start of
a run of the bitmap, and the bytes after the bitmap do not matter. -/
structure ScanContained (btmpBytesLen : Word) (bits : Buf) (cnt : Word) : Prop where
  run : ∀ r : Int, bitmapScanWord btmpBytesLen bits cnt = .ok r → 0 ≤ r →
    Bitmap.HasRun ⟨btmpBytesLen.toNat, bits⟩ cnt.toNat r.toNat
  own : ∀ bits' : Buf, (∀ k < btmpBytesLen.toNat, bits' k = bits k) →
    bitmapScanWord btmpBytesLen bits' cnt = bitmapScanWord btmpBytesLen bits cnt

section

variable {b b' : Bitmap} {cnt : ℕ}

/-- Two bitmaps of one length that hold the same bytes. -/
def Bitmap.SameBytes (b b' : Bitmap) : Prop :=
  b'.btmpBytesLen = b.btmpBytesLen ∧ ∀ k < b.btmpBytesLen, b'.bits k = b.bits k

theorem Bitmap.SameBytes.symm (h : b.SameBytes b') : b'.SameBytes b :=
  ⟨h.1.symm, fun k hk => (h.2 k (h.1 ▸ hk)).symm⟩

theorem Bitmap.SameBytes.bit (h : b.SameBytes b') {i : ℕ} (hi : i < 8 * b.btmpBytesLen) :
    b'.bit i = b.bit i := by
  rw [Bitmap.bit, Bitmap.bit, h.2 (i / 8) (by omega)]

/-- A run is a matter of the bytes of the bitmap. -/
theorem Bitmap.SameBytes.hasRun (h : b.SameBytes b') {i : ℕ} (hr : b.HasRun cnt i) :
    b'.HasRun cnt i := by
  have hend := hr.1
  refine ⟨h.1 ▸ hend, fun j h1 h2 => ?_⟩
  rw [h.bit (by omega)]
  exact hr.2 j h1 h2

theorem Bitmap.SameBytes.overhangs (h : b.SameBytes b') (ho : b'.Overhangs cnt) :
    b.Overhangs cnt := by
  obtain ⟨hcnt, hlen, hrun, hno⟩ := ho
  refine ⟨hcnt, h.1 ▸ hlen, ?_, fun i hi => hno i (h.hasRun hi)⟩
  rw [← h.1]
  exact h.symm.hasRun hrun

/-- A run that is not the bitmap's overhangs it. -/
theorem overhangs_of_scan (hcnt : 0 < cnt) {r : Int} (h : bitmapScan b cnt = .ok r) (h0 : 0 ≤ r)
    (hno : ∀ i, ¬ b.HasRun cnt i) : b.Overhangs cnt := by
  obtain ⟨i, rfl, hi, hend, hclear⟩ := bitmapScan_sound hcnt h h0
  have hover : i + cnt = 8 * b.btmpBytesLen + 1 := by
    by_contra hne
    exact hno i ⟨by omega, hclear⟩
  refine ⟨by omega, by omega, ⟨by omega, fun j h1 h2 => ?_⟩, hno⟩
  exact hclear j (by omega) (by omega)

/-- Without a run, and without one that overhangs, what is left is a full bitmap or `-1`. -/
theorem bitmapScan_of_no_run (hcnt : 0 < cnt) (hno : ∀ i, ¬ b.HasRun cnt i)
    (ho : ¬ b.Overhangs cnt) :
    bitmapScan b cnt =
      if ∀ i < 8 * b.btmpBytesLen, b.bit i = true then .error (.panic .bitmapScan)
      else .ok (-1) := by
  cases hr : bitmapScan b cnt with
  | error f => rw [if_pos fun i hi => full_of_bitmapScan_error hr hi, bitmapScan_error hr]
  | ok r =>
    obtain ⟨i, hi, hc⟩ := exists_clear_of_bitmapScan hr
    rw [if_neg fun hfull => by rw [hfull i hi] at hc; cases hc]
    rcases bitmapScan_ge hr with rfl | h0
    · rfl
    · exact absurd (overhangs_of_scan hcnt hr h0 hno) ho

/-- Where no run overhangs, no byte after the bitmap matters. -/
theorem bitmapScan_eq_of_not_overhangs (hcnt : 0 < cnt) (hsame : b.SameBytes b')
    (ho : ¬ b.Overhangs cnt) : bitmapScan b' cnt = bitmapScan b cnt := by
  by_cases hex : ∃ i, b.HasRun cnt i
  · -- both return the first run, and they have the same runs
    obtain ⟨i, hb, hi, hle⟩ := bitmapScan_first hcnt hex
    have hex' : ∃ i, b'.HasRun cnt i := hex.imp fun _ h => hsame.hasRun h
    obtain ⟨i', hb', hi', hle'⟩ := bitmapScan_first hcnt hex'
    rw [hb, hb', Nat.le_antisymm (hle i' (hsame.symm.hasRun hi')) (hle' i (hsame.hasRun hi))]
  · have hno : ∀ i, ¬ b.HasRun cnt i := fun i hi => hex ⟨i, hi⟩
    rw [bitmapScan_of_no_run hcnt hno ho,
      bitmapScan_of_no_run hcnt (fun i hi => hno i (hsame.symm.hasRun hi))
        (fun h => ho (hsame.overhangs h))]
    have hfull : (∀ i < 8 * b'.btmpBytesLen, b'.bit i = true) ↔
        ∀ i < 8 * b.btmpBytesLen, b.bit i = true := by
      rw [hsame.1]
      exact forall_congr' fun i => imp_congr_right fun hi => by rw [hsame.bit hi]
    simp only [hfull]

/-- A bitmap with the same bytes, followed by bytes that are all `x`. -/
def Bitmap.followedBy (b : Bitmap) (x : Byte) : Bitmap :=
  ⟨b.btmpBytesLen, fun k => if k < b.btmpBytesLen then b.bits k else x⟩

theorem Bitmap.sameBytes_followedBy (b : Bitmap) (x : Byte) : b.SameBytes (b.followedBy x) :=
  ⟨rfl, fun _ hk => if_pos hk⟩

theorem Bitmap.bit_followedBy (b : Bitmap) (x : Byte) :
    (b.followedBy x).bit (8 * b.btmpBytesLen) = x.getLsbD 0 := by
  simp [Bitmap.bit, Bitmap.followedBy]

/-- Where a run overhangs, the bit after the bitmap decides. -/
theorem Bitmap.Overhangs.scan_ne (h : b.Overhangs cnt) :
    bitmapScan (b.followedBy 0) cnt ≠ bitmapScan (b.followedBy 0xff) cnt := by
  obtain ⟨hcnt, hlen, ⟨hend, hclear⟩, hno⟩ := h
  intro heq
  have hsame := b.sameBytes_followedBy 0
  have h1 := b.sameBytes_followedBy 0xff
  cases hr : bitmapScan (b.followedBy 0) cnt with
  | error f =>
    have hset := full_of_bitmapScan_error hr (i := 8 * b.btmpBytesLen - 1)
      (by show _ < 8 * b.btmpBytesLen; omega)
    rw [hsame.bit (by omega), hclear _ (by omega) (by omega)] at hset
    cases hset
  | ok r =>
    rcases bitmapScan_ge hr with rfl | h0
    · -- followed by a clear bit there is a run
      obtain ⟨j, hj, hj', hset⟩ := bitmapScan_complete (by omega) hr
        (i := 8 * b.btmpBytesLen - (cnt - 1)) (by show _ ≤ 8 * b.btmpBytesLen + 1; omega)
      rcases Nat.lt_or_ge j (8 * b.btmpBytesLen) with hin | hout
      · rw [hsame.bit hin, hclear j hj (by omega)] at hset
        cases hset
      · rw [show j = 8 * b.btmpBytesLen by omega, b.bit_followedBy] at hset
        cases hset
    · -- followed by a set bit there is none
      obtain ⟨i, rfl, hi, hle, hrun⟩ := bitmapScan_sound (by omega) (heq ▸ hr) h0
      replace hle : i + cnt ≤ 8 * b.btmpBytesLen + 1 := hle
      rcases Nat.lt_or_ge (8 * b.btmpBytesLen) (i + cnt) with hover | hin
      · have hset := hrun (8 * b.btmpBytesLen) (Nat.le_of_lt hi) hover
        rw [b.bit_followedBy] at hset
        cases hset
      · exact hno i (h1.symm.hasRun ⟨hin, hrun⟩)

end

/-! ### The scan in machine words, and what it is for -/

section

variable {len cnt : Word} {bits : Buf}

/-- **A scan is contained exactly when no run overhangs.** Up to `2 ^ 28` bytes the index that
`bitmap_scan` returns is the start of a run of the bitmap, whatever follows it in memory, unless the
bitmap has no run of `cnt` bits and ends in `cnt - 1` clear ones. -/
theorem bitmapScanWord_contained_iff (hlen : len.toNat ≤ 2 ^ 28) (hcnt : cnt ≠ 0) :
    ScanContained len bits cnt ↔ ¬ Bitmap.Overhangs ⟨len.toNat, bits⟩ cnt.toNat := by
  have hpos : 0 < cnt.toNat := Nat.pos_of_ne_zero fun h => hcnt (BitVec.eq_of_toNat_eq h)
  constructor
  · intro h ho
    have hsame : ∀ x : Byte, bitmapScan (Bitmap.followedBy ⟨len.toNat, bits⟩ x) cnt.toNat =
        bitmapScanWord len bits cnt := by
      intro x
      rw [← h.own _ fun k hk => if_pos hk, bitmapScanWord_eq _ hlen hcnt]
      rfl
    exact ho.scan_ne ((hsame 0).trans (hsame 0xff).symm)
  · intro ho
    refine ⟨fun r hr h0 => ?_, fun bits' h => ?_⟩
    · rw [bitmapScanWord_eq _ hlen hcnt] at hr
      by_cases hex : ∃ i, Bitmap.HasRun ⟨len.toNat, bits⟩ cnt.toNat i
      · obtain ⟨i, hi, hrun, -⟩ := bitmapScan_first hpos hex
        rw [hi] at hr
        rw [← Except.ok.inj hr]
        exact hrun
      · exact absurd (overhangs_of_scan hpos hr h0 fun i hi => hex ⟨i, hi⟩) ho
    · rw [bitmapScanWord_eq _ hlen hcnt, bitmapScanWord_eq _ hlen hcnt]
      exact bitmapScan_eq_of_not_overhangs hpos ⟨rfl, h⟩ ho

theorem bitmapScanWord_contained_iff_byte :
    ScanContained 1 (fun _ => 0x0f) 2 ↔ ¬ Bitmap.Overhangs ⟨1, fun _ => 0x0f⟩ 2 :=
  bitmapScanWord_contained_iff (by decide) (by decide)

/-- One byte whose top bit is clear, and a clear byte after it: asked for two bits, the scan returns
bit 7. -/
theorem scan_past_end : bitmapScanWord 1 (fun k => if k = 0 then 0x7f else 0) 2 = .ok 7 ∧
    ¬ ScanContained 1 (fun k => if k = 0 then 0x7f else 0) 2 := by
  have hr : bitmapScanWord 1 (fun k => if k = 0 then 0x7f else 0) 2 = .ok 7 := by decide
  refine ⟨hr, fun h => ?_⟩
  have hrun := (h.run 7 hr (by decide)).1
  exact absurd hrun (by decide)

/-- **First fit.** Up to `2 ^ 28` bytes, where `cnt` clear bits lie inside the bitmap, `bitmap_scan`
returns the smallest index at which they do. -/
theorem bitmapScanWord_first (hlen : len.toNat ≤ 2 ^ 28) (hcnt : cnt ≠ 0)
    (h : ∃ i, Bitmap.HasRun ⟨len.toNat, bits⟩ cnt.toNat i) :
    ∃ i : ℕ, bitmapScanWord len bits cnt = .ok i ∧
      Bitmap.HasRun ⟨len.toNat, bits⟩ cnt.toNat i ∧
      ∀ k, Bitmap.HasRun ⟨len.toNat, bits⟩ cnt.toNat k → i ≤ k := by
  have hpos : 0 < cnt.toNat := Nat.pos_of_ne_zero fun h => hcnt (BitVec.eq_of_toNat_eq h)
  rw [bitmapScanWord_eq _ hlen hcnt]
  exact bitmapScan_first hpos h

theorem bitmapScanWord_first_byte :
    ∃ i : ℕ, bitmapScanWord 1 (fun _ => 0x0f) 2 = .ok i ∧
      Bitmap.HasRun ⟨1, fun _ => 0x0f⟩ 2 i ∧
      ∀ k, Bitmap.HasRun ⟨1, fun _ => 0x0f⟩ 2 k → i ≤ k := by
  refine bitmapScanWord_first (by decide) (by decide) ⟨4, by decide, fun j h1 h2 => ?_⟩
  obtain rfl | rfl : j = 4 ∨ j = 5 := by have : j < 4 + 2 := h2; omega
  · decide
  · decide

end

/-- The first loop stops at the first byte that is not full. -/
theorem skipFull_eq {b : Bitmap} {n : ℕ} (hn : n < b.btmpBytesLen)
    (hfull : ∀ k < n, b.bits k = 0xff#8) (hne : b.bits n ≠ 0xff#8) :
    skipFull b (b.btmpBytesLen + 1) 0 = n := by
  obtain ⟨-, -, hbelow, hat⟩ := skipFull_spec b (b.btmpBytesLen + 1) 0 (by omega) (by omega)
  rcases Nat.lt_trichotomy (skipFull b (b.btmpBytesLen + 1) 0) n with hlt | heq | hgt
  · exact absurd (hfull _ hlt) (hat (by omega))
  · exact heq
  · exact absurd (hbelow n (Nat.zero_le n) hgt) hne

/-- `n` full bytes, and clear ones from there on. -/
def fullThenClear (n : ℕ) : Buf := fun k => if k < n then 0xff#8 else 0

/-- Asked for one bit of `n` full bytes and a clear one, the scan returns `8 * n`, as an `int`. -/
theorem bitmapScanWord_fullThenClear {n : ℕ} (hn : n + 1 < 2 ^ 32) :
    bitmapScanWord (BitVec.ofNat 32 (n + 1)) (fullThenClear n) 1 =
      .ok (BitVec.ofNat 32 (n * 8)).toInt := by
  have hlen : (BitVec.ofNat 32 (n + 1)).toNat = n + 1 := by
    rw [BitVec.toNat_ofNat, Nat.mod_eq_of_lt hn]
  have hat : fullThenClear n n = 0#8 := if_neg (Nat.lt_irrefl n)
  have hskip : skipFull ⟨n + 1, fullThenClear n⟩ (n + 1 + 1) 0 = n := by
    refine skipFull_eq (b := ⟨n + 1, fullThenClear n⟩) (Nat.lt_succ_self n)
      (fun k hk => if_pos hk) ?_
    show fullThenClear n n ≠ _
    rw [hat]
    decide
  simp only [bitmapScanWord, hlen, hskip, hat, if_true]
  rw [if_neg (by omega), if_neg (by omega)]
  rfl

/-- `2 ^ 28` full bytes and a clear one. The first clear bit is bit `2 ^ 31`, which an `int` cannot
hold. -/
theorem scan_long_bitmap :
    Bitmap.HasRun ⟨2 ^ 28 + 1, fullThenClear (2 ^ 28)⟩ 1 (2 ^ 31) ∧
      bitmapScanWord (BitVec.ofNat 32 (2 ^ 28 + 1)) (fullThenClear (2 ^ 28)) 1 =
        .ok (-2147483648) := by
  refine ⟨⟨by show 2 ^ 31 + 1 ≤ 8 * (2 ^ 28 + 1); omega, fun j h1 h2 => ?_⟩, ?_⟩
  · have hclear : fullThenClear (2 ^ 28) (j / 8) = 0#8 := if_neg (by omega)
    show (fullThenClear (2 ^ 28) (j / 8)).getLsbD (j % 8) = false
    rw [hclear, BitVec.getLsbD_zero]
  · exact bitmapScanWord_fullThenClear (by omega)

end X86Os
