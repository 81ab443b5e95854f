import Mathlib.Data.Nat.Notation
import X86Os.Kernel.Debug
import X86Os.Lib.Bytes

/-!
# The disk driver

`ide_read` and `ide_write` move whole sectors between a buffer and the disk, at most 256 sectors to
a command. The sector-count register has eight bits, so a command for 256 sectors writes 0 to it,
and the transfer routines undo that. What a caller sees of the two is one transfer: that the
commands together move exactly the sectors asked for is `readChunks_wp` and `writeChunks_wp`.

A disk is a function from sector addresses to buffers, of which the first 512 bytes count. Only one
thread at a time is inside the driver (it holds the channel's lock), and a transfer that the
controller reports as failed is a `PANIC`; neither shows in the contents moved.
-/

namespace X86Os

open X86Os.Comp

/-- The sectors of a disk, by address. -/
abbrev Disk := ℕ → Buf

/-- `max_lba`: the last sector of the 80 MB disk the driver supports. -/
def maxLba : ℕ := 80 * 1024 * 1024 / 512 - 1

namespace Disk

/-- The bytes of the sectors from `lba` on, one sector after the other. -/
def read (d : Disk) (lba : ℕ) : Buf := fun i => d (lba + i / 512) (i % 512)

/-- Overwrite `n` sectors from `lba` on. -/
def write (d : Disk) (lba : ℕ) (buf : Buf) (n : ℕ) : Disk := fun a =>
  if lba ≤ a ∧ a < lba + n then fun i => buf (512 * (a - lba) + i) else d a

theorem write_of_not_mem {d : Disk} {lba n a : ℕ} {buf : Buf} (h : a < lba ∨ lba + n ≤ a) :
    d.write lba buf n a = d a := if_neg (by omega)

theorem write_of_mem {d : Disk} {lba n a : ℕ} {buf : Buf} (h1 : lba ≤ a) (h2 : a < lba + n) :
    d.write lba buf n a = fun i => buf (512 * (a - lba) + i) := if_pos ⟨h1, h2⟩

@[simp] theorem write_one_self (d : Disk) (lba : ℕ) (buf : Buf) : d.write lba buf 1 lba = buf := by
  rw [write_of_mem (Nat.le_refl _) (by omega)]
  simp

theorem write_one_of_ne {d : Disk} {lba a : ℕ} {buf : Buf} (h : a ≠ lba) :
    d.write lba buf 1 a = d a := write_of_not_mem (by omega)

/-- The 512 bytes of a sector. -/
def sector (d : Disk) (a : ℕ) : Buf := fun i => if i < 512 then d a i else 0

theorem sector_of_lt {d : Disk} {a i : ℕ} (h : i < 512) : d.sector a i = d a i := if_pos h

theorem sector_congr {d d' : Disk} {a : ℕ} (h : d a = d' a) : d.sector a = d'.sector a := by
  unfold sector
  rw [h]

theorem read_of_lt {d : Disk} {lba i : ℕ} (h : i < 512) : d.read lba i = d lba i := by
  rw [read, show i / 512 = 0 by omega, show i % 512 = i by omega, Nat.add_zero]

theorem read_add (d : Disk) (lba k i : ℕ) : d.read (lba + k) i = d.read lba (k * 512 + i) := by
  rw [read, read, show (k * 512 + i) / 512 = k + i / 512 by omega,
    show (k * 512 + i) % 512 = i % 512 by omega, Nat.add_assoc]

end Disk

/-! ### The routines -/

/-- The sectors that `read_from_sector` and `write2sector` move when the eight-bit count they are
given was cut from `secsOp`. -/
def transferSecs (secsOp : ℕ) : ℕ := if secsOp % 256 = 0 then 256 else secsOp % 256

theorem transferSecs_eq {n : ℕ} (h0 : 0 < n) (h : n ≤ 256) : transferSecs n = n := by
  rw [transferSecs]
  split <;> omega

/-- `select_sector`. -/
def selectSector (lba : ℕ) : Kern Disk Unit := ASSERT .selectSector (decide (lba ≤ maxLba))

/-- The sectors one command moves when `secsDone` of `secCnt` have been moved. -/
def secsOp (secCnt secsDone : ℕ) : ℕ :=
  if secsDone + 256 ≤ secCnt then 256 else secCnt - secsDone

/-- The loop of `ide_read`, after `secsDone` sectors. Every round moves at least one sector, so
`secCnt` rounds are enough. -/
def readChunks (lba secCnt : ℕ) : (fuel : ℕ) → (secsDone : ℕ) → Buf → Kern Disk Buf
  | 0, _, buf => pure buf
  | fuel + 1, secsDone, buf =>
    if secsDone < secCnt then do
      selectSector (lba + secsDone)
      let d ← get
      readChunks lba secCnt fuel (secsDone + secsOp secCnt secsDone)
        (buf.splice (secsDone * 512) (d.read (lba + secsDone))
          (transferSecs (secsOp secCnt secsDone) * 512))
    else pure buf

/-- `ide_read`: the buffer with `secCnt` sectors read into its start. -/
def ideRead (lba : ℕ) (buf : Buf) (secCnt : ℕ) : Kern Disk Buf := do
  ASSERT .ideRead (decide (lba ≤ maxLba))
  ASSERT .ideRead (decide (0 < secCnt))
  readChunks lba secCnt secCnt 0 buf

/-- The loop of `ide_write`, after `secsDone` sectors. -/
def writeChunks (lba : ℕ) (buf : Buf) (secCnt : ℕ) :
    (fuel : ℕ) → (secsDone : ℕ) → Kern Disk Unit
  | 0, _ => pure ()
  | fuel + 1, secsDone =>
    if secsDone < secCnt then do
      selectSector (lba + secsDone)
      modify fun d => d.write (lba + secsDone) (fun i => buf (secsDone * 512 + i))
        (transferSecs (secsOp secCnt secsDone))
      writeChunks lba buf secCnt fuel (secsDone + secsOp secCnt secsDone)
    else pure ()

/-- `ide_write`. -/
def ideWrite (lba : ℕ) (buf : Buf) (secCnt : ℕ) : Kern Disk Unit := do
  ASSERT .ideWrite (decide (lba ≤ maxLba))
  ASSERT .ideWrite (decide (0 < secCnt))
  writeChunks lba buf secCnt secCnt 0

/-! ### The commands together are one transfer -/

theorem secsOp_pos {secCnt secsDone : ℕ} (h : secsDone < secCnt) :
    0 < secsOp secCnt secsDone ∧ secsOp secCnt secsDone ≤ 256 ∧
      secsDone + secsOp secCnt secsDone ≤ secCnt := by
  rw [secsOp]
  split <;> omega

theorem transferSecs_secsOp {secCnt secsDone : ℕ} (h : secsDone < secCnt) :
    transferSecs (secsOp secCnt secsDone) = secsOp secCnt secsDone :=
  transferSecs_eq (secsOp_pos h).1 (secsOp_pos h).2.1

/-- The commands after this one, counted from here. -/
theorem later_command {secCnt secsDone : ℕ} {P : ℕ → Prop}
    (h : ∃ k, secsDone + secsOp secCnt secsDone + 256 * k < secCnt ∧
      P (secsDone + secsOp secCnt secsDone + 256 * k)) :
    ∃ k, secsDone + 256 * k < secCnt ∧ P (secsDone + 256 * k) := by
  obtain ⟨k, hk, hP⟩ := h
  have heq : secsDone + secsOp secCnt secsDone + 256 * k = secsDone + 256 * (k + 1) := by
    rw [secsOp] at hk ⊢
    split_ifs at hk ⊢ <;> omega
  exact ⟨k + 1, heq ▸ hk, heq ▸ hP⟩

/-- Reading `n` sectors and then the rest is reading them all. -/
theorem splice_read_add (buf : Buf) (d : Disk) (lba k n m : ℕ) :
    (buf.splice (k * 512) (d.read (lba + k)) (n * 512)).splice ((k + n) * 512)
      (d.read (lba + (k + n))) (m * 512) =
      buf.splice (k * 512) (d.read (lba + k)) ((n + m) * 512) := by
  funext i
  simp only [Buf.splice]
  -- the byte lies in the second part, in the first, or in neither
  split_ifs with h1 h2 h2 h3
  · rw [Disk.read_add, Disk.read_add, show (k + n) * 512 + (i - (k + n) * 512) = i by omega,
      show k * 512 + (i - k * 512) = i by omega]
  all_goals first | rfl | omega

/-- Writing `n` sectors and then the rest is writing them all. -/
theorem write_write_add (buf : Buf) (d : Disk) (lba k n m : ℕ) :
    (d.write (lba + k) (fun i => buf (k * 512 + i)) n).write (lba + (k + n))
      (fun i => buf ((k + n) * 512 + i)) m =
      d.write (lba + k) (fun i => buf (k * 512 + i)) (n + m) := by
  funext a
  simp only [Disk.write]
  split_ifs with h1 h2 h2 h3
  · funext i
    rw [show (k + n) * 512 + (512 * (a - (lba + (k + n))) + i) =
      k * 512 + (512 * (a - (lba + k)) + i) by omega]
  all_goals first | rfl | omega

/-- What is left of a read, if it returns. -/
theorem readChunks_wp {lba secCnt : ℕ} {d : Disk} (fuel : ℕ) :
    ∀ {secsDone : ℕ} {buf : Buf}, secsDone ≤ secCnt → secCnt ≤ secsDone + fuel →
      wp (readChunks lba secCnt fuel secsDone buf) (fun b d' => d' = d ∧
        b = buf.splice (secsDone * 512) (d.read (lba + secsDone)) ((secCnt - secsDone) * 512))
        (fun _ => ∃ k, secsDone + 256 * k < secCnt ∧ maxLba < lba + (secsDone + 256 * k)) d := by
  induction fuel with
  | zero =>
    intro secsDone buf h1 h2
    simp only [readChunks, wp_pure, true_and]
    funext i
    rw [Buf.splice_of_not_mem (by omega)]
  | succ fuel ih =>
    intro secsDone buf h1 h2
    simp only [readChunks, wp_ite]
    refine ⟨fun h => ?_, fun h => ?_⟩
    · obtain ⟨hpos, -, hle⟩ := secsOp_pos h
      simp only [selectSector, wp_bind, wp_ASSERT, wp_get, decide_eq_true_eq,
        decide_eq_false_iff_not, transferSecs_secsOp h]
      refine ⟨fun _ => (ih hle (by omega)).mono ?_ fun _ hf =>
          later_command (P := fun n => maxLba < lba + n) hf,
        fun hn => ⟨0, by omega, by omega⟩⟩
      rintro b d' ⟨rfl, rfl⟩
      refine ⟨rfl, ?_⟩
      rw [splice_read_add]
      congr 2
      omega
    · simp only [wp_pure, true_and]
      funext i
      rw [Buf.splice_of_not_mem (by omega)]

/-- What is left of a write, if it returns. -/
theorem writeChunks_wp {lba secCnt : ℕ} {buf : Buf} (fuel : ℕ) :
    ∀ {secsDone : ℕ} {d : Disk}, secsDone ≤ secCnt → secCnt ≤ secsDone + fuel →
      wp (writeChunks lba buf secCnt fuel secsDone) (fun _ d' =>
        d' = d.write (lba + secsDone) (fun i => buf (secsDone * 512 + i)) (secCnt - secsDone))
        (fun _ => ∃ k, secsDone + 256 * k < secCnt ∧ maxLba < lba + (secsDone + 256 * k)) d := by
  induction fuel with
  | zero =>
    intro secsDone d h1 h2
    simp only [writeChunks, wp_pure]
    funext a
    rw [Disk.write_of_not_mem (by omega)]
  | succ fuel ih =>
    intro secsDone d h1 h2
    simp only [writeChunks, wp_ite]
    refine ⟨fun h => ?_, fun h => ?_⟩
    · obtain ⟨hpos, -, hle⟩ := secsOp_pos h
      simp only [selectSector, wp_bind, wp_ASSERT, wp_modify, decide_eq_true_eq,
        decide_eq_false_iff_not, transferSecs_secsOp h]
      refine ⟨fun _ => (ih hle (by omega)).mono ?_ fun _ hf =>
          later_command (P := fun n => maxLba < lba + n) hf,
        fun hn => ⟨0, by omega, by omega⟩⟩
      rintro - d' rfl
      rw [write_write_add]
      congr 1
      omega
    · simp only [wp_pure]
      funext a
      rw [Disk.write_of_not_mem (by omega)]

section

variable {lba n : ℕ} {buf : Buf} {d : Disk}

/-- **A read of any length.** It stops only if it runs off the disk. -/
theorem ideRead_wp (hn : 0 < n) :
    wp (ideRead lba buf n) (fun b d' => d' = d ∧ b = buf.splice 0 (d.read lba) (n * 512))
      (fun _ => maxLba < lba + (n - 1)) d := by
  simp only [ideRead, wp_bind, wp_ASSERT, decide_eq_true_eq, decide_eq_false_iff_not]
  refine ⟨fun _ => ⟨fun _ => ?_, fun h => absurd hn h⟩, fun h => by omega⟩
  refine (readChunks_wp n (Nat.zero_le n) (by omega)).mono ?_ fun _ hf => by
    obtain ⟨k, hk, hf⟩ := hf
    omega
  rintro b d' ⟨rfl, rfl⟩
  simp

/-- **A write of any length.** -/
theorem ideWrite_wp (hn : 0 < n) :
    wp (ideWrite lba buf n) (fun _ d' => d' = d.write lba buf n)
      (fun _ => maxLba < lba + (n - 1)) d := by
  simp only [ideWrite, wp_bind, wp_ASSERT, decide_eq_true_eq, decide_eq_false_iff_not]
  refine ⟨fun _ => ⟨fun _ => ?_, fun h => absurd hn h⟩, fun h => by omega⟩
  refine (writeChunks_wp n (Nat.zero_le n) (by omega)).mono ?_ fun _ hf => by
    obtain ⟨k, hk, hf⟩ := hf
    omega
  rintro - d' rfl
  simp

theorem readChunks_one (hn : 0 < n) (hn' : n ≤ 256) (h : lba ≤ maxLba) :
    readChunks lba n n 0 buf d = .ok (buf.splice 0 (d.read lba) (n * 512), d) := by
  obtain ⟨m, rfl⟩ : ∃ m, n = m + 1 := ⟨n - 1, by omega⟩
  have hop : secsOp (m + 1) 0 = m + 1 := by rw [secsOp]; split <;> omega
  have hdone : ∀ b : Buf, readChunks lba (m + 1) m (m + 1) b d = .ok (b, d) := by
    intro b
    cases m <;> simp [readChunks]
  rw [readChunks, if_pos hn, hop, transferSecs_eq hn hn', selectSector]
  simp only [Nat.add_zero, Nat.zero_add, Nat.zero_mul]
  rw [bind_of_ok (ASSERT_of_true d (decide_eq_true h)), bind_of_ok (get_apply d), hdone]

theorem writeChunks_one (hn : 0 < n) (hn' : n ≤ 256) (h : lba ≤ maxLba) :
    writeChunks lba buf n n 0 d = .ok ((), d.write lba buf n) := by
  obtain ⟨m, rfl⟩ : ∃ m, n = m + 1 := ⟨n - 1, by omega⟩
  have hop : secsOp (m + 1) 0 = m + 1 := by rw [secsOp]; split <;> omega
  have hdone : ∀ e : Disk, writeChunks lba buf (m + 1) m (m + 1) e = .ok ((), e) := by
    intro e
    cases m <;> simp [writeChunks]
  rw [writeChunks, if_pos hn, hop, transferSecs_eq hn hn', selectSector]
  simp only [Nat.add_zero, Nat.zero_add, Nat.zero_mul]
  rw [bind_of_ok (ASSERT_of_true d (decide_eq_true h)), bind_of_ok (modify_apply _ d), hdone]

/-- **A read of one command**, exactly. -/
theorem wp_ideRead {Q : Buf → Disk → Prop} {E : Fault → Prop} (hn : 0 < n) (hn' : n ≤ 256) :
    wp (ideRead lba buf n) Q E d ↔
      (lba ≤ maxLba → Q (buf.splice 0 (d.read lba) (n * 512)) d) ∧
        (maxLba < lba → E (.panic .ideRead)) := by
  simp only [ideRead, wp_bind, wp_ASSERT, decide_eq_true_eq, decide_eq_false_iff_not, hn,
    not_true_eq_false, false_implies, and_true, true_implies, Nat.not_le]
  refine and_congr_left' (imp_congr_right fun h => ?_)
  rw [wp_of_ok (readChunks_one hn hn' h)]

/-- **A read of one sector** into an empty buffer, exactly. -/
theorem wp_readSector {Q : Buf → Disk → Prop} {E : Fault → Prop} :
    wp (ideRead lba (fun _ => 0) 1) Q E d ↔
      (lba ≤ maxLba → Q (d.sector lba) d) ∧ (maxLba < lba → E (.panic .ideRead)) := by
  have hbuf : Buf.splice (fun _ => 0) 0 (d.read lba) (1 * 512) = d.sector lba := by
    funext i
    rw [Buf.splice, Disk.sector]
    by_cases hi : i < 512
    · rw [if_pos ⟨Nat.zero_le i, by omega⟩, if_pos hi, Nat.sub_zero, Disk.read_of_lt hi]
    · rw [if_neg (by omega), if_neg hi]
  rw [wp_ideRead Nat.one_pos (by omega), hbuf]

/-- **A write of one command**, exactly. -/
theorem wp_ideWrite {Q : Unit → Disk → Prop} {E : Fault → Prop} (hn : 0 < n) (hn' : n ≤ 256) :
    wp (ideWrite lba buf n) Q E d ↔
      (lba ≤ maxLba → Q () (d.write lba buf n)) ∧ (maxLba < lba → E (.panic .ideWrite)) := by
  simp only [ideWrite, wp_bind, wp_ASSERT, decide_eq_true_eq, decide_eq_false_iff_not, hn,
    not_true_eq_false, false_implies, and_true, true_implies, Nat.not_le]
  refine and_congr_left' (imp_congr_right fun h => ?_)
  rw [wp_of_ok (writeChunks_one hn hn' h)]

end

end X86Os
