import X86Os.Device.Ide

/-!
# The disk driver and its registers

`ide_read` and `ide_write` as `device/ide.c` has them, down to the registers of the channel. The
sector count, the address and the drive are written one byte at a time, then the command, and then
the data are moved through the data port. The device is what the driver relies on: a command moves
as many sectors as the count register says, where 0 is 256, from the address on, of the drive that
is selected. Moving any other number of words than the command asked for is `wild`.

In `Device.Ide` a command is one step on the disk. Here it is shown that the registers come to just
that, the 8 bits of the count included (`command_read`, `command_write`), so that the driver down
here does what the one up there does (`readChunks_sim`, `writeChunks_sim`), and moves each sector
once. That the data are ready when the driver comes to move them is the subject of `Channel`.

## Main results

* `readChunks_sim`, `writeChunks_sim` — the loops do what those of `Device.Ide` do
* `transfers_split` — **transfers of any length**
-/

namespace X86Os.IdeRegs

open X86Os.Comp

/-! ### The device -/

/-- `CMD_READ_SECTOR` and `CMD_WRITE_SECTOR`. -/
inductive Cmd
  | readSector
  | writeSector
  deriving DecidableEq

/-- The registers of a channel, the command that waits for its data to be moved, the two drives, and
the sectors that have been moved so far. -/
structure Dev where
  sectCnt : Byte
  lbaL : Byte
  lbaM : Byte
  lbaH : Byte
  device : Byte
  command : Option Cmd
  disks : Bool → Disk
  moved : List (Bool × ℕ)

namespace Dev

variable (s : Dev)

/-- The drive that is selected: bit 4 of the device register. -/
def drive : Bool := s.device &&& 0x10 != 0

/-- The address: three registers, and the low bits of the device register. -/
def lba : ℕ := s.lbaL.toNat + 2 ^ 8 * s.lbaM.toNat + 2 ^ 16 * s.lbaH.toNat +
  2 ^ 24 * (s.device &&& 0x0f).toNat

/-- The number of sectors. -/
def count : ℕ := if s.sectCnt = 0 then 256 else s.sectCnt.toNat

/-- The data have been moved. -/
def finish : Dev :=
  { s with
    command := none, moved := s.moved ++ (List.range' s.lba s.count).map (s.drive, ·) }

/-- The sectors asked for are overwritten. -/
def store (buf : Buf) : Dev :=
  { s.finish with
    disks := Function.update s.disks s.drive ((s.disks s.drive).write s.lba buf s.count) }

end Dev

/-- `insw(reg_data, buf + off, words)`. -/
def insw (buf : Buf) (off words : ℕ) : Kern Dev Buf := do
  let s ← get
  check (s.command == some .readSector && words == 256 * s.count) .wild
  modify Dev.finish
  pure (buf.splice off ((s.disks s.drive).read s.lba) (2 * words))

/-- `outsw(reg_data, buf + off, words)`. -/
def outsw (buf : Buf) (off words : ℕ) : Kern Dev Unit := do
  let s ← get
  check (s.command == some .writeSector && words == 256 * s.count) .wild
  modify (·.store fun i => buf (off + i))

/-! ### The driver -/

/-- The device register: `BIT_DEV_MBS | BIT_DEV_LBA`, and `BIT_DEV_DEV` for the second drive. -/
def regDevice (devNo : ℕ) : Byte := 0xa0 ||| 0x40 ||| if devNo = 1 then 0x10 else 0

/-- `select_disk`. -/
def selectDisk (devNo : ℕ) : Kern Dev Unit := modify fun s => { s with device := regDevice devNo }

/-- `select_sector`. -/
def selectSector (devNo lba : ℕ) (secCnt : Byte) : Kern Dev Unit := do
  ASSERT .selectSector (decide (lba ≤ maxLba))
  modify fun s => { s with
    sectCnt := secCnt
    lbaL := BitVec.ofNat 8 lba
    lbaM := BitVec.ofNat 8 (lba >>> 8)
    lbaH := BitVec.ofNat 8 (lba >>> 16)
    device := regDevice devNo ||| BitVec.ofNat 8 (lba >>> 24) }

/-- `cmd_out`. -/
def cmdOut (cmd : Cmd) : Kern Dev Unit := modify fun s => { s with command := some cmd }

/-- `size_in_byte`, of `read_from_sector` and `write2sector`. -/
def sizeInByte (secCnt : Byte) : ℕ := if secCnt = 0 then 256 * 512 else secCnt.toNat * 512

/-- `read_from_sector`. -/
def readFromSector (buf : Buf) (off : ℕ) (secCnt : Byte) : Kern Dev Buf :=
  insw buf off (sizeInByte secCnt / 2)

/-- `write2sector`. -/
def write2sector (buf : Buf) (off : ℕ) (secCnt : Byte) : Kern Dev Unit :=
  outsw buf off (sizeInByte secCnt / 2)

/-- A round of the loop of `ide_read`, for `op` sectors from `lba` on. -/
def readOp (devNo lba : ℕ) (buf : Buf) (off op : ℕ) : Kern Dev Buf := do
  selectSector devNo lba (BitVec.ofNat 8 op)
  cmdOut .readSector
  readFromSector buf off (BitVec.ofNat 8 op)

/-- The loop of `ide_read`. -/
def readChunks (devNo lba secCnt : ℕ) : (fuel secsDone : ℕ) → Buf → Kern Dev Buf
  | 0, _, buf => pure buf
  | fuel + 1, secsDone, buf =>
    if secsDone < secCnt then do
      let buf ← readOp devNo (lba + secsDone) buf (secsDone * 512) (secsOp secCnt secsDone)
      readChunks devNo lba secCnt fuel (secsDone + secsOp secCnt secsDone) buf
    else pure buf

/-- `ide_read`. -/
def ideRead (devNo lba : ℕ) (buf : Buf) (secCnt : ℕ) : Kern Dev Buf := do
  ASSERT .ideRead (decide (lba ≤ maxLba))
  ASSERT .ideRead (decide (0 < secCnt))
  selectDisk devNo
  readChunks devNo lba secCnt secCnt 0 buf

/-- A round of the loop of `ide_write`. -/
def writeOp (devNo lba : ℕ) (buf : Buf) (off op : ℕ) : Kern Dev Unit := do
  selectSector devNo lba (BitVec.ofNat 8 op)
  cmdOut .writeSector
  write2sector buf off (BitVec.ofNat 8 op)

/-- The loop of `ide_write`. -/
def writeChunks (devNo lba : ℕ) (buf : Buf) (secCnt : ℕ) : (fuel secsDone : ℕ) → Kern Dev Unit
  | 0, _ => pure ()
  | fuel + 1, secsDone =>
    if secsDone < secCnt then do
      writeOp devNo (lba + secsDone) buf (secsDone * 512) (secsOp secCnt secsDone)
      writeChunks devNo lba buf secCnt fuel (secsDone + secsOp secCnt secsDone)
    else pure ()

/-- `ide_write`. -/
def ideWrite (devNo lba : ℕ) (buf : Buf) (secCnt : ℕ) : Kern Dev Unit := do
  ASSERT .ideWrite (decide (lba ≤ maxLba))
  ASSERT .ideWrite (decide (0 < secCnt))
  selectDisk devNo
  writeChunks devNo lba buf secCnt secCnt 0

/-! ### One command -/

section

variable {s : Dev} {devNo lba n : ℕ}

/-- The registers that ask for `n` sectors from `lba` on. -/
def Dev.asks (s : Dev) (cmd : Cmd) (devNo lba n : ℕ) : Dev :=
  { s with
    sectCnt := BitVec.ofNat 8 n
    lbaL := BitVec.ofNat 8 lba
    lbaM := BitVec.ofNat 8 (lba >>> 8)
    lbaH := BitVec.ofNat 8 (lba >>> 16)
    device := regDevice devNo ||| BitVec.ofNat 8 (lba >>> 24)
    command := some cmd }

variable {cmd : Cmd}

theorem device_asks (hlba : lba ≤ maxLba) : (s.asks cmd devNo lba n).device = regDevice devNo := by
  have hhigh : lba >>> 24 = 0 := by
    rw [Nat.shiftRight_eq_div_pow]
    rw [maxLba] at hlba
    omega
  rw [Dev.asks, hhigh]
  exact BitVec.or_zero

theorem drive_asks (hlba : lba ≤ maxLba) :
    (s.asks cmd devNo lba n).drive = decide (devNo = 1) := by
  rw [Dev.drive, device_asks hlba, regDevice]
  split_ifs with h
  · rw [h]
    decide
  · rw [decide_eq_false h]
    decide

/-- The bytes of the address, put together again. -/
theorem lba_asks (hlba : lba ≤ maxLba) : (s.asks cmd devNo lba n).lba = lba := by
  have hlow : (regDevice devNo &&& 0x0f).toNat = 0 := by
    rw [regDevice]
    split_ifs <;> decide
  rw [Dev.lba, device_asks hlba, hlow]
  simp only [Dev.asks, BitVec.toNat_ofNat, Nat.shiftRight_eq_div_pow]
  rw [maxLba] at hlba
  omega

theorem ofNat_eq_zero (hpos : 0 < n) (hn : n ≤ 256) : BitVec.ofNat 8 n = 0 ↔ n = 256 := by
  rw [← BitVec.toNat_inj, BitVec.toNat_ofNat]
  change n % 256 = 0 ↔ _
  omega

/-- **The count goes through eight bits**, in which 256 is 0. -/
theorem count_asks (hpos : 0 < n) (hn : n ≤ 256) : (s.asks cmd devNo lba n).count = n := by
  rw [Dev.count, Dev.asks]
  dsimp only
  split_ifs with h
  · exact ((ofNat_eq_zero hpos hn).1 h).symm
  · rw [BitVec.toNat_ofNat]
    have := mt (ofNat_eq_zero hpos hn).2 h
    omega

theorem sizeInByte_ofNat (hpos : 0 < n) (hn : n ≤ 256) :
    sizeInByte (BitVec.ofNat 8 n) / 2 = 256 * n := by
  rw [sizeInByte]
  split_ifs with h
  · rw [(ofNat_eq_zero hpos hn).1 h]
  · rw [BitVec.toNat_ofNat]
    have := mt (ofNat_eq_zero hpos hn).2 h
    omega

/-- The sectors of a drive, one after the other. -/
def sectors (devNo lba n : ℕ) : List (Bool × ℕ) := (List.range' lba n).map (decide (devNo = 1), ·)

theorem moved_finish (hpos : 0 < n) (hn : n ≤ 256) (hlba : lba ≤ maxLba) :
    (s.asks cmd devNo lba n).finish.moved = s.moved ++ sectors devNo lba n := by
  rw [Dev.finish, drive_asks hlba, lba_asks hlba, count_asks hpos hn]
  rfl

theorem check_asks (hpos : 0 < n) (hn : n ≤ 256) : ((s.asks cmd devNo lba n).command == some cmd &&
    256 * n == 256 * (s.asks cmd devNo lba n).count) = true := by
  rw [count_asks hpos hn]
  simp [Dev.asks]

/-- **A read command.** -/
theorem readOp_eq {buf : Buf} {off : ℕ} (hpos : 0 < n) (hn : n ≤ 256) (hlba : lba ≤ maxLba) :
    readOp devNo lba buf off n s =
      .ok (buf.splice off ((s.disks (decide (devNo = 1))).read lba) (n * 512),
        (s.asks .readSector devNo lba n).finish) := by
  rw [readOp, selectSector, bind_bind, bind_of_ok (ASSERT_of_true s (decide_eq_true hlba)),
    bind_of_ok (modify_apply _ _), cmdOut, bind_of_ok (modify_apply _ _), readFromSector,
    sizeInByte_ofNat hpos hn, insw]
  change (get >>= _ : Kern Dev Buf) (s.asks .readSector devNo lba n) = _
  rw [bind_of_ok (get_apply _), bind_of_ok (check_of_true _ _ (check_asks hpos hn)),
    bind_of_ok (modify_apply _ _), drive_asks hlba, lba_asks hlba, ← Nat.mul_assoc, Nat.mul_comm n]
  rfl

/-- **A write command.** -/
theorem writeOp_eq {buf : Buf} {off : ℕ} (hpos : 0 < n) (hn : n ≤ 256) (hlba : lba ≤ maxLba) :
    writeOp devNo lba buf off n s =
      .ok ((), (s.asks .writeSector devNo lba n).store fun i => buf (off + i)) := by
  rw [writeOp, selectSector, bind_bind, bind_of_ok (ASSERT_of_true s (decide_eq_true hlba)),
    bind_of_ok (modify_apply _ _), cmdOut, bind_of_ok (modify_apply _ _), write2sector,
    sizeInByte_ofNat hpos hn, outsw]
  change (get >>= _ : Kern Dev Unit) (s.asks .writeSector devNo lba n) = _
  rw [bind_of_ok (get_apply _), bind_of_ok (check_of_true _ _ (check_asks hpos hn)), modify_apply]

theorem disks_store {buf : Buf} (hpos : 0 < n) (hn : n ≤ 256) (hlba : lba ≤ maxLba) :
    ((s.asks cmd devNo lba n).store buf).disks = Function.update s.disks (decide (devNo = 1))
      ((s.disks (decide (devNo = 1))).write lba buf n) := by
  rw [Dev.store, drive_asks hlba, lba_asks hlba, count_asks hpos hn]
  rfl

/-! ### The commands in a row -/

theorem sectors_add (m : ℕ) :
    sectors devNo lba n ++ sectors devNo (lba + n) m = sectors devNo lba (n + m) := by
  rw [sectors, sectors, sectors, ← List.map_append, List.range'_append_1]

/-- An address beyond the last one stops the driver. -/
theorem selectSector_error {c : Byte} (h : ¬ lba ≤ maxLba) :
    selectSector devNo lba c s = .error (.panic .selectSector) := by
  rw [selectSector, bind_apply, ASSERT, check, if_neg (by simpa using h)]

/-- **The loop of `ide_read`** does what the loop on the disk does, and moves the sectors. -/
theorem readChunks_sim (devNo : ℕ) {secCnt : ℕ} (fuel : ℕ) : ∀ {secsDone : ℕ} {buf : Buf} {s : Dev},
    secsDone ≤ secCnt → secCnt ≤ secsDone + fuel →
      wp (X86Os.readChunks lba secCnt fuel secsDone buf) (fun b _ => ∃ s',
        readChunks devNo lba secCnt fuel secsDone buf s = .ok (b, s') ∧ s'.disks = s.disks ∧
        s'.moved = s.moved ++ sectors devNo (lba + secsDone) (secCnt - secsDone))
        (fun e => readChunks devNo lba secCnt fuel secsDone buf s = .error e)
        (s.disks (decide (devNo = 1))) := by
  induction fuel with
  | zero =>
    intro secsDone buf s h1 h2
    refine ⟨s, rfl, rfl, ?_⟩
    rw [show secCnt - secsDone = 0 by omega]
    exact (List.append_nil _).symm
  | succ fuel ih =>
    intro secsDone buf s h1 h2
    rw [X86Os.readChunks, readChunks]
    split_ifs with h
    · obtain ⟨hpos, hle, hsum⟩ := secsOp_pos h
      simp only [X86Os.selectSector, wp_bind, wp_ASSERT, wp_get, transferSecs_secsOp h,
        decide_eq_true_eq, decide_eq_false_iff_not]
      refine ⟨fun hlba => ?_, fun hlba => ?_⟩
      · rw [bind_of_ok (readOp_eq hpos hle hlba)]
        refine (ih (s := (s.asks .readSector _ _ _).finish) hsum (by omega)).mono ?_ fun _ h => h
        rintro b d ⟨s', hok, hdisks, hmoved⟩
        refine ⟨s', hok, hdisks, ?_⟩
        rw [hmoved, moved_finish hpos hle hlba, List.append_assoc, ← Nat.add_assoc, sectors_add]
        congr 2
        omega
      · rw [bind_apply, readOp, bind_apply, selectSector_error hlba]
    · refine ⟨s, rfl, rfl, ?_⟩
      rw [show secCnt - secsDone = 0 by omega]
      exact (List.append_nil _).symm

/-- **The loop of `ide_write`.** The other drive stays as it is. -/
theorem writeChunks_sim (devNo : ℕ) {secCnt : ℕ} {buf : Buf} (fuel : ℕ) :
    ∀ {secsDone : ℕ} {s : Dev}, secsDone ≤ secCnt → secCnt ≤ secsDone + fuel →
      wp (X86Os.writeChunks lba buf secCnt fuel secsDone) (fun _ d => ∃ s',
        writeChunks devNo lba buf secCnt fuel secsDone s = .ok ((), s') ∧
        s'.disks = Function.update s.disks (decide (devNo = 1)) d ∧
        s'.moved = s.moved ++ sectors devNo (lba + secsDone) (secCnt - secsDone))
        (fun e => writeChunks devNo lba buf secCnt fuel secsDone s = .error e)
        (s.disks (decide (devNo = 1))) := by
  induction fuel with
  | zero =>
    intro secsDone s h1 h2
    refine ⟨s, rfl, (Function.update_eq_self _ _).symm, ?_⟩
    rw [show secCnt - secsDone = 0 by omega]
    exact (List.append_nil _).symm
  | succ fuel ih =>
    intro secsDone s h1 h2
    rw [X86Os.writeChunks, writeChunks]
    split_ifs with h
    · obtain ⟨hpos, hle, hsum⟩ := secsOp_pos h
      simp only [X86Os.selectSector, wp_bind, wp_ASSERT, wp_modify, transferSecs_secsOp h,
        decide_eq_true_eq, decide_eq_false_iff_not]
      refine ⟨fun hlba => ?_, fun hlba => ?_⟩
      · rw [bind_of_ok (writeOp_eq hpos hle hlba)]
        have hrest := ih (s := (s.asks .writeSector devNo (lba + secsDone)
          (secsOp secCnt secsDone)).store fun i => buf (secsDone * 512 + i)) hsum (by omega)
        rw [disks_store hpos hle hlba, Function.update_self] at hrest
        refine hrest.mono ?_ fun _ he => he
        rintro - d ⟨s', hok, hdisks, hmoved⟩
        refine ⟨s', hok, hdisks.trans (Function.update_idem ..), hmoved.trans ?_⟩
        change (s.asks _ _ _ _).finish.moved ++ _ = _
        rw [moved_finish hpos hle hlba, List.append_assoc, ← Nat.add_assoc, sectors_add]
        congr 2
        omega
      · rw [bind_apply, writeOp, bind_apply, selectSector_error hlba]
    · refine ⟨s, rfl, (Function.update_eq_self _ _).symm, ?_⟩
      rw [show secCnt - secsDone = 0 by omega]
      exact (List.append_nil _).symm

variable {secCnt : ℕ}

/-- Every command starts on the disk. -/
def Starts (lba secCnt : ℕ) : Prop := ∀ k, 256 * k < secCnt → lba + 256 * k ≤ maxLba

theorem Starts.no_fault (h : Starts lba secCnt) :
    ¬ ∃ k, 0 + 256 * k < secCnt ∧ maxLba < lba + (0 + 256 * k) := by
  rintro ⟨k, hk, hf⟩
  rw [Nat.zero_add] at hk hf
  exact absurd (h k hk) (by omega)

theorem ideRead_ok (buf : Buf) (s : Dev) (hcnt : 1 ≤ secCnt) (h : Starts lba secCnt) :
    ∃ s', ideRead devNo lba buf secCnt s =
        .ok (buf.splice 0 ((s.disks (decide (devNo = 1))).read lba) (secCnt * 512), s') ∧
      s'.disks = s.disks ∧ s'.moved = s.moved ++ sectors devNo lba secCnt := by
  have hdisk : wp (X86Os.readChunks lba secCnt secCnt 0 buf) _ _ (s.disks (decide (devNo = 1))) :=
    readChunks_wp secCnt (Nat.zero_le _) (by omega)
  obtain ⟨b, d, hrun, -, rfl⟩ := (hdisk.mono (fun _ _ h => h) fun _ => h.no_fault).returns
  have hlba : lba ≤ maxLba := h 0 hcnt
  have hpos : 0 < secCnt := hcnt
  obtain ⟨s', hok, hdisks, hmoved⟩ :=
    (readChunks_sim devNo (s := { s with device := regDevice devNo }) secCnt (Nat.zero_le _)
      (Nat.le_add_left _ _)).ok hrun
  refine ⟨s', ?_, hdisks, hmoved⟩
  rw [ideRead, bind_of_ok (ASSERT_of_true s (decide_eq_true hlba)),
    bind_of_ok (ASSERT_of_true s (decide_eq_true hpos)), selectDisk,
    bind_of_ok (modify_apply _ _), hok]
  simp

theorem ideWrite_ok (buf : Buf) (s : Dev) (hcnt : 1 ≤ secCnt) (h : Starts lba secCnt) :
    ∃ s', ideWrite devNo lba buf secCnt s = .ok ((), s') ∧
      s'.disks = Function.update s.disks (decide (devNo = 1))
        ((s.disks (decide (devNo = 1))).write lba buf secCnt) ∧
      s'.moved = s.moved ++ sectors devNo lba secCnt := by
  have hdisk : wp (X86Os.writeChunks lba buf secCnt secCnt 0) _ _ (s.disks (decide (devNo = 1))) :=
    writeChunks_wp secCnt (Nat.zero_le _) (by omega)
  obtain ⟨b, d, hrun, rfl⟩ := (hdisk.mono (fun _ _ h => h) fun _ => h.no_fault).returns
  have hlba : lba ≤ maxLba := h 0 hcnt
  have hpos : 0 < secCnt := hcnt
  obtain ⟨s', hok, hdisks, hmoved⟩ :=
    (writeChunks_sim devNo (s := { s with device := regDevice devNo }) secCnt (Nat.zero_le _)
      (Nat.le_add_left _ _)).ok hrun
  refine ⟨s', ?_, hdisks.trans ?_, hmoved⟩
  · rw [ideWrite, bind_of_ok (ASSERT_of_true s (decide_eq_true hlba)),
      bind_of_ok (ASSERT_of_true s (decide_eq_true hpos)), selectDisk,
      bind_of_ok (modify_apply _ _), hok]
  · simp

end

/-- **Transfers of any length.** If every command starts on the disk, `ide_read` fills the buffer
with the sectors asked for, `ide_write` stores the buffer in them and changes nothing else, and
either moves each of them once. -/
theorem transfers_split {devNo lba secCnt : ℕ} (buf : Buf) (s : Dev) (hcnt : 1 ≤ secCnt)
    (h : Starts lba secCnt) :
    (∃ s', ideRead devNo lba buf secCnt s =
        .ok (buf.splice 0 ((s.disks (decide (devNo = 1))).read lba) (secCnt * 512), s') ∧
      s'.disks = s.disks ∧ s'.moved = s.moved ++ sectors devNo lba secCnt) ∧
    ∃ s', ideWrite devNo lba buf secCnt s = .ok ((), s') ∧
      s'.disks = Function.update s.disks (decide (devNo = 1))
        ((s.disks (decide (devNo = 1))).write lba buf secCnt) ∧
      s'.moved = s.moved ++ sectors devNo lba secCnt :=
  ⟨ideRead_ok buf s hcnt h, ideWrite_ok buf s hcnt h⟩

/-- 513 sectors, in three commands, the last of which starts at the last address; of two drives with
one byte of 1 and one of 2, from the second one. -/
theorem transfers_split_513 :
    let s : Dev := ⟨0, 0, 0, 0, 0, none, fun d _ _ => if d then 2 else 1, []⟩
    (∃ s', ideRead 1 (maxLba - 512) (fun _ => 0) 513 s =
        .ok (Buf.splice (fun _ => 0) 0 ((s.disks true).read (maxLba - 512)) (513 * 512), s') ∧
      s'.disks = s.disks ∧ s'.moved = s.moved ++ sectors 1 (maxLba - 512) 513) := by
  have hstarts : Starts (maxLba - 512) 513 := fun k hk => by
    have : 512 ≤ maxLba := by decide
    omega
  exact (transfers_split (fun _ => 0) _ (by decide) hstarts).1

end X86Os.IdeRegs
