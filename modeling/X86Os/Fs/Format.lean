import X86Os.Fs.DirEdit

/-!
# Formatting and mounting a partition

`partition_format`, `mount_partition` and the end of `filesys_init`. The number of blocks is what is
left of the partition after the other regions; the bitmap for them is computed in two steps, first
as if it covered its own sectors. The bits beyond the last block are marked as used, except that the
loop which clears the last byte again clears one bit more than there are blocks in it. On a
partition of less than 620 sectors that byte is the first one, and the block of the root directory
is marked as free.

From 620 sectors on, and on the disk that the driver supports, the layout is a `Partition`, and the
file system on it is in order: `freshMount_post` is where every run starts.

## Main results

* `formatPartition` — the layout of a formatted partition
* `ofBuf_toBuf` — the super block is read back as it was written
* `freshMount_post`, `formatted_mount_sound` — **a formatted and mounted partition is in order**
-/

namespace X86Os

open X86Os.Comp FsState

/-! ### The super block -/

namespace SuperBlock

/-- The members of the structure in their order, all of them 32-bit words. -/
def words (sb : SuperBlock) : List ℕ :=
  [sb.magic, sb.secCnt, sb.inodeCnt, sb.partLbaBase, sb.blockBitmapLba, sb.blockBitmapSects,
    sb.inodeBitmapLba, sb.inodeBitmapSects, sb.inodeTableLba, sb.inodeTableSects, sb.dataStartLba,
    sb.rootInodeNo, sb.dirEntrySize]

/-- The sector of the super block. -/
def toBuf (sb : SuperBlock) : Buf := Buf.ofWords fun j => BitVec.ofNat 32 (sb.words.getD j 0)

/-- The super block that a sector is read as. -/
def ofBuf (b : Buf) : SuperBlock where
  magic := (b.toWords 0).toNat
  secCnt := (b.toWords 1).toNat
  inodeCnt := (b.toWords 2).toNat
  partLbaBase := (b.toWords 3).toNat
  blockBitmapLba := (b.toWords 4).toNat
  blockBitmapSects := (b.toWords 5).toNat
  inodeBitmapLba := (b.toWords 6).toNat
  inodeBitmapSects := (b.toWords 7).toNat
  inodeTableLba := (b.toWords 8).toNat
  inodeTableSects := (b.toWords 9).toNat
  dataStartLba := (b.toWords 10).toNat
  rootInodeNo := (b.toWords 11).toNat
  dirEntrySize := (b.toWords 12).toNat

end SuperBlock

/-! ### Sizes -/

/-- `DIV_ROUND_UP` on 32-bit words. -/
def divRoundUp (x step : ℕ) : ℕ := (x + step - 1) % 2 ^ 32 / step

/-- `inode_bitmap_sects`. -/
def inodeBitmapSects : ℕ := divRoundUp 4096 4096

/-- `inode_table_sects`. -/
def inodeTableSects : ℕ := divRoundUp (inodeSize * 4096) 512

/-- `free_sects`: what is left after the boot sector, the super block and the regions of the
inodes. -/
def freeSects (secCnt : ℕ) : ℕ :=
  (secCnt + 2 ^ 32 - (1 + 1 + inodeBitmapSects + inodeTableSects)) % 2 ^ 32

/-- `block_bitmap_bit_len`: the number of blocks. -/
def blockBitmapBitLen (secCnt : ℕ) : ℕ :=
  (freeSects secCnt + 2 ^ 32 - divRoundUp (freeSects secCnt) 4096) % 2 ^ 32

/-- `block_bitmap_sects`, computed a second time. -/
def blockBitmapSectors (secCnt : ℕ) : ℕ := divRoundUp (blockBitmapBitLen secCnt) 4096

/-- The super block of `partition_format`. -/
def formatSb (startLba secCnt : ℕ) : SuperBlock where
  magic := 0x19590318
  secCnt := secCnt
  inodeCnt := 4096
  partLbaBase := startLba
  blockBitmapLba := startLba + 2
  blockBitmapSects := blockBitmapSectors secCnt
  inodeBitmapLba := startLba + 2 + blockBitmapSectors secCnt
  inodeBitmapSects := inodeBitmapSects
  inodeTableLba := startLba + 2 + blockBitmapSectors secCnt + inodeBitmapSects
  inodeTableSects := inodeTableSects
  dataStartLba := startLba + 2 + blockBitmapSectors secCnt + inodeBitmapSects + inodeTableSects
  rootInodeNo := 0
  dirEntrySize := dirEntrySize

/-! ### The routines -/

/-- The loop that clears bits `0, …, block_bitmap_last_bit` of the last byte again. -/
def clearLastByte (byte : Byte) (lastBit : ℕ) : Byte :=
  (List.range (lastBit + 1)).foldl (fun b i => b &&& ~~~ bitmapMask i) byte

/-- The block bitmap of an empty partition with `bitLen` blocks. -/
def formatBlockBitmap (bitLen : ℕ) : Buf :=
  let lastByte := bitLen / 8
  let lastBit := bitLen % 8
  let buf : Buf := fun k => if k = 0 then 1 else 0
  let buf := buf.splice lastByte (fun _ => 0xff) (512 - lastByte % 512)
  fun k => if k = lastByte then clearLastByte (buf k) lastBit else buf k

/-- The inode of the root directory. -/
def rootDirInode (sb : SuperBlock) : Inode where
  iNo := 0
  iSize := BitVec.ofNat 32 (sb.dirEntrySize * 2)
  iOpenCnts := 0
  writeDeny := false
  iSectors := fun k => if k = 0 then BitVec.ofNat 32 sb.dataStartLba else 0

/-- `partition_format`. -/
def partitionFormat (startLba secCnt : ℕ) : Kern FsState Unit := do
  let sb := formatSb startLba secCnt
  onDisk (ideWrite (startLba + 1) sb.toBuf 1)
  let got ← sysMalloc
  check got .wild
  onDisk (ideWrite sb.blockBitmapLba (formatBlockBitmap (blockBitmapBitLen secCnt))
    sb.blockBitmapSects)
  onDisk (ideWrite sb.inodeBitmapLba (fun k => if k = 0 then 1 else 0) sb.inodeBitmapSects)
  onDisk (ideWrite sb.inodeTableLba (rootDirInode sb).toRecord sb.inodeTableSects)
  onDisk (ideWrite sb.dataStartLba (newDirSector 0 0) 1)

/-- `mount_partition` of the partition at `startLba`: the super block, with both bitmaps read and no
inode open. -/
def mountPartition (startLba : ℕ) : Kern FsState SuperBlock := do
  let gotBuf ← sysMalloc
  let gotSb ← sysMalloc
  ASSERT .mountPartition gotSb
  check gotBuf .wild
  let b ← onDisk (ideRead (startLba + 1) (fun _ => 0) 1)
  let sb := SuperBlock.ofBuf b
  let got ← sysMalloc
  ASSERT .mountPartition got
  let blockBits ← onDisk (ideRead sb.blockBitmapLba (fun _ => 0) sb.blockBitmapSects)
  let got ← sysMalloc
  ASSERT .mountPartition got
  let inodeBits ← onDisk (ideRead sb.inodeBitmapLba (fun _ => 0) sb.inodeBitmapSects)
  modify fun s => { s with
    blockBitmap := ⟨sb.blockBitmapSects * 512, blockBits⟩,
    inodeBitmap := ⟨sb.inodeBitmapSects * 512, inodeBits⟩,
    openInodes := [] }
  pure sb

/-- `open_root_dir`. -/
def openRootDir (part : Partition) : Kern FsState Unit := do
  let h ← inodeOpen part (BitVec.ofNat 32 part.sb.rootInodeNo)
  modify fun s => { s with rootInode := h }

/-- The end of `filesys_init`: the file table is empty. -/
def clearFileTable : Kern FsState Unit :=
  modify fun s => { s with
    fileTable := fun f => if f < maxFileOpen then { s.fileTable f with fdInode := none }
      else s.fileTable f }

/-! ### The layout -/

section

variable {startLba secCnt : ℕ}

theorem inodeBitmapSects_eq_one : inodeBitmapSects = 1 := by decide

theorem inodeTableSects_eq_608 : inodeTableSects = 608 := by decide

/-- The sector arithmetic of `partition_format` does not wrap around. -/
structure FormatFits (startLba secCnt : ℕ) : Prop where
  used : 611 ≤ secCnt
  rounded : secCnt - 611 + 4095 < 2 ^ 32
  last : startLba + secCnt < 2 ^ 32

theorem FormatFits.of_le (h1 : 611 ≤ secCnt) (h2 : startLba + secCnt ≤ maxLba + 1) :
    FormatFits startLba secCnt := by
  rw [maxLba] at h2
  exact ⟨h1, by omega, by omega⟩

theorem FormatFits.bitLen (h : FormatFits startLba secCnt) :
    blockBitmapBitLen secCnt = secCnt - 611 - (secCnt - 611 + 4095) / 4096 := by
  have h1 := h.used
  have h2 := h.rounded
  rw [blockBitmapBitLen, freeSects, inodeBitmapSects_eq_one, inodeTableSects_eq_608, divRoundUp]
  omega

theorem FormatFits.bitmapSects (h : FormatFits startLba secCnt) :
    blockBitmapSectors secCnt = (blockBitmapBitLen secCnt + 4095) / 4096 := by
  have h1 := h.used
  have h2 := h.rounded
  rw [blockBitmapSectors, divRoundUp, h.bitLen]
  omega

/-- The sectors of the bitmap and the blocks fit into what is left. -/
theorem FormatFits.blocks_le (h : FormatFits startLba secCnt) :
    611 + blockBitmapSectors secCnt + blockBitmapBitLen secCnt ≤ secCnt := by
  have h1 := h.used
  rw [h.bitmapSects, h.bitLen]
  omega

/-- **The layout of a formatted partition.** -/
def formatPartition (startLba secCnt : ℕ) (h1 : 620 ≤ secCnt)
    (h2 : startLba + secCnt ≤ maxLba + 1) : Partition where
  startLba := startLba
  secCnt := secCnt
  sb := formatSb startLba secCnt
  blockBitmapLba_eq := rfl
  blockBitmapSects_pos := by
    have h := FormatFits.of_le (Nat.le_trans (by decide) h1) h2
    simp only [formatSb, h.bitmapSects, h.bitLen]
    omega
  inodeBitmapLba_eq := rfl
  inodeBitmapSects_eq := inodeBitmapSects_eq_one
  inodeTableLba_eq := rfl
  inodeTableSects_eq := inodeTableSects_eq_608
  dataStartLba_eq := rfl
  rootInodeNo_eq := rfl
  dirEntrySize_eq := rfl
  dataStartLba_le := by
    have h := FormatFits.of_le (Nat.le_trans (by decide) h1) h2
    simp only [formatSb, h.bitmapSects, h.bitLen, inodeBitmapSects_eq_one, inodeTableSects_eq_608]
    omega
  bitmap_le := by
    have h := FormatFits.of_le (Nat.le_trans (by decide) h1) h2
    simp only [formatSb, h.bitmapSects, h.bitLen, inodeBitmapSects_eq_one, inodeTableSects_eq_608]
    omega
  end_le := h2

/-! ### The bits -/

/-- Clearing the low bits of a full byte. -/
theorem getLsbD_clearLastByte {lastBit i : ℕ} (hi : i < 8) :
    (clearLastByte 0xff lastBit).getLsbD i = decide (lastBit < i) := by
  have hfold : ∀ n, ((List.range n).foldl (fun b i => b &&& ~~~ bitmapMask i) (0xff#8)).getLsbD i =
      decide (n ≤ i) := by
    intro n
    induction n with
    | zero =>
      rw [List.range_zero, List.foldl_nil, show (0xff#8 : Byte) = BitVec.allOnes 8 from rfl,
        BitVec.getLsbD_allOnes]
      simp [hi]
    | succ n ih =>
      rw [List.range_succ, List.foldl_append, List.foldl_cons, List.foldl_nil, BitVec.getLsbD_and,
        ih, BitVec.getLsbD_not, getLsbD_bitmapMask hi]
      grind
  exact hfold (lastBit + 1)

/-- **The bits of the block bitmap** of `bitLen` blocks, as far as its sectors go. In the bytes
before the last one the first bit is set and no other; in the last byte and after it, the bits after
bit `bitLen`. -/
theorem bit_formatBlockBitmap {bitLen k : ℕ} (hk : k < 4096 * (bitLen / 4096 + 1)) :
    (formatBlockBitmap bitLen (k / 8)).getLsbD (k % 8) =
      if k / 8 < bitLen / 8 then decide (k = 0) else decide (bitLen < k) := by
  have h8 : k % 8 < 8 := Nat.mod_lt _ (by omega)
  rw [formatBlockBitmap]
  simp only
  rcases Nat.lt_trichotomy (k / 8) (bitLen / 8) with hlt | heq | hgt
  · rw [if_neg (by omega), Buf.splice_of_not_mem (by omega), if_pos hlt]
    by_cases h0 : k / 8 = 0
    · rw [if_pos h0, show (1 : Byte) = 1#8 from rfl, BitVec.getLsbD_one]
      grind
    · rw [if_neg h0, show (0 : Byte) = 0#8 from rfl, BitVec.getLsbD_zero]
      grind
  · rw [if_pos heq, Buf.splice_of_mem (by omega) (by omega), getLsbD_clearLastByte h8,
      if_neg (by omega)]
    grind
  · rw [if_neg (by omega), Buf.splice_of_mem (by omega) (by omega), if_neg (by omega),
      show (0xff : Byte) = BitVec.allOnes 8 from rfl, BitVec.getLsbD_allOnes]
    grind

/-! ### The regions -/

/-- A formatted disk: what is in each region. -/
structure Formatted (part : Partition) (d : Disk) : Prop where
  super : d (part.startLba + 1) = part.sb.toBuf
  blockBits : ∀ i < part.sb.blockBitmapSects * 512,
    d.read part.sb.blockBitmapLba i = formatBlockBitmap (blockBitmapBitLen part.secCnt) i
  inodeBits : ∀ i < 512, d part.sb.inodeBitmapLba i = if i = 0 then 1 else 0
  table : ∀ i < 608 * 512, d.read part.sb.inodeTableLba i = (rootDirInode part.sb).toRecord i
  root : d part.sb.dataStartLba = newDirSector 0 0

theorem ideWrite_post {lba n : ℕ} {buf : Buf} {s : FsState} {Q : Unit → FsState → Prop} (hn : 0 < n)
    (hQ : ∀ s' : FsState, s'.disk = s.disk.write lba buf n → Q () s') :
    post (onDisk (ideWrite lba buf n)) Q s := by
  rw [post, wp_onDisk]
  refine (ideWrite_wp hn).mono ?_ fun _ _ => trivial
  rintro - d rfl
  exact hQ _ rfl

variable {part : Partition} {s : FsState}

/-- What `partition_format` writes into each region, whatever the size of the partition. -/
structure WroteFormat (startLba secCnt : ℕ) (d : Disk) : Prop where
  super : d (startLba + 1) = (formatSb startLba secCnt).toBuf
  blockBits : ∀ i < blockBitmapSectors secCnt * 512,
    d.read (startLba + 2) i = formatBlockBitmap (blockBitmapBitLen secCnt) i
  inodeBits : ∀ i < 512, d (formatSb startLba secCnt).inodeBitmapLba i = if i = 0 then 1 else 0
  table : ∀ i < 608 * 512, d.read (formatSb startLba secCnt).inodeTableLba i =
    (rootDirInode (formatSb startLba secCnt)).toRecord i
  root : d (formatSb startLba secCnt).dataStartLba = newDirSector 0 0

theorem formatSb_regions (startLba secCnt : ℕ) :
    (formatSb startLba secCnt).blockBitmapLba = startLba + 2 ∧
    (formatSb startLba secCnt).blockBitmapSects = blockBitmapSectors secCnt ∧
    (formatSb startLba secCnt).inodeBitmapLba = startLba + 2 + blockBitmapSectors secCnt ∧
    (formatSb startLba secCnt).inodeBitmapSects = 1 ∧
    (formatSb startLba secCnt).inodeTableLba = (formatSb startLba secCnt).inodeBitmapLba + 1 ∧
    (formatSb startLba secCnt).inodeTableSects = 608 ∧
    (formatSb startLba secCnt).dataStartLba = (formatSb startLba secCnt).inodeTableLba + 608 := by
  have htab : (formatSb startLba secCnt).inodeTableLba =
    (formatSb startLba secCnt).inodeBitmapLba + inodeBitmapSects := rfl
  have hdata : (formatSb startLba secCnt).dataStartLba =
    (formatSb startLba secCnt).inodeTableLba + inodeTableSects := rfl
  rw [inodeBitmapSects_eq_one] at htab
  rw [inodeTableSects_eq_608] at hdata
  exact ⟨rfl, rfl, rfl, inodeBitmapSects_eq_one, htab, inodeTableSects_eq_608, hdata⟩

/-- **`partition_format`.** -/
theorem partitionFormat_wrote (startLba secCnt : ℕ) : post (partitionFormat startLba secCnt)
    (fun _ s' => 0 < blockBitmapSectors secCnt ∧ WroteFormat startLba secCnt s'.disk) s := by
  obtain ⟨hbits, hsects, hino, hone, htab, hrecs, hdata⟩ := formatSb_regions startLba secCnt
  obtain ⟨sb, hsb⟩ : ∃ sb, formatSb startLba secCnt = sb := ⟨_, rfl⟩
  rw [hsb] at hbits hsects hino hone htab hrecs hdata
  simp only [partitionFormat, hsb, post, wp_bind, wp_sysMalloc, wp_check, implies_true, and_true]
  refine ideWrite_post Nat.one_pos fun s1 hd1 _ => ?_
  rcases Nat.eq_zero_or_pos sb.blockBitmapSects with h0 | hpos
  · -- no sector to write fails an assertion
    have hzero : ∀ {lba : ℕ} {buf : Buf} {P : Unit → FsState → Prop} {s : FsState},
        post (onDisk (ideWrite lba buf 0)) P s := by
      intro lba buf P s
      simp only [post, wp_onDisk, ideWrite, wp_bind, wp_ASSERT, implies_true, and_true]
      intro _ h
      cases h
    rw [h0]
    exact hzero
  refine ideWrite_post hpos fun s2 hd2 => ?_
  refine ideWrite_post (by omega) fun s3 hd3 => ?_
  refine ideWrite_post (by omega) fun s4 hd4 => ?_
  refine ideWrite_post Nat.one_pos fun s5 hd5 => ⟨hsects ▸ hpos, ?_⟩
  -- each region was written once, and no other write reaches into it
  simp only [hd1] at hd2
  rw [hd2] at hd3
  rw [hd3] at hd4
  rw [hd4] at hd5
  rw [hd5]
  refine ⟨?_, fun i hi => ?_, fun i hi => ?_, fun i hi => ?_, ?_⟩
  · rw [Disk.write_of_not_mem (by omega), Disk.write_of_not_mem (by omega),
      Disk.write_of_not_mem (by omega), Disk.write_of_not_mem (by omega), Disk.write_one_self, hsb]
  · rw [Disk.read, Disk.write_of_not_mem (by omega), Disk.write_of_not_mem (by omega),
      Disk.write_of_not_mem (by omega), Disk.write_of_mem (by omega) (by omega)]
    exact congrArg _ (by omega)
  · rw [hsb, Disk.write_of_not_mem (by omega), Disk.write_of_not_mem (by omega), hone,
      Disk.write_one_self]
  · rw [hsb, Disk.read, Disk.write_of_not_mem (by omega), Disk.write_of_mem (by omega) (by omega)]
    exact congrArg _ (by omega)
  · rw [hsb, Disk.write_one_self]

theorem partitionFormat_post (hsb : part.sb = formatSb part.startLba part.secCnt) :
    post (partitionFormat part.startLba part.secCnt) (fun _ s' => Formatted part s'.disk) s := by
  refine (partitionFormat_wrote part.startLba part.secCnt).mono (fun _ s' h => ?_) fun _ h => h
  obtain ⟨hsuper, hblock, hinode, htable, hroot⟩ := h.2
  rw [← hsb] at hsuper hinode htable hroot
  refine ⟨hsuper, fun i hi => ?_, hinode, htable, hroot⟩
  rw [part.blockBitmapLba_eq]
  exact hblock i (by rw [hsb] at hi; exact hi)

/-! ### Mounting -/

/-- **The super block is read back as it was written.** -/
theorem ofBuf_toBuf {sb : SuperBlock} {b : Buf} (hb : ∀ k < 512, b k = sb.toBuf k)
    (hw : ∀ w ∈ sb.words, w < 2 ^ 32) : SuperBlock.ofBuf b = sb := by
  have hword : ∀ j < 13, (b.toWords j).toNat = sb.words.getD j 0 := by
    intro j hj
    have hlt : sb.words.getD j 0 < 2 ^ 32 := by
      rw [List.getD_eq_getElem?_getD, List.getElem?_eq_getElem (show j < sb.words.length from hj)]
      exact hw _ (List.getElem_mem _)
    rw [Buf.toWords_congr fun k _ hk => hb k (by omega), SuperBlock.toBuf, Buf.toWords_ofWords,
      BitVec.toNat_ofNat, Nat.mod_eq_of_lt hlt]
  simp only [SuperBlock.ofBuf, hword 0 (by omega), hword 1 (by omega), hword 2 (by omega),
    hword 3 (by omega), hword 4 (by omega), hword 5 (by omega), hword 6 (by omega),
    hword 7 (by omega), hword 8 (by omega), hword 9 (by omega), hword 10 (by omega),
    hword 11 (by omega), hword 12 (by omega)]
  rfl

/-- A partition that was mounted and has no inode open. -/
structure JustMounted (part : Partition) (s : FsState) : Prop where
  disk : Formatted part s.disk
  openInodes : s.openInodes = []
  blockLen : s.blockBitmap.btmpBytesLen = 512 * part.sb.blockBitmapSects
  blockBits : ∀ i < 512 * part.sb.blockBitmapSects,
    s.blockBitmap.bits i = formatBlockBitmap (blockBitmapBitLen part.secCnt) i
  inodeLen : s.inodeBitmap.btmpBytesLen = 512
  inodeBits : ∀ i < 512, s.inodeBitmap.bits i = if i = 0 then 1 else 0

/-- **`mount_partition`** of a formatted partition. -/
theorem mountPartition_post (hsb : part.sb = formatSb part.startLba part.secCnt)
    (hf : Formatted part s.disk) :
    post (mountPartition part.startLba) (fun sb s' => sb = part.sb ∧ JustMounted part s') s := by
  have hend := part.end_le
  have hle := part.dataStartLba_le
  have hlba := part.blockBitmapLba_eq
  have hino := part.inodeBitmapLba_eq
  have htab := part.inodeTableLba_eq
  have hdata := part.dataStartLba_eq
  have hwords : ∀ w ∈ part.sb.words, w < 2 ^ 32 := by
    have h1 : part.sb.magic = 0x19590318 := by rw [hsb]; rfl
    have h2 : part.sb.secCnt = part.secCnt := by rw [hsb]; rfl
    have h3 : part.sb.inodeCnt = 4096 := by rw [hsb]; rfl
    have h4 : part.sb.partLbaBase = part.startLba := by rw [hsb]; rfl
    have h5 := part.inodeBitmapSects_eq
    have h6 := part.inodeTableSects_eq
    have h7 := part.rootInodeNo_eq
    have h8 := part.dirEntrySize_eq
    rw [maxLba] at hend
    simp only [SuperBlock.words, List.mem_cons, List.not_mem_nil, or_false]
    omega
  simp only [mountPartition, post, wp_bind, wp_sysMalloc, wp_ASSERT, wp_check, wp_onDisk,
    wp_readSector, implies_true, and_true]
  intro _ _ _
  have hread : SuperBlock.ofBuf (s.disk.sector (part.startLba + 1)) = part.sb :=
    ofBuf_toBuf (fun k hk => by rw [Disk.sector_of_lt hk, hf.super]) hwords
  rw [hread]
  intro _
  refine (ideRead_wp part.blockBitmapSects_pos).mono ?_ fun _ _ => trivial
  rintro bits d' ⟨rfl, rfl⟩ -
  rw [part.inodeBitmapSects_eq]
  refine (ideRead_wp Nat.one_pos).mono ?_ fun _ _ => trivial
  rintro bits' d' ⟨rfl, rfl⟩
  simp only [wp_modify, wp_pure]
  refine ⟨trivial, hf, rfl, Nat.mul_comm _ _, fun i hi => ?_, rfl, fun i hi => ?_⟩
  · simp only
    rw [Buf.splice_of_mem (Nat.zero_le _) (by omega), Nat.sub_zero]
    exact hf.blockBits i (by omega)
  · simp only
    rw [Buf.splice_of_mem (Nat.zero_le _) (by omega), Nat.sub_zero, Disk.read_of_lt hi]
    exact hf.inodeBits i hi

/-! ### The file system on it -/

/-- The tree of an empty file system. -/
def rootTree : Tree := ⟨{0}, fun _ => .directory, fun _ => 0⟩

theorem rootTree_ok : TreeOk rootTree := by
  refine ⟨Finset.mem_singleton_self 0, rfl, rfl, fun n _ => ⟨Finset.mem_singleton_self 0, rfl⟩,
    fun n hn h0 => absurd (Finset.mem_singleton.1 hn) h0, fun n _ h => ?_⟩
  cases h

theorem children_rootTree (d : ℕ) : rootTree.children d = ∅ := by
  ext m
  simp only [Tree.mem_children, rootTree, Finset.mem_singleton, Finset.notMem_empty, iff_false]
  exact fun h => h.2.1 h.1

theorem JustMounted.node_zero (hm : JustMounted part s) :
    (s.view part).node 0 = (rootDirInode part.sb).stored := by
  rw [node_uncached (by rw [Uncached, hm.openInodes]; simp) (by omega)]
  refine stored_ofRecord fun k hk => ?_
  rw [inodeRecord_eq hk, Nat.zero_mul, Nat.zero_add]
  exact hm.disk.table k (by rw [inodeSize] at hk; omega)

theorem JustMounted.slot (hm : JustMounted part s) {k : ℕ} :
    (s.view part).slot 0 k = if k = 0 then blockAddr part 0 else 0 := by
  have hsec : ∀ j < 13, ((s.view part).node 0).iSectors j =
      if j = 0 then blockAddr part 0 else 0 := fun j hj => by
    rw [hm.node_zero, stored_iSectors hj]
    rfl
  rw [View.slot, slotAddr, hsec 12 (by omega)]
  by_cases hk : k < 12
  · rw [if_pos hk, hsec k (by omega)]
  · rw [if_neg hk, if_neg (show ¬ 12 = 0 by omega), if_pos rfl, if_neg (show ¬ k = 0 by omega)]
    split <;> rfl

/-- The bits of the blocks: the first one, of the root directory, is set. -/
theorem JustMounted.bit (hm : JustMounted part s)
    (hsb : part.sb = formatSb part.startLba part.secCnt) (h : 620 ≤ part.secCnt) {k : ℕ}
    (hk : k < blockBitmapBitLen part.secCnt) :
    s.blockBitmap.bit k = decide (k = 0) := by
  have hfits := FormatFits.of_le (Nat.le_trans (by decide) h) part.end_le
  have hlen := hfits.bitLen
  have hsects : part.sb.blockBitmapSects = (blockBitmapBitLen part.secCnt + 4095) / 4096 := by
    rw [hsb, ← hfits.bitmapSects]
    rfl
  rw [Bitmap.bit, hm.blockBits (k / 8) (by omega), bit_formatBlockBitmap (by omega)]
  split
  · rfl
  · rw [decide_eq_false (by omega), decide_eq_false (by omega)]

theorem JustMounted.inode_bit (hm : JustMounted part s) {n : ℕ} (hn : n < 4096) :
    s.inodeBitmap.bit n = true ↔ n = 0 := by
  rw [Bitmap.bit, hm.inodeBits (n / 8) (by omega)]
  by_cases h8 : n / 8 = 0
  · rw [if_pos h8, Nat.mod_eq_of_lt (by omega), show (1 : Byte) = 1#8 from rfl,
      BitVec.getLsbD_one]
    simp
  · rw [if_neg h8, show (0 : Byte) = 0#8 from rfl, BitVec.getLsbD_zero]
    simp only [Bool.false_eq_true, false_iff]
    omega

/-- An empty file system keeps the invariant. -/
theorem JustMounted.inv (hm : JustMounted part s) (h0 : s.blockBitmap.bit 0 = true) :
    FsInv part {0} rootTree (s.view part) := by
  have hpos : 0 < blockCnt part := Nat.mul_pos (by omega) part.blockBitmapSects_pos
  have hne := blockAddr_ne_zero hpos
  refine ⟨.of_first (a := fun _ => blockAddr part 0) ?_ ?_ ?_, fun n hn => ?_, fun n hn => ?_,
    fun d hd _ => ?_, fun n _ hk => ?_, rootTree_ok⟩
  · intro n hn k _
    obtain rfl := Finset.mem_singleton.1 hn
    exact hm.slot
  · exact fun n hn m hm' _ _ => (Finset.mem_singleton.1 hn).trans (Finset.mem_singleton.1 hm').symm
  · exact fun _ _ _ => ⟨0, hpos, rfl, h0⟩
  · obtain rfl := Finset.mem_singleton.1 hn
    rw [hm.node_zero]
    rfl
  · rw [Finset.mem_singleton.1 hn]
    omega
  · obtain rfl := Finset.mem_singleton.1 hd
    have hslot : (s.view part).slot 0 0 = blockAddr part 0 := hm.slot.trans (if_pos rfl)
    refine DirOk.fresh (by rwa [hslot]) (fun k hk _ => hm.slot.trans (if_neg (by omega)))
      (fun i hi => ?_) ?_ (children_rootTree 0)
    · rw [hslot, toNat_blockAddr hpos, view_data (Nat.le_add_right _ _), Nat.add_zero,
        Disk.sector_of_lt hi, hm.disk.root]
      rfl
    · rw [hm.node_zero]
      show BitVec.ofNat 32 (part.sb.dirEntrySize * 2) = 48
      rw [part.dirEntrySize_eq]
      rfl
  · cases hk

/-- `filesys_init` on a partition that it formats. -/
def freshMount (part : Partition) : Kern FsState Unit := do
  partitionFormat part.startLba part.secCnt
  let _ ← mountPartition part.startLba
  openRootDir part
  clearFileTable

/-- **A formatted and mounted partition is in order.** The root directory is the only inode, and the
only open one. -/
theorem freshMount_post (hsb : part.sb = formatSb part.startLba part.secCnt)
    (hsec : 620 ≤ part.secCnt) :
    post (freshMount part) (fun _ s' => Sound part rootTree s' ∧ CountsOk s' ∧
      s'.openInodes = [s'.rootInode] ∧ (s'.inode s'.rootInode).iOpenCnts = 1 ∧
      (∀ k, 1 ≤ k → k < blockBitmapBitLen part.secCnt → s'.blockBitmap.bit k = false) ∧
      ∀ f < maxFileOpen, (s'.fileTable f).fdInode = none) s := by
  rw [freshMount, post, wp_bind]
  refine (partitionFormat_post hsb).mono (fun _ s1 hf => ?_) fun _ h => h
  rw [wp_bind]
  refine (mountPartition_post hsb hf).mono ?_ fun _ h => h
  rintro - s2 ⟨-, hm⟩
  have hlen : 0 < blockBitmapBitLen part.secCnt := by
    rw [(FormatFits.of_le (Nat.le_trans (by decide) hsec) part.end_le).bitLen]
    omega
  have hinv := hm.inv (hm.bit hsb hsec hlen)
  have hcache : CacheOk {0} s2 := by
    refine ⟨?_, ?_, ?_, ?_⟩ <;> rw [hm.openInodes] <;> simp
  simp only [openRootDir, wp_bind, part.rootInodeNo_eq]
  refine (inodeOpen_wp hcache (Finset.mem_singleton_self 0) (by omega)
    (hinv.no 0 (Finset.mem_singleton_self 0)) fun _ _ => trivial).mono ?_ fun _ h => h
  intro h s3 ho
  have hmem : ∀ k, k ∈ s3.openInodes ↔ k = h := fun k => by
    rw [ho.mem_iff, hm.openInodes]
    simp
  have hopen : s3.openInodes = [h] := by
    have hnd := ho.cache.nodup
    match hl : s3.openInodes with
    | [] => exact absurd ((hmem h).2 rfl) (by rw [hl]; simp)
    | [a] => rw [(hmem a).1 (by rw [hl]; simp)]
    | a :: b :: l =>
      rw [hl] at hnd hmem
      have hab : a = b := ((hmem a).1 (by simp)).trans ((hmem b).1 (by simp)).symm
      rw [hab] at hnd
      simp at hnd
  have hcnt : (s3.inode h).iOpenCnts = 1 := by
    rcases ho.cnt with ⟨hh, -⟩ | ⟨-, -, hc, -⟩
    · rw [hm.openInodes] at hh
      exact absurd hh List.not_mem_nil
    · exact hc
  simp only [wp_modify, clearFileTable]
  refine ⟨⟨?_, ?_, ?_, ⟨(hmem h).2 rfl, Finset.mem_singleton_self 0, ho.no⟩,
    fun n hn => ?_, ?_, ?_⟩,
    fun k hk => ?_, hopen, hcnt, fun k h1 hk => ?_, fun f hf => ?_⟩
  · have := ho.view ▸ hinv
    exact this
  · exact ⟨ho.cache.nodup, ho.cache.lt, ho.cache.no, ho.cache.inj⟩
  · intro k hk
    exact ho.clean (by rw [hm.openInodes]; simp) k hk
  · show s3.inodeBitmap.bit n = true ↔ _
    rw [inodeBitmap_of_tables ho.same, hm.inode_bit hn]
    exact Finset.mem_singleton.symm
  · exact (congrArg _ (inodeBitmap_of_tables ho.same)).trans hm.inodeLen
  · exact (congrArg _ (blockBitmap_of_tables ho.same)).trans hm.blockLen
  · have hkh : k = h := (hmem k).1 hk
    subst hkh
    refine ⟨?_, ?_⟩
    · show (s3.inode k).iOpenCnts ≠ 0
      rw [hcnt]
      decide
    · show (s3.inode k).iOpenCnts.toNat + 8 < 2 ^ 32
      rw [hcnt]
      decide
  · show s3.blockBitmap.bit k = false
    rw [blockBitmap_of_tables ho.same, hm.bit hsb hsec hk, decide_eq_false (by omega)]
  · simp only [if_pos hf]

/-- **Every partition can be formatted and mounted.** From 620 sectors on, and as far as the driver
reaches: what `partition_format` leaves on the disk, whatever was there before, `mount_partition`
and `open_root_dir` take for a file system in good order. Its tree is the root directory, which is
the only open inode and open once; the other blocks of the partition are free, and no file is open.
-/
theorem formatted_mount_sound (startLba secCnt : ℕ) (h1 : 620 ≤ secCnt)
    (h2 : startLba + secCnt ≤ maxLba + 1) (s : FsState) :
    post (freshMount (formatPartition startLba secCnt h1 h2)) (fun _ s' =>
      Sound (formatPartition startLba secCnt h1 h2) rootTree s' ∧ CountsOk s' ∧
      s'.openInodes = [s'.rootInode] ∧ (s'.inode s'.rootInode).iOpenCnts = 1 ∧
      (∀ k, 1 ≤ k → k < blockBitmapBitLen secCnt → s'.blockBitmap.bit k = false) ∧
      ∀ f < maxFileOpen, (s'.fileTable f).fdInode = none) s :=
  freshMount_post rfl h1

end

/-! ### A small partition -/

/-- A blank disk and nothing in memory. -/
def blankFs : FsState where
  disk := fun _ _ => 0
  blockBitmap := bitmapInit 0
  inodeBitmap := bitmapInit 0
  inode := fun _ => inodeInit 0
  inodeTop := 0
  openInodes := []
  rootInode := 0
  fileTable := fun _ => ⟨0, 0, none⟩
  fdTable := fun _ fd => if fd < 3 then fd else -1
  cur := 1
  mallocs := fun _ => true
  junk := fun _ => 0

/-- An empty file system on `smallPart`. -/
def smallFs : FsState := (freshMount smallPart).final blankFs

/-- `/f`. -/
def pathF : CString := ⟨[0x2f, 0x66], by decide⟩

/-- `/d`. -/
def pathD : CString := ⟨[0x2f, 0x64], by decide⟩

/-- `/d/f`. -/
def pathDF : CString := ⟨[0x2f, 0x64, 0x2f, 0x66], by decide⟩

theorem freshMount_smallFs : freshMount smallPart blankFs = .ok ((), smallFs) :=
  eq_ok_of_value? (by decide +kernel)

theorem sound_smallFs : Sound smallPart rootTree smallFs ∧ CountsOk smallFs ∧
    smallFs.openInodes = [smallFs.rootInode] ∧
    ∀ f < maxFileOpen, (smallFs.fileTable f).fdInode = none := by
  obtain ⟨hs, hr, hopen, -, -, hfree⟩ :=
    (freshMount_post (by decide) (by decide)).ok freshMount_smallFs
  exact ⟨hs, hr, hopen, hfree⟩

/-- `smallPart` is what is formatted from sector 1 on. -/
theorem formatted_mount_sound_small :
    formatPartition 1 1000 (by decide) (by decide) = smallPart ∧
      Sound smallPart rootTree smallFs :=
  ⟨rfl, ((formatted_mount_sound 1 1000 (by decide) (by decide) blankFs).ok
    (show freshMount smallPart blankFs = .ok ((), smallFs) from freshMount_smallFs)).1⟩

/-! ### A small tree -/

/-- The sector of a directory with further entries. -/
def dirSector (inodeNo parentNo : Word) (es : List DirEntry) : Buf := fun k =>
  if k < 48 then newDirSector inodeNo parentNo k else (es.getD (k / 24 - 2) .blank).toBytes (k % 24)

/-- A directory `/f`, with a directory `x` and an empty file `y` in it. -/
def smallTree : Tree where
  live := {0, 1, 2, 3}
  kind := fun n => if n = 3 then .regular else .directory
  home := fun n => if n ≤ 1 then 0 else 1

/-- The inodes of the tree, each directory with one block. -/
def treeInode (n : ℕ) : Inode where
  iNo := BitVec.ofNat 32 n
  iSize := BitVec.ofNat 32 ([72, 96, 48].getD n 0)
  iOpenCnts := 0
  writeDeny := false
  iSectors := fun k => if k = 0 ∧ n < 3 then BitVec.ofNat 32 (613 + n) else 0

/-- The disk with that tree. -/
def treeDisk : Disk := fun lba =>
  if lba = 5 then fun k => (treeInode (k / 76)).toRecord (k % 76)
  else if lba = 613 then dirSector 0 0 [⟨fun k => [0x66].getD k 0, 1, FileType.directory.code⟩]
  else if lba = 614 then
    dirSector 1 0 [⟨fun k => [0x78].getD k 0, 2, FileType.directory.code⟩,
      ⟨fun k => [0x79].getD k 0, 3, FileType.regular.code⟩]
  else if lba = 615 then dirSector 2 1 []
  else fun _ => 0

/-- The tree mounted, with the root as the only open inode. -/
def treeFs : FsState where
  disk := treeDisk
  blockBitmap := ⟨512, fun k => if k = 0 then 7 else 0⟩
  inodeBitmap := ⟨512, fun k => if k = 0 then 15 else 0⟩
  inode := fun _ => { treeInode 0 with iOpenCnts := 1 }
  inodeTop := 1
  openInodes := [0]
  rootInode := 0
  fileTable := fun _ => ⟨0, 0, none⟩
  fdTable := fun _ fd => if fd < 3 then fd else -1
  cur := 1
  mallocs := fun _ => true
  junk := fun _ => 0

theorem treeFs_slot : ∀ n ∈ smallTree.live, ∀ k ≤ 140, (treeFs.view smallPart).slot n k =
    if k = 0 then if n < 3 then blockAddr smallPart n else 0 else 0 := by
  decide +kernel

/-- The directories of the tree, one entry after the other. -/
theorem treeFs_dirs : ∀ d < 3, DirOk smallTree (treeFs.view smallPart) d := by
  have hslot : ∀ d < 3, (treeFs.view smallPart).slot d 0 ≠ 0 ∧
      ∀ k < 140, 0 < k → (treeFs.view smallPart).slot d k = 0 := by
    decide +kernel
  have hdot : ∀ d < 3, strEq ((treeFs.view smallPart).cell d 0 0).filename dot = true ∧
      ((treeFs.view smallPart).cell d 0 0).iNo = BitVec.ofNat 32 d ∧
      ((treeFs.view smallPart).cell d 0 0).fType = FileType.directory.code := by
    decide +kernel
  have hdotDot : ∀ d < 3, strEq ((treeFs.view smallPart).cell d 0 1).filename dotDot = true ∧
      ((treeFs.view smallPart).cell d 0 1).iNo = BitVec.ofNat 32 (smallTree.home d) ∧
      ((treeFs.view smallPart).cell d 0 1).fType = FileType.directory.code := by
    decide +kernel
  have hno : ∀ d < 3, ∀ i < 21, 2 ≤ i ∧ ((treeFs.view smallPart).cell d 0 i).fType ≠ 0 →
      ((treeFs.view smallPart).cell d 0 i).iNo.toNat = d + i - 1 := by
    decide +kernel
  refine fun d hd => .of_first (hslot d hd).1 (fun k h0 hk => (hslot d hd).2 k hk h0)
    ⟨(hdot d hd).1, (hdot d hd).2.1, (hdot d hd).2.2⟩
    ⟨(hdotDot d hd).1, (hdotDot d hd).2.1, (hdotDot d hd).2.2⟩ ?_ ?_
    (fun i hi j hj hc hc' he => ?_) ?_
  · revert d
    decide +kernel
  · revert d
    decide +kernel
  · have hi' := hno d hd i hi hc
    rw [he, hno d hd j hj hc'] at hi'
    omega
  · revert d
    decide +kernel

theorem sound_treeFs : Sound smallPart smallTree treeFs := by
  have hfile : FileOk (treeFs.view smallPart) 3 := ⟨0, by decide +kernel⟩
  refine ⟨⟨.of_first treeFs_slot (by decide +kernel) ?_, by decide +kernel, ?_, ?_, ?_,
    ⟨by decide, by decide, by decide, by decide, by decide, by decide⟩⟩,
    ⟨by decide, by decide, by decide, by decide⟩, ?_, ⟨by decide, by decide, by decide⟩,
    ?_, rfl, rfl⟩
  · have hbit : ∀ n < 3, (treeFs.view smallPart).used n = true := by decide
    intro n _ h0
    have hn : n < 3 := by
      by_contra hn
      exact h0 (if_neg hn)
    exact ⟨n, Nat.lt_trans hn (by decide), if_pos hn, hbit n hn⟩
  · decide
  · intro d hd hk
    refine treeFs_dirs d ?_
    revert d
    decide
  · intro n hn hk
    obtain rfl : n = 3 := by
      revert n
      decide
    exact hfile
  · intro h hh
    obtain rfl := List.mem_singleton.1 hh
    exact stored_congr (by decide +kernel) (by decide +kernel) (by decide +kernel)
  · have hlow : ∀ n < 8, treeFs.inodeBitmap.bit n = true ↔ n ∈ smallTree.live := by decide
    intro n _
    by_cases h8 : n < 8
    · exact hlow n h8
    · have hbyte : treeFs.inodeBitmap.bits (n / 8) = 0 := if_neg (by omega)
      have hlive : ∀ m ∈ smallTree.live, m < 8 := by decide
      rw [Bitmap.bit, hbyte, show (0 : Byte) = 0#8 from rfl, BitVec.getLsbD_zero]
      exact ⟨fun h => (Bool.false_ne_true h).elim, fun h => absurd (hlive n h) h8⟩

theorem countsOk_treeFs : CountsOk treeFs := by
  intro h hh
  obtain rfl := List.mem_singleton.1 hh
  exact ⟨by decide, by decide⟩

end X86Os
