import X86Os.Fs.Inode
import X86Os.Kernel.Bitmap

/-!
# The state of the file system

What the file system keeps in memory: the two bitmaps of the mounted partition, the inode objects
with the list `open_inodes` that finds them by number, the system-wide `file_table`, and every
process's descriptors. An inode object is known by its address, not by its number: the list may
hold two objects of one number, and then the one in front is found.

Addresses are handed out in increasing order and not used again, and they are the kernel's:
`inode_open` takes an inode object from the kernel's heap and `inode_close` gives it back there.
`file_create` takes it from the heap of its caller, so it is modelled for a kernel thread, for which
the two are the same; when a process creates a file, its closing fails an assertion of `sys_free`.

`sys_malloc` may fail at any call: the coming outcomes are the stream `mallocs`, over which every
statement quantifies. A buffer from `sys_malloc` is zeroed and is a value here, so an access past
its end is not represented.
-/

namespace X86Os

open X86Os.Comp

/-- `struct file`. `fdInode` is an address, `none` for a null pointer. -/
structure File where
  fdPos : Word
  fdFlag : Word
  fdInode : Option ℕ

/-- The file system in memory and on disk. -/
structure FsState where
  disk : Disk
  blockBitmap : Bitmap
  inodeBitmap : Bitmap
  /-- The inode objects, by address. -/
  inode : ℕ → Inode
  /-- The next address to hand out. -/
  inodeTop : ℕ
  /-- `open_inodes`, front first. -/
  openInodes : List ℕ
  /-- `root_dir.inode`. -/
  rootInode : ℕ
  fileTable : ℕ → File
  /-- `fd_table` of every process. -/
  fdTable : ℕ → ℕ → Int
  /-- The process that makes the call. -/
  cur : ℕ
  /-- Whether the coming calls of `sys_malloc` succeed. -/
  mallocs : ℕ → Bool
  /-- What the coming uninitialised locals hold. -/
  junk : ℕ → Word

namespace FsState

variable (s : FsState)

/-- Change an inode object. -/
def updInode (h : ℕ) (g : Inode → Inode) : FsState :=
  { s with inode := fun k => if k = h then g (s.inode k) else s.inode k }

/-- Change an entry of `file_table`. -/
def updFile (f : ℕ) (g : File → File) : FsState :=
  { s with fileTable := fun k => if k = f then g (s.fileTable k) else s.fileTable k }

/-- Change a descriptor of the running process. -/
def setFd (fd : ℕ) (v : Int) : FsState :=
  { s with fdTable := fun p k => if p = s.cur ∧ k = fd then v else s.fdTable p k }

end FsState

open FsState

/-- `MAX_FILE_OPEN`. -/
def maxFileOpen : ℕ := 32

/-- `MAX_FILES_OPEN_PER_PROC`. -/
def maxFilesOpenPerProc : ℕ := 8

/-- Run a routine of the driver. -/
def onDisk {α : Type} (x : Kern Disk α) : Kern FsState α :=
  zoom FsState.disk (fun s d => { s with disk := d }) x

/-- Whether `sys_malloc` returns a buffer. -/
def sysMalloc : Kern FsState Bool := do
  let s ← get
  modify fun s => { s with mallocs := fun k => s.mallocs (k + 1) }
  pure (s.mallocs 0)

/-- The value of an uninitialised local. -/
def uninit : Kern FsState Word := do
  let s ← get
  modify fun s => { s with junk := fun k => s.junk (k + 1) }
  pure (s.junk 0)

/-- The address of a fresh inode object. -/
def mallocInode : Kern FsState ℕ := do
  let s ← get
  modify fun s => { s with inodeTop := s.inodeTop + 1 }
  pure s.inodeTop

section

variable (part : Partition)

/-! ### Bitmaps of the partition -/

/-- `enum bitmap_type`. -/
inductive BitmapType
  | inodeBitmap | blockBitmap
  deriving DecidableEq, Repr

/-- `inode_bitmap_alloc`. -/
def inodeBitmapAlloc : Kern FsState Word := do
  let s ← get
  let bitIdx ← lift (bitmapScan s.inodeBitmap 1)
  if bitIdx = -1 then pure (-1)
  else do
    modify fun s => { s with inodeBitmap := bitmapSet s.inodeBitmap bitIdx.toNat true }
    pure (BitVec.ofInt 32 bitIdx)

/-- `block_bitmap_alloc`: the address of a block, not its index. -/
def blockBitmapAlloc : Kern FsState Word := do
  let s ← get
  let bitIdx ← lift (bitmapScan s.blockBitmap 1)
  if bitIdx = -1 then pure (-1)
  else do
    modify fun s => { s with blockBitmap := bitmapSet s.blockBitmap bitIdx.toNat true }
    pure (BitVec.ofInt 32 (part.sb.dataStartLba + bitIdx))

/-- `bitmap_sync`: write the 512 bytes of a bitmap that bit `bitIdx` is in. -/
def bitmapSync (bitIdx : ℕ) (btmpType : BitmapType) : Kern FsState Unit := do
  let s ← get
  let offSec := bitIdx / 4096
  let offSize := offSec * 512
  match btmpType with
  | .inodeBitmap =>
    onDisk (ideWrite (part.sb.inodeBitmapLba + offSec)
      (fun i => s.inodeBitmap.bits (offSize + i)) 1)
  | .blockBitmap =>
    onDisk (ideWrite (part.sb.blockBitmapLba + offSec)
      (fun i => s.blockBitmap.bits (offSize + i)) 1)

/-- The index of a block in the bitmap: `block_lba - data_start_lba` on 32-bit words. -/
def blockBitmapIdx (blockLba : Word) : ℕ := (blockLba - BitVec.ofNat 32 part.sb.dataStartLba).toNat

/-- `inode_init`. -/
def inodeInit (inodeNo : Word) : Inode where
  iNo := inodeNo
  iSize := 0
  iOpenCnts := 0
  writeDeny := false
  iSectors := fun _ => 0

/-! ### Opening and closing inodes -/

/-- `inode_open`. Neither allocation is checked before the buffer is used. -/
def inodeOpen (inodeNo : Word) : Kern FsState ℕ := do
  let s ← get
  match s.openInodes.find? fun h => (s.inode h).iNo == inodeNo with
  | some h => do
    modify fun s => s.updInode h fun i => { i with iOpenCnts := i.iOpenCnts + 1 }
    pure h
  | none => do
    let gotInode ← sysMalloc
    let gotBuf ← sysMalloc
    check (gotInode && gotBuf) .wild
    let r ← onDisk (loadInode part inodeNo.toNat)
    let h ← mallocInode
    modify fun s => { s.updInode h (fun _ => { Inode.ofRecord r with iOpenCnts := 1 }) with
      openInodes := h :: s.openInodes }
    pure h

/-- `inode_close`, of an inode object in the kernel's heap. -/
def inodeClose (h : ℕ) : Kern FsState Unit := do
  modify fun s => s.updInode h fun i => { i with iOpenCnts := i.iOpenCnts - 1 }
  let s ← get
  if (s.inode h).iOpenCnts = 0 then modify fun s => { s with openInodes := s.openInodes.erase h }
  else pure ()

/-- Read an indirect table into `all_blocks + 12`. -/
def readTable (tableLba : Word) (allBlocks : ℕ → Word) : Kern FsState (ℕ → Word) := do
  let b ← onDisk (ideRead tableLba.toNat (fun _ => 0) 1)
  pure fun i => if 12 ≤ i ∧ i < 140 then b.toWords (i - 12) else allBlocks i

/-- Write `all_blocks + 12` to an indirect table. -/
def writeTable (tableLba : Word) (allBlocks : ℕ → Word) : Kern FsState Unit :=
  onDisk (ideWrite tableLba.toNat (Buf.ofWords fun j => allBlocks (12 + j)) 1)

/-- Give the block at `blockLba` back. `inode_release` asserts that it is not block 0. -/
def freeBlock (blockLba : Word) : Kern FsState Unit := do
  let idx := blockBitmapIdx part blockLba
  ASSERT .inodeRelease (decide (0 < idx))
  modify fun s => { s with blockBitmap := bitmapSet s.blockBitmap idx false }
  bitmapSync part idx .blockBitmap

/-- One round of the loop of `inode_release`. -/
def freeUsed (blockLba : Word) : Kern FsState Unit :=
  if blockLba ≠ 0 then freeBlock part blockLba else pure ()

/-- The loop of `inode_release` over `all_blocks`, with `left` entries to go. -/
def freeBlocks (allBlocks : ℕ → Word) : (left : ℕ) → (blockIdx : ℕ) → Kern FsState Unit
  | 0, _ => pure ()
  | left + 1, blockIdx => do
    freeUsed part (allBlocks blockIdx)
    freeBlocks allBlocks left (blockIdx + 1)

/-- The first twelve entries of `all_blocks`, the rest zero. -/
def directBlocks (inode : Inode) : ℕ → Word := fun i => if i < 12 then inode.iSectors i else 0

/-- Every block an inode refers to: its direct blocks, its indirect table, and the entries of the
table that are in use. -/
def blockRefs (inode : Inode) (d : Disk) : List Word :=
  ((List.range 13).map inode.iSectors).filter (· ≠ 0) ++
    if inode.iSectors 12 = 0 then []
    else ((List.range 128).map (d (inode.iSectors 12).toNat).toWords).filter (· ≠ 0)

/-- Step 1 of `inode_release`: every block of the inode goes back to the bitmap. -/
def releaseBlocks (inode : Inode) : Kern FsState Unit :=
  if inode.iSectors 12 ≠ 0 then do
    let allBlocks ← readTable (inode.iSectors 12) (directBlocks inode)
    freeBlock part (inode.iSectors 12)
    freeBlocks part allBlocks 140 0
  else freeBlocks part (directBlocks inode) 12 0

/-- `inode_release`. -/
def inodeRelease (inodeNo : Word) : Kern FsState Unit := do
  let h ← inodeOpen part inodeNo
  let s ← get
  ASSERT .inodeRelease ((s.inode h).iNo == inodeNo)
  releaseBlocks part (s.inode h)
  modify fun s => { s with inodeBitmap := bitmapSet s.inodeBitmap inodeNo.toNat false }
  bitmapSync part inodeNo.toNat .inodeBitmap
  let gotBuf ← sysMalloc
  check gotBuf .wild
  onDisk (inodeDelete part inodeNo.toNat fun _ => 0)
  inodeClose h

/-! ### Blocks -/

/-- The address of block `i` of the data area. -/
def blockAddr (i : ℕ) : Word := BitVec.ofNat 32 (part.sb.dataStartLba + i)

/-- The number of blocks that the block bitmap covers. -/
def blockCnt : ℕ := 4096 * part.sb.blockBitmapSects

/-- The free blocks of a bitmap are sectors of the disk. -/
def FreeOnDisk (u : Bitmap) : Prop :=
  ∀ i < blockCnt part, u.bit i = false → (blockAddr part i).toNat ≤ maxLba

/-- All that is on disk between two addresses stays. The sectors of both bitmaps are excepted. -/
def BitmapFrame (d d' : Disk) : Prop :=
  ∀ a, a < part.sb.blockBitmapLba ∨ part.sb.inodeTableLba ≤ a → d' a = d a

/-! ### Write-through -/

/-- Where a bitmap starts on disk. -/
def bitmapLba : BitmapType → ℕ
  | .inodeBitmap => part.sb.inodeBitmapLba
  | .blockBitmap => part.sb.blockBitmapLba

/-- How many sectors it has. -/
def bitmapSects : BitmapType → ℕ
  | .inodeBitmap => 1
  | .blockBitmap => part.sb.blockBitmapSects

/-- The bitmap in memory. -/
def FsState.bitmapOf (s : FsState) : BitmapType → Bitmap
  | .inodeBitmap => s.inodeBitmap
  | .blockBitmap => s.blockBitmap

/-- Sector `j` of a bitmap is on disk as it is in memory. -/
def SliceOk (s : FsState) (t : BitmapType) (j : ℕ) : Prop :=
  ∀ k < 512, s.disk (bitmapLba part t + j) k = (s.bitmapOf t).bits (512 * j + k)

/-- Every sector of the two bitmaps that was on disk as in memory still is, but for those in `X`. -/
def SlicesKept (X : Set (BitmapType × ℕ)) (s s' : FsState) : Prop :=
  ∀ t, ∀ j < bitmapSects part t, (t, j) ∉ X → SliceOk part s t j → SliceOk part s' t j

end

section

variable {part : Partition} {i j : ℕ} {s : FsState} {E : Fault → Prop}

theorem toNat_blockAddr (h : i < blockCnt part) :
    (blockAddr part i).toNat = part.sb.dataStartLba + i := by
  rw [blockAddr, BitVec.toNat_ofNat, Nat.mod_eq_of_lt]
  exact Nat.lt_trans (part.data_lt h) (by decide)

theorem freeOnDisk_smallPart (u : Bitmap) : FreeOnDisk smallPart u := by
  intro i hi _
  have hcnt : blockCnt smallPart = 4096 := rfl
  rw [toNat_blockAddr hi, show smallPart.sb.dataStartLba = 613 from rfl, maxLba]
  omega

theorem blockAddr_ne_zero (h : i < blockCnt part) : blockAddr part i ≠ 0 := by
  intro h0
  have h1 := toNat_blockAddr h
  have h2 := part.dataStartLba_pos
  rw [h0, show (0 : Word).toNat = 0 from rfl] at h1
  omega

theorem blockAddr_ne_neg_one (h : i < blockCnt part) : blockAddr part i ≠ -1 := by
  intro h0
  have h1 := toNat_blockAddr h
  have h2 := part.data_lt h
  rw [h0, show (-1 : Word).toNat = 2 ^ 32 - 1 by decide] at h1
  omega

theorem blockAddr_inj (hi : i < blockCnt part) (hj : j < blockCnt part)
    (h : blockAddr part i = blockAddr part j) : i = j := by
  have h1 := toNat_blockAddr hi
  rw [h, toNat_blockAddr hj] at h1
  omega

theorem blockBitmapIdx_blockAddr (h : i < blockCnt part) :
    blockBitmapIdx part (blockAddr part i) = i := by
  have h1 := part.data_lt h
  rw [blockBitmapIdx, blockAddr, BitVec.toNat_sub, BitVec.toNat_ofNat, BitVec.toNat_ofNat]
  omega

theorem mem_blockRefs {inode : Inode} {d : Disk} {w : Word} :
    w ∈ blockRefs inode d ↔ w ≠ 0 ∧ ((∃ k < 13, inode.iSectors k = w) ∨
      inode.iSectors 12 ≠ 0 ∧ ∃ k < 128, (d (inode.iSectors 12).toNat).toWords k = w) := by
  rw [blockRefs]
  split <;> simp_all [and_comm, and_or_left]

/-! ### Specifications of the small routines -/

@[simp] theorem wp_onDisk {α : Type} {x : Kern Disk α} {Q : α → FsState → Prop}
    :
    wp (onDisk x) Q E s ↔ wp x (fun a d => Q a { s with disk := d }) E s.disk := wp_zoom

@[simp] theorem wp_sysMalloc {Q : Bool → FsState → Prop} :
    wp sysMalloc Q E s ↔ Q (s.mallocs 0) { s with mallocs := fun k => s.mallocs (k + 1) } := by
  simp [sysMalloc]

@[simp] theorem wp_uninit {Q : Word → FsState → Prop} :
    wp uninit Q E s ↔ Q (s.junk 0) { s with junk := fun k => s.junk (k + 1) } := by
  simp [uninit]

@[simp] theorem wp_mallocInode {Q : ℕ → FsState → Prop} :
    wp mallocInode Q E s ↔ Q s.inodeTop { s with inodeTop := s.inodeTop + 1 } := by
  simp [mallocInode]

/-- A scan for one bit that panics, of a bitmap that is full. -/
theorem full_of_scan_error {b : Bitmap} {f : Fault} (h : bitmapScan b 1 = .error f) :
    f = .panic .bitmapScan ∧ ∀ i < 8 * b.btmpBytesLen, b.bit i = true := by
  refine ⟨bitmapScan_error h, fun i hi => ?_⟩
  by_contra hc
  obtain ⟨r, hr⟩ := bitmapScan_one_isOk hi (Bool.eq_false_iff.2 hc)
  rw [hr] at h
  cases h

/-- **`block_bitmap_alloc`** sets the lowest clear bit and returns the address of its block. It
panics if there is none. -/
theorem blockBitmapAlloc_wp {Q : Word → FsState → Prop}
    (hlen : s.blockBitmap.btmpBytesLen = 512 * part.sb.blockBitmapSects)
    (hE : (∀ i < blockCnt part, s.blockBitmap.bit i = true) → E (.panic .bitmapScan))
    (hQ : ∀ i < blockCnt part, s.blockBitmap.bit i = false →
      (∀ j < i, s.blockBitmap.bit j = true) →
      Q (blockAddr part i) { s with blockBitmap := bitmapSet s.blockBitmap i true }) :
    wp (blockBitmapAlloc part) Q E s := by
  have hcnt : blockCnt part = 8 * s.blockBitmap.btmpBytesLen := by rw [hlen, blockCnt]; omega
  simp only [blockBitmapAlloc, wp_bind, wp_get, wp_lift]
  refine ⟨fun r hr => ?_, fun f hf => ?_⟩
  · obtain ⟨i, rfl, hi, hc, hlow⟩ := bitmapScan_one hr
    rw [if_neg (by omega)]
    exact hQ i (hcnt ▸ hi) hc hlow
  · obtain ⟨rfl, hfull⟩ := full_of_scan_error hf
    exact hE (hcnt ▸ hfull)

theorem blockBitmapAlloc_post {Q : Word → FsState → Prop}
    (hlen : s.blockBitmap.btmpBytesLen = 512 * part.sb.blockBitmapSects)
    (hQ : ∀ i < blockCnt part, s.blockBitmap.bit i = false →
      Q (blockAddr part i) { s with blockBitmap := bitmapSet s.blockBitmap i true }) :
    post (blockBitmapAlloc part) Q s :=
  blockBitmapAlloc_wp hlen (fun _ => trivial) fun i hi hc _ => hQ i hi hc

/-- **`inode_bitmap_alloc`** sets the lowest clear bit. It panics if there is none. -/
theorem inodeBitmapAlloc_wp {Q : Word → FsState → Prop}
    (hE : (∀ i < 8 * s.inodeBitmap.btmpBytesLen, s.inodeBitmap.bit i = true) →
      E (.panic .bitmapScan))
    (hQ : ∀ i < 8 * s.inodeBitmap.btmpBytesLen, s.inodeBitmap.bit i = false →
      (∀ j < i, s.inodeBitmap.bit j = true) →
      Q (BitVec.ofNat 32 i) { s with inodeBitmap := bitmapSet s.inodeBitmap i true }) :
    wp inodeBitmapAlloc Q E s := by
  simp only [inodeBitmapAlloc, wp_bind, wp_get, wp_lift]
  refine ⟨fun r hr => ?_, fun f hf => ?_⟩
  · obtain ⟨i, rfl, hi, hc, hlow⟩ := bitmapScan_one hr
    rw [if_neg (by omega)]
    exact hQ i hi hc hlow
  · obtain ⟨rfl, hfull⟩ := full_of_scan_error hf
    exact hE hfull

theorem inodeBitmapAlloc_post {Q : Word → FsState → Prop}
    (hQ : ∀ i < 8 * s.inodeBitmap.btmpBytesLen, s.inodeBitmap.bit i = false →
      (∀ j < i, s.inodeBitmap.bit j = true) →
      Q (BitVec.ofNat 32 i) { s with inodeBitmap := bitmapSet s.inodeBitmap i true }) :
    post inodeBitmapAlloc Q s := inodeBitmapAlloc_wp (fun _ => trivial) hQ

theorem SlicesKept.refl (X : Set (BitmapType × ℕ)) (s : FsState) : SlicesKept part X s s :=
  fun _ _ _ _ h => h

theorem SlicesKept.trans {X : Set (BitmapType × ℕ)} {s1 s2 s3 : FsState}
    (h : SlicesKept part X s1 s2) (h' : SlicesKept part X s2 s3) : SlicesKept part X s1 s3 :=
  fun t j hj hX hs => h' t j hj hX (h t j hj hX hs)

/-- The sectors of the bitmaps lie before the inode table. -/
theorem bitmapLba_lt {t : BitmapType} (hj : j < bitmapSects part t) :
    part.sb.blockBitmapLba ≤ bitmapLba part t + j ∧
      bitmapLba part t + j < part.sb.inodeTableLba := by
  have h1 := part.inodeBitmapLba_eq
  have h2 := part.inodeTableLba_eq
  cases t <;> simp only [bitmapSects, bitmapLba] at hj ⊢ <;> omega

theorem bitmapLba_inj {t t' : BitmapType} {j' : ℕ} (hj : j < bitmapSects part t)
    (hj' : j' < bitmapSects part t')
    (he : bitmapLba part t + j = bitmapLba part t' + j') : t = t' ∧ j = j' := by
  have h1 := part.inodeBitmapLba_eq
  cases t <;> cases t' <;>
    simp only [bitmapSects, bitmapLba, reduceCtorEq, true_and, false_and] at * <;> omega

/-- Neither the bitmaps nor their sectors changed. -/
theorem SlicesKept.of_same {X : Set (BitmapType × ℕ)} {s s' : FsState}
    (hb : ∀ t k, (s'.bitmapOf t).bits k = (s.bitmapOf t).bits k)
    (hd : ∀ a, part.sb.blockBitmapLba ≤ a → a < part.sb.inodeTableLba → s'.disk a = s.disk a) :
    SlicesKept part X s s' := by
  intro t j hj _ hs k hk
  obtain ⟨h1, h2⟩ := bitmapLba_lt hj
  rw [hd _ h1 h2, hb]
  exact hs k hk

/-- A bit changed in memory: its sector is behind. -/
theorem SlicesKept.bitmapSet {X : Set (BitmapType × ℕ)} {s s' : FsState} {t : BitmapType} {v : Bool}
    (hself : s'.bitmapOf t = X86Os.bitmapSet (s.bitmapOf t) i v)
    (hother : ∀ t' ≠ t, s'.bitmapOf t' = s.bitmapOf t') (hd : s'.disk = s.disk)
    (hX : (t, i / 4096) ∈ X) : SlicesKept part X s s' := by
  intro t' j hj hX' hs k hk
  rw [hd, hs k hk]
  by_cases ht : t' = t
  · subst ht
    have hji : j ≠ i / 4096 := fun h => hX' (h ▸ hX)
    rw [hself, bits_bitmapSet_of_ne]
    omega
  · rw [hother t' ht]

theorem SlicesKept.sync {X : Set (BitmapType × ℕ)} {s s' : FsState} {t : BitmapType}
    (hj : j < bitmapSects part t) (hb : ∀ t', s'.bitmapOf t' = s.bitmapOf t')
    (hd : s'.disk = s.disk.write (bitmapLba part t + j)
      (fun k => (s.bitmapOf t).bits (512 * j + k)) 1) :
    (∀ s0, SlicesKept part (insert (t, j) X) s0 s → SlicesKept part X s0 s') := by
  intro s0 hs0 t' j' hj' hX hs k hk
  by_cases he : t' = t ∧ j' = j
  · obtain ⟨rfl, rfl⟩ := he
    rw [hd, hb, Disk.write_one_self]
  · have hne : bitmapLba part t' + j' ≠ bitmapLba part t + j := fun h => he (bitmapLba_inj hj' hj h)
    rw [hd, hb, Disk.write_one_of_ne hne]
    refine hs0 t' j' hj' ?_ hs k hk
    rintro (h | h)
    · exact he (Prod.mk.inj h)
    · exact hX h

theorem BitmapFrame.refl (d : Disk) : BitmapFrame part d d := fun _ _ => rfl

theorem BitmapFrame.trans {d1 d2 d3 : Disk} (h : BitmapFrame part d1 d2)
    (h' : BitmapFrame part d2 d3) : BitmapFrame part d1 d3 :=
  fun a ha => (h' a ha).trans (h a ha)

/-- **`bitmap_sync`** writes one sector of a bitmap, and never stops. -/
theorem bitmapSync_wp {t : BitmapType} {Q : Unit → FsState → Prop}
    (hi : i / 4096 < bitmapSects part t)
    (hQ : ∀ d', d' = s.disk.write (bitmapLba part t + i / 4096)
        (fun k => (s.bitmapOf t).bits (512 * (i / 4096) + k)) 1 →
      BitmapFrame part s.disk d' → Q () { s with disk := d' }) :
    wp (bitmapSync part i t) Q E s := by
  have hlt := bitmapLba_lt hi
  have hmax : bitmapLba part t + i / 4096 ≤ maxLba := by
    have := part.table_le
    omega
  have hframe : BitmapFrame part s.disk (s.disk.write (bitmapLba part t + i / 4096)
      (fun k => (s.bitmapOf t).bits (512 * (i / 4096) + k)) 1) :=
    fun a ha => Disk.write_one_of_ne (by omega)
  cases t <;>
  · simp only [bitmapSync, wp_bind, wp_get, wp_onDisk, wp_ideWrite Nat.one_pos (by omega),
      Nat.mul_comm _ 512]
    exact ⟨fun _ => hQ _ rfl hframe, fun hgt => absurd hmax (Nat.not_le.2 hgt)⟩

/-- **`bitmap_sync`** of the block bitmap changes the sectors of the bitmaps only. -/
theorem blockBitmapSync_wp {Q : Unit → FsState → Prop} (hi : i < blockCnt part)
    (hQ : ∀ d', BitmapFrame part s.disk d' → Q () { s with disk := d' }) :
    wp (bitmapSync part i .blockBitmap) Q E s :=
  bitmapSync_wp (by rw [blockCnt] at hi; rw [bitmapSects]; omega) fun d' _ hd => hQ d' hd

/-- **`inode_sync`** overwrites a record, if the record's sectors fit into the buffer. -/
theorem inodeSyncIn_wp {inode : Inode} {ioBuf : HeapBlock} {Q : Unit → FsState → Prop}
    (hE : ioBuf.size < 512 * (inodePosition part (inode.iNo.toNat % 256)).secs → E .wild)
    (hQ : 512 * (inodePosition part (inode.iNo.toNat % 256)).secs ≤ ioBuf.size → ∀ d',
      Overwrites part (inode.iNo.toNat % 256) (pureInode inode).toRecord s.disk d' →
        Q () { s with disk := d' }) : wp (onDisk (inodeSyncIn part inode ioBuf)) Q E s := by
  rw [wp_onDisk]
  rcases Nat.lt_or_ge ioBuf.size (512 * (inodePosition part (inode.iNo.toNat % 256)).secs) with
    hshort | hfits
  · rw [wp_of_error (inodeSyncIn_of_short hshort)]
    exact hE hshort
  · obtain ⟨d', hd', h⟩ := inodeSyncIn_spec part s.disk inode _ hfits
    rw [wp_of_ok hd']
    exact hQ hfits d' h

/-- Through a buffer of two sectors it never stops. -/
theorem inodeSync_wp {inode : Inode} {buf : Buf} {Q : Unit → FsState → Prop}
    (hQ : ∀ d', Overwrites part (inode.iNo.toNat % 256) (pureInode inode).toRecord s.disk d' →
      Q () { s with disk := d' }) : wp (onDisk (inodeSync part inode buf)) Q E s :=
  inodeSyncIn_wp (fun h => absurd (secs_le_two_sectors _) (Nat.not_le.2 h)) fun _ => hQ

theorem readTable_wp {t : Word} {b : ℕ → Word} {Q : (ℕ → Word) → FsState → Prop}
    (hE : maxLba < t.toNat → E (.panic .ideRead))
    (hQ : ∀ b' : ℕ → Word, (∀ k, 12 ≤ k → k < 140 → b' k = (s.disk t.toNat).toWords (k - 12)) →
      (∀ k, k < 12 → b' k = b k) → Q b' s) :
    wp (readTable t b) Q E s := by
  simp only [readTable, wp_bind, wp_onDisk, wp_ideRead Nat.one_pos (by omega), wp_pure]
  refine ⟨fun _ => hQ _ (fun k h1 h2 => ?_) fun k hk => ?_, hE⟩
  · rw [if_pos ⟨h1, h2⟩]
    refine Buf.toWords_congr fun i _ hi => ?_
    rw [Buf.splice_of_mem (Nat.zero_le _) (by omega), Nat.sub_zero, Disk.read_of_lt (by omega)]
  · rw [if_neg (by omega)]

theorem writeTable_wp {t : Word} {b : ℕ → Word} {Q : Unit → FsState → Prop}
    (hE : maxLba < t.toNat → E (.panic .ideWrite))
    (hQ : ∀ d' : Disk, (∀ k, 12 ≤ k → (d' t.toNat).toWords (k - 12) = b k) →
      (∀ a, a ≠ t.toNat → d' a = s.disk a) → Q () { s with disk := d' }) :
    wp (writeTable t b) Q E s := by
  simp only [writeTable, wp_onDisk, wp_ideWrite Nat.one_pos (by omega)]
  refine ⟨fun _ => hQ _ (fun k hk => ?_) fun a ha => Disk.write_one_of_ne ha, hE⟩
  rw [Disk.write_one_self, Buf.toWords_ofWords, Nat.add_sub_cancel' hk]

theorem writeTable_post {t : Word} {b : ℕ → Word} {Q : Unit → FsState → Prop}
    (hQ : ∀ d' : Disk, (∀ k, 12 ≤ k → (d' t.toNat).toWords (k - 12) = b k) →
      (∀ a, a ≠ t.toNat → d' a = s.disk a) → Q () { s with disk := d' }) :
    post (writeTable t b) Q s := writeTable_wp (fun _ => trivial) hQ

end

end X86Os
