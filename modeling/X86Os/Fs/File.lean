import X86Os.Fs.State

/-!
# Reading and writing a file

`file_write` and `file_read` of `fs/file.c`, without the calls that create and close files. Both
first collect the block addresses they are going to need into `all_blocks`, in a case distinction
of their own on whether the direct blocks, the indirect ones or both are involved, and then move
the data sector by sector. A write always appends: it starts at `i_size` whatever `fd_pos` is.

`all_blocks` has 140 entries and `i_sectors` thirteen; an index past the end of either is a wild
access.
-/

namespace X86Os

open X86Os.Comp FsState

/-- The last entry of `all_blocks` plus one, the number of blocks of the largest file. -/
def maxBlocks : ℕ := 140

section

variable (part : Partition)

/-! ### Writing -/

/-- Put the address of a new block where the loops of `file_write` put it: into `i_sectors` too if
the block is a direct one. -/
def storeBlock (h : ℕ) (direct : Bool) (blockIdx : ℕ) (blockLba : Word) : Kern FsState Unit :=
  if direct then do
    let s ← get
    ASSERT .fileWrite ((s.inode h).iSectors blockIdx == 0)
    modify fun s => s.updInode h fun i =>
      { i with iSectors := fun k => if k = blockIdx then blockLba else i.iSectors k }
  else pure ()

/-- The allocating loop of `file_write`, with `left` blocks to go. The three situations differ in
which of the blocks are direct ones. `none` when a block cannot be had. -/
def allocBlocks (h : ℕ) (direct : ℕ → Bool) :
    (left : ℕ) → (blockIdx : ℕ) → (allBlocks : ℕ → Word) → Kern FsState (Option (ℕ → Word))
  | 0, _, allBlocks => pure (some allBlocks)
  | left + 1, blockIdx, allBlocks => do
    let blockLba ← blockBitmapAlloc part
    if blockLba = -1 then pure none
    else do
      storeBlock h (direct blockIdx) blockIdx blockLba
      bitmapSync part (blockBitmapIdx part blockLba) .blockBitmap
      allocBlocks h direct left (blockIdx + 1)
        fun k => if k = blockIdx then blockLba else allBlocks k

/-- The first write to a file gets it a block. False when there is none to be had. -/
def firstBlock (h : ℕ) : Kern FsState Bool := do
  let s ← get
  if (s.inode h).iSectors 0 = 0 then do
    let blockLba ← blockBitmapAlloc part
    if blockLba = -1 then pure false
    else do
      modify fun s => s.updInode h fun i =>
        { i with iSectors := fun k => if k = 0 then blockLba else i.iSectors k }
      ASSERT .fileWrite (decide (blockBitmapIdx part blockLba ≠ 0))
      bitmapSync part (blockBitmapIdx part blockLba) .blockBitmap
      pure true
  else pure true

/-- `all_blocks` with the last block in use, `file_has_used_blocks - 1`. -/
def lastUsed (inode : Inode) (hasUsed : ℕ) : Kern FsState (ℕ → Word) := do
  check (decide (hasUsed - 1 < 13)) .wild
  pure fun k => if k = hasUsed - 1 then inode.iSectors (hasUsed - 1) else 0

/-- The write stays in the last block in use. -/
def collectSame (h hasUsed : ℕ) : Kern FsState (Option (ℕ → Word)) := do
  let s ← get
  if hasUsed ≤ 12 then do
    let allBlocks ← lastUsed (s.inode h) hasUsed
    pure (some allBlocks)
  else do
    ASSERT .fileWrite ((s.inode h).iSectors 12 != 0)
    let allBlocks ← readTable ((s.inode h).iSectors 12) fun _ => 0
    pure (some allBlocks)

/-- Situation 1: the direct blocks are enough. -/
def collectDirect (h hasUsed willUse : ℕ) : Kern FsState (Option (ℕ → Word)) := do
  let s ← get
  let allBlocks ← lastUsed (s.inode h) hasUsed
  ASSERT .fileWrite (allBlocks (hasUsed - 1) != 0)
  allocBlocks part h (fun _ => true) (willUse - hasUsed) hasUsed allBlocks

/-- The rest of situation 2, once the block of the indirect table is allocated. -/
def collectCrossing (h hasUsed willUse : ℕ) (allBlocks : ℕ → Word) (tableLba : Word) :
    Kern FsState (Option (ℕ → Word)) := do
  let s ← get
  ASSERT .fileWrite ((s.inode h).iSectors 12 == 0)
  modify fun s => s.updInode h fun i =>
    { i with iSectors := fun k => if k = 12 then tableLba else i.iSectors k }
  match ← allocBlocks part h (fun i => decide (i < 12)) (willUse - hasUsed) hasUsed allBlocks with
  | none => pure none
  | some allBlocks => do
    writeTable tableLba allBlocks
    pure (some allBlocks)

/-- Situation 2: from direct blocks to indirect ones. -/
def collectBoth (h hasUsed willUse : ℕ) : Kern FsState (Option (ℕ → Word)) := do
  let s ← get
  let allBlocks ← lastUsed (s.inode h) hasUsed
  let blockLba ← blockBitmapAlloc part
  if blockLba = -1 then pure none
  else collectCrossing part h hasUsed willUse allBlocks blockLba

/-- Situation 3: the indirect table exists. -/
def collectIndirect (h hasUsed willUse : ℕ) : Kern FsState (Option (ℕ → Word)) := do
  let s ← get
  ASSERT .fileWrite ((s.inode h).iSectors 12 != 0)
  let tableLba := (s.inode h).iSectors 12
  let allBlocks ← readTable tableLba fun _ => 0
  match ← allocBlocks part h (fun _ => false) (willUse - hasUsed) hasUsed allBlocks with
  | none => pure none
  | some allBlocks => do
    writeTable tableLba allBlocks
    pure (some allBlocks)

/-- The case distinction of `file_write` on the number of blocks before and after. -/
def collectBlocks (h hasUsed willUse : ℕ) : Kern FsState (Option (ℕ → Word)) :=
  if willUse = hasUsed then collectSame h hasUsed
  else if willUse ≤ 12 then collectDirect part h hasUsed willUse
  else if hasUsed ≤ 12 then collectBoth part h hasUsed willUse
  else collectIndirect part h hasUsed willUse

/-- What the data loop does with one sector: `chunk` bytes of `src` go to byte `off` of it. The rest
of a sector is kept only on the first round. -/
def writeSector (lba off chunk : ℕ) (src : Buf) (first : Bool) : Kern FsState Buf := do
  let ioBuf ← if first then onDisk (ideRead lba (fun _ => 0) 1) else pure fun _ => 0
  onDisk (ideWrite lba (ioBuf.splice off src chunk) 1)
  pure (ioBuf.splice off src chunk)

/-- The data loop of `file_write`. Every round writes at least one byte, so `count + 1` rounds are
enough. The result is `io_buf`. -/
def writeLoop (f h : ℕ) (allBlocks : ℕ → Word) (src : Buf) (count : ℕ) :
    (fuel : ℕ) → (bytesWritten : ℕ) → (first : Bool) → (ioBuf : Buf) → Kern FsState Buf
  | 0, _, _, _ => stop .hang
  | fuel + 1, bytesWritten, first, ioBuf =>
    if bytesWritten < count then do
      let s ← get
      let iSize := (s.inode h).iSize.toNat
      let secIdx := iSize / 512
      check (decide (secIdx < maxBlocks)) .wild
      let chunkSize := min (count - bytesWritten) (512 - iSize % 512)
      let ioBuf ← writeSector (allBlocks secIdx).toNat (iSize % 512) chunkSize
        (fun i => src (bytesWritten + i)) first
      modify fun s => s.updInode h fun i => { i with iSize := i.iSize + BitVec.ofNat 32 chunkSize }
      modify fun s => s.updFile f fun e => { e with fdPos := e.fdPos + BitVec.ofNat 32 chunkSize }
      writeLoop f h allBlocks src count fuel (bytesWritten + chunkSize) false ioBuf
    else pure ioBuf

/-- `file_write` from the data loop on. The buffer for `inode_sync` is that of the data loop, one
sector. -/
def writeData (f h : ℕ) (allBlocks : ℕ → Word) (buf : Buf) (count : Word) :
    Kern FsState Word := do
  modify fun s => s.updFile f fun e => { e with fdPos := (s.inode h).iSize - 1 }
  let ioBuf ← writeLoop f h allBlocks buf count.toNat (count.toNat + 1) 0 true fun _ => 0
  let s ← get
  onDisk (inodeSyncIn part (s.inode h) ⟨512, ioBuf⟩)
  pure count

/-- `file_write` from the count of the blocks on. -/
def writeBlocks (f h : ℕ) (buf : Buf) (count : Word) : Kern FsState Word := do
  let s ← get
  let hasUsed := (s.inode h).iSize.toNat / 512 + 1
  let willUse := ((s.inode h).iSize + count).toNat / 512 + 1
  ASSERT .fileWrite (decide (willUse ≤ maxBlocks))
  match ← collectBlocks part h hasUsed willUse with
  | none => pure (-1)
  | some allBlocks => writeData part f h allBlocks buf count

/-- `file_write` once the buffers are allocated. -/
def writeAlloc (f h : ℕ) (buf : Buf) (count : Word) : Kern FsState Word := do
  let ok ← firstBlock part h
  if ok then writeBlocks part f h buf count else pure (-1)

/-- `file_write` on an entry whose inode is at `h`. -/
def fileWriteAt (f h : ℕ) (buf : Buf) (count : Word) : Kern FsState Word := do
  let s ← get
  if 512 * maxBlocks < ((s.inode h).iSize + count).toNat then pure (-1)
  else do
    let gotBuf ← sysMalloc
    if gotBuf then do
      let gotBlocks ← sysMalloc
      if gotBlocks then writeAlloc part f h buf count else pure (-1)
    else pure (-1)

/-- `file_write`: append `count` bytes of `buf` to the file of entry `f` of `file_table`. -/
def fileWrite (f : ℕ) (buf : Buf) (count : Word) : Kern FsState Word := do
  let s ← get
  match (s.fileTable f).fdInode with
  | none => stop .wild
  | some h => fileWriteAt part f h buf count

/-! ### Reading -/

/-- The block addresses that `file_read` collects for the blocks `first, …, last`. -/
def collectRead (inode : Inode) (first last : ℕ) : Kern FsState (ℕ → Word) :=
  if first = last then
    if last < 12 then pure fun k => if k = last then inode.iSectors k else 0
    else readTable (inode.iSectors 12) fun _ => 0
  else if last < 12 then pure fun k => if first ≤ k ∧ k ≤ last then inode.iSectors k else 0
  else if first < 12 then do
    ASSERT .fileRead (inode.iSectors 12 != 0)
    readTable (inode.iSectors 12) fun k => if first ≤ k ∧ k < 12 then inode.iSectors k else 0
  else do
    ASSERT .fileRead (inode.iSectors 12 != 0)
    readTable (inode.iSectors 12) fun _ => 0

/-- The data loop of `file_read`. `gotBuf` says whether `io_buf` was allocated, which is not
checked before it is used. -/
def readLoop (f : ℕ) (allBlocks : ℕ → Word) (gotBuf : Bool) (size : ℕ) :
    (fuel : ℕ) → (bytesRead : ℕ) → (dst : Buf) → Kern FsState Buf
  | 0, _, _ => stop .hang
  | fuel + 1, bytesRead, dst =>
    if bytesRead < size then do
      let s ← get
      let fdPos := (s.fileTable f).fdPos.toNat
      let secIdx := fdPos / 512
      check (decide (secIdx < maxBlocks) && gotBuf) .wild
      let chunkSize := min (size - bytesRead) (512 - fdPos % 512)
      let ioBuf ← onDisk (ideRead (allBlocks secIdx).toNat (fun _ => 0) 1)
      modify fun s => s.updFile f fun e => { e with fdPos := e.fdPos + BitVec.ofNat 32 chunkSize }
      readLoop f allBlocks gotBuf size fuel (bytesRead + chunkSize)
        (dst.splice bytesRead (fun i => ioBuf (fdPos % 512 + i)) chunkSize)
    else pure dst

/-- `file_read` for `size` bytes, once that is known to be in the file. -/
def readData (f h : ℕ) (dst : Buf) (size : Word) : Kern FsState (Word × Buf) := do
  let gotBuf ← sysMalloc
  let gotBlocks ← sysMalloc
  if gotBlocks then do
    let s ← get
    let fdPos := (s.fileTable f).fdPos
    let first := fdPos.toNat / 512
    let last := (fdPos + size).toNat / 512
    ASSERT .fileRead (decide (first < 139) && decide (last < 139))
    let allBlocks ← collectRead (s.inode h) first last
    let dst ← readLoop f allBlocks gotBuf size.toNat (size.toNat + 1) 0 dst
    pure (size, dst)
  else pure (-1, dst)

/-- `file_read` on an entry whose inode is at `h`. -/
def fileReadAt (f h : ℕ) (dst : Buf) (count : Word) : Kern FsState (Word × Buf) := do
  let s ← get
  let fdPos := (s.fileTable f).fdPos
  if (s.inode h).iSize.toNat < (fdPos + count).toNat then
    if (s.inode h).iSize - fdPos = 0 then pure (-1, dst)
    else readData f h dst ((s.inode h).iSize - fdPos)
  else readData f h dst count

/-- `file_read`: the value returned, and the buffer with what was read. -/
def fileRead (f : ℕ) (dst : Buf) (count : Word) : Kern FsState (Word × Buf) := do
  let s ← get
  match (s.fileTable f).fdInode with
  | none => stop .wild
  | some h => fileReadAt f h dst count

end

end X86Os
