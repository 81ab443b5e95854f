import X86Os.Fs.State

/-!
# Directories

`fs/dir.c`. A directory is an inode whose blocks hold entries of 24 bytes, 21 to a sector, so that
no entry straddles a sector. An entry whose type is `FT_UNKNOWN` is free.

Two things in the source are easy to pass over. `sync_dir_entry` collects the twelve direct block
addresses and never the indirect ones, so past the twelfth block it takes every indirect block for
absent. And in `delete_dir_entry` the loop that counts the indirect blocks does not advance: where
the last entry of an indirect block is deleted, the call never returns.
-/

namespace X86Os

open X86Os.Comp FsState

/-- `enum file_types`. -/
inductive FileType
  | unknown | regular | directory
  deriving DecidableEq, Repr

/-- The value of the enumeration on disk. -/
def FileType.code : FileType → Word
  | .unknown => 0
  | .regular => 1
  | .directory => 2

/-- `struct dir_entry`. -/
structure DirEntry where
  filename : Buf
  iNo : Word
  fType : Word

/-- `sizeof(struct dir_entry)`. -/
def dirEntrySize : ℕ := 24

/-- Entry `i` of a sector. A name that fills its sixteen bytes runs on into what follows. -/
def entryAt (b : Buf) (i : ℕ) : DirEntry where
  filename := fun k => b (dirEntrySize * i + k)
  iNo := b.toWords (6 * i + 4)
  fType := b.toWords (6 * i + 5)

/-- The 24 bytes of an entry. -/
def DirEntry.toBytes (e : DirEntry) : Buf := fun k =>
  if k < 16 then e.filename k
  else Buf.ofWords (fun j => if j = 4 then e.iNo else e.fType) k

/-- `!strcmp(b, str)`. -/
def strEq : Buf → List Byte → Bool
  | b, [] => b 0 == 0
  | b, c :: cs => b 0 == c && strEq (fun k => b (k + 1)) cs

/-- `"."`. -/
def dot : List Byte := [0x2e]

/-- `".."`. -/
def dotDot : List Byte := [0x2e, 0x2e]

/-- `struct dir`: whether it is `root_dir`, and its inode. -/
structure Dir where
  isRoot : Bool
  inode : ℕ
  deriving DecidableEq, Repr

/-- `root_dir`. -/
def FsState.rootDir (s : FsState) : Dir := ⟨true, s.rootInode⟩

section

variable (part : Partition)

/-- The number of entries in a sector. -/
def dirEntrysPerSec : ℕ := 512 / part.sb.dirEntrySize

/-- `dir_open`. -/
def dirOpen (inodeNo : Word) : Kern FsState Dir := do
  let got ← sysMalloc
  let h ← inodeOpen part inodeNo
  check got .wild
  pure ⟨false, h⟩

/-- `dir_close`. -/
def dirClose (dir : Dir) : Kern FsState Unit :=
  if dir.isRoot then pure () else inodeClose dir.inode

/-- The addresses of all the blocks of an inode. -/
def allBlocks (inode : Inode) : Kern FsState (ℕ → Word) :=
  if inode.iSectors 12 ≠ 0 then readTable (inode.iSectors 12) (directBlocks inode)
  else pure (directBlocks inode)

/-! ### Looking an entry up -/

/-- The entry of a sector that has the name. -/
def findEntry (b : Buf) (name : List Byte) : Option DirEntry :=
  ((List.range (dirEntrysPerSec part)).find? fun i => strEq (entryAt b i).filename name).map
    (entryAt b)

/-- The loop of `search_dir_entry` over the blocks, with `left` of them to go. -/
def searchBlocks (blocks : ℕ → Word) (name : List Byte) :
    (left : ℕ) → (blockIdx : ℕ) → Kern FsState (Option DirEntry)
  | 0, _ => pure none
  | left + 1, blockIdx =>
    if blocks blockIdx = 0 then searchBlocks blocks name left (blockIdx + 1)
    else do
      let b ← onDisk (ideRead (blocks blockIdx).toNat (fun _ => 0) 1)
      match findEntry part b name with
      | some e => pure (some e)
      | none => searchBlocks blocks name left (blockIdx + 1)

/-- `search_dir_entry`. When the memory for `all_blocks` cannot be had, nothing is found. -/
def searchDirEntry (h : ℕ) (name : List Byte) : Kern FsState (Option DirEntry) := do
  let got ← sysMalloc
  if got then do
    let s ← get
    let blocks ← allBlocks (s.inode h)
    let gotBuf ← sysMalloc
    check gotBuf .wild
    searchBlocks part blocks name 140 0
  else pure none

/-! ### Adding an entry -/

/-- `create_dir_entry`, on an entry that was cleared. -/
def createDirEntry (filename : List Byte) (inodeNo : Word) (fileType : FileType) :
    Kern FsState DirEntry := do
  ASSERT .createDirEntry (decide (filename.length ≤ 16))
  pure ⟨fun k => filename.getD k 0, inodeNo, fileType.code⟩

/-- The directory has one more entry. -/
def growDir (h : ℕ) : Kern FsState Unit :=
  modify fun s => s.updInode h fun i =>
    { i with iSize := i.iSize + BitVec.ofNat 32 part.sb.dirEntrySize }

/-- Set an address in `i_sectors`. -/
def setSector (h k : ℕ) (w : Word) : Kern FsState Unit :=
  modify fun s => s.updInode h fun i =>
    { i with iSectors := fun j => if j = k then w else i.iSectors j }

/-- `sync_dir_entry` once the new block is recorded: the entry goes to its start. -/
def syncNewBlock (h : ℕ) (e : DirEntry) (blockLba : Word) : Kern FsState Bool := do
  onDisk (ideWrite blockLba.toNat (Buf.splice (fun _ => 0) 0 e.toBytes part.sb.dirEntrySize) 1)
  growDir part h
  pure true

/-- Mark a new block as used on disk too. -/
def syncBlock (blockLba : Word) : Kern FsState Unit := do
  ASSERT .syncDirEntry (decide (blockBitmapIdx part blockLba ≠ 2 ^ 32 - 1))
  bitmapSync part (blockBitmapIdx part blockLba) .blockBitmap

/-- The second allocation of case @2: the first block becomes the indirect table, another one its
first entry. -/
def syncTable (h : ℕ) (e : DirEntry) (blocks : ℕ → Word) (tableLba : Word) :
    Kern FsState Bool := do
  setSector h 12 tableLba
  let blockLba ← blockBitmapAlloc part
  if blockLba = -1 then do
    modify fun s =>
      { s with blockBitmap := bitmapSet s.blockBitmap (blockBitmapIdx part tableLba) false }
    setSector h 12 0
    pure false
  else do
    syncBlock part blockLba
    writeTable tableLba fun k => if k = 12 then blockLba else blocks k
    syncNewBlock part h e blockLba

/-- `sync_dir_entry` when block `blockIdx` of the directory is absent, once a block was
allocated. -/
def syncAbsent (h : ℕ) (e : DirEntry) (blocks : ℕ → Word) (blockIdx : ℕ) (blockLba : Word) :
    Kern FsState Bool := do
  syncBlock part blockLba
  if blockIdx < 12 then do
    setSector h blockIdx blockLba
    syncNewBlock part h e blockLba
  else if blockIdx = 12 then syncTable part h e blocks blockLba
  else do
    let s ← get
    writeTable ((s.inode h).iSectors 12) fun k => if k = blockIdx then blockLba else blocks k
    syncNewBlock part h e blockLba

/-- The loop of `sync_dir_entry`, with `left` blocks to go. -/
def syncLoop (h : ℕ) (e : DirEntry) (blocks : ℕ → Word) :
    (left : ℕ) → (blockIdx : ℕ) → Kern FsState Bool
  | 0, _ => pure false
  | left + 1, blockIdx =>
    if blocks blockIdx = 0 then do
      let blockLba ← blockBitmapAlloc part
      if blockLba = -1 then pure false else syncAbsent part h e blocks blockIdx blockLba
    else do
      let b ← onDisk (ideRead (blocks blockIdx).toNat (fun _ => 0) 1)
      match (List.range (dirEntrysPerSec part)).find? fun i => (entryAt b i).fType == 0 with
      | some i => do
        onDisk (ideWrite (blocks blockIdx).toNat
          (b.splice (dirEntrySize * i) e.toBytes part.sb.dirEntrySize) 1)
        growDir part h
        pure true
      | none => syncLoop h e blocks left (blockIdx + 1)

/-- `sync_dir_entry`: write the entry into the directory with the inode at `h`. -/
def syncDirEntry (h : ℕ) (e : DirEntry) : Kern FsState Bool := do
  let s ← get
  ASSERT .syncDirEntry (decide ((s.inode h).iSize.toNat % part.sb.dirEntrySize = 0))
  syncLoop part h e (directBlocks (s.inode h)) 140 0

/-! ### Deleting an entry -/

/-- Whether `delete_dir_entry` counts the entry: it is in use, and neither `.` nor `..`. -/
def DirEntry.counts (e : DirEntry) : Bool :=
  e.fType != 0 && !strEq e.filename dot && !strEq e.filename dotDot

/-- The entries of a sector that are counted and have the inode number. -/
def matching (b : Buf) (inodeNo : Word) : List ℕ :=
  (List.range (dirEntrysPerSec part)).filter fun i =>
    (entryAt b i).counts && (entryAt b i).iNo == inodeNo

/-- How many entries of a sector are counted. -/
def dirEntryCnt (b : Buf) : ℕ :=
  ((List.range (dirEntrysPerSec part)).filter fun i => (entryAt b i).counts).length

/-- Whether a sector has the entry `.`. -/
def isDirFirstBlock (b : Buf) : Bool :=
  (List.range (dirEntrysPerSec part)).any fun i =>
    (entryAt b i).fType != 0 && strEq (entryAt b i).filename dot

/-- Give back the block of a directory that holds no other entry. For an indirect block the count of
the table's entries never ends. -/
def reclaimBlock (h : ℕ) (blockIdx : ℕ) (blockLba : Word) : Kern FsState Unit := do
  modify fun s =>
    { s with blockBitmap := bitmapSet s.blockBitmap (blockBitmapIdx part blockLba) false }
  bitmapSync part (blockBitmapIdx part blockLba) .blockBitmap
  if blockIdx < 12 then setSector h blockIdx 0 else stop .hang

/-- Remove entry `i` of the sector `b` from block `blockIdx` of the directory. -/
def removeEntry (h : ℕ) (blockIdx : ℕ) (blockLba : Word) (b : Buf) (i : ℕ) :
    Kern FsState Unit := do
  ASSERT .deleteDirEntry (decide (1 ≤ dirEntryCnt part b))
  if dirEntryCnt part b = 1 ∧ isDirFirstBlock part b = false then
    reclaimBlock part h blockIdx blockLba
  else
    onDisk (ideWrite blockLba.toNat
      (b.splice (dirEntrySize * i) (fun _ => 0) part.sb.dirEntrySize) 1)

/-- The directory has one entry less, and its inode is written back. -/
def shrinkDir (h : ℕ) : Kern FsState Unit := do
  let s ← get
  ASSERT .deleteDirEntry (decide (part.sb.dirEntrySize ≤ (s.inode h).iSize.toNat))
  modify fun s => s.updInode h fun i =>
    { i with iSize := i.iSize - BitVec.ofNat 32 part.sb.dirEntrySize }
  let s ← get
  onDisk (inodeSync part (s.inode h) fun _ => 0)

/-- The loop of `delete_dir_entry`, with `left` blocks to go. -/
def deleteLoop (h : ℕ) (inodeNo : Word) (blocks : ℕ → Word) :
    (left : ℕ) → (blockIdx : ℕ) → Kern FsState Bool
  | 0, _ => pure false
  | left + 1, blockIdx =>
    if blocks blockIdx = 0 then deleteLoop h inodeNo blocks left (blockIdx + 1)
    else do
      let b ← onDisk (ideRead (blocks blockIdx).toNat (fun _ => 0) 1)
      match matching part b inodeNo with
      | [] => deleteLoop h inodeNo blocks left (blockIdx + 1)
      | i :: more => do
        -- a second entry of that number in the sector fails the assertion
        ASSERT .deleteDirEntry more.isEmpty
        removeEntry part h blockIdx (blocks blockIdx) b i
        shrinkDir part h
        pure true

/-- `delete_dir_entry`: remove the entry of the inode number from the directory at `h`. -/
def deleteDirEntry (h : ℕ) (inodeNo : Word) : Kern FsState Bool := do
  let s ← get
  let blocks ← allBlocks (s.inode h)
  deleteLoop part h inodeNo blocks 140 0

/-- `dir_is_empty`: there are no entries but `.` and `..`. -/
def dirIsEmpty (h : ℕ) : Kern FsState Bool := do
  let s ← get
  pure ((s.inode h).iSize == BitVec.ofNat 32 (part.sb.dirEntrySize * 2))

/-- `dir_remove`: 0, or -1 without memory. -/
def dirRemove (parentDir childDir : Dir) : Kern FsState Int := do
  let s ← get
  let child := s.inode childDir.inode
  ASSERT .dirRemove ((List.range 12).all fun k => child.iSectors (k + 1) == 0)
  let got ← sysMalloc
  if got then do
    let _ ← deleteDirEntry part parentDir.inode child.iNo
    inodeRelease part child.iNo
    pure 0
  else pure (-1)

end

end X86Os
