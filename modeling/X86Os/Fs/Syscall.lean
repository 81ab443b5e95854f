import X86Os.Fs.Dir
import X86Os.Fs.File

/-!
# The system calls on files and directories

Paths, the lookup of a path, and the calls of `fs/fs.c` and `fs/file.c` built on them.

A path is a string without a terminator in it. `path_parse` splits off one component at a time; the
component goes to an array of sixteen characters. A longer one overruns the array; one of sixteen
leaves no room for the terminator, and a lookup that comes to it reads on. `search_file` walks down
from the root and leaves a directory open for the caller to close: the one a lookup failed in, or
the parent of what was found.

Descriptors index `fd_table` of the process, which has eight entries; those refer to `file_table`,
which has 32, of which the first three are never handed out. A pipe shares `file_table`: its entry
has the flag `PIPE_FLAG`, and its position counts the descriptors.
-/

namespace X86Os

open X86Os.Comp FsState

/-! ### Paths -/

/-- A string, without its terminator. -/
abbrev CString := { l : List Byte // ∀ c ∈ l, c ≠ 0 }

/-- `'/'`. -/
def slash : Byte := 0x2f

/-- `MAX_FILE_NAME_LEN`. -/
def maxFileNameLen : ℕ := 16

/-- `MAX_PATH_LEN`. -/
def maxPathLen : ℕ := 512

/-- `path_parse`: the first component, and the rest of the path unless it is at its end. -/
def pathParse (pathname : List Byte) : List Byte × Option (List Byte) :=
  let p := pathname.dropWhile (· == slash)
  let rest := p.dropWhile (· != slash)
  (p.takeWhile (· != slash), if rest.isEmpty then none else some rest)

/-- The components that repeated calls of `path_parse` yield, up to the first empty one. A component
takes up at least one character, so a round for each character is enough. -/
def pathNames : (fuel : ℕ) → List Byte → List (List Byte)
  | 0, _ => []
  | fuel + 1, pathname =>
    match pathParse pathname with
    | ([], _) => []
    | (name, none) => [name]
    | (name, some rest) => name :: pathNames fuel rest

/-- The components of a path. -/
def names (pathname : List Byte) : List (List Byte) := pathNames pathname.length pathname

/-- `strrchr(pathname, '/') + 1`. -/
def baseName (pathname : List Byte) : List Byte :=
  (pathname.reverse.takeWhile (· != slash)).reverse

/-- `path_depth_cnt`. Without a component, the answer depends on what `name` happened to hold. -/
def pathDepthCnt (pathname : List Byte) : Kern FsState ℕ := do
  check ((names pathname).all fun name => decide (name.length ≤ maxFileNameLen)) .wild
  if (names pathname).isEmpty then do
    let j ← uninit
    pure (if j = 0 then 0 else 1)
  else pure (names pathname).length

/-- `struct path_search_record`. -/
structure PathSearchRecord where
  searchedPath : List Byte
  parentDir : Dir
  fileType : FileType

section

variable (part : Partition)

/-! ### Looking a path up -/

/-- The next component, which `path_parse` copies, is no longer than `name`. -/
def nameFits (ns : List (List Byte)) : Kern FsState Unit :=
  check (decide ((ns.headD []).length ≤ maxFileNameLen)) .wild

/-- The end of `search_file`: the last component is a directory, and its parent is opened again. -/
def searchEnd (parent : Dir) (parentInodeNo iNo : Word) (path : List Byte) :
    Kern FsState (Word × PathSearchRecord) := do
  dirClose parent
  let dir ← dirOpen part parentInodeNo
  pure (iNo, ⟨path, dir, .directory⟩)

/-- The loop of `search_file` over the components. `parentInodeNo` is the number of the directory
the last entry was found in, and `iNo` is the number in that entry. -/
def searchLoop : (ns : List (List Byte)) → (parent : Dir) → (parentInodeNo iNo : Word) →
    (path : List Byte) → Kern FsState (Word × PathSearchRecord)
  | [], parent, parentInodeNo, iNo, path => searchEnd part parent parentInodeNo iNo path
  | name :: ns, parent, parentInodeNo, _, path => do
    ASSERT .searchFile (decide (path.length < maxPathLen))
    -- `strcat` and `strcmp` need a terminator in `name`
    check (decide (name.length < maxFileNameLen)) .wild
    match ← searchDirEntry part parent.inode name with
    | none => pure (-1, ⟨path ++ slash :: name, parent, .unknown⟩)
    | some e => do
      nameFits ns
      if e.fType = FileType.directory.code then do
        let s ← get
        dirClose parent
        let dir ← dirOpen part e.iNo
        searchLoop ns dir (s.inode parent.inode).iNo e.iNo (path ++ slash :: name)
      else if e.fType = FileType.regular.code then
        pure (e.iNo, ⟨path ++ slash :: name, parent, .regular⟩)
      else searchLoop ns parent parentInodeNo e.iNo (path ++ slash :: name)

/-- `search_file`: the inode number, or -1. -/
def searchFile (pathname : CString) : Kern FsState (Word × PathSearchRecord) := do
  let s ← get
  if pathname.1 = [slash] ∨ pathname.1 = slash :: dot ∨ pathname.1 = slash :: dotDot then
    pure (0, ⟨[], s.rootDir, .directory⟩)
  else do
    ASSERT .searchFile (decide (pathname.1.headD 0 = slash ∧ 1 < pathname.1.length ∧
      pathname.1.length < maxPathLen))
    let iNo ← uninit
    nameFits (names pathname.1)
    searchLoop part (names pathname.1) s.rootDir 0 iNo []

/-! ### Entries of the file table -/

/-- `get_free_slot_in_global`. -/
def getFreeSlotInGlobal : Kern FsState (Option ℕ) := do
  let s ← get
  pure (((List.range maxFileOpen).drop 3).find? fun f => (s.fileTable f).fdInode.isNone)

/-- `pcb_fd_install`: the descriptor, or -1. -/
def pcbFdInstall (f : ℕ) : Kern FsState Int := do
  let s ← get
  match ((List.range maxFilesOpenPerProc).drop 3).find? fun fd => s.fdTable s.cur fd == -1 with
  | none => pure (-1)
  | some fd => do
    modify fun s => s.setFd fd f
    pure fd

/-- The flags of `sys_open` that allow writing. -/
def mayWrite (flag : Word) : Bool := flag &&& 1 != 0 || flag &&& 2 != 0

/-- `O_CREAT`. -/
def hasCreat (flag : Word) : Bool := flag &&& 4 != 0

/-- Give an inode number back, in memory only. -/
def undoInodeNo (inodeNo : Word) : Kern FsState Unit :=
  modify fun s => { s with inodeBitmap := bitmapSet s.inodeBitmap inodeNo.toNat false }

/-- `file_create` once the directory has the new entry. -/
def createdFile (parentDir : Dir) (h f : ℕ) (inodeNo : Word) : Kern FsState Int := do
  let s ← get
  onDisk (inodeSync part (s.inode parentDir.inode) fun _ => 0)
  let s ← get
  onDisk (inodeSync part (s.inode h) fun _ => 0)
  bitmapSync part inodeNo.toNat .inodeBitmap
  modify fun s => { s.updInode h (fun i => { i with iOpenCnts := 1 }) with
    openInodes := h :: s.openInodes }
  pcbFdInstall f

/-- `file_create` once there is an inode object at `h` and an entry `f` of `file_table`. -/
def createIn (parentDir : Dir) (filename : List Byte) (flag : Word) (inodeNo : Word) (h f : ℕ) :
    Kern FsState Int := do
  modify fun s => s.updFile f fun _ => ⟨0, flag, some h⟩
  let e ← createDirEntry filename inodeNo .regular
  let ok ← syncDirEntry part parentDir.inode e
  if ok then createdFile part parentDir h f inodeNo
  else do
    modify fun s => s.updFile f fun _ => ⟨0, 0, none⟩
    undoInodeNo inodeNo
    pure (-1)

/-- `file_create` once there is an inode number. -/
def createFile (parentDir : Dir) (filename : List Byte) (flag : Word) (inodeNo : Word) :
    Kern FsState Int := do
  let got ← sysMalloc
  if got then do
    let h ← mallocInode
    modify fun s => s.updInode h fun _ => inodeInit inodeNo
    match ← getFreeSlotInGlobal with
    | none => do
      undoInodeNo inodeNo
      pure (-1)
    | some f => createIn part parentDir filename flag inodeNo h f
  else do
    undoInodeNo inodeNo
    pure (-1)

/-- `file_create`. The inode object comes from the heap of the caller: see `X86Os.Fs.State`. -/
def fileCreate (parentDir : Dir) (filename : List Byte) (flag : Word) : Kern FsState Int := do
  let got ← sysMalloc
  if got then do
    let inodeNo ← inodeBitmapAlloc
    if inodeNo = -1 then pure (-1) else createFile part parentDir filename flag inodeNo
  else pure (-1)

/-- `file_open` once the entry `f` refers to the inode at `h`: a writer has to be the only one. -/
def claimWrite (f h : ℕ) (flag : Word) : Kern FsState Int := do
  let s ← get
  if mayWrite flag then
    if (s.inode h).writeDeny then pure (-1)
    else do
      modify fun s => s.updInode h fun i => { i with writeDeny := true }
      pcbFdInstall f
  else pcbFdInstall f

/-- `file_open`. -/
def fileOpen (inodeNo : Word) (flag : Word) : Kern FsState Int := do
  match ← getFreeSlotInGlobal with
  | none => pure (-1)
  | some f => do
    let h ← inodeOpen part inodeNo
    modify fun s => s.updFile f fun _ => ⟨0, flag, some h⟩
    claimWrite f h flag

/-- `file_close`. -/
def fileClose (f : ℕ) : Kern FsState Int := do
  let s ← get
  match (s.fileTable f).fdInode with
  | none => stop .wild
  | some h => do
    modify fun s => s.updInode h fun i => { i with writeDeny := false }
    inodeClose h
    modify fun s => s.updFile f fun e => { e with fdInode := none }
    pure 0

/-! ### The calls -/

/-- `sys_open` once the path was looked up. -/
def openFound (pathname : List Byte) (flags : Word) (depth : ℕ) (inodeNo : Word)
    (r : PathSearchRecord) : Kern FsState Int :=
  if r.fileType = .directory then do
    dirClose r.parentDir
    pure (-1)
  else do
    let searchedDepth ← pathDepthCnt r.searchedPath
    if depth ≠ searchedDepth ∨ (inodeNo = -1 ∧ hasCreat flags = false) ∨
        (inodeNo ≠ -1 ∧ hasCreat flags = true) then do
      dirClose r.parentDir
      pure (-1)
    else if hasCreat flags then do
      let fd ← fileCreate part r.parentDir (baseName pathname) flags
      dirClose r.parentDir
      pure fd
    else fileOpen part inodeNo flags

/-- `sys_open`. For the empty path it looks at the byte before the string. -/
def sysOpen (pathname : CString) (flags : Word) : Kern FsState Int := do
  check (!pathname.1.isEmpty) .wild
  if pathname.1.getLastD 0 = slash then pure (-1)
  else do
    ASSERT .sysOpen (decide (flags.toNat ≤ 7))
    let depth ← pathDepthCnt pathname.1
    let (inodeNo, r) ← searchFile part pathname
    openFound part pathname.1 flags depth inodeNo r

/-- `fd_local2global`. -/
def fdLocal2global (fd : Int) : Kern FsState ℕ := do
  check (decide (0 ≤ fd ∧ fd < maxFilesOpenPerProc)) .wild
  let s ← get
  let g := s.fdTable s.cur fd.toNat
  ASSERT .fdLocal2global (decide (0 ≤ g ∧ g < maxFileOpen))
  pure g.toNat

/-- `PIPE_FLAG`. -/
def pipeFlag : Word := 0xffff

/-- `is_pipe`. -/
def isPipe (fd : Int) : Kern FsState Bool := do
  let g ← fdLocal2global fd
  let s ← get
  pure ((s.fileTable g).fdFlag == pipeFlag)

/-- One descriptor less for a pipe. The last one frees its page. -/
def closePipe (g : ℕ) : Kern FsState Unit := do
  modify fun s => s.updFile g fun e => { e with fdPos := e.fdPos - 1 }
  let s ← get
  if (s.fileTable g).fdPos = 0 then
    modify fun s => s.updFile g fun e => { e with fdInode := none }
  else pure ()

/-- What `sys_close` does with the entry of `file_table`. -/
def closeEntry (fd : Int) (g : ℕ) : Kern FsState Int := do
  let pipe ← isPipe fd
  if pipe then do
    closePipe g
    pure 0
  else fileClose g

/-- `sys_close`. -/
def sysClose (fd : Int) : Kern FsState Int :=
  if 2 < fd then do
    let g ← fdLocal2global fd
    let ret ← closeEntry fd g
    modify fun s => s.setFd fd.toNat (-1)
    pure ret
  else pure (-1)

/-- `sys_write` to a regular file. -/
def writeFile (fd : Int) (buf : Buf) (count : Word) : Kern FsState Word := do
  let f ← fdLocal2global fd
  let s ← get
  if mayWrite (s.fileTable f).fdFlag then fileWrite part f buf count else pure (-1)

/-- `sys_write`. A pipe takes at most `count` bytes into its ring buffer, which is not part of this
state; the console copies to an array of 1024 bytes first. -/
def sysWrite (fd : Int) (buf : Buf) (count : Word) : Kern FsState Word :=
  if fd < 0 then pure (-1)
  else do
    let pipe ← isPipe fd
    if pipe then uninit
    else if fd = 1 then do
      check (decide (count.toNat ≤ 1024)) .wild
      pure count
    else writeFile part fd buf count

/-- Whether an entry of `file_table` refers to the inode number. -/
def inUse (s : FsState) (inodeNo : Word) : Bool :=
  (List.range maxFileOpen).any fun f =>
    match (s.fileTable f).fdInode with
    | none => false
    | some h => (s.inode h).iNo == inodeNo

/-- `sys_unlink` for a file that is not in use. -/
def unlinkFile (inodeNo : Word) (r : PathSearchRecord) : Kern FsState Int := do
  let got ← sysMalloc
  if got then do
    let _ ← deleteDirEntry part r.parentDir.inode inodeNo
    inodeRelease part inodeNo
    dirClose r.parentDir
    pure 0
  else do
    dirClose r.parentDir
    pure (-1)

/-- `sys_unlink`. -/
def sysUnlink (pathname : CString) : Kern FsState Int := do
  ASSERT .sysUnlink (decide (pathname.1.length < maxPathLen))
  let (inodeNo, r) ← searchFile part pathname
  ASSERT .sysUnlink (inodeNo != 0)
  let s ← get
  if inodeNo = -1 ∨ r.fileType = .directory ∨ inUse s inodeNo = true then do
    dirClose r.parentDir
    pure (-1)
  else unlinkFile part inodeNo r

/-- The first sector of a new directory: `.` and `..`. -/
def newDirSector (inodeNo parentNo : Word) : Buf :=
  Buf.splice (Buf.splice (fun _ => 0) 0
    (DirEntry.toBytes ⟨fun k => dot.getD k 0, inodeNo, FileType.directory.code⟩) dirEntrySize)
    dirEntrySize (DirEntry.toBytes ⟨fun k => dotDot.getD k 0, parentNo, FileType.directory.code⟩)
    dirEntrySize

/-- The end of a failed `sys_mkdir`. -/
def mkdirFail (parentDir : Dir) : Kern FsState Int := do
  dirClose parentDir
  pure (-1)

/-- `sys_mkdir` once the parent has the new entry: both inodes are written back. -/
def madeDir (parentDir : Dir) (inodeNo : Word) (newDirInode : Inode) : Kern FsState Int := do
  let s ← get
  onDisk (inodeSync part (s.inode parentDir.inode) fun _ => 0)
  onDisk (inodeSync part newDirInode fun _ => 0)
  bitmapSync part inodeNo.toNat .inodeBitmap
  dirClose parentDir
  pure 0

/-- `sys_mkdir` once there is a block for the new directory. -/
def makeDirIn (parentDir : Dir) (dirname : List Byte) (inodeNo blockLba : Word) :
    Kern FsState Int := do
  ASSERT .sysMkdir (decide (blockBitmapIdx part blockLba ≠ 0))
  bitmapSync part (blockBitmapIdx part blockLba) .blockBitmap
  let s ← get
  onDisk (ideWrite blockLba.toNat (newDirSector inodeNo (s.inode parentDir.inode).iNo) 1)
  let newDirInode : Inode := { inodeInit inodeNo with
    iSize := BitVec.ofNat 32 (2 * part.sb.dirEntrySize),
    iSectors := fun k => if k = 0 then blockLba else 0 }
  let e ← createDirEntry dirname inodeNo .directory
  let ok ← syncDirEntry part parentDir.inode e
  if ok then madeDir part parentDir inodeNo newDirInode
  else do
    undoInodeNo inodeNo
    mkdirFail parentDir

/-- `sys_mkdir` once the parent is known. -/
def makeDir (parentDir : Dir) (dirname : List Byte) : Kern FsState Int := do
  let inodeNo ← inodeBitmapAlloc
  if inodeNo = -1 then mkdirFail parentDir
  else do
    let blockLba ← blockBitmapAlloc part
    if blockLba = -1 then do
      undoInodeNo inodeNo
      mkdirFail parentDir
    else makeDirIn part parentDir dirname inodeNo blockLba

/-- `sys_mkdir` once the path was looked up. A path without a component has no last one, and
`strrchr` gives a null pointer. -/
def mkdirFound (pathname : List Byte) (inodeNo : Word) (r : PathSearchRecord) :
    Kern FsState Int :=
  if inodeNo ≠ -1 then mkdirFail r.parentDir
  else do
    let depth ← pathDepthCnt pathname
    let searchedDepth ← pathDepthCnt r.searchedPath
    if depth ≠ searchedDepth then mkdirFail r.parentDir
    else do
      check (!r.searchedPath.isEmpty) .wild
      makeDir part r.parentDir (baseName r.searchedPath)

/-- `sys_mkdir`. -/
def sysMkdir (pathname : CString) : Kern FsState Int := do
  let got ← sysMalloc
  if got then do
    let (inodeNo, r) ← searchFile part pathname
    mkdirFound part pathname.1 inodeNo r
  else pure (-1)

/-- `sys_rmdir` for a directory that was found. -/
def rmdirFound (inodeNo : Word) (parentDir : Dir) : Kern FsState Int := do
  let dir ← dirOpen part inodeNo
  let empty ← dirIsEmpty part dir.inode
  if empty then do
    let removed ← dirRemove part parentDir dir
    dirClose dir
    pure (if removed = 0 then 0 else -1)
  else do
    dirClose dir
    pure (-1)

/-- `sys_rmdir`. -/
def sysRmdir (pathname : CString) : Kern FsState Int := do
  let (inodeNo, r) ← searchFile part pathname
  ASSERT .sysRmdir (inodeNo != 0)
  if inodeNo = -1 ∨ r.fileType = .regular then do
    dirClose r.parentDir
    pure (-1)
  else do
    let ret ← rmdirFound part inodeNo r.parentDir
    dirClose r.parentDir
    pure ret

/-- `sys_opendir` once the path was looked up. -/
def opendirFound (inodeNo : Word) (r : PathSearchRecord) : Kern FsState (Option Dir) :=
  if inodeNo ≠ -1 ∧ r.fileType = .directory then do
    let dir ← dirOpen part inodeNo
    pure (some dir)
  else pure none

/-- `sys_opendir`: the stream, or `none` for a null pointer. Only `/` gives `root_dir` itself: the
second test of `name[0]` was meant for `name[1]` and never holds. -/
def sysOpendir (name : CString) : Kern FsState (Option Dir) := do
  ASSERT .sysOpendir (decide (name.1.length < maxPathLen))
  let s ← get
  if name.1.headD 0 = slash ∧ (name.1.getD 1 0 = 0 ∨ name.1.headD 0 = 0x2e) then
    pure (some s.rootDir)
  else do
    let (inodeNo, r) ← searchFile part name
    let ret ← opendirFound part inodeNo r
    dirClose r.parentDir
    pure ret

/-- Only `/` is recognised as the root by `sys_opendir`. -/
theorem opendir_root_iff (name : CString) :
    (name.1.headD 0 = slash ∧ (name.1.getD 1 0 = 0 ∨ name.1.headD 0 = 0x2e)) ↔
      name.1 = [slash] := by
  constructor
  · rintro ⟨h1, h2 | h2⟩
    · match hl : name.1 with
      | [] => rw [hl] at h1; exact absurd h1 (by decide)
      | [c] =>
        rw [hl] at h1
        exact congrArg (fun x => [x]) h1
      | c :: c' :: l =>
        rw [hl] at h2
        exact (name.2 c' (by rw [hl]; simp) h2).elim
    · rw [h1] at h2
      exact absurd h2 (by decide)
  · intro h
    rw [h]
    exact ⟨rfl, .inl rfl⟩

/-- `sys_closedir` of a stream. -/
def sysClosedir (dir : Dir) : Kern FsState Int := do
  dirClose dir
  pure 0

/-- `struct stat`. -/
structure Stat where
  stIno : Word
  stSize : Word
  stFiletype : FileType
  deriving DecidableEq, Repr

/-- `sys_stat` once the path was looked up. -/
def statFound (inodeNo : Word) (r : PathSearchRecord) : Kern FsState (Option Stat) :=
  if inodeNo ≠ -1 then do
    let h ← inodeOpen part inodeNo
    let s ← get
    inodeClose h
    pure (some ⟨inodeNo, (s.inode h).iSize, r.fileType⟩)
  else pure none

/-- `sys_stat`: what it leaves in `buf` when it returns 0, and `none` when it returns -1. -/
def sysStat (path : CString) : Kern FsState (Option Stat) := do
  let s ← get
  if path.1 = [slash] ∨ path.1 = slash :: dot ∨ path.1 = slash :: dotDot then
    pure (some ⟨0, (s.inode s.rootInode).iSize, .directory⟩)
  else do
    let (inodeNo, r) ← searchFile part path
    let ret ← statFound part inodeNo r
    dirClose r.parentDir
    pure ret

/-! ### Working directories -/

/-- The file system, and `cwd_inode_nr` of every process. -/
structure CwdState where
  fs : FsState
  cwdInodeNr : ℕ → Word

/-- Run a call of the file system. -/
def onFs {α : Type} (x : Kern FsState α) : Kern CwdState α :=
  zoom CwdState.fs (fun s fs => { s with fs := fs }) x

/-- `sys_chdir` once the path was looked up. -/
def chdirFound (inodeNo : Word) (r : PathSearchRecord) : Kern CwdState Int :=
  if inodeNo ≠ -1 ∧ r.fileType = .directory then do
    modify fun s =>
      { s with cwdInodeNr := fun p => if p = s.fs.cur then inodeNo else s.cwdInodeNr p }
    pure 0
  else pure (-1)

/-- `sys_chdir`. -/
def sysChdir (path : CString) : Kern CwdState Int := do
  let (inodeNo, r) ← onFs (searchFile part path)
  let ret ← chdirFound inodeNo r
  onFs (dirClose r.parentDir)
  pure ret

end

end X86Os
