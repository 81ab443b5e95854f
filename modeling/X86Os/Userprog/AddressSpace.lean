import X86Os.Kernel.PageSteps
import X86Os.Kernel.Heap

/-!
# Address spaces of processes

What `process_execute`, `schedule` and the copying part of `sys_fork` do to memory. A process has
four kinds of kernel pages: its PCB, its page directory, the bits of its virtual-address bitmap, and
while it is being forked a buffer that its pages are copied through. The rest is below `0xc0000000`,
in tables that `page_table_add` makes on demand.

`sys_fork` copies the parent's pages one by one. It reads a page into the buffer under the parent's
directory, changes `cr3`, gets a frame for the same address under the child's, writes it, and
changes `cr3` back; the buffer is in the kernel, so it is at the same address under both.

A PCB is a record of the state, by its address. What is in it besides the fields that memory
management uses, the queues, files and pids, is the subject of other modules, and so is the kernel
stack that `build_child_stack` prepares.
-/

namespace X86Os.Mem

open X86Os.Comp

/-- `USER_VADDR_START`. -/
def userVaddrStart : ℕ := 0x8048000

/-- `(0xc0000000 - USER_VADDR_START) / PG_SIZE / 8`: the length of the bitmap of a process. -/
def userBitmapLen : ℕ := (0xc0000000 - userVaddrStart) / pgSize / 8

/-- `DIV_ROUND_UP(…, PG_SIZE)`: the pages that are allocated for it. -/
def bitmapPgCnt : ℕ := (userBitmapLen + pgSize - 1) / pgSize

/-- The PCB of the main thread. -/
def gMainThread : ℕ := 0xc009e000

/-- Change the fields of a PCB. -/
def modifyTask (p : ℕ) (f : Task → Task) : Kern MemState Unit :=
  modify fun s => { s with task := Function.update s.task p (f (s.task p)) }

/-- `block_desc_init(p->u_block_desc)`. -/
def initDescs (p : ℕ) : Kern MemState Unit :=
  modify fun s => { s with desc := blockDescInit (p + uBlockDescOff) s.desc }

/-- `memcpy(dst, src, size)` between parts of two pages. -/
def copyWords (dst src size : ℕ) : Kern MemState Unit := fun s =>
  match s.translate (dst / pgSize), s.translate (src / pgSize) with
  | some f, some g => .ok ((), s.setPage f fun i =>
      if dst % pgSize / 4 ≤ i ∧ i < (dst % pgSize + size) / 4 then
        s.phys g (i - dst % pgSize / 4 + src % pgSize / 4)
      else s.phys f i)
  | _, _ => .error .wild

/-! ### Creating a process -/

/-- `page_dir_activate`. Loading `cr3` empties the TLB. -/
def pageDirActivate (p : ℕ) : Kern MemState Unit := do
  let s ← get
  let pagedirPhyAddr ← if (s.task p).pgdir ≠ 0 then addrV2p (s.task p).pgdir else pure 0x100000
  modify fun s => { s with cr3 := pagedirPhyAddr, tlb := fun _ => none }

/-- `schedule` gives the processor to `p`: `process_activate` and `switch_to`. -/
def runTask (p : ℕ) : Kern MemState Unit := do
  pageDirActivate p
  modify fun s => { s with cur := p }

/-- `create_page_dir`: the upper quarter of the directory in use, and itself in the last entry. -/
def createPageDir : Kern MemState ℕ := do
  let pageDirVaddr ← getKernelPages 1
  if pageDirVaddr = 0 then pure 0
  else
    copyWords (pageDirVaddr + 0x300 * 4) (0xfffff000 + 0x300 * 4) 1024
    let newPageDirPhyAddr ← addrV2p pageDirVaddr
    store (pageDirVaddr + 1023 * 4) (entry newPageDirPhyAddr)
    pure pageDirVaddr

/-- `create_user_vaddr_bitmap`. `bitmap_init` clears what `bits` points to. -/
def createUserVaddrBitmap (userProg : ℕ) : Kern MemState Unit := do
  let bits ← getKernelPages bitmapPgCnt
  check (bits ≠ 0) .wild
  modifyTask userProg fun t =>
    { t with userprogVaddr := ⟨bitmapInit userBitmapLen, userVaddrStart⟩, bits := bits }

/-- `process_execute`, which returns nothing; the model returns the new PCB. -/
def processExecute : Kern MemState ℕ := do
  let thread ← getKernelPages 1
  check (thread ≠ 0) .wild
  modifyTask thread fun _ => ⟨0, ⟨bitmapInit 0, 0⟩, 0⟩
  createUserVaddrBitmap thread
  let pgdir ← createPageDir
  modifyTask thread fun t => { t with pgdir := pgdir }
  initDescs thread
  pure thread

/-! ### Copying a process -/

/-- One page of the parent to the child, through the buffer. -/
def copyOnePage (child parent bufPage progVaddr : ℕ) : Kern MemState Unit := do
  copyPage bufPage progVaddr
  pageDirActivate child
  let _ ← getAPageWithoutOpvaddrbitmap .user progVaddr
  copyPage progVaddr bufPage
  pageDirActivate parent

/-- The inner loop of `copy_body_stack3`, over the bits of a byte. -/
def copyBits (child parent bufPage idxByte : ℕ) : (n : ℕ) → (idxBit : ℕ) → Kern MemState Unit
  | 0, _ => pure ()
  | n + 1, idxBit => do
    let s ← get
    let v := (s.task parent).userprogVaddr
    if bitmapMask idxBit &&& v.vaddrBitmap.bits idxByte ≠ 0 then
      copyOnePage child parent bufPage ((idxByte * 8 + idxBit) * pgSize + v.vaddrStart)
    copyBits child parent bufPage idxByte n (idxBit + 1)

/-- The outer loop, over the bytes of the parent's bitmap. -/
def copyBytes (child parent bufPage : ℕ) : (n : ℕ) → (idxByte : ℕ) → Kern MemState Unit
  | 0, _ => pure ()
  | n + 1, idxByte => do
    let s ← get
    if (s.task parent).userprogVaddr.vaddrBitmap.bits idxByte ≠ 0 then
      copyBits child parent bufPage idxByte 8 0
    copyBytes child parent bufPage n (idxByte + 1)

/-- `copy_body_stack3`. -/
def copyBodyStack3 (child parent bufPage : ℕ) : Kern MemState Unit := do
  let s ← get
  copyBytes child parent bufPage (s.task parent).userprogVaddr.vaddrBitmap.btmpBytesLen 0

end X86Os.Mem
