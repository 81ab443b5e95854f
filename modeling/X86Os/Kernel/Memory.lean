import X86Os.Kernel.Bitmap

/-!
# Pages

`kernel/memory.c` up to the heap: the pools of frames, the bitmaps of virtual pages, and the page
tables. The tables are not a data structure of their own. They are frames of physical memory that
the MMU walks from `cr3`, and the kernel writes them through the addresses at which the last
directory entry, which points to the directory itself, makes them visible. So the state has
physical memory, a frame being its 1024 words, and every access of the code to a table is a `load`
or a `store` at the address that `pde_ptr` or `pte_ptr` computes. An address that is not mapped is
a page fault, which the kernel does not survive: `Fault.wild`.

Kernel objects that the code only reaches through typed pointers are values of the state: the pools,
the bitmaps, the memory fields of a task by the address of its PCB, the block descriptors by their
address. Their pages are nevertheless allocated and freed like any others.

The processor keeps translations in its TLB and uses them after the tables have changed. The state
has those that the tables do not account for: `tlb` gives, for a page that was unmapped since `cr3`
was last loaded, the frame that it had, and an access to the page goes there even if it has been
mapped to another frame in the meantime. A real TLB has only pages that have been accessed and may
forget them at any time; the model keeps them all.

The pool locks are left out, the calls run one at a time. Addresses are byte addresses.
-/

namespace X86Os.Mem

open X86Os.Comp

/-! ### The machine -/

/-- `PG_SIZE`. -/
def pgSize : ℕ := 4096

/-- `enum pool_flags`. -/
inductive PoolFlags
  | kernel
  | user
  deriving DecidableEq, Repr

/-- `struct pool`: the frames from `phyAddrStart` on, one bit a frame. -/
structure Pool where
  poolBitmap : Bitmap
  phyAddrStart : ℕ
  poolSize : ℕ

/-- `struct virtual_addr`: the pages from `vaddrStart` on, one bit a page. -/
structure VirtualAddr where
  vaddrBitmap : Bitmap
  vaddrStart : ℕ

/-- `struct mem_block_desc`. A free list is the list of the addresses of its blocks. -/
structure MemBlockDesc where
  blockSize : ℕ
  blocksPerArena : ℕ
  freeList : List ℕ

/-- The fields of `struct task_struct` that memory management uses. `pgdir` is 0 for a kernel
thread; `bits` is the address of the pages that hold the bits of `userprogVaddr`. -/
structure Task where
  pgdir : ℕ
  userprogVaddr : VirtualAddr
  bits : ℕ

/-- Physical memory, the page directory register, the TLB, the allocator's objects and the running
task. -/
structure MemState where
  phys : ℕ → ℕ → ℕ
  cr3 : ℕ
  tlb : ℕ → Option ℕ
  kernelPool : Pool
  userPool : Pool
  kernelVaddr : VirtualAddr
  task : ℕ → Task
  cur : ℕ
  desc : ℕ → MemBlockDesc

namespace MemState

/-- The page directory in use, by its frame. -/
def dir (s : MemState) : ℕ := s.cr3 / pgSize

/-- `pf & PF_KERNEL ? &kernel_pool : &user_pool`. -/
def pool (s : MemState) : PoolFlags → Pool
  | .kernel => s.kernelPool
  | .user => s.userPool

def setPool (s : MemState) (pf : PoolFlags) (p : Pool) : MemState :=
  match pf with
  | .kernel => { s with kernelPool := p }
  | .user => { s with userPool := p }

/-- The virtual pages of the kernel, or of the running task. -/
def vaddr (s : MemState) : PoolFlags → VirtualAddr
  | .kernel => s.kernelVaddr
  | .user => (s.task s.cur).userprogVaddr

def setVaddr (s : MemState) (pf : PoolFlags) (v : VirtualAddr) : MemState :=
  match pf with
  | .kernel => { s with kernelVaddr := v }
  | .user =>
    { s with task := Function.update s.task s.cur ({ s.task s.cur with userprogVaddr := v }) }

/-- One word of physical memory. -/
def setWord (s : MemState) (f i w : ℕ) : MemState :=
  { s with phys := Function.update s.phys f (Function.update (s.phys f) i w) }

/-- One frame of physical memory. -/
def setPage (s : MemState) (f : ℕ) (page : ℕ → ℕ) : MemState :=
  { s with phys := Function.update s.phys f page }

end MemState

/-- The P bit of a page table or directory entry. -/
def present (w : ℕ) : Bool := w.testBit 0

/-- The frame that an entry points to. -/
def frameOf (w : ℕ) : ℕ := w / pgSize

/-- `pa | PG_US_U | PG_RW_W | PG_P_1`. -/
def entry (pa : ℕ) : ℕ := pa ||| 4 ||| 2 ||| 1

/-- The frame of a present entry. -/
def target (w : ℕ) : Option ℕ := if present w then some (frameOf w) else none

/-- **The MMU.** The frame that page `v` has under the directory in frame `d`. -/
def walk (phys : ℕ → ℕ → ℕ) (d v : ℕ) : Option ℕ :=
  (target (phys d (v / 1024))).bind fun t => target (phys t (v % 1024))

/-- The frame that an access to page `v` goes to. The TLB comes before the tables. -/
def MemState.translate (s : MemState) (v : ℕ) : Option ℕ := (s.tlb v).or (walk s.phys s.dir v)

/-- The word at the virtual address `va`. -/
def load (va : ℕ) : Kern MemState ℕ := fun s =>
  match s.translate (va / pgSize) with
  | some f => .ok (s.phys f (va % pgSize / 4), s)
  | none => .error .wild

def store (va w : ℕ) : Kern MemState Unit := fun s =>
  match s.translate (va / pgSize) with
  | some f => .ok ((), s.setWord f (va % pgSize / 4) w)
  | none => .error .wild

/-- `memset(va, 0, size)` inside one page. -/
def clear (va size : ℕ) : Kern MemState Unit := fun s =>
  match s.translate (va / pgSize) with
  | some f => .ok ((), s.setPage f fun i =>
      if va % pgSize / 4 ≤ i ∧ i < (va % pgSize + size) / 4 then 0 else s.phys f i)
  | none => .error .wild

/-- `memset(va, 0, n * PG_SIZE)`, page by page. -/
def clearPages (va : ℕ) : (n : ℕ) → Kern MemState Unit
  | 0 => pure ()
  | n + 1 => do
    clear va pgSize
    clearPages (va + pgSize) n

/-- `memcpy(dst, src, PG_SIZE)` between whole pages. -/
def copyPage (dst src : ℕ) : Kern MemState Unit := fun s =>
  match s.translate (dst / pgSize), s.translate (src / pgSize) with
  | some f, some g => .ok ((), s.setPage f (s.phys g))
  | _, _ => .error .wild

/-- The difference of two addresses below 2³², as `uint32_t`. -/
def sub32 (a b : ℕ) : ℕ := if b ≤ a then a - b else a + 2 ^ 32 - b

/-! ### The page tables as the code sees them -/

/-- `pte_ptr`: where the directory entry that points to itself shows the table entry of `vaddr`. -/
def ptePtr (vaddr : ℕ) : ℕ := 0xffc00000 + vaddr / 2 ^ 22 * pgSize + vaddr / pgSize % 1024 * 4

/-- `pde_ptr`. -/
def pdePtr (vaddr : ℕ) : ℕ := 0xfffff000 + vaddr / 2 ^ 22 * 4

/-- `palloc`: the address of a free frame of the pool, 0 if the scan finds none. -/
def palloc (pf : PoolFlags) : Kern MemState ℕ := do
  let s ← get
  let m := s.pool pf
  let bitIdx ← lift (bitmapScan m.poolBitmap 1)
  if bitIdx = -1 then pure 0
  else
    modify fun s => s.setPool pf { m with poolBitmap := bitmapSet m.poolBitmap bitIdx.toNat true }
    pure (bitIdx.toNat * pgSize + m.phyAddrStart)

/-- `page_table_add`: map the page of `vaddr` to the frame at `pagePhyaddr`. A missing table is a
frame of the kernel pool, cleared through its own place in the window. -/
def pageTableAdd (vaddr pagePhyaddr : ℕ) : Kern MemState Unit := do
  let pde ← load (pdePtr vaddr)
  if present pde then
    let pte ← load (ptePtr vaddr)
    ASSERT .pageTableAdd (!present pte)
    store (ptePtr vaddr) (entry pagePhyaddr)
  else
    let pdePhyaddr ← palloc .kernel
    store (pdePtr vaddr) (entry pdePhyaddr)
    clear (ptePtr vaddr / pgSize * pgSize) pgSize
    let pte ← load (ptePtr vaddr)
    ASSERT .pageTableAdd (!present pte)
    store (ptePtr vaddr) (entry pagePhyaddr)

/-- `addr_v2p`. -/
def addrV2p (vaddr : ℕ) : Kern MemState ℕ := do
  let pte ← load (ptePtr vaddr)
  pure (frameOf pte * pgSize + vaddr % pgSize)

/-- `invlpg`: the TLB forgets the page of `va`. -/
def invlpg (va : ℕ) : Kern MemState Unit :=
  modify fun s => { s with tlb := Function.update s.tlb (va / pgSize) none }

/-- `page_table_pte_remove`: clear the P bit. The operand of `invlpg` is the variable `vaddr`, which
is on the kernel stack, in the page of the PCB; so the TLB keeps what it has for the page. -/
def pageTablePteRemove (vaddr : ℕ) : Kern MemState Unit := do
  let s ← get
  let pte ← load (ptePtr vaddr)
  store (ptePtr vaddr) (pte - pte % 2)
  modify fun t =>
    { t with tlb := Function.update t.tlb (vaddr / pgSize) (s.translate (vaddr / pgSize)) }
  invlpg s.cur

/-! ### Virtual pages -/

/-- `n` bits from `i` on. -/
def bitmapSetRun (btmp : Bitmap) (i : ℕ) (value : Bool) : (n : ℕ) → Bitmap
  | 0 => btmp
  | n + 1 => bitmapSetRun (bitmapSet btmp i value) (i + 1) value n

/-- `vaddr_get`: the address of `pgCnt` pages that are free, or 0. -/
def vaddrGet (pf : PoolFlags) (pgCnt : ℕ) : Kern MemState ℕ := do
  let s ← get
  let v := s.vaddr pf
  let bitIdxStart ← lift (bitmapScan v.vaddrBitmap pgCnt)
  if bitIdxStart = -1 then pure 0
  else
    modify fun s => s.setVaddr pf
      { v with vaddrBitmap := bitmapSetRun v.vaddrBitmap bitIdxStart.toNat true pgCnt }
    let vaddrStart := v.vaddrStart + bitIdxStart.toNat * pgSize
    -- the page below 0xc0000000 is the user stack
    ASSERT .vaddrGet (pf = .kernel ∨ vaddrStart < 0xc0000000 - pgSize)
    pure vaddrStart

/-- `vaddr_remove`. A run that `bitmap_scan` found ends at most one bit after the bitmap. -/
def vaddrRemove (pf : PoolFlags) (vaddr pgCnt : ℕ) : Kern MemState Unit := do
  let s ← get
  let v := s.vaddr pf
  let bitIdxStart := sub32 vaddr v.vaddrStart / pgSize
  check (bitIdxStart + pgCnt ≤ 8 * v.vaddrBitmap.btmpBytesLen + 1) .wild
  modify fun s => s.setVaddr pf
    { v with vaddrBitmap := bitmapSetRun v.vaddrBitmap bitIdxStart false pgCnt }

/-! ### Allocating pages -/

/-- The loop of `malloc_page`: a frame for each page. False if a pool has none. -/
def mapPages (pf : PoolFlags) : (cnt : ℕ) → (vaddr : ℕ) → Kern MemState Bool
  | 0, _ => pure true
  | cnt + 1, vaddr => do
    let pagePhyaddr ← palloc pf
    if pagePhyaddr = 0 then pure false
    else
      pageTableAdd vaddr pagePhyaddr
      mapPages pf cnt (vaddr + pgSize)

/-- `malloc_page`. -/
def mallocPage (pf : PoolFlags) (pgCnt : ℕ) : Kern MemState ℕ := do
  ASSERT .mallocPage (0 < pgCnt ∧ pgCnt < 3840)
  let vaddrStart ← vaddrGet pf pgCnt
  if vaddrStart = 0 then pure 0
  else
    let ok ← mapPages pf pgCnt vaddrStart
    if ok then pure vaddrStart else pure 0

/-- `get_kernel_pages`. -/
def getKernelPages (pgCnt : ℕ) : Kern MemState ℕ := do
  let vaddr ← mallocPage .kernel pgCnt
  if vaddr ≠ 0 then
    clearPages vaddr pgCnt
    pure vaddr
  else pure vaddr

/-- `get_a_page_without_opvaddrbitmap`: a frame for the page of `vaddr`. -/
def getAPageWithoutOpvaddrbitmap (pf : PoolFlags) (vaddr : ℕ) : Kern MemState ℕ := do
  let pagePhyaddr ← palloc pf
  if pagePhyaddr = 0 then pure 0
  else
    pageTableAdd vaddr pagePhyaddr
    pure vaddr

/-- `get_a_page`: the same after its bit in the bitmap has been set. A process may only ask for
user pages and a kernel thread for kernel pages. -/
def getAPage (pf : PoolFlags) (vaddr : ℕ) : Kern MemState ℕ := do
  let s ← get
  let v := s.vaddr pf
  let bitIdx := sub32 vaddr v.vaddrStart / pgSize
  match pf with
  | .user => ASSERT .getAPage ((s.task s.cur).pgdir ≠ 0)
  | .kernel => ASSERT .getAPage ((s.task s.cur).pgdir = 0 ∧ 0 < bitIdx)
  check (bitIdx < 8 * v.vaddrBitmap.btmpBytesLen) .wild
  modify fun s => s.setVaddr pf { v with vaddrBitmap := bitmapSet v.vaddrBitmap bitIdx true }
  getAPageWithoutOpvaddrbitmap pf vaddr

/-! ### Freeing pages -/

/-- Clear the bit of a frame in the pool it belongs to by its address. -/
def releaseFrame (pgPhyAddr : ℕ) : Kern MemState Unit := do
  let s ← get
  let pf : PoolFlags := if s.userPool.phyAddrStart ≤ pgPhyAddr then .user else .kernel
  let m := s.pool pf
  let bitIdx := sub32 pgPhyAddr m.phyAddrStart / pgSize
  check (bitIdx < 8 * m.poolBitmap.btmpBytesLen) .wild
  modify fun s => s.setPool pf { m with poolBitmap := bitmapSet m.poolBitmap bitIdx false }

/-- `pfree`. -/
def pfree (pgPhyAddr : ℕ) : Kern MemState Unit := releaseFrame pgPhyAddr

/-- The two loops of `mfree_page`, which differ in the frames they expect. -/
def unmapPages (expected : ℕ → Bool) : (pgCnt : ℕ) → (vaddr : ℕ) → Kern MemState Unit
  | 0, _ => pure ()
  | pgCnt + 1, vaddr => do
    let pgPhyAddr ← addrV2p vaddr
    ASSERT .mfreePage (pgPhyAddr % pgSize = 0 ∧ expected pgPhyAddr)
    pfree pgPhyAddr
    pageTablePteRemove vaddr
    unmapPages expected pgCnt (vaddr + pgSize)

/-- `mfree_page`. -/
def mfreePage (pf : PoolFlags) (vaddr pgCnt : ℕ) : Kern MemState Unit := do
  ASSERT .mfreePage (1 ≤ pgCnt ∧ vaddr % pgSize = 0)
  let pgPhyAddr ← addrV2p vaddr
  -- above the low megabyte, the page directory and the first table
  ASSERT .mfreePage (pgPhyAddr % pgSize = 0 ∧ 0x102000 ≤ pgPhyAddr)
  let s ← get
  if s.userPool.phyAddrStart ≤ pgPhyAddr then
    unmapPages (fun pa => s.userPool.phyAddrStart ≤ pa) pgCnt vaddr
  else
    unmapPages (fun pa => s.kernelPool.phyAddrStart ≤ pa ∧ pa < s.userPool.phyAddrStart) pgCnt vaddr
  vaddrRemove pf vaddr pgCnt

/-! ### Start -/

/-- `K_HEAP_START`. -/
def kHeapStart : ℕ := 0xc0100000

/-- The frame of the kernel's page directory, at `PAGE_DIR_TABLE_POS`. -/
def kernelDir : ℕ := 0x100

/-- The frame of the kernel's table with index `i` from 768 to 1022. -/
@[irreducible] def kernelTable (i : ℕ) : ℕ := 0x101 + (i - 768)

/-- `setup_page` of the loader on memory that is otherwise zero. Entries 0 and 768 share the first
table, which maps the low megabyte. -/
def setupPage : ℕ → ℕ → ℕ := fun f i =>
  if f = kernelDir then
    if i = 0 then entry (kernelTable 768 * pgSize)
    else if 768 ≤ i ∧ i < 1023 then entry (kernelTable i * pgSize)
    else if i = 1023 then entry (kernelDir * pgSize)
    else 0
  else if f = kernelTable 768 ∧ i < 256 then entry (i * pgSize)
  else 0

/-- `DESC_CNT`. -/
def descCnt : ℕ := 7

/-- Where the linker puts `k_block_descs`; that it is below the heap is all that matters. -/
def kBlockDescs : ℕ := 0xc0010000

/-- `sizeof(struct mem_block_desc)`. -/
def descSize : ℕ := 24

/-- `sizeof(struct arena)`. -/
def arenaSize : ℕ := 12

/-- What `block_desc_init` writes to the descriptor with index `i`. -/
def freshDesc (i : ℕ) : MemBlockDesc where
  blockSize := 16 * 2 ^ i
  blocksPerArena := (pgSize - arenaSize) / (16 * 2 ^ i)
  freeList := []

/-- `block_desc_init` on the descriptors from `descArray` on. -/
def blockDescInit (descArray : ℕ) (desc : ℕ → MemBlockDesc) : ℕ → MemBlockDesc := fun a =>
  if descArray ≤ a ∧ a < descArray + descCnt * descSize ∧ (a - descArray) % descSize = 0 then
    freshDesc ((a - descArray) / descSize)
  else desc a

/-- `mem_pool_init` and the rest of `mem_init`, for `allMem` bytes of memory, with the main thread
running. The free pages are counted in 16 bits. -/
def memInit (allMem : ℕ) (mainThread : ℕ) : MemState :=
  let usedMem := pgSize * 256 + 0x100000
  let allFreePages := sub32 allMem usedMem / pgSize % 2 ^ 16
  let kernelFreePages := allFreePages / 2
  let userFreePages := allFreePages - kernelFreePages
  let kbmLength := kernelFreePages / 8
  let ubmLength := userFreePages / 8
  let noBits : VirtualAddr := ⟨bitmapInit 0, 0⟩
  { phys := setupPage
    cr3 := kernelDir * pgSize
    tlb := fun _ => none
    kernelPool := ⟨bitmapInit kbmLength, usedMem, kernelFreePages * pgSize⟩
    userPool := ⟨bitmapInit ubmLength, usedMem + kernelFreePages * pgSize, userFreePages * pgSize⟩
    kernelVaddr := ⟨bitmapInit kbmLength, kHeapStart⟩
    task := fun _ => ⟨0, noBits, 0⟩
    cur := mainThread
    desc := blockDescInit kBlockDescs fun _ => ⟨0, 0, []⟩ }

end X86Os.Mem
