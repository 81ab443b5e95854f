import X86Os.Kernel.Memory

/-!
# The heap

`sys_malloc` and `sys_free`. A request above 1024 bytes gets whole pages; a smaller one gets a block
of one of seven sizes, cut from an arena of one page. Both kinds of arena start with a header of
three words: the descriptor it belongs to, a count, and whether it is large. The header is memory
like any other, so the model reads and writes it at its address.

A kernel thread uses the kernel's descriptors and pages, a process those of its PCB and its own
pages. The only test for that is whether `pgdir` is `NULL`.

A free list is the list of the addresses of its blocks. In the kernel it is threaded through the
blocks themselves, whose contents matter to nobody while they are on it; that is the only memory the
model leaves out here.
-/

namespace X86Os.Mem

open X86Os.Comp

/-- The offset of `u_block_desc` in `struct task_struct`. -/
def uBlockDescOff : ℕ := 100

/-- The pool that the running task allocates from. -/
def heapPool (s : MemState) : PoolFlags := if (s.task s.cur).pgdir = 0 then .kernel else .user

/-- The descriptors that the running task uses. -/
def heapDescs (s : MemState) : ℕ :=
  if (s.task s.cur).pgdir = 0 then kBlockDescs else s.cur + uBlockDescOff

/-- `arena2block`: the address of block `idx` of the arena at `a`. -/
def arena2block (a idx blockSize : ℕ) : ℕ := a + arenaSize + idx * blockSize

/-- `block2arena`: the start of the page that the block is in. -/
def block2arena (b : ℕ) : ℕ := b / pgSize * pgSize

/-- Change the free list of the descriptor at `d`. -/
def modifyList (d : ℕ) (f : List ℕ → List ℕ) : Kern MemState Unit := modify fun s =>
  { s with desc := Function.update s.desc d ({ s.desc d with freeList := f (s.desc d).freeList }) }

/-- The loop of `sys_malloc` that looks for the first descriptor with large enough blocks. -/
def matchDesc (desc : ℕ → MemBlockDesc) (descs size : ℕ) : (fuel : ℕ) → (descIdx : ℕ) → ℕ
  | 0, descIdx => descIdx
  | fuel + 1, descIdx =>
    if size ≤ (desc (descs + descIdx * descSize)).blockSize then descIdx
    else matchDesc desc descs size fuel (descIdx + 1)

/-- The loop of `sys_malloc` that puts the blocks of a new arena on the free list. -/
def carveArena (a d : ℕ) : (n : ℕ) → (blockIdx : ℕ) → Kern MemState Unit
  | 0, _ => pure ()
  | n + 1, blockIdx => do
    let s ← get
    let b := arena2block a blockIdx (s.desc d).blockSize
    ASSERT .sysMalloc (b ∉ (s.desc d).freeList)
    modifyList d (· ++ [b])
    carveArena a d n (blockIdx + 1)

/-- The end of `sys_malloc`: the first block of the free list, filled with zeros. -/
def takeBlock (d : ℕ) : Kern MemState ℕ := do
  let s ← get
  match (s.desc d).freeList with
  | [] => stop .wild
  | b :: rest =>
    modifyList d fun _ => rest
    clear b (s.desc d).blockSize
    let cnt ← load (block2arena b + 4)
    store (block2arena b + 4) (sub32 cnt 1)
    pure b

/-- `a->desc`, `a->cnt` and `a->large` of a new arena. -/
def setHeader (a desc cnt large : ℕ) : Kern MemState Unit := do
  store a desc
  store (a + 4) cnt
  store (a + 8) large

/-- `sys_malloc`. -/
def sysMalloc (size : ℕ) : Kern MemState ℕ := do
  let s ← get
  let pf := heapPool s
  let descs := heapDescs s
  if ¬ (0 < size ∧ size < (s.pool pf).poolSize) then pure 0
  else if 1024 < size then
    let pageCnt := (size + arenaSize + pgSize - 1) / pgSize
    let a ← mallocPage pf pageCnt
    if a ≠ 0 then
      clearPages a pageCnt
      setHeader a 0 pageCnt 1
      pure (a + arenaSize)
    else pure 0
  else
    let d := descs + matchDesc s.desc descs size descCnt 0 * descSize
    if (s.desc d).freeList = [] then
      let a ← mallocPage pf 1
      if a = 0 then pure 0
      else
        clearPages a 1
        setHeader a d (s.desc d).blocksPerArena 0
        carveArena a d (s.desc d).blocksPerArena 0
        takeBlock d
    else takeBlock d

/-- The loop of `sys_free` that takes the blocks of an arena off the free list. -/
def dropBlocks (a d : ℕ) : (n : ℕ) → (blockIdx : ℕ) → Kern MemState Unit
  | 0, _ => pure ()
  | n + 1, blockIdx => do
    let s ← get
    let b := arena2block a blockIdx (s.desc d).blockSize
    ASSERT .sysFree (b ∈ (s.desc d).freeList)
    modifyList d (·.erase b)
    dropBlocks a d n (blockIdx + 1)

/-- `sys_free`. -/
def sysFree (ptr : ℕ) : Kern MemState Unit := do
  ASSERT .sysFree (ptr ≠ 0)
  let s ← get
  let pf := heapPool s
  ASSERT .sysFree (pf = .kernel → kHeapStart ≤ ptr)
  let a := block2arena ptr
  let large ← load (a + 8)
  ASSERT .sysFree (large = 0 ∨ large = 1)
  let d ← load a
  if d = 0 ∧ large = 1 then
    let cnt ← load (a + 4)
    mfreePage pf a cnt
  else
    -- there is no descriptor at 0
    check (d ≠ 0) .wild
    modifyList d (· ++ [ptr])
    let cnt ← load (a + 4)
    store (a + 4) (cnt + 1)
    if cnt + 1 = (s.desc d).blocksPerArena then
      dropBlocks a d (s.desc d).blocksPerArena 0
      mfreePage pf a 1
    else pure ()

end X86Os.Mem
