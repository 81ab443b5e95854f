import X86Os.Kernel.Mmu

/-!
# Dividing memory into pools

`mem_pool_init`, in the widths of the source: the size of the memory is a 32-bit word, but the
numbers of free pages are kept in `uint16_t`, so they are exact only up to 65535 pages. What the
function computes from them is sound for every size, because a number that has wrapped is too small
and never too large: `pool_layout`. It is not complete, because the pages that were lost are in no
pool: `pools_cover_iff` says from which size on.

The three bitmaps have no memory of their own. They are laid one after the other into four pages
below the PCB of the main thread, so their addresses are part of what is computed here. The rest of
the development only needs their contents, and by `memInit_pools` starts from the same pools.

## Main results

* `pool_layout` — the pools and the bitmaps for every size of memory
* `untracked_card` — how many frames are in no pool
* `pools_cover_iff` — at most 14 exactly below 258 MiB
-/

namespace X86Os.Mem

/-- What `mem_pool_init` sets, with the addresses of the bits of the three bitmaps. -/
structure MemPools where
  kernelPool : Pool
  userPool : Pool
  kernelVaddr : VirtualAddr
  kernelBits : Word
  userBits : Word
  vaddrBits : Word

/-- `MEM_BITMAP_BASE`. -/
def memBitmapBase : Word := 0xc009a000#32

/-- `PG_SIZE`, as a word. -/
def pgSizeWord : Word := 4096#32

/-- `mem_pool_init`. The counts of pages are `uint16_t`; in a product or a quotient they are
promoted. -/
def memPoolInit (allMem : Word) : MemPools :=
  let pageTableSize := pgSizeWord * 256#32
  let usedMem := pageTableSize + 0x100000#32
  let freeMem := allMem - usedMem
  let allFreePages : BitVec 16 := (freeMem / pgSizeWord).setWidth 16
  let kernelFreePages : BitVec 16 := allFreePages / 2#16
  let userFreePages : BitVec 16 := allFreePages - kernelFreePages
  let kbmLength : Word := kernelFreePages.setWidth 32 / 8#32
  let ubmLength : Word := userFreePages.setWidth 32 / 8#32
  let kpStart := usedMem
  let upStart := kpStart + kernelFreePages.setWidth 32 * pgSizeWord
  { kernelPool := ⟨bitmapInit kbmLength.toNat, kpStart.toNat,
      (kernelFreePages.setWidth 32 * pgSizeWord).toNat⟩
    userPool := ⟨bitmapInit ubmLength.toNat, upStart.toNat,
      (userFreePages.setWidth 32 * pgSizeWord).toNat⟩
    kernelVaddr := ⟨bitmapInit kbmLength.toNat, kHeapStart⟩
    kernelBits := memBitmapBase
    userBits := memBitmapBase + kbmLength
    vaddrBits := memBitmapBase + kbmLength + ubmLength }

/-! ### In numbers -/

theorem toNat_half (w : BitVec 16) : ((w / 2#16).setWidth 32).toNat = w.toNat / 2 := by
  have hlt := w.isLt
  rw [BitVec.toNat_setWidth, BitVec.toNat_udiv, show (2#16).toNat = 2 from rfl]
  omega

theorem toNat_sub_half (w : BitVec 16) :
    ((w - w / 2#16).setWidth 32).toNat = w.toNat - w.toNat / 2 := by
  have hlt := w.isLt
  rw [BitVec.toNat_setWidth, BitVec.toNat_sub, BitVec.toNat_udiv, show (2#16).toNat = 2 from rfl]
  omega

/-- A 16-bit count of pages is a number of bytes that fits in a word. -/
theorem toNat_mul_pgSizeWord {w : Word} (hw : w.toNat < 2 ^ 16) :
    (w * pgSizeWord).toNat = w.toNat * pgSize := by
  rw [BitVec.toNat_mul, show pgSizeWord.toNat = pgSize from rfl]
  simp only [pgSize]
  omega

theorem toNat_div_eight (w : Word) : (w / 8#32).toNat = w.toNat / 8 := BitVec.toNat_udiv

theorem div_eight_eq (w : Word) : w / 8#32 = BitVec.ofNat 32 (w.toNat / 8) := by
  rw [← toNat_div_eight, BitVec.ofNat_toNat, BitVec.setWidth_eq]

section

variable (allMem : Word)

/-- The free pages as `mem_pool_init` counts them. -/
def freePages : ℕ := (allMem - 0x200000#32).toNat / pgSize % 2 ^ 16

/-- The half that goes to the kernel. -/
def kernelPages : ℕ := freePages allMem / 2

/-- The half that goes to the processes. -/
def userPages : ℕ := freePages allMem - kernelPages allMem

theorem freePages_lt : freePages allMem < 2 ^ 16 := Nat.mod_lt _ (by decide)

theorem kernelPages_lt : kernelPages allMem < 2 ^ 15 := by
  have := freePages_lt allMem
  rw [kernelPages]
  omega

theorem userPages_le : userPages allMem ≤ 2 ^ 15 := by
  have := freePages_lt allMem
  rw [userPages, kernelPages]
  omega

/-- The function without words: none of its sums or products wraps. -/
theorem memPoolInit_eq : memPoolInit allMem =
    { kernelPool := ⟨bitmapInit (kernelPages allMem / 8), 0x200000, kernelPages allMem * pgSize⟩
      userPool := ⟨bitmapInit (userPages allMem / 8), 0x200000 + kernelPages allMem * pgSize,
        userPages allMem * pgSize⟩
      kernelVaddr := ⟨bitmapInit (kernelPages allMem / 8), kHeapStart⟩
      kernelBits := 0xc009a000#32
      userBits := BitVec.ofNat 32 (0xc009a000 + kernelPages allMem / 8)
      vaddrBits := BitVec.ofNat 32
        (0xc009a000 + kernelPages allMem / 8 + userPages allMem / 8) } := by
  generalize hw : ((allMem - (pgSizeWord * 256#32 + 0x100000#32)) / pgSizeWord).setWidth 16 = w
  have hall : w.toNat = freePages allMem := by
    rw [← hw, BitVec.toNat_setWidth, BitVec.toNat_udiv]
    rfl
  have hk : ((w / 2#16).setWidth 32).toNat = kernelPages allMem := by
    rw [toNat_half, hall, kernelPages]
  have hu : ((w - w / 2#16).setWidth 32).toNat = userPages allMem := by
    rw [toNat_sub_half, hall, userPages, kernelPages]
  have hkernel := kernelPages_lt allMem
  have huser := userPages_le allMem
  have hkSize := toNat_mul_pgSizeWord (w := (w / 2#16).setWidth 32) (by omega)
  have huSize := toNat_mul_pgSizeWord (w := (w - w / 2#16).setWidth 32) (by omega)
  have hupStart : (pgSizeWord * 256#32 + 0x100000#32 + (w / 2#16).setWidth 32 * pgSizeWord).toNat =
      0x200000 + kernelPages allMem * pgSize := by
    rw [BitVec.toNat_add, hkSize, hk,
      show (pgSizeWord * 256#32 + 0x100000#32).toNat = 0x200000 from rfl]
    simp only [pgSize]
    omega
  simp only [memPoolInit, hw, hkSize, huSize, hk, hu, hupStart, toNat_div_eight]
  simp only [div_eight_eq, hk, hu, memBitmapBase, BitVec.ofNat_add]
  rfl

/-- The rest of the development starts from these pools. -/
theorem memInit_pools (mainThread : ℕ) :
    (memInit allMem.toNat mainThread).kernelPool = (memPoolInit allMem).kernelPool ∧
      (memInit allMem.toNat mainThread).userPool = (memPoolInit allMem).userPool ∧
      (memInit allMem.toNat mainThread).kernelVaddr = (memPoolInit allMem).kernelVaddr := by
  have hfree : sub32 allMem.toNat 0x200000 / pgSize % 2 ^ 16 = freePages allMem := by
    have hlt := allMem.isLt
    have hsub : sub32 allMem.toNat 0x200000 = (allMem - 0x200000#32).toNat := by
      rw [BitVec.toNat_sub, show (0x200000#32).toNat = 0x200000 from rfl, sub32]
      split <;> omega
    rw [hsub, freePages]
  rw [memPoolInit_eq]
  refine ⟨?_, ?_, ?_⟩ <;>
    simp only [memInit, show pgSize * 256 + 0x100000 = 0x200000 from rfl, hfree] <;> rfl

end

/-! ### Where things are -/

namespace MemPools

variable (P : MemPools)

/-- The bytes of the kernel's frame bitmap. -/
def kernelBytes : Set ℕ :=
  Set.Ico P.kernelBits.toNat (P.kernelBits.toNat + P.kernelPool.poolBitmap.btmpBytesLen)

/-- The bytes of the processes' frame bitmap. -/
def userBytes : Set ℕ :=
  Set.Ico P.userBits.toNat (P.userBits.toNat + P.userPool.poolBitmap.btmpBytesLen)

/-- The bytes of the kernel's bitmap of virtual pages. -/
def vaddrBytes : Set ℕ :=
  Set.Ico P.vaddrBits.toNat (P.vaddrBits.toNat + P.kernelVaddr.vaddrBitmap.btmpBytesLen)

end MemPools

section

variable {allMem : Word} {f : ℕ}

theorem kernelPool_has : (memPoolInit allMem).kernelPool.Has f ↔
    0x200 ≤ f ∧ f < 0x200 + 8 * (kernelPages allMem / 8) := by
  have hfirst : (memPoolInit allMem).kernelPool.first = 0x200 := by
    rw [memPoolInit_eq]
    simp only [Pool.first, pgSize]
  have hlen : (memPoolInit allMem).kernelPool.poolBitmap.btmpBytesLen = kernelPages allMem / 8 := by
    rw [memPoolInit_eq]
    rfl
  rw [Pool.Has, hfirst, hlen]

theorem userPool_has : (memPoolInit allMem).userPool.Has f ↔
    0x200 + kernelPages allMem ≤ f ∧
      f < 0x200 + kernelPages allMem + 8 * (userPages allMem / 8) := by
  have hfirst : (memPoolInit allMem).userPool.first = 0x200 + kernelPages allMem := by
    rw [memPoolInit_eq]
    simp only [Pool.first, pgSize]
    omega
  have hlen : (memPoolInit allMem).userPool.poolBitmap.btmpBytesLen = userPages allMem / 8 := by
    rw [memPoolInit_eq]
    rfl
  rw [Pool.Has, hfirst, hlen]

theorem kernelBytes_eq : (memPoolInit allMem).kernelBytes =
    Set.Ico 0xc009a000 (0xc009a000 + kernelPages allMem / 8) := by
  rw [memPoolInit_eq]
  rfl

theorem userBytes_eq : (memPoolInit allMem).userBytes =
    Set.Ico (0xc009a000 + kernelPages allMem / 8)
      (0xc009a000 + kernelPages allMem / 8 + userPages allMem / 8) := by
  have hk := kernelPages_lt allMem
  rw [memPoolInit_eq, MemPools.userBytes, BitVec.toNat_ofNat, Nat.mod_eq_of_lt (by omega)]
  rfl

theorem vaddrBytes_eq : (memPoolInit allMem).vaddrBytes =
    Set.Ico (0xc009a000 + kernelPages allMem / 8 + userPages allMem / 8)
      (0xc009a000 + kernelPages allMem / 8 + userPages allMem / 8 + kernelPages allMem / 8) := by
  have hk := kernelPages_lt allMem
  have hu := userPages_le allMem
  rw [memPoolInit_eq, MemPools.vaddrBytes, BitVec.toNat_ofNat, Nat.mod_eq_of_lt (by omega)]
  rfl

/-- The counts never exceed the memory, wrapped or not. -/
theorem freePages_le (h : 0x200000 ≤ allMem.toNat) :
    0x200000 + freePages allMem * pgSize ≤ allMem.toNat := by
  have hsub : (allMem - 0x200000#32).toNat = allMem.toNat - 0x200000 :=
    BitVec.toNat_sub_of_le h
  rw [freePages, hsub]
  simp only [pgSize]
  omega

/-- **The layout is safe.** For every size of memory the two pools have no frame in common and only
frames of memory above the first two megabytes, and the three bitmaps are disjoint and lie in the
four pages below the PCB of the main thread. -/
theorem pool_layout (h : 0x200000 ≤ allMem.toNat) :
    (∀ f, (memPoolInit allMem).kernelPool.Has f → ¬ (memPoolInit allMem).userPool.Has f) ∧
      (∀ f, (memPoolInit allMem).kernelPool.Has f ∨ (memPoolInit allMem).userPool.Has f →
        0x200000 ≤ f * pgSize ∧ (f + 1) * pgSize ≤ allMem.toNat) ∧
      [(memPoolInit allMem).kernelBytes, (memPoolInit allMem).userBytes,
        (memPoolInit allMem).vaddrBytes].Pairwise (fun B B' => ∀ b ∈ B, b ∉ B') ∧
      ∀ B ∈ [(memPoolInit allMem).kernelBytes, (memPoolInit allMem).userBytes,
        (memPoolInit allMem).vaddrBytes], B ⊆ Set.Ico 0xc009a000 0xc009e000 := by
  have hk := kernelPages_lt allMem
  have hu := userPages_le allMem
  have hle := freePages_le h
  have hsum : kernelPages allMem + userPages allMem = freePages allMem := by
    rw [userPages, kernelPages]
    omega
  simp only [pgSize] at hle ⊢
  refine ⟨fun f hf hf' => ?_, fun f hf => ?_, ?_, fun B hB => ?_⟩
  · rw [kernelPool_has] at hf
    rw [userPool_has] at hf'
    omega
  · rw [kernelPool_has, userPool_has] at hf
    omega
  · rw [kernelBytes_eq, userBytes_eq, vaddrBytes_eq]
    simp only [List.pairwise_cons, List.mem_cons, List.not_mem_nil, or_false, forall_eq_or_imp,
      forall_eq, false_imp_iff, implies_true, List.Pairwise.nil, and_true, Set.mem_Ico]
    refine ⟨⟨fun b h1 h2 => ?_, fun b h1 h2 => ?_⟩, fun b h1 h2 => ?_⟩ <;> omega
  · rw [kernelBytes_eq, userBytes_eq, vaddrBytes_eq] at hB
    simp only [List.mem_cons, List.not_mem_nil, or_false] at hB
    rcases hB with rfl | rfl | rfl <;> intro b hb <;> rw [Set.mem_Ico] at hb ⊢ <;> omega

end

/-- The machine with 32 MiB. -/
theorem pool_layout_32M : (∀ f, (memPoolInit 0x2000000#32).kernelPool.Has f →
    ¬ (memPoolInit 0x2000000#32).userPool.Has f) ∧
      (memPoolInit 0x2000000#32).vaddrBytes ⊆ Set.Ico 0xc009a000 0xc009e000 := by
  have hsize : 0x200000 ≤ (0x2000000#32 : Word).toNat := by decide
  obtain ⟨h1, -, -, h2⟩ := pool_layout hsize
  exact ⟨h1, h2 _ (by simp)⟩

/-! ### What is in no pool -/

instance (p : Pool) : DecidablePred p.Has := fun f =>
  inferInstanceAs (Decidable (p.first ≤ f ∧ f < p.first + 8 * p.poolBitmap.btmpBytesLen))

/-- The whole frames above the first two megabytes that neither bitmap has a bit for. -/
def untracked (allMem : Word) : Finset ℕ :=
  (Finset.Ico 0x200 (allMem.toNat / pgSize)).filter fun f =>
    ¬ ((memPoolInit allMem).kernelPool.Has f ∨ (memPoolInit allMem).userPool.Has f)

section

variable {allMem : Word}

/-- **How many frames are in no pool.** -/
theorem untracked_card (h : 0x200000 ≤ allMem.toNat) :
    (untracked allMem).card + (8 * (kernelPages allMem / 8) + 8 * (userPages allMem / 8)) =
      allMem.toNat / pgSize - 0x200 := by
  have hle := freePages_le h
  have hsum : kernelPages allMem + userPages allMem = freePages allMem := by
    rw [userPages, kernelPages]
    omega
  have hpages : 0x200 + freePages allMem ≤ allMem.toNat / pgSize := by
    simp only [pgSize] at hle ⊢
    omega
  have hdisj : Disjoint (Finset.Ico 0x200 (0x200 + 8 * (kernelPages allMem / 8)))
      (Finset.Ico (0x200 + kernelPages allMem)
        (0x200 + kernelPages allMem + 8 * (userPages allMem / 8))) := by
    rw [Finset.disjoint_left]
    intro f h1 h2
    rw [Finset.mem_Ico] at h1 h2
    omega
  have htracked : (Finset.Ico 0x200 (allMem.toNat / pgSize)).filter (fun f =>
      (memPoolInit allMem).kernelPool.Has f ∨ (memPoolInit allMem).userPool.Has f) =
      Finset.Ico 0x200 (0x200 + 8 * (kernelPages allMem / 8)) ∪
        Finset.Ico (0x200 + kernelPages allMem)
          (0x200 + kernelPages allMem + 8 * (userPages allMem / 8)) := by
    ext f
    rw [Finset.mem_filter, Finset.mem_union, kernelPool_has, userPool_has, Finset.mem_Ico,
      Finset.mem_Ico, Finset.mem_Ico]
    omega
  have hcard := Finset.card_filter_add_card_filter_not
    (s := Finset.Ico 0x200 (allMem.toNat / pgSize))
    (fun f => (memPoolInit allMem).kernelPool.Has f ∨ (memPoolInit allMem).userPool.Has f)
  rw [htracked, Finset.card_union_of_disjoint hdisj, Nat.card_Ico, Nat.card_Ico,
    Nat.card_Ico] at hcard
  rw [untracked]
  omega

/-- **The pools cover memory up to 258 MiB.** At most 14 frames are in no pool exactly if the number
of free pages fits in 16 bits. -/
theorem pools_cover_iff (h : 0x200000 ≤ allMem.toNat) :
    (untracked allMem).card ≤ 14 ↔ allMem.toNat < 0x10200000 := by
  have hcard := untracked_card h
  have hsub : (allMem - 0x200000#32).toNat = allMem.toNat - 0x200000 := BitVec.toNat_sub_of_le h
  have hfree : freePages allMem = (allMem.toNat - 0x200000) / pgSize % 2 ^ 16 := by
    rw [freePages, hsub]
  have hk : kernelPages allMem = freePages allMem / 2 := rfl
  have hu : userPages allMem = freePages allMem - kernelPages allMem := rfl
  simp only [pgSize] at hcard hfree
  constructor
  · intro hle
    by_contra hbig
    -- no more than 65535 pages are counted
    have hlt := freePages_lt allMem
    omega
  · intro hsmall
    have hexact : freePages allMem = (allMem.toNat - 0x200000) / 4096 := by omega
    omega

end

theorem pools_cover_32M : (untracked 0x2000000#32).card ≤ 14 :=
  (pools_cover_iff (by decide)).2 (by decide)

/-- **512 MiB.** Of the 130560 free frames of the largest machine only 65024 are in a pool. -/
theorem untracked_512M : (untracked 0x20000000#32).card = 65536 := by
  have hsize : 0x200000 ≤ (0x20000000#32 : Word).toNat := by decide
  have hcard := untracked_card hsize
  generalize (untracked 0x20000000#32).card = c at hcard ⊢
  have hk : kernelPages 0x20000000#32 = 32512 := by decide
  have hu : userPages 0x20000000#32 = 32512 := by decide
  have htop : (0x20000000#32).toNat / pgSize = 0x20000 := by decide
  rw [hk, hu, htop] at hcard
  omega

end X86Os.Mem
