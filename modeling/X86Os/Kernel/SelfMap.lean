import X86Os.Kernel.Mmu

/-!
# The page tables seen through themselves

`pde_ptr`, `pte_ptr` and `addr_v2p` address the page tables through the translation that the tables
define: the last entry of the directory points to the directory, so a walk for an address in the
last four megabytes goes through the directory twice, and one for an address in the last page goes
through it three times.

The functions are stated here once more in the words of the source, with its masks and shifts on
32-bit words, over a memory that is nothing but words at addresses, and with the walk of the
processor spelled out in the same way. No table is assumed to have any shape apart from the one
entry. `mmu_eq_walk` and `addrV2p_eq_word` say that the arithmetic used everywhere else is that of
these words, so what is proved here is about the same functions.

## Main results

* `mmu_pdePtr`, `mmu_ptePtr`, `addrV2pWord_eq` — the three functions through the window
* `self_map` — the same for every address
* `mmu_eq_walk`, `addrV2p_eq_word` — the walk and `addr_v2p` by words are those by frames
-/

namespace X86Os.Mem

open X86Os.Comp

/-! ### Masks -/

/-- A mask of the bits from `k` on clears the `k` lowest bits. -/
theorem and_highMask {k : ℕ} {mask : Word}
    (hmask : ∀ i < 32, mask.getLsbD i = decide (k ≤ i)) (w : Word) :
    (w &&& mask).toNat = w.toNat / 2 ^ k * 2 ^ k := by
  have hbits : w &&& mask = w >>> k <<< k := by
    apply BitVec.eq_of_getLsbD_eq
    intro i hi
    rw [BitVec.getLsbD_and, BitVec.getLsbD_shiftLeft, BitVec.getLsbD_ushiftRight, hmask i hi]
    by_cases hk : k ≤ i
    · rw [show k + (i - k) = i by omega]
      simp [hk, hi]
    · simp [hk, show i < k by omega]
  have hle : w.toNat / 2 ^ k * 2 ^ k ≤ w.toNat := Nat.div_mul_le_self _ _
  have hlt := w.isLt
  rw [hbits, BitVec.toNat_shiftLeft, BitVec.toNat_ushiftRight, Nat.shiftRight_eq_div_pow,
    Nat.shiftLeft_eq, Nat.mod_eq_of_lt (by omega)]

theorem toNat_and_pageMask (w : Word) :
    (w &&& 0xfffff000#32).toNat = w.toNat / 4096 * 4096 := and_highMask (k := 12) (by decide) w

theorem toNat_and_dirMask (w : Word) :
    (w &&& 0xffc00000#32).toNat = w.toNat / 2 ^ 22 * 2 ^ 22 := and_highMask (by decide) w

theorem toNat_and_offsetMask (w : Word) : (w &&& 0xfff#32).toNat = w.toNat % 4096 := by
  rw [BitVec.toNat_and]
  exact Nat.and_two_pow_sub_one_eq_mod _ 12

theorem toNat_and_indexMask (w : Word) : (w &&& 0x3ff#32).toNat = w.toNat % 1024 := by
  rw [BitVec.toNat_and]
  exact Nat.and_two_pow_sub_one_eq_mod _ 10

/-! ### The source's arithmetic -/

/-- `PDE_IDX`. -/
def pdeIdx (addr : Word) : Word := (addr &&& 0xffc00000#32) >>> 22

/-- `PTE_IDX`. -/
def pteIdx (addr : Word) : Word := (addr &&& 0x003ff000#32) >>> 12

/-- `pte_ptr`. -/
def ptePtrWord (vaddr : Word) : Word :=
  0xffc00000#32 + ((vaddr &&& 0xffc00000#32) >>> 10) + pteIdx vaddr * 4#32

/-- `pde_ptr`. -/
def pdePtrWord (vaddr : Word) : Word := 0xfffff000#32 + pdeIdx vaddr * 4#32

theorem toNat_pdeIdx (v : Word) : (pdeIdx v).toNat = v.toNat / 2 ^ 22 := by
  rw [pdeIdx, BitVec.toNat_ushiftRight, toNat_and_dirMask, Nat.shiftRight_eq_div_pow,
    Nat.mul_div_cancel _ (by decide)]

theorem toNat_pteIdx (v : Word) : (pteIdx v).toNat = v.toNat / 4096 % 1024 := by
  have hbits : pteIdx v = v >>> 12 &&& 0x3ff#32 := by
    have hmask : ∀ i < 32, (0x003ff000#32).getLsbD (12 + i) = (0x3ff#32).getLsbD i := by decide
    apply BitVec.eq_of_getLsbD_eq
    intro i hi
    rw [pteIdx, BitVec.getLsbD_ushiftRight, BitVec.getLsbD_and, BitVec.getLsbD_and,
      BitVec.getLsbD_ushiftRight, hmask i hi]
  rw [hbits, toNat_and_indexMask, BitVec.toNat_ushiftRight, Nat.shiftRight_eq_div_pow]

theorem toNat_pdePtrWord (v : Word) : (pdePtrWord v).toNat = pdePtr v.toNat := by
  have hlt := v.isLt
  rw [pdePtrWord, pdePtr, BitVec.toNat_add, BitVec.toNat_mul, toNat_pdeIdx]
  simp only [BitVec.toNat_ofNat]
  omega

theorem toNat_ptePtrWord (v : Word) : (ptePtrWord v).toNat = ptePtr v.toNat := by
  have hlt := v.isLt
  have hsum : (0xffc00000 + v.toNat / 2 ^ 22 * 2 ^ 12) + v.toNat / 4096 % 1024 * 4 < 2 ^ 32 := by
    omega
  rw [ptePtrWord, ptePtr, BitVec.toNat_add, BitVec.toNat_add, BitVec.toNat_mul, toNat_pteIdx,
    BitVec.toNat_ushiftRight, toNat_and_dirMask, Nat.shiftRight_eq_div_pow]
  simp only [BitVec.toNat_ofNat, pgSize]
  omega

/-! ### The processor's walk -/

/-- Physical memory: the word at each address. -/
abbrev PhysMem := Word → Word

/-- The P bit. -/
def presentWord (e : Word) : Bool := e.getLsbD 0

/-- Where the directory entry for `v` is. -/
def pdeAddr (cr3 v : Word) : Word := (cr3 &&& 0xfffff000#32) + (v >>> 22) * 4#32

/-- Where the table entry for `v` is, in the table that the directory entry points to. -/
def pteAddr (pde v : Word) : Word := (pde &&& 0xfffff000#32) + (v >>> 12 &&& 0x3ff#32) * 4#32

/-- **The translation of an address**: directory entry, table entry, offset in the page. -/
def mmu (mem : PhysMem) (cr3 v : Word) : Option Word :=
  let pde := mem (pdeAddr cr3 v)
  if presentWord pde then
    let pte := mem (pteAddr pde v)
    if presentWord pte then some ((pte &&& 0xfffff000#32) + (v &&& 0xfff#32)) else none
  else none

/-- `addr_v2p`, which reads `*pte` through the translation. -/
def addrV2pWord (mem : PhysMem) (cr3 vaddr : Word) : Option Word :=
  (mmu mem cr3 (ptePtrWord vaddr)).map fun pa =>
    (mem pa &&& 0xfffff000#32) + (vaddr &&& 0x00000fff#32)

/-- Entry 1023 of the directory is present and points to the directory. -/
def SelfMapped (mem : PhysMem) (cr3 : Word) : Prop :=
  presentWord (mem ((cr3 &&& 0xfffff000#32) + 1023#32 * 4#32)) = true ∧
    mem ((cr3 &&& 0xfffff000#32) + 1023#32 * 4#32) &&& 0xfffff000#32 = cr3 &&& 0xfffff000#32

/-! ### Addresses in the window -/

theorem pdePtrWord_dir (v : Word) : pdePtrWord v >>> 22 = 1023#32 := by
  have hlt := v.isLt
  apply BitVec.eq_of_toNat_eq
  rw [BitVec.toNat_ushiftRight, toNat_pdePtrWord, Nat.shiftRight_eq_div_pow, pdePtr]
  simp only [BitVec.toNat_ofNat]
  omega

theorem pdePtrWord_table (v : Word) : pdePtrWord v >>> 12 &&& 0x3ff#32 = 1023#32 := by
  have hlt := v.isLt
  apply BitVec.eq_of_toNat_eq
  rw [toNat_and_indexMask, BitVec.toNat_ushiftRight, toNat_pdePtrWord, Nat.shiftRight_eq_div_pow,
    pdePtr]
  simp only [BitVec.toNat_ofNat]
  omega

theorem pdePtrWord_offset (v : Word) : pdePtrWord v &&& 0xfff#32 = (v >>> 22) * 4#32 := by
  have hlt := v.isLt
  apply BitVec.eq_of_toNat_eq
  rw [toNat_and_offsetMask, toNat_pdePtrWord, BitVec.toNat_mul, BitVec.toNat_ushiftRight,
    Nat.shiftRight_eq_div_pow, pdePtr]
  simp only [BitVec.toNat_ofNat]
  omega

theorem ptePtrWord_dir (v : Word) : ptePtrWord v >>> 22 = 1023#32 := by
  have hlt := v.isLt
  apply BitVec.eq_of_toNat_eq
  rw [BitVec.toNat_ushiftRight, toNat_ptePtrWord, Nat.shiftRight_eq_div_pow, ptePtr]
  simp only [BitVec.toNat_ofNat, pgSize]
  omega

theorem ptePtrWord_table (v : Word) : ptePtrWord v >>> 12 &&& 0x3ff#32 = v >>> 22 := by
  have hlt := v.isLt
  apply BitVec.eq_of_toNat_eq
  rw [toNat_and_indexMask, BitVec.toNat_ushiftRight, BitVec.toNat_ushiftRight, toNat_ptePtrWord,
    Nat.shiftRight_eq_div_pow, Nat.shiftRight_eq_div_pow, ptePtr]
  simp only [pgSize]
  omega

theorem ptePtrWord_offset (v : Word) :
    ptePtrWord v &&& 0xfff#32 = (v >>> 12 &&& 0x3ff#32) * 4#32 := by
  apply BitVec.eq_of_toNat_eq
  rw [toNat_and_offsetMask, toNat_ptePtrWord, BitVec.toNat_mul, toNat_and_indexMask,
    BitVec.toNat_ushiftRight, Nat.shiftRight_eq_div_pow, ptePtr]
  simp only [BitVec.toNat_ofNat, pgSize]
  omega

/-! ### The window -/

section

variable {mem : PhysMem} {cr3 v pa : Word}

theorem mmu_of_present {pde pte : Word} (hpde : mem (pdeAddr cr3 v) = pde)
    (hpte : mem (pteAddr pde v) = pte) (h1 : presentWord pde = true) (h2 : presentWord pte = true) :
    mmu mem cr3 v = some ((pte &&& 0xfffff000#32) + (v &&& 0xfff#32)) := by
  subst hpde hpte
  rw [mmu, if_pos h1, if_pos h2]

theorem mmu_eq_some (h : mmu mem cr3 v = some pa) :
    presentWord (mem (pdeAddr cr3 v)) = true ∧
      (mem (pteAddr (mem (pdeAddr cr3 v)) v) &&& 0xfffff000#32) + (v &&& 0xfff#32) = pa := by
  simp only [mmu] at h
  split at h
  · split at h
    · exact ⟨‹_›, Option.some.inj h⟩
    · cases h
  · cases h

/-- `pde_ptr` goes through the directory twice and ends in it. -/
theorem mmu_pdePtr (h : SelfMapped mem cr3) (v : Word) :
    mmu mem cr3 (pdePtrWord v) = some (pdeAddr cr3 v) := by
  obtain ⟨hp, hself⟩ := h
  have hpde : pdeAddr cr3 (pdePtrWord v) = (cr3 &&& 0xfffff000#32) + 1023#32 * 4#32 := by
    rw [pdeAddr, pdePtrWord_dir]
  have hpte : pteAddr (mem ((cr3 &&& 0xfffff000#32) + 1023#32 * 4#32)) (pdePtrWord v) =
      (cr3 &&& 0xfffff000#32) + 1023#32 * 4#32 := by
    rw [pteAddr, hself, pdePtrWord_table]
  rw [mmu_of_present (congrArg mem hpde) (congrArg mem hpte) hp hp, hself, pdePtrWord_offset,
    pdeAddr]

/-- `pte_ptr` goes through the directory once and ends in the table. -/
theorem mmu_ptePtr (h : SelfMapped mem cr3) (hv : presentWord (mem (pdeAddr cr3 v)) = true) :
    mmu mem cr3 (ptePtrWord v) = some (pteAddr (mem (pdeAddr cr3 v)) v) := by
  obtain ⟨hp, hself⟩ := h
  have hpde : pdeAddr cr3 (ptePtrWord v) = (cr3 &&& 0xfffff000#32) + 1023#32 * 4#32 := by
    rw [pdeAddr, ptePtrWord_dir]
  have hpte : pteAddr (mem ((cr3 &&& 0xfffff000#32) + 1023#32 * 4#32)) (ptePtrWord v) =
      pdeAddr cr3 v := by
    rw [pteAddr, hself, ptePtrWord_table, pdeAddr]
  rw [mmu_of_present (congrArg mem hpde) (congrArg mem hpte) hp hv, ptePtrWord_offset, pteAddr]

theorem addrV2pWord_eq (h : SelfMapped mem cr3) (hv : mmu mem cr3 v = some pa) :
    addrV2pWord mem cr3 v = some pa := by
  obtain ⟨hpde, hpa⟩ := mmu_eq_some hv
  rw [addrV2pWord, mmu_ptePtr h hpde, Option.map_some, hpa]

/-- **The tables seen through themselves.** For every address, `pde_ptr` translates to the directory
entry that its walk uses, `pte_ptr` to the table entry if there is a table, and `addr_v2p` returns
its translation if it has one. -/
theorem self_map (h : SelfMapped mem cr3) (v : Word) :
    mmu mem cr3 (pdePtrWord v) = some (pdeAddr cr3 v) ∧
      (presentWord (mem (pdeAddr cr3 v)) = true →
        mmu mem cr3 (ptePtrWord v) = some (pteAddr (mem (pdeAddr cr3 v)) v)) ∧
      ∀ pa, mmu mem cr3 v = some pa → addrV2pWord mem cr3 v = some pa :=
  ⟨mmu_pdePtr h v, mmu_ptePtr h, fun _ => addrV2pWord_eq h⟩

end

/-- A memory in which every entry of every table points to the directory at 0x100000. -/
theorem self_map_constant :
    mmu (fun _ => 0x100007#32) 0x100000#32 (pdePtrWord 0xffc12345#32) = some 0x100ffc#32 ∧
      mmu (fun _ => 0x100007#32) 0x100000#32 (ptePtrWord 0xffc12345#32) = some 0x100048#32 ∧
      addrV2pWord (fun _ => 0x100007#32) 0x100000#32 0xffc12345#32 = some 0x100345#32 := by
  have hself : SelfMapped (fun _ => 0x100007#32) 0x100000#32 := ⟨by decide, by decide⟩
  obtain ⟨h1, h2, h3⟩ := self_map hself 0xffc12345#32
  exact ⟨h1, h2 (by decide), h3 _ (by decide)⟩

/-! ### The same walk by frames -/

/-- The words of a memory by frame and index. -/
def framesOfMem (mem : PhysMem) : ℕ → ℕ → ℕ := fun f i =>
  (mem (BitVec.ofNat 32 (f * pgSize + i * 4))).toNat

theorem present_toNat (e : Word) : present e.toNat = presentWord e := rfl

theorem framesOfMem_entry (mem : PhysMem) (base idx : Word) :
    framesOfMem mem (base.toNat / pgSize) idx.toNat =
      (mem ((base &&& 0xfffff000#32) + idx * 4#32)).toNat := by
  have hlt := base.isLt
  have haddr : BitVec.ofNat 32 (base.toNat / pgSize * pgSize + idx.toNat * 4) =
      (base &&& 0xfffff000#32) + idx * 4#32 := by
    apply BitVec.eq_of_toNat_eq
    rw [BitVec.toNat_add, BitVec.toNat_mul, toNat_and_pageMask]
    simp only [BitVec.toNat_ofNat, pgSize]
    omega
  rw [framesOfMem, haddr]

/-- **The walk by words is the walk by frames.** -/
theorem mmu_eq_walk (mem : PhysMem) (cr3 v : Word) :
    (mmu mem cr3 v).map BitVec.toNat =
      (walk (framesOfMem mem) (cr3.toNat / pgSize) (v.toNat / pgSize)).map fun f =>
        f * pgSize + v.toNat % pgSize := by
  have hlt := v.isLt
  have hdir : v.toNat / pgSize / 1024 = (v >>> 22).toNat := by
    rw [BitVec.toNat_ushiftRight, Nat.shiftRight_eq_div_pow]
    simp only [pgSize]
    omega
  have htable : v.toNat / pgSize % 1024 = (v >>> 12 &&& 0x3ff#32).toNat := by
    rw [toNat_and_indexMask, BitVec.toNat_ushiftRight, Nat.shiftRight_eq_div_pow]
    rfl
  have hpde : framesOfMem mem (cr3.toNat / pgSize) (v.toNat / pgSize / 1024) =
      (mem (pdeAddr cr3 v)).toNat := by
    rw [hdir, framesOfMem_entry, pdeAddr]
  have hpte : framesOfMem mem (frameOf (mem (pdeAddr cr3 v)).toNat) (v.toNat / pgSize % 1024) =
      (mem (pteAddr (mem (pdeAddr cr3 v)) v)).toNat := by
    rw [htable, frameOf, framesOfMem_entry, pteAddr]
  rw [walk, hpde, target, present_toNat, mmu]
  by_cases h1 : presentWord (mem (pdeAddr cr3 v)) = true
  · rw [if_pos h1, if_pos h1, Option.bind_some, hpte, target, present_toNat]
    by_cases h2 : presentWord (mem (pteAddr (mem (pdeAddr cr3 v)) v)) = true
    · have hpa := (mem (pteAddr (mem (pdeAddr cr3 v)) v)).isLt
      rw [if_pos h2, if_pos h2, Option.map_some, Option.map_some, BitVec.toNat_add,
        toNat_and_pageMask, toNat_and_offsetMask, frameOf]
      simp only [pgSize]
      congr 1
      omega
    · rw [if_neg h2, if_neg h2]
      rfl
  · rw [if_neg h1, if_neg h1]
    rfl

/-- **`addr_v2p` by words is `addr_v2p` by frames**, for every memory, directory and address: it
returns the same in both, and what is a wild access in the one is one in the other. -/
theorem addrV2p_eq_word (s : MemState) (mem : PhysMem) (cr3 v : Word) :
    (addrV2p v.toNat).value?
        { s with phys := framesOfMem mem, cr3 := cr3.toNat, tlb := fun _ => none } =
      (addrV2pWord mem cr3 v).map BitVec.toNat := by
  generalize hs : { s with phys := framesOfMem mem, cr3 := cr3.toNat, tlb := fun _ => none } = t
  have hphys : t.phys = framesOfMem mem := hs ▸ rfl
  have hcr3 : t.cr3 = cr3.toNat := hs ▸ rfl
  have htlb : t.tlb (ptePtr v.toNat / pgSize) = none := hs ▸ rfl
  have hwalk := mmu_eq_walk mem cr3 (ptePtrWord v)
  rw [toNat_ptePtrWord, ← hphys, ← hcr3] at hwalk
  rw [addrV2pWord]
  cases hm : mmu mem cr3 (ptePtrWord v) with
  | none =>
    rw [hm, Option.map_none, eq_comm, Option.map_eq_none_iff] at hwalk
    rw [value?, addrV2p, bind_apply, load, translate_of_tlb htlb, MemState.dir, hwalk]
    rfl
  | some pa =>
    rw [hm, Option.map_some, eq_comm, Option.map_eq_some_iff] at hwalk
    obtain ⟨f, hf, hpa⟩ := hwalk
    have haddr : f * pgSize + ptePtr v.toNat % pgSize / 4 * 4 = pa.toNat := by
      rw [← hpa, ptePtr]
      simp only [pgSize]
      omega
    have hload : load (ptePtr v.toNat) t = .ok ((mem pa).toNat, t) := by
      rw [load, translate_of_tlb htlb, MemState.dir, hf, hphys]
      simp only [framesOfMem, haddr, BitVec.ofNat_toNat, BitVec.setWidth_eq]
    have hlt := (mem pa).isLt
    rw [value?, addrV2p, bind_of_ok hload, Option.map_some, Option.map_some, BitVec.toNat_add,
      toNat_and_pageMask, toNat_and_offsetMask]
    refine congrArg some ?_
    rw [frameOf]
    simp only [pgSize]
    omega

end X86Os.Mem
