import X86Os.Fs.Format

/-!
# The layout that formatting leaves

`partition_format` computes the number of blocks from the sectors that are left, and the sectors for
the block bitmap twice: first for all that is left, then for the blocks. `Format` follows it on the
disk the driver supports. Here the partition is any whose sector numbers do not wrap around
(`FormatFits`), and the question is what the layout is worth: that the regions are disjoint and
inside the partition, and that the bitmap offers the blocks of the partition and no others.

The regions are always right. The second count of bitmap sectors is at most the first, so the blocks
end at the end of the partition or one sector before it.

The bitmap is not. The bits from `block_bitmap_bit_len` on, to the end of the sector, are set; then
the loop that takes back those of the last byte that belong to blocks runs to `<=` and takes back
one bit too many. The block of that bit is not one of the partition's. There is no such bit only if
the blocks fill the sectors of the bitmap, since the byte in question is then not part of it.
-/

namespace X86Os

open X86Os.Comp FsState

section

variable {startLba secCnt : ℕ}

/-! ### The layout -/

/-- A run of sectors. -/
structure Region where
  lba : ℕ
  sects : ℕ

/-- Sector `a` belongs to the region. -/
def Region.Holds (r : Region) (a : ℕ) : Prop := r.lba ≤ a ∧ a < r.lba + r.sects

/-- The super block, the block bitmap, the inode bitmap, the inode table and the blocks. -/
def formatRegions (startLba secCnt : ℕ) : List Region :=
  let sb := formatSb startLba secCnt
  [⟨startLba + 1, 1⟩, ⟨sb.blockBitmapLba, sb.blockBitmapSects⟩,
    ⟨sb.inodeBitmapLba, sb.inodeBitmapSects⟩, ⟨sb.inodeTableLba, sb.inodeTableSects⟩,
    ⟨sb.dataStartLba, blockBitmapBitLen secCnt⟩]

/-- Bit `k` of the block bitmap on the disk. -/
def diskBlockBit (startLba secCnt : ℕ) (d : Disk) (k : ℕ) : Bool :=
  (d.read (formatSb startLba secCnt).blockBitmapLba (k / 8)).getLsbD (k % 8)

/-- What is wanted of a formatted partition. -/
structure FormatLayout (startLba secCnt : ℕ) (d : Disk) : Prop where
  disjoint : (formatRegions startLba secCnt).Pairwise fun r r' => ∀ a, ¬ (r.Holds a ∧ r'.Holds a)
  inside : ∀ r ∈ formatRegions startLba secCnt, ∀ a, r.Holds a →
    startLba ≤ a ∧ a < startLba + secCnt
  bits : ∀ k < 4096 * (formatSb startLba secCnt).blockBitmapSects,
    diskBlockBit startLba secCnt d k = false ↔ 1 ≤ k ∧ k < blockBitmapBitLen secCnt
  blocks : ∀ k < 4096 * (formatSb startLba secCnt).blockBitmapSects,
    diskBlockBit startLba secCnt d k = false →
      (formatSb startLba secCnt).dataStartLba + k < startLba + secCnt

/-- **The regions are disjoint and inside the partition.** -/
theorem formatRegions_ok (h : FormatFits startLba secCnt) :
    ((formatRegions startLba secCnt).Pairwise fun r r' => ∀ a, ¬ (r.Holds a ∧ r'.Holds a)) ∧
      ∀ r ∈ formatRegions startLba secCnt, ∀ a, r.Holds a →
        startLba ≤ a ∧ a < startLba + secCnt := by
  obtain ⟨hbits, hsects, hino, hone, htab, hrecs, hdata⟩ := formatSb_regions startLba secCnt
  have hle := h.blocks_le
  rw [formatRegions]
  generalize formatSb startLba secCnt = sb at *
  simp only [List.pairwise_cons, List.mem_cons, List.not_mem_nil, or_false, false_imp_iff,
    implies_true, List.Pairwise.nil, and_true, forall_eq_or_imp, forall_eq, Region.Holds]
  refine ⟨⟨⟨?_, ?_, ?_, ?_⟩, ⟨?_, ?_, ?_⟩, ⟨?_, ?_⟩, ?_⟩, ?_, ?_, ?_, ?_, ?_⟩ <;> intro a <;> omega

/-- The bits on the disk are those of the bitmap that was made. -/
theorem WroteFormat.diskBlockBit {d : Disk} (hw : WroteFormat startLba secCnt d)
    (h : FormatFits startLba secCnt) {k : ℕ} (hk : k < 4096 * blockBitmapSectors secCnt) :
    X86Os.diskBlockBit startLba secCnt d k =
      if k / 8 < blockBitmapBitLen secCnt / 8 then decide (k = 0)
      else decide (blockBitmapBitLen secCnt < k) := by
  have hsects := h.bitmapSects
  rw [X86Os.diskBlockBit, ← bit_formatBlockBitmap (by omega)]
  exact congrArg (BitVec.getLsbD · (k % 8)) (hw.blockBits (k / 8) (by omega))

/-- **When the layout is right.** Formatting lays out disjoint regions of the partition, and marks
the blocks of the partition and no others as free, exactly when the blocks fill the sectors of their
bitmap. -/
theorem format_layout_iff (h : FormatFits startLba secCnt) {s s' : FsState}
    (hrun : partitionFormat startLba secCnt s = .ok ((), s')) :
    FormatLayout startLba secCnt s'.disk ↔ 4096 ∣ blockBitmapBitLen secCnt := by
  obtain ⟨hpos, hw⟩ := (partitionFormat_wrote startLba secCnt).ok hrun
  obtain ⟨hbits, hsects, hino, hone, htab, hrecs, hdata⟩ := formatSb_regions startLba secCnt
  have hsec := h.bitmapSects
  have hle := h.blocks_le
  constructor
  · intro hl
    by_contra hdvd
    -- the bit after the last block is clear
    have hk : blockBitmapBitLen secCnt < 4096 * blockBitmapSectors secCnt := by omega
    have hclear : diskBlockBit startLba secCnt s'.disk (blockBitmapBitLen secCnt) = false := by
      rw [hw.diskBlockBit h hk, if_neg (Nat.lt_irrefl _)]
      simp
    have := (hl.bits _ (hsects ▸ hk)).1 hclear
    omega
  · intro hdvd
    obtain ⟨hdis, hin⟩ := formatRegions_ok h
    have hbit : ∀ k < 4096 * blockBitmapSectors secCnt,
        (diskBlockBit startLba secCnt s'.disk k = false ↔
          1 ≤ k ∧ k < blockBitmapBitLen secCnt) := by
      intro k hk
      rw [hw.diskBlockBit h hk, if_pos (by omega), decide_eq_false_iff_not]
      omega
    refine ⟨hdis, hin, fun k hk => hbit k (hsects ▸ hk), fun k hk hc => ?_⟩
    have := (hbit k (hsects ▸ hk)).1 hc
    omega

end

/-- A partition of 4709 sectors has 4096 blocks. -/
theorem format_layout_iff_full : ∃ s', partitionFormat 1 4709 blankFs = .ok ((), s') ∧
    (FormatLayout 1 4709 s'.disk ↔ 4096 ∣ blockBitmapBitLen 4709) := by
  have hrun : partitionFormat 1 4709 blankFs = .ok ((), (partitionFormat 1 4709).final blankFs) :=
    eq_ok_of_value? (by decide +kernel)
  exact ⟨_, hrun, format_layout_iff ⟨by decide, by decide, by decide⟩ hrun⟩

/-- A partition of 1000 sectors has 388 blocks. Bit 388 is clear, and its block is the sector after
the partition. -/
theorem format_block_past_end : ∃ s', partitionFormat 1 1000 blankFs = .ok ((), s') ∧
    blockBitmapBitLen 1000 = 388 ∧ diskBlockBit 1 1000 s'.disk 388 = false ∧
    (formatSb 1 1000).dataStartLba + 388 = 1 + 1000 ∧ ¬ FormatLayout 1 1000 s'.disk := by
  have hrun : partitionFormat 1 1000 blankFs = .ok ((), (partitionFormat 1 1000).final blankFs) :=
    eq_ok_of_value? (by decide +kernel)
  have hfits : FormatFits 1 1000 := ⟨by decide, by decide, by decide⟩
  have hclear : diskBlockBit 1 1000 ((partitionFormat 1 1000).final blankFs).disk 388 = false := by
    decide +kernel
  refine ⟨_, hrun, by decide, hclear, by decide, fun hl => ?_⟩
  exact absurd ((hl.bits 388 (by decide)).1 hclear) (by decide)

end X86Os
