import X86Os.Fs.State
import Mathlib.Data.Set.Insert

/-!
# Giving the blocks of an inode back, exactly

What `inode_release` does to the two bitmaps, bit for bit, for an inode of any shape: whichever of
its direct places are in use, with an indirect table or without, and with zeros anywhere in the
table. Nothing is assumed of the other inodes, of the cache, or of what the bitmaps said before; a
block that two places of the inode refer to is no exception either.

The order of the code matters in one place only. The table's block is given back before the blocks
in the table, but the table has been read into `all_blocks` by then, and giving back does not write
to blocks.

`inode_release` can only stop at a pointer that `sys_malloc` did not return. It has cleared the bits
by the time it asks for the buffer of `inode_delete`.
-/

namespace X86Os

open X86Os.Comp FsState

/-- The inode that `inode_open` finds for a number: the first object with the number in
`open_inodes`, or else the record on disk. -/
def foundInode (part : Partition) (s : FsState) (inodeNo : Word) : Inode :=
  match s.openInodes.find? fun h => (s.inode h).iNo == inodeNo with
  | some h => s.inode h
  | none => Inode.ofRecord (inodeRecord part s.disk inodeNo.toNat)

/-- The bits in `F` of the block bitmap were cleared, in memory and on disk. -/
structure Reclaimed (part : Partition) (F : Set ℕ) (s s' : FsState) : Prop where
  eq : s' = { s with blockBitmap := s'.blockBitmap, disk := s'.disk }
  bit : ∀ j, s'.blockBitmap.bit j = true ↔ s.blockBitmap.bit j = true ∧ j ∉ F
  frame : BitmapFrame part s.disk s'.disk
  slices : SlicesKept part ∅ s s'
  synced : ∀ j ∈ F, SliceOk part s' .blockBitmap (j / 4096)

section

variable {part : Partition} {s s' s0 : FsState} {F G : Set ℕ} {E : Fault → Prop} {i n : ℕ}

/-! ### Blocks -/

theorem Reclaimed.refl (s : FsState) : Reclaimed part ∅ s s :=
  ⟨rfl, by simp, .refl _, .refl _ _, nofun⟩

theorem Reclaimed.trans {s1 s2 s3 : FsState} (h : Reclaimed part F s1 s2)
    (h' : Reclaimed part G s2 s3) (hF : ∀ j ∈ F, j < blockCnt part) :
    Reclaimed part (F ∪ G) s1 s3 where
  eq := h'.eq.trans (by rw [h.eq])
  bit j := by rw [h'.bit, h.bit, Set.mem_union, not_or, and_assoc]
  frame := h.frame.trans h'.frame
  slices := h.slices.trans h'.slices
  synced j hj := by
    rcases hj with hj | hj
    · have hlt := hF j hj
      rw [blockCnt] at hlt
      exact h'.slices .blockBitmap _ (by rw [bitmapSects]; omega) (by simp) (h.synced j hj)
    · exact h'.synced j hj

theorem freeBlock_wp (hpos : 0 < i) (hi : i < blockCnt part) :
    wp (freeBlock part (blockAddr part i)) (fun _ s' => Reclaimed part {i} s s') E s := by
  have hj : i / 4096 < bitmapSects part .blockBitmap := by
    rw [blockCnt] at hi
    rw [bitmapSects]
    omega
  rw [freeBlock, blockBitmapIdx_blockAddr hi, wp_bind, wp_ASSERT]
  refine ⟨fun _ => ?_, fun hc => absurd hpos (of_decide_eq_false hc)⟩
  rw [wp_bind, wp_modify]
  refine bitmapSync_wp hj fun d' hd' hframe => ⟨rfl, fun j => ?_, hframe, ?_, fun j hji => ?_⟩
  · rw [Set.mem_singleton_iff]
    change (bitmapSet s.blockBitmap i false).bit j = true ↔ _
    rw [bit_bitmapSet]
    by_cases hji : j = i
    · simp [hji]
    · simp [hji]
  · refine SlicesKept.sync hj (fun t => by cases t <;> rfl) hd' s ?_
    refine .bitmapSet rfl (fun t ht => ?_) rfl (Set.mem_insert _ _)
    cases t with
    | inodeBitmap => rfl
    | blockBitmap => exact absurd rfl ht
  · rw [Set.mem_singleton_iff.1 hji]
    intro k hk
    change d' (bitmapLba part .blockBitmap + i / 4096) k = _
    rw [hd', Disk.write_one_self]
    rfl

/-- The blocks that the entries `i, …, i + left - 1` refer to. -/
def blocksIn (part : Partition) (blocks : ℕ → Word) (i left : ℕ) : Set ℕ :=
  {j | j < blockCnt part ∧ ∃ k, i ≤ k ∧ k < i + left ∧ blocks k = blockAddr part j}

theorem freeBlocks_wp {blocks : ℕ → Word} (left : ℕ) (hF : ∀ j ∈ F, j < blockCnt part)
    (hblocks : ∀ k, i ≤ k → k < i + left → blocks k ≠ 0 →
      ∃ j, 0 < j ∧ j < blockCnt part ∧ blocks k = blockAddr part j) (hs : Reclaimed part F s0 s) :
    wp (freeBlocks part blocks left i)
      (fun _ s' => Reclaimed part (F ∪ blocksIn part blocks i left) s0 s') E s := by
  induction left generalizing s i F with
  | zero =>
    have hnone : blocksIn part blocks i 0 = ∅ := by
      ext j
      simp only [blocksIn, Set.mem_ofPred_eq, Set.mem_empty_iff_false, iff_false]
      rintro ⟨-, k, h1, h2, -⟩
      omega
    rw [hnone, Set.union_empty]
    exact hs
  | succ left ih =>
    have hsplit : blocksIn part blocks i (left + 1) =
        {j | j < blockCnt part ∧ blocks i = blockAddr part j} ∪
          blocksIn part blocks (i + 1) left := by
      ext j
      simp only [blocksIn, Set.mem_ofPred_eq, Set.mem_union, ← and_or_left]
      refine and_congr_right fun _ => ⟨fun ⟨k, h1, h2, hk⟩ => ?_, fun hor => ?_⟩
      · rcases Nat.eq_or_lt_of_le h1 with rfl | hlt
        · exact .inl hk
        · exact .inr ⟨k, hlt, by omega, hk⟩
      · rcases hor with hk | ⟨k, h1, h2, hk⟩
        · exact ⟨i, Nat.le_refl _, by omega, hk⟩
        · exact ⟨k, by omega, by omega, hk⟩
    have hrest : ∀ k, i + 1 ≤ k → k < i + 1 + left → blocks k ≠ 0 →
        ∃ j, 0 < j ∧ j < blockCnt part ∧ blocks k = blockAddr part j := fun k h1 h2 =>
      hblocks k (by omega) (by omega)
    rw [freeBlocks, freeUsed, wp_bind, hsplit, ← Set.union_assoc]
    split
    · rename_i h0
      obtain ⟨j, hpos, hj, hk⟩ := hblocks i (Nat.le_refl _) (by omega) h0
      have hself : {j' | j' < blockCnt part ∧ blocks i = blockAddr part j'} = {j} := by
        ext j'
        rw [Set.mem_ofPred_eq, Set.mem_singleton_iff, hk]
        refine ⟨fun ⟨hj', he⟩ => blockAddr_inj hj' hj he.symm, ?_⟩
        rintro rfl
        exact ⟨hj, rfl⟩
      rw [hself, hk]
      refine (freeBlock_wp hpos hj).mono (fun _ s1 hs1 => ?_) fun _ h => h
      refine ih (fun j' hj' => ?_) hrest (hs.trans hs1 hF)
      rcases hj' with hj' | rfl
      · exact hF j' hj'
      · exact hj
    · rename_i h0
      have hself : {j' | j' < blockCnt part ∧ blocks i = blockAddr part j'} = ∅ := by
        ext j'
        simp only [Set.mem_ofPred_eq, Set.mem_empty_iff_false, iff_false]
        rintro ⟨hj', he⟩
        exact h0 (he ▸ blockAddr_ne_zero hj')
      rw [hself, Set.union_empty]
      exact ih hF hrest hs

/-- The blocks of an inode, by their bits. -/
def ownBits (part : Partition) (inode : Inode) (d : Disk) : Set ℕ :=
  {j | j < blockCnt part ∧ blockAddr part j ∈ blockRefs inode d}

/-- A block of the data area other than its block 0. -/
def DataBlock (part : Partition) (w : Word) : Prop :=
  ∃ j, 0 < j ∧ j < blockCnt part ∧ part.sb.dataStartLba + j < part.startLba + part.secCnt ∧
    w = blockAddr part j

/-- A sector of the disk that has a bit in the block bitmap, other than that of block 0. -/
structure BitBlock (part : Partition) (w : Word) : Prop where
  onDisk : w.toNat ≤ maxLba
  bit : ∃ j, 0 < j ∧ j < blockCnt part ∧ w = blockAddr part j

theorem DataBlock.bitBlock {w : Word} (h : DataBlock part w) : BitBlock part w := by
  obtain ⟨j, hpos, hj, hend, rfl⟩ := h
  refine ⟨?_, j, hpos, hj, rfl⟩
  have := part.end_le
  rw [toNat_blockAddr hj]
  omega

/-- The bits of an inode without a table. -/
theorem ownBits_direct {inode : Inode} {d : Disk} (h0 : inode.iSectors 12 = 0) :
    ownBits part inode d = blocksIn part (directBlocks inode) 0 12 := by
  ext j
  refine and_congr_right fun hj => ?_
  rw [mem_blockRefs]
  have hne := blockAddr_ne_zero hj
  constructor
  · rintro ⟨-, ⟨k, hk, he⟩ | ⟨hc, -⟩⟩
    · have hlt : k < 12 := by
        rcases Nat.lt_succ_iff_lt_or_eq.1 hk with hlt | rfl
        · exact hlt
        · exact absurd (h0 ▸ he.symm) hne
      exact ⟨k, Nat.zero_le _, by omega, by rw [directBlocks, if_pos hlt, he]⟩
    · exact absurd h0 hc
  · rintro ⟨k, -, hk, he⟩
    rw [directBlocks, if_pos (by omega)] at he
    exact ⟨hne, .inl ⟨k, by omega, he⟩⟩

/-- The bits of an inode with a table: the table's own, and those of `all_blocks`. -/
theorem ownBits_table {inode : Inode} {d : Disk} {t : ℕ} {b : ℕ → Word} (ht : t < blockCnt part)
    (he : inode.iSectors 12 = blockAddr part t)
    (htable : ∀ k, 12 ≤ k → k < 140 → b k = (d (inode.iSectors 12).toNat).toWords (k - 12))
    (hdirect : ∀ k, k < 12 → b k = directBlocks inode k) :
    ownBits part inode d = {t} ∪ blocksIn part b 0 140 := by
  have h0 : inode.iSectors 12 ≠ 0 := he ▸ blockAddr_ne_zero ht
  ext j
  rw [Set.mem_union, Set.mem_singleton_iff]
  constructor
  · rintro ⟨hj, hmem⟩
    obtain ⟨-, ⟨k, hk, hkj⟩ | ⟨-, k, hk, hkj⟩⟩ := mem_blockRefs.1 hmem
    · rcases Nat.lt_succ_iff_lt_or_eq.1 hk with hlt | rfl
      · refine .inr ⟨hj, k, Nat.zero_le _, by omega, ?_⟩
        rw [hdirect k hlt, directBlocks, if_pos hlt, hkj]
      · exact .inl (blockAddr_inj hj ht (hkj.symm.trans he))
    · refine .inr ⟨hj, k + 12, Nat.zero_le _, by omega, ?_⟩
      rw [htable _ (by omega) (by omega), Nat.add_sub_cancel, hkj]
  · rintro (rfl | ⟨hj, k, -, hk, hkj⟩)
    · exact ⟨ht, mem_blockRefs.2 ⟨blockAddr_ne_zero ht, .inl ⟨12, by omega, he⟩⟩⟩
    · refine ⟨hj, mem_blockRefs.2 ⟨blockAddr_ne_zero hj, ?_⟩⟩
      by_cases hlt : k < 12
      · exact .inl ⟨k, by omega, by rw [← hkj, hdirect k hlt, directBlocks, if_pos hlt]⟩
      · exact .inr ⟨h0, k - 12, by omega, by rw [← hkj, htable k (by omega) (by omega)]⟩

/-- **Every block of an inode is given back, and no other.** -/
theorem releaseBlocks_wp {inode : Inode} (hblocks : ∀ w ∈ blockRefs inode s.disk, BitBlock part w) :
    wp (releaseBlocks part inode)
      (fun _ s' => Reclaimed part (ownBits part inode s.disk) s s') E s := by
  rw [releaseBlocks]
  split
  · rename_i h0
    have hdata := hblocks (inode.iSectors 12) (mem_blockRefs.2 ⟨h0, .inl ⟨12, by omega, rfl⟩⟩)
    obtain ⟨t, hpos, ht, he⟩ := hdata.bit
    rw [wp_bind]
    refine readTable_wp (fun hc => absurd hdata.onDisk (Nat.not_le.2 hc))
      fun b htable hdirect => ?_
    rw [ownBits_table ht he htable hdirect, wp_bind, he]
    refine (freeBlock_wp hpos ht).mono (fun _ s1 hs1 => ?_) fun _ h => h
    refine freeBlocks_wp 140 (fun j hj => by rwa [Set.mem_singleton_iff.1 hj])
      (fun k _ hk hk0 => (hblocks _ (mem_blockRefs.2 ⟨hk0, ?_⟩)).bit) hs1
    by_cases hlt : k < 12
    · exact .inl ⟨k, by omega, by rw [hdirect k hlt, directBlocks, if_pos hlt]⟩
    · exact .inr ⟨h0, k - 12, by omega, (htable k (by omega) (by omega)).symm⟩
  · rename_i h0
    rw [ownBits_direct (not_not.1 h0), ← Set.empty_union (blocksIn _ _ _ _)]
    refine freeBlocks_wp 12 nofun
      (fun k _ hk hk0 => (hblocks _ (mem_blockRefs.2 ⟨hk0, .inl ⟨k, by omega, ?_⟩⟩)).bit)
      (.refl s)
    rw [directBlocks, if_pos (by omega)]

/-! ### The inode -/

/-- What opening an inode leaves as it was, as far as its release is concerned. -/
structure Found (part : Partition) (s s' : FsState) (inodeNo : Word) (h : ℕ) : Prop where
  iNo : (s'.inode h).iNo = (foundInode part s inodeNo).iNo
  iSectors : (s'.inode h).iSectors = (foundInode part s inodeNo).iSectors
  disk : s'.disk = s.disk
  blockBitmap : s'.blockBitmap = s.blockBitmap
  inodeBitmap : s'.inodeBitmap = s.inodeBitmap
  objects : ∀ k < s.inodeTop, pureInode (s'.inode k) = pureInode (s.inode k)
  mallocs : ∃ j ≤ 2, ∀ k, s'.mallocs k = s.mallocs (k + j)

/-- **`inode_open`** finds the inode; without memory for it, it uses a null pointer. -/
theorem inodeOpen_found (hn : n < 4096) (hE : (∃ k < 3, s.mallocs k = false) → E .wild) :
    wp (inodeOpen part (BitVec.ofNat 32 n))
      (fun h s' => Found part s s' (BitVec.ofNat 32 n) h) E s := by
  have hno : (BitVec.ofNat 32 n).toNat = n := by
    rw [BitVec.toNat_ofNat]
    omega
  rw [inodeOpen, wp_bind, wp_get]
  split
  · rename_i h hfind
    simp only [wp_bind, wp_modify, wp_pure]
    have hfound : foundInode part s (BitVec.ofNat 32 n) = s.inode h := by
      rw [foundInode, hfind]
    refine ⟨?_, ?_, rfl, rfl, rfl, fun k _ => ?_, 0, by omega, fun k => rfl⟩
    · rw [hfound]
      simp [updInode]
    · rw [hfound]
      simp [updInode]
    · simp only [updInode]
      split <;> rfl
  · rename_i hfind
    have hfound : foundInode part s (BitVec.ofNat 32 n) =
        Inode.ofRecord (inodeRecord part s.disk n) := by
      rw [foundInode, hfind, hno]
    simp only [wp_bind, wp_sysMalloc, wp_check, wp_onDisk, wp_mallocInode, wp_modify, wp_pure]
    refine ⟨fun hgot => ?_, fun hgot => hE ?_⟩
    · rw [hno, wp_of_ok (loadInode_eq hn)]
      refine ⟨?_, ?_, rfl, rfl, rfl, fun k hk => ?_, 2, by omega, fun k => rfl⟩
      · rw [hfound]
        simp [updInode]
      · rw [hfound]
        simp [updInode]
      · simp only [updInode, if_neg (Nat.ne_of_lt hk)]
    · simp only [Bool.and_eq_false_iff] at hgot
      rcases hgot with hgot | hgot
      · exact ⟨0, by omega, hgot⟩
      · exact ⟨1, by omega, hgot⟩

/-- What `inode_release` of inode `n` did to the bitmaps. -/
structure ReleasedExactly (part : Partition) (s s' : FsState) (inode : Inode) (n : ℕ) : Prop where
  blocks : ∀ j, s'.blockBitmap.bit j = true ↔
    s.blockBitmap.bit j = true ∧ j ∉ ownBits part inode s.disk
  inodes : ∀ m, s'.inodeBitmap.bit m = true ↔ s.inodeBitmap.bit m = true ∧ m ≠ n
  blocksSynced : ∀ j ∈ ownBits part inode s.disk, SliceOk part s' .blockBitmap (j / 4096)
  inodesSynced : SliceOk part s' .inodeBitmap (n / 4096)

/-- What `inode_release` of inode `n` leaves alone: the other inodes, and all that is in blocks. -/
structure ReleaseFrame (part : Partition) (s s' : FsState) (n : ℕ) : Prop where
  objects : ∀ k < s.inodeTop, pureInode (s'.inode k) = pureInode (s.inode k)
  data : ∀ a, part.sb.dataStartLba ≤ a → s'.disk a = s.disk a
  records : ∀ m < 4096, m ≠ n →
    Inode.ofRecord (inodeRecord part s'.disk m) = Inode.ofRecord (inodeRecord part s.disk m)

/-- `blockRefs` and what follows from it depend on the addresses only. -/
theorem blockRefs_congr {inode inode' : Inode} {d : Disk}
    (h : inode.iSectors = inode'.iSectors) : blockRefs inode d = blockRefs inode' d := by
  rw [blockRefs, blockRefs, h]

/-- Closing an inode leaves the disk and the bitmaps alone. -/
theorem inodeClose_bitmaps {h : ℕ} {Q : Unit → FsState → Prop}
    (hQ : ∀ s', s'.disk = s.disk → s'.blockBitmap = s.blockBitmap →
      s'.inodeBitmap = s.inodeBitmap → (∀ k, pureInode (s'.inode k) = pureInode (s.inode k)) →
      Q () s') : wp (inodeClose h) Q E s := by
  have hpure : ∀ k, pureInode ((s.updInode h fun i => { i with iOpenCnts := i.iOpenCnts - 1 }).inode
      k) = pureInode (s.inode k) := fun k => by
    simp only [updInode]
    split <;> rfl
  simp only [inodeClose, wp_bind, wp_modify, wp_get]
  split
  · exact hQ _ rfl rfl rfl hpure
  · exact hQ _ rfl rfl rfl hpure

/-- A sector of a bitmap depends on the bitmap and on itself. -/
theorem SliceOk.of_eq {t : BitmapType} {j : ℕ} (h : SliceOk part s t j)
    (hb : s'.bitmapOf t = s.bitmapOf t)
    (hd : s'.disk (bitmapLba part t + j) = s.disk (bitmapLba part t + j)) :
    SliceOk part s' t j := by
  intro k hk
  rw [hd, hb]
  exact h k hk

theorem inodeRelease_wp (hn : n < 4096)
    (hno : (foundInode part s (BitVec.ofNat 32 n)).iNo = BitVec.ofNat 32 n)
    (hblocks : ∀ w ∈ blockRefs (foundInode part s (BitVec.ofNat 32 n)) s.disk, BitBlock part w) :
    wp (inodeRelease part (BitVec.ofNat 32 n)) (fun _ s' => ReleaseFrame part s s' n ∧
        ReleasedExactly part s s' (foundInode part s (BitVec.ofNat 32 n)) n)
      (fun e => e = .wild ∧ ∃ k < 3, s.mallocs k = false) s := by
  have hnat : (BitVec.ofNat 32 n).toNat = n := by
    rw [BitVec.toNat_ofNat]
    omega
  have hj : n / 4096 < bitmapSects part .inodeBitmap := by
    rw [bitmapSects]
    omega
  rw [inodeRelease, wp_bind]
  refine (inodeOpen_found hn fun hk => ⟨rfl, hk⟩).mono (fun h s1 hf => ?_) fun _ h => h
  rw [wp_bind, wp_get, wp_bind, wp_ASSERT]
  refine ⟨fun _ => ?_, fun hc => ?_⟩
  swap
  · rw [hf.iNo, hno] at hc
    simp at hc
  have hrefs : blockRefs (s1.inode h) s1.disk =
      blockRefs (foundInode part s (BitVec.ofNat 32 n)) s.disk := by
    rw [blockRefs_congr hf.iSectors, hf.disk]
  have hown : ownBits part (s1.inode h) s1.disk =
      ownBits part (foundInode part s (BitVec.ofNat 32 n)) s.disk := by
    rw [ownBits, ownBits, hrefs]
  rw [wp_bind]
  refine (releaseBlocks_wp fun w hw => hblocks w (hrefs ▸ hw)).mono (fun _ s2 hr => ?_) fun _ h => h
  rw [hown] at hr
  have hinodes : s2.inodeBitmap = s.inodeBitmap :=
    (congrArg FsState.inodeBitmap hr.eq :).trans hf.inodeBitmap
  have hmallocs : s2.mallocs = s1.mallocs := (congrArg FsState.mallocs hr.eq :)
  rw [wp_bind, wp_modify, wp_bind, hnat]
  refine bitmapSync_wp hj fun d3 hd3 hframe3 => ?_
  rw [wp_bind, wp_sysMalloc, wp_bind, wp_check]
  refine ⟨fun _ => ?_, fun hc => ⟨rfl, ?_⟩⟩
  swap
  · obtain ⟨j, hj2, hshift⟩ := hf.mallocs
    refine ⟨0 + j, by omega, ?_⟩
    rw [← hshift 0, ← hmallocs]
    exact hc
  obtain ⟨d4, hd4, hover⟩ := inodeDelete_spec part d3 hn fun _ => 0
  rw [wp_bind, wp_onDisk, wp_of_ok hd4]
  refine inodeClose_bitmaps fun s5 hdisk hblock hinode hpure => ?_
  replace hdisk : s5.disk = d4 := hdisk
  -- the inode table is behind the bitmaps
  have hkeep : ∀ t, ∀ j < bitmapSects part t,
      s5.disk (bitmapLba part t + j) = d3 (bitmapLba part t + j) := fun t j hjt => by
    rw [hdisk]
    exact hover.frame _ (.inl (bitmapLba_lt hjt).2)
  have hbitmaps : ∀ a, part.sb.inodeTableLba ≤ a → d3 a = s.disk a := fun a ha => by
    rw [hframe3 a (.inr ha), hr.frame a (.inr ha), hf.disk]
  refine ⟨⟨fun k hk => ?_, fun a ha => ?_, fun m hm hmn => ?_⟩, fun j => ?_, fun m => ?_,
    fun j hjF => ?_, ?_⟩
  · rw [hpure, ← hf.objects k hk]
    exact congrArg pureInode (congrFun (congrArg FsState.inode hr.eq :) k)
  · have := part.dataStartLba_eq
    rw [hdisk, hover.frame a (by omega), hbitmaps a (by omega)]
  · rw [hdisk, Inode.ofRecord_congr fun k hk => hover.record_of_ne hmn hk]
    exact record_congr hm fun a ha _ => hbitmaps a ha
  · rw [hblock, ← hf.blockBitmap]
    exact hr.bit j
  · rw [hinode]
    change (bitmapSet s2.inodeBitmap n false).bit m = true ↔ _
    rw [bit_bitmapSet, hinodes]
    by_cases hm : m = n
    · simp [hm]
    · simp [hm]
  · have hlt : j / 4096 < bitmapSects part .blockBitmap := by
      have := hjF.1
      rw [blockCnt] at this
      rw [bitmapSects]
      omega
    refine (hr.synced j hjF).of_eq hblock ?_
    rw [hkeep _ _ hlt, hd3, Disk.write_one_of_ne]
    intro he
    cases (bitmapLba_inj hlt hj he).1
  · intro k hk
    rw [hkeep _ _ hj, hd3, Disk.write_one_self]
    change _ = s5.inodeBitmap.bits _
    rw [hinode]
    rfl

/-- **`inode_release` frees exactly what the inode owns.** Whatever the shape of inode `n`, as long
as its blocks are blocks of the data area other than block 0: no assertion fails, the bits that are
cleared are those of its direct blocks, of its table and of the blocks in the table, and the bit of
`n`, and the sectors of the bitmaps that were touched are on disk as in memory. The call comes back
unless `sys_malloc` returns no memory, in which case a null pointer is used. -/
theorem inodeRelease_exact (hn : n < 4096)
    (hno : (foundInode part s (BitVec.ofNat 32 n)).iNo = BitVec.ofNat 32 n)
    (hblocks : ∀ w ∈ blockRefs (foundInode part s (BitVec.ofNat 32 n)) s.disk, DataBlock part w) :
    (∃ s', inodeRelease part (BitVec.ofNat 32 n) s = .ok ((), s') ∧
      ReleasedExactly part s s' (foundInode part s (BitVec.ofNat 32 n)) n) ∨
    inodeRelease part (BitVec.ofNat 32 n) s = .error .wild ∧ ∃ k < 3, s.mallocs k = false := by
  have hwp := inodeRelease_wp hn hno fun w hw => (hblocks w hw).bitBlock
  cases hrun : inodeRelease part (BitVec.ofNat 32 n) s with
  | ok r => exact .inl ⟨r.2, rfl, (hwp.ok hrun).2⟩
  | error e =>
    obtain ⟨rfl, hk⟩ := hwp.error hrun
    exact .inr ⟨rfl, hk⟩

end

/-- Inode 5 is open. Its first block is block 1 of the data area, and block 2 is its table, whose
first entry is zero and whose second is block 3. -/
def withTable : FsState where
  disk := fun a => if a = 615 then Buf.ofWords fun k => if k = 1 then 616 else 0 else fun _ => 0
  blockBitmap := ⟨512, fun _ => 255⟩
  inodeBitmap := ⟨512, fun _ => 255⟩
  inode := fun _ => ⟨5, 512, 1, false, fun k => if k = 0 then 614 else if k = 12 then 615 else 0⟩
  inodeTop := 1
  openInodes := [0]
  rootInode := 0
  fileTable := fun _ => ⟨0, 0, none⟩
  fdTable := fun _ _ => -1
  cur := 0
  mallocs := fun _ => true
  junk := fun _ => 0

theorem blockRefs_withTable :
    blockRefs (foundInode smallPart withTable 5) withTable.disk = [614, 615, 616] := by
  decide +kernel

theorem inodeRelease_withTable :
    ∃ s', inodeRelease smallPart 5 withTable = .ok ((), s') ∧
      ∀ j, s'.blockBitmap.bit j = true ↔ withTable.blockBitmap.bit j = true ∧
        j ∉ ownBits smallPart (foundInode smallPart withTable 5) withTable.disk := by
  have hblocks : ∀ w ∈ blockRefs (foundInode smallPart withTable 5) withTable.disk,
      DataBlock smallPart w := by
    rw [blockRefs_withTable]
    intro w hw
    simp only [List.mem_cons, List.not_mem_nil, or_false] at hw
    rcases hw with rfl | rfl | rfl
    · exact ⟨1, by decide⟩
    · exact ⟨2, by decide⟩
    · exact ⟨3, by decide⟩
  rcases inodeRelease_exact (n := 5) (by decide) rfl hblocks with ⟨s', hs', h⟩ | ⟨-, k, -, hk⟩
  · exact ⟨s', hs', h.blocks⟩
  · cases hk

end X86Os
