import X86Os.Fs.DirAdd
import X86Os.Fs.DirRead

/-!
# Deleting an entry

`delete_dir_entry` looks for the entry with a given inode number in all blocks of a directory,
direct or not. If other entries of the block count, it clears the entry; otherwise it gives the
block back, unless `.` is in it. To take an indirect block out of the table it first counts the
blocks of the table, in a loop that does not advance: a directory of more than 252 entries hangs the
kernel when the last entry of an indirect block is deleted.

Everything is said here about the object of one inode and the disk, not about the whole file system:
the result of `delete_dir_entry` does not depend on what other inodes have, and its write-back of
the inode goes to the record with the number modulo 256, which may be that of another inode.
`DirBlocks` is what a directory has to be: its blocks are marked, apart from each other and on the
disk, the names `.` and `..` are in its first block only, and its size covers its entries.
-/

namespace X86Os

open X86Os.Comp FsState

/-! ### Directories -/

/-- The address of block `k` of the inode at `h`; place 140 has that of the table. -/
def FsState.addr (s : FsState) (h k : ℕ) : Word := slotAddr (s.inode h) s.disk.sector k

/-- What is in block `k`. -/
def FsState.block (s : FsState) (h k : ℕ) : Buf := s.disk.sector (s.addr h k).toNat

/-- Entry `x.2` of block `x.1` counts and has the inode number. -/
structure HasNumber (s : FsState) (h : ℕ) (n : Word) (x : ℕ × ℕ) : Prop where
  block : x.1 < 140
  entry : x.2 < 21
  addr : s.addr h x.1 ≠ 0
  counts : (cell (s.block h x.1) x.2).counts = true
  no : (cell (s.block h x.1) x.2).iNo = n

/-- What a directory has to be. -/
structure DirBlocks (part : Partition) (s : FsState) (h : ℕ) : Prop where
  used : ∀ k ≤ 140, s.addr h k ≠ 0 →
    ∃ i < blockCnt part, s.addr h k = blockAddr part i ∧ s.blockBitmap.bit i = true
  inj : ∀ j ≤ 140, ∀ k ≤ 140, s.addr h j ≠ 0 → s.addr h j = s.addr h k → j = k
  onDisk : ∀ k ≤ 140, (s.addr h k).toNat ≤ maxLba
  first : isDirFirstBlock part (s.block h 0) = true
  dots : ∀ k < 140, s.addr h k ≠ 0 → ∀ e ∈ sectorEntries (s.block h k), e.counts = false → k = 0
  size : 24 * (liveEntries s.disk (s.inode h)).length ≤ (s.inode h).iSize.toNat

/-- No indirect block has the entry of that number, and no other that counts. -/
def NotLastIndirect (part : Partition) (s : FsState) (h : ℕ) (n : Word) : Prop :=
  ∀ k, 12 ≤ k → k < 140 → s.addr h k ≠ 0 → matching part (s.block h k) n ≠ [] →
    dirEntryCnt part (s.block h k) ≠ 1

section

variable {part : Partition} {s s' : FsState} {h k i k0 i0 : ℕ} {n : Word}

theorem mem_sectorEntries {b : Buf} {e : DirEntry} :
    e ∈ sectorEntries b ↔ ∃ i < 21, cell b i = e ∧ e.fType ≠ 0 := by
  rw [sectorEntries, List.mem_filter, List.mem_map]
  constructor
  · rintro ⟨⟨i, hi, rfl⟩, ht⟩
    exact ⟨i, List.mem_range.1 hi, rfl, bne_iff_ne.1 ht⟩
  · rintro ⟨i, hi, rfl, ht⟩
    exact ⟨⟨i, List.mem_range.2 hi, rfl⟩, bne_iff_ne.2 ht⟩

theorem fType_of_counts {e : DirEntry} (hc : e.counts = true) : e.fType ≠ 0 := by
  rw [DirEntry.counts, Bool.and_eq_true, Bool.and_eq_true, bne_iff_ne] at hc
  exact hc.1.1

/-- The entries of a directory, block by block. -/
theorem liveEntries_eq (s : FsState) (h : ℕ) : liveEntries s.disk (s.inode h) =
    (List.range 140).flatMap fun k =>
      if s.addr h k = 0 then [] else sectorEntries (s.block h k) := rfl

theorem DirBlocks.le_addr (hd : DirBlocks part s h) (hk : k ≤ 140) (h0 : s.addr h k ≠ 0) :
    part.sb.dataStartLba ≤ (s.addr h k).toNat := by
  obtain ⟨i, hi, he, -⟩ := hd.used k hk h0
  rw [he, toNat_blockAddr hi]
  omega

/-- Only the first block has the entry `.`. -/
theorem DirBlocks.not_first (hd : DirBlocks part s h) (hk : k < 140) (h0 : s.addr h k ≠ 0)
    (hk0 : k ≠ 0) : isDirFirstBlock part (s.block h k) = false := by
  rw [isDirFirstBlock, dirEntrysPerSec_eq, List.any_eq_false]
  intro i hi hdot
  rw [Bool.and_eq_true, bne_iff_ne] at hdot
  refine hk0 (hd.dots k hk h0 (cell (s.block h k) i)
    (mem_sectorEntries.2 ⟨i, List.mem_range.1 hi, rfl, hdot.1⟩) ?_)
  rw [← counts_entryAt, DirEntry.counts, hdot.2]
  simp

/-! ### What is left of the entries -/

/-- The entries but for those that count and have the number. -/
def withoutEntry (n : Word) (l : List DirEntry) : List DirEntry :=
  l.filter fun e => !(e.counts && e.iNo == n)

/-- A block without the entry keeps its entries. -/
theorem withoutEntry_eq_self {l : List DirEntry} (hl : ∀ e ∈ l, e.counts = true → e.iNo ≠ n) :
    withoutEntry n l = l := by
  refine List.filter_eq_self.2 fun e he => ?_
  rw [Bool.not_eq_true', Bool.and_eq_false_iff, beq_eq_false_iff_ne]
  cases hc : e.counts with
  | false => exact .inl rfl
  | true => exact .inr (hl e he hc)

/-- The block of the entry, with the entry cleared. -/
theorem sectorEntries_clear {b b' : Buf}
    (hcell : ∀ j < 21, cell b' j = if j = i then .blank else cell b j)
    (hcounts : (cell b i).counts = true) (hno : (cell b i).iNo = n)
    (honly : ∀ j < 21, (cell b j).counts = true → (cell b j).iNo = n → j = i) :
    sectorEntries b' = withoutEntry n (sectorEntries b) := by
  have hkeep : ∀ j < 21, ((cell b' j).fType != 0) =
      ((cell b j).fType != 0 && !((cell b j).counts && (cell b j).iNo == n)) := by
    intro j hj
    rw [hcell j hj]
    split
    · rename_i hji
      rw [hji, hcounts, hno]
      simp [DirEntry.blank]
    · rename_i hji
      have : ((cell b j).counts && (cell b j).iNo == n) = false := by
        refine Bool.eq_false_iff.2 fun hc => hji ?_
        rw [Bool.and_eq_true, beq_iff_eq] at hc
        exact honly j hj hc.1 hc.2
      rw [this, Bool.not_false, Bool.and_true]
  rw [sectorEntries, sectorEntries, withoutEntry, List.filter_filter, List.filter_map,
    List.filter_map]
  have hfilter : (List.range 21).filter ((fun e => e.fType != 0) ∘ cell b') =
      (List.range 21).filter
        ((fun e => (!(e.counts && e.iNo == n)) && (e.fType != 0)) ∘ cell b) := by
    refine List.filter_congr fun j hj => ?_
    rw [Function.comp_apply, Function.comp_apply, hkeep j (List.mem_range.1 hj), Bool.and_comm]
  rw [hfilter]
  refine List.map_congr_left fun j hj => ?_
  -- the cleared entry is not among those that stay
  have hji : j ≠ i := by
    rintro rfl
    have := (List.mem_filter.1 hj).2
    rw [Function.comp_apply, hcounts, hno] at this
    simp at this
  rw [hcell j (List.mem_range.1 (List.mem_filter.1 hj).1), if_neg hji]

/-! ### The run -/

/-- What the deletion of entry `i0` of block `k0` does: the entry is cleared, or its block is taken
out of the direct ones, and the inode is written to the record with its number modulo 256. -/
structure Deleted (part : Partition) (s s' : FsState) (h k0 i0 : ℕ) : Prop where
  size : (s'.inode h).iSize = (s.inode h).iSize - 24
  data : ∀ a, part.sb.dataStartLba ≤ a → a ≠ (s.addr h k0).toNat → s'.disk a = s.disk a
  how : ((s'.inode h).iSectors = (s.inode h).iSectors ∧ s'.blockBitmap = s.blockBitmap ∧
      ∀ j < 21, cell (s'.disk.sector (s.addr h k0).toNat) j =
        if j = i0 then .blank else cell (s.block h k0) j) ∨
    (k0 < 12 ∧ dirEntryCnt part (s.block h k0) = 1 ∧
      isDirFirstBlock part (s.block h k0) = false ∧
      (s'.inode h).iSectors = (fun k => if k = k0 then 0 else (s.inode h).iSectors k) ∧
      s'.blockBitmap =
        bitmapSet s.blockBitmap (blockBitmapIdx part (s.addr h k0)) false)
  frame : s' = { s with inode := s'.inode, blockBitmap := s'.blockBitmap, disk := s'.disk }
  objects : ∀ k, k ≠ h → s'.inode k = s.inode k
  iNo : (s'.inode h).iNo = (s.inode h).iNo
  record : (Inode.ofRecord (inodeRecord part s'.disk ((s.inode h).iNo.toNat % 256))).stored =
    (s'.inode h).stored
  records : ∀ n < 4096, n ≠ (s.inode h).iNo.toNat % 256 →
    Inode.ofRecord (inodeRecord part s'.disk n) = Inode.ofRecord (inodeRecord part s.disk n)

/-- A direct block that has no other entry is taken out. -/
def Reclaims (part : Partition) (s s' : FsState) (h k0 : ℕ) : Prop :=
  dirEntryCnt part (s.block h k0) = 1 → isDirFirstBlock part (s.block h k0) = false →
    (s'.inode h).iSectors k0 = 0

/-- The size goes down, and the inode is written back. -/
structure Shrunk (part : Partition) (s s' : FsState) (h : ℕ) : Prop where
  frame : s' = { s with inode := s'.inode, disk := s'.disk }
  objects : ∀ k, k ≠ h → s'.inode k = s.inode k
  self : s'.inode h = { s.inode h with iSize := (s.inode h).iSize - 24 }
  written : Overwrites part ((s.inode h).iNo.toNat % 256) (pureInode (s'.inode h)).toRecord s.disk
    s'.disk

theorem shrinkDir_wp {E : Fault → Prop} (hsize : 24 ≤ (s.inode h).iSize.toNat) :
    wp (shrinkDir part h) (fun _ s' => Shrunk part s s' h) E s := by
  simp only [shrinkDir, wp_bind, wp_get, wp_ASSERT, wp_modify, part.dirEntrySize_eq,
    decide_eq_true_eq, decide_eq_false_iff_not]
  refine ⟨fun _ => inodeSync_wp fun d' hd' => ⟨rfl, fun k hk => ?_, ?_, ?_⟩, fun hlt =>
    absurd hsize hlt⟩
  · simp [updInode, hk]
  · simp [updInode]
  · simpa [updInode] using hd'

/-- The entry or its block is gone in `s`, and then the size goes down. -/
theorem Shrunk.deleted {s1 : FsState} (hsh : Shrunk part s1 s' h)
    (hframe : s1 = { s with inode := s1.inode, blockBitmap := s1.blockBitmap, disk := s1.disk })
    (hobj : ∀ k, k ≠ h → s1.inode k = s.inode k)
    (hself : s1.inode h = { s.inode h with iSectors := (s1.inode h).iSectors })
    (htable : SameTable part s.disk s1.disk)
    (hdata : ∀ a, part.sb.dataStartLba ≤ a → a ≠ (s.addr h k0).toNat → s1.disk a = s.disk a)
    (hhow : ((s1.inode h).iSectors = (s.inode h).iSectors ∧ s1.blockBitmap = s.blockBitmap ∧
        ∀ j < 21, cell (s1.disk.sector (s.addr h k0).toNat) j =
          if j = i0 then .blank else cell (s.block h k0) j) ∨
      (k0 < 12 ∧ dirEntryCnt part (s.block h k0) = 1 ∧
        isDirFirstBlock part (s.block h k0) = false ∧
        (s1.inode h).iSectors = (fun k => if k = k0 then 0 else (s.inode h).iSectors k) ∧
        s1.blockBitmap = bitmapSet s.blockBitmap (blockBitmapIdx part (s.addr h k0)) false))
    (hle : part.sb.dataStartLba ≤ (s.addr h k0).toNat) : Deleted part s s' h k0 i0 := by
  have hlater : ∀ a, part.sb.dataStartLba ≤ a → s'.disk a = s1.disk a := fun a ha => by
    have := part.dataStartLba_eq
    exact hsh.written.frame a (by omega)
  have hbits : s'.blockBitmap = s1.blockBitmap := (congrArg FsState.blockBitmap hsh.frame :)
  have hno : (s1.inode h).iNo = (s.inode h).iNo := by rw [hself]
  have hwritten := hsh.written
  rw [hno] at hwritten
  refine ⟨?_, fun a ha hne => (hlater a ha).trans (hdata a ha hne), ?_, ?_, fun k hk => ?_, ?_, ?_,
    fun n hn hne => ?_⟩
  · rw [hsh.self, hself]
  · rw [hsh.self, hbits, Disk.sector_congr (hlater _ hle)]
    exact hhow
  · rw [hsh.frame, hframe]
  · rw [hsh.objects k hk, hobj k hk]
  · rw [hsh.self, hno]
  · exact stored_ofRecord fun k hk => hwritten.record_self hk
  · rw [Inode.ofRecord_congr fun k hk => hwritten.record_of_ne hne hk]
    exact record_congr hn htable

section

variable {E : Fault → Prop} (hd : DirBlocks part s h) (hx : HasNumber s h n (k0, i0))

include hd hx

/-- **The entry was found.** -/
theorem removeEntry_wp {Q : Unit → FsState → Prop}
    (hhang : 12 ≤ k0 → dirEntryCnt part (s.block h k0) = 1 → E .hang)
    (hQ : (12 ≤ k0 → dirEntryCnt part (s.block h k0) ≠ 1) → ∀ s', Deleted part s s' h k0 i0 →
      Reclaims part s s' h k0 → Q () s') :
    wp (removeEntry part h k0 (s.addr h k0) (s.block h k0) i0 >>=
      fun _ => shrinkDir part h) Q E s := by
  have hk := hx.block
  have hi := hx.entry
  have h0 := hx.addr
  dsimp only at hk hi h0
  have hle := hd.le_addr (Nat.le_of_lt hk) h0
  have hlive : 0 < (liveEntries s.disk (s.inode h)).length := by
    refine List.length_pos_of_mem (a := cell (s.block h k0) i0) ?_
    rw [liveEntries_eq]
    refine List.mem_flatMap.2 ⟨k0, List.mem_range.2 hk, ?_⟩
    rw [if_neg h0]
    exact mem_sectorEntries.2 ⟨i0, hi, rfl, fType_of_counts hx.counts⟩
  have hsize : 24 ≤ (s.inode h).iSize.toNat := by
    have := hd.size
    omega
  have hcnt : 1 ≤ dirEntryCnt part (s.block h k0) := by
    rw [dirEntryCnt, dirEntrysPerSec_eq]
    refine List.length_pos_of_mem (a := i0) (List.mem_filter.2 ⟨List.mem_range.2 hi, ?_⟩)
    rw [counts_entryAt]
    exact hx.counts
  rw [wp_bind, removeEntry, wp_bind, wp_ASSERT]
  refine ⟨fun _ => ?_, fun hno => absurd hcnt (of_decide_eq_false hno)⟩
  split
  · rename_i hlast
    obtain ⟨j, hj, haddr, -⟩ := hd.used k0 (Nat.le_of_lt hk) h0
    have hidx : blockBitmapIdx part (s.addr h k0) = j := by rw [haddr, blockBitmapIdx_blockAddr hj]
    have hsect : part.sb.blockBitmapLba + j / 4096 < part.sb.inodeTableLba := by
      have h1 := part.inodeBitmapLba_eq
      have h2 := part.inodeTableLba_eq
      rw [blockCnt] at hj
      omega
    have hmax := part.table_le
    simp only [reclaimBlock, wp_bind, wp_modify, bitmapSync, wp_get, wp_onDisk,
      wp_ideWrite Nat.one_pos (show 1 ≤ 256 by omega), hidx]
    refine ⟨fun _ => ?_, fun hlt => by omega⟩
    rw [wp_ite]
    refine ⟨fun hk12 => ?_, fun hk12 => hhang (Nat.not_lt.1 hk12) hlast.1⟩
    rw [setSector, wp_modify]
    refine (shrinkDir_wp (by simpa [updInode] using hsize)).mono (fun _ s' hsh => ?_) fun _ h => h
    have hstart := part.dataStartLba_eq
    have hdisk : ∀ a, part.sb.inodeTableLba ≤ a → s.disk.write (part.sb.blockBitmapLba + j / 4096)
        (fun i => (bitmapSet s.blockBitmap j false).bits (j / 4096 * 512 + i)) 1 a = s.disk a :=
      fun a ha => Disk.write_one_of_ne (by omega)
    refine hQ (by omega) s' (hsh.deleted rfl (fun k hk => ?_) ?_ (fun a ha _ => hdisk a ha)
      (fun a ha _ => hdisk a (by omega)) (.inr ⟨hk12, hlast.1, hlast.2, ?_, ?_⟩) hle) fun _ _ => ?_
    · simp [updInode, hk]
    · simp [updInode]
    · simp [updInode]
    · rw [hidx]
      rfl
    · rw [hsh.self]
      simp [updInode]
  · rename_i hlast
    have hnot : 12 ≤ k0 → dirEntryCnt part (s.block h k0) ≠ 1 := fun h12 hone =>
      hlast ⟨hone, hd.not_first hk h0 (by omega)⟩
    rw [wp_onDisk, wp_ideWrite Nat.one_pos (by omega)]
    refine ⟨fun _ => ?_, fun hlt => absurd (hd.onDisk k0 (Nat.le_of_lt hk)) (Nat.not_le.2 hlt)⟩
    refine (shrinkDir_wp ?_).mono (fun _ s' hsh => ?_) fun _ h => h
    · exact hsize
    refine hQ hnot s' (hsh.deleted rfl (fun _ _ => rfl) rfl (.write hle _)
      (fun a _ hne => Disk.write_one_of_ne hne) (.inl ⟨rfl, rfl, fun j hj => ?_⟩) hle)
      fun hone hfirst => absurd ⟨hone, hfirst⟩ hlast
    rw [cell_sector_write hj, part.dirEntrySize_eq]
    exact cell_splice_zero _ _ _

variable {Q : Bool → FsState → Prop} (huniq : ∀ x, HasNumber s h n x → x = (k0, i0))
  (hhang : 12 ≤ k0 → dirEntryCnt part (s.block h k0) = 1 → E .hang)
  (hQ : (12 ≤ k0 → dirEntryCnt part (s.block h k0) ≠ 1) →
    ∀ s', Deleted part s s' h k0 i0 → Reclaims part s s' h k0 → Q true s')

include huniq hhang hQ

/-- The loop over the blocks: the entry is still ahead. -/
theorem deleteLoop_wp {blocks : ℕ → Word} (hblocks : ∀ k < 140, blocks k = s.addr h k)
    (left : ℕ) : ∀ {i : ℕ}, i + left = 140 → i ≤ k0 →
    wp (deleteLoop part h n blocks left i) Q E s := by
  induction left with
  | zero =>
    intro i hsum hik
    have := hx.block
    dsimp only at this
    omega
  | succ left ih =>
    intro i hsum hik
    have hahead : i ≠ k0 → i + 1 ≤ k0 := fun hne => by omega
    rw [deleteLoop, hblocks i (by omega)]
    split
    · rename_i hz
      exact ih (by omega) (hahead fun he => hx.addr (he ▸ hz))
    · rename_i hs
      simp only [wp_bind, wp_onDisk, wp_readSector]
      refine ⟨fun _ => ?_, fun hlt => absurd (hd.onDisk i (by omega)) (Nat.not_le.2 hlt)⟩
      have hmem : ∀ j ∈ matching part (s.block h i) n, i = k0 ∧ j = i0 := by
        intro j hj
        obtain ⟨hj1, hj2, hj3⟩ := mem_matching.1 hj
        exact Prod.mk.inj (huniq (i, j) ⟨by dsimp only; omega, hj1, hs, hj2, hj3⟩)
      split
      · rename_i hm
        change matching part (s.block h i) n = [] at hm
        refine ih (by omega) (hahead ?_)
        rintro rfl
        have : i0 ∈ matching part (s.block h i) n := mem_matching.2 ⟨hx.entry, hx.counts, hx.no⟩
        rw [hm] at this
        exact absurd this List.not_mem_nil
      · rename_i j more hm
        change matching part (s.block h i) n = j :: more at hm
        obtain ⟨rfl, rfl⟩ := hmem j (hm ▸ List.mem_cons_self)
        have hmore : more = [] := by
          refine List.eq_nil_iff_forall_not_mem.2 fun j' hj' => ?_
          obtain ⟨-, rfl⟩ := hmem j' (hm ▸ List.mem_cons_of_mem _ hj')
          -- the entries of a sector are looked at once
          have hnodup : (matching part (s.block h i) n).Nodup := List.nodup_range.filter _
          rw [hm, List.nodup_cons] at hnodup
          exact hnodup.1 hj'
        rw [wp_bind, wp_ASSERT, hmore]
        refine ⟨fun _ => ?_, fun hne => by cases hne⟩
        have := removeEntry_wp (Q := fun _ s' => Q true s') (E := E) hd hx hhang hQ
        rw [wp_bind] at this
        rw [wp_bind]
        refine this.mono (fun _ s1 hs1 => ?_) fun _ h => h
        rw [wp_bind]
        exact hs1

/-- **`delete_dir_entry`** finds the entry. It hangs if the block of the entry is an indirect one
with nothing else that counts. -/
theorem deleteDirEntry_wp : wp (deleteDirEntry part h n) Q E s := by
  rw [deleteDirEntry, wp_bind, wp_get, wp_bind]
  refine allBlocks_wp (fun h0 hlt => ?_) fun b hb => ?_
  · have := hd.onDisk 140 (Nat.le_refl _)
    exact absurd this (Nat.not_le.2 hlt)
  · exact deleteLoop_wp hd hx huniq hhang hQ (fun k hk => hb k hk) 140 (by omega) (Nat.zero_le _)

end

/-! ### What is left -/

section

variable (hd : DirBlocks part s h) (hx : HasNumber s h n (k0, i0))
  (hdel : Deleted part s s' h k0 i0)

include hd hx hdel

/-- The blocks of the directory are those that it had, but for a block that was given back. -/
theorem Deleted.addr_eq (k : ℕ) :
    s'.addr h k = s.addr h k ∨ k = k0 ∧ s'.addr h k = 0 ∧
      dirEntryCnt part (s.block h k0) = 1 ∧ isDirFirstBlock part (s.block h k0) = false ∧
      s'.blockBitmap = bitmapSet s.blockBitmap (blockBitmapIdx part (s.addr h k0)) false := by
  have hk0 := hx.block
  dsimp only at hk0
  -- the table is not the sector that changed
  have htable : (s.inode h).iSectors 12 ≠ 0 →
      s'.disk.sector ((s.inode h).iSectors 12).toNat =
        s.disk.sector ((s.inode h).iSectors 12).toNat := by
    intro h12
    have hself : s.addr h 140 = (s.inode h).iSectors 12 := by
      rw [addr, slotAddr, if_neg (by omega), if_pos rfl]
    refine Disk.sector_congr (hdel.data _ ?_ fun he => ?_)
    · rw [← hself]
      exact hd.le_addr (Nat.le_refl _) (hself ▸ h12)
    · have := hd.inj 140 (Nat.le_refl _) k0 (by omega) (hself ▸ h12)
        (hself.trans (BitVec.toNat_inj.1 he))
      omega
  have hsame : ∀ {f : ℕ → Word}, (s'.inode h).iSectors = f → f 12 = (s.inode h).iSectors 12 →
      (k < 12 → f k = (s.inode h).iSectors k) → s'.addr h k = s.addr h k := by
    intro f hf h12 hdirect
    rw [addr, addr, slotAddr, slotAddr, hf, h12]
    by_cases hlt : k < 12
    · rw [if_pos hlt, if_pos hlt, hdirect hlt]
    · rw [if_neg hlt, if_neg hlt]
      by_cases h0 : (s.inode h).iSectors 12 = 0
      · rw [if_pos h0, if_pos h0]
      · rw [if_neg h0, if_neg h0, htable h0]
  rcases hdel.how with ⟨hsec, -⟩ | ⟨hlt, hcnt, hfirst, hsec, hbits⟩
  · exact .inl (hsame hsec rfl fun _ => rfl)
  · by_cases hkk : k = k0
    · refine .inr ⟨hkk, ?_, hcnt, hfirst, hbits⟩
      rw [addr, slotAddr, if_pos (by omega), hsec]
      exact if_pos hkk
    · refine .inl (hsame hsec (if_neg (by omega)) fun _ => if_neg hkk)

theorem Deleted.block_eq (hk : k < 140) (h0 : s.addr h k ≠ 0) (hkk : k ≠ k0)
    (haddr : s'.addr h k = s.addr h k) : s'.block h k = s.block h k := by
  have hk0 := hx.block
  dsimp only at hk0
  rw [block, block, haddr]
  exact Disk.sector_congr (hdel.data _ (hd.le_addr (Nat.le_of_lt hk) h0) fun he =>
    hkk (hd.inj k (by omega) k0 (by omega) h0 (BitVec.toNat_inj.1 he)))

variable (huniq : ∀ x, HasNumber s h n x → x = (k0, i0))

include huniq

/-- **The entries that are left.** -/
theorem Deleted.liveEntries_eq :
    liveEntries s'.disk (s'.inode h) = withoutEntry n (liveEntries s.disk (s.inode h)) := by
  have hk0 := hx.block
  dsimp only at hk0
  rw [X86Os.liveEntries_eq, X86Os.liveEntries_eq, withoutEntry, List.filter_flatMap]
  refine List.flatMap_congr fun k hk => ?_
  have hk := List.mem_range.1 hk
  have honly : ∀ j < 21, s.addr h k ≠ 0 → (cell (s.block h k) j).counts = true →
      (cell (s.block h k) j).iNo = n → k = k0 ∧ j = i0 := fun j hj h0 hc hno =>
    Prod.mk.inj (huniq (k, j) ⟨hk, hj, h0, hc, hno⟩)
  rcases hdel.addr_eq hd hx k with haddr | ⟨rfl, haddr, hcnt, hfirst, -⟩
  · rw [haddr]
    by_cases h0 : s.addr h k = 0
    · rw [if_pos h0, if_pos h0]
      rfl
    rw [if_neg h0, if_neg h0]
    by_cases hkk : k = k0
    · subst hkk
      rcases hdel.how with ⟨-, -, hcell⟩ | ⟨hlt, -, -, hsec, -⟩
      · refine sectorEntries_clear (fun j hj => ?_) hx.counts hx.no fun j hj hc hno =>
          (honly j hj h0 hc hno).2
        rw [block, haddr]
        exact hcell j hj
      · -- the block is there, so it was not given back
        have hzero : s'.addr h k = 0 := by
          rw [addr, slotAddr, if_pos hlt, hsec]
          exact if_pos rfl
        exact absurd (haddr ▸ hzero) h0
    · rw [hdel.block_eq hd hx hk h0 hkk haddr]
      refine (withoutEntry_eq_self fun e he hc hno => ?_).symm
      obtain ⟨j, hj, rfl, -⟩ := mem_sectorEntries.1 he
      exact hkk (honly j hj h0 hc hno).1
  · -- a block that was given back had no other entry
    rw [if_pos haddr, if_neg hx.addr]
    refine (List.filter_eq_nil_iff.2 fun e he => ?_).symm
    have hcounts : e.counts = true := by
      by_contra hc
      obtain rfl := hd.dots k hk hx.addr e he (Bool.eq_false_iff.2 hc)
      rw [hd.first] at hfirst
      cases hfirst
    obtain ⟨j, hj, rfl, -⟩ := mem_sectorEntries.1 he
    obtain rfl := eq_of_dirEntryCnt hcnt hj hx.entry hcounts hx.counts
    rw [hcounts, hx.no]
    simp

omit huniq in
/-- **The bits that are left.** -/
theorem Deleted.bit_iff (hi : i < blockCnt part) : s'.blockBitmap.bit i = true ↔
    s.blockBitmap.bit i = true ∧
      ((∃ k ≤ 140, s.addr h k = blockAddr part i) → ∃ k ≤ 140, s'.addr h k = blockAddr part i) := by
  have hk0 := hx.block
  dsimp only at hk0
  have hne := blockAddr_ne_zero hi
  obtain ⟨j, hj, haddr0, hused⟩ := hd.used k0 (Nat.le_of_lt hk0) hx.addr
  rcases hdel.addr_eq hd hx k0 with hsame | ⟨-, hgone, hcnt, hfirst, hbits⟩
  · -- nothing was given back
    have hall : ∀ k, s'.addr h k = s.addr h k := fun k => by
      rcases hdel.addr_eq hd hx k with he | ⟨rfl, he, -⟩
      · exact he
      · exact absurd (hsame ▸ he) hx.addr
    have hbit : s'.blockBitmap = s.blockBitmap := by
      rcases hdel.how with ⟨-, hb, -⟩ | ⟨hlt, -, -, hsec, -⟩
      · exact hb
      · have hzero : s'.addr h k0 = 0 := by
          rw [addr, slotAddr, if_pos hlt, hsec]
          exact if_pos rfl
        exact absurd (hsame ▸ hzero) hx.addr
    rw [hbit]
    refine ⟨fun hb => ⟨hb, ?_⟩, fun h => h.1⟩
    rintro ⟨k, hk, he⟩
    exact ⟨k, hk, (hall k).trans he⟩
  · rw [hbits, haddr0, blockBitmapIdx_blockAddr hj, bit_bitmapSet]
    have hother : ∀ k, k ≠ k0 → s'.addr h k = s.addr h k := fun k hkk =>
      (hdel.addr_eq hd hx k).resolve_right fun h => hkk h.1
    by_cases hij : i = j
    · subst hij
      rw [if_pos rfl]
      refine ⟨by simp, fun hmem => ?_⟩
      obtain ⟨-, hkeep⟩ := hmem
      -- no other place has the block
      obtain ⟨k, hk, he⟩ := hkeep ⟨k0, Nat.le_of_lt hk0, haddr0⟩
      by_cases hkk : k = k0
      · rw [hkk, hgone] at he
        exact absurd he.symm hne
      · rw [hother k hkk] at he
        exact absurd (hd.inj k hk k0 (by omega) (he ▸ hne) (he.trans haddr0.symm)) hkk
    · rw [if_neg hij]
      refine ⟨fun hb => ⟨hb, ?_⟩, fun h => h.1⟩
      rintro ⟨k, hk, he⟩
      refine ⟨k, hk, (hother k ?_).trans he⟩
      rintro rfl
      exact hij (blockAddr_inj hi hj (he.symm.trans haddr0))

end

/-- **Deleting an entry.** Let exactly one entry of a directory other than `.` and `..` have the
number `n`. Then `delete_dir_entry` returns true, the entries are those that there were but for that
one, the size is one entry less, and of the bits in the bitmap those are cleared whose block the
directory had and no longer has, if the entry is not the last one of an indirect block. If it is,
the call does not return. -/
theorem deleted_entry_iff (hd : DirBlocks part s h) (hone : ∃! x, HasNumber s h n x) :
    (∃ s', deleteDirEntry part h n s = .ok (true, s') ∧
      liveEntries s'.disk (s'.inode h) = withoutEntry n (liveEntries s.disk (s.inode h)) ∧
      (s'.inode h).iSize = (s.inode h).iSize - 24 ∧
      ∀ i < blockCnt part, s'.blockBitmap.bit i = true ↔ s.blockBitmap.bit i = true ∧
        ((∃ k ≤ 140, s.addr h k = blockAddr part i) → ∃ k ≤ 140, s'.addr h k = blockAddr part i)) ↔
    NotLastIndirect part s h n := by
  obtain ⟨⟨k0, i0⟩, hx, huniq⟩ := hone
  have hmem : i0 ∈ matching part (s.block h k0) n := mem_matching.2 ⟨hx.entry, hx.counts, hx.no⟩
  constructor
  · rintro ⟨s', hrun, -⟩ k h12 hk h0 hm
    have hnot : post (deleteDirEntry part h n)
        (fun _ _ => 12 ≤ k0 → dirEntryCnt part (s.block h k0) ≠ 1) s :=
      deleteDirEntry_wp hd hx huniq (fun _ _ => trivial) fun hnot _ _ _ => hnot
    obtain ⟨j, hj⟩ := List.exists_mem_of_ne_nil _ hm
    obtain ⟨hj1, hj2, hj3⟩ := mem_matching.1 hj
    obtain ⟨rfl, -⟩ := Prod.mk.inj (huniq (k, j) ⟨hk, hj1, h0, hj2, hj3⟩)
    exact hnot.ok hrun h12
  · intro hok
    have hrun : wp (deleteDirEntry part h n)
        (fun ok s' => ok = true ∧ Deleted part s s' h k0 i0) (fun _ => False) s :=
      deleteDirEntry_wp hd hx huniq
        (fun h12 hcnt => hok k0 h12 hx.block hx.addr (List.ne_nil_of_mem hmem) hcnt)
        fun _ s' hdel _ => ⟨rfl, hdel⟩
    obtain ⟨_, s', hres, rfl, hdel⟩ := hrun.returns
    exact ⟨s', hres, hdel.liveEntries_eq hd hx huniq, hdel.size, fun i hi => hdel.bit_iff hd hx hi⟩

end

/-! ### The entry of an indirect block -/

theorem bigDir_addr : ∀ k < 141, bigDir.addr 0 k = if k < 12 then BitVec.ofNat 32 (613 + k)
    else if k = 12 then 626 else if k = 140 then 625 else 0 := by
  decide +kernel

theorem bigDir_addr_ne {k : ℕ} (hk : k ≤ 140) (h0 : bigDir.addr 0 k ≠ 0) : k ≤ 12 ∨ k = 140 := by
  by_contra hcon
  rw [bigDir_addr k (by omega), if_neg (by omega), if_neg (by omega), if_neg (by omega)] at h0
  exact h0 rfl

theorem bigDir_dirBlocks : DirBlocks smallPart bigDir 0 := by
  have hused : ∀ k < 13, bigDir.addr 0 k = blockAddr smallPart (if k = 12 then 13 else k) := by
    decide +kernel
  have htable : bigDir.addr 0 140 = blockAddr smallPart 12 := by decide +kernel
  have hbits : ∀ i < 14, bigDir.blockBitmap.bit i = true := by decide +kernel
  have hcnt : blockCnt smallPart = 4096 := by decide
  -- the block of a place
  have hplace : ∀ k ≤ 140, bigDir.addr 0 k ≠ 0 → ∃ i < 14, bigDir.addr 0 k = blockAddr smallPart i ∧
      i = if k = 140 then 12 else if k = 12 then 13 else k := by
    intro k hk h0
    rcases bigDir_addr_ne hk h0 with hk' | rfl
    · refine ⟨_, ?_, hused k (by omega), (if_neg (by omega)).symm⟩
      split <;> omega
    · exact ⟨12, by omega, htable, rfl⟩
  refine ⟨fun k hk h0 => ?_, fun j hj k hk h0 he => ?_, fun k hk => ?_, by decide +kernel,
    fun k hk h0 => ?_, by decide +kernel⟩
  · obtain ⟨i, hi, haddr, -⟩ := hplace k hk h0
    exact ⟨i, by omega, haddr, hbits i hi⟩
  · obtain ⟨i, hi, haddr, hi'⟩ := hplace j hj h0
    obtain ⟨i1, hi1, haddr1, hi1'⟩ := hplace k hk (he ▸ h0)
    have hii := blockAddr_inj (by omega) (by omega) (haddr.symm.trans (he.trans haddr1))
    have hj' := bigDir_addr_ne hj h0
    have hk' := bigDir_addr_ne hk (he ▸ h0)
    rw [hi', hi1'] at hii
    split_ifs at hii <;> omega
  · by_cases h0 : bigDir.addr 0 k = 0
    · rw [h0]
      exact Nat.zero_le _
    · obtain ⟨i, hi, haddr, -⟩ := hplace k hk h0
      rw [haddr, toNat_blockAddr (by omega), show smallPart.sb.dataStartLba = 613 from rfl, maxLba]
      omega
  · rcases bigDir_addr_ne (Nat.le_of_lt hk) h0 with hk' | hk'
    · have hall : ∀ k < 13, ((sectorEntries (bigDir.block 0 k)).all fun e =>
          e.counts || k == 0) = true := by decide +kernel
      intro e he hc
      have := List.all_eq_true.1 (hall k (by omega)) e he
      rw [hc, Bool.false_or, beq_iff_eq] at this
      exact this
    · omega

instance (s : FsState) (h : ℕ) (n : Word) : DecidablePred (HasNumber s h n) := fun x =>
  decidable_of_iff (x.1 < 140 ∧ x.2 < 21 ∧ s.addr h x.1 ≠ 0 ∧
      (cell (s.block h x.1) x.2).counts = true ∧ (cell (s.block h x.1) x.2).iNo = n)
    ⟨fun h => ⟨h.1, h.2.1, h.2.2.1, h.2.2.2.1, h.2.2.2.2⟩,
      fun h => ⟨h.block, h.entry, h.addr, h.counts, h.no⟩⟩

/-- The entries of the large directory with a number, listed. -/
theorem bigDir_number {n : Word} {x : ℕ × ℕ}
    (hx : (List.range 13 ×ˢ List.range 21).filter (fun x => HasNumber bigDir 0 n x) = [x]) :
    ∃! x, HasNumber bigDir 0 n x := by
  have hmem : ∀ y, HasNumber bigDir 0 n y ↔ y ∈ [x] := by
    intro y
    rw [← hx, List.mem_filter, decide_eq_true_eq]
    refine ⟨fun hy => ⟨List.mem_product.2 ⟨List.mem_range.2 ?_, List.mem_range.2 hy.entry⟩, hy⟩,
      fun hy => hy.2⟩
    have := hy.block
    have := bigDir_addr_ne (Nat.le_of_lt hy.block) hy.addr
    omega
  exact ⟨x, (hmem x).2 (List.mem_singleton_self x), fun y hy =>
    List.mem_singleton.1 ((hmem y).1 hy)⟩

/-- The entry for inode 5 of the large directory is deleted. -/
theorem deleted_entry_iff_direct : ∃ s', deleteDirEntry smallPart 0 5 bigDir = .ok (true, s') ∧
    liveEntries s'.disk (s'.inode 0) =
      withoutEntry 5 (liveEntries bigDir.disk (bigDir.inode 0)) := by
  have hone : ∃! x, HasNumber bigDir 0 5 x := bigDir_number (x := (0, 5)) (by decide +kernel)
  have hok : NotLastIndirect smallPart bigDir 0 5 := by
    intro k h12 hk h0 hm
    obtain rfl : k = 12 := by
      have := bigDir_addr_ne (Nat.le_of_lt hk) h0
      omega
    exact absurd (by decide +kernel) hm
  obtain ⟨s', hrun, hlive, -⟩ := (deleted_entry_iff bigDir_dirBlocks hone).2 hok
  exact ⟨s', hrun, hlive⟩

/-- **A hang.** The entry of the indirect block is deleted. -/
theorem delete_hangs : DirBlocks smallPart bigDir 0 ∧ (∃! x, HasNumber bigDir 0 252 x) ∧
    deleteDirEntry smallPart 0 252 bigDir = .error .hang := by
  refine ⟨bigDir_dirBlocks, bigDir_number (x := (12, 0)) (by decide +kernel), ?_⟩
  have hrun : (match deleteDirEntry smallPart 0 252 bigDir with
    | .ok _ => none
    | .error f => some f) = some .hang := by decide +kernel
  split at hrun
  · cases hrun
  · rename_i f hf
    rw [hf, Option.some.inj hrun]

end X86Os
