import X86Os.Fs.Calls

/-!
# Changing a directory

`sync_dir_entry` writes an entry into a directory and `delete_dir_entry` takes one out. Here is what
the first does to the one open inode it works on, and how the second tells entries apart.

An entry is written to a free place of a direct block, to the start of a new direct block, or, when
the twelve direct blocks are full, to the start of the first block of a new indirect table. The last
case forgets the table that was there, with every entry in it: the code never reads the old table
before it writes the new one. `Adds` says what all three cases have in common, which is enough for
the blocks to stay apart, and which entries are kept.

An entry is taken out by clearing it, or by giving back its block if no other entry of it counts.
Whether an entry counts depends on its name.
-/

namespace X86Os

open X86Os.Comp FsState

/-! ### A new directory -/

section

variable {G : Tree} {v : View} {d : ℕ}

theorem newDirSector_eq (n p : Word) : newDirSector n p =
    Buf.splice (Buf.splice (fun _ => 0) (24 * 0)
      (DirEntry.toBytes ⟨fun k => dot.getD k 0, n, FileType.directory.code⟩) 24) (24 * 1)
      (DirEntry.toBytes ⟨fun k => dotDot.getD k 0, p, FileType.directory.code⟩) 24 := rfl

/-- The first sector of a directory has `.` and `..` and nothing else. -/
theorem cell_newDirSector {n p i : ℕ} :
    (i = 0 → (cell (newDirSector (BitVec.ofNat 32 n) (BitVec.ofNat 32 p)) i).IsDir dot n) ∧
    (i = 1 → (cell (newDirSector (BitVec.ofNat 32 n) (BitVec.ofNat 32 p)) i).IsDir dotDot p) ∧
    (2 ≤ i → cell (newDirSector (BitVec.ofNat 32 n) (BitVec.ofNat 32 p)) i = .blank) := by
  rw [newDirSector_eq, cell_splice, cell_splice, cell_zero]
  refine ⟨fun h => ?_, fun h => ?_, fun h => ?_⟩
  · rw [if_neg (by omega), if_pos h]
    exact ⟨(strEq_trunc (by decide)).trans (by rfl), rfl, rfl⟩
  · rw [if_pos h]
    exact ⟨(strEq_trunc (by decide)).trans (by rfl), rfl, rfl⟩
  · rw [if_neg (by omega), if_neg (by omega)]

/-- A directory whose only block is the first. -/
theorem DirOk.of_first (h0 : v.slot d 0 ≠ 0) (hslot : ∀ k, 0 < k → k < 140 → v.slot d k = 0)
    (hdot : (v.cell d 0 0).IsDir X86Os.dot d)
    (hdotDot : (v.cell d 0 1).IsDir X86Os.dotDot (G.home d))
    (hfree : ∀ i < 21, (v.cell d 0 i).fType = 0 → (v.cell d 0 i).filename 0 = 0)
    (hchild : ∀ i < 21, 2 ≤ i → (v.cell d 0 i).fType ≠ 0 → ∃ m ∈ G.children d,
      (v.cell d 0 i).iNo = BitVec.ofNat 32 m ∧ (v.cell d 0 i).fType = (G.kind m).code)
    (huniq : ∀ i < 21, ∀ j < 21, 2 ≤ i ∧ (v.cell d 0 i).fType ≠ 0 →
      2 ≤ j ∧ (v.cell d 0 j).fType ≠ 0 → (v.cell d 0 i).iNo = (v.cell d 0 j).iNo → i = j)
    (hsize : (v.node d).iSize = BitVec.ofNat 32 (24 * (2 + (G.children d).card))) :
    DirOk G v d := by
  have hfirst : ∀ {k}, k < 140 → v.slot d k ≠ 0 → k = 0 := fun hk hs => by
    by_contra hk0
    exact hs (hslot _ (by omega) hk)
  refine ⟨h0, hdot, hdotDot, fun k hk hs i hi hf => ?_, fun k i hc => ?_,
    fun k i k' i' hc hc' hno => ?_, hsize⟩
  · obtain rfl := hfirst hk hs
    exact hfree i hi hf
  · obtain rfl := hfirst hc.block hc.slot
    exact hchild i hc.entry (hc.later rfl) hc.fType
  · obtain rfl := hfirst hc.block hc.slot
    obtain rfl := hfirst hc'.block hc'.slot
    exact ⟨rfl, huniq i hc.entry i' hc'.entry ⟨hc.later rfl, hc.fType⟩
      ⟨hc'.later rfl, hc'.fType⟩ hno⟩

/-- **A new directory** is in order. -/
theorem DirOk.fresh (h0 : v.slot d 0 ≠ 0) (hslot : ∀ k, 0 < k → k < 140 → v.slot d k = 0)
    (hdata : ∀ i < 512, v.data (v.slot d 0).toNat i =
      newDirSector (BitVec.ofNat 32 d) (BitVec.ofNat 32 (G.home d)) i)
    (hsize : (v.node d).iSize = 48) (hleaf : G.children d = ∅) : DirOk G v d := by
  have hcell : ∀ i < 21, v.cell d 0 i =
      cell (newDirSector (BitVec.ofNat 32 d) (BitVec.ofNat 32 (G.home d))) i := fun i hi =>
    cell_congr fun k hk => hdata _ (by omega)
  have hblank : ∀ i < 21, 2 ≤ i → v.cell d 0 i = .blank := fun i hi h2 =>
    (hcell i hi).trans (cell_newDirSector.2.2 h2)
  have hnone : ∀ i < 21, 2 ≤ i → (v.cell d 0 i).fType = 0 := fun i hi h2 => by
    rw [hblank i hi h2]
    rfl
  refine .of_first h0 hslot (hcell 0 (by decide) ▸ cell_newDirSector.1 rfl)
    (hcell 1 (by decide) ▸ cell_newDirSector.2.1 rfl) (fun i hi hf => ?_)
    (fun i hi h2 hf => absurd (hnone i hi h2) hf) (fun i hi _ _ h => absurd (hnone i hi h.1) h.2) ?_
  · by_cases h2 : 2 ≤ i
    · rw [hblank i hi h2]
      rfl
    · -- the two entries are in use
      rw [hcell i hi] at hf
      obtain rfl | rfl : i = 0 ∨ i = 1 := by omega
      · rw [(cell_newDirSector.1 rfl).fType] at hf
        cases hf
      · rw [(cell_newDirSector.2.1 rfl).fType] at hf
        cases hf
  · rw [hsize, hleaf]
    rfl

end

/-! ### One entry more -/

/-- **An entry more** among the entries of directory `d`: entry `i0` of block `k0` is `e`. The
places before it are in use, and the direct blocks keep what is in them. Where the new entry is in
an indirect block, the indirect blocks that were there are lost. -/
structure Gains (v v' : View) (d : ℕ) (e : DirEntry) (k0 i0 : ℕ) : Prop where
  block : k0 ≤ 12
  entry : i0 < 21
  slot : v'.slot d k0 ≠ 0
  cell : v'.cell d k0 i0 = e.trunc
  free : k0 < 12 → v.slot d k0 ≠ 0 → (v.cell d k0 i0).fType = 0
  kept : ∀ k < 140, k < 12 ∨ k0 < 12 → v.slot d k ≠ 0 → v'.slot d k = v.slot d k ∧
    ∀ i < 21, ¬ (k = k0 ∧ i = i0) → v'.cell d k i = v.cell d k i
  others : ∀ k < 140, v'.slot d k ≠ 0 → ∀ i < 21, ¬ (k = k0 ∧ i = i0) →
    v.slot d k ≠ 0 ∧ v'.cell d k i = v.cell d k i ∨ v'.cell d k i = .blank
  first : ∀ k ≤ k0, ∀ i < 21, k < k0 ∨ i < i0 →
    k < 12 ∧ v.slot d k ≠ 0 ∧ (v.cell d k i).fType ≠ 0
  direct : (∃ k < 12, v.slot d k = 0 ∨ ∃ i < 21, (v.cell d k i).fType = 0) → k0 < 12
  lost : k0 = 12 → ∀ k, 12 ≤ k → k < 140 → v'.slot d k ≠ 0 → ∀ i < 21, ¬ (k = k0 ∧ i = i0) →
    v'.cell d k i = .blank

/-- An entry more, as a change of the directory's inode. -/
structure Adds (part : Partition) (v v' : View) (d : ℕ) (e : DirEntry) (k0 i0 : ℕ) : Prop
    extends Gains v v' d e k0 i0 where
  edits : Edits part v v' d
  no : (v'.node d).iNo = (v.node d).iNo
  size : (v'.node d).iSize = (v.node d).iSize + 24

section

variable {part : Partition} {L : Finset ℕ} {v v' : View} {d k0 i0 : ℕ} {e : DirEntry}

theorem View.cell_eq {k i : ℕ} (hs : v'.slot d k = v.slot d k)
    (hd : v'.data (v.slot d k).toNat = v.data (v.slot d k).toNat) :
    v'.cell d k i = v.cell d k i := by
  rw [View.cell, View.cell, hs, hd]

/-- A new entry in a direct block, which was there or is new itself. -/
theorem Adds.of_direct (hown : Own part L v) (hd : d ∈ L) (hk : k0 < 12) (hi : i0 < 21)
    (hnode : ∀ m ≠ d, v'.node m = v.node m) (hno : (v'.node d).iNo = (v.node d).iNo)
    (hsize : (v'.node d).iSize = (v.node d).iSize + 24)
    (hsec : ∀ k < 13, k ≠ k0 → (v'.node d).iSectors k = (v.node d).iSectors k)
    (h0 : v'.slot d k0 ≠ 0) (hmono : ∀ w, v.Used part w → v'.Used part w)
    (hdata : ∀ a, a ≠ (v'.slot d k0).toNat → v'.data a = v.data a)
    (hcell : v'.cell d k0 i0 = e.trunc)
    (hfirst : ∀ k ≤ k0, ∀ i < 21, k < k0 ∨ i < i0 → v.slot d k ≠ 0 ∧ (v.cell d k i).fType ≠ 0)
    (hself : v'.slot d k0 = v.slot d k0 ∧ (v.cell d k0 i0).fType = 0 ∧
        (∀ i < 21, i ≠ i0 → v'.cell d k0 i = v.cell d k0 i) ∨
      v.slot d k0 = 0 ∧ v.Fresh part (v'.slot d k0) ∧ v'.Used part (v'.slot d k0) ∧
        ∀ i < 21, i ≠ i0 → v'.cell d k0 i = .blank) : Adds part v v' d e k0 i0 := by
  -- the sector that changed is in no other place
  have hne : ∀ k ≤ 140, k ≠ k0 → v.slot d k ≠ 0 → v.slot d k ≠ v'.slot d k0 := by
    intro k hk' hkk hs he
    rcases hself with ⟨hold, -⟩ | ⟨-, hf, -⟩
    · exact hkk (hown.inj hd hd hk' (by omega) hs (he.trans hold)).2
    · exact hf.not_used (he ▸ hown.used hd hk' hs)
  have hsector : ∀ k ≤ 140, k ≠ k0 → v.slot d k ≠ 0 →
      v'.data (v.slot d k).toNat = v.data (v.slot d k).toNat := fun k hk' hkk hs =>
    hdata _ fun he => hne k hk' hkk hs (BitVec.toNat_inj.1 he)
  have hslot : ∀ k ≤ 140, k ≠ k0 → v'.slot d k = v.slot d k := by
    intro k hk' hkk
    by_cases h12 : k < 12
    · rw [View.slot_of_lt h12, View.slot_of_lt h12, hsec k (by omega) hkk]
    · exact View.slot_congr_ge (hsec 12 (by omega) (by omega))
        (hsector 140 (Nat.le_refl _) (by omega)) (Nat.not_lt.1 h12)
  have hcells : ∀ k < 140, k ≠ k0 → v.slot d k ≠ 0 → ∀ i, v'.cell d k i = v.cell d k i :=
    fun k hk' hkk hs i => View.cell_eq (hslot k (by omega) hkk) (hsector k (by omega) hkk hs)
  refine ⟨⟨by omega, hi, h0, hcell, fun _ hs => ?_, fun k hk' _ hs => ?_,
    fun k hk' hs i hi' hki => ?_, fun k hk' i hi' hor => ⟨by omega, hfirst k hk' i hi' hor⟩,
    fun _ => hk, fun h12 => absurd hk (by omega)⟩,
    .of_grow hown hd hnode (fun k hk' hs => ?_) hmono fun a => ?_, hno, hsize⟩
  · rcases hself with ⟨-, hf, -⟩ | ⟨hz, -⟩
    · exact hf
    · exact absurd hz hs
  · by_cases hkk : k = k0
    · subst hkk
      rcases hself with ⟨hold, -, hc⟩ | ⟨hz, -⟩
      · exact ⟨hold, fun i hi' hki => hc i hi' fun h => hki ⟨rfl, h⟩⟩
      · exact absurd hz hs
    · exact ⟨hslot k (by omega) hkk, fun i _ _ => hcells k hk' hkk hs i⟩
  · by_cases hkk : k = k0
    · subst hkk
      rcases hself with ⟨hold, -, hc⟩ | ⟨-, -, -, hb⟩
      · exact .inl ⟨hold ▸ hs, hc i hi' fun h => hki ⟨rfl, h⟩⟩
      · exact .inr (hb i hi' fun h => hki ⟨rfl, h⟩)
    · rw [hslot k (by omega) hkk] at hs
      exact .inl ⟨hs, hcells k hk' hkk hs i⟩
  · by_cases hkk : k = k0
    · subst hkk
      rcases hself with ⟨hold, -⟩ | ⟨-, hf, hu, -⟩
      · exact .inl hold
      · refine .inr ⟨hf, hu, fun j hj hkj => ?_⟩
        by_contra hne'
        rw [hslot j hj (Ne.symm hne')] at hkj
        exact hne j hj (Ne.symm hne') (hkj ▸ h0) hkj.symm
    · exact .inl (hslot k hk' hkk)
  · by_cases ha : a = (v'.slot d k0).toNat
    · exact .inr ⟨k0, by omega, h0, ha.symm⟩
    · exact .inl (hdata a ha)

/-- A new entry in the first indirect block, with a new table. -/
theorem Adds.of_table (hown : Own part L v) (hd : d ∈ L)
    (hfull : ∀ k < 12, v.slot d k ≠ 0 ∧ ∀ i < 21, (v.cell d k i).fType ≠ 0)
    (hnode : ∀ m ≠ d, v'.node m = v.node m) (hno : (v'.node d).iNo = (v.node d).iNo)
    (hsize : (v'.node d).iSize = (v.node d).iSize + 24)
    (hsec : ∀ k < 12, (v'.node d).iSectors k = (v.node d).iSectors k)
    (hrest : ∀ k, 12 < k → k < 140 → v'.slot d k = 0) (hne : v'.slot d 12 ≠ v'.slot d 140)
    (hfresh : ∀ k, k = 12 ∨ k = 140 → v.Fresh part (v'.slot d k) ∧ v'.Used part (v'.slot d k))
    (hmono : ∀ w, v.Used part w → v'.Used part w)
    (hdata : ∀ a, a ≠ (v'.slot d 12).toNat → a ≠ (v'.slot d 140).toNat → v'.data a = v.data a)
    (hcell : ∀ i < 21, v'.cell d 12 i = if i = 0 then e.trunc else .blank) :
    Adds part v v' d e 12 0 := by
  have hslot : ∀ k < 12, v'.slot d k = v.slot d k := fun k hk => by
    rw [View.slot_of_lt hk, View.slot_of_lt hk, hsec k hk]
  have hz : ∀ {k}, k = 12 ∨ k = 140 → v'.slot d k ≠ 0 := fun hk => (hfresh _ hk).2.ne_zero
  have hold : ∀ k < 12, ∀ {j}, j = 12 ∨ j = 140 → v.slot d k ≠ v'.slot d j := fun k hk j hj he =>
    (hfresh j hj).1.not_used (he ▸ hown.used hd (by omega) (hfull k hk).1)
  have hcells : ∀ k < 12, ∀ i, v'.cell d k i = v.cell d k i := fun k hk i =>
    View.cell_eq (hslot k hk) (hdata _
      (fun he => hold k hk (.inl rfl) (BitVec.toNat_inj.1 he))
      fun he => hold k hk (.inr rfl) (BitVec.toNat_inj.1 he))
  have hplace : ∀ k ≤ 140, v'.slot d k ≠ 0 → k < 12 ∨ k = 12 ∨ k = 140 := by
    intro k hk hs
    by_contra hcon
    exact hs (hrest k (by omega) (by omega))
  refine ⟨⟨Nat.le_refl _, by omega, hz (.inl rfl), hcell 0 (by omega),
    fun h => absurd h (Nat.lt_irrefl _), fun k hk hor _ => ?_, fun k hk hs i hi hki => ?_,
    fun k _ i hi hor => ?_, ?_, fun _ k h1 h2 hs i hi hki => ?_⟩,
    .of_grow hown hd hnode (fun k hk hs => ?_) hmono fun a => ?_, hno, hsize⟩
  · have hk' : k < 12 := hor.resolve_right (Nat.lt_irrefl _)
    exact ⟨hslot k hk', fun i _ _ => hcells k hk' i⟩
  · rcases hplace k (by omega) hs with hk' | rfl | rfl
    · exact .inl ⟨(hfull k hk').1, hcells k hk' i⟩
    · rw [hcell i hi, if_neg fun h => hki ⟨rfl, h⟩]
      exact .inr rfl
    · exact absurd hk (Nat.lt_irrefl _)
  · have hk : k < 12 := by omega
    exact ⟨hk, (hfull k hk).1, (hfull k hk).2 i hi⟩
  · rintro ⟨k, hk, hz' | ⟨i, hi, hf⟩⟩
    · exact absurd hz' (hfull k hk).1
    · exact absurd hf ((hfull k hk).2 i hi)
  · obtain rfl : k = 12 := by
      rcases hplace k (by omega) hs with hk' | hk' | hk' <;> omega
    rw [hcell i hi, if_neg fun h => hki ⟨rfl, h⟩]
  · rcases hplace k hk hs with hk' | hk'
    · exact .inl (hslot k hk')
    · refine .inr ⟨(hfresh k hk').1, (hfresh k hk').2, fun j hj hkj => ?_⟩
      rcases hplace j hj (hkj ▸ hs) with hj' | hj'
      · rw [hslot j hj'] at hkj
        exact absurd hkj.symm (hold j hj' hk')
      · rcases hk' with rfl | rfl <;> rcases hj' with rfl | rfl
        · rfl
        · exact absurd hkj hne
        · exact absurd hkj.symm hne
        · rfl
  · by_cases h1 : a = (v'.slot d 12).toNat
    · exact .inr ⟨12, by omega, hz (.inl rfl), h1.symm⟩
    · by_cases h2 : a = (v'.slot d 140).toNat
      · exact .inr ⟨140, Nat.le_refl _, hz (.inr rfl), h2.symm⟩
      · exact .inl (hdata a h1 h2)

end

/-! ### What `sync_dir_entry` does -/

section

variable {part : Partition} {h : ℕ} {e : DirEntry}

/-- The block bitmap has the length that the super block says. -/
def BlockLen (part : Partition) (s : FsState) : Prop :=
  s.blockBitmap.btmpBytesLen = 512 * part.sb.blockBitmapSects

/-- The direct blocks before block `k` are there, with every entry in use. -/
def FsState.FullTo (s : FsState) (h k : ℕ) : Prop :=
  ∀ j < k, (s.inode h).iSectors j ≠ 0 ∧
    ∀ i < 21, (cell (s.disk.sector ((s.inode h).iSectors j).toNat) i).fType ≠ 0

/-- The entry went to free place `i0` of block `k0`, the first one. -/
structure PlaceWritten (s s' : FsState) (h : ℕ) (e : DirEntry) (k0 i0 : ℕ) : Prop where
  block : k0 < 12
  entry : i0 < 21
  full : s.FullTo h k0
  ne_zero : (s.inode h).iSectors k0 ≠ 0
  onDisk : ((s.inode h).iSectors k0).toNat ≤ maxLba
  free : (cell (s.disk.sector ((s.inode h).iSectors k0).toNat) i0).fType = 0
  before : ∀ i < i0, (cell (s.disk.sector ((s.inode h).iSectors k0).toNat) i).fType ≠ 0
  sectors : (s'.inode h).iSectors = (s.inode h).iSectors
  bitmaps : ∀ t, s'.bitmapOf t = s.bitmapOf t
  disk : s'.disk = s.disk.write ((s.inode h).iSectors k0).toNat
    ((s.disk.sector ((s.inode h).iSectors k0).toNat).splice (24 * i0) e.toBytes 24) 1

/-- The entry went to the start of block `i` of the partition, which is new, at block place `k0`,
the first that had none. The bitmap was written to the disk first. -/
structure BlockWritten (part : Partition) (s s' : FsState) (h : ℕ) (e : DirEntry) (k0 i : ℕ)
    (d1 : Disk) : Prop where
  block : k0 < 12
  full : s.FullTo h k0
  eq_zero : (s.inode h).iSectors k0 = 0
  lt : i < blockCnt part
  clear : s.blockBitmap.bit i = false
  onDisk : (blockAddr part i).toNat ≤ maxLba
  frame : BitmapFrame part s.disk d1
  slices : SlicesKept part ∅ s s'
  bitmap : s'.blockBitmap = bitmapSet s.blockBitmap i true
  sectors : (s'.inode h).iSectors =
    fun j => if j = k0 then blockAddr part i else (s.inode h).iSectors j
  disk : s'.disk = d1.write (blockAddr part i).toNat
    (Buf.splice (fun _ => 0) (24 * 0) e.toBytes 24) 1

/-- The twelve blocks are full. The entry went to the start of block `j`, the first of a new table
in block `i`. -/
structure TableWritten (part : Partition) (s s' : FsState) (h : ℕ) (e : DirEntry) (i j : ℕ)
    (d2 d3 : Disk) (b : ℕ → Word) : Prop where
  full : s.FullTo h 12
  lt : i < blockCnt part
  lt' : j < blockCnt part
  clear : s.blockBitmap.bit i = false
  clear' : (bitmapSet s.blockBitmap i true).bit j = false
  frame : BitmapFrame part s.disk d2
  slices : SlicesKept part ∅ s s'
  bitmap : s'.blockBitmap = bitmapSet (bitmapSet s.blockBitmap i true) j true
  sectors : (s'.inode h).iSectors =
    fun k => if k = 12 then blockAddr part i else (s.inode h).iSectors k
  table : ∀ k, 12 ≤ k → (d3 (blockAddr part i).toNat).toWords (k - 12) = b k
  first : b 12 = blockAddr part j
  later : ∀ k, 12 < k → b k = 0
  other : ∀ a, a ≠ (blockAddr part i).toNat → d3 a = d2 a
  disk : s'.disk = d3.write (blockAddr part j).toNat
    (Buf.splice (fun _ => 0) (24 * 0) e.toBytes 24) 1

/-- **What `sync_dir_entry` writes.** -/
inductive EntryWritten (part : Partition) (s s' : FsState) (h : ℕ) (e : DirEntry) : Prop
  | place {k0 i0 : ℕ} (hp : PlaceWritten s s' h e k0 i0)
  | block {k0 i : ℕ} {d1 : Disk} (hb : BlockWritten part s s' h e k0 i d1)
  | table {i j : ℕ} {d2 d3 : Disk} {b : ℕ → Word} (ht : TableWritten part s s' h e i j d2 d3 b)

section

variable {L : Finset ℕ} {s s' : FsState} {d k0 i0 i : ℕ}

/-- A block is taken and its bit written through. -/
theorem allocSync_post {α : Type} {y : Word → Kern FsState α} {k : Word → Kern FsState α}
    {Q : α → FsState → Prop} (hlen : BlockLen part s)
    (hQ : ∀ i < blockCnt part, s.blockBitmap.bit i = false → ∀ d', BitmapFrame part s.disk d' →
      SlicesKept part ∅ s
        { s with blockBitmap := bitmapSet s.blockBitmap i true, disk := d' } →
      post (k (blockAddr part i)) Q
        { s with blockBitmap := bitmapSet s.blockBitmap i true, disk := d' }) :
    post (blockBitmapAlloc part >>= fun w =>
      if w = -1 then y w else (syncBlock part w >>= fun _ => k w)) Q s := by
  rw [post, wp_bind]
  refine blockBitmapAlloc_post hlen fun i hi hc => ?_
  have hj : i / 4096 < bitmapSects part .blockBitmap := by
    rw [blockCnt] at hi
    rw [bitmapSects]
    omega
  rw [if_neg (blockAddr_ne_neg_one hi)]
  simp only [syncBlock, wp_bind, wp_ASSERT, blockBitmapIdx_blockAddr hi]
  refine ⟨fun _ => bitmapSync_wp hj fun d' hd' hframe => hQ i hi hc d' hframe ?_, fun _ => trivial⟩
  refine SlicesKept.sync hj (fun t => by cases t <;> rfl) hd' s ?_
  refine .bitmapSet rfl (fun t ht => ?_) rfl (Set.mem_insert _ _)
  cases t with
  | inodeBitmap => rfl
  | blockBitmap => exact absurd rfl ht

/-- Setting a bit keeps the blocks in use. -/
theorem used_of_set {w : Word} (hb : s'.blockBitmap = bitmapSet s.blockBitmap i true)
    (hw : (s.view part).Used part w) : (s'.view part).Used part w := by
  obtain ⟨j, hj, rfl, hu⟩ := hw
  refine ⟨j, hj, rfl, ?_⟩
  rw [view_used, hb, bit_bitmapSet]
  split
  · rfl
  · exact hu

theorem cell_sector_write {disk : Disk} {a j : ℕ} {b : Buf} (hj : j < 21) :
    X86Os.cell ((disk.write a b 1).sector a) j = X86Os.cell b j :=
  cell_congr fun k hk => by rw [Disk.sector_of_lt (by omega), Disk.write_one_self]

/-- A write to the data area keeps both bitmaps as they are on disk. -/
theorem SlicesKept.of_data {X : Set (BitmapType × ℕ)}
    (hb : ∀ t, s'.bitmapOf t = s.bitmapOf t)
    (hd : ∀ a < part.sb.dataStartLba, s'.disk a = s.disk a) : SlicesKept part X s s' := by
  have := part.dataStartLba_eq
  exact .of_same (fun t k => by rw [hb t]) fun a _ ha => hd a (by omega)

section

variable (hlen : BlockLen part s)

include hlen

/-- Block `i` of the directory is absent, and those before it are full. -/
theorem syncAbsent_written (hi : i ≤ 12) (h0 : i < 12 → (s.inode h).iSectors i = 0)
    (hfull : s.FullTo h i) :
    post (blockBitmapAlloc part >>= fun w => if w = -1 then pure false
      else syncAbsent part h e (directBlocks (s.inode h)) i w)
      (fun ok s' => ok = true ∧ (s'.inode h).iSize = (s.inode h).iSize + 24 ∧
        EntryWritten part s s' h e) s := by
  have hsz := part.dirEntrySize_eq
  have hmax : ∀ {i}, i < blockCnt part → part.sb.dataStartLba ≤ (blockAddr part i).toNat := by
    intro i hi
    rw [toNat_blockAddr hi]
    omega
  refine allocSync_post hlen fun i1 hi1 hc1 d1 hframe1 hsl1 => ?_
  rcases Nat.lt_or_ge i 12 with hlt | hge
  · rw [if_pos hlt]
    simp only [setSector, syncNewBlock, growDir, hsz, wp_bind, wp_modify, wp_onDisk,
      wp_ideWrite Nat.one_pos (show 1 ≤ 256 by omega), wp_pure, implies_true, and_true]
    refine fun hle => ⟨trivial, by simp [updInode],
      .block ⟨hlt, hfull, h0 hlt, hi1, hc1, hle, hframe1,
      hsl1.trans (.of_data (fun t => by cases t <;> rfl) fun a ha => ?_), rfl, by simp [updInode],
      rfl⟩⟩
    have := hmax hi1
    exact Disk.write_one_of_ne (by omega)
  · obtain rfl : i = 12 := by omega
    rw [if_neg (by omega), if_pos rfl]
    rw [syncTable, setSector, post, wp_bind, wp_modify]
    refine allocSync_post hlen fun i2 hi2 hc2 d2 hframe2 hsl2 => ?_
    rw [post, wp_bind]
    refine writeTable_post fun d3 htab hother => ?_
    simp only [syncNewBlock, growDir, hsz, wp_bind, wp_modify, wp_onDisk,
      wp_ideWrite Nat.one_pos (show 1 ≤ 256 by omega), wp_pure, implies_true, and_true]
    refine fun _ => ⟨trivial, by simp [updInode], .table ⟨hfull, hi1, hi2, hc1, hc2,
      hframe1.trans hframe2, hsl1.trans (hsl2.trans (.of_data (fun t => by cases t <;> rfl)
      fun a ha => ?_)), rfl, by simp [updInode], htab, if_pos rfl,
      fun k hk => by rw [if_neg (by omega), directBlocks, if_neg (by omega)], hother, rfl⟩⟩
    have h1 := hmax hi1
    have h2 := hmax hi2
    exact (Disk.write_one_of_ne (by omega)).trans (hother a (by omega))

/-- The loop over the blocks: those before block `i` are full. -/
theorem syncLoop_written (left : ℕ) : ∀ {i : ℕ}, i ≤ 12 → i + left = 140 → s.FullTo h i →
    post (syncLoop part h e (directBlocks (s.inode h)) left i)
      (fun ok s' => ok = true ∧ (s'.inode h).iSize = (s.inode h).iSize + 24 ∧
        EntryWritten part s s' h e) s := by
  induction left with
  | zero => omega
  | succ left ih =>
    intro i hi hsum hfull
    rw [syncLoop]
    split
    · rename_i h0
      refine syncAbsent_written hlen hi (fun hlt => ?_) hfull
      rwa [directBlocks, if_pos hlt] at h0
    · rename_i h0
      -- the code takes the first indirect block for absent, so the block is a direct one
      have hlt : i < 12 := by
        by_contra hge
        exact h0 (if_neg hge)
      rw [directBlocks, if_pos hlt] at h0 ⊢
      simp only [post, wp_bind, wp_onDisk, wp_readSector, implies_true, and_true]
      intro hmax
      rw [dirEntrysPerSec_eq, part.dirEntrySize_eq]
      split
      · rename_i i0 hf
        obtain ⟨hfree, hmem, hbefore⟩ := List.find?_range_eq_some.1 hf
        simp only [growDir, wp_bind, wp_onDisk, wp_ideWrite Nat.one_pos (show 1 ≤ 256 by omega),
          wp_modify, wp_pure, part.dirEntrySize_eq, implies_true, and_true]
        refine fun _ => ⟨trivial, by simp [updInode], .place ⟨hlt, List.mem_range.1 hmem, hfull, h0,
          hmax, beq_iff_eq.1 hfree, fun j hj hj0 => ?_, by simp [updInode],
          fun t => by cases t <;> rfl, rfl⟩⟩
        have hnot := hbefore j hj
        rw [Bool.not_eq_true', beq_eq_false_iff_ne] at hnot
        exact hnot hj0
      · rename_i hf
        refine ih (by omega) (by omega) fun k hk => ?_
        rcases Nat.lt_or_ge k i with hki | hki
        · exact hfull k hki
        · obtain rfl : k = i := by omega
          exact ⟨h0, fun j hj hj0 =>
            List.find?_eq_none.1 hf j (List.mem_range.2 hj) (beq_iff_eq.2 hj0)⟩

/-- **`sync_dir_entry`** writes the entry. It never reports a failure: it looks at direct blocks
only, and takes the first indirect one for absent. -/
theorem syncDirEntry_written : post (syncDirEntry part h e) (fun ok s' => ok = true ∧
    (s'.inode h).iSize = (s.inode h).iSize + 24 ∧ EntryWritten part s s' h e) s := by
  rw [syncDirEntry, post, wp_bind, wp_get, wp_bind, wp_ASSERT]
  exact ⟨fun _ => syncLoop_written hlen 140 (by omega) (by omega) fun k hk => by omega,
    fun _ => trivial⟩

end

/-! ### The view of it -/

/-- What the work on directory `d` comes to that wrote entry `e`. -/
structure Added (part : Partition) (s s' : FsState) (d : ℕ) (e : DirEntry) : Prop where
  table : SameTable part s.disk s'.disk
  slices : SlicesKept part ∅ s s'
  adds : ∃ k0 i0, Adds part (s.view part) (s'.view part) d e k0 i0

section

variable (hw : Working part L s h d)

include hw

/-- An entry of a direct block, as the code reads it. -/
theorem Working.cell_lt {k : ℕ} (hk : k < 12) (h0 : (s.inode h).iSectors k ≠ 0) (j : ℕ) :
    (s.view part).cell d k j =
      X86Os.cell (s.disk.sector ((s.inode h).iSectors k).toNat) j := by
  have hslot := hw.slot_lt hk
  rw [View.cell, hw.data_slot (by omega) (hslot ▸ h0), hslot]

theorem Working.full {k : ℕ} (hk : k ≤ 12) (hfull : s.FullTo h k) : ∀ j < k,
    (s.view part).slot d j ≠ 0 ∧ ∀ i < 21, ((s.view part).cell d j i).fType ≠ 0 := by
  intro j hj
  obtain ⟨h0, hne⟩ := hfull j hj
  rw [hw.slot_lt (by omega)]
  refine ⟨h0, fun i hi => ?_⟩
  rw [hw.cell_lt (by omega) h0]
  exact hne i hi

variable (hr : rest h s' = rest h s) (hsize : (s'.inode h).iSize = (s.inode h).iSize + 24)

include hr

theorem Working.node_edit (ht : SameTable part s.disk s'.disk) :
    (∀ m ≠ d, (s'.view part).node m = (s.view part).node m) ∧
      (s'.view part).node d = (s'.inode h).stored ∧
      ((s'.view part).node d).iNo = ((s.view part).node d).iNo := by
  have hself : (s'.view part).node d = (s'.inode h).stored :=
    view_edit_self hw.cache hr hw.mem hw.no hw.lt
  refine ⟨fun m hm => view_edit hw.cache hr ht hw.no hw.lt hm, hself, ?_⟩
  rw [hself, node_cached hw.cache hw.mem hw.no hw.lt]
  exact rest_iNo hr h

include hsize

theorem PlaceWritten.added (hp : PlaceWritten s s' h e k0 i0) : Added part s s' d e := by
  have hk := hp.block
  have hslot := hw.slot_lt hk
  have hle : part.sb.dataStartLba ≤ ((s.inode h).iSectors k0).toNat := by
    have := (hw.own.used hw.live (show k0 ≤ 140 by omega) (hslot ▸ hp.ne_zero)).le_toNat
    rwa [hslot] at this
  have ht : SameTable part s.disk s'.disk := hp.disk ▸ SameTable.write hle _
  obtain ⟨hnode, hself, hno⟩ := hw.node_edit hr ht
  have hslot' : (s'.view part).slot d k0 = (s.inode h).iSectors k0 := by
    rw [View.slot_of_lt hk, hself, stored_iSectors (by omega), hp.sectors]
  have hcell : ∀ j < 21, (s'.view part).cell d k0 j =
      if j = i0 then e.trunc else (s.view part).cell d k0 j := by
    intro j hj
    rw [View.cell, View.cell, hslot', hslot, view_data hle, view_data hle, hp.disk,
      cell_sector_write hj, cell_splice]
  have hfree : ((s.view part).cell d k0 i0).fType = 0 := by
    rw [hw.cell_lt hk hp.ne_zero]
    exact hp.free
  refine ⟨ht, .of_data hp.bitmaps fun a ha => ?_, k0, i0, ?_⟩
  · rw [hp.disk, Disk.write_one_of_ne (by omega)]
  refine .of_direct hw.own hw.live hk hp.entry hnode hno ?_ (fun k hk' _ => ?_)
    (hslot' ▸ hp.ne_zero) (fun w hw' => ?_) (fun a ha => ?_) ?_ (fun k hk' j hj hor => ?_)
    (.inl ⟨hslot'.trans hslot.symm, hfree, fun j hj hji => ?_⟩)
  · rw [hself, node_cached hw.cache hw.mem hw.no hw.lt]
    exact hsize
  · rw [hself, stored_iSectors hk', hp.sectors, hw.iSectors hk']
  · have hbb : s'.blockBitmap = s.blockBitmap := hp.bitmaps .blockBitmap
    rw [View.Used, view_used, hbb]
    exact hw'
  · rw [hslot'] at ha
    exact view_data_eq fun _ => by rw [hp.disk, Disk.write_one_of_ne ha]
  · rw [hcell i0 hp.entry, if_pos rfl]
  · rcases Nat.lt_or_eq_of_le hk' with hlt | rfl
    · obtain ⟨h1, h2⟩ := hw.full (by omega) hp.full k hlt
      exact ⟨h1, h2 j hj⟩
    · rw [hw.slot_lt hk, hw.cell_lt hk hp.ne_zero]
      exact ⟨hp.ne_zero, hp.before j (by omega)⟩
  · rw [hcell j hj, if_neg hji]

theorem BlockWritten.added {d1 : Disk} (hb : BlockWritten part s s' h e k0 i d1) :
    Added part s s' d e := by
  have hk := hb.block
  have hi := hb.lt
  have hslot : (s.view part).slot d k0 = 0 := (hw.slot_lt hk).trans hb.eq_zero
  have hle : part.sb.dataStartLba ≤ (blockAddr part i).toNat := by
    rw [toNat_blockAddr hi]
    omega
  have ht : SameTable part s.disk s'.disk :=
    hb.disk ▸ hb.frame.sameTable.trans (SameTable.write hle _)
  obtain ⟨hnode, hself, hno⟩ := hw.node_edit hr ht
  have hslot' : (s'.view part).slot d k0 = blockAddr part i := by
    rw [View.slot_of_lt hk, hself, stored_iSectors (by omega), hb.sectors]
    exact if_pos rfl
  have hcell : ∀ j < 21, (s'.view part).cell d k0 j = if j = 0 then e.trunc else .blank := by
    intro j hj
    rw [View.cell, hslot', view_data hle, hb.disk, cell_sector_write hj, cell_splice, cell_zero]
  refine ⟨ht, hb.slices, k0, 0, .of_direct hw.own hw.live hk (by omega) hnode hno ?_
    (fun k hk' hkk => ?_) (hslot' ▸ blockAddr_ne_zero hi) (fun w hw' => used_of_set hb.bitmap hw')
    (fun a ha => ?_) ?_ (fun k _ i hi' hor => ?_) (.inr ⟨hslot, ?_, ?_, fun j hj hji => ?_⟩)⟩
  · rw [hself, node_cached hw.cache hw.mem hw.no hw.lt]
    exact hsize
  · rw [hself, stored_iSectors hk', hb.sectors, hw.iSectors hk']
    exact if_neg hkk
  · rw [hslot'] at ha
    refine view_data_eq fun ha' => ?_
    have := part.dataStartLba_eq
    rw [hb.disk, Disk.write_one_of_ne ha, hb.frame a (by omega)]
  · rw [hcell 0 (by omega), if_pos rfl]
  · obtain ⟨h1, h2⟩ := hw.full (by omega) hb.full k (by omega)
    exact ⟨h1, h2 i hi'⟩
  · rw [hslot']
    exact ⟨i, hi, rfl, hb.clear⟩
  · rw [hslot']
    refine ⟨i, hi, rfl, ?_⟩
    rw [view_used, hb.bitmap]
    exact bit_bitmapSet_self _ _ _
  · rw [hcell j hj, if_neg hji]

theorem TableWritten.added {d2 d3 : Disk} {j : ℕ} {b : ℕ → Word}
    (hb : TableWritten part s s' h e i j d2 d3 b) : Added part s s' d e := by
  have hi := hb.lt
  have hj := hb.lt'
  have hle : ∀ {i}, i < blockCnt part → part.sb.dataStartLba ≤ (blockAddr part i).toNat := by
    intro i hi
    rw [toNat_blockAddr hi]
    omega
  have hji : j ≠ i := by
    rintro rfl
    have := hb.clear'
    rw [bit_bitmapSet_self] at this
    cases this
  have hne : (blockAddr part j).toNat ≠ (blockAddr part i).toNat := by
    rw [toNat_blockAddr hi, toNat_blockAddr hj]
    omega
  have hdata : ∀ a, a ≠ (blockAddr part j).toNat → a ≠ (blockAddr part i).toNat →
      part.sb.inodeTableLba ≤ a → s'.disk a = s.disk a := fun a h1 h2 ha => by
    rw [hb.disk, Disk.write_one_of_ne h1, hb.other a h2, hb.frame a (.inr ha)]
  have hstart := part.dataStartLba_eq
  have ht : SameTable part s.disk s'.disk := fun a ha1 ha2 => by
    have h1 := hle hi
    have h2 := hle hj
    exact hdata a (by omega) (by omega) ha1
  obtain ⟨hnode, hself, hno⟩ := hw.node_edit hr ht
  have hsector : ∀ k < 13, ((s'.view part).node d).iSectors k =
      if k = 12 then blockAddr part i else (s.inode h).iSectors k := fun k hk => by
    rw [hself, stored_iSectors hk, hb.sectors]
  have h140 : (s'.view part).slot d 140 = blockAddr part i := by
    rw [View.slot_table, hsector 12 (by omega), if_pos rfl]
  have hslot : ∀ k, 12 ≤ k → k < 140 → (s'.view part).slot d k = b k := by
    intro k h1 h2
    rw [View.slot_of_ge h1 h2, hsector 12 (by omega), if_pos rfl, if_neg (blockAddr_ne_zero hi),
      view_data (hle hi), toWords_sector (by omega), hb.disk, Disk.write_one_of_ne hne.symm,
      hb.table k h1]
  have h12 : (s'.view part).slot d 12 = blockAddr part j :=
    (hslot 12 (Nat.le_refl _) (by omega)).trans hb.first
  refine ⟨ht, hb.slices, 12, 0, .of_table hw.own hw.live (hw.full (Nat.le_refl _) hb.full) hnode hno
    ?_ (fun k hk => ?_) (fun k h1 h2 => ?_) ?_ ?_ (fun w hw' => ?_) (fun a h1 h2 => ?_)
    fun k hk => ?_⟩
  · rw [hself, node_cached hw.cache hw.mem hw.no hw.lt]
    exact hsize
  · rw [hsector k (by omega), if_neg (by omega), hw.iSectors (by omega)]
  · rw [hslot k (by omega) h2, hb.later k h1]
  · rw [h12, h140]
    exact fun he => hji (blockAddr_inj hj hi he)
  · rintro k (rfl | rfl)
    · have hclear := hb.clear'
      rw [bit_bitmapSet_of_ne true hji] at hclear
      rw [h12]
      refine ⟨⟨j, hj, rfl, hclear⟩, j, hj, rfl, ?_⟩
      rw [view_used, hb.bitmap, bit_bitmapSet_self]
    · rw [h140]
      refine ⟨⟨i, hi, rfl, hb.clear⟩, i, hi, rfl, ?_⟩
      rw [view_used, hb.bitmap, bit_bitmapSet_of_ne true hji.symm, bit_bitmapSet_self]
  · exact used_of_set (s := { s with blockBitmap := bitmapSet s.blockBitmap i true }) hb.bitmap
      (used_of_set rfl hw')
  · rw [h12] at h1
    rw [h140] at h2
    exact view_data_eq fun ha => hdata a h1 h2 (by omega)
  · rw [View.cell, h12, view_data (hle hj), hb.disk, cell_sector_write hk, cell_splice, cell_zero]

end

/-- **`sync_dir_entry`**, as a change of the view. -/
theorem syncDirEntry_post (hw : Working part L s h d) (hlen : BlockLen part s) :
    post (syncDirEntry part h e) (fun ok s' => ok = true ∧ rest h s' = rest h s ∧
      BlockLen part s' ∧ Added part s s' d e) s := by
  refine (((blind_rest h).syncDirEntry e).and (syncDirEntry_written hlen)).mono ?_ fun _ h => h
  rintro ok s' ⟨⟨hok, hsize, hwritten⟩, hr⟩
  refine ⟨hok, hr, (rest_blockLen hr).trans hlen, ?_⟩
  cases hwritten with
  | place hp => exact hp.added hw hr hsize
  | block hb => exact hb.added hw hr hsize
  | table ht => exact ht.added hw hr hsize

end

/-! ### Entries that count -/

/-- The code looks at no more of an entry than its own bytes. -/
theorem counts_entryAt (b : Buf) (i : ℕ) : (entryAt b i).counts = (X86Os.cell b i).counts := by
  rw [X86Os.cell, DirEntry.counts, DirEntry.counts, strEq_trunc (by decide),
    strEq_trunc (by decide)]
  rfl

theorem mem_matching {b : Buf} {w : Word} {i : ℕ} : i ∈ matching part b w ↔
    i < 21 ∧ (X86Os.cell b i).counts = true ∧ (X86Os.cell b i).iNo = w := by
  rw [matching, dirEntrysPerSec_eq, List.mem_filter, List.mem_range, counts_entryAt,
    Bool.and_eq_true, beq_iff_eq]
  rfl

theorem eq_of_dirEntryCnt {b : Buf} (h : dirEntryCnt part b = 1) {i j : ℕ}
    (hi : i < 21) (hj : j < 21)
    (hci : (X86Os.cell b i).counts = true) (hcj : (X86Os.cell b j).counts = true) : i = j := by
  have hmem : ∀ {k}, k < 21 → (X86Os.cell b k).counts = true →
      k ∈ (List.range (dirEntrysPerSec part)).filter fun i => (entryAt b i).counts := by
    intro k hk hc
    rw [List.mem_filter, dirEntrysPerSec_eq, List.mem_range, counts_entryAt]
    exact ⟨hk, hc⟩
  obtain ⟨a, ha⟩ := List.length_eq_one_iff.1 h
  have h1 := hmem hi hci
  have h2 := hmem hj hcj
  rw [ha, List.mem_singleton] at h1 h2
  rw [h1, h2]

end

end X86Os
