import X86Os.Fs.Balanced
import X86Os.Fs.DirDelete
import X86Os.Fs.Reclaim

/-!
# The deletion of a file

`sys_unlink` takes the entry of a file out of its directory, gives the blocks and the number of the
file back, and closes the directory. `Removed` says that this is all: the directory lists the same
entries but for one, on the disk as well, and every other file and directory is what it was, with
its blocks.

The directory is written to the record with its number modulo 256. With a number from 256 on the
record of the directory stays what it was, and that of another inode is lost; if this is the file
itself, its deletion fails an assertion.
-/

namespace X86Os

open X86Os.Comp FsState

/-- The root directory has block 0, and no entry but the first two of a directory is called `.` or
`..`. -/
structure Tidy (part : Partition) (G : Tree) (v : View) : Prop where
  first : v.slot 0 0 = blockAddr part 0
  counts : ∀ d ∈ G.live, G.kind d = .directory → ∀ k i, v.IsChild d k i →
    (v.cell d k i).counts = true

/-- **File `m` was removed from directory `d`**, and everything else is as it was: the other entries
of the directory, the other inodes with what is in their blocks, and how often each is open. -/
structure Removed (part : Partition) (s s' : FsState) (d m : ℕ) : Prop where
  number : ∀ n, s'.inodeBitmap.bit n = true ↔ s.inodeBitmap.bit n = true ∧ n ≠ m
  entries : (s'.view part).entries d = withoutEntry (BitVec.ofNat 32 m) ((s.view part).entries d)
  size : ((s'.view part).node d).iSize = ((s.view part).node d).iSize - 24
  record : (Inode.ofRecord (inodeRecord part s'.disk d)).stored = (s'.view part).node d
  others : ∀ n < 4096, s.inodeBitmap.bit n = true → n ≠ d → n ≠ m →
    View.SameAt (s.view part) (s'.view part) n
  used : ∀ n < 4096, s.inodeBitmap.bit n = true → n ≠ m → ∀ k ≤ 140,
    (s'.view part).slot n k ≠ 0 → (s'.view part).Used part ((s'.view part).slot n k)
  balance : Balance s [] s'

section

variable {part : Partition} {G : Tree} {s s' s0 s1 : FsState} {h k i n d m k0 i0 : ℕ} {dir : Dir}

/-! ### The directory -/

theorem Working.addr_eq {L : Finset ℕ} (hw : Working part L s h n) (hk : k ≤ 140) :
    s.addr h k = (s.view part).slot n k := (hw.slot_object hk).symm

theorem Working.block_eq {L : Finset ℕ} (hw : Working part L s h n) (hk : k ≤ 140)
    (h0 : (s.view part).slot n k ≠ 0) :
    s.block h k = (s.view part).data ((s.view part).slot n k).toNat := by
  rw [FsState.block, hw.addr_eq hk, hw.data_slot hk h0]

section

variable (hs : Sound part G s) (ho : ObjectOf G s h d) (hk : G.kind d = .directory)

include hs ho hk

/-- A directory of the tree is what `delete_dir_entry` takes it to be. -/
theorem Sound.dirBlocks (hd : BlocksOnDisk part G s) (ht : Tidy part G (s.view part)) :
    DirBlocks part s h := by
  have hw := hs.working ho
  have hdir := hs.inv.dirs d ho.live hk
  refine ⟨fun k hk1 h0 => ?_, fun j hj k hk1 h0 he => ?_, fun k hk1 => ?_, ?_,
    fun k hk1 h0 e he hc => ?_, ?_⟩
  · rw [hw.addr_eq hk1] at h0 ⊢
    exact hs.inv.own.used ho.live hk1 h0
  · rw [hw.addr_eq hj] at h0 he
    rw [hw.addr_eq hk1] at he
    exact (hs.inv.own.inj ho.live ho.live hj hk1 h0 he).2
  · rw [hw.addr_eq hk1]
    exact hd d ho.live k hk1
  · rw [hw.block_eq (by omega) hdir.first, isDirFirstBlock, dirEntrysPerSec_eq, List.any_eq_true]
    refine ⟨0, by decide, ?_⟩
    rw [Bool.and_eq_true, bne_iff_ne, ← strEq_trunc (show dot.length < 16 by decide)]
    refine ⟨?_, hdir.dot.name⟩
    have hcode := hdir.dot.fType
    intro hz
    exact absurd (hcode.symm.trans hz) (by decide)
  · rw [hw.addr_eq (by omega)] at h0
    rw [hw.block_eq (by omega) h0] at he
    obtain ⟨i, hi, rfl, hti⟩ := mem_sectorEntries.1 he
    by_contra hne
    have := ht.counts d ho.live hk k i ⟨hk1, hi, fun h => absurd h hne, h0, hti⟩
    rw [View.cell, hc] at this
    cases this
  · rw [hs.entries_eq ho, hs.iSize_object ho]
    exact hs.inv.entries_le ho.live hk

/-- An entry is the only one with its number. -/
theorem Sound.hasNumber (hc : (s.view part).IsChild d k0 i0)
    (hcounts : ((s.view part).cell d k0 i0).counts = true) :
    HasNumber s h ((s.view part).cell d k0 i0).iNo (k0, i0) ∧
      ∀ x, HasNumber s h ((s.view part).cell d k0 i0).iNo x → x = (k0, i0) := by
  have hw := hs.working ho
  have hdir := hs.inv.dirs d ho.live hk
  have hcell : ∀ {k i}, k < 140 → s.addr h k ≠ 0 →
      cell (s.block h k) i = (s.view part).cell d k i := fun {k i} hk1 h0 => by
    rw [hw.addr_eq (by omega)] at h0
    rw [hw.block_eq (by omega) h0, View.cell]
  have h0 : s.addr h k0 ≠ 0 := by
    rw [hw.addr_eq (Nat.le_of_lt hc.block)]
    exact hc.slot
  refine ⟨⟨hc.block, hc.entry, h0, ?_, ?_⟩, fun x hx => ?_⟩
  · rw [hcell hc.block h0]
    exact hcounts
  · rw [hcell hc.block h0]
  · obtain ⟨k, i⟩ := x
    have hxc := hx.counts
    have hxn := hx.no
    rw [hcell hx.block hx.addr] at hxc hxn
    have hslot := hx.addr
    rw [hw.addr_eq (Nat.le_of_lt hx.block)] at hslot
    -- the first two entries do not count
    have hlater : k = 0 → 2 ≤ i := by
      rintro rfl
      by_contra hlt
      rw [DirEntry.counts] at hxc
      rcases (by omega : i = 0 ∨ i = 1) with rfl | rfl
      · rw [hdir.dot.name] at hxc
        simp at hxc
      · rw [hdir.dotDot.name] at hxc
        simp at hxc
    have := hdir.uniq k i k0 i0 ⟨hx.block, hx.entry, hlater, hslot, fType_of_counts hxc⟩ hc hxn
    exact Prod.ext this.1 this.2

end

/-! ### The file -/

/-- The blocks of an inode are in its places. -/
theorem exists_slot (hn : n < 4096) (hown : Own part G.live (s.view part)) (hlive : n ∈ G.live)
    {w : Word} (hw : w ∈ blockRefs (yields part s n) s.disk) :
    ∃ k ≤ 140, (s.view part).slot n k = w ∧ w ≠ 0 := by
  have hnode : (s.view part).node n = (yields part s n).stored := if_pos hn
  have hsec : ∀ k < 13, ((s.view part).node n).iSectors k = (yields part s n).iSectors k :=
    fun k hk => by rw [hnode, stored_iSectors hk]
  obtain ⟨h0, ⟨k, hk, he⟩ | ⟨ht, k, hk, he⟩⟩ := mem_blockRefs.1 hw
  · rcases Nat.lt_succ_iff_lt_or_eq.1 hk with hlt | rfl
    · exact ⟨k, by omega, by rw [View.slot_of_lt hlt, hsec k hk, he], h0⟩
    · exact ⟨140, by omega, by rw [View.slot_table, hsec 12 hk, he], h0⟩
  · have htab : (s.view part).slot n 140 = (yields part s n).iSectors 12 := by
      rw [View.slot_table, hsec 12 (by omega)]
    refine ⟨k + 12, by omega, ?_, h0⟩
    rw [View.slot_of_ge (by omega) (by omega), hsec 12 (by omega), if_neg ht, ← htab,
      view_data (hown.used hlive (by omega) (htab ▸ ht)).le_toNat, htab, Nat.add_sub_cancel, ← he]
    exact toWords_sector hk

theorem foundInode_eq (hn : n < 4096) :
    foundInode part s (BitVec.ofNat 32 n) = yields part s n := by
  rw [foundInode, toNat_ofNat hn]
  rfl

/-- The deletion of an entry leaves the inodes of other numbers alone, but for the record that is
overwritten. -/
theorem Deleted.yields_eq (hdel : Deleted part s s1 h k0 i0) (hn : n < 4096)
    (hno : (s.inode h).iNo ≠ BitVec.ofNat 32 n)
    (hslot : Uncached s n → n ≠ (s.inode h).iNo.toNat % 256) :
    yields part s1 n = yields part s n := by
  have hopen : s1.openInodes = s.openInodes := (congrArg FsState.openInodes hdel.frame :)
  have hiNo : ∀ k, (s1.inode k).iNo = (s.inode k).iNo := fun k => by
    by_cases hk : k = h
    · rw [hk, hdel.iNo]
    · rw [hdel.objects k hk]
  simp only [yields, hopen, hiNo]
  cases hf : s.openInodes.find? fun k => (s.inode k).iNo == BitVec.ofNat 32 n with
  | none =>
    refine hdel.records n hn (hslot fun k hk hkn => ?_)
    exact List.find?_eq_none.1 hf k hk (beq_iff_eq.2 hkn)
  | some k =>
    refine hdel.objects k fun hk => hno ?_
    rw [← hk]
    exact beq_iff_eq.1 (List.find?_some hf :)

/-- The blocks of a file, when the entry is gone. -/
theorem Deleted.bitBlock (hs : Sound part G s) (ho : ObjectOf G s h d)
    (hdel : Deleted part s s1 h k0 i0) (hk0 : k0 < 140) (hd : BlocksOnDisk part G s)
    (ht : Tidy part G (s.view part)) (hm : m ∈ G.live) (hm0 : m ≠ 0) (hmd : m ≠ d) :
    blockRefs (yields part s m) s1.disk = blockRefs (yields part s m) s.disk ∧
      ∀ w ∈ blockRefs (yields part s m) s.disk, BitBlock part w := by
  have hown := hs.inv.own
  have hw := hs.working ho
  have htab : (s.view part).slot m 140 = (yields part s m).iSectors 12 := by
    rw [View.slot_table, show (s.view part).node m = (yields part s m).stored from
      if_pos (hs.lt hm), stored_iSectors (by omega)]
  constructor
  · by_cases h0 : (yields part s m).iSectors 12 = 0
    · rw [blockRefs, blockRefs, if_pos h0, if_pos h0]
    · rw [← htab] at h0
      rw [blockRefs, blockRefs, ← htab, hdel.data _ (hown.used hm (by omega) h0).le_toNat
        fun he => ?_]
      -- the file has no block of the directory
      rw [hw.addr_eq (by omega)] at he
      exact hmd (hown.inj hm ho.live (by omega) (by omega) h0 (BitVec.toNat_inj.1 he)).1
  · intro w hmem
    obtain ⟨k, hk, rfl, h0⟩ := exists_slot (hs.lt hm) hown hm hmem
    obtain ⟨j, hj, he, -⟩ := hown.used hm hk h0
    refine ⟨hd m hm k hk, j, Nat.pos_of_ne_zero ?_, hj, he⟩
    rintro rfl
    exact hm0 (hown.inj hm hs.inv.tree.root hk (Nat.zero_le _) h0 (he.trans ht.first.symm)).1

/-! ### Closing and releasing -/

/-- Closing the directory leaves what the release has done. -/
theorem dirClose_released {E : Fault → Prop} {inode : Inode} (hf : ReleaseFrame part s s1 n)
    (hr : ReleasedExactly part s s1 inode n) :
    wp (dirClose dir) (fun _ s' => ReleaseFrame part s s' n ∧ ReleasedExactly part s s' inode n) E
      s1 := by
  rw [dirClose]
  split
  · exact ⟨hf, hr⟩
  refine inodeClose_bitmaps fun s' hdisk hblock hinode hpure => ?_
  have hslice : ∀ {t j}, SliceOk part s1 t j → SliceOk part s' t j := fun {t j} h => by
    refine h.of_eq ?_ (by rw [hdisk])
    cases t with
    | inodeBitmap => exact hinode
    | blockBitmap => exact hblock
  refine ⟨⟨fun k hk => (hpure k).trans (hf.objects k hk), ?_, ?_⟩, ?_, ?_, fun j hj =>
    hslice (hr.blocksSynced j hj), hslice hr.inodesSynced⟩
  · rw [hdisk]
    exact hf.data
  · rw [hdisk]
    exact hf.records
  · rw [hblock]
    exact hr.blocks
  · rw [hinode]
    exact hr.inodes

/-- An inode with another number in its record is not released. -/
theorem inodeRelease_panics {Q : Unit → FsState → Prop} {E : Fault → Prop} (hn : n < 4096)
    (hE : (∃ k < 3, s.mallocs k = false) → E .wild) (hpanic : E (.panic .inodeRelease))
    (hno : (yields part s n).iNo ≠ BitVec.ofNat 32 n) :
    wp (inodeRelease part (BitVec.ofNat 32 n)) Q E s := by
  rw [inodeRelease, wp_bind]
  refine (inodeOpen_found hn hE).mono (fun k s1 hf => ?_) fun _ h => h
  rw [wp_bind, wp_get, wp_bind, wp_ASSERT]
  refine ⟨fun he => absurd ?_ hno, fun _ => hpanic⟩
  rw [← foundInode_eq hn, ← hf.iNo]
  exact beq_iff_eq.1 he

/-- A file is neither the directory nor the root. -/
theorem HoldsDir.file_ne (hs : HoldsDir part G s0 [] s dir d) (hkm : G.kind m = .regular) :
    m ≠ d ∧ m ≠ 0 := by
  constructor
  · rintro rfl
    rw [hs.dir] at hkm
    cases hkm
  · rintro rfl
    rw [hs.sound.inv.tree.kind_root] at hkm
    cases hkm

/-! ### What is left -/

/-- The objects at the end of a call are those that it began with. -/
theorem Session.later {held : List ℕ} (hs : Session part G s0 held s) (hb : Balance s0 [] s')
    (hk : k ∈ s'.openInodes) :
    k ∈ s.openInodes ∧ k < s.inodeTop ∧ (s'.inode k).iNo = (s.inode k).iNo := by
  have hk0 : k ∈ s0.openInodes := by
    by_contra hn
    exact List.not_mem_nil (hb.new k hk hn).1
  have hlt := hb.old k hk0
  exact ⟨hs.balance.stay k hk0 (hs.start k hk0), hlt.trans_le hs.balance.top,
    (hb.fixed k hlt).1.trans (hs.balance.fixed k hlt).1.symm⟩

theorem Session.cacheOk {held : List ℕ} (hs : Session part G s0 held s) (hb : Balance s0 [] s') :
    CacheOk G.live s' where
  nodup := hb.list.1
  lt := hb.list.2
  no k hk := by
    obtain ⟨hk1, -, he⟩ := hs.later hb hk
    rw [he]
    exact hs.sound.cache.no k hk1
  inj k hk j hj he := by
    obtain ⟨hk1, -, hek⟩ := hs.later hb hk
    obtain ⟨hj1, -, hej⟩ := hs.later hb hj
    exact hs.sound.cache.inj k hk1 j hj1 (hek.symm.trans (he.trans hej))

theorem stored_of_pure {i j : Inode} (h : pureInode i = pureInode j) : i.stored = j.stored := by
  refine stored_congr ?_ ?_ fun k _ => ?_
  · exact show (pureInode i).iNo = (pureInode j).iNo by rw [h]
  · exact show (pureInode i).iSize = (pureInode j).iSize by rw [h]
  · exact show (pureInode i).iSectors k = (pureInode j).iSectors k by rw [h]

section

variable (hs : HoldsDir part G s0 [] s dir d) (hd : BlocksOnDisk part G s)
  (ht : Tidy part G (s.view part)) (hm : m ∈ G.live) (hmd : m ≠ d)
  (hc : (s.view part).IsChild d k0 i0) (hno : ((s.view part).cell d k0 i0).iNo = BitVec.ofNat 32 m)
  (hdel : Deleted part s s1 dir.inode k0 i0) (hf : ReleaseFrame part s1 s' m)
  (hb : Balance s0 [] s')

include hs hdel hf hb

/-- **The other inodes.** -/
theorem Deleted.node_eq (hd2 : d < 256) (hn : n < 4096) (hnd : n ≠ d) (hnm : n ≠ m) :
    (s'.view part).node n = (s.view part).node n := by
  have htop : s1.inodeTop = s.inodeTop := (congrArg FsState.inodeTop hdel.frame :)
  have hobj : (s.inode dir.inode).iNo.toNat % 256 = d := by
    rw [hs.obj.no, hs.sound.toNat hs.obj.live, Nat.mod_eq_of_lt hd2]
  refine X86Os.node_eq hs.sound.cache (hs.cacheOk hb) hn (fun k hk hkn => ?_) fun hun => ⟨?_, ?_⟩
  · have hkd : k ≠ dir.inode := fun h => hnd (eq_of_ofNat hn (hs.sound.lt hs.obj.live)
      (hkn.symm.trans (h ▸ hs.obj.no)))
    refine ⟨?_, ?_⟩
    · -- what the call opened is the directory
      have hk0 : k ∈ s0.openInodes := by
        by_contra hk0
        have hheld := (hs.balance.new k hk hk0).1
        rw [List.append_nil, Dir.held] at hheld
        split at hheld
        · exact List.not_mem_nil hheld
        · exact hkd (List.mem_singleton.1 hheld)
      exact hb.stay k hk0 (hs.start k hk0)
    · refine stored_of_pure ?_
      rw [hf.objects k (htop ▸ hs.sound.cache.lt k hk), hdel.objects k hkd]
  · intro k hk
    obtain ⟨hk1, -, he⟩ := hs.later hb hk
    rw [he]
    exact hun k hk1
  · rw [hf.records n hn hnm, hdel.records n hn (hobj.symm ▸ hnd)]

/-- **The directory**, in memory and on the disk. -/
theorem Deleted.node_dir (hd2 : d < 256) (hmd : m ≠ d) :
    (Inode.ofRecord (inodeRecord part s'.disk d)).stored = (s1.inode dir.inode).stored ∧
      (s'.view part).node d = (s1.inode dir.inode).stored := by
  have hlt := hs.sound.lt hs.obj.live
  have htop : s1.inodeTop = s.inodeTop := (congrArg FsState.inodeTop hdel.frame :)
  have hrec : (Inode.ofRecord (inodeRecord part s'.disk d)).stored =
      (s1.inode dir.inode).stored := by
    have := hdel.record
    rw [hs.obj.no, hs.sound.toNat hs.obj.live, Nat.mod_eq_of_lt hd2] at this
    rw [hf.records d hlt hmd.symm, this]
  refine ⟨hrec, ?_⟩
  by_cases hin : dir.inode ∈ s'.openInodes
  · obtain ⟨-, hk, he⟩ := hs.later hb hin
    rw [node_cached (hs.cacheOk hb) hin (he.trans hs.obj.no) hlt]
    exact stored_of_pure (hf.objects _ (htop ▸ hk))
  · rw [node_uncached (fun k hk hkd => hin ?_) hlt, hrec]
    obtain ⟨hk1, -, he⟩ := hs.later hb hk
    rwa [← hs.sound.cache.inj k hk1 _ hs.obj.mem ((he.symm.trans hkd).trans hs.obj.no.symm)]

/-- The other inodes, with what is in their blocks. -/
theorem Deleted.sameAt (hk0 : k0 < 140) (hd2 : d < 256) (hn : n ∈ G.live) (hnd : n ≠ d)
    (hnm : n ≠ m) : View.SameAt (s.view part) (s'.view part) n := by
  refine ⟨hdel.node_eq hs hf hb hd2 (hs.sound.lt hn) hnd hnm,
    fun k hk h0 => view_data_eq fun ha => ?_⟩
  rw [hf.data _ ha, hdel.data _ ha fun he => ?_]
  rw [(hs.sound.working hs.obj).addr_eq (by omega)] at he
  exact hnd (hs.sound.inv.own.inj hn hs.obj.live hk (by omega) h0 (BitVec.toNat_inj.1 he)).1

section

variable (hblocks : DirBlocks part s dir.inode)
  (hx : HasNumber s dir.inode (BitVec.ofNat 32 m) (k0, i0))

include hblocks hx

omit hf hb in
/-- A block that the directory still has is where it was. -/
theorem Deleted.place_eq (hk : k ≤ 140) (h0 : s1.addr dir.inode k ≠ 0) :
    s1.addr dir.inode k = (s.view part).slot d k := by
  rcases hdel.addr_eq hblocks hx k with he | ⟨-, he, -⟩
  · rw [he, (hs.sound.working hs.obj).addr_eq hk]
  · exact absurd he h0

omit hb in
/-- The sector of a block that the directory still has. -/
theorem Deleted.data_dir (hk : k ≤ 140) (h0 : s1.addr dir.inode k ≠ 0) :
    (s'.view part).data (s1.addr dir.inode k).toNat = s1.block dir.inode k := by
  have hle : part.sb.dataStartLba ≤ (s1.addr dir.inode k).toNat := by
    have he := hdel.place_eq hs hblocks hx hk h0
    rw [he] at h0 ⊢
    exact (hs.sound.inv.own.used hs.obj.live hk h0).le_toNat
  rw [view_data hle, Disk.sector_congr (hf.data _ hle)]
  rfl

theorem Deleted.slot_dir (hd2 : d < 256) (hmd : m ≠ d) (k : ℕ) :
    (s'.view part).slot d k = s1.addr dir.inode k := by
  have hnode := (hdel.node_dir hs hf hb hd2 hmd).2
  have htab : s1.addr dir.inode 140 = (s1.inode dir.inode).iSectors 12 := by
    rw [addr, slotAddr, if_neg (by omega), if_pos rfl]
  rw [View.slot, hnode, addr, slotAddr, slotAddr, stored_iSectors (show 12 < 13 by omega)]
  by_cases hk : k < 12
  · rw [if_pos hk, if_pos hk, stored_iSectors (by omega)]
  rw [if_neg hk, if_neg hk]
  by_cases h0 : (s1.inode dir.inode).iSectors 12 = 0
  · rw [if_pos h0, if_pos h0]
  · have hdata := hdel.data_dir hs hf hblocks hx (Nat.le_refl 140) (htab ▸ h0)
    rw [block, htab] at hdata
    rw [hdata]

/-- The entries of the directory. -/
theorem Deleted.entries_dir (hd2 : d < 256) (hmd : m ≠ d)
    (huniq : ∀ x, HasNumber s dir.inode (BitVec.ofNat 32 m) x → x = (k0, i0)) :
    (s'.view part).entries d = withoutEntry (BitVec.ofNat 32 m) ((s.view part).entries d) := by
  rw [← hs.sound.entries_eq hs.obj, ← hdel.liveEntries_eq hblocks hx huniq, X86Os.liveEntries_eq]
  refine List.flatMap_congr fun k hk => ?_
  rw [hdel.slot_dir hs hf hb hblocks hx hd2 hmd k]
  by_cases h0 : s1.addr dir.inode k = 0
  · rw [if_pos h0, if_pos h0]
  · rw [if_neg h0, if_neg h0,
      hdel.data_dir hs hf hblocks hx (Nat.le_of_lt (List.mem_range.1 hk)) h0]

/-- The blocks that are left have their bits. -/
theorem Deleted.used (hr : ReleasedExactly part s1 s' (yields part s m) m)
    (hrefs : blockRefs (yields part s m) s1.disk = blockRefs (yields part s m) s.disk)
    (hd2 : d < 256) (hm : m ∈ G.live) (hmd : m ≠ d) (hn : n ∈ G.live) (hnm : n ≠ m) (hk : k ≤ 140)
    (h0 : (s'.view part).slot n k ≠ 0) : (s'.view part).Used part ((s'.view part).slot n k) := by
  have hown := hs.sound.inv.own
  have hslot := hdel.slot_dir hs hf hb hblocks hx hd2 hmd
  -- the block is one that the inode had
  have hold : (s'.view part).slot n k = (s.view part).slot n k := by
    by_cases hnd : n = d
    · subst hnd
      rw [hslot k] at h0 ⊢
      exact hdel.place_eq hs hblocks hx hk h0
    · exact (hdel.sameAt hs hf hb hx.block hd2 hn hnd hnm).slot k
  rw [hold] at h0
  obtain ⟨j, hj, he, hused⟩ := hown.used hn hk h0
  refine ⟨j, hj, hold.trans he, (hr.blocks j).2 ⟨(hdel.bit_iff hblocks hx hj).2 ⟨hused, ?_⟩, ?_⟩⟩
  · rintro ⟨k', hk', he'⟩
    rw [(hs.sound.working hs.obj).addr_eq hk'] at he'
    obtain ⟨rfl, rfl⟩ := hown.inj hn hs.obj.live hk hk' h0 (he.trans he'.symm)
    exact ⟨k, hk, by rw [← hslot k, hold, he]⟩
  · rintro ⟨-, hmem⟩
    rw [hrefs] at hmem
    obtain ⟨k', hk', he', -⟩ := exists_slot (hs.sound.lt hm) hown hm hmem
    exact hnm (hown.inj hn hm hk hk' h0 (he.trans he'.symm)).1

end

include hd ht hc hno hm hmd

/-- **The file is gone, and nothing else.** -/
theorem Deleted.removed (hr : ReleasedExactly part s1 s' (yields part s m) m) (hd2 : d < 256)
    (hm0 : m ≠ 0) : Removed part s0 s' d m := by
  have hlive : ∀ n < 4096, s0.inodeBitmap.bit n = true → n ∈ G.live := fun n hn hbit => by
    rw [← inodeBitmap_of_tables hs.same] at hbit
    exact (hs.sound.bits n hn).1 hbit
  have hblocks := hs.sound.dirBlocks hs.obj hs.dir hd ht
  obtain ⟨hx, huniq⟩ := hs.sound.hasNumber hs.obj hs.dir hc
    (ht.counts d hs.obj.live hs.dir k0 i0 hc)
  rw [hno] at hx huniq
  obtain ⟨hrefs, -⟩ := hdel.bitBlock hs.sound hs.obj hx.block hd ht hm hm0 hmd
  obtain ⟨hrec, hnode⟩ := hdel.node_dir hs hf hb hd2 hmd
  refine ⟨fun n => ?_, ?_, ?_, hrec.trans hnode.symm, fun n hn hbit hnd hnm => ?_,
    fun n hn hbit hnm k hk h0 => ?_, hb⟩
  · rw [hr.inodes n, ← inodeBitmap_of_tables hs.same]
    rw [show s1.inodeBitmap = s.inodeBitmap from (congrArg FsState.inodeBitmap hdel.frame :)]
  · rw [← hs.view]
    exact hdel.entries_dir hs hf hb hblocks hx hd2 hmd huniq
  · rw [hnode, ← hs.view, ← hs.sound.iSize_object hs.obj]
    exact hdel.size
  · rw [← hs.view]
    exact hdel.sameAt hs hf hb hx.block hd2 (hlive n hn hbit) hnd hnm
  · exact hdel.used hs hf hb hblocks hx hr hrefs hd2 hm hmd (hlive n hn hbit) hnm hk h0

end

/-! ### The run -/

section

variable (hs : HoldsDir part G s0 [] s dir d) (hd : BlocksOnDisk part G s0)
  (ht : Tidy part G (s0.view part)) (hm : m ∈ G.live) (hkm : G.kind m = .regular)
  (hc : (s0.view part).IsChild d k0 i0)
  (hno : ((s0.view part).cell d k0 i0).iNo = BitVec.ofNat 32 m)

include hs hd ht hm hkm hc hno

/-- **`sys_unlink` of a file that was found.** -/
theorem unlinkFile_cases {Q : Int → FsState → Prop} {E : Fault → Prop} {path : List Byte}
    (hE : NoMemory s0 → E .wild) (hpanic : 256 ≤ d → E (.panic .inodeRelease))
    (hhang : 12 ≤ k0 → dirEntryCnt part (s.block dir.inode k0) = 1 → E .hang)
    (hfail : ∀ s', NoMemory s0 → Session part G s0 [] s' → Q (-1) s')
    (hQ : (12 ≤ k0 → dirEntryCnt part (s.block dir.inode k0) ≠ 1) → ∀ s1 s',
      Deleted part (s.afterMallocs 1) s1 dir.inode k0 i0 → ReleaseFrame part s1 s' m →
      ReleasedExactly part s1 s' (yields part s m) m → Q 0 s') :
    wp (unlinkFile part (BitVec.ofNat 32 m) ⟨path, dir, .regular⟩) Q E s := by
  have hm4 := hs.sound.lt hm
  obtain ⟨hmd, hm0⟩ := hs.file_ne hkm
  rw [unlinkFile, wp_bind, wp_sysMalloc]
  split
  swap
  · rename_i hgot
    exact (hs.toSession.afterMallocs 1).fail fun s' =>
      hfail s' (hs.noMemory (Bool.eq_false_iff.2 hgot))
  change wp _ _ _ (s.afterMallocs 1)
  have hs1 := hs.afterMallocs 1
  rw [← hs1.view] at hc hno ht
  have hd1 : BlocksOnDisk part G (s.afterMallocs 1) := by
    rw [BlocksOnDisk, hs1.view]
    exact hd
  have hblocks := hs1.sound.dirBlocks hs1.obj hs1.dir hd1 ht
  obtain ⟨hx, huniq⟩ := hs1.sound.hasNumber hs1.obj hs1.dir hc
    (ht.counts d hs1.obj.live hs1.dir k0 i0 hc)
  rw [hno] at hx huniq
  have hobj : ((s.afterMallocs 1).inode dir.inode).iNo.toNat = d := by
    rw [hs1.obj.no, hs1.sound.toNat hs1.obj.live]
  rw [wp_bind]
  refine deleteDirEntry_wp hblocks hx huniq hhang fun hlast s2 hdel _ => ?_
  have hmalloc : (∃ k < 3, s2.mallocs k = false) → NoMemory s0 := by
    rintro ⟨k, -, hk⟩
    refine hs1.noMemory (k := k) ?_
    rw [← hk]
    exact (congrFun (congrArg FsState.mallocs hdel.frame) k).symm
  have hne : ((s.afterMallocs 1).inode dir.inode).iNo ≠ BitVec.ofNat 32 m := fun he =>
    hmd (hs1.sound.inj hm hs1.obj.live (he.symm.trans hs1.obj.no))
  rw [wp_bind]
  by_cases hslot : Uncached (s.afterMallocs 1) m → m ≠ d % 256
  · have hy := hdel.yields_eq hm4 hne (hobj.symm ▸ hslot)
    obtain ⟨hrefs, hbits⟩ := hdel.bitBlock hs1.sound hs1.obj hc.block hd1 ht hm hm0 hmd
    refine (inodeRelease_wp hm4 ?_ fun w hw => hbits w ?_).mono ?_ fun e he =>
      he.1 ▸ hE (hmalloc he.2)
    · rw [foundInode_eq hm4, hy]
      have := hs1.sound.inv.no m hm
      rwa [show ((s.afterMallocs 1).view part).node m = _ from if_pos hm4] at this
    · rwa [foundInode_eq hm4, hy, hrefs] at hw
    · rintro _ s3 ⟨hf, hr⟩
      rw [foundInode_eq hm4, hy] at hr
      rw [wp_bind]
      exact (dirClose_released hf hr).mono (fun _ s' h => hQ hlast s2 s' hdel h.1 h.2) fun _ h => h
  · -- the directory was written to the record of the file
    obtain ⟨hun, he⟩ := Classical.not_imp.1 hslot
    have he := not_not.1 he
    refine inodeRelease_panics hm4 (fun h => hE (hmalloc h)) (hpanic (by omega)) fun hcon => hne ?_
    have hopen : s2.openInodes = (s.afterMallocs 1).openInodes :=
      (congrArg FsState.openInodes hdel.frame :)
    have hun2 : Uncached s2 m := fun k hk => by
      by_cases hkd : k = dir.inode
      · rw [hkd, hdel.iNo]
        exact hne
      · rw [hdel.objects k hkd]
        exact hun k (hopen ▸ hk)
    rw [yields_uncached hun2] at hcon
    have hrec := hdel.record
    rw [hobj, ← he] at hrec
    rw [← hdel.iNo, ← iNo_of_stored hrec, hcon]


/-- **The deletion of a file.** -/
theorem unlinkFile_removes {path : List Byte} (hd2 : d < 256)
    (hlast : 12 ≤ k0 → dirEntryCnt part (s.block dir.inode k0) ≠ 1) :
    wp (unlinkFile part (BitVec.ofNat 32 m) ⟨path, dir, .regular⟩)
      (fun r s' => r = 0 ∧ Removed part s0 s' d m ∨ r = -1 ∧ Session part G s0 [] s')
      (fun _ => NoMemory s0) s := by
  have hs1 := hs.afterMallocs 1
  have hd1 : BlocksOnDisk part G (s.afterMallocs 1) := by
    rw [BlocksOnDisk, hs1.view]
    exact hd
  have hwp : wp (unlinkFile part (BitVec.ofNat 32 m) ⟨path, dir, .regular⟩) (fun r s' =>
      r = 0 ∧ (Balance s0 [] s' → Removed part s0 s' d m) ∨ r = -1 ∧ Session part G s0 [] s')
      (fun _ => NoMemory s0) s := by
    refine unlinkFile_cases hs hd ht hm hkm hc hno id (fun h => absurd hd2 (Nat.not_lt.2 h))
      (fun h12 hone => absurd hone (hlast h12)) (fun s' _ hs' => .inr ⟨rfl, hs'⟩)
      fun _ s2 s' hdel hf hr => .inl ⟨rfl, fun hb => ?_⟩
    rw [← hs1.view] at hc hno ht
    exact hdel.removed hs1 hd1 ht hm (hs.file_ne hkm).1 hc hno hf hb hr hd2 (hs.file_ne hkm).2
  refine (hwp.and (unlinkFile_balance _ _ s hs.balance)).mono ?_ fun _ h => h
  rintro r s' ⟨⟨hr, hrem⟩ | hfail, hb⟩
  · exact .inl ⟨hr, hrem hb⟩
  · exact .inr hfail

/-- A deletion that returns was none of the last entry of an indirect block; and if the number of
the directory is not below 256, its record is as it was. -/
theorem unlinkFile_returns {path : List Byte} (hmem : ¬ NoMemory s0) :
    post (unlinkFile part (BitVec.ofNat 32 m) ⟨path, dir, .regular⟩) (fun r s' => r = 0 ∧
      (12 ≤ k0 → dirEntryCnt part (s.block dir.inode k0) ≠ 1) ∧
      (256 ≤ d → Inode.ofRecord (inodeRecord part s'.disk d) =
        Inode.ofRecord (inodeRecord part s0.disk d))) s := by
  refine unlinkFile_cases hs hd ht hm hkm hc hno (fun _ => ⟨⟩) (fun _ => ⟨⟩) (fun _ _ => ⟨⟩)
    (fun _ h => absurd h hmem) fun hlast s1 s' hdel hf _ => ⟨rfl, hlast, fun hd2 => ?_⟩
  have hlt := hs.sound.lt hs.obj.live
  have hobj : ((s.afterMallocs 1).inode dir.inode).iNo.toNat = d := by
    rw [show ((s.afterMallocs 1).inode dir.inode).iNo = _ from hs.obj.no,
      hs.sound.toNat hs.obj.live]
  rw [hf.records d hlt (hs.file_ne hkm).1.symm, hdel.records d hlt (by omega),
    ← disk_of_tables hs.same]
  rfl

end

end

end X86Os
