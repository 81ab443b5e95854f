import X86Os.Fs.Format
import X86Os.Fs.Search

/-!
# Reading a directory entry by entry

`dir_read` returns the next entry of a directory. It has no index of where it is on the disk: the
position in `struct dir` counts the bytes of the entries already returned, and each call goes
through the blocks from the start and skips as many entries in use. It gives up when the position
reaches the size of the directory, which it looks at once for each block.

The entries of a directory are those of its blocks in order, leaving out what is not in use. A call
at position `24 * p` returns entry `p` of that list, as long as the size is at least that of all
entries. The invariant of the file system says so: each entry but the first two belongs to a child
of its own, and the size counts the children.

## Main results

* `dirRead_wp` — **what `dir_read` returns**
* `dir_read_enumerates` — what call after call returns
* `FsInv.entries_le` — the size of a directory covers its entries
-/

namespace X86Os

open X86Os.Comp FsState

/-! ### The code -/

section

variable (part : Partition)

/-- The inner loop of `dir_read`, over the entries of a sector, with `left` of them to go: the entry
it stops at, or the position it got to. -/
def readSector (b : Buf) (dirPos : Word) :
    (left : ℕ) → (dirEntryIdx : ℕ) → (curDirEntryPos : Word) → Kern FsState (Option ℕ × Word)
  | 0, _, curDirEntryPos => pure (none, curDirEntryPos)
  | left + 1, dirEntryIdx, curDirEntryPos =>
    if (entryAt b dirEntryIdx).fType ≠ 0 then
      if curDirEntryPos.toNat < dirPos.toNat then
        readSector b dirPos left (dirEntryIdx + 1)
          (curDirEntryPos + BitVec.ofNat 32 part.sb.dirEntrySize)
      else do
        ASSERT .dirRead (curDirEntryPos == dirPos)
        pure (some dirEntryIdx, curDirEntryPos)
    else readSector b dirPos left (dirEntryIdx + 1) curDirEntryPos

/-- The outer loop of `dir_read`, over the blocks. -/
def readBlocks (dirInode : Inode) (dirPos : Word) (allBlocks : ℕ → Word) :
    (left : ℕ) → (blockIdx : ℕ) → (curDirEntryPos : Word) → Kern FsState (Option DirEntry)
  | 0, _, _ => pure none
  | left + 1, blockIdx, curDirEntryPos =>
    if dirInode.iSize.toNat ≤ dirPos.toNat then pure none
    else if allBlocks blockIdx = 0 then
      readBlocks dirInode dirPos allBlocks left (blockIdx + 1) curDirEntryPos
    else do
      let b ← onDisk (ideRead (allBlocks blockIdx).toNat (fun _ => 0) 1)
      match ← readSector part b dirPos (dirEntrysPerSec part) 0 curDirEntryPos with
      | (some i, _) => pure (some (cell b i))
      | (none, curDirEntryPos) =>
        readBlocks dirInode dirPos allBlocks left (blockIdx + 1) curDirEntryPos

/-- `dir_read` of a `struct dir` with the inode at `h` and the position `dirPos`: the entry, or
`none` for a null pointer, and the new position. -/
def dirRead (h : ℕ) (dirPos : Word) : Kern FsState (Option DirEntry × Word) := do
  let s ← get
  let all ← allBlocks (s.inode h)
  let e ← readBlocks part (s.inode h) dirPos all
    (if (s.inode h).iSectors 12 ≠ 0 then 140 else 12) 0 0
  pure (e, if e.isSome then dirPos + BitVec.ofNat 32 part.sb.dirEntrySize else dirPos)

/-- `n` calls of `dir_read` in a row, on a `struct dir` that nothing else uses. -/
def dirReads (h : ℕ) : (n : ℕ) → (dirPos : Word) → Kern FsState (List (Option DirEntry) × Word)
  | 0, dirPos => pure ([], dirPos)
  | n + 1, dirPos => do
    let (e, dirPos) ← dirRead part h dirPos
    let (es, dirPos) ← dirReads h n dirPos
    pure (e :: es, dirPos)

end

/-! ### Entries in use -/

/-- The entries of a sector that are in use. -/
def sectorEntries (b : Buf) : List DirEntry :=
  ((List.range 21).map (cell b)).filter fun e => e.fType != 0

/-- The entries of a directory that are in use. -/
def liveEntries (d : Disk) (inode : Inode) : List DirEntry :=
  (List.range 140).flatMap fun k =>
    if slotAddr inode d.sector k = 0 then []
    else sectorEntries (d.sector (slotAddr inode d.sector k).toNat)

/-- The entries of directory `d` that are in use. -/
def View.entries (v : View) (d : ℕ) : List DirEntry :=
  (List.range 140).flatMap fun k =>
    if v.slot d k = 0 then [] else sectorEntries (v.data (v.slot d k).toNat)

section

variable {part : Partition} {G : Tree} {s : FsState} {h d p : ℕ} {E : Fault → Prop}

/-- **The code reads the entries of the view.** -/
theorem Sound.entries_eq (hs : Sound part G s) (ho : ObjectOf G s h d) :
    liveEntries s.disk (s.inode h) = (s.view part).entries d := by
  refine List.flatMap_congr fun k hk => ?_
  have hk := List.mem_range.1 hk
  have hw := hs.working ho
  rw [← hw.slot_object (by omega)]
  by_cases h0 : (s.view part).slot d k = 0
  · rw [if_pos h0, if_pos h0]
  · rw [if_neg h0, if_neg h0, hw.data_slot (by omega) h0]

/-! ### One call -/

theorem toNat_pos {n : ℕ} (hn : n ≤ 140 * 21) : (BitVec.ofNat 32 (24 * n)).toNat = 24 * n := by
  rw [BitVec.toNat_ofNat, Nat.mod_eq_of_lt (by omega)]

/-- **The entries of a sector.** `c` entries have been skipped before, `l` are the ones to come. -/
theorem readSector_wp {b : Buf} {Q : Option ℕ × Word → FsState → Prop} (hp : p ≤ 140 * 21)
    (left : ℕ) : ∀ {i c : ℕ} {l : List DirEntry},
      ((List.range' i left).map (cell b)).filter (fun e => e.fType != 0) = l → c ≤ p →
      (∀ j cur, l[p - c]? = some (cell b j) → Q (some j, cur) s) →
      (c + l.length ≤ p → Q (none, BitVec.ofNat 32 (24 * (c + l.length))) s) →
      wp (readSector part b (BitVec.ofNat 32 (24 * p)) left i
        (BitVec.ofNat 32 (24 * c))) Q E s := by
  induction left with
  | zero =>
    rintro i c l rfl hc - hnone
    exact hnone hc
  | succ left ih =>
    intro i c l hl hc hsome hnone
    rw [List.range'_succ, List.map_cons, List.filter_cons] at hl
    rw [readSector, toNat_pos hp, toNat_pos (by omega), part.dirEntrySize_eq]
    split
    · rename_i ht
      have hlive : ((cell b i).fType != 0) = true := bne_iff_ne.2 ht
      rw [if_pos hlive] at hl
      subst hl
      split
      · -- an entry that was returned before
        have hnext : BitVec.ofNat 32 (24 * c) + BitVec.ofNat 32 24 =
          BitVec.ofNat 32 (24 * (c + 1)) := by
          rw [← BitVec.ofNat_add]
          rfl
        have hstep : p - c = p - (c + 1) + 1 := by omega
        rw [hnext]
        refine ih rfl (by omega) (fun j cur hj => hsome j cur ?_) fun hle => ?_
        · rw [hstep, List.getElem?_cons_succ]
          exact hj
        · rw [List.length_cons, ← Nat.add_assoc, Nat.add_right_comm] at hnone
          exact hnone hle
      · obtain rfl : c = p := by omega
        rw [wp_bind, wp_ASSERT]
        refine ⟨fun _ => hsome i _ ?_, fun hne => ?_⟩
        · rw [Nat.sub_self]
          rfl
        · simp at hne
    · rename_i ht
      have hdead : ¬ ((cell b i).fType != 0) = true := fun hc => ht (bne_iff_ne.1 hc)
      rw [if_neg hdead] at hl
      exact ih hl hc hsome hnone

/-- **The blocks.** -/
theorem readBlocks_wp {inode : Inode} {blocks : ℕ → Word} {Q : Option DirEntry → FsState → Prop}
    (hp : p ≤ 140 * 21) (left : ℕ) : ∀ {i c : ℕ} {l : List DirEntry},
      ((List.range' i left).flatMap fun k => if blocks k = 0 then []
        else sectorEntries (s.disk.sector (blocks k).toNat)) = l →
      (∀ k, i ≤ k → k < i + left → blocks k ≠ 0 → maxLba < (blocks k).toNat → E (.panic .ideRead)) →
      c ≤ p → 24 * (c + l.length) ≤ inode.iSize.toNat → Q l[p - c]? s →
      wp (readBlocks part inode (BitVec.ofNat 32 (24 * p)) blocks left i (BitVec.ofNat 32 (24 * c)))
        Q E s := by
  induction left with
  | zero =>
    rintro i c l rfl - - - hQ
    exact hQ
  | succ left ih =>
    intro i c l hl hE hc hsize hQ
    rw [List.range'_succ, List.flatMap_cons] at hl
    have hE' : ∀ k, i + 1 ≤ k → k < i + 1 + left → blocks k ≠ 0 → maxLba < (blocks k).toNat →
        E (.panic .ideRead) := fun k h1 h2 => hE k (by omega) (by omega)
    rw [readBlocks, toNat_pos hp]
    split
    · -- the size says that there are no more
      rename_i hend
      rw [List.getElem?_eq_none (by omega)] at hQ
      exact hQ
    split
    · rename_i h0
      rw [if_pos h0, List.nil_append] at hl
      exact ih hl hE' hc hsize hQ
    · rename_i h0
      rw [if_neg h0] at hl
      simp only [wp_bind, wp_onDisk, wp_readSector]
      refine ⟨fun _ => ?_, hE i (Nat.le_refl _) (by omega) h0⟩
      rw [dirEntrysPerSec_eq]
      generalize hb : s.disk.sector (blocks i).toNat = b at hl
      rw [← hl] at hsize hQ
      rw [List.length_append] at hsize
      refine readSector_wp hp 21 (l := sectorEntries b) ?_ hc (fun j cur hj => ?_) fun hle => ?_
      · rw [sectorEntries, List.range_eq_range']
      · rw [List.getElem?_append_left (List.getElem?_eq_some_iff.1 hj).1, hj] at hQ
        exact hQ
      · rw [List.getElem?_append_right (by omega), Nat.sub_sub] at hQ
        exact ih rfl hE' hle (by omega) hQ

theorem length_sectorEntries_le (b : Buf) : (sectorEntries b).length ≤ 21 :=
  (List.length_filter_le _ _).trans (by simp)

theorem length_liveEntries_le (d : Disk) (inode : Inode) :
    (liveEntries d inode).length ≤ 140 * 21 := by
  rw [liveEntries, List.length_flatMap]
  refine (List.sum_le_card_nsmul _ 21 fun n hn => ?_).trans (by simp)
  obtain ⟨k, -, rfl⟩ := List.mem_map.1 hn
  split
  · exact Nat.zero_le _
  · exact length_sectorEntries_le _

/-- Without an indirect table there are twelve blocks. -/
theorem liveEntries_of_direct {d : Disk} {inode : Inode} (h0 : inode.iSectors 12 = 0) :
    liveEntries d inode = (List.range 12).flatMap fun k =>
      if slotAddr inode d.sector k = 0 then []
      else sectorEntries (d.sector (slotAddr inode d.sector k).toNat) := by
  have hsplit : List.range 140 = List.range 12 ++ List.range' 12 128 := by decide
  have hnil : ((List.range' 12 128).flatMap fun k => if slotAddr inode d.sector k = 0 then []
      else sectorEntries (d.sector (slotAddr inode d.sector k).toNat)) = [] := by
    refine List.flatMap_eq_nil_iff.2 fun k hk => ?_
    rw [List.mem_range'_1] at hk
    have hslot : slotAddr inode d.sector k = 0 := by
      rw [slotAddr, if_neg (by omega), if_neg (by omega), if_pos h0]
    rw [if_pos hslot]
  rw [liveEntries, hsplit, List.flatMap_append, hnil, List.append_nil]

/-- Looking up `n` places of a list from its start. -/
theorem getElem?_range_eq {α : Type} (l : List α) (n : ℕ) : (List.range n).map (fun i => l[i]?) =
    (l.take n).map some ++ List.replicate (n - l.length) none := by
  refine List.ext_getElem? fun j => ?_
  simp only [List.getElem?_map, List.getElem?_append, List.length_map, List.length_take,
    List.getElem?_take, List.getElem?_replicate]
  by_cases hj : j < n
  · rw [List.getElem?_range hj]
    by_cases hl : j < l.length
    · rw [if_pos (by omega), if_pos hj, List.getElem?_eq_getElem hl]
      exact congrArg some (List.getElem?_eq_getElem hl)
    · rw [if_neg (by omega), if_pos (by omega), Option.map_some, List.getElem?_eq_none (by omega)]
  · rw [if_neg (by omega), if_neg (by omega), List.getElem?_eq_none (by simpa using hj)]
    rfl

section

variable (hsize : 24 * (liveEntries s.disk (s.inode h)).length ≤ (s.inode h).iSize.toNat)
  (hread : ∀ k ≤ 140, slotAddr (s.inode h) s.disk.sector k ≠ 0 →
    maxLba < (slotAddr (s.inode h) s.disk.sector k).toNat → E (.panic .ideRead))

include hsize hread

/-- **`dir_read`** at the position of entry `p`. -/
theorem dirRead_wp {Q : Option DirEntry × Word → FsState → Prop}
    (hp : p ≤ (liveEntries s.disk (s.inode h)).length)
    (hQ : Q ((liveEntries s.disk (s.inode h))[p]?,
      BitVec.ofNat 32 (24 * min (p + 1) (liveEntries s.disk (s.inode h)).length)) s) :
    wp (dirRead part h (BitVec.ofNat 32 (24 * p))) Q E s := by
  have hp' : p ≤ 140 * 21 := hp.trans (length_liveEntries_le _ _)
  have htable : slotAddr (s.inode h) s.disk.sector 140 = (s.inode h).iSectors 12 := by
    rw [slotAddr, if_neg (by omega), if_pos rfl]
  rw [dirRead, wp_bind, wp_get, wp_bind]
  refine allBlocks_wp ?_ fun all hall => ?_
  · rw [← htable]
    exact hread 140 (Nat.le_refl _)
  have hblocks : ∀ n ≤ 140, ((List.range' 0 n).flatMap fun k => if all k = 0 then []
      else sectorEntries (s.disk.sector (all k).toNat)) =
        (List.range n).flatMap fun k => if slotAddr (s.inode h) s.disk.sector k = 0 then []
          else sectorEntries (s.disk.sector (slotAddr (s.inode h) s.disk.sector k).toNat) := by
    intro n hn
    rw [← List.range_eq_range']
    refine List.flatMap_congr fun k hk => ?_
    rw [hall k (by have := List.mem_range.1 hk; omega)]
  -- the count of blocks covers the list in either case
  have hlist : ∀ n, n = (if (s.inode h).iSectors 12 ≠ 0 then 140 else 12) →
      n ≤ 140 ∧ ((List.range' 0 n).flatMap fun k => if all k = 0 then []
        else sectorEntries (s.disk.sector (all k).toNat)) = liveEntries s.disk (s.inode h) := by
    rintro n rfl
    split
    · exact ⟨Nat.le_refl _, hblocks 140 (Nat.le_refl _)⟩
    · rename_i h0
      exact ⟨by decide, (hblocks 12 (by decide)).trans (liveEntries_of_direct (not_not.1 h0)).symm⟩
  generalize hn : (if (s.inode h).iSectors 12 ≠ 0 then 140 else 12) = n
  obtain ⟨hn140, hl⟩ := hlist n hn.symm
  rw [wp_bind]
  refine readBlocks_wp hp' n (c := 0) hl (fun k _ hk h0 hlt => ?_) (Nat.zero_le _) (by omega) ?_
  · rw [hall k (by omega)] at h0 hlt
    exact hread k (by omega) h0 hlt
  rw [wp_pure, Nat.sub_zero, part.dirEntrySize_eq]
  by_cases hlast : p < (liveEntries s.disk (s.inode h)).length
  · rw [Nat.min_eq_left hlast, List.getElem?_eq_getElem hlast] at hQ
    rw [List.getElem?_eq_getElem hlast]
    simp only [Option.isSome_some, if_true]
    rwa [← BitVec.ofNat_add]
  · rw [Nat.min_eq_right (by omega), List.getElem?_eq_none (by omega)] at hQ
    rw [List.getElem?_eq_none (by omega)]
    obtain rfl : p = (liveEntries s.disk (s.inode h)).length := by omega
    exact hQ

/-! ### All calls -/

/-- Calls from the position of entry `p` on. -/
theorem dirReads_wp (n : ℕ) {Q : List (Option DirEntry) × Word → FsState → Prop}
    (hp : p ≤ (liveEntries s.disk (s.inode h)).length)
    (hQ : ∀ pos, Q ((List.range' p n).map fun i => (liveEntries s.disk (s.inode h))[i]?, pos) s) :
    wp (dirReads part h n (BitVec.ofNat 32 (24 * p))) Q E s := by
  induction n generalizing p Q with
  | zero => exact hQ _
  | succ n ih =>
    rw [dirReads, wp_bind]
    refine dirRead_wp hsize hread hp ?_
    rw [wp_bind]
    refine ih (Nat.min_le_right _ _) fun pos => ?_
    rw [wp_pure]
    have hrest : ((List.range' (min (p + 1) (liveEntries s.disk (s.inode h)).length) n).map
        fun i => (liveEntries s.disk (s.inode h))[i]?) =
          (List.range' (p + 1) n).map fun i => (liveEntries s.disk (s.inode h))[i]? := by
      rcases Nat.lt_or_ge p (liveEntries s.disk (s.inode h)).length with hlt | hge
      · rw [Nat.min_eq_left hlt]
      · -- past the last entry there is nothing to tell the calls apart
        refine List.ext_getElem? fun j => ?_
        rw [List.getElem?_map, List.getElem?_map]
        by_cases hj : j < n
        · rw [List.getElem?_range' hj, List.getElem?_range' hj, Option.map_some, Option.map_some,
            List.getElem?_eq_none (by omega), List.getElem?_eq_none (by omega)]
        · rw [List.getElem?_eq_none (by simpa using hj), List.getElem?_eq_none (by simpa using hj)]
    have hresults := hQ pos
    rw [List.range'_succ, List.map_cons, ← hrest] at hresults
    exact hresults

end

/-- **Directory enumeration.** The size of the directory is that of its entries in use, and its
blocks are on the disk. Then `n` calls of `dir_read` from position `0` return its entries in use, in
the order of blocks and of places in a block, and null pointers from then on. -/
theorem dir_read_enumerates (part : Partition) (s : FsState) (h n : ℕ)
    (hsize : (s.inode h).iSize.toNat = 24 * (liveEntries s.disk (s.inode h)).length)
    (hdisk : ∀ k ≤ 140, slotAddr (s.inode h) s.disk.sector k ≠ 0 →
      (slotAddr (s.inode h) s.disk.sector k).toNat ≤ maxLba) :
    ∃ pos, dirReads part h n 0 s =
      .ok ((((liveEntries s.disk (s.inode h)).take n).map some ++
        List.replicate (n - (liveEntries s.disk (s.inode h)).length) none, pos), s) := by
  have hwp : wp (dirReads part h n 0) (fun r s' => r.1 = (List.range' 0 n).map (fun i =>
      (liveEntries s.disk (s.inode h))[i]?) ∧ s' = s) (fun _ => False) s :=
    dirReads_wp hsize.ge (fun k hk h0 hlt => absurd (hdisk k hk h0) (by omega)) n (Nat.zero_le _)
      fun _ => ⟨rfl, rfl⟩
  obtain ⟨⟨es, pos⟩, s', hrun, hes, rfl⟩ := hwp.returns
  refine ⟨pos, hrun.trans ?_⟩
  rw [← getElem?_range_eq, List.range_eq_range', ← hes]

theorem dir_read_enumerates_root : ∃ pos, dirReads smallPart smallFs.rootInode 3 0 smallFs =
    .ok ((((liveEntries smallFs.disk (smallFs.inode smallFs.rootInode)).take 3).map some ++
      List.replicate (3 - (liveEntries smallFs.disk (smallFs.inode smallFs.rootInode)).length) none,
      pos), smallFs) :=
  dir_read_enumerates smallPart smallFs smallFs.rootInode 3 (by decide +kernel) (by decide +kernel)

/-! ### The size of a directory -/

/-- The places in use among those of blocks at the given addresses: entry `x.2` of block `x.1`. -/
def placesIn (addr : ℕ → Word) (block : ℕ → Buf) : List (ℕ × ℕ) :=
  (List.range 140 ×ˢ List.range 21).filter fun x => addr x.1 ≠ 0 ∧ (cell (block x.1) x.2).fType ≠ 0

/-- The places of the entries in use of directory `d`. -/
def View.places (v : View) (d : ℕ) : List (ℕ × ℕ) :=
  placesIn (v.slot d) fun k => v.data (v.slot d k).toNat

theorem mem_placesIn {addr : ℕ → Word} {block : ℕ → Buf} {x : ℕ × ℕ} : x ∈ placesIn addr block ↔
    (x.1 < 140 ∧ x.2 < 21) ∧ addr x.1 ≠ 0 ∧ (cell (block x.1) x.2).fType ≠ 0 := by
  rw [placesIn, List.mem_filter, decide_eq_true_eq, List.mem_product,
    List.mem_range, List.mem_range]

/-- The entries in use are those at the places in use. -/
theorem entries_eq_map (addr : ℕ → Word) (block : ℕ → Buf) :
    ((List.range 140).flatMap fun k => if addr k = 0 then [] else sectorEntries (block k)) =
      (placesIn addr block).map fun x => cell (block x.1) x.2 := by
  simp only [placesIn, SProd.sprod, List.product, List.filter_flatMap, List.map_flatMap]
  refine List.flatMap_congr fun k _ => ?_
  rw [List.filter_map, List.map_map]
  by_cases h0 : addr k = 0
  · rw [if_pos h0, List.filter_eq_nil_iff.2, List.map_nil]
    intro i _ hi
    exact (of_decide_eq_true hi).1 h0
  · rw [if_neg h0, sectorEntries, List.filter_map]
    congr 1
    refine List.filter_congr fun i _ => ?_
    rw [Bool.eq_iff_iff]
    simp only [Function.comp, bne_iff_ne, decide_eq_true_eq]
    exact ⟨fun ht => ⟨h0, ht⟩, fun h => h.2⟩

theorem nodup_placesIn (addr : ℕ → Word) (block : ℕ → Buf) : (placesIn addr block).Nodup :=
  (List.nodup_range.product List.nodup_range).filter _

theorem View.entries_eq_map (v : View) (d : ℕ) :
    v.entries d = (v.places d).map fun x => v.cell d x.1 x.2 :=
  X86Os.entries_eq_map (v.slot d) fun k => v.data (v.slot d k).toNat

variable {v : View}

/-- **The size covers the entries.** Every place but the first two has a child of its own. -/
theorem FsInv.entries_le (hi : FsInv part G.live G v) (hd : d ∈ G.live)
    (hk : G.kind d = .directory) : 24 * (v.entries d).length ≤ (v.node d).iSize.toNat := by
  have hdir := hi.dirs d hd hk
  have hlt : ∀ m ∈ G.children d, m < 4096 := fun m hm => hi.lt m (Tree.mem_children.1 hm).1
  have hsub : G.children d ⊆ Finset.range 4096 := fun m hm => Finset.mem_range.2 (hlt m hm)
  have hcard := Finset.card_le_card hsub
  rw [Finset.card_range] at hcard
  classical
  have hplaces : (v.places d).length ≤ 2 + (G.children d).card := by
    have hnodup : (v.places d).Nodup := nodup_placesIn _ _
    rw [← List.toFinset_card_of_nodup hnodup]
    have hcover : (v.places d).toFinset ⊆ {(0, 0), (0, 1)} ∪
        (v.places d).toFinset.filter fun x => v.IsChild d x.1 x.2 := by
      rintro ⟨k, i⟩ hx
      obtain ⟨⟨hk', hi'⟩, h0, ht⟩ := mem_placesIn.1 (List.mem_toFinset.1 hx)
      by_cases hfirst : k = 0 ∧ i < 2
      · obtain ⟨rfl, hi2⟩ := hfirst
        refine Finset.mem_union_left _ ?_
        simp only [Finset.mem_insert, Finset.mem_singleton, Prod.mk.injEq, true_and]
        omega
      · exact Finset.mem_union_right _ (Finset.mem_filter.2 ⟨hx, hk', hi', by omega, h0, ht⟩)
    refine (Finset.card_le_card hcover).trans ((Finset.card_union_le _ _).trans ?_)
    refine Nat.add_le_add Finset.card_le_two (Finset.card_le_card_of_injOn
      (fun x => (v.cell d x.1 x.2).iNo.toNat) (fun x hx => ?_) fun x hx y hy hxy => ?_)
    · obtain ⟨m, hm, hno, -⟩ := hdir.child _ _ (Finset.mem_filter.1 hx).2
      simp only [hno, toNat_ofNat (hlt m hm)]
      exact hm
    · have := hdir.uniq _ _ _ _ (Finset.mem_filter.1 hx).2 (Finset.mem_filter.1 hy).2
        (BitVec.eq_of_toNat_eq hxy)
      exact Prod.ext this.1 this.2
  rw [hdir.size, BitVec.toNat_ofNat, Nat.mod_eq_of_lt (by omega),
    View.entries_eq_map, List.length_map]
  omega

end

end X86Os
