import Mathlib.Data.Finset.Prod
import X86Os.Fs.DirDelete
import X86Os.Lib.TransSys

/-!
# A directory over time

A directory that was made has one block with the entries `.` and `..` and nothing else in it.
`sync_dir_entry` puts an entry at the first free place of its direct blocks, or into a new block at
the first block place that has none; `delete_dir_entry` clears an entry, or gives its block back.
After any number of these the block places have holes and the blocks have free places, and nothing
but the size says how many entries there are. `dir_is_empty` looks at the size alone.

What a directory lists is a map from places to entries (`listing`). An addition fills one place that
was free, a deletion empties one place that was in use, and that is all they do to the map: this is
where the code is left behind. The invariant `DirRep` ties map, blocks and size together: the size
counts the places in use, the entries `.` and `..` are at the first two places, and a block other
than the first has an entry in use. It is about one inode object and its blocks, while the table of
indirect blocks is not used.
-/

namespace X86Os

open X86Os.Comp FsState

/-! ### Places that are filled -/

section

variable {α β : Type*} [DecidableEq α] {S : Finset α} {f : α → Option β} {x : α}

/-- The places of `S` that hold something. -/
def filled (S : Finset α) (f : α → Option β) : Finset α := S.filter fun x => (f x).isSome

omit [DecidableEq α] in
theorem mem_filled {y : α} : y ∈ filled S f ↔ y ∈ S ∧ f y ≠ none := by
  rw [filled, Finset.mem_filter, Option.isSome_iff_ne_none]

theorem card_filled_some (hx : x ∈ S) (h : f x = none) (b : β) :
    (filled S (Function.update f x (some b))).card = (filled S f).card + 1 := by
  have hins : filled S (Function.update f x (some b)) = insert x (filled S f) := by
    ext y
    rw [Finset.mem_insert, mem_filled, mem_filled]
    by_cases hy : y = x
    · subst hy
      simp [hx]
    · simp [hy]
  rw [hins, Finset.card_insert_of_notMem]
  rw [mem_filled]
  exact fun hmem => hmem.2 h

theorem card_filled_none (hx : x ∈ filled S f) :
    (filled S (Function.update f x none)).card + 1 = (filled S f).card := by
  have hers : filled S (Function.update f x none) = (filled S f).erase x := by
    ext y
    rw [Finset.mem_erase, mem_filled, mem_filled]
    by_cases hy : y = x
    · subst hy
      simp
    · simp [hy]
  rw [hers, Finset.card_erase_add_one hx]

end

/-! ### What a directory lists -/

/-- All places: entry `x.2` of block `x.1`. -/
def allPlaces : Finset (ℕ × ℕ) := Finset.range 140 ×ˢ Finset.range 21

theorem mem_allPlaces {x : ℕ × ℕ} : x ∈ allPlaces ↔ x.1 < 140 ∧ x.2 < 21 := by
  rw [allPlaces, Finset.mem_product, Finset.mem_range, Finset.mem_range]

theorem card_filled_le {β : Type} {m : ℕ × ℕ → Option β} : (filled allPlaces m).card ≤ 2940 := by
  refine (Finset.card_filter_le _ _).trans ?_
  rw [allPlaces, Finset.card_product, Finset.card_range, Finset.card_range]

attribute [irreducible] allPlaces

/-- The entry in use at a place of the directory with the inode at `h`. -/
def FsState.listing (s : FsState) (h : ℕ) (x : ℕ × ℕ) : Option DirEntry :=
  if (x.1 < 140 ∧ x.2 < 21) ∧ s.addr h x.1 ≠ 0 ∧ (cell (s.block h x.1) x.2).fType ≠ 0 then
    some (cell (s.block h x.1) x.2)
  else none

section

variable {part : Partition} {s s' : FsState} {h k i k0 i0 : ℕ} {n : Word} {e : DirEntry}
  {x : ℕ × ℕ}

theorem listing_eq_some : s.listing h x = some e ↔
    (x.1 < 140 ∧ x.2 < 21) ∧ s.addr h x.1 ≠ 0 ∧ cell (s.block h x.1) x.2 = e ∧ e.fType ≠ 0 := by
  rw [listing]
  split
  · rename_i hx
    rw [Option.some_inj]
    constructor
    · rintro rfl
      exact ⟨hx.1, hx.2.1, rfl, hx.2.2⟩
    · exact fun he => he.2.2.1
  · rename_i hx
    refine ⟨nofun, fun he => absurd ⟨he.1, he.2.1, ?_⟩ hx⟩
    rw [he.2.2.1]
    exact he.2.2.2

theorem listing_eq_none : s.listing h x = none ↔
    x.1 < 140 → x.2 < 21 → s.addr h x.1 ≠ 0 → (cell (s.block h x.1) x.2).fType = 0 := by
  rw [listing]
  split
  · rename_i hall
    exact ⟨nofun, fun himp => absurd (himp hall.1.1 hall.1.2 hall.2.1) hall.2.2⟩
  · rename_i hall
    refine ⟨fun _ h1 h2 h0 => ?_, fun _ => rfl⟩
    by_contra ht
    exact hall ⟨⟨h1, h2⟩, h0, ht⟩

/-- The number of entries in use is the number of places that are filled. -/
theorem length_liveEntries (s : FsState) (h : ℕ) :
    (liveEntries s.disk (s.inode h)).length = (filled allPlaces (s.listing h)).card := by
  have hset : filled allPlaces (s.listing h) = (placesIn (s.addr h) (s.block h)).toFinset := by
    ext x
    rw [mem_filled, List.mem_toFinset, mem_placesIn, mem_allPlaces, Ne, listing_eq_none]
    refine and_congr_right fun hx => ?_
    simp only [hx.1, hx.2, true_implies, Classical.not_imp, ne_eq]
  rw [hset, List.toFinset_card_of_nodup (nodup_placesIn _ _), liveEntries_eq, entries_eq_map,
    List.length_map]

theorem mem_liveEntries : e ∈ liveEntries s.disk (s.inode h) ↔ ∃ x, s.listing h x = some e := by
  rw [liveEntries_eq, entries_eq_map, List.mem_map]
  refine exists_congr fun x => ?_
  rw [listing_eq_some, mem_placesIn]
  constructor
  · rintro ⟨⟨hx, h0, ht⟩, rfl⟩
    exact ⟨hx, h0, rfl, ht⟩
  · rintro ⟨hx, h0, rfl, ht⟩
    exact ⟨⟨hx, h0, ht⟩, rfl⟩

/-- A place lists what it listed if its block and its entry are the same. -/
theorem listing_congr (haddr : s'.addr h x.1 = s.addr h x.1)
    (hcell : x.1 < 140 → x.2 < 21 → s.addr h x.1 ≠ 0 →
      cell (s'.block h x.1) x.2 = cell (s.block h x.1) x.2) : s'.listing h x = s.listing h x := by
  refine Option.ext fun e => ?_
  simp only [listing_eq_some, haddr]
  refine and_congr_right fun hx => and_congr_right fun h0 => ?_
  rw [hcell hx.1 hx.2 h0]

theorem hasNumber_iff : HasNumber s h n x ↔
    ∃ e, s.listing h x = some e ∧ e.counts = true ∧ e.iNo = n := by
  constructor
  · intro hx
    exact ⟨_, listing_eq_some.2 ⟨⟨hx.block, hx.entry⟩, hx.addr, rfl, fType_of_counts hx.counts⟩,
      hx.counts, hx.no⟩
  · rintro ⟨e, he, hc, hno⟩
    obtain ⟨⟨h1, h2⟩, h0, rfl, -⟩ := listing_eq_some.1 he
    exact ⟨h1, h2, h0, hc, hno⟩

/-- Without a table the blocks are the direct ones. -/
theorem addr_of_direct (htable : (s.inode h).iSectors 12 = 0) (k : ℕ) :
    s.addr h k = if k < 12 then (s.inode h).iSectors k else 0 := by
  rw [addr, slotAddr]
  split
  · rfl
  · split
    · exact htable
    · rfl

/-! ### An entry more -/

/-- What the addition of entry `e` at place `i0` of direct block `k0` does: the place was free, or
the block is a new one. -/
structure Inserted (part : Partition) (s s' : FsState) (h : ℕ) (e : DirEntry) (k0 i0 : ℕ) :
    Prop where
  block : k0 < 12
  entry : i0 < 21
  size : (s'.inode h).iSize = (s.inode h).iSize + 24
  sectors : ∀ k ≠ k0, (s'.inode h).iSectors k = (s.inode h).iSectors k
  onDisk : ((s'.inode h).iSectors k0).toNat ≤ maxLba
  data : ∀ a, part.sb.dataStartLba ≤ a → a ≠ ((s'.inode h).iSectors k0).toNat →
    s'.disk a = s.disk a
  how : ((s.inode h).iSectors k0 ≠ 0 ∧ (s'.inode h).iSectors k0 = (s.inode h).iSectors k0 ∧
      s'.blockBitmap = s.blockBitmap ∧
      (cell (s.disk.sector ((s.inode h).iSectors k0).toNat) i0).fType = 0 ∧
      ∀ j < 21, cell (s'.disk.sector ((s.inode h).iSectors k0).toNat) j =
        if j = i0 then e.trunc else cell (s.disk.sector ((s.inode h).iSectors k0).toNat) j) ∨
    ((s.inode h).iSectors k0 = 0 ∧ ∃ i < blockCnt part, s.blockBitmap.bit i = false ∧
      (s'.inode h).iSectors k0 = blockAddr part i ∧
      s'.blockBitmap = bitmapSet s.blockBitmap i true ∧
      ∀ j < 21, cell (s'.disk.sector (blockAddr part i).toNat) j =
        if j = i0 then e.trunc else .blank)

/-- While there is no table, an addition is of this kind. -/
theorem EntryWritten.inserted (he : EntryWritten part s s' h e)
    (hsize : (s'.inode h).iSize = (s.inode h).iSize + 24) (htable : (s'.inode h).iSectors 12 = 0) :
    ∃ k0 i0, Inserted part s s' h e k0 i0 := by
  cases he with
  | @place k0 i0 hp =>
    have hsec := hp.sectors
    refine ⟨k0, i0, hp.block, hp.entry, hsize, fun k _ => by rw [hsec], hsec ▸ hp.onDisk,
      fun a _ hne => ?_, .inl ⟨hp.ne_zero, by rw [hsec], hp.bitmaps .blockBitmap, hp.free,
      fun j hj => ?_⟩⟩
    · rw [hsec] at hne
      rw [hp.disk, Disk.write_one_of_ne hne]
    · rw [hp.disk, cell_sector_write hj, cell_splice]
  | @block k0 i d1 hb =>
    have haddr : (s'.inode h).iSectors k0 = blockAddr part i :=
      (congrFun hb.sectors k0).trans (if_pos rfl)
    refine ⟨k0, 0, hb.block, by omega, hsize, fun k hne =>
      (congrFun hb.sectors k).trans (if_neg hne),
      haddr ▸ hb.onDisk, fun a ha hne => ?_, .inr ⟨hb.eq_zero, i, hb.lt, hb.clear, haddr, hb.bitmap,
      fun j hj => ?_⟩⟩
    · rw [haddr] at hne
      have hstart := part.dataStartLba_eq
      rw [hb.disk, Disk.write_one_of_ne hne, hb.frame a (.inr (by omega))]
    · rw [hb.disk, cell_sector_write hj, cell_splice, cell_zero]
  | table ht =>
    -- the address of the table stays
    have haddr := (congrFun ht.sectors 12).trans (if_pos rfl)
    exact absurd (haddr.symm.trans htable) (blockAddr_ne_zero ht.lt)

/-! ### The invariant -/

/-- A map from places to entries as a directory has it: `.` and `..` at the first two places, other
names elsewhere, and no inode number twice among those. -/
structure ListingOk (m : ℕ × ℕ → Option DirEntry) : Prop where
  dot : ∃ e, m (0, 0) = some e ∧ strEq e.filename dot = true
  dotDot : ∃ e, m (0, 1) = some e ∧ strEq e.filename dotDot = true
  counts : ∀ x e, m x = some e → x ≠ (0, 0) → x ≠ (0, 1) → e.counts = true
  uniq : ∀ x y e e', m x = some e → m y = some e' → e.counts = true → e'.counts = true →
    e.iNo = e'.iNo → x = y

/-- The directory with the inode at `h` is as it should be, and has no table. -/
structure DirRep (part : Partition) (s : FsState) (h : ℕ) : Prop where
  len : BlockLen part s
  table : (s.inode h).iSectors 12 = 0
  used : ∀ k < 12, (s.inode h).iSectors k ≠ 0 → ∃ i < blockCnt part,
    (s.inode h).iSectors k = blockAddr part i ∧ s.blockBitmap.bit i = true
  inj : ∀ j < 12, ∀ k < 12, (s.inode h).iSectors j ≠ 0 →
    (s.inode h).iSectors j = (s.inode h).iSectors k → j = k
  onDisk : ∀ k < 12, ((s.inode h).iSectors k).toNat ≤ maxLba
  listing : ListingOk (s.listing h)
  size : (s.inode h).iSize.toNat = 24 * (filled allPlaces (s.listing h)).card
  held : ∀ k < 12, k ≠ 0 → (s.inode h).iSectors k ≠ 0 → ∃ i, s.listing h (k, i) ≠ none

/-- An entry that counts is not one of the first two. -/
theorem ListingOk.not_dots {m : ℕ × ℕ → Option DirEntry} (hm : ListingOk m) (hx : m x = some e)
    (hc : e.counts = true) : x ≠ (0, 0) ∧ x ≠ (0, 1) := by
  rw [DirEntry.counts, Bool.and_eq_true, Bool.and_eq_true, Bool.not_eq_true',
    Bool.not_eq_true'] at hc
  constructor
  · rintro rfl
    obtain ⟨e', he', hdot⟩ := hm.dot
    obtain rfl := Option.some.inj (hx.symm.trans he')
    rw [hc.1.2] at hdot
    cases hdot
  · rintro rfl
    obtain ⟨e', he', hdot⟩ := hm.dotDot
    obtain rfl := Option.some.inj (hx.symm.trans he')
    rw [hc.2] at hdot
    cases hdot

theorem ListingOk.insert {m : ℕ × ℕ → Option DirEntry} (hm : ListingOk m) (hfree : m x = none)
    (hc : e.counts = true) (hnew : ∀ y e', m y = some e' → e'.counts = true → e'.iNo ≠ e.iNo) :
    ListingOk (Function.update m x (some e)) := by
  have hkeep : ∀ {y e'}, m y = some e' → Function.update m x (some e) y = some e' := by
    intro y e' hy
    rwa [Function.update_of_ne]
    rintro rfl
    rw [hfree] at hy
    cases hy
  have hcases : ∀ {y e'}, Function.update m x (some e) y = some e' →
      y = x ∧ e' = e ∨ m y = some e' := by
    intro y e' hy
    by_cases hyx : y = x
    · subst hyx
      rw [Function.update_self] at hy
      exact .inl ⟨rfl, (Option.some.inj hy).symm⟩
    · rw [Function.update_of_ne hyx] at hy
      exact .inr hy
  refine ⟨hm.dot.imp fun _ h => ⟨hkeep h.1, h.2⟩, hm.dotDot.imp fun _ h => ⟨hkeep h.1, h.2⟩,
    fun y e' hy h0 h1 => ?_, fun y z e1 e2 hy hz hc1 hc2 hno => ?_⟩
  · rcases hcases hy with ⟨-, rfl⟩ | hy
    · exact hc
    · exact hm.counts y e' hy h0 h1
  · rcases hcases hy with ⟨rfl, rfl⟩ | hy'
    · rcases hcases hz with ⟨rfl, rfl⟩ | hz'
      · rfl
      · exact absurd hno.symm (hnew z e2 hz' hc2)
    · rcases hcases hz with ⟨rfl, rfl⟩ | hz'
      · exact absurd hno (hnew y e1 hy' hc1)
      · exact hm.uniq y z e1 e2 hy' hz' hc1 hc2 hno

theorem ListingOk.erase {m : ℕ × ℕ → Option DirEntry} (hm : ListingOk m) (hx : m x = some e)
    (hc : e.counts = true) : ListingOk (Function.update m x none) := by
  obtain ⟨h0, h1⟩ := hm.not_dots hx hc
  have hsub : ∀ {y e'}, Function.update m x none y = some e' → m y = some e' := by
    intro y e' hy
    by_cases hyx : y = x
    · subst hyx
      rw [Function.update_self] at hy
      cases hy
    · rwa [Function.update_of_ne hyx] at hy
  refine ⟨?_, ?_, fun y e' hy => hm.counts y e' (hsub hy),
    fun y z e1 e2 hy hz => hm.uniq y z e1 e2 (hsub hy) (hsub hz)⟩
  · rw [Function.update_of_ne h0.symm]
    exact hm.dot
  · rw [Function.update_of_ne h1.symm]
    exact hm.dotDot

section

variable (hrep : DirRep part s h)

include hrep

theorem DirRep.addr (k : ℕ) : s.addr h k = if k < 12 then (s.inode h).iSectors k else 0 :=
  addr_of_direct hrep.table k

theorem DirRep.addr_ne (h0 : s.addr h k ≠ 0) : k < 12 ∧ s.addr h k = (s.inode h).iSectors k := by
  rw [hrep.addr] at h0 ⊢
  split at h0
  · rename_i hk
    exact ⟨hk, if_pos hk⟩
  · exact absurd rfl h0

theorem DirRep.first : (s.inode h).iSectors 0 ≠ 0 := by
  obtain ⟨e, hdot, -⟩ := hrep.listing.dot
  have h0 := (listing_eq_some.1 hdot).2.1
  exact (hrep.addr_ne h0).2 ▸ h0

/-- **The directory is one that `delete_dir_entry` can work on.** -/
theorem DirRep.dirBlocks : DirBlocks part s h := by
  obtain ⟨e, hdot, hname⟩ := hrep.listing.dot
  obtain ⟨-, h0, rfl, ht⟩ := listing_eq_some.1 hdot
  refine ⟨fun k _ hk => ?_, fun j _ k _ hj hjk => ?_, fun k _ => ?_, ?_,
    fun k hk hk0 e he hc => ?_, ?_⟩
  · obtain ⟨hlt, haddr⟩ := hrep.addr_ne hk
    rw [haddr] at hk ⊢
    exact hrep.used k hlt hk
  · obtain ⟨hjlt, hja⟩ := hrep.addr_ne hj
    obtain ⟨hklt, hka⟩ := hrep.addr_ne (hjk ▸ hj)
    rw [hja, hka] at hjk
    exact hrep.inj j hjlt k hklt (hja ▸ hj) hjk
  · rw [hrep.addr]
    split
    · rename_i hk
      exact hrep.onDisk k hk
    · exact Nat.zero_le _
  · rw [isDirFirstBlock, dirEntrysPerSec_eq, List.any_eq_true]
    refine ⟨0, by decide, ?_⟩
    rw [Bool.and_eq_true, bne_iff_ne, ← strEq_trunc (show dot.length < 16 by decide)]
    exact ⟨ht, hname⟩
  · obtain ⟨i, hi, rfl, hti⟩ := mem_sectorEntries.1 he
    by_contra hne
    have := hrep.listing.counts (k, i) _ (listing_eq_some.2 ⟨⟨hk, hi⟩, hk0, rfl, hti⟩)
      (fun h => hne (Prod.mk.inj h).1) fun h => hne (Prod.mk.inj h).1
    rw [hc] at this
    cases this
  · rw [length_liveEntries, hrep.size]

/-- Two places with one number are one place. -/
theorem DirRep.number_unique (hx : HasNumber s h n (k0, i0)) :
    ∀ y, HasNumber s h n y → y = (k0, i0) := by
  intro y hy
  obtain ⟨e, he, hc, rfl⟩ := hasNumber_iff.1 hx
  obtain ⟨e', he', hc', hno⟩ := hasNumber_iff.1 hy
  exact hrep.listing.uniq _ _ _ _ he' he hc' hc hno

omit hrep in
theorem Inserted.addr_of_ne (hins : Inserted part s s' h e k0 i0)
    (htable : (s.inode h).iSectors 12 = 0) (hk : k ≠ k0) : s'.addr h k = s.addr h k := by
  have h12 := hins.sectors 12 (by have := hins.block; omega)
  rw [addr_of_direct htable, addr_of_direct (h12.trans htable), hins.sectors k hk]

/-- The block of the new entry is not another block of the directory. -/
theorem Inserted.apart (hins : Inserted part s s' h e k0 i0) (hk : k < 12) (hkk : k ≠ k0)
    (h0 : (s.inode h).iSectors k ≠ 0) : (s.inode h).iSectors k ≠ (s'.inode h).iSectors k0 := by
  rcases hins.how with ⟨-, hsame, -⟩ | ⟨-, i, hi, hbit, hnew, -⟩
  · rw [hsame]
    exact fun he => hkk (hrep.inj k hk k0 hins.block h0 he)
  · obtain ⟨j, hj, hjk, hset⟩ := hrep.used k hk h0
    rw [hnew, hjk]
    intro he
    rw [blockAddr_inj hj hi he, hbit] at hset
    cases hset

/-- **An entry more fills a place that was free.** -/
theorem Inserted.listing (hins : Inserted part s s' h e k0 i0) (ht : e.fType ≠ 0) :
    s.listing h (k0, i0) = none ∧
      s'.listing h = Function.update (s.listing h) (k0, i0) (some e.trunc) := by
  have hk0 := hins.block
  have hs : s.addr h k0 = (s.inode h).iSectors k0 := (hrep.addr k0).trans (if_pos hk0)
  have hs' : s'.addr h k0 = (s'.inode h).iSectors k0 := by
    have h12 := (hins.sectors 12 (by omega)).trans hrep.table
    exact (addr_of_direct h12 k0).trans (if_pos hk0)
  -- the other blocks are what they were
  have hother : ∀ y : ℕ × ℕ, y.1 ≠ k0 → s'.listing h y = s.listing h y := by
    intro y hy
    have haddr := hins.addr_of_ne hrep.table hy
    refine listing_congr haddr fun hlt _ h0 => ?_
    obtain ⟨hlt, hsec⟩ := hrep.addr_ne h0
    have hle := hrep.dirBlocks.le_addr (by omega) h0
    have hne := hins.apart hrep hlt hy (hsec ▸ h0)
    rw [FsState.block, FsState.block, haddr]
    refine congrArg (cell · y.2) (Disk.sector_congr (hins.data _ hle ?_))
    rw [hsec]
    exact fun he => hne (BitVec.toNat_inj.1 he)
  have hnew : s.listing h (k0, i0) = none ∧ s'.addr h k0 ≠ 0 ∧
      ∀ j < 21, cell (s'.block h k0) j = e.trunc ∧ j = i0 ∨
        j ≠ i0 ∧ s'.listing h (k0, j) = s.listing h (k0, j) := by
    rcases hins.how with ⟨h0, hsame, -, hfree, hcell⟩ | ⟨h0, i, hi, -, haddr, -, hcell⟩
    · have hblock : s'.block h k0 = s'.disk.sector ((s.inode h).iSectors k0).toNat := by
        rw [FsState.block, hs', hsame]
      refine ⟨listing_eq_none.2 fun _ _ _ => ?_, hs' ▸ hsame ▸ h0, fun j hj => ?_⟩
      · rw [FsState.block, hs]
        exact hfree
      · have := hcell j hj
        rw [← hblock] at this
        by_cases hji : j = i0
        · rw [if_pos hji] at this
          exact .inl ⟨this, hji⟩
        · rw [if_neg hji] at this
          refine .inr ⟨hji, listing_congr (hs'.trans (hsame.trans hs.symm)) fun _ _ _ => ?_⟩
          show cell (s'.block h k0) j = cell (s.disk.sector (s.addr h k0).toNat) j
          rw [hs]
          exact this
    · have hblock : s'.block h k0 = s'.disk.sector (blockAddr part i).toNat := by
        rw [FsState.block, hs', haddr]
      refine ⟨listing_eq_none.2 fun _ _ hne => absurd (hs.trans h0) hne,
        hs' ▸ haddr ▸ blockAddr_ne_zero hi, fun j hj => ?_⟩
      have := hcell j hj
      rw [← hblock] at this
      by_cases hji : j = i0
      · rw [if_pos hji] at this
        exact .inl ⟨this, hji⟩
      · rw [if_neg hji] at this
        refine .inr ⟨hji, ?_⟩
        have hold : s.listing h (k0, j) = none :=
          listing_eq_none.2 fun _ _ hne => absurd (hs.trans h0) hne
        rw [hold, listing_eq_none]
        intro _ _ _
        rw [this]
        rfl
  obtain ⟨hnone, h0', hcell⟩ := hnew
  refine ⟨hnone, funext fun y => ?_⟩
  obtain ⟨k, j⟩ := y
  by_cases hk : k = k0
  · subst hk
    by_cases hj : j < 21
    · rcases hcell j hj with ⟨hc, rfl⟩ | ⟨hji, hsame⟩
      · rw [Function.update_self, listing_eq_some]
        exact ⟨⟨by dsimp only; omega, hj⟩, h0', hc, ht⟩
      · rw [Function.update_of_ne fun he => hji (Prod.mk.inj he).2, hsame]
    · have hi0 := hins.entry
      rw [Function.update_of_ne fun he => by have := (Prod.mk.inj he).2; omega,
        listing_eq_none.2 fun _ hlt => absurd hlt hj, listing_eq_none.2 fun _ hlt => absurd hlt hj]
  · rw [Function.update_of_ne fun he => hk (Prod.mk.inj he).1, hother _ hk]

/-- **An entry less empties its place.** -/
theorem Deleted.listing (hx : HasNumber s h n (k0, i0)) (hdel : Deleted part s s' h k0 i0) :
    s'.listing h = Function.update (s.listing h) (k0, i0) none := by
  have hd := hrep.dirBlocks
  funext y
  obtain ⟨k, j⟩ := y
  by_cases hkj : (k, j) = (k0, i0)
  · obtain ⟨rfl, rfl⟩ := Prod.mk.inj hkj
    rw [Function.update_self, listing_eq_none]
    intro _ hj h0
    rcases hdel.how with ⟨-, -, hcell⟩ | ⟨hlt, -, -, hsec, -⟩
    · rcases hdel.addr_eq hd hx k with haddr | ⟨-, hzero, -⟩
      · have := hcell j hj
        rw [if_pos rfl] at this
        rw [block, haddr, this]
        rfl
      · exact absurd hzero h0
    · have hzero : s'.addr h k = 0 := by
        rw [addr, slotAddr, if_pos hlt, hsec]
        exact if_pos rfl
      exact absurd hzero h0
  · rw [Function.update_of_ne hkj]
    rcases hdel.addr_eq hd hx k with haddr | ⟨rfl, hzero, hcnt, hfirst, -⟩
    · refine listing_congr haddr fun hk hj h0 => ?_
      by_cases hk0 : k = k0
      · subst hk0
        rcases hdel.how with ⟨-, -, hcell⟩ | ⟨hlt, -, -, hsec, -⟩
        · have := hcell j hj
          rw [if_neg fun hji => hkj (by rw [hji])] at this
          rw [block, haddr, this]
        · have hzero : s'.addr h k = 0 := by
            rw [addr, slotAddr, if_pos hlt, hsec]
            exact if_pos rfl
          exact absurd (haddr ▸ hzero) h0
      · rw [hdel.block_eq hd hx hk h0 hk0 haddr]
    · -- the block that was given back had no other entry
      rw [listing_eq_none.2 fun _ _ h0 => absurd hzero h0]
      cases hl : s.listing h (k, j) with
      | none => rfl
      | some e =>
        have hne : k ≠ 0 := by
          rintro rfl
          rw [hd.first] at hfirst
          cases hfirst
        have hc := hrep.listing.counts _ _ hl (fun he => hne (Prod.mk.inj he).1)
          fun he => hne (Prod.mk.inj he).1
        obtain ⟨⟨-, hj⟩, -, rfl, -⟩ := listing_eq_some.1 hl
        have hji : j = i0 := eq_of_dirEntryCnt hcnt hj hx.entry hc hx.counts
        exact absurd (by rw [hji]) hkj

/-- **One entry more.** -/
theorem DirRep.insert (hins : Inserted part s s' h e k0 i0) (hc : e.counts = true)
    (hnew : ∀ x e', s.listing h x = some e' → e'.counts = true → e'.iNo ≠ e.iNo) :
    DirRep part s' h ∧ (s'.inode h).iSectors 0 = (s.inode h).iSectors 0 := by
  have hk0 := hins.block
  have hct : e.trunc.counts = true := by
    rw [DirEntry.counts, strEq_trunc (by decide), strEq_trunc (by decide)]
    exact hc
  obtain ⟨hfree, hlist⟩ := hins.listing hrep (fType_of_counts hc)
  have hmem : (k0, i0) ∈ allPlaces := by
    rw [mem_allPlaces]
    exact ⟨Nat.lt_trans hk0 (by omega), hins.entry⟩
  have hcard : (filled allPlaces (s'.listing h)).card =
      (filled allPlaces (s.listing h)).card + 1 := by
    rw [hlist, card_filled_some hmem hfree]
  have hle : (filled allPlaces (s'.listing h)).card ≤ 2940 := card_filled_le
  refine ⟨⟨?_, (hins.sectors 12 (by omega)).trans hrep.table, fun k hk h0 => ?_,
    fun j hj k hk h0 hjk => ?_, fun k hk => ?_, ?_, ?_, fun k hk hne h0 => ?_⟩, ?_⟩
  · rw [BlockLen]
    rcases hins.how with ⟨-, -, hbits, -⟩ | ⟨-, i, -, -, -, hbits, -⟩
    · rw [hbits]
      exact hrep.len
    · rw [hbits, btmpBytesLen_bitmapSet]
      exact hrep.len
  · by_cases hkk : k = k0
    · subst hkk
      rcases hins.how with ⟨hold, hsame, hbits, -⟩ | ⟨-, i, hi, -, haddr, hbits, -⟩
      · rw [hsame, hbits]
        exact hrep.used k hk hold
      · exact ⟨i, hi, haddr, by rw [hbits, bit_bitmapSet_self]⟩
    · rw [hins.sectors k hkk] at h0 ⊢
      obtain ⟨j, hj, haddr, hset⟩ := hrep.used k hk h0
      refine ⟨j, hj, haddr, ?_⟩
      rcases hins.how with ⟨-, -, hbits, -⟩ | ⟨-, i, -, -, -, hbits, -⟩
      · rw [hbits]
        exact hset
      · rw [hbits, bit_bitmapSet]
        split
        · rfl
        · exact hset
  · by_cases hj0 : j = k0
    · by_cases hk0' : k = k0
      · rw [hj0, hk0']
      · rw [hj0, hins.sectors k hk0'] at hjk
        rw [hj0, hjk] at h0
        exact absurd hjk.symm (hins.apart hrep hk hk0' h0)
    · rw [hins.sectors j hj0] at h0 hjk
      by_cases hk0' : k = k0
      · rw [hk0'] at hjk
        exact absurd hjk (hins.apart hrep hj hj0 h0)
      · rw [hins.sectors k hk0'] at hjk
        exact hrep.inj j hj k hk h0 hjk
  · by_cases hkk : k = k0
    · rw [hkk]
      exact hins.onDisk
    · rw [hins.sectors k hkk]
      exact hrep.onDisk k hk
  · rw [hlist]
    exact hrep.listing.insert hfree hct hnew
  · have hsize := hrep.size
    have h24 : BitVec.toNat (24 : Word) = 24 := rfl
    rw [hins.size, hcard, BitVec.toNat_add, hsize]
    omega
  · rw [hlist]
    by_cases hkk : k = k0
    · refine ⟨i0, ?_⟩
      rw [hkk, Function.update_self]
      simp
    · rw [hins.sectors k hkk] at h0
      obtain ⟨i, hi⟩ := hrep.held k hk hne h0
      refine ⟨i, ?_⟩
      rwa [Function.update_of_ne fun he => hkk (Prod.mk.inj he).1]
  · by_cases h0 : k0 = 0
    · subst h0
      rcases hins.how with ⟨-, hsame, -⟩ | ⟨hzero, -⟩
      · exact hsame
      · exact absurd hzero hrep.first
    · exact hins.sectors 0 (Ne.symm h0)

/-- A block that keeps its address has another entry. -/
theorem DirRep.other_entry (hx : HasNumber s h n (k0, i0)) (hk0 : k0 ≠ 0)
    (hrec : Reclaims part s s' h k0) (hkeep : (s'.inode h).iSectors k0 ≠ 0) :
    ∃ i, i ≠ i0 ∧ s.listing h (k0, i) ≠ none := by
  have hlt := hx.block
  dsimp only at hlt
  have hnot : isDirFirstBlock part (s.block h k0) = false :=
    hrep.dirBlocks.not_first hlt hx.addr hk0
  have hcnt : dirEntryCnt part (s.block h k0) ≠ 1 := fun hone => hkeep (hrec hone hnot)
  by_contra hno
  refine hcnt (Nat.le_antisymm ?_ ?_)
  · -- the entries that count are at the one place
    rw [dirEntryCnt, dirEntrysPerSec_eq]
    have hsub : (List.range 21).filter (fun i => (entryAt (s.block h k0) i).counts) ⊆ [i0] := by
      intro j hj
      obtain ⟨hj, hc⟩ := List.mem_filter.1 hj
      rw [counts_entryAt] at hc
      rw [List.mem_singleton]
      by_contra hji
      have hl : s.listing h (k0, j) = some (cell (s.block h k0) j) :=
        listing_eq_some.2 ⟨⟨hlt, List.mem_range.1 hj⟩, hx.addr, rfl, fType_of_counts hc⟩
      exact hno ⟨j, hji, by rw [hl]; simp⟩
    exact ((List.nodup_range.filter _).subperm hsub).length_le
  · rw [dirEntryCnt, dirEntrysPerSec_eq]
    refine List.length_pos_of_mem (a := i0) (List.mem_filter.2 ⟨List.mem_range.2 hx.entry, ?_⟩)
    rw [counts_entryAt]
    exact hx.counts

/-- **One entry less.** -/
theorem DirRep.delete (hx : HasNumber s h n (k0, i0)) (hdel : Deleted part s s' h k0 i0)
    (hrec : Reclaims part s s' h k0) :
    DirRep part s' h ∧ (s'.inode h).iSectors 0 = (s.inode h).iSectors 0 := by
  obtain ⟨e, he, hc, hno⟩ := hasNumber_iff.1 hx
  obtain ⟨hk0, hsec0⟩ := hrep.addr_ne hx.addr
  dsimp only at hk0 hsec0
  have hlist := hdel.listing hrep hx
  -- a block place keeps its block, or is the one that was given back
  have hsectors : ∀ k, (s'.inode h).iSectors k = (s.inode h).iSectors k ∨
      k = k0 ∧ k0 ≠ 0 ∧ (s'.inode h).iSectors k = 0 := by
    intro k
    rcases hdel.how with ⟨hsame, -⟩ | ⟨-, -, hfirst, hsec, -⟩
    · exact .inl (congrFun hsame k)
    · rw [hsec]
      dsimp only
      by_cases hk : k = k0
      · refine .inr ⟨hk, ?_, if_pos hk⟩
        rintro rfl
        rw [hrep.dirBlocks.first] at hfirst
        cases hfirst
      · exact .inl (if_neg hk)
  have hold : ∀ {k}, (s'.inode h).iSectors k ≠ 0 →
      (s'.inode h).iSectors k = (s.inode h).iSectors k := fun h0 =>
    (hsectors _).resolve_right fun h => h0 h.2.2
  have hmem : (k0, i0) ∈ filled allPlaces (s.listing h) := by
    rw [mem_filled, mem_allPlaces, he]
    exact ⟨⟨hx.block, hx.entry⟩, nofun⟩
  have hcard := card_filled_none hmem
  rw [← hlist] at hcard
  have hle : (filled allPlaces (s.listing h)).card ≤ 2940 := card_filled_le
  refine ⟨⟨?_, ?_, fun k hk h0 => ?_, fun j hj k hk h0 hjk => ?_, fun k hk => ?_, ?_, ?_,
    fun k hk hne h0 => ?_⟩, ?_⟩
  · rw [BlockLen]
    rcases hdel.how with ⟨-, hbits, -⟩ | ⟨-, -, -, -, hbits⟩
    · rw [hbits]
      exact hrep.len
    · rw [hbits, btmpBytesLen_bitmapSet]
      exact hrep.len
  · rcases hsectors 12 with hs | ⟨-, -, hs⟩
    · exact hs.trans hrep.table
    · exact hs
  · have hk' := hold h0
    obtain ⟨j, hj, haddr, hset⟩ := hrep.used k hk (hk' ▸ h0)
    rw [hk']
    refine ⟨j, hj, haddr, ?_⟩
    rcases hdel.how with ⟨-, hbits, -⟩ | ⟨-, -, -, hsec, hbits⟩
    · rw [hbits]
      exact hset
    · obtain ⟨j0, hj0, haddr0, -⟩ := hrep.used k0 hk0 (hsec0 ▸ hx.addr)
      have hkk : k ≠ k0 := by
        rintro rfl
        rw [hsec] at h0
        exact h0 (if_pos rfl)
      rw [hbits, hsec0, haddr0, blockBitmapIdx_blockAddr hj0, bit_bitmapSet, if_neg]
      · exact hset
      · rintro rfl
        exact hkk (hrep.inj k hk k0 hk0 (hk' ▸ h0) (haddr.trans haddr0.symm))
  · have hj' := hold h0
    have hk' := hold (hjk ▸ h0)
    rw [hj', hk'] at hjk
    exact hrep.inj j hj k hk (hj' ▸ h0) hjk
  · rcases hsectors k with hs | ⟨-, -, hs⟩
    · rw [hs]
      exact hrep.onDisk k hk
    · rw [hs]
      exact Nat.zero_le _
  · rw [hlist]
    exact hrep.listing.erase he hc
  · have hsize := hrep.size
    have h24 : BitVec.toNat (24 : Word) = 24 := rfl
    rw [hdel.size, BitVec.toNat_sub, hsize, h24]
    omega
  · rw [hlist]
    by_cases hkk : k = k0
    · subst hkk
      obtain ⟨i, hi, hl⟩ := hrep.other_entry hx hne hrec h0
      refine ⟨i, ?_⟩
      rwa [Function.update_of_ne fun he => hi (Prod.mk.inj he).2]
    · rw [hold h0] at h0
      obtain ⟨i, hi⟩ := hrep.held k hk hne h0
      refine ⟨i, ?_⟩
      rwa [Function.update_of_ne fun he => hkk (Prod.mk.inj he).1]
  · rcases hsectors 0 with hs | ⟨h0, hne, -⟩
    · exact hs
    · exact absurd h0.symm hne

theorem DirRep.dots_filled : ({(0, 0), (0, 1)} : Finset (ℕ × ℕ)) ⊆
    filled allPlaces (s.listing h) := by
  obtain ⟨e, he, -⟩ := hrep.listing.dot
  obtain ⟨e', he', -⟩ := hrep.listing.dotDot
  intro x hx
  rw [mem_filled, mem_allPlaces]
  rcases Finset.mem_insert.1 hx with rfl | hx
  · exact ⟨⟨by decide, by decide⟩, by rw [he]; nofun⟩
  · rw [Finset.mem_singleton.1 hx]
    exact ⟨⟨by decide, by decide⟩, by rw [he']; nofun⟩

/-- **A directory of two entries** has no others than `.` and `..`. -/
theorem DirRep.card_eq_two : (filled allPlaces (s.listing h)).card = 2 ↔
    ∀ e ∈ liveEntries s.disk (s.inode h),
      strEq e.filename dot = true ∨ strEq e.filename dotDot = true := by
  have hpair : ({(0, 0), (0, 1)} : Finset (ℕ × ℕ)).card = 2 := rfl
  have hsub := hrep.dots_filled
  constructor
  · intro htwo e he
    obtain ⟨x, hx⟩ := mem_liveEntries.1 he
    have heq := Finset.eq_of_subset_of_card_le hsub (by rw [htwo, hpair])
    have hmem : x ∈ filled allPlaces (s.listing h) := by
      rw [mem_filled, mem_allPlaces, hx]
      exact ⟨(listing_eq_some.1 hx).1, nofun⟩
    rw [← heq, Finset.mem_insert, Finset.mem_singleton] at hmem
    rcases hmem with rfl | rfl
    · obtain ⟨e', he', hname⟩ := hrep.listing.dot
      obtain rfl := Option.some.inj (hx.symm.trans he')
      exact .inl hname
    · obtain ⟨e', he', hname⟩ := hrep.listing.dotDot
      obtain rfl := Option.some.inj (hx.symm.trans he')
      exact .inr hname
  · intro hall
    refine Nat.le_antisymm ?_ (hpair ▸ Finset.card_le_card hsub)
    rw [← hpair]
    refine Finset.card_le_card fun x hx => ?_
    rw [mem_filled] at hx
    obtain ⟨e, he⟩ := Option.ne_none_iff_exists'.1 hx.2
    have hnot : e.counts = false := by
      rw [DirEntry.counts]
      rcases hall e (mem_liveEntries.2 ⟨x, he⟩) with hn | hn <;> rw [hn] <;> simp
    rw [Finset.mem_insert, Finset.mem_singleton]
    by_contra hne
    rw [not_or] at hne
    have := hrep.listing.counts x e he hne.1 hne.2
    rw [hnot] at this
    cases this

/-- A directory of two entries has one block. -/
theorem DirRep.sectors_of_two (htwo : (filled allPlaces (s.listing h)).card = 2) (hk : k < 12) :
    (s.inode h).iSectors (k + 1) = 0 := by
  by_cases hk' : k + 1 = 12
  · rw [hk']
    exact hrep.table
  by_contra h0
  obtain ⟨i, hi⟩ := hrep.held (k + 1) (by omega) (by omega) h0
  obtain ⟨e, he⟩ := Option.ne_none_iff_exists'.1 hi
  have heq := Finset.eq_of_subset_of_card_le hrep.dots_filled (by rw [htwo]; rfl)
  have hmem : (k + 1, i) ∈ filled allPlaces (s.listing h) := by
    rw [mem_filled, mem_allPlaces]
    exact ⟨(listing_eq_some.1 he).1, hi⟩
  rw [← heq, Finset.mem_insert, Finset.mem_singleton] at hmem
  rcases hmem with he | he
  · exact absurd (Prod.mk.inj he).1 (by omega)
  · exact absurd (Prod.mk.inj he).1 (by omega)

end

/-! ### Runs -/

/-- A call on the directory. -/
inductive DirAct
  | add (e : DirEntry)
  | delete (inodeNo : Word)

/-- A directory that was just made: its block, at address `a`, holds `.` and `..`. -/
structure NewDir (part : Partition) (h : ℕ) (a : Word) (s : FsState) : Prop where
  len : BlockLen part s
  size : (s.inode h).iSize = 48
  first : (s.inode h).iSectors 0 = a
  sectors : ∀ k, 0 < k → k < 13 → (s.inode h).iSectors k = 0
  used : ∃ i < blockCnt part, a = blockAddr part i ∧ s.blockBitmap.bit i = true
  onDisk : a.toNat ≤ maxLba
  dot : (cell (s.disk.sector a.toNat) 0).fType ≠ 0 ∧
    strEq (cell (s.disk.sector a.toNat) 0).filename dot = true
  dotDot : (cell (s.disk.sector a.toNat) 1).fType ≠ 0 ∧
    strEq (cell (s.disk.sector a.toNat) 1).filename dotDot = true
  free : ∀ i, 2 ≤ i → i < 21 → (cell (s.disk.sector a.toNat) i).fType = 0

/-- Successful calls on the directory with the inode at `h`, as long as it has no table. -/
def dirSys (part : Partition) (h : ℕ) (a : Word) : TransSys FsState DirAct where
  init := NewDir part h a
  step s act s' := (s'.inode h).iSectors 12 = 0 ∧ match act with
    | .add e => syncDirEntry part h e s = .ok (true, s')
    | .delete n => deleteDirEntry part h n s = .ok (true, s')

/-- What is added is an entry in use whose name is neither `.` nor `..` and whose number no other
such entry has; what is deleted is there. -/
def DirActOk (h : ℕ) (s : FsState) : DirAct → Prop
  | .add e => e.counts = true ∧
    ∀ e' ∈ liveEntries s.disk (s.inode h), e'.counts = true → e'.iNo ≠ e.iNo
  | .delete n => ∃ e ∈ liveEntries s.disk (s.inode h), e.counts = true ∧ e.iNo = n

variable {a : Word}

/-- A new directory lists its first two entries. -/
theorem NewDir.listing (hnew : NewDir part h a s) :
    s.listing h (0, 0) = some (cell (s.disk.sector a.toNat) 0) ∧
    s.listing h (0, 1) = some (cell (s.disk.sector a.toNat) 1) ∧
    ∀ x e, s.listing h x = some e → x = (0, 0) ∨ x = (0, 1) := by
  have haddr := addr_of_direct (hnew.sectors 12 (by omega) (by omega))
  have h0 : s.addr h 0 = a := (haddr 0).trans hnew.first
  have hne : a ≠ 0 := by
    obtain ⟨i, hi, rfl, -⟩ := hnew.used
    exact blockAddr_ne_zero hi
  have hblock : s.block h 0 = s.disk.sector a.toNat := by rw [FsState.block, h0]
  refine ⟨listing_eq_some.2 ⟨⟨by decide, by decide⟩, h0 ▸ hne, ?_, hnew.dot.1⟩,
    listing_eq_some.2 ⟨⟨by decide, by decide⟩, h0 ▸ hne, ?_, hnew.dotDot.1⟩, ?_⟩
  · rw [hblock]
  · rw [hblock]
  · rintro ⟨k, i⟩ e he
    obtain ⟨⟨-, hi⟩, hk, rfl, ht⟩ := listing_eq_some.1 he
    dsimp only at hi hk ht
    have hk0 : k = 0 := by
      by_contra hne
      rw [haddr] at hk
      split at hk
      · exact hk (hnew.sectors k (by omega) (by omega))
      · exact hk rfl
    subst hk0
    rw [hblock] at ht
    have hi2 : i < 2 := by
      by_contra hge
      exact ht (hnew.free i (by omega) hi)
    obtain rfl | rfl : i = 0 ∨ i = 1 := by omega
    · exact .inl rfl
    · exact .inr rfl

/-- **A new directory is as it should be.** -/
theorem NewDir.dirRep (hnew : NewDir part h a s) : DirRep part s h := by
  obtain ⟨hdot, hdotDot, honly⟩ := hnew.listing
  have hfilled : filled allPlaces (s.listing h) = {(0, 0), (0, 1)} := by
    ext x
    rw [mem_filled, mem_allPlaces, Finset.mem_insert, Finset.mem_singleton]
    constructor
    · rintro ⟨-, hx⟩
      obtain ⟨e, he⟩ := Option.ne_none_iff_exists'.1 hx
      exact honly x e he
    · rintro (rfl | rfl)
      · exact ⟨⟨by decide, by decide⟩, by rw [hdot]; nofun⟩
      · exact ⟨⟨by decide, by decide⟩, by rw [hdotDot]; nofun⟩
  have hzero : ∀ {k}, k < 12 → k ≠ 0 → (s.inode h).iSectors k = 0 := fun hk hne =>
    hnew.sectors _ (Nat.pos_of_ne_zero hne) (by omega)
  -- neither of the two entries counts
  have hnot : ∀ x e, s.listing h x = some e → e.counts = false := by
    intro x e he
    rw [DirEntry.counts]
    rcases honly x e he with rfl | rfl
    · obtain rfl := Option.some.inj (he.symm.trans hdot)
      rw [hnew.dot.2]
      simp
    · obtain rfl := Option.some.inj (he.symm.trans hdotDot)
      rw [hnew.dotDot.2]
      simp
  refine ⟨hnew.len, hnew.sectors 12 (by omega) (by omega), fun k hk h0 => ?_,
    fun j hj k hk h0 hjk => ?_, fun k hk => ?_,
    ⟨⟨_, hdot, hnew.dot.2⟩, ⟨_, hdotDot, hnew.dotDot.2⟩, fun x e he h1 h2 => ?_,
      fun x y e e' he _ hc => ?_⟩, ?_, fun k hk hne h0 => absurd (hzero hk hne) h0⟩
  · obtain rfl : k = 0 := by
      by_contra hne
      exact h0 (hzero hk hne)
    rw [hnew.first]
    exact hnew.used
  · have hj0 : j = 0 := by
      by_contra hne
      exact h0 (hzero hj hne)
    have hk0 : k = 0 := by
      by_contra hne
      exact h0 (hjk.trans (hzero hk hne))
    rw [hj0, hk0]
  · by_cases hk0 : k = 0
    · rw [hk0, hnew.first]
      exact hnew.onDisk
    · rw [hzero hk hk0]
      exact Nat.zero_le _
  · exact absurd (honly x e he) (not_or.2 ⟨h1, h2⟩)
  · rw [hnot x e he] at hc
    cases hc
  · rw [hfilled, hnew.size]
    rfl

/-- **One call.** -/
theorem DirRep.step {act : DirAct} (hrep : DirRep part s h) (hok : DirActOk h s act)
    (hstep : (dirSys part h a).step s act s') :
    DirRep part s' h ∧ (s'.inode h).iSectors 0 = (s.inode h).iSectors 0 := by
  obtain ⟨htable, hcall⟩ := hstep
  cases act with
  | add e =>
    obtain ⟨-, hsize, hwritten⟩ := (syncDirEntry_written hrep.len).ok hcall
    obtain ⟨k0, i0, hins⟩ := hwritten.inserted hsize htable
    exact hrep.insert hins hok.1 fun x e' hx => hok.2 e' (mem_liveEntries.2 ⟨x, hx⟩)
  | delete n =>
    obtain ⟨e, he, hc, hno⟩ := hok
    obtain ⟨⟨k0, i0⟩, hl⟩ := mem_liveEntries.1 he
    have hx : HasNumber s h n (k0, i0) := hasNumber_iff.2 ⟨e, hl, hc, hno⟩
    have hrun : post (deleteDirEntry part h n)
        (fun _ s' => Deleted part s s' h k0 i0 ∧ Reclaims part s s' h k0) s :=
      deleteDirEntry_wp hrep.dirBlocks hx (hrep.number_unique hx) (fun _ _ => trivial)
        fun _ s' hdel hrec => ⟨hdel, hrec⟩
    obtain ⟨hdel, hrec⟩ := hrun.ok hcall
    exact hrep.delete hx hdel hrec

/-- **The directory representation invariant.** A directory starts with `.` and `..` in its one
block, and `sync_dir_entry` and `delete_dir_entry` are called on it, entries of new names and
numbers being added and entries that are there being deleted, while it has no table. Then its size
is that of its entries; its first block stays in place and marked; every other block has an entry in
use; `dir_is_empty` says that there are no entries but `.` and `..`; and if so the assertions of
`dir_remove` hold. -/
theorem directory_invariant (hr : (dirSys part h a).Reach (DirActOk h) s) :
    (s.inode h).iSize.toNat = 24 * (liveEntries s.disk (s.inode h)).length ∧
    ((s.inode h).iSectors 0 = a ∧
      ∃ i < blockCnt part, a = blockAddr part i ∧ s.blockBitmap.bit i = true) ∧
    (∀ k, 0 < k → k < 13 → (s.inode h).iSectors k ≠ 0 →
      sectorEntries (s.disk.sector ((s.inode h).iSectors k).toNat) ≠ []) ∧
    ((dirIsEmpty part h).value? s = some true ↔ ∀ e ∈ liveEntries s.disk (s.inode h),
      strEq e.filename dot = true ∨ strEq e.filename dotDot = true) ∧
    ((dirIsEmpty part h).value? s = some true →
      ((List.range 12).all fun k => (s.inode h).iSectors (k + 1) == 0) = true) := by
  obtain ⟨hrep, rfl⟩ : DirRep part s h ∧ (s.inode h).iSectors 0 = a := by
    refine hr.invariant (I := fun s => DirRep part s h ∧ (s.inode h).iSectors 0 = a)
      (fun s (hs : NewDir part h a s) => ⟨hs.dirRep, hs.first⟩) fun s act s' hs hok hstep => ?_
    obtain ⟨hrep, hfirst⟩ := hs.1.step hok hstep
    exact ⟨hrep, hfirst.trans hs.2⟩
  have hcard := length_liveEntries s h
  have hempty : (dirIsEmpty part h).value? s = some true ↔
      (filled allPlaces (s.listing h)).card = 2 := by
    have hsize := hrep.size
    have hval : (dirIsEmpty part h).value? s =
        some ((s.inode h).iSize == BitVec.ofNat 32 (part.sb.dirEntrySize * 2)) := rfl
    rw [hval, Option.some_inj, beq_iff_eq, part.dirEntrySize_eq, ← BitVec.toNat_inj, hsize]
    show 24 * _ = 48 ↔ _
    omega
  refine ⟨by rw [hcard, hrep.size], ⟨rfl, hrep.used 0 (by omega) hrep.first⟩,
    fun k hk hk' h0 => ?_, hempty.trans hrep.card_eq_two, fun he => ?_⟩
  · have hlt : k < 12 := by
      by_contra hge
      obtain rfl : k = 12 := by omega
      exact h0 hrep.table
    obtain ⟨i, hi⟩ := hrep.held k hlt (by omega) h0
    obtain ⟨e, he⟩ := Option.ne_none_iff_exists'.1 hi
    obtain ⟨⟨-, hi⟩, hk0, rfl, ht⟩ := listing_eq_some.1 he
    have hblock : s.block h k = s.disk.sector ((s.inode h).iSectors k).toNat := by
      rw [FsState.block, (hrep.addr_ne hk0).2]
    rw [← hblock]
    exact List.ne_nil_of_mem (mem_sectorEntries.2 ⟨i, hi, rfl, ht⟩)
  · rw [List.all_eq_true]
    intro k hk
    rw [beq_iff_eq]
    exact hrep.sectors_of_two (hempty.1 he) (List.mem_range.1 hk)

end

/-- The root directory of an empty file system, and an entry added to it. -/
theorem directory_invariant_root : ∃ s, (dirSys smallPart smallFs.rootInode 613).Reach
      (DirActOk smallFs.rootInode) s ∧
    (s.inode smallFs.rootInode).iSize.toNat =
      24 * (liveEntries s.disk (s.inode smallFs.rootInode)).length := by
  have hnew : NewDir smallPart smallFs.rootInode 613 smallFs := by
    have hsectors : ∀ k < 13, 0 < k → (smallFs.inode smallFs.rootInode).iSectors k = 0 := by
      decide +kernel
    have hfree : ∀ i < 21, 2 ≤ i → (cell (smallFs.disk.sector 613) i).fType = 0 := by
      decide +kernel
    exact ⟨sound_smallFs.1.blockLen, by decide +kernel, by decide +kernel,
      fun k h1 h2 => hsectors k h2 h1, ⟨0, by decide, by decide, by decide +kernel⟩, by decide,
      by decide +kernel, by decide +kernel, fun i h1 h2 => hfree i h2 h1⟩
  have hrun : syncDirEntry smallPart smallFs.rootInode entryF smallFs = .ok (true,
      (syncDirEntry smallPart smallFs.rootInode entryF).final smallFs) :=
    eq_ok_of_value? (by decide +kernel)
  have hok : DirActOk smallFs.rootInode smallFs (.add entryF) := by
    refine ⟨by decide, ?_⟩
    have hall : ((liveEntries smallFs.disk (smallFs.inode smallFs.rootInode)).all fun e =>
      !e.counts) = true := by decide +kernel
    intro e he hc
    have := List.all_eq_true.1 hall e he
    rw [hc] at this
    cases this
  have hreach := TransSys.Reach.step (S := dirSys smallPart smallFs.rootInode 613)
    (TransSys.Reach.init hnew) hok ⟨by decide +kernel, hrun⟩
  exact ⟨_, hreach, (directory_invariant hreach).1⟩

end X86Os
