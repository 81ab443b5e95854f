import Mathlib.Data.BitVec
import X86Os.Device.Partitions
import X86Os.Fs.Format

/-!
# Formatting what has no file system

The loops of `filesys_init` over the channels, the disks of a channel and the partitions of a disk,
which format every partition that does not have the super block of this file system.

The index of the partition is set to 0 before all three loops. When the partitions of the first disk
have been looked at it is 12, and it stays 12: no partition of another disk is ever looked at. The
disks after the first are therefore as they were, and the partitions on them have a file system only
if they had one before (`formatted_of_formatsAll`).

On the first disk, whose partitions are apart from each other as those of a partition table are, a
partition without a file system gets one if it has 613 sectors or more. A smaller one has no sectors
for its block bitmap, and the write of none fails an assertion.
-/

namespace X86Os

open X86Os.Comp FsState

/-! ### The code -/

/-- The disks, by the number of their letter, and what `FsState` has besides a disk. -/
structure InitState where
  disks : ℕ → Disk
  fs : FsState

/-- Do something with the disk `hd`. -/
def onDev {α : Type} (hd : ℕ) (x : Kern FsState α) : Kern InitState α :=
  zoom (fun s => { s.fs with disk := s.disks hd })
    (fun s fs => { s with disks := Function.update s.disks hd fs.disk, fs := fs }) x

/-- The magic number of a super block. -/
def superMagic : ℕ := 0x19590318

/-- One partition of `hd`: it is formatted if its super block is not one of this file system. -/
def initPartition (hd : ℕ) (part : PartitionRec) : Kern InitState Unit := do
  if part.secCnt ≠ 0 then
    let sbBuf ← onDev hd (onDisk (ideRead (part.startLba.toNat + 1) (fun _ => 0) 1))
    if (SuperBlock.ofBuf sbBuf).magic = superMagic then pure ()
    else onDev hd (partitionFormat part.startLba.toNat part.secCnt.toNat)
  else pure ()

/-- The loop over the partitions of the disk `hd`, whose arrays are `parts`. `part` is the pointer
into one of them. The result is `part_idx` after the loop. -/
def scanSlots (hd : ℕ) (parts : PartKind → ℕ → PartitionRec) :
    (fuel : ℕ) → (partIdx : ℕ) → (part : PartKind × ℕ) → Kern InitState ℕ
  | 0, partIdx, _ => pure partIdx
  | fuel + 1, partIdx, part =>
    if partIdx < 12 then do
      let part := if partIdx = 4 then (.logical, 0) else part
      initPartition hd (parts part.1 part.2)
      scanSlots hd parts fuel (partIdx + 1) (part.1, part.2 + 1)
    else pure partIdx

/-- The loop over the channels. The first disk of a channel is skipped. -/
def initChannels (parts : ℕ → PartKind → ℕ → PartitionRec) :
    (left : ℕ) → (channelNo partIdx : ℕ) → Kern InitState Unit
  | 0, _, _ => pure ()
  | left + 1, channelNo, partIdx => do
    let hd := channelNo * 2 + 1
    let partIdx ← scanSlots hd (parts hd) 12 partIdx (.primary, 0)
    initChannels parts left (channelNo + 1) partIdx

/-- `filesys_init` up to the end of its loops. -/
def filesysInit (parts : ℕ → PartKind → ℕ → PartitionRec) (channelCnt : ℕ) :
    Kern InitState Unit := do
  let got ← zoom (·.fs) (fun s fs => { s with fs := fs }) sysMalloc
  ASSERT .filesysInit got
  initChannels parts channelCnt 0 0

/-! ### What is to be formatted -/

/-- The partition in slot `k` of a disk. -/
def slot (parts : PartKind → ℕ → PartitionRec) (k : ℕ) : PartitionRec :=
  if k < 4 then parts .primary k else parts .logical (k - 4)

/-- The super block of the partition carries the magic number. -/
def HasMagic (d : Disk) (part : PartitionRec) : Prop :=
  (SuperBlock.ofBuf (d.sector (part.startLba.toNat + 1))).magic = superMagic

/-- The sectors of the partition. -/
def sectorsOf (part : PartitionRec) : Set ℕ :=
  { a | part.startLba.toNat ≤ a ∧ a < part.startLba.toNat + part.secCnt.toNat }

/-- **What `filesys_init` is for.** It gets through its loops, after which every partition of every
disk has a super block with the magic number, and the partitions that had one are unchanged. -/
def FormatsAll (parts : ℕ → PartKind → ℕ → PartitionRec) (channelCnt : ℕ) (s : InitState) : Prop :=
  ∃ s', filesysInit parts channelCnt s = .ok ((), s') ∧
    ∀ c < channelCnt, ∀ k < 12, (slot (parts (c * 2 + 1)) k).secCnt ≠ 0 →
      HasMagic (s'.disks (c * 2 + 1)) (slot (parts (c * 2 + 1)) k) ∧
      (HasMagic (s.disks (c * 2 + 1)) (slot (parts (c * 2 + 1)) k) →
        ∀ a ∈ sectorsOf (slot (parts (c * 2 + 1)) k),
          s'.disks (c * 2 + 1) a = s.disks (c * 2 + 1) a)

/-- The partitions of all disks but the first have the magic number already. -/
def LaterFormatted (parts : ℕ → PartKind → ℕ → PartitionRec) (channelCnt : ℕ) (s : InitState) :
    Prop :=
  ∀ c < channelCnt, c ≠ 0 → ∀ k < 12, (slot (parts (c * 2 + 1)) k).secCnt ≠ 0 →
    HasMagic (s.disks (c * 2 + 1)) (slot (parts (c * 2 + 1)) k)

/-- The partition has no file system, and no room for one. -/
structure TooSmall (d : Disk) (part : PartitionRec) : Prop where
  present : part.secCnt ≠ 0
  blank : ¬ HasMagic d part
  size : part.secCnt.toNat < 613

/-- The partitions of a disk are on the disk with their super blocks, and apart from each other. -/
structure SlotsOk (parts : PartKind → ℕ → PartitionRec) : Prop where
  fits : ∀ k < 12, (slot parts k).secCnt ≠ 0 →
    (slot parts k).startLba.toNat + (slot parts k).secCnt.toNat ≤ maxLba + 1 ∧
      (slot parts k).startLba.toNat + 1 ≤ maxLba
  apart : ∀ k < 12, ∀ j < 12, (slot parts k).secCnt ≠ 0 → (slot parts j).secCnt ≠ 0 → k ≠ j →
    ∀ a ∈ sectorsOf (slot parts k), a ∉ sectorsOf (slot parts j)

/-! ### Formatting one partition -/

/-- The regions of a file system fit into 613 sectors or more. -/
theorem blockBitmapSectors_fits {startLba secCnt : ℕ} (h1 : 613 ≤ secCnt)
    (h2 : startLba + secCnt ≤ maxLba + 1) :
    0 < blockBitmapSectors secCnt ∧ blockBitmapSectors secCnt + 612 ≤ secCnt := by
  have h := FormatFits.of_le (Nat.le_trans (by decide) h1) h2
  have hpos : 0 < blockBitmapBitLen secCnt := by
    rw [h.bitLen]
    omega
  have hle := h.blocks_le
  rw [h.bitmapSects] at hle ⊢
  omega

section

variable {s : FsState} {E : Fault → Prop}

/-- A partition of less than 613 sectors has none for its block bitmap: the count of its blocks is
0, or wraps around, and so does its rounding. -/
theorem blockBitmapSectors_small {secCnt : ℕ} (h : secCnt < 613) :
    blockBitmapSectors secCnt = 0 := by
  have hfree : freeSects secCnt = (secCnt + 2 ^ 32 - 611) % 2 ^ 32 := by
    rw [freeSects, inodeBitmapSects_eq_one, inodeTableSects_eq_608]
  have hround : divRoundUp (freeSects secCnt) 4096 = if secCnt = 612 then 1 else 0 := by
    rw [hfree, divRoundUp]
    split <;> omega
  have hlen : blockBitmapBitLen secCnt = if secCnt < 611 then secCnt + 2 ^ 32 - 611 else 0 := by
    rw [blockBitmapBitLen, hround, hfree]
    split <;> split <;> omega
  rw [blockBitmapSectors, hlen, divRoundUp]
  split <;> omega

/-- **It is not formatted.** -/
theorem partitionFormat_small {startLba secCnt : ℕ} {Q : Unit → FsState → Prop} (h : secCnt < 613)
    (hlba : startLba + 1 ≤ maxLba) (hmem : ∀ k, s.mallocs k = true) (hE : E (.panic .ideWrite)) :
    wp (partitionFormat startLba secCnt) Q E s := by
  have hnone : (formatSb startLba secCnt).blockBitmapSects = 0 := blockBitmapSectors_small h
  obtain ⟨sb, hsb⟩ : ∃ sb, formatSb startLba secCnt = sb := ⟨_, rfl⟩
  rw [hsb] at hnone
  simp only [partitionFormat, hsb, hnone, wp_bind, wp_sysMalloc, wp_check, wp_onDisk, hmem]
  refine (ideWrite_wp Nat.one_pos).mono ?_ fun _ h => absurd h (by omega)
  rintro - d1 rfl
  refine ⟨fun _ => ?_, by simp⟩
  simp only [ideWrite, wp_bind, wp_ASSERT]
  exact ⟨fun _ => ⟨fun hpos => absurd (of_decide_eq_true hpos) (Nat.lt_irrefl 0), fun _ => hE⟩,
    fun _ => hE⟩

/-- **Formatting stays within the partition**, behind its first sector, and leaves the magic
number. -/
theorem partitionFormat_within {startLba secCnt : ℕ} (h1 : 613 ≤ secCnt)
    (h2 : startLba + secCnt ≤ maxLba + 1) (hmem : ∀ k, s.mallocs k = true) :
    wp (partitionFormat startLba secCnt) (fun _ s' => (∀ k, s'.mallocs k = true) ∧
      s'.disk (startLba + 1) = (formatSb startLba secCnt).toBuf ∧
      ∀ a, a ≤ startLba ∨ startLba + secCnt ≤ a → s'.disk a = s.disk a) E s := by
  obtain ⟨hpos, hfits⟩ := blockBitmapSectors_fits h1 h2
  obtain ⟨hbits, hsects, hino, hone, htab, hrecs, hdata⟩ := formatSb_regions startLba secCnt
  obtain ⟨sb, hsb⟩ : ∃ sb, formatSb startLba secCnt = sb := ⟨_, rfl⟩
  rw [hsb] at hbits hsects hino hone htab hrecs hdata
  simp only [partitionFormat, hsb, wp_bind, wp_sysMalloc, wp_check, wp_onDisk, hmem]
  refine (ideWrite_wp Nat.one_pos).mono ?_ fun _ h => absurd h (by omega)
  rintro - d1 rfl
  refine ⟨fun _ => ?_, by simp⟩
  refine (ideWrite_wp (by omega)).mono ?_ fun _ h => absurd h (by omega)
  rintro - d2 rfl
  refine (ideWrite_wp (by omega)).mono ?_ fun _ h => absurd h (by omega)
  rintro - d3 rfl
  refine (ideWrite_wp (by omega)).mono ?_ fun _ h => absurd h (by omega)
  rintro - d4 rfl
  refine (ideWrite_wp Nat.one_pos).mono ?_ fun _ h => absurd h (by omega)
  rintro - d5 rfl
  refine ⟨fun _ => trivial, ?_, fun a ha => ?_⟩
  · rw [Disk.write_of_not_mem (by omega), Disk.write_of_not_mem (by omega),
      Disk.write_of_not_mem (by omega), Disk.write_of_not_mem (by omega), Disk.write_one_self]
  · rw [Disk.write_of_not_mem (by omega), Disk.write_of_not_mem (by omega),
      Disk.write_of_not_mem (by omega), Disk.write_of_not_mem (by omega),
      Disk.write_of_not_mem (by omega)]

theorem hasMagic_of_eq {d d' : Disk} {part : PartitionRec}
    (h : d' (part.startLba.toNat + 1) = d (part.startLba.toNat + 1)) :
    HasMagic d' part ↔ HasMagic d part := by
  rw [HasMagic, HasMagic, Disk.sector_congr h]

theorem hasMagic_of_format {d : Disk} {part : PartitionRec} {secCnt : ℕ}
    (h : d (part.startLba.toNat + 1) = (formatSb part.startLba.toNat secCnt).toBuf) :
    HasMagic d part := by
  have hbuf : ∀ k, 4 * 0 ≤ k → k < 4 * 0 + 4 → d.sector (part.startLba.toNat + 1) k =
      (formatSb part.startLba.toNat secCnt).toBuf k := by
    intro k _ hk
    rw [Disk.sector_of_lt (by omega), h]
  have hword : (d.sector (part.startLba.toNat + 1)).toWords 0 = BitVec.ofNat 32 superMagic := by
    rw [Buf.toWords_congr hbuf, SuperBlock.toBuf, Buf.toWords_ofWords]
    rfl
  rw [HasMagic, SuperBlock.ofBuf, hword]
  rfl

end

/-! ### One disk -/

section

variable {parts : PartKind → ℕ → PartitionRec} {hd i : ℕ} {d0 d : Disk} {s : InitState}
  {E : Fault → Prop}

@[simp] theorem wp_onDev {α : Type} {x : Kern FsState α} {Q : α → InitState → Prop} :
    wp (onDev hd x) Q E s ↔ wp x (fun a fs => Q a { s with
      disks := Function.update s.disks hd fs.disk, fs := fs }) E { s.fs with disk := s.disks hd } :=
  wp_zoom

/-- The slots below `i` have been looked at, on a disk that was `d0`. -/
structure SlotsDone (parts : PartKind → ℕ → PartitionRec) (d0 : Disk) (i : ℕ) (d : Disk) :
    Prop where
  magic : ∀ k < i, (slot parts k).secCnt ≠ 0 → HasMagic d (slot parts k)
  same : ∀ k < 12, (slot parts k).secCnt ≠ 0 → (i ≤ k ∨ HasMagic d0 (slot parts k)) →
    ∀ a, a ∈ sectorsOf (slot parts k) ∨ a = (slot parts k).startLba.toNat + 1 → d a = d0 a

theorem SlotsDone.refl (parts : PartKind → ℕ → PartitionRec) (d0 : Disk) :
    SlotsDone parts d0 0 d0 :=
  ⟨fun k hk => absurd hk (Nat.not_lt_zero k), fun _ _ _ _ _ _ => rfl⟩

/-- The sectors that are written when a partition is formatted are not those of another one, nor its
super block, which is in the partition unless that has one sector only. -/
theorem SlotsOk.outside (hok : SlotsOk parts) (hi : i < 12)
    (hne : (slot parts i).secCnt ≠ 0) {k a : ℕ}
    (hk : k < 12) (hk0 : (slot parts k).secCnt ≠ 0) (hki : k ≠ i)
    (ha : a ∈ sectorsOf (slot parts k) ∨ a = (slot parts k).startLba.toNat + 1) :
    a ≤ (slot parts i).startLba.toNat ∨
      (slot parts i).startLba.toNat + (slot parts i).secCnt.toNat ≤ a := by
  by_contra hin
  have hapart := hok.apart k hk i hi hk0 hne hki
  have hpos : 0 < (slot parts k).secCnt.toNat :=
    Nat.pos_of_ne_zero fun hz => hk0 (BitVec.eq_of_toNat_eq hz)
  rcases ha with ha | rfl
  · exact hapart a ha ⟨by omega, by omega⟩
  · exact hapart (slot parts k).startLba.toNat ⟨by omega, by omega⟩ ⟨by omega, by omega⟩

/-- A slot that is empty, or has the magic number. -/
theorem SlotsDone.skip (h : SlotsDone parts d0 i d)
    (hi : (slot parts i).secCnt ≠ 0 → HasMagic d (slot parts i)) :
    SlotsDone parts d0 (i + 1) d := by
  refine ⟨fun k hk hne => ?_, fun k hk hne hor => h.same k hk hne (hor.imp_left (by omega))⟩
  rcases Nat.lt_succ_iff_lt_or_eq.1 hk with hk | rfl
  · exact h.magic k hk hne
  · exact hi hne

theorem SlotsDone.format {d' : Disk} (hok : SlotsOk parts) (hi : i < 12)
    (hne : (slot parts i).secCnt ≠ 0) (h : SlotsDone parts d0 i d)
    (hno : ¬ HasMagic d0 (slot parts i)) (hmagic : HasMagic d' (slot parts i))
    (hout : ∀ a, a ≤ (slot parts i).startLba.toNat ∨
      (slot parts i).startLba.toNat + (slot parts i).secCnt.toNat ≤ a → d' a = d a) :
    SlotsDone parts d0 (i + 1) d' := by
  have hother : ∀ k < 12, (slot parts k).secCnt ≠ 0 → k ≠ i → ∀ a, a ∈ sectorsOf (slot parts k) ∨
      a = (slot parts k).startLba.toNat + 1 → d' a = d a := fun k hk hk0 hki a ha =>
    hout a (hok.outside hi hne hk hk0 hki ha)
  refine ⟨fun k hk hk0 => ?_, fun k hk hk0 hor a ha => ?_⟩
  · rcases Nat.lt_succ_iff_lt_or_eq.1 hk with hk | rfl
    · exact (hasMagic_of_eq (hother k (by omega) hk0 (by omega) _ (.inr rfl))).2 (h.magic k hk hk0)
    · exact hmagic
  · by_cases hki : k = i
    · subst hki
      rcases hor with hle | hold
      · omega
      · exact absurd hold hno
    · rw [hother k hk hk0 hki a ha]
      exact h.same k hk hk0 (hor.imp_left (by omega)) a ha

/-- **One partition.** It stops the loops if it has to be formatted and is too small. -/
theorem initPartition_wp (hok : SlotsOk parts) (hi : i < 12)
    (h : SlotsDone parts d0 i (s.disks hd)) (hmem : ∀ k, s.fs.mallocs k = true)
    (hE : TooSmall d0 (slot parts i) → E (.panic .ideWrite)) :
    wp (initPartition hd (slot parts i)) (fun _ s' => (∀ k, s'.fs.mallocs k = true) ∧
      SlotsDone parts d0 (i + 1) (s'.disks hd) ∧ ¬ TooSmall d0 (slot parts i)) E s := by
  rw [initPartition, wp_ite]
  refine ⟨fun hne => ?_, fun hzero =>
    ⟨hmem, h.skip fun hne => absurd hne hzero, fun hsmall => hzero hsmall.present⟩⟩
  obtain ⟨hfits, hlba⟩ := hok.fits i hi hne
  rw [wp_bind, wp_onDev, wp_onDisk, wp_readSector]
  refine ⟨fun _ => ?_, fun hbig => absurd hbig (by omega)⟩
  dsimp only
  rw [wp_ite]
  have hsame : Function.update s.disks hd (s.disks hd) = s.disks := Function.update_eq_self hd _
  have hiff : HasMagic (s.disks hd) (slot parts i) ↔ HasMagic d0 (slot parts i) :=
    hasMagic_of_eq (h.same i hi hne (.inl (Nat.le_refl i)) _ (.inr rfl))
  refine ⟨fun hmagic => ⟨hmem, ?_, fun hsmall => hsmall.blank (hiff.1 hmagic)⟩, fun hno => ?_⟩
  · show SlotsDone parts d0 (i + 1) (Function.update s.disks hd (s.disks hd) hd)
    rw [hsame]
    exact h.skip fun _ => hmagic
  have hold : ¬ HasMagic d0 (slot parts i) := fun hold => hno (hiff.2 hold)
  rw [wp_onDev]
  rcases Nat.lt_or_ge (slot parts i).secCnt.toNat 613 with hsmall | hsize
  · exact partitionFormat_small hsmall hlba (fun k => hmem k) (hE ⟨hne, hold, hsmall⟩)
  refine wp.mono (partitionFormat_within hsize hfits fun k => hmem k)
    (fun _ s' hs' => ?_) fun _ h => h
  obtain ⟨hmem', hsuper', hout⟩ := hs'
  refine ⟨hmem', ?_, fun hsmall => absurd hsmall.size (Nat.not_lt.2 hsize)⟩
  dsimp only
  rw [Function.update_self]
  refine h.format hok hi hne hold (hasMagic_of_format hsuper') fun a ha => ?_
  have hdisk : s'.disk a = Function.update s.disks hd (s.disks hd) hd a := hout a ha
  rw [hdisk, hsame]

/-- Where the pointer is in the loop: at the slot, or behind the last primary partition. -/
def pointer (i : ℕ) : PartKind × ℕ := if i ≤ 4 then (.primary, i) else (.logical, i - 4)

theorem slot_eq_pointer (parts : PartKind → ℕ → PartitionRec) (i : ℕ) :
    let part := if i = 4 then (.logical, 0) else pointer i
    parts part.1 part.2 = slot parts i ∧ (part.1, part.2 + 1) = pointer (i + 1) := by
  dsimp only [slot, pointer]
  rcases Nat.lt_trichotomy i 4 with h | rfl | h
  · rw [if_neg (by omega), if_pos (by omega), if_pos h, if_pos (by omega)]
    exact ⟨rfl, rfl⟩
  · exact ⟨rfl, rfl⟩
  · rw [if_neg (by omega), if_neg (by omega), if_neg (by omega), if_neg (by omega)]
    exact ⟨rfl, by rw [show i + 1 - 4 = i - 4 + 1 by omega]⟩

/-- **The loop over the partitions** of a disk, from slot `i` on. -/
theorem scanSlots_wp (hok : SlotsOk parts)
    (hE : ∀ k < 12, TooSmall d0 (slot parts k) → E (.panic .ideWrite)) (fuel : ℕ) :
    ∀ {i : ℕ} {s : InitState}, i + fuel = 12 → SlotsDone parts d0 i (s.disks hd) →
      (∀ k, s.fs.mallocs k = true) →
      wp (scanSlots hd parts fuel i (pointer i)) (fun _ s' => SlotsDone parts d0 12 (s'.disks hd) ∧
        ∀ k < 12, i ≤ k → ¬ TooSmall d0 (slot parts k)) E s := by
  induction fuel with
  | zero =>
    rintro i s rfl h _
    exact ⟨h, fun k hk hle => absurd hk (Nat.not_lt.2 hle)⟩
  | succ fuel ih =>
    intro i s hi h hmem
    obtain ⟨hslot, hnext⟩ := slot_eq_pointer parts i
    rw [scanSlots, if_pos (by omega)]
    dsimp only
    rw [wp_bind, hslot, hnext]
    refine (initPartition_wp hok (by omega) h hmem (hE i (by omega))).mono ?_ fun _ h => h
    rintro _ s1 ⟨hmem1, hdone1, hroom⟩
    refine (ih (by omega) hdone1 hmem1).mono (fun _ s2 hs2 => ⟨hs2.1, fun k hk hle => ?_⟩)
      fun _ h => h
    rcases Nat.eq_or_lt_of_le hle with rfl | hlt
    · exact hroom
    · exact hs2.2 k hk hlt

theorem scanSlots_partIdx (hd : ℕ) (parts : PartKind → ℕ → PartitionRec) (fuel : ℕ) :
    ∀ {partIdx : ℕ} {part : PartKind × ℕ} {s : InitState}, partIdx + fuel = 12 →
      post (scanSlots hd parts fuel partIdx part) (fun r _ => r = 12) s := by
  induction fuel with
  | zero =>
    rintro partIdx part s rfl
    exact rfl
  | succ fuel ih =>
    intro partIdx part s hle
    rw [scanSlots, if_pos (by omega), post, wp_bind]
    exact (post_of_forall (Q := fun _ _ => True) fun _ _ => trivial).mono
      (fun _ s1 _ => ih (by omega)) fun _ h => h

theorem onDev_keeps {α : Type} {h : ℕ} (hne : h ≠ hd) (x : Kern FsState α) :
    Keeps (fun s => s.disks h) (onDev hd x) :=
  Keeps.zoom x fun _ _ => Function.update_of_ne hne _ _

theorem scanSlots_keeps {h : ℕ} (hne : h ≠ hd) (parts : PartKind → ℕ → PartitionRec) (fuel : ℕ) :
    ∀ {partIdx : ℕ} {part : PartKind × ℕ},
      Keeps (fun s => s.disks h) (scanSlots hd parts fuel partIdx part) := by
  induction fuel with
  | zero => exact .pure _
  | succ fuel ih =>
    intro partIdx part
    rw [scanSlots]
    refine .ite (Keeps.bind ?_ fun _ => ih) (.pure _)
    refine .ite ((onDev_keeps hne _).bind fun _ => .ite (.pure _) (onDev_keeps hne _)) (.pure _)

end

/-! ### All disks -/

section

variable {parts : ℕ → PartKind → ℕ → PartitionRec} {channelCnt : ℕ} {s : InitState}

/-- **No disk after the first is looked at**: the index is 12 already. -/
theorem initChannels_twelve (left : ℕ) : ∀ {channelNo : ℕ} {s : InitState},
    initChannels parts left channelNo 12 s = .ok ((), s) := by
  induction left with
  | zero => exact rfl
  | succ left ih => exact ih

/-- What the loops do: they look at the partitions of the first disk. -/
theorem initChannels_eq (left : ℕ) (s : InitState) :
    initChannels parts (left + 1) 0 0 s =
      (scanSlots 1 (parts 1) 12 0 (.primary, 0) >>= fun _ => pure ()) s := by
  refine bind_congr_run rfl fun partIdx s' hrun => ?_
  rw [(scanSlots_partIdx 1 (parts 1) 12 rfl).ok hrun]
  exact initChannels_twelve left

theorem initChannels_keeps {h : ℕ} (hne : h ≠ 1) (left : ℕ) :
    Keeps (fun s => s.disks h) (initChannels parts left 0 0) := by
  cases left with
  | zero => exact .pure _
  | succ left =>
    intro s
    rw [post, wp, initChannels_eq]
    exact (scanSlots_keeps hne (parts 1) 12).bind (fun _ => .pure ()) s

/-- The disks after the first have a file system on every partition only if they had one. -/
theorem formatted_of_formatsAll (h : FormatsAll parts channelCnt s) :
    LaterFormatted parts channelCnt s := by
  obtain ⟨s', hrun, hall⟩ := h
  intro c hc h0 k hk hne
  obtain ⟨hmagic, -⟩ := hall c hc k hk hne
  have hone : c * 2 + 1 ≠ 1 := by omega
  have hkeeps : Keeps (fun s => s.disks (c * 2 + 1)) (filesysInit parts channelCnt) := by
    refine Keeps.bind (.zoom _ fun _ _ => rfl) fun _ => (Keeps.check _ _).bind fun _ => ?_
    exact initChannels_keeps hone channelCnt
  have hsame : s'.disks (c * 2 + 1) = s.disks (c * 2 + 1) := (hkeeps s).ok hrun
  rwa [hsame] at hmagic

/-- On the first disk every partition ends up with a file system, unless one has no room for it. -/
theorem initChannels_first {E : Fault → Prop} (hok : SlotsOk (parts 1))
    (hmem : ∀ k, s.fs.mallocs k = true) {left : ℕ} (hpos : 0 < left)
    (hE : ∀ k < 12, TooSmall (s.disks 1) (slot (parts 1) k) → E (.panic .ideWrite)) :
    wp (initChannels parts left 0 0) (fun _ s' =>
      SlotsDone (parts 1) (s.disks 1) 12 (s'.disks 1) ∧ (∀ h ≠ 1, s'.disks h = s.disks h) ∧
        ∀ k < 12, ¬ TooSmall (s.disks 1) (slot (parts 1) k)) E s := by
  obtain ⟨left, rfl⟩ := Nat.exists_eq_add_of_le' hpos
  rw [wp, initChannels_eq, ← wp, wp_bind]
  refine wp_of_run <| (scanSlots_wp (s := s) hok hE 12 rfl
    (SlotsDone.refl (parts 1) (s.disks 1)) hmem).mono ?_ fun _ h => h
  rintro _ s' ⟨hdone, hroom⟩ hrun
  exact ⟨hdone, fun h hne => (scanSlots_keeps hne (parts 1) 12 s).ok hrun,
    fun k hk => hroom k hk (Nat.zero_le k)⟩

/-- With memory for the buffer, `filesys_init` is its loops. -/
theorem filesysInit_eq (hmem : s.fs.mallocs 0 = true) : filesysInit parts channelCnt s =
    initChannels parts channelCnt 0 0 { s with
      fs := { s.fs with mallocs := fun k => s.fs.mallocs (k + 1) } } := by
  have hgot : (zoom (·.fs) (fun s fs => { s with fs := fs }) sysMalloc : Kern InitState Bool) s =
      .ok (s.fs.mallocs 0, { s with
        fs := { s.fs with mallocs := fun k => s.fs.mallocs (k + 1) } }) := rfl
  rw [filesysInit, bind_of_ok hgot]
  exact bind_of_ok (check_of_true _ _ hmem)

/-- The partitions without a file system have one afterwards only if there was room for it. -/
theorem room_of_formatsAll (hok : SlotsOk (parts 1)) (hmem : ∀ k, s.fs.mallocs k = true)
    (hpos : 0 < channelCnt) (h : FormatsAll parts channelCnt s) :
    ∀ k < 12, ¬ TooSmall (s.disks 1) (slot (parts 1) k) := by
  obtain ⟨s', hrun, -⟩ := h
  rw [filesysInit_eq (hmem 0)] at hrun
  exact ((initChannels_first (E := fun _ => True) hok (fun k => hmem (k + 1)) hpos
    fun _ _ _ => trivial).ok hrun).2.2

/-- **Which partitions have a file system afterwards.** That all of them have, and none that had one
is written to, takes that the partitions of all disks but the first have one to begin with. If the
partitions of the first disk are apart and on the disk, and there is memory, it takes nothing else
but room for the file systems of those of them that have none. -/
theorem filesysInit_formats (parts : ℕ → PartKind → ℕ → PartitionRec) (channelCnt : ℕ)
    (s : InitState) :
    (FormatsAll parts channelCnt s → LaterFormatted parts channelCnt s) ∧
    (SlotsOk (parts 1) → (∀ k, s.fs.mallocs k = true) → (FormatsAll parts channelCnt s ↔
      LaterFormatted parts channelCnt s ∧
        (0 < channelCnt → ∀ k < 12, ¬ TooSmall (s.disks 1) (slot (parts 1) k)))) := by
  refine ⟨formatted_of_formatsAll, fun hok hmem => ⟨fun h =>
    ⟨formatted_of_formatsAll h, fun hpos => room_of_formatsAll hok hmem hpos h⟩, ?_⟩⟩
  rintro ⟨hlater, hroom⟩
  rw [FormatsAll, filesysInit_eq (hmem 0)]
  rcases Nat.eq_zero_or_pos channelCnt with rfl | hpos
  · exact ⟨_, rfl, fun c hc => absurd hc (Nat.not_lt_zero c)⟩
  obtain ⟨_, s', hrun, hdone, hkeep, -⟩ := (initChannels_first (E := fun _ => False)
    (s := { s with fs := { s.fs with mallocs := fun k => s.fs.mallocs (k + 1) } }) hok
    (fun k => hmem (k + 1)) hpos (hroom hpos)).returns
  refine ⟨s', hrun, fun c hc k hk hne => ?_⟩
  rcases Nat.eq_zero_or_pos c with rfl | hcpos
  · exact ⟨hdone.magic k hk hne, fun hold a ha => hdone.same k hk hne (.inr hold) a (.inl ha)⟩
  · rw [hkeep (c * 2 + 1) (by omega)]
    exact ⟨hlater c hc (by omega) k hk hne, fun _ _ _ => rfl⟩

end

/-- One partition, the first primary one of the disk `hd`. -/
def onePartition (hd : ℕ) : ℕ → PartKind → ℕ → PartitionRec := fun h kind no =>
  if h = hd ∧ kind = .primary ∧ no = 0 then ⟨63, 1000⟩ else ⟨0, 0⟩

/-- Blank disks. -/
def blankDisks : InitState := ⟨fun _ _ => 0, blankFs⟩

/-- On the first disk it is formatted. -/
theorem filesysInit_first_disk : FormatsAll (onePartition 1) 1 blankDisks := by
  have honly : ∀ k < 12, (slot (onePartition 1 1) k).secCnt ≠ 0 → k = 0 := by decide
  have hok : SlotsOk (onePartition 1 1) := by
    refine ⟨fun k hk hne => ?_, fun k hk j hj hne hne' hkj => ?_⟩
    · obtain rfl := honly k hk hne
      decide
    · exact absurd ((honly k hk hne).trans (honly j hj hne').symm) hkj
  refine ((filesysInit_formats (onePartition 1) 1 blankDisks).2 hok fun _ => rfl).2
    ⟨fun c hc h0 => ?_, fun _ k hk hsmall => ?_⟩
  · omega
  · obtain rfl := honly k hk hsmall.present
    exact absurd hsmall.size (by decide)

instance (d : Disk) (part : PartitionRec) : Decidable (HasMagic d part) :=
  inferInstanceAs (Decidable (_ = _))

/-- **On the second disk it is not.** The loops end, and the partition is as blank as before. -/
theorem filesysInit_second_disk : ∃ s',
    filesysInit (onePartition 3) 2 blankDisks = .ok ((), s') ∧
    (slot (onePartition 3 3) 0).secCnt ≠ 0 ∧
      ¬ HasMagic (s'.disks 3) (slot (onePartition 3 3) 0) := by
  have hrun : value? (filesysInit (onePartition 3) 2) blankDisks = some () := by decide +kernel
  exact ⟨_, eq_ok_of_value? hrun, by decide, by decide +kernel⟩

end X86Os
