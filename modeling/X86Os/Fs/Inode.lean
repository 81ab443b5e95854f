import X86Os.Fs.Layout

/-!
# Inodes on disk

The inode table is an array of 4096 records of 76 bytes, packed back to back from the first sector
of the table on. A record may straddle two sectors, so `inode_sync` and `inode_delete` read one or
two sectors, replace 76 bytes and write the sectors back.

`inode_sync` keeps the inode number in a `uint8_t`. Whatever number an inode has, it is written to
the slot of that number modulo 256; `inodeSync_spec` says what a write-back does to the table as a
whole, and the round trip of an inode through its slot comes out of it for numbers below 256.
-/

namespace X86Os

open X86Os.Comp

/-- `struct inode`, without the list tag that links it into `open_inodes`. -/
structure Inode where
  iNo : Word
  iSize : Word
  iOpenCnts : Word
  writeDeny : Bool
  /-- Thirteen block addresses: twelve direct ones and the table of the indirect ones. -/
  iSectors : ℕ → Word

namespace Inode

/-- The nineteen words of the structure, with the two list pointers null. -/
def words (i : Inode) : ℕ → Word
  | 0 => i.iNo
  | 1 => i.iSize
  | 2 => i.iOpenCnts
  | 3 => if i.writeDeny then 1 else 0
  | j + 4 => if j < 13 then i.iSectors j else 0

/-- The structure as `memcpy` copies it. -/
def toRecord (i : Inode) : Buf := Buf.ofWords i.words

/-- The structure that `memcpy` makes of a record. -/
def ofRecord (r : Buf) : Inode where
  iNo := r.toWords 0
  iSize := r.toWords 1
  iOpenCnts := r.toWords 2
  writeDeny := r.toWords 3 != 0
  iSectors := fun j => if j < 13 then r.toWords (4 + j) else 0

end Inode

/-- `sizeof(struct inode)`. -/
def inodeSize : ℕ := 76

/-- `struct inode_position`. -/
structure InodePosition where
  twoSec : Bool
  secLba : ℕ
  offSize : ℕ

section

variable (part : Partition)

/-- The position that `inode_locate` computes. -/
def inodePosition (inodeNo : ℕ) : InodePosition where
  twoSec := decide (512 - inodeNo * inodeSize % 512 < inodeSize)
  secLba := part.sb.inodeTableLba + inodeNo * inodeSize / 512
  offSize := inodeNo * inodeSize % 512

/-- `inode_locate`. -/
def inodeLocate (inodeNo : ℕ) : Kern Disk InodePosition := do
  ASSERT .inodeLocate (decide (inodeNo < 4096))
  pure (inodePosition part inodeNo)

/-- The number of sectors a record is spread over. -/
def InodePosition.secs (pos : InodePosition) : ℕ := if pos.twoSec then 2 else 1

/-- A block of the heap: the size `sys_malloc` was asked for, and what is in it. -/
structure HeapBlock where
  size : ℕ
  bytes : Buf

/-- The read, overwrite and write back that `inode_sync` and `inode_delete` have in common: 76 bytes
of `src` go to the record at `pos`. A transfer past the end of the buffer is a wild access; the
record lies within the sectors. -/
def overwriteRecord (pos : InodePosition) (src : Buf) (ioBuf : HeapBlock) : Kern Disk Unit := do
  check (decide (512 * pos.secs ≤ ioBuf.size)) .wild
  let inodeBuf ← ideRead pos.secLba ioBuf.bytes pos.secs
  ideWrite pos.secLba (inodeBuf.splice pos.offSize src inodeSize) pos.secs

/-- The copy of an inode that `inode_sync` writes. -/
def pureInode (inode : Inode) : Inode := { inode with iOpenCnts := 0, writeDeny := false }

/-- `inode_sync`. The number is kept in a `uint8_t`. -/
def inodeSyncIn (inode : Inode) (ioBuf : HeapBlock) : Kern Disk Unit := do
  let inodeNo := inode.iNo.toNat % 256
  let pos ← inodeLocate part inodeNo
  ASSERT .inodeSync (decide (pos.secLba ≤ part.startLba + part.secCnt))
  overwriteRecord pos (pureInode inode).toRecord ioBuf

/-- `inode_sync` with a buffer of two sectors, as all its callers but `file_write` have it. -/
def inodeSync (inode : Inode) (ioBuf : Buf) : Kern Disk Unit := inodeSyncIn part inode ⟨1024, ioBuf⟩

/-- `inode_delete`, with the buffer of two sectors that `inode_release` allocates. -/
def inodeDelete (inodeNo : ℕ) (ioBuf : Buf) : Kern Disk Unit := do
  ASSERT .inodeDelete (decide (inodeNo < 4096))
  let pos ← inodeLocate part inodeNo
  ASSERT .inodeDelete (decide (pos.secLba ≤ part.startLba + part.secCnt))
  overwriteRecord pos (fun _ => 0) ⟨1024, ioBuf⟩

/-- The part of `inode_open` that reads a record into the fresh buffer `inode_buf`. The result
starts at the record. -/
def loadInode (inodeNo : ℕ) : Kern Disk Buf := do
  let pos ← inodeLocate part inodeNo
  let inodeBuf ← ideRead pos.secLba (fun _ => 0) pos.secs
  pure fun k => inodeBuf (pos.offSize + k)

/-- The record of an inode number, as `inode_open` reads it. -/
def inodeRecord (d : Disk) (inodeNo : ℕ) : Buf := fun k =>
  Buf.splice (fun _ => 0) 0 (d.read (inodePosition part inodeNo).secLba)
    ((inodePosition part inodeNo).secs * 512) ((inodePosition part inodeNo).offSize + k)

end

/-- The record of `inode` after a write-back: its number, size and block addresses, and the members
that mean nothing on disk cleared. -/
structure IsPureRecord (inode : Inode) (r : Buf) : Prop where
  iNo : r.toWords 0 = inode.iNo
  iSize : r.toWords 1 = inode.iSize
  iOpenCnts : r.toWords 2 = 0
  writeDeny : r.toWords 3 = 0
  iSectors : ∀ j < 13, r.toWords (4 + j) = inode.iSectors j
  inodeTag : r.toWords 17 = 0 ∧ r.toWords 18 = 0

/-! ### Records -/

/-- A record is made of its first 76 bytes. -/
theorem toWords_eq_of_record {r r' : Buf} (h : ∀ k < inodeSize, r k = r' k) {j : ℕ} (hj : j < 19) :
    r.toWords j = r'.toWords j :=
  Buf.toWords_congr fun k _ hk => h k (by rw [inodeSize]; omega)

theorem Inode.ofRecord_congr {r r' : Buf} (h : ∀ k < inodeSize, r k = r' k) :
    Inode.ofRecord r = Inode.ofRecord r' := by
  have hw : ∀ {j : ℕ}, j < 19 → r.toWords j = r'.toWords j := toWords_eq_of_record h
  simp only [Inode.ofRecord, hw (show 0 < 19 by omega), hw (show 1 < 19 by omega),
    hw (show 2 < 19 by omega), hw (show 3 < 19 by omega), Inode.mk.injEq, true_and]
  funext j
  split
  · exact hw (by omega)
  · rfl

/-- A pure record is the one that the write-back makes, byte for byte. -/
theorem isPureRecord_iff {inode : Inode} {r : Buf} :
    IsPureRecord inode r ↔ ∀ k < inodeSize, r k = (pureInode inode).toRecord k := by
  constructor
  · intro h k hk
    rw [inodeSize] at hk
    have hw : ∀ j < 19, r.toWords j = (pureInode inode).words j := by
      intro j hj
      match j with
      | 0 => exact h.iNo
      | 1 => exact h.iSize
      | 2 => exact h.iOpenCnts
      | 3 => exact h.writeDeny
      | j + 4 =>
        rw [Inode.words]
        split
        · rename_i hj'
          rw [Nat.add_comm j 4]
          exact h.iSectors j hj'
        · obtain rfl | rfl : j = 13 ∨ j = 14 := by omega
          · exact h.inodeTag.1
          · exact h.inodeTag.2
    calc r k = Buf.ofWords r.toWords k := by rw [Buf.ofWords_toWords]
      _ = (pureInode inode).toRecord k := Buf.ofWords_congr (hw _ (by omega))
  · intro h
    have hw : ∀ {j : ℕ}, j < 19 → r.toWords j = (pureInode inode).words j := by
      intro j hj
      rw [toWords_eq_of_record h hj, Inode.toRecord, Buf.toWords_ofWords]
    refine ⟨hw (by omega), hw (by omega), hw (by omega), hw (by omega), fun j hj => ?_,
      hw (by omega), hw (by omega)⟩
    rw [hw (by omega), Nat.add_comm 4 j, Inode.words, if_pos hj]
    rfl

/-! ### Positions -/

section

variable {part : Partition} {d : Disk} {n : ℕ}

theorem secs_inodePosition :
    (inodePosition part n).secs = if 512 - n * 76 % 512 < 76 then 2 else 1 := by
  simp only [InodePosition.secs, inodePosition, inodeSize]
  by_cases h : 512 - n * 76 % 512 < 76 <;> simp [h]

/-- **Where a record is.** Its byte `k` is byte `76 n + k` of the table. -/
theorem inodeRecord_eq {k : ℕ} (hk : k < inodeSize) :
    inodeRecord part d n k = d.read part.sb.inodeTableLba (n * inodeSize + k) := by
  rw [inodeSize] at hk
  have hin : (inodePosition part n).offSize + k < 0 + (inodePosition part n).secs * 512 := by
    rw [secs_inodePosition]
    simp only [inodePosition, inodeSize]
    split <;> omega
  rw [inodeRecord, Buf.splice_of_mem (Nat.zero_le _) hin, Nat.sub_zero]
  simp only [inodePosition]
  rw [Disk.read_add]
  congr 1
  omega

/-- A record depends on the sectors of the table only. -/
theorem record_congr {d d' : Disk} (hn : n < 4096)
    (hd : ∀ a, part.sb.inodeTableLba ≤ a → a < part.sb.dataStartLba → d' a = d a) :
    Inode.ofRecord (inodeRecord part d' n) = Inode.ofRecord (inodeRecord part d n) := by
  refine Inode.ofRecord_congr fun k hk => ?_
  rw [inodeRecord_eq hk, inodeRecord_eq hk, Disk.read, Disk.read, hd]
  · omega
  · have := part.dataStartLba_eq
    rw [inodeSize] at hk ⊢
    omega

variable (part) in
/-- The sectors of a record lie in the table. -/
theorem secLba_le (hn : n < 4096) :
    part.sb.inodeTableLba ≤ (inodePosition part n).secLba ∧
      (inodePosition part n).secLba + (inodePosition part n).secs ≤
        part.sb.inodeTableLba + 608 := by
  rw [secs_inodePosition]
  simp only [inodePosition, inodeSize]
  split <;> omega

theorem secs_le (pos : InodePosition) : 0 < pos.secs ∧ pos.secs ≤ 2 := by
  rw [InodePosition.secs]
  split <;> omega

variable (part) in
theorem secLba_le_maxLba (hn : n < 4096) : (inodePosition part n).secLba ≤ maxLba := by
  have h1 := secLba_le part hn
  have h2 := part.table_le
  have h3 := (secs_le (inodePosition part n)).1
  omega

theorem secLba_le_end (hn : n < 4096) :
    (inodePosition part n).secLba ≤ part.startLba + part.secCnt := by
  have h1 := secLba_le part hn
  have h2 := part.dataStartLba_le
  have h3 := part.dataStartLba_eq
  omega

/-- What is on disk after the record of `n` was overwritten with `src`. -/
structure Overwrites (part : Partition) (n : ℕ) (src : Buf) (d d' : Disk) : Prop where
  table : ∀ o, d'.read part.sb.inodeTableLba o =
    if n * inodeSize ≤ o ∧ o < n * inodeSize + inodeSize then src (o - n * inodeSize)
    else d.read part.sb.inodeTableLba o
  frame : ∀ a, a < part.sb.inodeTableLba ∨ part.sb.inodeTableLba + 608 ≤ a → d' a = d a

variable (part d) in
/-- **One record changes.** -/
theorem overwriteRecord_spec (hn : n < 4096) (src : Buf) (ioBuf : HeapBlock)
    (hsize : 512 * (inodePosition part n).secs ≤ ioBuf.size) :
    ∃ d', overwriteRecord (inodePosition part n) src ioBuf d = .ok ((), d') ∧
      Overwrites part n src d d' := by
  set pos := inodePosition part n with hpos
  set buf := (ioBuf.bytes.splice 0 (d.read pos.secLba) (pos.secs * 512)).splice pos.offSize src
    inodeSize with hbuf
  obtain ⟨hs0, hs2⟩ := secs_le pos
  have hs1 : pos.secs ≤ 256 := by omega
  have hwp : wp (overwriteRecord pos src ioBuf) (fun _ d' => d' = d.write pos.secLba buf pos.secs)
      (fun _ => False) d := by
    have hmax := Nat.not_lt.2 (secLba_le_maxLba part hn)
    simp only [overwriteRecord, wp_bind, wp_check, wp_ideRead hs0 hs1, wp_ideWrite hs0 hs1, ← hbuf,
      implies_true, true_and, decide_eq_true_eq, decide_eq_false_iff_not]
    exact ⟨fun _ => ⟨fun _ => hmax, hmax⟩, fun h => absurd hsize h⟩
  cases hrun : overwriteRecord pos src ioBuf d with
  | error f => exact (hwp.error hrun).elim
  | ok r =>
    obtain ⟨⟨⟩, d'⟩ := r
    obtain rfl := hwp.ok hrun
    refine ⟨_, rfl, fun o => ?_, fun a ha => Disk.write_of_not_mem ?_⟩
    · have hsec : pos.secLba = part.sb.inodeTableLba + n * inodeSize / 512 := by
        rw [hpos, inodePosition]
      have hoff : pos.offSize = n * inodeSize % 512 := by rw [hpos, inodePosition]
      have hspan : n * inodeSize % 512 + inodeSize ≤ 512 * pos.secs := by
        rw [hpos, secs_inodePosition, inodeSize]
        split <;> omega
      rw [hsec, Disk.read_write, hbuf, hoff]
      simp only [Buf.splice, hsec]
      -- inside the sectors, the byte is in the record or was just read; outside, it is untouched
      split_ifs with h1 h2 h3 h4 h5 h6 h7
      · congr 1; omega
      · omega
      · omega
      · rw [Disk.read_add]; congr 1; omega
      · omega
      · omega
      · omega
      · rfl
    · have := secLba_le part hn
      rw [← hpos] at this
      omega

variable (part d) in
/-- What is left of `inode_sync` once the position is known. -/
theorem inodeSyncIn_eq (inode : Inode) (ioBuf : HeapBlock) : inodeSyncIn part inode ioBuf d =
    overwriteRecord (inodePosition part (inode.iNo.toNat % 256)) (pureInode inode).toRecord ioBuf
      d := by
  have hn : inode.iNo.toNat % 256 < 4096 := by omega
  rw [inodeSyncIn, inodeLocate, bind_of_ok (bind_of_ok (ASSERT_of_true d (decide_eq_true hn))),
    bind_of_ok (ASSERT_of_true d (decide_eq_true (secLba_le_end hn)))]

variable (part d) in
/-- **What `inode_sync` does**: the inode goes to the slot of its number modulo 256. -/
theorem inodeSyncIn_spec (inode : Inode) (ioBuf : HeapBlock)
    (hsize : 512 * (inodePosition part (inode.iNo.toNat % 256)).secs ≤ ioBuf.size) :
    ∃ d', inodeSyncIn part inode ioBuf d = .ok ((), d') ∧
      Overwrites part (inode.iNo.toNat % 256) (pureInode inode).toRecord d d' := by
  rw [inodeSyncIn_eq]
  exact overwriteRecord_spec part d (by omega) _ _ hsize

/-- In a buffer that is too short it is a wild access. -/
theorem inodeSyncIn_of_short {inode : Inode} {ioBuf : HeapBlock}
    (h : ioBuf.size < 512 * (inodePosition part (inode.iNo.toNat % 256)).secs) :
    inodeSyncIn part inode ioBuf d = .error .wild := by
  rw [inodeSyncIn_eq, overwriteRecord]
  simp only [bind_apply, check, decide_eq_false (Nat.not_le.mpr h), Bool.false_eq_true, if_false]

/-- Two sectors are always enough. -/
theorem secs_le_two_sectors (pos : InodePosition) : 512 * pos.secs ≤ 1024 := by
  have := (secs_le pos).2
  omega

variable (part d) in
theorem inodeSync_spec (inode : Inode) (ioBuf : Buf) :
    ∃ d', inodeSync part inode ioBuf d = .ok ((), d') ∧
      Overwrites part (inode.iNo.toNat % 256) (pureInode inode).toRecord d d' :=
  inodeSyncIn_spec part d inode _ (secs_le_two_sectors _)

variable (part d) in
/-- **What `inode_delete` does**: the record of the number is cleared. -/
theorem inodeDelete_spec (hn : n < 4096) (ioBuf : Buf) :
    ∃ d', inodeDelete part n ioBuf d = .ok ((), d') ∧ Overwrites part n (fun _ => 0) d d' := by
  obtain ⟨d', hd', h⟩ := overwriteRecord_spec part d hn (fun _ => 0) ⟨1024, ioBuf⟩
    (secs_le_two_sectors _)
  refine ⟨d', ?_, h⟩
  rw [inodeDelete, inodeLocate]
  rw [bind_of_ok (ASSERT_of_true d (decide_eq_true hn)),
    bind_of_ok (bind_of_ok (ASSERT_of_true d (decide_eq_true hn))),
    bind_of_ok (ASSERT_of_true d (decide_eq_true (secLba_le_end hn)))]
  exact hd'

/-- `inode_open` reads the record it is asked for. -/
theorem loadInode_eq (hn : n < 4096) :
    loadInode part n d = .ok (inodeRecord part d n, d) := by
  obtain ⟨hs0, hs2⟩ := secs_le (inodePosition part n)
  have hs1 : (inodePosition part n).secs ≤ 256 := by omega
  have hmax := secLba_le_maxLba part hn
  have hwp : wp (loadInode part n) (fun r d' => d' = d ∧ r = inodeRecord part d n)
      (fun _ => False) d := by
    simp only [loadInode, inodeLocate, wp_bind, wp_ASSERT, wp_pure, wp_ideRead hs0 hs1,
      decide_eq_true_eq, decide_eq_false_iff_not, hn, hmax, not_true_eq_false, false_implies,
      and_true, true_implies]
    exact ⟨⟨trivial, rfl⟩, Nat.not_lt.2 hmax⟩
  obtain ⟨_, _, hrun, rfl, rfl⟩ := hwp.returns
  exact hrun

/-- A record after another one was overwritten. -/
theorem Overwrites.record_of_ne {d' : Disk} {src : Buf} (h : Overwrites part n src d d') {m k : ℕ}
    (hm : m ≠ n) (hk : k < inodeSize) : inodeRecord part d' m k = inodeRecord part d m k := by
  rw [inodeRecord_eq hk, inodeRecord_eq hk, h.table, if_neg]
  rw [inodeSize] at hk ⊢
  omega

theorem Overwrites.record_self {d' : Disk} {src : Buf} (h : Overwrites part n src d d') {k : ℕ}
    (hk : k < inodeSize) : inodeRecord part d' n k = src k := by
  rw [inodeRecord_eq hk, h.table, if_pos (by omega), Nat.add_sub_cancel_left]

variable (part d) in
/-- **One record is cleared.** Read back the way `inode_open` does, the record of `n` is zero after
`inode_delete`, the record of every other number is what it was, and nothing outside the table has
changed. -/
theorem inodeDelete_one_record (hn : n < 4096) (ioBuf : Buf) :
    ∃ d', inodeDelete part n ioBuf d = .ok ((), d') ∧
      (∃ r, loadInode part n d' = .ok (r, d') ∧ ∀ k < inodeSize, r k = 0) ∧
      (∀ m < 4096, m ≠ n → ∃ r r', loadInode part m d = .ok (r, d) ∧
        loadInode part m d' = .ok (r', d') ∧ ∀ k < inodeSize, r' k = r k) ∧
      ∀ a, a < part.sb.inodeTableLba ∨ part.sb.inodeTableLba + 608 ≤ a → d' a = d a := by
  obtain ⟨d', hd', h⟩ := inodeDelete_spec part d hn ioBuf
  refine ⟨d', hd', ⟨_, loadInode_eq hn, fun k hk => h.record_self hk⟩, fun m hm hne => ?_, h.frame⟩
  exact ⟨_, _, loadInode_eq hm, loadInode_eq hm, fun k hk => h.record_of_ne hne hk⟩

/-! ### The round trip -/

/-- What a write-back should do: afterwards the record of the inode's own number is the inode, and
the record of every other number is what it was. -/
structure RoundTrip (part : Partition) (inode : Inode) (d d' : Disk) : Prop where
  self : IsPureRecord inode (inodeRecord part d' inode.iNo.toNat)
  others : ∀ m < 4096, m ≠ inode.iNo.toNat → ∀ k < inodeSize,
    inodeRecord part d' m k = inodeRecord part d m k

/-- Overwriting the inode's own slot is a round trip. -/
theorem Overwrites.roundTrip {inode : Inode} {d' : Disk}
    (h : Overwrites part inode.iNo.toNat (pureInode inode).toRecord d d') :
    RoundTrip part inode d d' where
  self := isPureRecord_iff.2 fun _ hk => h.record_self hk
  others := fun _ _ hm _ hk => h.record_of_ne hm hk

/-- Overwriting another slot is a round trip only if nothing changes by it. -/
theorem Overwrites.roundTrip_iff_of_ne {inode : Inode} {d' : Disk} {m : ℕ} (hm : m < 4096)
    (h : Overwrites part m (pureInode inode).toRecord d d') (hne : m ≠ inode.iNo.toNat) :
    RoundTrip part inode d d' ↔
      IsPureRecord inode (inodeRecord part d inode.iNo.toNat) ∧
        IsPureRecord inode (inodeRecord part d m) := by
  simp only [isPureRecord_iff]
  constructor
  · intro hr
    refine ⟨fun k hk => ?_, fun k hk => ?_⟩
    · rw [← h.record_of_ne hne.symm hk]
      exact isPureRecord_iff.1 hr.self k hk
    · rw [← hr.others m hm hne k hk, h.record_self hk]
  · rintro ⟨hself, hslot⟩
    refine ⟨isPureRecord_iff.2 fun k hk => ?_, fun j _ _ k hk => ?_⟩
    · rw [h.record_of_ne hne.symm hk, hself k hk]
    · by_cases hj : j = m
      · rw [hj, h.record_self hk, hslot k hk]
      · exact h.record_of_ne hj hk

/-- What the write-back comes to, by the number of the inode. -/
theorem roundTrip_iff {inode : Inode} {d' : Disk}
    (h : Overwrites part (inode.iNo.toNat % 256) (pureInode inode).toRecord d d') :
    RoundTrip part inode d d' ↔ inode.iNo.toNat < 256 ∨
      IsPureRecord inode (inodeRecord part d inode.iNo.toNat) ∧
        IsPureRecord inode (inodeRecord part d (inode.iNo.toNat % 256)) := by
  by_cases hlt : inode.iNo.toNat < 256
  · rw [Nat.mod_eq_of_lt hlt] at h
    exact iff_of_true h.roundTrip (Or.inl hlt)
  · rw [h.roundTrip_iff_of_ne (by omega) (by omega), or_iff_right hlt]

/-- **When a write-back is a round trip.** `inode_sync` always returns. It writes the inode back to
its own slot and changes no other exactly if the number is below 256, or if the slot of the number
and the slot of the number modulo 256 both hold the inode already. -/
theorem inodeSync_roundTrip_iff (part : Partition) (inode : Inode) (ioBuf : Buf) (d : Disk) :
    ∃ d', inodeSync part inode ioBuf d = .ok ((), d') ∧
      (RoundTrip part inode d d' ↔ inode.iNo.toNat < 256 ∨
        IsPureRecord inode (inodeRecord part d inode.iNo.toNat) ∧
          IsPureRecord inode (inodeRecord part d (inode.iNo.toNat % 256))) := by
  obtain ⟨d', hd', h⟩ := inodeSync_spec part d inode ioBuf
  exact ⟨d', hd', roundTrip_iff h⟩

/-- A partition of 1000 sectors behind a boot record. -/
def smallPart : Partition where
  startLba := 1
  secCnt := 1000
  sb :=
    { magic := 0x19590318, secCnt := 1000, inodeCnt := 4096, partLbaBase := 1, blockBitmapLba := 3,
      blockBitmapSects := 1, inodeBitmapLba := 4, inodeBitmapSects := 1, inodeTableLba := 5,
      inodeTableSects := 608, dataStartLba := 613, rootInodeNo := 0, dirEntrySize := 24 }
  blockBitmapLba_eq := rfl
  blockBitmapSects_pos := by decide
  inodeBitmapLba_eq := rfl
  inodeBitmapSects_eq := rfl
  inodeTableLba_eq := rfl
  inodeTableSects_eq := rfl
  dataStartLba_eq := rfl
  rootInodeNo_eq := rfl
  dirEntrySize_eq := rfl
  dataStartLba_le := by decide
  bitmap_le := by decide
  end_le := by decide

/-- The record of number 6 is spread over two sectors. -/
theorem inodeDelete_one_record_six : ∃ d' : Disk,
    inodeDelete smallPart 6 (fun _ => 0) (fun _ _ => 7) = .ok ((), d') ∧
    ∀ m < 4096, m ≠ 6 → ∃ r r', loadInode smallPart m (fun _ _ => 7) = .ok (r, fun _ _ => 7) ∧
      loadInode smallPart m d' = .ok (r', d') ∧ ∀ k < inodeSize, r' k = r k := by
  obtain ⟨d', hd', -, hm, -⟩ :=
    inodeDelete_one_record smallPart (fun _ _ => 7) (n := 6) (by decide) fun _ => 0
  exact ⟨d', hd', hm⟩

/-- A one-byte file. -/
def oneByteFile (iNo : Word) : Inode := ⟨iNo, 1, 0, false, fun _ => 0⟩

/-- **Inode 256 is written to slot 0.** On a blank disk, the slot of number 256 stays blank, and the
number in slot 0, the root directory's, becomes 256. -/
theorem inodeSync_not_roundTrip :
    ∃ d', inodeSync smallPart (oneByteFile 256) (fun _ => 0) (fun _ _ => 0) = .ok ((), d') ∧
      (inodeRecord smallPart d' 256).toWords 1 = 0 ∧ (inodeRecord smallPart d' 0).toWords 0 = 256 ∧
      ¬ RoundTrip smallPart (oneByteFile 256) (fun _ _ => 0) d' := by
  obtain ⟨d', hd', h⟩ := inodeSync_spec smallPart (fun _ _ => 0)
    (oneByteFile 256) (fun _ => 0)
  have h1 : (inodeRecord smallPart d' 256).toWords 1 = 0 := by
    rw [toWords_eq_of_record (fun k hk => h.record_of_ne (by decide) hk) (by omega)]
    decide
  have h2 : (inodeRecord smallPart d' 0).toWords 0 = 256 := by
    have h0 : Overwrites smallPart 0 (pureInode (oneByteFile 256)).toRecord (fun _ _ => 0) d' := h
    rw [toWords_eq_of_record (fun k hk => h0.record_self hk) (by omega)]
    decide
  refine ⟨d', hd', h1, h2, fun hr => ?_⟩
  have h3 : (inodeRecord smallPart d' 256).toWords 1 = 1 := hr.self.iSize
  rw [h1] at h3
  exact absurd h3 (by decide)

end

end X86Os
