import Mathlib.Order.Interval.Finset.Nat
import X86Os.Fs.FileContents
import X86Os.Fs.View

/-!
# The limits of a file

A file has at most 140 blocks, and `file_write` and `file_read` each have checks of their own for
it. `file_write` refuses a sum of size and count above 71680 and then asserts that the blocks are at
most 140, where a size that fills its last block counts one block more; so 71680 itself, which
passes the first check, fails the second. It ends with a write-back of the inode through the buffer
of its data loop, one sector, which is too short for a record that lies in two. `file_read` asserts
that the first and the last block it needs are below 139, and with the same rounding it stops at
files that `file_write` has written.

Both checks are on sums of 32-bit words, and the loops that move the data are not: they run on the
count. With a count large enough for the sum to wrap around, a write sets out from the last block of
the file and a read from its position, and both go on past the end of `all_blocks`. On the way they
work on sector 0 of the disk, since the entries that nothing was collected for are 0.
-/

namespace X86Os

open X86Os.Comp FsState

/-! ### Files in good order -/

/-- A regular file with the contents `c`. Its blocks are of those that were free in some bitmap `u`,
as the blocks are that are free now, and those are sectors of the disk. -/
def RegularFile (part : Partition) (s : FsState) (h : ℕ) (c : List Byte) : Prop :=
  ∃ u bs t, Settled part u s.disk h s c bs t ∧ FreeOnDisk part u

/-- Byte `j` of a file, where its inode has it. -/
def FsState.byte (s : FsState) (h j : ℕ) : Byte :=
  s.disk (slotAddr (s.inode h) s.disk (j / 512)).toNat (j % 512)

section

variable {part : Partition} {u b : Bitmap} {bs : List Word} {t : Option Word} {d0 d : Disk}
  {inode : Inode} {c : List Byte} {s s' : FsState} {f h n m : ℕ} {count : Word} {E : Fault → Prop}

/-- No block that was free is past the end of the disk, so no fault is to be allowed for. -/
theorem ioFaults_of_le (hu : FreeOnDisk part u) : IoFaults part u E :=
  fun i hi hc hgt => absurd (hu i hi hc) (Nat.not_le.2 hgt)

/-- The addresses in the inode and its table are those of the blocks. -/
theorem Holds.slotAddr_eq (hs : Holds part u d0 d b inode c bs t) {k : ℕ} (hk : k < 140) :
    slotAddr inode d k = bs.getD k 0 := by
  rw [slotAddr]
  split
  · exact hs.direct k (by assumption)
  rename_i h12
  rw [if_neg (by omega), hs.table]
  cases t with
  | none =>
    have hlen : bs.length ≤ 12 := by
      by_contra hgt
      exact absurd (hs.table_iff.2 (by omega)) (by simp)
    rw [Option.getD_none, if_pos rfl, List.getD_eq_default _ _ (by omega)]
  | some w =>
    have hw : w ≠ 0 := hs.pool.ne_zero (List.mem_append_left _ (by simp))
    rw [Option.getD_some, if_neg hw, hs.indirect w rfl k (by omega) hk]

theorem Holds.byte_eq (hs : Holds part u d0 s.disk b (s.inode h) c bs t) {j : ℕ}
    (hj : j < c.length) : s.byte h j = c.getD j 0 := by
  have h1 := hs.room
  have h2 := hs.length_le
  rw [FsState.byte, hs.slotAddr_eq (by omega), hs.data j hj]

/-- The size is below the limit, always by at least one byte. -/
theorem Settled.length_lt (hs : Settled part u d0 h s c bs t) : c.length < 71680 := by
  have h1 := hs.1.length_le
  rcases hs.2 with h2 | ⟨-, rfl⟩
  · omega
  · exact Nat.zero_lt_succ _

/-- A file does not depend on where its own sectors are compared from. -/
theorem Settled.regular (hs : Settled part u d0 h s c bs t) (hu : FreeOnDisk part u) :
    RegularFile part s h c :=
  ⟨u, bs, t, ⟨hs.1.restrict fun _ _ => rfl, hs.2⟩, hu⟩

theorem Settled.updFile (hs : Settled part u d0 h s c bs t) (g : ℕ) (e : File → File) :
    Settled part u d0 h (s.updFile g e) c bs t := hs

/-! ### Past the end of `all_blocks` -/

/-- The entries of `all_blocks` are all sectors of the disk. -/
def AllOnDisk (all : ℕ → Word) : Prop := ∀ k < 140, (all k).toNat ≤ maxLba

theorem Holds.getD_le (hs : Holds part u d0 d b inode c bs t) (hu : FreeOnDisk part u) (k : ℕ) :
    (bs.getD k 0).toNat ≤ maxLba := by
  rcases Nat.lt_or_ge k bs.length with hk | hk
  · obtain ⟨i, hi, he, hc, -⟩ := hs.pool.mem _ (List.mem_append_right _ (mem_of_getD hk))
    rw [he]
    exact hu i hi hc
  · rw [List.getD_eq_default _ _ hk]
    exact Nat.zero_le _

theorem Holds.iSectors_le (hs : Holds part u d0 d b inode c bs t) (hu : FreeOnDisk part u) {k : ℕ}
    (hk : k < 13) : (inode.iSectors k).toNat ≤ maxLba := by
  rcases Nat.lt_or_ge k 12 with h12 | h12
  · rw [hs.direct k h12]
    exact hs.getD_le hu k
  · obtain rfl : k = 12 := by omega
    rw [hs.table]
    cases t with
    | none => exact Nat.zero_le _
    | some w =>
      obtain ⟨i, hi, rfl, hc, -⟩ := hs.pool.mem w (List.mem_append_left _ (by simp))
      exact hu i hi hc

/-- What is read from the table is on the disk, if there is a table. -/
theorem Holds.readTable_le (hs : Holds part u d0 s.disk b inode c bs t) (hu : FreeOnDisk part u)
    (hlen : 12 < bs.length) {b0 : ℕ → Word} (hb0 : ∀ k < 12, (b0 k).toNat ≤ maxLba)
    {Q : (ℕ → Word) → FsState → Prop} (hQ : ∀ all, AllOnDisk all → Q all s) :
    wp (readTable (inode.iSectors 12) b0) Q E s := by
  obtain ⟨w, rfl⟩ := Option.isSome_iff_exists.1 (hs.table_iff.2 hlen)
  refine readTable_wp (fun hgt => absurd (hs.iSectors_le hu (by omega)) (Nat.not_le.2 hgt))
    fun all hall hlow => hQ all fun k hk => ?_
  rcases Nat.lt_or_ge k 12 with h12 | h12
  · rw [hlow k h12]
    exact hb0 k h12
  · rw [hall k h12 hk, hs.table, Option.getD_some, hs.indirect w rfl k h12 hk]
    exact hs.getD_le hu k

/-- **A loop that writes past the last block** of the largest file ends in a wild access. -/
theorem writeLoop_wild {all : ℕ → Word} {src : Buf} {count : ℕ} (hall : AllOnDisk all) (fuel : ℕ) :
    ∀ {written : ℕ} {first : Bool} {io : Buf} {s : FsState}, (s.inode h).iSize.toNat ≤ 71680 →
      71680 < (s.inode h).iSize.toNat + (count - written) →
      71680 < (s.inode h).iSize.toNat + fuel →
      wp (writeLoop f h all src count fuel written first io) (fun _ _ => False) (· = .wild) s := by
  induction fuel with
  | zero => intros; omega
  | succ fuel ih =>
    intro written first io s hle hmore hfuel
    rw [writeLoop, if_pos (by omega)]
    simp only [wp_bind, wp_get, wp_check, maxBlocks, implies_true, and_true]
    intro hcheck
    have hsec := of_decide_eq_true hcheck
    have hlba := hall _ hsec
    refine writeSector_wp (by omega) (fun hgt => absurd hlba (Nat.not_le.2 hgt)) fun x _ _ => ?_
    simp only [wp_modify]
    generalize hchunk : min (count - written) (512 - (s.inode h).iSize.toNat % 512) = chunk
    have hsize : ((s.inode h).iSize + BitVec.ofNat 32 chunk).toNat =
        (s.inode h).iSize.toNat + chunk := by
      rw [BitVec.toNat_add, BitVec.toNat_ofNat]
      omega
    refine ih ?_ ?_ ?_ <;>
    · simp only [updFile, updInode, if_true, hsize]
      omega

/-- **A loop that reads past it** does too. -/
theorem readLoop_wild {all : ℕ → Word} {size : ℕ} (hall : AllOnDisk all) (fuel : ℕ) :
    ∀ {done : ℕ} {dst : Buf} {s : FsState}, (s.fileTable f).fdPos.toNat ≤ 71680 →
      71680 < (s.fileTable f).fdPos.toNat + (size - done) →
      71680 < (s.fileTable f).fdPos.toNat + fuel →
      wp (readLoop f all true size fuel done dst) (fun _ _ => False) (· = .wild) s := by
  induction fuel with
  | zero => intros; omega
  | succ fuel ih =>
    intro done dst s hle hmore hfuel
    rw [readLoop, if_pos (by omega)]
    simp only [wp_bind, wp_get, wp_check, maxBlocks, Bool.and_true, implies_true, and_true,
      wp_onDisk, wp_ideRead Nat.one_pos (show 1 ≤ 256 by omega), wp_modify]
    intro hcheck
    have hsec := of_decide_eq_true hcheck
    have hlba := hall _ hsec
    refine ⟨fun _ => ?_, fun hgt => absurd hlba (Nat.not_le.2 hgt)⟩
    generalize hchunk : min (size - done) (512 - (s.fileTable f).fdPos.toNat % 512) = chunk
    have hpos : ((s.fileTable f).fdPos + BitVec.ofNat 32 chunk).toNat =
        (s.fileTable f).fdPos.toNat + chunk := by
      rw [BitVec.toNat_add, BitVec.toNat_ofNat]
      omega
    refine ih ?_ ?_ ?_ <;>
    · simp only [updFile, if_true, hpos]
      omega

/-- Without a buffer the first round is one. -/
theorem readLoop_noBuf {all : ℕ → Word} {size fuel done : ℕ} {dst : Buf} (hlt : done < size) :
    wp (readLoop f all false size (fuel + 1) done dst) (fun _ _ => False) (· = .wild) s := by
  rw [readLoop, if_pos hlt]
  simp only [wp_bind, wp_get, wp_check, Bool.and_false, Bool.false_eq_true, false_implies,
    implies_true, and_self]

/-! ### Counts that wrap around -/

theorem lastUsed_le {Q : (ℕ → Word) → FsState → Prop}
    (hle : ∀ k < 13, (inode.iSectors k).toNat ≤ maxLba)
    (hQ : ∀ all, n ≤ 13 → AllOnDisk all → all (n - 1) = inode.iSectors (n - 1) → Q all s) :
    wp (lastUsed inode n) Q (· = .wild) s := by
  simp only [lastUsed, wp_bind, wp_check, wp_pure, implies_true, and_true]
  intro hcheck
  have hlt := of_decide_eq_true hcheck
  refine hQ _ (by omega) (fun k _ => ?_) (if_pos rfl)
  split
  · exact hle _ hlt
  · exact Nat.zero_le _

/-- Collecting blocks for a file that is to have no more of them than it has. -/
theorem collectBlocks_shrink (hu : FreeOnDisk part u)
    (hs : Holds part u d0 s.disk b (s.inode h) c bs t) (hn : bs.length = n) (h0 : 0 < n)
    (hm : m ≤ n) :
    wp (collectBlocks part h n m) (fun r s' => ∃ all, r = some all ∧ AllOnDisk all ∧
      s'.inode = s.inode) (· = .wild) s := by
  have hsect : ∀ k < 13, ((s.inode h).iSectors k).toNat ≤ maxLba := fun k hk => hs.iSectors_le hu hk
  have htable : 12 < n → (s.inode h).iSectors 12 ≠ 0 := fun h12 => hs.table_ne_zero (hn ▸ h12)
  have hzero : ∀ k < 12, ((fun _ => 0 : ℕ → Word) k).toNat ≤ maxLba := fun _ _ => Nat.zero_le _
  rw [collectBlocks]
  split
  · rw [collectSame, wp_bind, wp_get]
    split
    · rw [wp_bind]
      exact lastUsed_le hsect fun all _ hall _ => ⟨all, rfl, hall, rfl⟩
    · rw [wp_bind, wp_ASSERT]
      refine ⟨fun _ => ?_, fun hno => absurd (by simpa using hno) (htable (by omega))⟩
      rw [wp_bind]
      exact hs.readTable_le hu (by omega) hzero fun all hall => ⟨all, rfl, hall, rfl⟩
  split
  · rw [collectDirect, wp_bind, wp_get, wp_bind]
    refine lastUsed_le hsect fun all hn13 hall hlast => ?_
    rw [wp_bind, wp_ASSERT, Nat.sub_eq_zero_of_le hm]
    refine ⟨fun _ => ⟨all, rfl, hall, rfl⟩, fun hno => ?_⟩
    -- the last block is direct, or it is taken for the table
    have hne : (s.inode h).iSectors (n - 1) ≠ 0 := by
      rcases Nat.lt_or_ge (n - 1) 12 with h12 | h12
      · rw [hs.direct _ h12]
        exact hs.getD_ne_zero (by omega)
      · rw [show n - 1 = 12 by omega]
        exact htable (by omega)
    rw [hlast] at hno
    exact absurd (by simpa using hno) hne
  split
  · omega
  · rw [collectIndirect, wp_bind, wp_get]
    simp only [wp_bind, wp_ASSERT]
    refine ⟨fun _ => ?_, fun hno => absurd (by simpa using hno) (htable (by omega))⟩
    refine hs.readTable_le hu (by omega) hzero fun all hall => ?_
    rw [Nat.sub_eq_zero_of_le hm]
    simp only [allocBlocks, wp_pure, wp_bind]
    exact writeTable_wp (fun hgt => absurd (hsect 12 (by omega)) (Nat.not_le.2 hgt))
      fun d' _ _ => ⟨all, rfl, hall, rfl⟩

/-- **A write whose count wraps around** passes the checks and goes past the end. -/
theorem fileWrite_wild {buf : Buf} (hu : FreeOnDisk part u)
    (hs : Settled part u d0 h s c bs t) (hf : (s.fileTable f).fdInode = some h)
    (hheap : HeapForTwo s) (hwrap : 2 ^ 32 ≤ c.length + count.toNat) :
    wp (fileWrite part f buf count) (fun _ _ => False) (· = .wild) s := by
  have hlt := hs.length_lt
  obtain ⟨hs, hlen⟩ := hs
  have hcount := count.isLt
  have hsum : ((s.inode h).iSize + count).toNat = c.length + count.toNat - 2 ^ 32 := by
    rw [BitVec.toNat_add, hs.size]
    omega
  have hlen : bs.length = c.length / 512 + 1 := by
    rcases hlen with hlen | ⟨-, rfl⟩
    · exact hlen
    · rw [List.length_nil] at hwrap
      omega
  have hfirst : (s.inode h).iSectors 0 ≠ 0 := fun he => by
    rw [hs.nil_iff.1 he, List.length_nil] at hlen
    omega
  simp only [fileWrite, wp_bind, wp_get, hf, fileWriteAt, hsum, maxBlocks]
  rw [if_neg (by omega), wp_bind, wp_sysMalloc, if_pos hheap.1, wp_bind, wp_sysMalloc,
    if_pos hheap.2]
  simp only [writeAlloc, firstBlock, wp_bind, wp_get, if_neg hfirst, wp_pure, if_true, writeBlocks,
    hsum, hs.size, wp_ASSERT]
  refine ⟨fun _ => ?_, fun hno => absurd ?_ (of_decide_eq_false hno)⟩
  swap
  · rw [maxBlocks]
    omega
  refine wp.mono (collectBlocks_shrink hu hs hlen (by omega) (by omega)) ?_ fun _ h => h
  rintro r s1 ⟨all, rfl, hall, hinode⟩
  have hsize : ((s1.inode h).iSize).toNat = c.length := by rw [hinode, hs.size]
  simp only [writeData, wp_bind, wp_modify]
  refine wp.mono (writeLoop_wild hall _ ?_ ?_ ?_) (fun _ _ hno => hno.elim) fun _ h => h <;>
  · simp only [updFile, hsize]
    omega

/-- The addresses for a read are on the disk, wherever the read starts. -/
theorem collectRead_le {first last : ℕ} (hu : FreeOnDisk part u)
    (hs : Holds part u d0 s.disk b inode c bs t) (hlast : 12 ≤ last → 12 < bs.length)
    {Q : (ℕ → Word) → FsState → Prop} (hQ : ∀ all, AllOnDisk all → Q all s) :
    wp (collectRead inode first last) Q E s := by
  have hsect : ∀ k < 12, (inode.iSectors k).toNat ≤ maxLba :=
    fun k hk => hs.iSectors_le hu (by omega)
  have hassert : 12 ≤ last → (inode.iSectors 12 != 0) = false → E (.panic .fileRead) :=
    fun h12 hno => absurd (by simpa using hno) (hs.table_ne_zero (hlast h12))
  rw [collectRead]
  split
  · split
    · refine hQ _ fun k _ => ?_
      split
      · exact hsect k (by omega)
      · exact Nat.zero_le _
    · exact hs.readTable_le hu (hlast (by omega)) (fun _ _ => Nat.zero_le _) hQ
  split
  · refine hQ _ fun k _ => ?_
    split
    · exact hsect k (by omega)
    · exact Nat.zero_le _
  split
  · rw [wp_bind, wp_ASSERT]
    refine ⟨fun _ => hs.readTable_le hu (hlast (by omega)) (fun k hk => ?_) hQ, hassert (by omega)⟩
    split
    · exact hsect k hk
    · exact Nat.zero_le _
  · rw [wp_bind, wp_ASSERT]
    exact ⟨fun _ => hs.readTable_le hu (hlast (by omega)) (fun _ _ => Nat.zero_le _) hQ,
      hassert (by omega)⟩

/-- **A read that goes past the end**, or that has no buffer. -/
theorem readData_wild (dst : Buf) (hu : FreeOnDisk part u)
    (hs : Settled part u d0 h s c bs t) (hgot : s.mallocs 1 = true)
    (hpos : (s.fileTable f).fdPos.toNat < 139 * 512)
    (hend : ((s.fileTable f).fdPos + count).toNat < 139 * 512)
    (hlast : ((s.fileTable f).fdPos + count).toNat ≤ c.length) (hsome : count ≠ 0)
    (hbad : s.mallocs 0 = false ∨ 71680 < (s.fileTable f).fdPos.toNat + count.toNat) :
    wp (readData f h dst count) (fun _ _ => False) (· = .wild) s := by
  obtain ⟨hs, hlen⟩ := hs
  have hcount : 0 < count.toNat := Nat.pos_of_ne_zero fun hz => hsome (BitVec.eq_of_toNat_eq hz)
  have hblocks : 12 ≤ ((s.fileTable f).fdPos + count).toNat / 512 → 12 < bs.length := by
    intro h12
    rcases hlen with hlen | ⟨-, rfl⟩
    · omega
    · rw [List.length_nil] at hlast
      omega
  rw [readData, wp_bind, wp_sysMalloc, wp_bind, wp_sysMalloc, if_pos hgot]
  simp only [wp_bind, wp_get, wp_ASSERT]
  refine ⟨fun _ => ?_, fun hno => absurd hno ?_⟩
  swap
  · simp only [Bool.and_eq_false_iff, decide_eq_false_iff_not]
    omega
  refine collectRead_le (s := { s with mallocs := fun k => s.mallocs (k + 1 + 1) }) hu hs hblocks
    fun all hall => ?_
  refine wp.mono (Q := fun _ _ => False) ?_ (fun _ _ hno => hno.elim) fun _ h => h
  cases hbuf : s.mallocs 0 with
  | false => exact readLoop_noBuf hcount
  | true =>
    have hmore := hbad.resolve_left (by rw [hbuf]; exact Bool.noConfusion)
    exact readLoop_wild hall _ (by simp only; omega) (by simp only; omega) (by simp only; omega)

/-- Collecting addresses is never a wild access. -/
theorem collectRead_safe {first last : ℕ} {Q : (ℕ → Word) → FsState → Prop}
    (hQ : ∀ all, Q all s) : wp (collectRead inode first last) Q (· ≠ .wild) s := by
  have htable : ∀ b0, wp (readTable (inode.iSectors 12) b0) Q (· ≠ .wild) s :=
    fun b0 => readTable_wp (fun _ => nofun) fun all _ _ => hQ all
  have hassert : ∀ b0, wp (ASSERT .fileRead (inode.iSectors 12 != 0) >>= fun _ =>
      readTable (inode.iSectors 12) b0) Q (· ≠ .wild) s := by
    intro b0
    rw [wp_bind, wp_ASSERT]
    exact ⟨fun _ => htable b0, fun _ => nofun⟩
  rw [collectRead]
  split
  · split
    · exact hQ _
    · exact htable _
  split
  · exact hQ _
  split
  · exact hassert _
  · exact hassert _

/-- A read that does not get to the data, or has none to get. -/
theorem readData_early {dst : Buf} {Q : Word × Buf → FsState → Prop}
    (hfail : ∀ s', Q (-1, dst) s') (hnone : ∀ s', Q (0, dst) s')
    (h : s.mallocs 1 = false ∨ 139 * 512 ≤ (s.fileTable f).fdPos.toNat ∨
      139 * 512 ≤ ((s.fileTable f).fdPos + count).toNat ∨ count = 0) :
    wp (readData f n dst count) Q (· ≠ .wild) s := by
  rw [readData, wp_bind, wp_sysMalloc, wp_bind, wp_sysMalloc]
  split
  swap
  · exact hfail _
  rename_i hgot
  simp only [wp_bind, wp_get, wp_ASSERT]
  refine ⟨fun hlim => ?_, fun _ => by simp⟩
  simp only [Bool.and_eq_true, decide_eq_true_eq] at hlim
  obtain rfl : count = 0 := by
    rcases h with h | h | h | h
    · rw [hgot] at h
      cases h
    · omega
    · omega
    · exact h
  refine collectRead_safe fun all => ?_
  exact hnone _

/-! ### Which counts work -/

/-- What a call of `file_write` is to do: return -1 and leave the size alone, or append `count`
bytes and return `count`. Either way it changes no sectors but those of the file and of the bitmaps
and the inode table. -/
def WriteContained (part : Partition) (s : FsState) (f h : ℕ) (buf : Buf) (count : Word) : Prop :=
  ∃ r s', fileWrite part f buf count s = .ok (r, s') ∧
    (r = -1 ∧ (s'.inode h).iSize = (s.inode h).iSize ∨
      r = count ∧ (s'.inode h).iSize.toNat = (s.inode h).iSize.toNat + count.toNat ∧
      (s'.inode h).iSize.toNat ≤ 71680 ∧
      (∀ j < (s.inode h).iSize.toNat, s'.byte h j = s.byte h j) ∧
      ∀ j < count.toNat, s'.byte h ((s.inode h).iSize.toNat + j) = buf j) ∧
    ∀ a, s'.disk a ≠ s.disk a → part.sb.blockBitmapLba ≤ a ∧ a < part.sb.dataStartLba ∨
      ∃ w ∈ blockRefs (s'.inode h) s'.disk, w.toNat = a

/-- What a call of `file_read` is to do: deliver no more than there is in the file from the position
on, and access nothing outside its arrays. -/
def ReadContained (s : FsState) (f h : ℕ) (dst : Buf) (count : Word) : Prop :=
  wp (fileRead f dst count) (fun r _ =>
    (r.1 = -1 ∨ r.1.toNat ≤ (s.inode h).iSize.toNat - (s.fileTable f).fdPos.toNat) ∧
    ∀ i, (s.inode h).iSize.toNat - (s.fileTable f).fdPos.toNat ≤ i → r.2 i = dst i) (· ≠ .wild) s

/-- The writes that are refused, and those that there is room for. -/
def WriteRoom (part : Partition) (s : FsState) (h : ℕ) (count : Word) : Prop :=
  71680 < (s.inode h).iSize.toNat + count.toNat ∧
      (s.inode h).iSize.toNat + count.toNat < 2 ^ 32 ∨
    ¬ HeapForTwo s ∨
    (s.inode h).iSize.toNat + count.toNat < 71680 ∧
      ((s.inode h).iSectors 0 = 0 → s.blockBitmap.bit 0 = true) ∧
      blocksFor (s.inode h) count.toNat ≤ freeCnt part s.blockBitmap ∧
      ¬ Straddles ((s.inode h).iNo.toNat % 256)

/-- How many bytes `file_read` sets out to read. -/
def bytesToRead (pos size count : Word) : Word :=
  if size.toNat < (pos + count).toNat then size - pos else count

/-- The reads that end before the data loop, and those that stay within the file. -/
def ReadRoom (s : FsState) (f h : ℕ) (count : Word) : Prop :=
  s.mallocs 1 = false ∨ 139 * 512 ≤ (s.fileTable f).fdPos.toNat ∨
    139 * 512 ≤ ((s.fileTable f).fdPos +
      bytesToRead (s.fileTable f).fdPos (s.inode h).iSize count).toNat ∨
    bytesToRead (s.fileTable f).fdPos (s.inode h).iSize count = 0 ∨
    s.mallocs 0 = true ∧ (s.fileTable f).fdPos.toNat ≤ (s.inode h).iSize.toNat ∧
      (s.fileTable f).fdPos.toNat + count.toNat < 2 ^ 32

theorem fileWrite_refused (part : Partition) (buf : Buf) (count : Word)
    (hf : (s.fileTable f).fdInode = some h)
    (hheap : ¬ HeapForTwo s) :
    wp (fileWrite part f buf count) (fun r s' => r = -1 ∧ Unwritten s s') E s := by
  simp only [fileWrite, wp_bind, wp_get, hf, fileWriteAt]
  split
  · exact ⟨rfl, rfl, rfl, rfl, rfl⟩
  rw [wp_bind, wp_sysMalloc]
  split
  · rename_i hgot0
    rw [wp_bind, wp_sysMalloc, if_neg fun hgot1 => hheap ⟨hgot0, hgot1⟩]
    exact ⟨rfl, rfl, rfl, rfl, rfl⟩
  · exact ⟨rfl, rfl, rfl, rfl, rfl⟩

theorem Unwritten.contained {buf : Buf} (hun : Unwritten s s')
    (hrun : fileWrite part f buf count s = .ok (-1, s')) :
    WriteContained part s f h buf count :=
  ⟨-1, s', hrun, .inl ⟨rfl, by rw [hun.2.1]⟩, fun a ha => absurd (by rw [hun.1]) ha⟩

theorem writeContained_iff {buf : Buf} (hreg : RegularFile part s h c)
    (hf : (s.fileTable f).fdInode = some h) :
    WriteContained part s f h buf count ↔ WriteRoom part s h count := by
  obtain ⟨u, bs, t, hs, hu⟩ := hreg
  have hlt := hs.length_lt
  rw [WriteRoom, hs.1.size]
  by_cases hheap : HeapForTwo s
  swap
  · obtain ⟨_, s', hrun, rfl, hun⟩ := (fileWrite_refused part buf count hf hheap).returns
    exact iff_of_true (hun.contained hrun) (.inr (.inl hheap))
  simp only [hheap, not_true_eq_false, false_or]
  constructor
  · rintro ⟨r, s', hrun, -⟩
    rcases Nat.lt_or_ge (c.length + count.toNat) (2 ^ 32) with hn | hn
    · have hpost := (fileWrite_holds (E := fun _ => True) buf count (ioFaults_of_le hu) hs hf hn
        (fun _ _ _ => trivial) (fun _ _ _ _ => trivial) (fun _ _ => trivial)
        fun _ _ _ => trivial).ok hrun
      rcases hpost with ⟨-, -, hlong | hno⟩ | ⟨-, hshort, -, hfree, hroot, hone, -⟩
      · exact .inl ⟨hlong, hn⟩
      · exact absurd hheap hno
      · exact .inr ⟨hshort, hroot, hfree, hone⟩
    · exact ((fileWrite_wild hu hs hf hheap hn).ok hrun).elim
  · intro hroom
    have hwp := fileWrite_holds (E := fun _ => False) buf count (ioFaults_of_le hu) hs hf (by omega)
      (fun _ hle hfull => by omega)
      (fun _ hle h0 hclear => by
        rcases hroom with hlong | ⟨-, hroot, -⟩
        · omega
        · rw [hroot h0] at hclear
          cases hclear)
      (fun _ heq => by omega)
      fun _ hshort hstr => by
        rcases hroom with hlong | ⟨-, -, -, hone⟩
        · omega
        · exact hone hstr
    obtain ⟨r, s', hrun, hres⟩ := hwp.returns
    rcases hres with ⟨rfl, hun, -⟩ | ⟨rfl, hshort, -, -, -, -, bs', t', hs', -⟩
    · exact hun.contained hrun
    have hlen : (c ++ (List.range r.toNat).map buf).length = c.length + r.toNat := by
      rw [List.length_append, List.length_map, List.length_range]
    refine ⟨r, s', hrun, .inr ⟨rfl, ?_, ?_, fun j hj => ?_, fun j hj => ?_⟩, fun a ha => ?_⟩
    · rw [hs'.1.size, hs.1.size, hlen]
    · rw [hs'.1.size, hlen]
      omega
    · rw [hs.1.size] at hj
      rw [hs'.1.byte_eq (by omega), hs.1.byte_eq hj, List.getD_append _ _ _ _ hj]
    · rw [hs.1.size, hs'.1.byte_eq (by omega), List.getD_append_right _ _ _ _ (by omega),
        Nat.add_sub_cancel_left, getD_range_map buf hj]
    · simp only [hs'.1.mem_blockRefs]
      exact hs'.1.frame a ha

/-- In every case the read ends, as the code computes it, within the file. -/
theorem bytesToRead_end {pos size : Word} :
    (pos + bytesToRead pos size count).toNat ≤ size.toNat := by
  rw [bytesToRead]
  split
  · rw [show pos + (size - pos) = size by bv_omega]
  · omega

/-- A position past the end, or a count that wraps around, makes for a read of almost 4 GiB. -/
theorem bytesToRead_long {pos size : Word} (hsize : size.toNat < 71680)
    (h : ¬ (pos.toNat ≤ size.toNat ∧ pos.toNat + count.toNat < 2 ^ 32)) :
    71680 < pos.toNat + (bytesToRead pos size count).toNat := by
  have h1 := pos.isLt
  have h2 := count.isLt
  rw [bytesToRead, BitVec.toNat_add]
  split
  · rw [BitVec.toNat_sub]
    omega
  · omega

/-- Past the test for the end of the file, a read is a call of `readData`. -/
theorem fileRead_iff (dst : Buf) {Q : Word × Buf → FsState → Prop}
    (hf : (s.fileTable f).fdInode = some h)
    (hne : (s.inode h).iSize.toNat < ((s.fileTable f).fdPos + count).toNat →
      bytesToRead (s.fileTable f).fdPos (s.inode h).iSize count ≠ 0) :
    wp (fileRead f dst count) Q E s ↔
      wp (readData f h dst (bytesToRead (s.fileTable f).fdPos (s.inode h).iSize count)) Q E s := by
  rw [bytesToRead] at hne ⊢
  simp only [fileRead, wp_bind, wp_get, hf, fileReadAt]
  split
  · rename_i hlong
    have hne := hne hlong
    rw [if_pos hlong] at hne
    rw [if_neg hne]
  · rfl

theorem fileRead_end {dst : Buf} {Q : Word × Buf → FsState → Prop}
    (hf : (s.fileTable f).fdInode = some h)
    (hlong : (s.inode h).iSize.toNat < ((s.fileTable f).fdPos + count).toNat)
    (hz : bytesToRead (s.fileTable f).fdPos (s.inode h).iSize count = 0) (hQ : Q (-1, dst) s) :
    wp (fileRead f dst count) Q E s := by
  rw [bytesToRead, if_pos hlong] at hz
  simp only [fileRead, wp_bind, wp_get, hf, fileReadAt]
  rw [if_pos hlong, if_pos hz]
  exact hQ

theorem readContained_iff {dst : Buf} (hreg : RegularFile part s h c)
    (hf : (s.fileTable f).fdInode = some h) :
    ReadContained s f h dst count ↔ ReadRoom s f h count := by
  obtain ⟨u, bs, t, hs, hu⟩ := hreg
  have hlt := hs.length_lt
  have hsize := hs.1.size
  constructor
  · intro hcont
    by_contra hno
    simp only [ReadRoom, not_or] at hno
    obtain ⟨hgot, hpos, hend, hne, hbad⟩ := hno
    have hdata := (fileRead_iff dst hf fun _ => hne).1 hcont
    have hwild := readData_wild dst hu hs (Bool.eq_true_of_not_eq_false hgot)
      (Nat.not_le.1 hpos) (Nat.not_le.1 hend) (hsize ▸ bytesToRead_end) hne (by
        cases hbuf : s.mallocs 0 with
        | false => exact .inl rfl
        | true => exact .inr (bytesToRead_long (hsize ▸ hlt) fun hok => hbad ⟨hbuf, hok⟩))
    exact hdata.error hwild.stops rfl
  · intro hroom
    by_cases hin : s.mallocs 0 = true ∧ (s.fileTable f).fdPos.toNat ≤ (s.inode h).iSize.toNat ∧
        (s.fileTable f).fdPos.toNat + count.toNat < 2 ^ 32
    · obtain ⟨hbuf, hle, hn⟩ := hin
      refine wp.mono (fileRead_holds (E := (· ≠ .wild)) dst count (ioFaults_of_le hu) hs.1 hs.2 hf
        (hsize ▸ hle) hn (fun _ hno => by rw [hbuf] at hno; cases hno) fun _ _ _ => nofun) ?_
        fun _ h => h
      rintro r s' (⟨rfl, -⟩ | ⟨hr, hrest, -⟩)
      · exact ⟨.inl rfl, fun _ _ => rfl⟩
      · rw [← hsize] at hr
        exact ⟨.inr (by omega), fun i hi => hrest i (by omega)⟩
    · have hearly := hroom.imp_right (Or.imp_right (Or.imp_right (Or.resolve_right · hin)))
      by_cases hz : (s.inode h).iSize.toNat < ((s.fileTable f).fdPos + count).toNat ∧
          bytesToRead (s.fileTable f).fdPos (s.inode h).iSize count = 0
      · exact fileRead_end hf hz.1 hz.2 ⟨.inl rfl, fun _ _ => rfl⟩
      · exact (fileRead_iff dst hf fun hlong hzero => hz ⟨hlong, hzero⟩).2
          (readData_early (fun _ => ⟨.inl rfl, fun _ _ => rfl⟩)
            (fun _ => ⟨.inr (Nat.zero_le _), fun _ _ => rfl⟩) hearly)

/-- **Which counts work.** For every regular file and every count: `file_write` returns -1 and
leaves the size, or writes `count` bytes to blocks of the file, exactly if the count is refused, the
heap is, or the new size is below 71680, the blocks are free that it takes, the first block of a
file is not the root's and the record of the inode lies in one sector. `file_read` delivers no more
than there is and stays within its arrays exactly if it ends before the data loop, or has its
buffer, starts in the file and does not wrap around. -/
theorem counts_contained_iff (hreg : RegularFile part s h c)
    (hf : (s.fileTable f).fdInode = some h) :
    (∀ (buf : Buf) (count : Word),
      WriteContained part s f h buf count ↔ WriteRoom part s h count) ∧
    ∀ (dst : Buf) (count : Word), ReadContained s f h dst count ↔ ReadRoom s f h count :=
  ⟨fun _ _ => writeContained_iff hreg hf, fun _ _ => readContained_iff hreg hf⟩

theorem le_freeCnt {k : ℕ} (hle : m + k ≤ blockCnt part)
    (hc : ∀ i, m ≤ i → i < m + k → b.bit i = false) : k ≤ freeCnt part b := by
  have hsub : Finset.Ico m (m + k) ⊆
      (Finset.range (blockCnt part)).filter fun i => b.bit i = false := by
    intro i hi
    obtain ⟨h1, h2⟩ := Finset.mem_Ico.1 hi
    exact Finset.mem_filter.2 ⟨Finset.mem_range.2 (by omega), hc i h1 h2⟩
  have hcard := Finset.card_le_card hsub
  rwa [Nat.card_Ico, Nat.add_sub_cancel_left] at hcard

end

theorem emptyFile_settled : Settled smallPart emptyFileState.blockBitmap emptyFileState.disk 0
    emptyFileState [] [] none := settled_empty rfl rfl fun _ _ => rfl

/-- There are 142 free blocks in it, as many as the largest file takes and one more. -/
theorem emptyFile_free : 142 ≤ freeCnt smallPart emptyFileState.blockBitmap := by
  refine le_freeCnt (m := 1) (by decide) fun i h1 _ => ?_
  rw [emptyFileState, bit_bitmapSet_of_ne true (by omega)]
  exact bit_bitmapInit _ _

/-- Five bytes for an empty file. -/
theorem counts_contained_iff_empty :
    WriteContained smallPart emptyFileState 3 0 (fun _ => 7) 5 :=
  ((counts_contained_iff (emptyFile_settled.regular (freeOnDisk_smallPart _)) rfl).1 _ _).2
    (.inr (.inr ⟨by decide, fun _ => by decide,
      Nat.le_trans (by decide) emptyFile_free, by decide⟩))

theorem twoBytes_settled : ∃ bs t, Settled smallPart emptyFileState.blockBitmap
    emptyFileState.disk 0 twoBytesState [7, 8] bs t := by
  have hw : Writes smallPart 3 0 [[7, 8]] emptyFileState twoBytesState :=
    .cons (by decide) (eq_ok_of_value? (a := 2) (by decide)) (by decide) (.nil _)
  exact hw.settled emptyFile_settled rfl

/-- A read from the second of two bytes on. -/
theorem read_wraps {s : FsState} {u : Bitmap} {d0 : Disk} {bs : List Word} {t : Option Word}
    (hs : Settled smallPart u d0 0 s [7, 8] bs t) (hf : (s.fileTable 3).fdInode = some 0)
    (hpos : (s.fileTable 3).fdPos = 1) (hgot : s.mallocs 1 = true) :
    fileRead 3 (fun _ => 0) 0xffffffff s = .error .wild := by
  have hsize : (s.inode 0).iSize = 2 := BitVec.eq_of_toNat_eq hs.1.size
  refine wp.stops ((fileRead_iff _ hf fun _ => ?_).2 ?_)
  · rw [hpos, hsize]
    decide
  · rw [hpos, hsize]
    refine readData_wild _ (freeOnDisk_smallPart _) hs hgot ?_ ?_ ?_ (by decide) (.inr ?_) <;>
    · rw [hpos]
      decide

/-- **Counts that wrap around.** The file has two bytes. A write of `2 ^ 32 - 1` more is not
refused, and neither is a read of as many from the second byte on; both go past the end of
`all_blocks`. -/
theorem counts_wrap : RegularFile smallPart twoBytesState 0 [7, 8] ∧
    fileWrite smallPart 3 (fun _ => 0) 0xffffffff twoBytesState = .error .wild ∧
    fileRead 3 (fun _ => 0) 0xffffffff
      (twoBytesState.updFile 3 fun e => { e with fdPos := 1 }) = .error .wild := by
  obtain ⟨bs, t, hs⟩ := twoBytes_settled
  refine ⟨hs.regular (freeOnDisk_smallPart _), ?_, ?_⟩
  · exact (fileWrite_wild (freeOnDisk_smallPart _) hs (by decide) ⟨by decide, by decide⟩
      (by decide)).stops
  · exact read_wraps (hs.updFile 3 _) (by decide) rfl (by decide)

section

variable {part : Partition} {u b : Bitmap} {bs : List Word} {t : Option Word} {d0 d : Disk}
  {inode : Inode} {c : List Byte} {s s' : FsState} {f h n m : ℕ} {count : Word} {E : Fault → Prop}

/-! ### Which sizes work -/

/-- The inode at `h` and the sectors of its file are the same in both states, and the same blocks
are in use. -/
structure SameFile (h : ℕ) (s1 s2 : FsState) : Prop where
  inode : s2.inode h = s1.inode h
  sectors : ∀ w ∈ blockRefs (s1.inode h) s1.disk, s2.disk w.toNat = s1.disk w.toNat
  bitmap : s2.blockBitmap = s1.blockBitmap

theorem Settled.same (hs : Settled part u d0 h s c bs t) (hsame : SameFile h s s') :
    Settled part u s'.disk h s' c bs t := by
  refine ⟨?_, hs.2⟩
  rw [hsame.inode, hsame.bitmap]
  exact hs.1.restrict fun w hw => hsame.sectors w (hs.1.mem_blockRefs.2 hw)

/-- Within the file, and without wrapping around, the smaller of the two. -/
theorem bytesToRead_eq {pos size : Word} (hpos : pos.toNat ≤ size.toNat)
    (hn : pos.toNat + count.toNat < 2 ^ 32) :
    (bytesToRead pos size count).toNat = min count.toNat (size.toNat - pos.toNat) := by
  rw [bytesToRead, BitVec.toNat_add, Nat.mod_eq_of_lt hn]
  split
  · rw [BitVec.toNat_sub_of_le hpos]
    omega
  · omega

/-- **The limit of `file_read`.** -/
theorem readData_limit {dst : Buf} (hgot : s.mallocs 1 = true)
    (hend : 139 * 512 ≤ ((s.fileTable f).fdPos + count).toNat) :
    wp (readData f h dst count) (fun _ _ => False) (· = .panic .fileRead) s := by
  rw [readData, wp_bind, wp_sysMalloc, wp_bind, wp_sysMalloc, if_pos hgot]
  simp only [wp_bind, wp_get, wp_ASSERT]
  refine ⟨fun hlim => ?_, fun _ => trivial⟩
  simp only [Bool.and_eq_true, decide_eq_true_eq] at hlim
  omega

/-- **Which sizes work.** A file that was empty is written by calls of `file_write` that each return
their count. With enough free blocks and heap, a further write up to the maximal size returns its
count exactly if it does not reach that size, does not get the root's block if it is the first one,
and the record of the inode lies in one sector. A read from within the file returns what there is
exactly if it ends before block 139. -/
theorem max_file_size_iff (part : Partition) (s0 s1 s2 : FsState) (f g h : ℕ)
    (bufs : List (List Byte))
    (hmount : s0.blockBitmap.btmpBytesLen = 512 * part.sb.blockBitmapSects)
    (hdisk : ∀ i < blockCnt part, s0.blockBitmap.bit i = false → (blockAddr part i).toNat ≤ maxLba)
    (hf : (s0.fileTable f).fdInode = some h) (hsize : (s0.inode h).iSize = 0)
    (hsect : ∀ k < 13, (s0.inode h).iSectors k = 0) (hw : Writes part f h bufs s0 s1)
    (hsame : SameFile h s1 s2) (hg : (s2.fileTable g).fdInode = some h) (hheap : HeapForTwo s2) :
    (∀ (buf : Buf) (count : Word), (s2.inode h).iSize.toNat + count.toNat ≤ 71680 →
      blocksFor (s2.inode h) count.toNat ≤ freeCnt part s2.blockBitmap →
      ((∃ s', fileWrite part g buf count s2 = .ok (count, s')) ↔
        (s2.inode h).iSize.toNat + count.toNat < 71680 ∧
        ((s2.inode h).iSectors 0 = 0 → s2.blockBitmap.bit 0 = true) ∧
        ¬ Straddles ((s2.inode h).iNo.toNat % 256))) ∧
    ∀ (dst : Buf) (count : Word), (s2.fileTable g).fdPos.toNat < (s2.inode h).iSize.toNat →
      (s2.fileTable g).fdPos.toNat + count.toNat < 2 ^ 32 →
      ((∃ r out s', fileRead g dst count s2 = .ok ((r, out), s') ∧ r.toNat =
          min count.toNat ((s2.inode h).iSize.toNat - (s2.fileTable g).fdPos.toNat)) ↔
        min ((s2.fileTable g).fdPos.toNat + count.toNat) (s2.inode h).iSize.toNat < 139 * 512) := by
  obtain ⟨bs, t, hs1⟩ := hw.settled (settled_empty hmount hsize hsect) hf
  rw [List.nil_append] at hs1
  have hs := hs1.same hsame
  have hlt := hs.length_lt
  have hsz := hs.1.size
  refine ⟨fun buf count hle hfree => ⟨?_, fun ⟨hshort, hroot, hone⟩ => ?_⟩,
    fun dst count hpos hn => ⟨?_, fun hlim => ?_⟩⟩
  · rintro ⟨s', hrun⟩
    have hpost := (fileWrite_holds (E := fun _ => True) buf count
      (fun _ _ _ _ => ⟨trivial, trivial⟩)
      hs hg (by omega) (fun _ _ _ => trivial) (fun _ _ _ _ => trivial) (fun _ _ => trivial)
      fun _ _ _ => trivial).ok hrun
    rcases hpost with ⟨-, -, hlong | hno⟩ | ⟨-, hshort, -, -, hroot, hone, -⟩
    · omega
    · exact absurd hheap hno
    · exact ⟨hsz ▸ hshort, hroot, hone⟩
  · obtain ⟨r, s', hrun, hres⟩ := (fileWrite_holds (E := fun _ => False) buf count
      (ioFaults_of_le hdisk) hs hg (by omega) (fun _ _ hfull => by omega)
      (fun _ _ h0 hclear => by rw [hroot h0] at hclear; cases hclear) (fun _ heq => by omega)
      fun _ _ hstr => hone hstr).returns
    rcases hres with ⟨-, -, hlong | hno⟩ | ⟨rfl, -⟩
    · omega
    · exact absurd hheap hno
    · exact ⟨s', hrun⟩
  · rintro ⟨r, out, s', hrun, -⟩
    by_contra hge
    have hbytes := bytesToRead_eq hpos.le hn
    have hend : ((s2.fileTable g).fdPos +
        bytesToRead (s2.fileTable g).fdPos (s2.inode h).iSize count).toNat =
        min ((s2.fileTable g).fdPos.toNat + count.toNat) (s2.inode h).iSize.toNat := by
      rw [BitVec.toNat_add, hbytes, Nat.mod_eq_of_lt (by omega)]
      omega
    have hstop := (fileRead_iff dst hg fun hlong hz => by
      rw [hz, show (0 : Word).toNat = 0 from rfl] at hbytes
      rw [BitVec.toNat_add, Nat.mod_eq_of_lt hn] at hlong
      omega).2 (readData_limit hheap.2 (by omega))
    exact hstop.ok hrun
  · obtain ⟨⟨r, out⟩, s', hrun, hres⟩ := (fileRead_holds (E := fun _ => False) dst count
      (ioFaults_of_le hdisk) hs.1 hs.2 hg (by omega) hn
      (fun _ hno => by rw [hheap.1] at hno; cases hno) fun _ h1 h2 => by omega).returns
    rcases hres with ⟨-, hno | hend⟩ | ⟨hr, -⟩
    · rw [hheap.2] at hno
      cases hno
    · omega
    · exact ⟨r, out, s', hrun, hsz ▸ hr⟩

end

/-- Five bytes for an empty file, with blocks and heap for them. -/
theorem max_file_size_iff_empty :
    ∃ s', fileWrite smallPart 3 (fun _ => 7) 5 emptyFileState = .ok (5, s') :=
  ((max_file_size_iff smallPart emptyFileState emptyFileState emptyFileState 3 3 0 [] rfl
    (freeOnDisk_smallPart _) rfl rfl (fun _ _ => rfl) (.nil _) ⟨rfl, fun _ _ => rfl, rfl⟩ rfl
    ⟨rfl, rfl⟩).1 _ 5 (by decide) (Nat.le_trans (by decide) emptyFile_free)).2
    ⟨by decide, fun _ => by decide, by decide⟩

/-- **A file of the maximal size.** There are blocks and heap for the 71680 bytes, and the write is
not refused. It fails an `ASSERT`. -/
theorem write_of_max_size : Writes smallPart 3 0 [] emptyFileState emptyFileState ∧
    HeapForTwo emptyFileState ∧
    blocksFor (emptyFileState.inode 0) 71680 ≤ freeCnt smallPart emptyFileState.blockBitmap ∧
    fileWrite smallPart 3 (fun _ => 7) 71680 emptyFileState = .error (.panic .fileWrite) := by
  have hfree : blocksFor (emptyFileState.inode 0) 71680 ≤
      freeCnt smallPart emptyFileState.blockBitmap := Nat.le_trans (by decide) emptyFile_free
  refine ⟨.nil _, ⟨rfl, rfl⟩, hfree, wp.stops ?_⟩
  refine wp.mono (fileWrite_holds (E := (· = .panic .fileWrite)) _ _
    (ioFaults_of_le (freeOnDisk_smallPart _))
    emptyFile_settled rfl (by decide) (fun _ _ hlt => absurd hfree (Nat.not_le.2 hlt))
    (fun _ _ _ _ => rfl) (fun _ _ => rfl) fun _ hshort _ => absurd hshort (by decide)) ?_
    fun _ h => h
  rintro r s' (⟨-, -, hlong | hno⟩ | ⟨-, hshort, -⟩)
  · exact absurd hlong (by decide)
  · exact hno ⟨rfl, rfl⟩
  · exact absurd hshort (by decide)

end X86Os
