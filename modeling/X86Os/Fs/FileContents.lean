import Mathlib.Data.Finset.Card
import Mathlib.Data.Finset.Range
import Mathlib.Data.List.GetD
import Mathlib.Data.List.Nodup
import X86Os.Fs.Frame
import X86Os.Fs.IoBuf

/-!
# What is in a file

A file that starts empty and is written by `file_write` holds, at every return, the bytes written so
far, and `file_read` gives them back. The invariant behind it is `Holds`: a list of block addresses
and possibly an indirect table, all allocated and pairwise distinct, that the inode and the table
record, and whose sectors hold the contents. The two functions collect block addresses by different
case distinctions; each is shown to collect entries of that one list, and from there on the cases
are gone.

The allocator's side is `Pool`: relative to the bitmap `u` at the start, the blocks of the file were
all clear and are all set now, and what was set still is. So no block of the file was in use by
anything else.

The lemmas are about runs that return and about what stops the others. Each takes the faults `E`
that are allowed for and asks for `E` only where the function can stop: too few free blocks, a block
past the end of the disk, the two functions' own limits. With `E` nothing, a call is sure to return.

## Main results

* `allocBlocks_holds`, `collectBlocks_holds` — every situation extends the list of blocks
* `writeLoop_holds`, `fileWrite_holds` — a write appends
* `readLoop_holds`, `fileRead_holds` — a read returns a slice
* `file_contents` — **what was written is what is read**
-/

namespace X86Os

open X86Os.Comp FsState

/-! ### The blocks of a file -/

/-- The blocks in `l` are distinct, were free in `u` and are allocated in `b`, and what was
allocated in `u` still is. -/
structure Pool (part : Partition) (u b : Bitmap) (l : List Word) : Prop where
  len : b.btmpBytesLen = 512 * part.sb.blockBitmapSects
  nodup : l.Nodup
  mem : ∀ w ∈ l, ∃ i < blockCnt part, w = blockAddr part i ∧ u.bit i = false ∧ b.bit i = true
  mono : ∀ i, u.bit i = true → b.bit i = true

/-- The contents `c` of a file, in the blocks `bs` and the indirect table `t`. `u` and `d0` are the
block bitmap and the disk that the first write found. -/
structure Holds (part : Partition) (u : Bitmap) (d0 d : Disk) (b : Bitmap) (inode : Inode)
    (c : List Byte) (bs : List Word) (t : Option Word) : Prop where
  pool : Pool part u b (t.toList ++ bs)
  size : inode.iSize.toNat = c.length
  direct : ∀ k < 12, inode.iSectors k = bs.getD k 0
  table : inode.iSectors 12 = t.getD 0
  indirect : ∀ w, t = some w → ∀ k, 12 ≤ k → k < 140 → (d w.toNat).toWords (k - 12) = bs.getD k 0
  data : ∀ j < c.length, d (bs.getD (j / 512) 0).toNat (j % 512) = c.getD j 0
  length_le : bs.length ≤ 140
  room : c.length ≤ 512 * bs.length
  /-- There is an indirect table exactly if there are more than twelve blocks. -/
  table_iff : t.isSome = true ↔ 12 < bs.length
  frame : ∀ a, d a ≠ d0 a → part.sb.blockBitmapLba ≤ a ∧ a < part.sb.dataStartLba ∨
    ∃ w ∈ t.toList ++ bs, w.toNat = a

variable {part : Partition} {u b : Bitmap} {l bs : List Word} {t : Option Word} {d0 d : Disk}
  {inode : Inode} {c : List Byte}

theorem Pool.alloc (h : Pool part u b l) {i : ℕ} (hi : i < blockCnt part) (hc : b.bit i = false) :
    Pool part u (bitmapSet b i true) (blockAddr part i :: l) where
  len := by rw [btmpBytesLen_bitmapSet, h.len]
  nodup := by
    refine List.nodup_cons.2 ⟨fun hm => ?_, h.nodup⟩
    obtain ⟨j, hj, he, -, hb⟩ := h.mem _ hm
    rw [← blockAddr_inj hi hj he, hc] at hb
    cases hb
  mem := by
    intro w hw
    rcases List.mem_cons.1 hw with rfl | hw
    · refine ⟨i, hi, rfl, ?_, bit_bitmapSet_self b i true⟩
      cases hu : u.bit i with
      | false => rfl
      | true => rw [h.mono i hu] at hc; cases hc
    · obtain ⟨j, hj, he, hu, hb⟩ := h.mem w hw
      refine ⟨j, hj, he, hu, ?_⟩
      rw [bit_bitmapSet_of_ne true (fun hji => by rw [hji, hc] at hb; cases hb)]
      exact hb
  mono := by
    intro j hj
    rw [bit_bitmapSet]
    split
    · rfl
    · exact h.mono j hj

theorem Pool.perm {l' : List Word} (h : Pool part u b l) (hp : l.Perm l') : Pool part u b l' where
  len := h.len
  nodup := hp.nodup_iff.1 h.nodup
  mem := fun w hw => h.mem w (hp.mem_iff.2 hw)
  mono := h.mono

/-- Blocks are past the bitmaps and the inode table. -/
theorem Pool.le_toNat (h : Pool part u b l) {w : Word} (hw : w ∈ l) :
    part.sb.dataStartLba ≤ w.toNat := by
  obtain ⟨i, hi, rfl, -, -⟩ := h.mem w hw
  rw [toNat_blockAddr hi]
  omega

theorem Pool.ne_zero (h : Pool part u b l) {w : Word} (hw : w ∈ l) : w ≠ 0 := by
  obtain ⟨i, hi, rfl, -, -⟩ := h.mem w hw
  exact blockAddr_ne_zero hi

/-- A change of the sectors before the data area does not touch a file. -/
theorem Holds.meta (h : Holds part u d0 d b inode c bs t) {d' : Disk}
    (hd : ∀ a, a < part.sb.blockBitmapLba ∨ part.sb.dataStartLba ≤ a → d' a = d a) :
    Holds part u d0 d' b inode c bs t where
  pool := h.pool
  size := h.size
  direct := h.direct
  table := h.table
  indirect := by
    rintro w rfl k h1 h2
    rw [hd _ (Or.inr (h.pool.le_toNat (by simp)))]
    exact h.indirect w rfl k h1 h2
  data := by
    intro j hj
    have hk : j / 512 < bs.length := by have := h.room; omega
    rw [hd _ (Or.inr (h.pool.le_toNat (List.mem_append_right _ ?_)))]
    · exact h.data j hj
    · rw [List.getD_eq_getElem _ _ hk]
      exact List.getElem_mem hk
  length_le := h.length_le
  room := h.room
  table_iff := h.table_iff
  frame := by
    intro a ha
    by_cases hm : part.sb.blockBitmapLba ≤ a ∧ a < part.sb.dataStartLba
    · exact Or.inl hm
    · rw [hd a (by omega)] at ha
      exact h.frame a ha

theorem BitmapFrame.data {d d' : Disk} (h : BitmapFrame part d d') :
    ∀ a, a < part.sb.blockBitmapLba ∨ part.sb.dataStartLba ≤ a → d' a = d a := by
  intro a ha
  have := part.dataStartLba_eq
  exact h a (by omega)

/-! ### Room for a file -/

/-- The number of free blocks. -/
def freeCnt (part : Partition) (b : Bitmap) : ℕ :=
  ((Finset.range (blockCnt part)).filter fun i => b.bit i = false).card

/-- `E` allows for the faults of the driver at the blocks that are free in `u` and past the end of
the disk. -/
def IoFaults (part : Partition) (u : Bitmap) (E : Fault → Prop) : Prop :=
  ∀ i < blockCnt part, u.bit i = false → maxLba < (blockAddr part i).toNat →
    E (.panic .ideRead) ∧ E (.panic .ideWrite)

variable {E : Fault → Prop}

theorem freeCnt_set {i : ℕ} (hi : i < blockCnt part) (hc : b.bit i = false) :
    freeCnt part (bitmapSet b i true) + 1 = freeCnt part b := by
  have hfilter : (Finset.range (blockCnt part)).filter
      (fun j => (bitmapSet b i true).bit j = false) =
      ((Finset.range (blockCnt part)).filter fun j => b.bit j = false).erase i := by
    ext j
    simp only [Finset.mem_filter, Finset.mem_erase, bit_bitmapSet]
    by_cases hj : j = i
    · simp [hj]
    · simp [hj]
  rw [freeCnt, freeCnt, hfilter]
  exact Finset.card_erase_add_one (Finset.mem_filter.2 ⟨Finset.mem_range.2 hi, hc⟩)

/-- A partition that is full has no free blocks. -/
theorem freeCnt_eq_zero (hfull : ∀ i < blockCnt part, b.bit i = true) : freeCnt part b = 0 := by
  rw [freeCnt, Finset.card_eq_zero, Finset.filter_eq_empty_iff]
  intro i hi
  rw [hfull i (Finset.mem_range.1 hi)]
  exact Bool.noConfusion

theorem Pool.io (h : Pool part u b l) (hio : IoFaults part u E) {w : Word} (hw : w ∈ l)
    (hgt : maxLba < w.toNat) : E (.panic .ideRead) ∧ E (.panic .ideWrite) := by
  obtain ⟨i, hi, rfl, hu, -⟩ := h.mem w hw
  exact hio i hi hu hgt

/-- Taking a block for the file stops if there is none. -/
theorem Pool.blockBitmapAlloc {s : FsState} {Q : Word → FsState → Prop} {n : ℕ}
    (h : Pool part u s.blockBitmap l)
    (hfull : freeCnt part s.blockBitmap ≤ n → E (.panic .bitmapScan))
    (hQ : ∀ i < blockCnt part, s.blockBitmap.bit i = false →
      (∀ j < i, s.blockBitmap.bit j = true) →
      Pool part u (bitmapSet s.blockBitmap i true) (blockAddr part i :: l) →
      (freeCnt part (bitmapSet s.blockBitmap i true) < n → E (.panic .bitmapScan)) →
      Q (blockAddr part i) { s with blockBitmap := bitmapSet s.blockBitmap i true }) :
    wp (blockBitmapAlloc part) Q E s := by
  refine blockBitmapAlloc_wp h.len (fun hno => hfull ?_) fun i hi hc hlow => ?_
  · rw [freeCnt_eq_zero hno]
    exact Nat.zero_le n
  · refine hQ i hi hc hlow (h.alloc hi hc) fun hlt => hfull ?_
    have := freeCnt_set hi hc
    omega

/-! ### Collecting the blocks of a write -/

theorem storeBlock_wp {h idx : ℕ} {direct : Bool} {w : Word} {s : FsState}
    {Q : Unit → FsState → Prop} (hzero : direct = true → (s.inode h).iSectors idx = 0)
    (hQ : ∀ s', s'.disk = s.disk → s'.blockBitmap = s.blockBitmap → s'.fileTable = s.fileTable →
      (s'.inode h).iSize = (s.inode h).iSize →
      (∀ k, (s'.inode h).iSectors k =
        if k = idx ∧ direct = true then w else (s.inode h).iSectors k) → Q () s') :
    wp (storeBlock h direct idx w) Q E s := by
  cases direct with
  | false => exact hQ s rfl rfl rfl rfl fun k => by simp
  | true =>
    simp only [storeBlock, if_true, wp_bind, wp_get, wp_ASSERT, wp_modify]
    refine ⟨fun _ => hQ _ rfl rfl rfl ?_ fun k => ?_, fun hne => ?_⟩
    · simp [updInode]
    · simp [updInode]
    · rw [hzero rfl] at hne
      cases hne

/-- **What the allocating loop does**: it allocates `left` new blocks `ws`. -/
theorem allocBlocks_holds {h : ℕ} {direct : ℕ → Bool} (left : ℕ) :
    ∀ {idx : ℕ} {all : ℕ → Word} {l : List Word} {s : FsState},
      Pool part u s.blockBitmap l →
      (freeCnt part s.blockBitmap < left → E (.panic .bitmapScan)) →
      (∀ k, idx ≤ k → k < idx + left → direct k = true → (s.inode h).iSectors k = 0) →
      wp (allocBlocks part h direct left idx all) (fun r s' => ∃ (ws : List Word)
        (all' : ℕ → Word), r = some all' ∧ ws.length = left ∧ Pool part u s'.blockBitmap (l ++ ws) ∧
        BitmapFrame part s.disk s'.disk ∧ s'.fileTable = s.fileTable ∧
        (s'.inode h).iSize = (s.inode h).iSize ∧
        (∀ k, all' k = if idx ≤ k ∧ k < idx + left then ws.getD (k - idx) 0 else all k) ∧
        (∀ k, (s'.inode h).iSectors k = if idx ≤ k ∧ k < idx + left ∧ direct k = true
          then ws.getD (k - idx) 0 else (s.inode h).iSectors k) ∧
        left ≤ freeCnt part s.blockBitmap) E s := by
  induction left with
  | zero =>
    intro idx all l s hp _ _
    refine ⟨[], all, rfl, rfl, by rwa [List.append_nil], BitmapFrame.refl _, rfl, rfl,
      fun k => ?_, fun k => ?_, Nat.zero_le _⟩
    · rw [if_neg (by omega)]
    · rw [if_neg (by omega)]
  | succ left ih =>
    intro idx all l s hp hfull hzero
    rw [allocBlocks, wp_bind]
    refine hp.blockBitmapAlloc (fun h => hfull (Nat.lt_succ_of_le h)) fun i hi hc _ hp1 hfull1 => ?_
    rw [if_neg (blockAddr_ne_neg_one hi), wp_bind]
    refine storeBlock_wp (hzero idx (Nat.le_refl _) (by omega)) fun s1 hd1 hb1 hf1 hz1 hs1 => ?_
    rw [wp_bind, blockBitmapIdx_blockAddr hi]
    refine blockBitmapSync_wp hi fun d2 hd2 => ?_
    have hp2 : Pool part u s1.blockBitmap (l ++ [blockAddr part i]) := by
      rw [hb1]
      exact hp1.perm (List.perm_append_singleton _ _).symm
    have hzero2 : ∀ k, idx + 1 ≤ k → k < idx + 1 + left → direct k = true →
        (s1.inode h).iSectors k = 0 := by
      intro k h1 h2 hdk
      rw [hs1, if_neg (by omega)]
      exact hzero k (by omega) (by omega) hdk
    refine (ih (s := { s1 with disk := d2 }) hp2 (by rwa [hb1]) hzero2).mono ?_ fun _ h => h
    rintro r s' ⟨ws, all', rfl, hlen, hp', hd', hf', hz', hall, hs', hcnt⟩
    refine ⟨blockAddr part i :: ws, all', rfl, by rw [List.length_cons, hlen],
      by rwa [List.append_assoc] at hp', (hd1 ▸ hd2).trans hd', hf'.trans hf1, hz'.trans hz1,
      fun k => ?_, fun k => ?_, ?_⟩
    · rw [hall]
      -- the new block is entry `idx`; the entries after it come from the rest of the loop
      rcases Nat.lt_trichotomy k idx with hk | rfl | hk
      · rw [if_neg (by omega), if_neg (by omega), if_neg (by omega)]
      · rw [if_neg (by omega), if_pos rfl, if_pos (by omega), Nat.sub_self, List.getD_cons_zero]
      · rw [if_neg (show k ≠ idx by omega), show k - idx = k - (idx + 1) + 1 by omega,
          List.getD_cons_succ]
        exact if_congr (by omega) rfl rfl
    · rw [hs']
      have hs1k := hs1 k
      rcases Nat.lt_trichotomy k idx with hk | rfl | hk
      · rw [if_neg (by omega), if_neg (by omega)]
        rwa [if_neg (by omega)] at hs1k
      · rw [if_neg (by omega), Nat.sub_self, List.getD_cons_zero]
        rw [show ({ s1 with disk := d2 } : FsState).inode h = s1.inode h from rfl, hs1k]
        exact if_congr (by constructor <;> grind) rfl rfl
      · rw [if_neg (by omega)] at hs1k
        rw [show k - idx = k - (idx + 1) + 1 by omega, List.getD_cons_succ]
        exact if_congr (by constructor <;> grind) rfl hs1k
    · change left ≤ freeCnt part s1.blockBitmap at hcnt
      rw [hb1] at hcnt
      exact freeCnt_set hi hc ▸ Nat.succ_le_succ hcnt

theorem mem_of_getD {k : ℕ} (hk : k < l.length) : l.getD k 0 ∈ l := by
  rw [List.getD_eq_getElem _ _ hk]
  exact List.getElem_mem hk

/-- More blocks for a file, and maybe a table. The contents do not change by it. -/
theorem Holds.extend (h : Holds part u d0 d b inode c bs t) {d' : Disk} {b' : Bitmap}
    {inode' : Inode} {t' : Option Word} {ws : List Word}
    (hpool : Pool part u b' (t'.toList ++ (bs ++ ws))) (hsize : inode'.iSize = inode.iSize)
    (hdirect : ∀ k < 12, inode'.iSectors k = (bs ++ ws).getD k 0)
    (htable : inode'.iSectors 12 = t'.getD 0)
    (hindirect : ∀ w, t' = some w → ∀ k, 12 ≤ k → k < 140 →
      (d' w.toNat).toWords (k - 12) = (bs ++ ws).getD k 0)
    (hlen : (bs ++ ws).length ≤ 140) (hiff : t'.isSome = true ↔ 12 < (bs ++ ws).length)
    (hsub : ∀ w, t = some w → t' = some w)
    (hd : ∀ a, d' a ≠ d a → part.sb.blockBitmapLba ≤ a ∧ a < part.sb.dataStartLba ∨
      ∃ w, t' = some w ∧ w.toNat = a) :
    Holds part u d0 d' b' inode' c (bs ++ ws) t' where
  pool := hpool
  size := by rw [hsize, h.size]
  direct := hdirect
  table := htable
  indirect := hindirect
  data := by
    intro j hj
    have hk : j / 512 < bs.length := by have := h.room; omega
    have hm : bs.getD (j / 512) 0 ∈ bs := mem_of_getD hk
    rw [List.getD_append _ _ _ _ hk, ← h.data j hj]
    -- the sector is neither before the data area nor the table
    by_contra hne
    rcases hd (bs.getD (j / 512) 0).toNat (fun he => hne (by rw [he])) with hlt | ⟨w, rfl, hw⟩
    · have := hpool.le_toNat (List.mem_append_right _ (List.mem_append_left _ hm))
      omega
    · rw [BitVec.toNat_inj.1 hw] at hpool
      have hnodup : (bs.getD (j / 512) 0 :: (bs ++ ws)).Nodup := hpool.nodup
      exact (List.nodup_cons.1 hnodup).1 (List.mem_append_left _ hm)
  length_le := hlen
  room := by have := h.room; rw [List.length_append]; omega
  table_iff := hiff
  frame := by
    intro a ha
    by_cases hda : d' a = d a
    · rw [hda] at ha
      rcases h.frame a ha with hm | ⟨w, hw, rfl⟩
      · exact Or.inl hm
      · refine Or.inr ⟨w, ?_, rfl⟩
        rcases List.mem_append.1 hw with hw | hw
        · rw [hsub w (Option.mem_toList.1 hw)]
          exact List.mem_append_left _ (by simp)
        · exact List.mem_append_right _ (List.mem_append_left _ hw)
    · rcases hd a hda with hm | ⟨w, rfl, rfl⟩
      · exact Or.inl hm
      · exact Or.inr ⟨w, List.mem_append_left _ (by simp), rfl⟩

/-- How many blocks a write takes that starts with `hasUsed` blocks in use and ends with `willUse`,
the indirect table among them. -/
def newBlocks (hasUsed willUse : ℕ) : ℕ :=
  willUse - hasUsed + if hasUsed ≤ 12 ∧ 12 < willUse then 1 else 0

/-- The outcome of collecting blocks: there are `willUse` of them now, and `all_blocks` has those
from the last one that was in use on. -/
def Collected (part : Partition) (u : Bitmap) (d0 : Disk) (h hasUsed willUse : ℕ) (c : List Byte)
    (s : FsState) (r : Option (ℕ → Word)) (s' : FsState) : Prop :=
  ∃ all bs t, r = some all ∧ Holds part u d0 s'.disk s'.blockBitmap (s'.inode h) c bs t ∧
    bs.length = willUse ∧ (∀ k, hasUsed - 1 ≤ k → k < willUse → all k = bs.getD k 0) ∧
    s'.fileTable = s.fileTable

section

variable {s : FsState} {h n : ℕ}

section

variable (hs : Holds part u d0 d b inode c bs t)

include hs

theorem Holds.table_none (hn : bs.length ≤ 12) : t = none := by
  cases t with
  | none => rfl
  | some w => have := hs.table_iff.1 rfl; omega

/-- A block of the file, or its table, is not at address 0. -/
theorem Holds.getD_ne_zero {k : ℕ} (hk : k < bs.length) :
    bs.getD k 0 ≠ 0 := hs.pool.ne_zero (List.mem_append_right _ (mem_of_getD hk))

theorem Holds.table_ne_zero (hn : 12 < bs.length) : inode.iSectors 12 ≠ 0 := by
  obtain ⟨w, rfl⟩ := Option.isSome_iff_exists.1 (hs.table_iff.2 hn)
  rw [hs.table]
  exact hs.pool.ne_zero (List.mem_append_left _ (by simp))

theorem Holds.direct_eq_zero {k : ℕ} (hk : bs.length ≤ k)
    (hk' : k < 12) : inode.iSectors k = 0 := by
  rw [hs.direct k hk', List.getD_eq_default _ _ hk]

/-- The faults of work on the indirect table. -/
theorem Holds.table_io (hio : IoFaults part u E)
    (hgt : maxLba < (inode.iSectors 12).toNat) : E (.panic .ideRead) ∧ E (.panic .ideWrite) := by
  rw [hs.table] at hgt
  cases t with
  | none => exact absurd hgt (by decide)
  | some w => exact hs.pool.io hio (List.mem_append_left _ (by simp)) hgt

end

theorem lastUsed_wp {Q : (ℕ → Word) → FsState → Prop} (hn : n ≤ 12)
    (hQ : ∀ all : ℕ → Word, all (n - 1) = inode.iSectors (n - 1) →
      (∀ k, k ≠ n - 1 → all k = 0) → Q all s) :
    wp (lastUsed inode n) Q E s := by
  simp only [lastUsed, wp_bind, wp_check, wp_pure, decide_eq_true_eq, decide_eq_false_iff_not]
  exact ⟨fun _ => hQ _ (if_pos rfl) fun k hk => if_neg hk, fun hge => absurd (by omega) hge⟩

/-- An entry of a list with `ws` added at its end. -/
theorem getD_append_eq {ws : List Word} {m k : ℕ} (hn : bs.length = n) (hws : ws.length = m) :
    (bs ++ ws).getD k 0 = if n ≤ k ∧ k < n + m then ws.getD (k - n) 0 else bs.getD k 0 := by
  rcases Nat.lt_or_ge k n with hk | hk
  · rw [if_neg (by omega), List.getD_append _ _ _ _ (by omega)]
  · rw [List.getD_append_right _ _ _ _ (by omega), hn]
    split
    · rfl
    · rw [List.getD_eq_default _ _ (by omega), List.getD_eq_default _ _ (by omega)]

section

variable {m : ℕ} (hs : Holds part u d0 s.disk s.blockBitmap (s.inode h) c bs t) (hn : bs.length = n)

include hs hn

theorem collectSame_holds (hio : IoFaults part u E) (h0 : 0 < n) :
    wp (collectSame h n) (Collected part u d0 h n n c s) E s := by
  rw [collectSame, wp_bind, wp_get]
  have hlen := hs.length_le
  split
  · rename_i hle
    rw [wp_bind]
    refine lastUsed_wp hle fun all hall _ => ?_
    refine ⟨all, bs, t, rfl, hs, hn, fun k h1 h2 => ?_, rfl⟩
    rw [show k = n - 1 by omega, hall, hs.direct _ (by omega)]
  · rw [wp_bind, wp_ASSERT]
    refine ⟨fun _ => ?_, fun hno => absurd (by simpa using hno) (hs.table_ne_zero (by omega))⟩
    rw [wp_bind]
    refine readTable_wp (fun hgt => (hs.table_io hio hgt).1) fun all hall _ => ?_
    refine ⟨all, bs, t, rfl, hs, hn, fun k h1 h2 => ?_, rfl⟩
    obtain ⟨w, rfl⟩ := Option.isSome_iff_exists.1 (hs.table_iff.2 (by omega))
    rw [hall k (by omega) (by omega), hs.table]
    exact hs.indirect w rfl k (by omega) (by omega)

theorem collectDirect_holds (h0 : 0 < n) (hnm : n < m) (hm : m ≤ 12)
    (hfull : freeCnt part s.blockBitmap < m - n → E (.panic .bitmapScan)) :
    wp (collectDirect part h n m) (fun r s' => Collected part u d0 h n m c s r s' ∧
      newBlocks n m ≤ freeCnt part s.blockBitmap) E s := by
  obtain rfl := hs.table_none (by omega)
  rw [collectDirect, wp_bind, wp_get, wp_bind]
  refine lastUsed_wp (by omega) fun all hall _ => ?_
  rw [wp_bind, wp_ASSERT]
  refine ⟨fun _ => ?_, fun hno => ?_⟩
  swap
  · rw [hall, hs.direct _ (by omega)] at hno
    exact absurd (by simpa using hno) (hs.getD_ne_zero (by omega : n - 1 < bs.length))
  refine (allocBlocks_holds (m - n) (l := bs) hs.pool hfull fun k h1 h2 _ =>
    hs.direct_eq_zero (by omega) (by omega)).mono ?_ fun _ h => h
  rintro r s' ⟨ws, all', rfl, hlen, hp, hd, hf, hz, hall', hsect, hcnt⟩
  refine ⟨⟨all', bs ++ ws, none, rfl, ?_, by rw [List.length_append]; omega, fun k h1 h2 => ?_, hf⟩,
    by rwa [newBlocks, if_neg (by omega)]⟩
  · refine hs.extend hp hz (fun k hk => ?_) ?_ (by simp) (by rw [List.length_append]; omega)
      (by rw [List.length_append]; simp; omega) (by simp) fun a ha => Or.inl ?_
    · rw [hsect, hs.direct k hk, getD_append_eq hn hlen]
      simp
    · rw [hsect, if_neg (by omega), hs.table]
    · by_contra hout
      exact ha (hd.data a (by omega))
  · rw [hall', getD_append_eq hn hlen]
    split
    · rfl
    · rw [show k = n - 1 by omega, hall, hs.direct _ (by omega)]

/-- The table and blocks in the order in which situation 2 allocates them. -/
theorem collectBoth_holds (hio : IoFaults part u E) (h0 : 0 < n) (hn' : n ≤ 12) (hm : 12 < m)
    (hm' : m ≤ 140)
    (hfull : freeCnt part s.blockBitmap ≤ m - n → E (.panic .bitmapScan)) :
    wp (collectBoth part h n m) (fun r s' => Collected part u d0 h n m c s r s' ∧
      newBlocks n m ≤ freeCnt part s.blockBitmap) E s := by
  obtain rfl := hs.table_none (by omega)
  rw [collectBoth, wp_bind, wp_get, wp_bind]
  refine lastUsed_wp hn' fun all hall hall0 => ?_
  rw [wp_bind]
  refine hs.pool.blockBitmapAlloc hfull fun i hi hc _ hp1 hfull1 => ?_
  rw [if_neg (blockAddr_ne_neg_one hi), collectCrossing]
  simp only [wp_bind, wp_get, wp_ASSERT, wp_modify]
  refine ⟨fun _ => ?_, fun hno => ?_⟩
  swap
  · simp [hs.table] at hno
  refine wp.mono (allocBlocks_holds (m - n) (l := blockAddr part i :: bs) hp1 hfull1
    fun k h1 _ hdk => ?_) ?_ fun _ h => h
  · have hk : k < 12 := of_decide_eq_true hdk
    simpa [updInode, Nat.ne_of_lt hk] using hs.direct_eq_zero (hn ▸ h1) hk
  rintro r s' ⟨ws, all', rfl, hlen, hp, hd, hf, hz, hall', hsect, hcnt⟩
  rw [wp_bind]
  refine writeTable_wp (fun hgt => (hp.io hio (by simp) hgt).2) fun d' htab hd' => ?_
  have hword : ∀ k, n ≤ k → all' k = (bs ++ ws).getD k 0 := by
    intro k hk
    rw [hall', getD_append_eq hn hlen]
    split
    · rfl
    · rw [hall0 k (by omega), List.getD_eq_default _ _ (by omega)]
  have hcnt1 : m - n ≤ freeCnt part (bitmapSet s.blockBitmap i true) := hcnt
  have hset := freeCnt_set hi hc
  refine ⟨⟨all', bs ++ ws, some (blockAddr part i), rfl, ?_, by rw [List.length_append]; omega,
    fun k h1 h2 => ?_, hf⟩, by rw [newBlocks, if_pos (by omega)]; omega⟩
  · refine hs.extend hp (hz.trans (by simp [updInode])) (fun k hk => ?_) ?_ ?_
      (by rw [List.length_append]; omega) (by rw [List.length_append]; simp; omega) (by simp)
      fun a ha => ?_
    · rw [hsect, getD_append_eq hn hlen]
      simp only [decide_eq_true_eq, hk, and_true]
      refine if_congr Iff.rfl rfl ?_
      rw [← hs.direct k hk]
      simp [updInode, show k ≠ 12 by omega]
    · rw [hsect, if_neg (by simp)]
      simp [updInode]
    · rintro w hw k h1 h2
      obtain rfl := Option.some.inj hw
      rw [htab k h1, hword k (by omega)]
    · by_cases hat : a = (blockAddr part i).toNat
      · exact Or.inr ⟨_, rfl, hat.symm⟩
      · refine Or.inl ?_
        by_contra hout
        exact ha ((hd' a hat).trans (hd.data a (by omega)))
  · rcases Nat.lt_or_ge k n with hk | hk
    · rw [hall', if_neg (by omega), List.getD_append _ _ _ _ (by omega), show k = n - 1 by omega,
        hall, hs.direct _ (by omega)]
    · exact hword k hk

theorem collectIndirect_holds (hio : IoFaults part u E) (hn' : 12 < n) (hnm : n < m) (hm : m ≤ 140)
    (hfull : freeCnt part s.blockBitmap < m - n → E (.panic .bitmapScan)) :
    wp (collectIndirect part h n m) (fun r s' => Collected part u d0 h n m c s r s' ∧
      newBlocks n m ≤ freeCnt part s.blockBitmap) E s := by
  obtain ⟨w, rfl⟩ := Option.isSome_iff_exists.1 (hs.table_iff.2 (by omega))
  have hw : (s.inode h).iSectors 12 = w := hs.table
  have htable : maxLba < w.toNat → E (.panic .ideRead) ∧ E (.panic .ideWrite) :=
    hs.pool.io hio (List.mem_append_left _ (by simp))
  rw [collectIndirect, wp_bind, wp_get]
  simp only [wp_bind, wp_ASSERT]
  refine ⟨fun _ => ?_, fun hno => absurd (by simpa using hno) (hs.table_ne_zero (by omega))⟩
  rw [hw]
  refine readTable_wp (fun hgt => (htable hgt).1) fun all hall hall0 => ?_
  refine (allocBlocks_holds (m - n) (l := w :: bs) hs.pool hfull fun _ _ _ hdk => ?_).mono ?_
    fun _ h => h
  · cases hdk
  rintro r s' ⟨ws, all', rfl, hlen, hp, hd, hf, hz, hall', hsect, hcnt⟩
  rw [wp_bind]
  refine writeTable_wp (fun hgt => (htable hgt).2) fun d' htab hd' => ?_
  have hword : ∀ k, 12 ≤ k → k < 140 → all' k = (bs ++ ws).getD k 0 := by
    intro k h1 h2
    rw [hall', getD_append_eq hn hlen, hall k h1 h2, hs.indirect w rfl k h1 h2]
  refine ⟨⟨all', bs ++ ws, some w, rfl, ?_, by rw [List.length_append]; omega,
    fun k h1 h2 => hword k (by omega) (by omega), hf⟩, by rwa [newBlocks, if_neg (by omega)]⟩
  refine hs.extend hp hz (fun k hk => ?_) ?_ ?_ (by rw [List.length_append]; omega)
    (by rw [List.length_append]; simp; omega) (by simp) fun a ha => ?_
  · rw [hsect, if_neg (by omega), hs.direct k hk, getD_append_eq hn hlen, if_neg (by omega)]
  · rw [hsect, if_neg (by omega), hs.table]
  · rintro w' hw' k h1 h2
    obtain rfl := Option.some.inj hw'
    rw [htab k h1, hword k h1 h2]
  · by_cases hat : a = w.toNat
    · exact Or.inr ⟨_, rfl, hat.symm⟩
    · refine Or.inl ?_
      by_contra hout
      exact ha ((hd' a hat).trans (hd.data a (by omega)))

/-- **Collecting the blocks of a write.** -/
theorem collectBlocks_holds (hio : IoFaults part u E) (h0 : 0 < n) (hnm : n ≤ m) (hm : m ≤ 140)
    (hfull : freeCnt part s.blockBitmap < newBlocks n m → E (.panic .bitmapScan)) :
    wp (collectBlocks part h n m) (fun r s' => Collected part u d0 h n m c s r s' ∧
      newBlocks n m ≤ freeCnt part s.blockBitmap) E s := by
  rw [newBlocks] at hfull
  rw [collectBlocks]
  split
  · rename_i he
    have hnone : newBlocks n n = 0 := by rw [newBlocks, Nat.sub_self, if_neg (by omega)]
    rw [he, hnone]
    exact wp.mono (collectSame_holds hs hn hio h0) (fun _ _ h => ⟨h, Nat.zero_le _⟩) fun _ h => h
  split
  · rw [if_neg (by omega)] at hfull
    exact collectDirect_holds hs hn h0 (by omega) (by omega) hfull
  split
  · rw [if_pos (by omega)] at hfull
    exact collectBoth_holds hs hn hio h0 (by omega) (by omega) hm fun h => hfull (by omega)
  · rw [if_neg (by omega)] at hfull
    exact collectIndirect_holds hs hn hio (by omega) (by omega) hm hfull

end

/-- The file has a block exactly if its first entry is not 0. -/
theorem Holds.nil_iff (hs : Holds part u d0 d b inode c bs t) :
    inode.iSectors 0 = 0 ↔ bs = [] := by
  rw [hs.direct 0 (by omega)]
  cases bs with
  | nil => simp
  | cons w ws =>
    have hw : w ≠ 0 := hs.pool.ne_zero (List.mem_append_right _ List.mem_cons_self)
    simpa using hw

/-- The first write gets the file a block. It stops if that is block 0, which is the root's. -/
theorem firstBlock_holds {m : ℕ}
    (hs : Holds part u d0 s.disk s.blockBitmap (s.inode h) c bs t)
    (hfull : freeCnt part s.blockBitmap < (if bs = [] then 1 else 0) + m →
      E (.panic .bitmapScan))
    (hroot : bs = [] → s.blockBitmap.bit 0 = false → E (.panic .fileWrite)) :
    wp (firstBlock part h) (fun r s' => r = true ∧ ∃ bs' t',
      Holds part u d0 s'.disk s'.blockBitmap (s'.inode h) c bs' t' ∧
      bs'.length = max 1 bs.length ∧ s'.fileTable = s.fileTable ∧
      (freeCnt part s'.blockBitmap < m → E (.panic .bitmapScan)) ∧
      freeCnt part s'.blockBitmap + (if bs = [] then 1 else 0) = freeCnt part s.blockBitmap ∧
      (bs = [] → s.blockBitmap.bit 0 = true)) E s := by
  rw [firstBlock, wp_bind, wp_get]
  split
  · rename_i h0
    obtain rfl := hs.nil_iff.1 h0
    obtain rfl := hs.table_none (Nat.zero_le _)
    rw [wp_bind]
    refine hs.pool.blockBitmapAlloc (n := m) (fun h => hfull (by rw [if_pos rfl]; omega))
      fun i hi hc hlow hp1 hfull1 => ?_
    rw [if_neg (blockAddr_ne_neg_one hi), blockBitmapIdx_blockAddr hi]
    simp only [wp_bind, wp_modify, wp_ASSERT, wp_pure, decide_eq_true_eq, decide_eq_false_iff_not,
      not_not]
    refine ⟨fun hi0 => ?_, fun hi0 => hroot rfl (hi0 ▸ hc)⟩
    refine blockBitmapSync_wp hi fun d' hd' => ?_
    refine ⟨trivial, [blockAddr part i], none, ?_, rfl, rfl, hfull1, ?_, fun _ =>
      hlow 0 (Nat.pos_of_ne_zero hi0)⟩
    swap
    · rw [if_pos trivial]
      exact freeCnt_set hi hc
    refine hs.extend hp1 (by simp [updInode])
      (fun k hk => ?_) ?_ (by simp) (by simp) (by simp) (by simp) fun a ha => Or.inl ?_
    · have hk' := hs.direct k hk
      rw [List.getD_nil] at hk'
      cases k with
      | zero => simp [updInode]
      | succ k => simp [updInode, hk']
    · have := hs.table
      simpa [updInode] using this
    · by_contra hout
      exact ha (hd'.data a (by omega))
  · rename_i h0
    have hne : bs ≠ [] := fun he => h0 (hs.nil_iff.2 he)
    have hlen := List.length_pos_iff.2 hne
    rw [if_neg hne, Nat.zero_add] at hfull
    exact ⟨rfl, bs, t, hs, by omega, rfl, hfull, by rw [if_neg hne, Nat.add_zero],
      fun he => absurd he hne⟩

end

/-! ### Writing the data -/

theorem getD_inj (hl : l.Nodup) {i j : ℕ} (hi : i < l.length) (hj : j < l.length)
    (h : l.getD i 0 = l.getD j 0) : i = j := by
  rw [List.getD_eq_getElem _ _ hi, List.getD_eq_getElem _ _ hj] at h
  exact (List.Nodup.getElem_inj_iff hl).1 h

theorem getD_range_map {n i : ℕ} (v : ℕ → Byte) (hi : i < n) :
    ((List.range n).map v).getD i 0 = v i := by
  rw [List.getD_eq_getElem _ _ (by simpa using hi)]
  simp

/-- **One sector of a write.** The sector in which the file ends keeps what it held before the end
of the file and has `n` more bytes after it. -/
theorem Holds.append (hs : Holds part u d0 d b inode c bs t) {x : Buf} {n : ℕ} {v : ℕ → Byte}
    (hsec : c.length / 512 < bs.length) (hn : n ≤ 512 - c.length % 512)
    (hkeep : ∀ i < c.length % 512, x i = d (bs.getD (c.length / 512) 0).toNat i)
    (hnew : ∀ i < n, x (c.length % 512 + i) = v i) :
    Holds part u d0 (d.write (bs.getD (c.length / 512) 0).toNat x 1) b
      { inode with iSize := inode.iSize + BitVec.ofNat 32 n } (c ++ (List.range n).map v) bs t where
  pool := hs.pool
  size := by
    have h1 := hs.length_le
    have h2 := hs.size
    rw [List.length_append, List.length_map, List.length_range, BitVec.toNat_add, h2,
      BitVec.toNat_ofNat]
    omega
  direct := hs.direct
  table := hs.table
  indirect := by
    rintro w rfl k h1 h2
    have hnodup : (w :: bs).Nodup := hs.pool.nodup
    have hne : w.toNat ≠ (bs.getD (c.length / 512) 0).toNat := fun he =>
      (List.nodup_cons.1 hnodup).1 (BitVec.toNat_inj.1 he ▸ mem_of_getD hsec)
    rw [Disk.write_one_of_ne hne]
    exact hs.indirect w rfl k h1 h2
  data := by
    intro j hj
    rw [List.length_append, List.length_map, List.length_range] at hj
    rcases Nat.lt_or_ge j c.length with hjc | hjc
    · rw [List.getD_append _ _ _ _ hjc, ← hs.data j hjc]
      -- an old byte lies in the sector just written, before the new ones, or in another sector
      by_cases hsame : j / 512 = c.length / 512
      · rw [hsame, Disk.write_one_self, hkeep _ (by omega)]
      · refine congrFun (Disk.write_one_of_ne fun he => hsame ?_) _
        exact getD_inj hs.pool.nodup.of_append_right (by omega) hsec (BitVec.toNat_inj.1 he)
    · rw [List.getD_append_right _ _ _ _ hjc, getD_range_map v (by omega),
        show j / 512 = c.length / 512 by omega, Disk.write_one_self, ← hnew _ (by omega),
        show c.length % 512 + (j - c.length) = j % 512 by omega]
  length_le := hs.length_le
  room := by rw [List.length_append, List.length_map, List.length_range]; omega
  table_iff := hs.table_iff
  frame := by
    intro a ha
    by_cases hw : a = (bs.getD (c.length / 512) 0).toNat
    · exact Or.inr ⟨_, List.mem_append_right _ (mem_of_getD hsec), hw.symm⟩
    · rw [Disk.write_one_of_ne hw] at ha
      exact hs.frame a ha

section

variable {s : FsState} {f h : ℕ} {all : ℕ → Word} {src : Buf} {count : ℕ}

theorem writeSector_wp {lba off n : ℕ} {first : Bool} {Q : Buf → FsState → Prop}
    (hoff : off ≤ 512) (hE : maxLba < lba → E (.panic .ideRead) ∧ E (.panic .ideWrite))
    (hQ : ∀ x : Buf, (first = true → ∀ i < off, x i = s.disk lba i) →
      (∀ i < n, x (off + i) = src i) → Q x { s with disk := s.disk.write lba x 1 }) :
    wp (writeSector lba off n src first) Q E s := by
  have hnew : ∀ y : Buf, ∀ i < n, y.splice off src n (off + i) = src i :=
    fun y i hi => Buf.splice_add hi
  cases first with
  | false =>
    simp only [writeSector, Bool.false_eq_true, if_false, wp_bind, wp_pure, wp_onDisk,
      wp_ideWrite Nat.one_pos (show 1 ≤ 256 by omega)]
    exact ⟨fun _ => hQ _ (fun hf => by cases hf) (hnew _), fun hgt => (hE hgt).2⟩
  | true =>
    simp only [writeSector, if_true, wp_bind, wp_pure, wp_onDisk,
      wp_ideRead Nat.one_pos (show 1 ≤ 256 by omega),
      wp_ideWrite Nat.one_pos (show 1 ≤ 256 by omega)]
    refine ⟨fun _ => ⟨fun _ => hQ _ (fun _ i hi => ?_) (hnew _), fun hgt => (hE hgt).2⟩,
      fun hgt => (hE hgt).1⟩
    rw [Buf.splice_of_not_mem (Or.inl hi), Buf.splice_of_mem (Nat.zero_le _) (by omega),
      Nat.sub_zero, Disk.read_of_lt (by omega)]

/-- **The data loop of a write** appends the rest of the data. -/
theorem writeLoop_holds (hio : IoFaults part u E) (fuel : ℕ) :
    ∀ {written : ℕ} {first : Bool} {io : Buf} {c : List Byte} {s : FsState},
      Holds part u d0 s.disk s.blockBitmap (s.inode h) c bs t →
      (first = true ∨ c.length % 512 = 0 ∨ written = count) →
      (∀ k, c.length / 512 ≤ k → k < bs.length → all k = bs.getD k 0) →
      written ≤ count → count - written < fuel → c.length + (count - written) < 512 * bs.length →
      wp (writeLoop f h all src count fuel written first io) (fun _ s' =>
        Holds part u d0 s'.disk s'.blockBitmap (s'.inode h)
          (c ++ (List.range (count - written)).map fun i => src (written + i)) bs t ∧
        (s'.inode h).iNo = (s.inode h).iNo ∧
        ∀ g, (s'.fileTable g).fdInode = (s.fileTable g).fdInode) E s := by
  induction fuel with
  | zero => intros; omega
  | succ fuel ih =>
    intro written first io c s hs hfirst hall hle hfuel hroom
    rw [writeLoop]
    split
    · rename_i hlt
      have hsec : c.length / 512 < bs.length := by omega
      have hmax := hs.length_le
      simp only [wp_bind, wp_get, wp_check, hs.size, maxBlocks, decide_eq_true_eq,
        decide_eq_false_iff_not]
      refine ⟨fun _ => ?_, fun hno => by omega⟩
      rw [hall _ (Nat.le_refl _) hsec]
      have hown := hs.pool.io hio (List.mem_append_right _ (mem_of_getD hsec))
      refine writeSector_wp (by omega) hown fun x hkeep hnew => ?_
      simp only [wp_modify]
      set n := min (count - written) (512 - c.length % 512) with hn
      have hs' := hs.append (v := fun i => src (written + i)) hsec (by omega) (x := x)
        (fun i hi => by
          rcases hfirst with hf | hf | hf
          · exact hkeep hf i hi
          all_goals omega) hnew
      have hlen : (c ++ (List.range n).map fun i => src (written + i)).length = c.length + n := by
        rw [List.length_append, List.length_map, List.length_range]
      refine (ih (c := c ++ (List.range n).map fun i => src (written + i)) ?_ (Or.inr ?_) ?_
        (by omega) (by omega) ?_).mono ?_ fun _ h => h
      · simpa [updInode, updFile] using hs'
      · rw [hlen]; omega
      · rw [hlen]; exact fun k h1 h2 => hall k (by omega) h2
      · rw [hlen]; omega
      · rintro _ s' ⟨hs'', hno, hf⟩
        refine ⟨?_, hno.trans ?_, fun g => (hf g).trans ?_⟩
        · -- the chunk and what the rest of the loop appends, together
          have hsplit : (List.range (count - written)).map (fun i => src (written + i)) =
              (List.range n).map (fun i => src (written + i)) ++
                (List.range (count - (written + n))).map fun i => src (written + n + i) := by
            rw [show count - written = n + (count - (written + n)) by omega, List.range_add,
              List.map_append, List.map_map]
            simp [Function.comp_def, Nat.add_assoc]
          rwa [hsplit, ← List.append_assoc]
        · simp only [updFile, updInode, if_true]
        · simp only [updFile, updInode]
          split <;> rfl
    · rename_i hge
      have he : count - written = 0 := by omega
      rw [he]
      refine ⟨by simpa using hs, rfl, fun _ => rfl⟩

/-- A file between two calls: no blocks before the first write, and one more than are full after
it. -/
def Settled (part : Partition) (u : Bitmap) (d0 : Disk) (h : ℕ) (s : FsState) (c : List Byte)
    (bs : List Word) (t : Option Word) : Prop :=
  Holds part u d0 s.disk s.blockBitmap (s.inode h) c bs t ∧
    (bs.length = c.length / 512 + 1 ∨ bs = [] ∧ c = [])

theorem writeData_holds {buf : Buf} {n : Word} (hio : IoFaults part u E)
    (hs : Holds part u d0 s.disk s.blockBitmap (s.inode h) c bs t)
    (hall : ∀ k, c.length / 512 ≤ k → k < bs.length → all k = bs.getD k 0)
    (hroom : c.length + n.toNat < 512 * bs.length)
    (hsync : Straddles ((s.inode h).iNo.toNat % 256) → E .wild) :
    wp (writeData part f h all buf n) (fun r s' => r = n ∧
      ¬ Straddles ((s.inode h).iNo.toNat % 256) ∧
      Holds part u d0 s'.disk s'.blockBitmap (s'.inode h)
        (c ++ (List.range n.toNat).map buf) bs t ∧
      ∀ g, (s'.fileTable g).fdInode = (s.fileTable g).fdInode) E s := by
  rw [writeData, wp_bind, wp_modify, wp_bind]
  refine (writeLoop_holds hio (n.toNat + 1) (s := s.updFile f _) hs (Or.inl rfl) hall
    (Nat.zero_le _) (by omega) (by omega)).mono ?_ fun _ h => h
  rintro io s' ⟨hs', hno, hf⟩
  have hno : (s'.inode h).iNo = (s.inode h).iNo := hno
  simp only [Nat.sub_zero, Nat.zero_add] at hs'
  rw [wp_bind, wp_get, wp_bind]
  refine inodeSyncIn_wp (fun hshort => hsync ?_) fun hfits d' hd' =>
    ⟨rfl, fun hstr => ?_, hs'.meta fun a ha => hd'.frame a ?_, fun g => ?_⟩
  · rwa [hno, straddles_iff] at hshort
  · rw [hno] at hfits
    exact absurd (straddles_iff.2 hstr) (Nat.not_lt.2 hfits)
  · have h1 := part.dataStartLba_eq
    have h2 := part.inodeTableLba_eq
    have h3 := part.inodeBitmapLba_eq
    omega
  · refine (hf g).trans ?_
    simp only [updFile]
    split <;> rfl

/-- How many blocks a write of `count` bytes takes for a file of `size` bytes: one that was never
written to has no block yet. -/
def blocksFor (inode : Inode) (count : ℕ) : ℕ :=
  (if inode.iSectors 0 = 0 then 1 else 0) +
    newBlocks (inode.iSize.toNat / 512 + 1) ((inode.iSize.toNat + count) / 512 + 1)

/-- Both buffers of `file_write` are to be had. -/
def HeapForTwo (s : FsState) : Prop := s.mallocs 0 = true ∧ s.mallocs 1 = true

/-- A call that comes to nothing: files are as they were. -/
def Unwritten (s s' : FsState) : Prop :=
  s'.disk = s.disk ∧ s'.inode = s.inode ∧ s'.blockBitmap = s.blockBitmap ∧
    s'.fileTable = s.fileTable

/-- **A write appends**, or it is refused, if the sum of size and count does not wrap around. What
can stop it is that there are too few blocks, that the first one is the root's, that the file would
get as long as the largest one, and that the record of the inode lies in two sectors. -/
theorem fileWrite_holds (buf : Buf) (n : Word) (hio : IoFaults part u E)
    (hs : Settled part u d0 h s c bs t) (hf : (s.fileTable f).fdInode = some h)
    (hn : c.length + n.toNat < 2 ^ 32)
    (hfull : HeapForTwo s → c.length + n.toNat ≤ 71680 →
      freeCnt part s.blockBitmap < blocksFor (s.inode h) n.toNat → E (.panic .bitmapScan))
    (hroot : HeapForTwo s → c.length + n.toNat ≤ 71680 → (s.inode h).iSectors 0 = 0 →
      s.blockBitmap.bit 0 = false → E (.panic .fileWrite))
    (hmax : HeapForTwo s → c.length + n.toNat = 71680 → E (.panic .fileWrite))
    (hsync : HeapForTwo s → c.length + n.toNat < 71680 →
      Straddles ((s.inode h).iNo.toNat % 256) → E .wild) :
    wp (fileWrite part f buf n) (fun r s' =>
      r = -1 ∧ Unwritten s s' ∧ (71680 < c.length + n.toNat ∨ ¬ HeapForTwo s) ∨
      r = n ∧ c.length + n.toNat < 71680 ∧ HeapForTwo s ∧
        blocksFor (s.inode h) n.toNat ≤ freeCnt part s.blockBitmap ∧
        ((s.inode h).iSectors 0 = 0 → s.blockBitmap.bit 0 = true) ∧
        ¬ Straddles ((s.inode h).iNo.toNat % 256) ∧ ∃ bs' t',
        Settled part u d0 h s' (c ++ (List.range n.toNat).map buf) bs' t' ∧
        ∀ g, (s'.fileTable g).fdInode = (s.fileTable g).fdInode) E s := by
  have hblind : BlindBlocks (fun s => (s.inode h).iNo) h :=
    ⟨fun _ _ => rfl, fun _ _ _ => rfl, fun _ _ => rfl, fun _ _ => by simp [updInode]⟩
  obtain ⟨hs, hlen⟩ := hs
  have hsum : ((s.inode h).iSize + n).toNat = c.length + n.toNat := by
    rw [BitVec.toNat_add, hs.size, Nat.mod_eq_of_lt hn]
  simp only [fileWrite, wp_bind, wp_get, hf, fileWriteAt, hsum, maxBlocks]
  split
  · rename_i hlong
    exact .inl ⟨rfl, ⟨rfl, rfl, rfl, rfl⟩, .inl hlong⟩
  rename_i hshort
  rw [wp_bind, wp_sysMalloc]
  split
  swap
  · rename_i hno
    exact .inl ⟨rfl, ⟨rfl, rfl, rfl, rfl⟩, .inr fun hheap => hno hheap.1⟩
  rename_i hgot0
  rw [wp_bind, wp_sysMalloc]
  split
  swap
  · rename_i hno
    exact .inl ⟨rfl, ⟨rfl, rfl, rfl, rfl⟩, .inr fun hheap => hno hheap.2⟩
  rename_i hgot1
  have hheap : HeapForTwo s := ⟨hgot0, hgot1⟩
  have hle : c.length + n.toNat ≤ 71680 := Nat.not_lt.1 hshort
  have hnil : (s.inode h).iSectors 0 = 0 ↔ bs = [] := hs.nil_iff
  rw [writeAlloc, wp_bind]
  refine wp_of_run <| wp.mono (firstBlock_holds (m := newBlocks (c.length / 512 + 1)
    ((c.length + n.toNat) / 512 + 1)) hs (fun hlt => hfull hheap hle ?_)
    fun he => hroot hheap hle (hnil.2 he)) ?_ fun _ h => h
  · rw [blocksFor, hs.size]
    simpa only [hnil] using hlt
  rintro _ s1 ⟨rfl, bs1, t1, hs1, hlen1, hf1, hfull1, hcnt1, hroot1⟩ hrun1
  have hno1 : (s1.inode h).iNo = (s.inode h).iNo := ((hblind.firstBlock _).ok hrun1 :)
  have hlen1' : bs1.length = c.length / 512 + 1 := by
    rcases hlen with hlen | ⟨rfl, rfl⟩
    · omega
    · simpa using hlen1
  have hsize1 : (s1.inode h).iSize = (s.inode h).iSize :=
    BitVec.toNat_inj.1 (hs1.size.trans hs.size.symm)
  simp only [if_true, writeBlocks, wp_bind, wp_get, wp_ASSERT, decide_eq_true_eq,
    decide_eq_false_iff_not, hsize1, hsum, hs.size, maxBlocks]
  refine ⟨fun hwill => ?_, fun hno => hmax hheap (by omega)⟩
  refine wp_of_run <| wp.mono
    (collectBlocks_holds hs1 hlen1' hio (by omega) (by omega) hwill hfull1) ?_ fun _ h => h
  rintro r s2 ⟨⟨all, bs2, t2, rfl, hs2, hlen2, hall, hf2⟩, hcnt2⟩ hrun2
  have hno2 : (s2.inode h).iNo = (s.inode h).iNo :=
    ((hblind.collectBlocks _ _ _).ok hrun2 :).trans hno1
  refine wp.mono (writeData_holds hio hs2 (fun k h1 h2 => hall k (by omega) (by omega))
    (by omega) (hno2 ▸ hsync hheap (by omega))) ?_ fun _ h => h
  rintro r s3 ⟨rfl, hin, hs3, hf3⟩
  have hcnt : blocksFor (s.inode h) r.toNat ≤ freeCnt part s.blockBitmap := by
    simp only [blocksFor, hs.size, hnil]
    simp only at hcnt1
    omega
  refine .inr ⟨rfl, by omega, hheap, hcnt, fun he => hroot1 (hnil.1 he), hno2 ▸ hin, bs2, t2,
    ⟨hs3, Or.inl ?_⟩, fun g => ?_⟩
  · rw [List.length_append, List.length_map, List.length_range, hlen2]
  · rw [hf3, hf2, hf1]

/-- A write that returns the count it was given has appended as much. -/
theorem fileWrite_post {buf : Buf} {n : Word} (hs : Settled part u d0 h s c bs t)
    (hf : (s.fileTable f).fdInode = some h) (hn : c.length + n.toNat < 2 ^ 32) :
    post (fileWrite part f buf n) (fun r s' => r.toInt = n.toNat → ∃ bs' t',
      Settled part u d0 h s' (c ++ (List.range n.toNat).map buf) bs' t' ∧
      (s'.fileTable f).fdInode = some h) s := by
  refine wp.mono (fileWrite_holds (E := fun _ => True) buf n
    (fun _ _ _ _ => ⟨trivial, trivial⟩) hs hf hn
    (fun _ _ _ => trivial) (fun _ _ _ _ => trivial) (fun _ _ => trivial) fun _ _ _ => trivial) ?_
    fun _ h => h
  rintro r s' (⟨rfl, -, -⟩ | ⟨rfl, -, -, -, -, -, bs', t', hs', hf'⟩) hret
  · rw [show (-1 : Word).toInt = -1 by decide] at hret
    omega
  · exact ⟨bs', t', hs', (hf' f).trans hf⟩

end

/-! ### Reading -/

section

variable {s : FsState} {f h : ℕ} {all : ℕ → Word} {dst : Buf} {size : ℕ} {got : Bool}

/-- `file_read` collects the addresses of the blocks it is going to read. -/
theorem collectRead_holds (hio : IoFaults part u E) (hs : Holds part u d0 s.disk b inode c bs t)
    {first last : ℕ} (hle : first ≤ last) (hlast : last < bs.length) :
    wp (collectRead inode first last) (fun all s' => s' = s ∧
      ∀ k, first ≤ k → k ≤ last → all k = bs.getD k 0) E s := by
  have hlen := hs.length_le
  -- whichever case reads the table, the table has the block
  have htable : 12 ≤ last → ∀ b0 : ℕ → Word, (∀ k, first ≤ k → k < 12 → b0 k = bs.getD k 0) →
      wp (readTable (inode.iSectors 12) b0) (fun all s' => s' = s ∧
        ∀ k, first ≤ k → k ≤ last → all k = bs.getD k 0) E s := by
    intro h12 b0 hb0
    refine readTable_wp (fun hgt => (hs.table_io hio hgt).1) fun all hall hall0 =>
      ⟨rfl, fun k h1 h2 => ?_⟩
    obtain ⟨w, rfl⟩ := Option.isSome_iff_exists.1 (hs.table_iff.2 (by omega))
    rcases Nat.lt_or_ge k 12 with hk | hk
    · rw [hall0 k hk, hb0 k h1 hk]
    · rw [hall k hk (by omega), hs.table]
      exact hs.indirect w rfl k hk (by omega)
  have hassert : 12 ≤ last → (inode.iSectors 12 != 0) = false → E (.panic .fileRead) :=
    fun h12 hno => absurd (by simpa using hno) (hs.table_ne_zero (by omega))
  rw [collectRead]
  split
  · rename_i he
    split
    · exact ⟨rfl, fun k h1 h2 => (if_pos (by omega)).trans (hs.direct k (by omega))⟩
    · exact htable (by omega) _ fun k h1 h2 => by omega
  split
  · exact ⟨rfl, fun k h1 h2 => (if_pos ⟨h1, h2⟩).trans (hs.direct k (by omega))⟩
  split
  · rw [wp_bind, wp_ASSERT]
    exact ⟨fun _ => htable (by omega) _ fun k h1 h2 => (if_pos ⟨h1, h2⟩).trans (hs.direct k h2),
      hassert (by omega)⟩
  · rw [wp_bind, wp_ASSERT]
    exact ⟨fun _ => htable (by omega) _ fun k h1 h2 => by omega, hassert (by omega)⟩

/-- **The data loop of a read** delivers the rest of the bytes asked for. -/
theorem readLoop_holds (hio : IoFaults part u E) (hgot : got = false → 0 < size → E .wild)
    (fuel : ℕ) :
    ∀ {done : ℕ} {dst : Buf} {s : FsState},
      Holds part u d0 s.disk b inode c bs t → done ≤ size → size - done < fuel →
      (s.fileTable f).fdPos.toNat + (size - done) ≤ c.length →
      (done < size → ∀ k, (s.fileTable f).fdPos.toNat / 512 ≤ k →
        k ≤ ((s.fileTable f).fdPos.toNat + (size - done)) / 512 → all k = bs.getD k 0) →
      wp (readLoop f all got size fuel done dst) (fun out s' =>
        (∀ i, i < done ∨ size ≤ i → out i = dst i) ∧
        (∀ i, done ≤ i → i < size →
          out i = c.getD ((s.fileTable f).fdPos.toNat + (i - done)) 0) ∧
        (s'.fileTable f).fdPos.toNat = (s.fileTable f).fdPos.toNat + (size - done)) E s := by
  induction fuel with
  | zero => intros; omega
  | succ fuel ih =>
    intro done dst s hs hle hfuel hend hall
    rw [readLoop]
    split
    · rename_i hlt
      set p := (s.fileTable f).fdPos.toNat with hp
      have h1 := hs.room
      have h2 := hs.length_le
      have hsec : p / 512 < bs.length := by omega
      have hblock := hall hlt _ (Nat.le_refl _) (by omega)
      have hown := hs.pool.io hio (List.mem_append_right _ (mem_of_getD hsec))
      simp only [wp_bind, wp_get, wp_check, wp_onDisk, wp_modify, ← hp, hblock, maxBlocks,
        wp_ideRead Nat.one_pos (show 1 ≤ 256 by omega)]
      refine ⟨fun _ => ⟨fun _ => ?_, fun hgt => (hown hgt).1⟩, fun hno => hgot ?_ (by omega)⟩
      swap
      · simpa [show p / 512 < 140 by omega] using hno
      set n := min (size - done) (512 - p % 512) with hn
      set s' : FsState := ({ s with disk := s.disk } : FsState).updFile f _ with hs'
      have hpos : (s'.fileTable f).fdPos.toNat = p + n := by
        rw [hs']
        simp only [updFile, if_true, BitVec.toNat_add, BitVec.toNat_ofNat, ← hp]
        omega
      refine (ih (s := s') hs (by omega) (by omega) (by rw [hpos]; omega) ?_).mono ?_ fun _ h => h
      · rw [hpos]
        exact fun _ k h1 h2 => hall hlt k (by omega) (by omega)
      · rw [hpos]
        rintro out s'' ⟨hold, hnew, hfin⟩
        refine ⟨fun i hi => ?_, fun i h1 h2 => ?_, by rw [hfin]; omega⟩
        · rw [hold i (by omega), Buf.splice_of_not_mem (by omega)]
        · rcases Nat.lt_or_ge i (done + n) with hin | hin
          · -- a byte of this sector
            rw [hold i (Or.inl hin), Buf.splice_of_mem h1 hin,
              Buf.splice_of_mem (Nat.zero_le _) (by omega), Nat.sub_zero,
              Disk.read_of_lt (by omega), ← hs.data _ (by omega),
              show (p + (i - done)) / 512 = p / 512 by omega,
              show (p + (i - done)) % 512 = p % 512 + (i - done) by omega]
          · rw [hnew i hin h2]
            congr 1
            omega
    · rename_i hge
      refine ⟨fun _ _ => rfl, fun i h1 h2 => by omega, ?_⟩
      omega

/-- **Reading `n` bytes of the file.** What can stop it is that they reach into the last block but
one of the largest file, and that the buffer for a sector was not to be had. -/
theorem readData_holds {n : Word} (hio : IoFaults part u E)
    (hs : Holds part u d0 s.disk b (s.inode h) c bs t)
    (hlen : bs.length = c.length / 512 + 1 ∨ bs = [] ∧ c = [])
    (hend : (s.fileTable f).fdPos.toNat + n.toNat ≤ c.length)
    (hbuf : s.mallocs 1 = true → s.mallocs 0 = false → 0 < n.toNat → E .wild)
    (hmax : s.mallocs 1 = true → 139 * 512 ≤ (s.fileTable f).fdPos.toNat + n.toNat →
      E (.panic .fileRead)) :
    wp (readData f h dst n) (fun r s' => r = (-1, dst) ∧ s.mallocs 1 = false ∨ r.1 = n ∧
      (∀ i, n.toNat ≤ i → r.2 i = dst i) ∧
      (∀ i < n.toNat, r.2 i = c.getD ((s.fileTable f).fdPos.toNat + i) 0) ∧
      (s'.fileTable f).fdPos.toNat = (s.fileTable f).fdPos.toNat + n.toNat) E s := by
  set p := (s.fileTable f).fdPos with hp
  have hmod : c.length < 2 ^ 32 := by rw [← hs.size]; exact (s.inode h).iSize.isLt
  have hsum : (p + n).toNat = p.toNat + n.toNat := by
    rw [BitVec.toNat_add, Nat.mod_eq_of_lt (by omega)]
  rw [readData, wp_bind, wp_sysMalloc, wp_bind, wp_sysMalloc]
  split
  swap
  · rename_i hno
    exact .inl ⟨rfl, Bool.eq_false_iff.2 hno⟩
  rename_i hgot
  simp only [wp_bind, wp_get, wp_pure, wp_ASSERT, ← hp, hsum]
  refine ⟨fun _ => ?_, fun hno => hmax hgot ?_⟩
  swap
  · simp only [Bool.and_eq_false_iff, decide_eq_false_iff_not] at hno
    omega
  set s1 : FsState := { s with mallocs := fun k => s.mallocs (k + 1 + 1) } with hs1
  -- an empty file has no blocks, and nothing is read from it
  have hcollect : wp (collectRead (s.inode h) (p.toNat / 512) ((p.toNat + n.toNat) / 512))
      (fun all s' => s' = s1 ∧ ∀ k, p.toNat / 512 ≤ k → k ≤ (p.toNat + n.toNat) / 512 →
        0 < n.toNat → all k = bs.getD k 0) E s1 := by
    rcases hlen with hlen | ⟨rfl, rfl⟩
    · refine wp.mono (collectRead_holds (s := s1) hio hs (by omega) (by omega)) ?_ fun _ h => h
      rintro all s' ⟨rfl, hall⟩
      exact ⟨rfl, fun k h1 h2 _ => hall k h1 h2⟩
    · have h0 : p.toNat + n.toNat = 0 := Nat.le_zero.1 hend
      rw [h0, show p.toNat / 512 = 0 / 512 by omega, collectRead, if_pos rfl, if_pos (by omega)]
      exact ⟨rfl, fun k _ _ h => by omega⟩
  refine hcollect.mono ?_ fun _ h => h
  rintro all s' ⟨rfl, hall⟩
  refine wp.mono (readLoop_holds hio (hbuf hgot) (n.toNat + 1) (s := s1) hs (Nat.zero_le _)
    (by omega) (by simpa using hend) ?_) ?_ fun _ h => h
  · intro h0 k h1 h2
    exact hall k h1 h2 h0
  · rintro out s' ⟨hold, hout, hfin⟩
    exact .inr ⟨trivial, fun i hi => hold i (.inr hi), fun i hi => hout i (Nat.zero_le i) hi, hfin⟩

/-- **A read returns a slice**, if its end does not wrap around. -/
theorem fileRead_holds (dst : Buf) (n : Word) (hio : IoFaults part u E)
    (hs : Holds part u d0 s.disk b (s.inode h) c bs t)
    (hlen : bs.length = c.length / 512 + 1 ∨ bs = [] ∧ c = [])
    (hf : (s.fileTable f).fdInode = some h) (hpos : (s.fileTable f).fdPos.toNat ≤ c.length)
    (hn : (s.fileTable f).fdPos.toNat + n.toNat < 2 ^ 32)
    (hbuf : s.mallocs 1 = true → s.mallocs 0 = false → 0 < n.toNat →
      (s.fileTable f).fdPos.toNat < c.length → E .wild)
    (hmax : s.mallocs 1 = true → 139 * 512 ≤ (s.fileTable f).fdPos.toNat + n.toNat →
      139 * 512 ≤ c.length → E (.panic .fileRead)) :
    wp (fileRead f dst n) (fun r s' => r = (-1, dst) ∧
        (s.mallocs 1 = false ∨ (s.fileTable f).fdPos.toNat = c.length ∧ 0 < n.toNat) ∨
      r.1.toNat = min n.toNat (c.length - (s.fileTable f).fdPos.toNat) ∧
      (∀ i, r.1.toNat ≤ i → r.2 i = dst i) ∧
      (∀ i < r.1.toNat, r.2 i = c.getD ((s.fileTable f).fdPos.toNat + i) 0) ∧
      (s'.fileTable f).fdPos.toNat = (s.fileTable f).fdPos.toNat + r.1.toNat) E s := by
  set p := (s.fileTable f).fdPos with hp
  have hsum : (p + n).toNat = p.toNat + n.toNat := by
    rw [BitVec.toNat_add, Nat.mod_eq_of_lt hn]
  have hsub : ((s.inode h).iSize - p).toNat = c.length - p.toNat := by
    rw [BitVec.toNat_sub, hs.size]
    have := p.isLt
    have := hs.size ▸ (s.inode h).iSize.isLt
    omega
  -- in both branches `m` bytes are read, and `m` is the smaller of the two
  have hread : ∀ m : Word, m.toNat = min n.toNat (c.length - p.toNat) →
      wp (readData f h dst m) (fun r s' => r = (-1, dst) ∧
          (s.mallocs 1 = false ∨ p.toNat = c.length ∧ 0 < n.toNat) ∨
        r.1.toNat = min n.toNat (c.length - p.toNat) ∧
        (∀ i, r.1.toNat ≤ i → r.2 i = dst i) ∧
        (∀ i < r.1.toNat, r.2 i = c.getD (p.toNat + i) 0) ∧
        (s'.fileTable f).fdPos.toNat = p.toNat + r.1.toNat) E s := by
    intro m hm
    refine wp.mono (readData_holds hio hs hlen (by rw [← hp]; omega) (fun hgot hno hpos =>
      hbuf hgot hno (by omega) (by omega)) fun hgot hge => ?_) ?_ fun _ h => h
    · rw [← hp] at hge
      exact hmax hgot (by omega) (by omega)
    rintro ⟨r, out⟩ s' (⟨hr, hno⟩ | ⟨rfl, hrest⟩)
    · exact .inl ⟨hr, .inl hno⟩
    · exact .inr ⟨hm, hrest⟩
  simp only [fileRead, wp_bind, wp_get, hf, fileReadAt, ← hp, hsum, hs.size]
  split
  · rename_i hlong
    split
    · rename_i hz
      rw [hz, show (0 : Word).toNat = 0 from rfl] at hsub
      exact .inl ⟨rfl, .inr ⟨by omega, by omega⟩⟩
    · exact hread _ (by omega)
  · exact hread _ (by omega)

/-- What a read returns that is not refused. -/
theorem fileRead_post {n : Word} (hs : Holds part u d0 s.disk b (s.inode h) c bs t)
    (hlen : bs.length = c.length / 512 + 1 ∨ bs = [] ∧ c = [])
    (hf : (s.fileTable f).fdInode = some h) (hpos : (s.fileTable f).fdPos.toNat ≤ c.length)
    (hn : (s.fileTable f).fdPos.toNat + n.toNat < 2 ^ 32) :
    post (fileRead f dst n) (fun r s' => 0 ≤ r.1.toInt →
      r.1.toNat = min n.toNat (c.length - (s.fileTable f).fdPos.toNat) ∧
      (∀ i < r.1.toNat, r.2 i = c.getD ((s.fileTable f).fdPos.toNat + i) 0) ∧
      (s'.fileTable f).fdPos.toNat = (s.fileTable f).fdPos.toNat + r.1.toNat) s := by
  refine wp.mono (fileRead_holds (E := fun _ => True) dst n
    (fun _ _ _ _ => ⟨trivial, trivial⟩) hs hlen hf
    hpos hn (fun _ _ _ _ => trivial) fun _ _ _ => trivial) ?_ fun _ h => h
  rintro r s' (⟨rfl, -⟩ | ⟨hr, -, hrest⟩) hnonneg
  · simp at hnonneg
  · exact ⟨hr, hrest⟩

end

/-! ### What was written is what is read -/

/-- The blocks of the list are the ones that the inode refers to. -/
theorem Holds.mem_blockRefs (hs : Holds part u d0 d b inode c bs t) {w : Word} :
    w ∈ blockRefs inode d ↔ w ∈ t.toList ++ bs := by
  have hlen := hs.length_le
  have hbs : ∀ k, bs.getD k 0 ≠ 0 → bs.getD k 0 ∈ bs := by
    intro k hk
    rcases Nat.lt_or_ge k bs.length with h | h
    · exact mem_of_getD h
    · exact absurd (List.getD_eq_default _ _ h) hk
  rw [X86Os.mem_blockRefs]
  constructor
  · rintro ⟨h0, ⟨k, hk, rfl⟩ | ⟨h12, k, hk, rfl⟩⟩
    · rcases Nat.lt_or_ge k 12 with h | h
      · rw [hs.direct k h] at h0 ⊢
        exact List.mem_append_right _ (hbs k h0)
      · obtain rfl : k = 12 := by omega
        rw [hs.table] at h0 ⊢
        cases t with
        | none => exact absurd rfl h0
        | some w => simp
    · rw [hs.table] at h12 h0 ⊢
      cases t with
      | none => exact absurd rfl h12
      | some w =>
        have hk' := hs.indirect w rfl (k + 12) (by omega) (by omega)
        rw [Nat.add_sub_cancel] at hk'
        rw [Option.getD_some, hk'] at h0 ⊢
        exact List.mem_append_right _ (hbs _ h0)
  · intro hw
    refine ⟨hs.pool.ne_zero hw, ?_⟩
    rcases List.mem_append.1 hw with ht | hw'
    · obtain rfl : t = some w := Option.mem_toList.1 ht
      exact Or.inl ⟨12, by omega, hs.table⟩
    · obtain ⟨k, hk, rfl⟩ := List.getElem_of_mem hw'
      rw [← List.getD_eq_getElem _ 0 hk]
      rcases Nat.lt_or_ge k 12 with h | h
      · exact Or.inl ⟨k, by omega, hs.direct k h⟩
      · obtain ⟨v, rfl⟩ := Option.isSome_iff_exists.1 (hs.table_iff.2 (by omega))
        refine Or.inr ⟨?_, k - 12, by omega, ?_⟩
        · rw [hs.table]
          exact hs.pool.ne_zero (List.mem_append_left _ (by simp))
        · rw [hs.table]
          exact hs.indirect v rfl k h (by omega)

/-- A file is where it was as long as its own sectors are left alone. -/
theorem Holds.restrict (hs : Holds part u d0 d b inode c bs t) {d' : Disk}
    (hd : ∀ w ∈ t.toList ++ bs, d' w.toNat = d w.toNat) :
    Holds part u d' d' b inode c bs t where
  pool := hs.pool
  size := hs.size
  direct := hs.direct
  table := hs.table
  indirect := by
    rintro w rfl k h1 h2
    rw [hd w (List.mem_append_left _ (by simp))]
    exact hs.indirect w rfl k h1 h2
  data := by
    intro j hj
    have hk : j / 512 < bs.length := by have := hs.room; omega
    rw [hd _ (List.mem_append_right _ (mem_of_getD hk))]
    exact hs.data j hj
  length_le := hs.length_le
  room := hs.room
  table_iff := hs.table_iff
  frame := fun _ h => absurd rfl h

/-- `Writes part f h bufs s s'`: from `s`, calls of `file_write` on entry `f` with the buffers
`bufs`, one after the other, each return their count and leave `s'`. No call makes the 32-bit sum
of size and count wrap around. -/
inductive Writes (part : Partition) (f h : ℕ) : List (List Byte) → FsState → FsState → Prop
  | nil (s : FsState) : Writes part f h [] s s
  | cons {buf : List Byte} {bufs : List (List Byte)} {s s1 s2 : FsState} {r : Word}
      (hlen : (s.inode h).iSize.toNat + buf.length < 2 ^ 32)
      (hcall : fileWrite part f (fun i => buf.getD i 0) (BitVec.ofNat 32 buf.length) s =
        .ok (r, s1))
      (hret : r.toInt = buf.length) (hrest : Writes part f h bufs s1 s2) :
      Writes part f h (buf :: bufs) s s2

theorem range_map_getD (l : List Byte) : (List.range l.length).map (fun i => l.getD i 0) = l := by
  refine List.ext_getElem (by simp) fun i h1 h2 => ?_
  rw [List.getElem_map, List.getElem_range, List.getD_eq_getElem _ _ h2]

/-- A run of writes appends all the buffers. -/
theorem Writes.settled {f h : ℕ} {bufs : List (List Byte)} {s s' : FsState}
    (hw : Writes part f h bufs s s') :
    ∀ {c : List Byte} {bs : List Word} {t : Option Word}, Settled part u d0 h s c bs t →
      (s.fileTable f).fdInode = some h →
      ∃ bs' t', Settled part u d0 h s' (c ++ bufs.flatten) bs' t' := by
  induction hw with
  | nil s => intro c bs t hs _; exact ⟨bs, t, by simpa using hs⟩
  | @cons buf bufs s s1 s2 r hlen hcall hret _ ih =>
    intro c bs t hs hf
    have hn : (BitVec.ofNat 32 buf.length).toNat = buf.length := by
      rw [BitVec.toNat_ofNat, Nat.mod_eq_of_lt (by omega)]
    rw [hs.1.size] at hlen
    have hpost := (fileWrite_post hs hf (by rwa [hn])).ok hcall
    rw [hn, range_map_getD] at hpost
    obtain ⟨bs1, t1, hs1, hf1⟩ := hpost hret
    obtain ⟨bs2, t2, hs2⟩ := ih hs1 hf1
    exact ⟨bs2, t2, by rwa [List.flatten_cons, ← List.append_assoc]⟩

/-- An inode without blocks is an empty file. -/
theorem settled_empty {s : FsState} {h : ℕ}
    (hmount : s.blockBitmap.btmpBytesLen = 512 * part.sb.blockBitmapSects)
    (hsize : (s.inode h).iSize = 0) (hsect : ∀ k < 13, (s.inode h).iSectors k = 0) :
    Settled part s.blockBitmap s.disk h s [] [] none := by
  refine ⟨⟨⟨hmount, List.nodup_nil, by simp, fun _ h => h⟩, by simp [hsize], fun k hk => ?_, ?_,
    by simp, by simp, by simp, by simp, by simp, fun _ h => absurd rfl h⟩, Or.inr ⟨rfl, rfl⟩⟩
  · rw [hsect k (by omega)]; simp
  · rw [hsect 12 (by omega)]; rfl

/-- **File contents.** A file that starts empty is written by calls of `file_write` that each return
their count. Then its size is the length of all that was written. A later read at a position within
the file, by any entry of `file_table` that refers to it and with the file's own sectors as they
were, returns what is left up to the count, delivers the bytes at that position and moves on by as
many. The writes changed no sector but the file's own and those of the bitmaps and the inode table,
and none of the file's own blocks was marked as used before. -/
theorem file_contents (part : Partition) (s0 s1 : FsState) (f h : ℕ) (bufs : List (List Byte))
    (hmount : s0.blockBitmap.btmpBytesLen = 512 * part.sb.blockBitmapSects)
    (hf : (s0.fileTable f).fdInode = some h) (hsize : (s0.inode h).iSize = 0)
    (hsect : ∀ k < 13, (s0.inode h).iSectors k = 0) (hw : Writes part f h bufs s0 s1) :
    (s1.inode h).iSize.toNat = bufs.flatten.length ∧
    (∀ (s2 s3 : FsState) (g : ℕ) (dst out : Buf) (count n : Word),
      s2.inode h = s1.inode h →
      (∀ w ∈ blockRefs (s1.inode h) s1.disk, s2.disk w.toNat = s1.disk w.toNat) →
      (s2.fileTable g).fdInode = some h →
      (s2.fileTable g).fdPos.toNat ≤ (s1.inode h).iSize.toNat →
      (s2.fileTable g).fdPos.toNat + count.toNat < 2 ^ 32 →
      fileRead g dst count s2 = .ok ((n, out), s3) → 0 ≤ n.toInt →
      n.toNat = min count.toNat ((s1.inode h).iSize.toNat - (s2.fileTable g).fdPos.toNat) ∧
      (∀ i < n.toNat, out i = bufs.flatten.getD ((s2.fileTable g).fdPos.toNat + i) 0) ∧
      (s3.fileTable g).fdPos.toNat = (s2.fileTable g).fdPos.toNat + n.toNat) ∧
    (∀ a, s1.disk a ≠ s0.disk a → part.sb.blockBitmapLba ≤ a ∧ a < part.sb.dataStartLba ∨
      ∃ w ∈ blockRefs (s1.inode h) s1.disk, w.toNat = a) ∧
    ∀ w ∈ blockRefs (s1.inode h) s1.disk, ∃ i < blockCnt part, w = blockAddr part i ∧
      s0.blockBitmap.bit i = false := by
  obtain ⟨bs, t, hs, hlen⟩ := hw.settled (settled_empty hmount hsize hsect) hf
  rw [List.nil_append] at hs hlen
  have hrefs : ∀ w, w ∈ blockRefs (s1.inode h) s1.disk ↔ w ∈ t.toList ++ bs :=
    fun w => hs.mem_blockRefs
  simp only [hrefs]
  refine ⟨hs.size, ?_, hs.frame, fun w hw => ?_⟩
  · intro s2 s3 g dst out count n hinode hown hg hpos hcount hread hn
    rw [hs.size] at hpos ⊢
    have hs2 := hs.restrict hown
    rw [← hinode] at hs2
    exact (fileRead_post hs2 hlen hg hpos hcount).ok hread hn
  · obtain ⟨i, hi, he, hu, -⟩ := hs.pool.mem w hw
    exact ⟨i, hi, he, hu⟩

/-- A partition with an open empty file: inode 1, at address 0, in entry 3 of `file_table`. -/
def emptyFileState : FsState where
  disk := fun _ _ => 0
  blockBitmap := bitmapSet (bitmapInit 512) 0 true
  inodeBitmap := bitmapSet (bitmapInit 512) 0 true
  inode := fun _ => inodeInit 1
  inodeTop := 1
  openInodes := [0]
  rootInode := 0
  fileTable := fun _ => ⟨0, 2, some 0⟩
  fdTable := fun _ _ => -1
  cur := 0
  mallocs := fun _ => true
  junk := fun _ => 0

/-- The state that two bytes, written to that file, leave. -/
def twoBytesState : FsState :=
  (fileWrite smallPart 3 (fun i => [7, 8].getD i 0) 2).final emptyFileState

/-- Two bytes are written, and five asked for from the second one on. One is left. -/
theorem file_contents_two_bytes :
    Writes smallPart 3 0 [[7, 8]] emptyFileState twoBytesState ∧
      (twoBytesState.inode 0).iSize.toNat = 2 ∧
      ∃ out s, fileRead 3 (fun _ => 0) 5 (twoBytesState.updFile 3 fun e => { e with fdPos := 1 }) =
        .ok ((1, out), s) ∧ out 0 = 8 := by
  have hw : Writes smallPart 3 0 [[7, 8]] emptyFileState twoBytesState :=
    .cons (by decide) (eq_ok_of_value? (a := 2) (by decide)) (by decide) (.nil _)
  obtain ⟨hsize, hread, -⟩ := file_contents smallPart emptyFileState twoBytesState 3 0 [[7, 8]]
    (by decide) rfl rfl (fun _ _ => rfl) hw
  have hval : ((fileRead 3 (fun _ => 0) 5).value?
      (twoBytesState.updFile 3 fun e => { e with fdPos := 1 })).map Prod.fst = some 1 := by decide
  obtain ⟨⟨n, out⟩, hout, hn⟩ := Option.map_eq_some_iff.1 hval
  obtain rfl : n = 1 := hn
  have hrun := eq_ok_of_value? hout
  have hbyte := (hread (twoBytesState.updFile 3 fun e => { e with fdPos := 1 }) _ 3 _ out 5 1 rfl
    (fun _ _ => rfl) (by decide) (by decide) (by decide) hrun (by decide)).2.1 0 (by decide)
  exact ⟨hw, hsize, out, _, hrun, hbyte⟩

end X86Os
