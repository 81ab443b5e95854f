import Mathlib.Data.Finset.Card
import X86Os.Fs.State
import X86Os.Lib.Exclusive

/-!
# Who owns which block

The file system seen from its inodes: the inode of every number, cached or not, the sectors of the
data area, and the bits of the block bitmap. Nothing here is about calls, caches or the order in
which sectors are written.

An inode has 141 places for block addresses. Places 0 to 139 are what the code calls `all_blocks`:
twelve direct ones, then the entries of the indirect table; place 140 is the table itself. A place
holds nothing if it is zero. `Own` is the property of interest, `Exclusive` for this relation:
no two places hold the same block, and the block bitmap has a bit for every block held.

A call that works on one inode changes that inode's places, the sectors in them, and bits of the
bitmap. `Edits` says what such a change has to look like, place by place; `Edits.own` derives
ownership afterwards, and `Edits.sameAt` that no other inode notices.
-/

namespace X86Os

/-- Place `k` of an inode, given the sectors of the disk. -/
def slotAddr (inode : Inode) (data : ℕ → Buf) (k : ℕ) : Word :=
  if k < 12 then inode.iSectors k
  else if k = 140 then inode.iSectors 12
  else if inode.iSectors 12 = 0 then 0
  else (data (inode.iSectors 12).toNat).toWords (k - 12)

/-- The inode of every number, the sectors of the data area, and the block bitmap. -/
structure View where
  node : ℕ → Inode
  data : ℕ → Buf
  used : ℕ → Bool

namespace View

/-- Place `k` of inode `n`. -/
def slot (v : View) (n k : ℕ) : Word := slotAddr (v.node n) v.data k

/-- Place `p` of an inode in `L` holds the block at `w`. -/
def Refers (v : View) (L : Finset ℕ) (p : ℕ × ℕ) (w : Word) : Prop :=
  p.1 ∈ L ∧ p.2 ≤ 140 ∧ v.slot p.1 p.2 = w ∧ w ≠ 0

/-- The block at `w` has its bit set. -/
def Used (v : View) (part : Partition) (w : Word) : Prop :=
  ∃ i < blockCnt part, w = blockAddr part i ∧ v.used i = true

/-- The block at `w` has its bit clear. -/
def Fresh (v : View) (part : Partition) (w : Word) : Prop :=
  ∃ i < blockCnt part, w = blockAddr part i ∧ v.used i = false

theorem slot_of_lt {v : View} {n k : ℕ} (hk : k < 12) : v.slot n k = (v.node n).iSectors k :=
  if_pos hk

theorem slot_table (v : View) (n : ℕ) : v.slot n 140 = (v.node n).iSectors 12 := by
  rw [slot, slotAddr, if_neg (by omega), if_pos rfl]

theorem slot_of_ge {v : View} {n k : ℕ} (h1 : 12 ≤ k) (h2 : k < 140) : v.slot n k =
    if (v.node n).iSectors 12 = 0 then 0
    else (v.data ((v.node n).iSectors 12).toNat).toWords (k - 12) := by
  rw [slot, slotAddr, if_neg (by omega), if_neg (by omega)]

/-- The indirect places of an inode are determined by its indirect table. -/
theorem slot_congr_ge {v v' : View} {n : ℕ}
    (hn : (v'.node n).iSectors 12 = (v.node n).iSectors 12)
    (hd : v.slot n 140 ≠ 0 → v'.data (v.slot n 140).toNat = v.data (v.slot n 140).toNat) {k : ℕ}
    (hk : 12 ≤ k) : v'.slot n k = v.slot n k := by
  rw [slot_table] at hd
  rw [slot, slot, slotAddr, slotAddr, if_neg (Nat.not_lt.2 hk), if_neg (Nat.not_lt.2 hk), hn]
  by_cases h0 : (v.node n).iSectors 12 = 0
  · rw [if_pos h0, if_pos h0]
  · rw [hd h0]

/-- The places of an inode are determined by the inode and its indirect table. -/
theorem slot_congr {v v' : View} {n : ℕ} (hn : (v'.node n).iSectors = (v.node n).iSectors)
    (hd : v.slot n 140 ≠ 0 → v'.data (v.slot n 140).toNat = v.data (v.slot n 140).toNat) (k : ℕ) :
    v'.slot n k = v.slot n k := by
  by_cases hk : k < 12
  · rw [slot_of_lt hk, slot_of_lt hk, hn]
  · exact slot_congr_ge (by rw [hn]) hd (Nat.not_lt.1 hk)

/-- Inode `n` is the same in both views, with its places and the sectors in them. -/
structure SameAt (v v' : View) (n : ℕ) : Prop where
  node : v'.node n = v.node n
  data : ∀ k ≤ 140, v.slot n k ≠ 0 → v'.data (v.slot n k).toNat = v.data (v.slot n k).toNat

theorem SameAt.slot {v v' : View} {n : ℕ} (h : SameAt v v' n) (k : ℕ) : v'.slot n k = v.slot n k :=
  slot_congr (by rw [h.node]) (h.data 140 (Nat.le_refl _)) k

end View

open View

/-- **No block has two owners.** Over the inodes in `L`, the blocks held are pairwise distinct and
have their bits set. -/
def Own (part : Partition) (L : Finset ℕ) (v : View) : Prop := Exclusive (v.Refers L) (v.Used part)

section

variable {part : Partition} {L : Finset ℕ} {v v' : View} {n : ℕ}

theorem View.Fresh.not_used {w : Word} (h : v.Fresh part w) : ¬ v.Used part w := by
  rintro ⟨j, hj, he, hu⟩
  obtain ⟨i, hi, rfl, hc⟩ := h
  rw [← blockAddr_inj hi hj he, hc] at hu
  cases hu

theorem View.Used.le_toNat {w : Word} (h : v.Used part w) : part.sb.dataStartLba ≤ w.toNat := by
  obtain ⟨i, hi, rfl, -⟩ := h
  rw [toNat_blockAddr hi]
  omega

theorem View.Used.ne_zero {w : Word} (h : v.Used part w) : w ≠ 0 := by
  obtain ⟨i, hi, rfl, -⟩ := h
  exact blockAddr_ne_zero hi

theorem Own.used (h : Own part L v) (hn : n ∈ L) {k : ℕ} (hk : k ≤ 140) (h0 : v.slot n k ≠ 0) :
    v.Used part (v.slot n k) :=
  Exclusive.used h (n, k) _ ⟨hn, hk, rfl, h0⟩

theorem Own.inj (h : Own part L v) {m k j : ℕ} (hn : n ∈ L) (hm : m ∈ L) (hk : k ≤ 140)
    (hj : j ≤ 140) (h0 : v.slot n k ≠ 0) (he : v.slot n k = v.slot m j) : n = m ∧ k = j :=
  Prod.mk.inj (Exclusive.inj h (n, k) (m, j) _ ⟨hn, hk, rfl, h0⟩ ⟨hm, hj, he.symm, h0⟩)

/-- Inodes with a block in their first place at most. -/
theorem Own.of_first {a : ℕ → Word}
    (hslot : ∀ n ∈ L, ∀ k ≤ 140, v.slot n k = if k = 0 then a n else 0)
    (hinj : ∀ n ∈ L, ∀ m ∈ L, a n ≠ 0 → a n = a m → n = m)
    (hused : ∀ n ∈ L, a n ≠ 0 → v.Used part (a n)) : Own part L v := by
  have hplace : ∀ {n k w}, v.Refers L (n, k) w → n ∈ L ∧ k = 0 ∧ a n = w ∧ w ≠ 0 := by
    rintro n k w ⟨hn, hk, hw, h0⟩
    rw [hslot n hn k hk] at hw
    by_cases hk0 : k = 0
    · exact ⟨hn, hk0, (if_pos hk0).symm.trans hw, h0⟩
    · exact absurd ((if_neg hk0).symm.trans hw).symm h0
  refine ⟨?_, ?_⟩
  · rintro ⟨n, k⟩ ⟨m, j⟩ w hp hq
    obtain ⟨hn, rfl, rfl, h0⟩ := hplace hp
    obtain ⟨hm, rfl, hw, -⟩ := hplace hq
    rw [hinj n hn m hm h0 hw.symm]
  · rintro ⟨n, k⟩ w hp
    obtain ⟨hn, -, rfl, h0⟩ := hplace hp
    exact hused n hn h0

/-! ### Changes of one inode -/

/-- What a change of inode `n` looks like: its places are old or freshly allocated, the blocks given
back were its own, and the sectors that changed are in its places. -/
structure Edits (part : Partition) (v v' : View) (n : ℕ) : Prop where
  node : ∀ m ≠ n, v'.node m = v.node m
  slot : ∀ k ≤ 140, v'.slot n k ≠ 0 → v'.slot n k = v.slot n k ∨ v.Fresh part (v'.slot n k)
  fresh : ∀ k ≤ 140, ∀ j ≤ 140, v.Fresh part (v'.slot n k) → v'.slot n k = v'.slot n j → k = j
  used : ∀ k ≤ 140, v'.slot n k ≠ 0 → v'.Used part (v'.slot n k)
  keep : ∀ w, v.Used part w → v'.Used part w ∨ ∃ k ≤ 140, v.slot n k = w
  data : ∀ a, v'.data a = v.data a ∨ ∃ k ≤ 140, v'.slot n k ≠ 0 ∧ (v'.slot n k).toNat = a

theorem Edits.of_grow (h : Own part L v) (hn : n ∈ L) (hnode : ∀ m ≠ n, v'.node m = v.node m)
    (hslot : ∀ k ≤ 140, v'.slot n k ≠ 0 → v'.slot n k = v.slot n k ∨
      v.Fresh part (v'.slot n k) ∧ v'.Used part (v'.slot n k) ∧
        ∀ j ≤ 140, v'.slot n k = v'.slot n j → k = j)
    (hmono : ∀ w, v.Used part w → v'.Used part w)
    (hdata : ∀ a, v'.data a = v.data a ∨ ∃ k ≤ 140, v'.slot n k ≠ 0 ∧ (v'.slot n k).toNat = a) :
    Edits part v v' n where
  node := hnode
  slot k hk h0 := (hslot k hk h0).imp_right fun hf => hf.1
  fresh k hk j hj hf he := by
    have h0 : v'.slot n k ≠ 0 := by
      obtain ⟨i, hi, hw, -⟩ := hf
      exact hw ▸ blockAddr_ne_zero hi
    rcases hslot k hk h0 with hold | ⟨-, -, hinj⟩
    · rw [hold] at hf h0
      exact absurd (h.used hn hk h0) hf.not_used
    · exact hinj j hj he
  used k hk h0 := by
    rcases hslot k hk h0 with hold | ⟨-, hu, -⟩
    · rw [hold] at h0 ⊢
      exact hmono _ (h.used hn hk h0)
    · exact hu
  keep w hw := .inl (hmono w hw)
  data := hdata

/-- A block in use that is not the inode's is not among its places afterwards, and its sector stays
as it is. -/
theorem Edits.data_of_used (he : Edits part v v' n) {w : Word} (hw : v.Used part w)
    (hne : ∀ k ≤ 140, v.slot n k ≠ w) : v'.data w.toNat = v.data w.toNat := by
  refine (he.data w.toNat).resolve_right ?_
  rintro ⟨k, hk, h0, hkw⟩
  obtain rfl := BitVec.toNat_inj.1 hkw
  rcases he.slot k hk h0 with hold | hfresh
  · exact hne k hk hold.symm
  · exact hfresh.not_used hw

/-- **Other inodes do not notice.** -/
theorem Edits.sameAt (h : Own part L v) (he : Edits part v v' n) (hn : n ∈ L) {m : ℕ} (hm : m ∈ L)
    (hmn : m ≠ n) : v.SameAt v' m where
  node := he.node m hmn
  data _ hk h0 := he.data_of_used (h.used hm hk h0) fun _ hj hjk =>
    hmn (h.inj hm hn hk hj h0 hjk.symm).1

/-- **A change of one inode keeps the blocks apart.** -/
theorem Edits.own (h : Own part L v) (he : Edits part v v' n) (hn : n ∈ L) : Own part L v' := by
  have hother : ∀ m ∈ L, m ≠ n → ∀ k, v'.slot m k = v.slot m k :=
    fun m hm hmn => (he.sameAt h hn hm hmn).slot
  refine Exclusive.step h ?_ ?_ ?_
  · rintro ⟨m, k⟩ w ⟨hm, hk, rfl, h0⟩
    by_cases hmn : m = n
    · subst hmn
      exact (he.slot k hk h0).imp (fun hold => ⟨hn, hk, hold.symm, h0⟩) View.Fresh.not_used
    · exact Or.inl ⟨hm, hk, (hother m hm hmn k).symm, h0⟩
  · rintro ⟨m, k⟩ ⟨m', j⟩ w ⟨hm, hk, rfl, h0⟩ ⟨hm', hj, hjk, -⟩ hw
    -- a block that was not in use is in places of the changed inode only
    have hmine : ∀ m ∈ L, ∀ k ≤ 140, ∀ w, v'.slot m k = w → w ≠ 0 → ¬ v.Used part w → m = n := by
      rintro m hm k hk w rfl h0 hw
      by_contra hmn
      rw [hother m hm hmn] at hw h0
      exact hw (h.used hm hk h0)
    obtain rfl := hmine m hm k hk _ rfl h0 hw
    obtain rfl := hmine m' hm' j hj _ hjk h0 hw
    have hfresh := (he.slot k hk h0).resolve_left fun hold => hw (by
      rw [hold] at h0 ⊢
      exact h.used hm hk h0)
    exact Prod.ext rfl (he.fresh k hk j hj hfresh hjk.symm)
  · rintro ⟨m, k⟩ w ⟨hm, hk, rfl, h0⟩
    by_cases hmn : m = n
    · subst hmn
      exact he.used k hk h0
    · rw [hother m hm hmn] at h0 ⊢
      refine (he.keep _ (h.used hm hk h0)).resolve_right ?_
      rintro ⟨j, hj, hjk⟩
      exact hmn (h.inj hm hn hk hj h0 hjk.symm).1

end

end X86Os
