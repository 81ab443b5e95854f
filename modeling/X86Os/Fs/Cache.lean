import X86Os.Fs.Frame
import X86Os.Fs.Tree

/-!
# The inode cache

`inode_open` looks a number up among the open inodes first and reads the disk only if it is not
there, so what an inode is depends on the cache. `FsState.view` is what all the numbers yield
together with the data area and the block bitmap; it is the view that ownership is stated on.

The cache is in order (`CacheOk`) if there is at most one object of each number and only numbers of
inodes that exist. An object that says the same as its record on disk is `Clean`. Opening an inode
never changes the view, and closing a clean one does not either: dropping it from the cache leaves
the record to speak for it.
-/

namespace X86Os

open X86Os.Comp FsState

/-- An inode as it comes back from disk. -/
def Inode.stored (i : Inode) : Inode :=
  { pureInode i with iSectors := fun j => if j < 13 then i.iSectors j else 0 }

/-- The inode that `inode_open` gives for a number. -/
def yields (part : Partition) (s : FsState) (n : ℕ) : Inode :=
  match s.openInodes.find? fun h => (s.inode h).iNo == BitVec.ofNat 32 n with
  | some h => s.inode h
  | none => Inode.ofRecord (inodeRecord part s.disk n)

/-- The file system seen from its inodes. -/
def FsState.view (s : FsState) (part : Partition) : View where
  node n := if n < 4096 then (yields part s n).stored else inodeInit 0
  data a := if part.sb.dataStartLba ≤ a then s.disk.sector a else fun _ => 0
  used := s.blockBitmap.bit

/-- At most one object of each number, and only numbers in `L`. -/
structure CacheOk (L : Finset ℕ) (s : FsState) : Prop where
  nodup : s.openInodes.Nodup
  lt : ∀ h ∈ s.openInodes, h < s.inodeTop
  no : ∀ h ∈ s.openInodes, ∃ n ∈ L, (s.inode h).iNo = BitVec.ofNat 32 n
  inj : ∀ h ∈ s.openInodes, ∀ k ∈ s.openInodes, (s.inode h).iNo = (s.inode k).iNo → h = k

/-- The record on disk says the same as the object at `h`. -/
def Clean (part : Partition) (s : FsState) (h : ℕ) : Prop :=
  (Inode.ofRecord (inodeRecord part s.disk (s.inode h).iNo.toNat)).stored = (s.inode h).stored

/-- No object has the number. -/
def Uncached (s : FsState) (n : ℕ) : Prop := ∀ h ∈ s.openInodes, (s.inode h).iNo ≠ BitVec.ofNat 32 n

section

variable {part : Partition} {L L' : Finset ℕ} {s s' : FsState} {n m h k : ℕ}

/-! ### Records -/

theorem stored_iSectors {i : Inode} (hk : k < 13) : i.stored.iSectors k = i.iSectors k := if_pos hk

theorem stored_congr {i j : Inode} (h1 : i.iNo = j.iNo) (h2 : i.iSize = j.iSize)
    (h3 : ∀ k < 13, i.iSectors k = j.iSectors k) : i.stored = j.stored := by
  simp only [Inode.stored, pureInode, h1, h2, Inode.mk.injEq, true_and]
  funext k
  split
  · exact h3 k (by assumption)
  · rfl

theorem iNo_of_stored {i j : Inode} (h : i.stored = j.stored) : i.iNo = j.iNo :=
  show i.stored.iNo = j.stored.iNo by rw [h]

/-- A record that was written back reads as the inode. -/
theorem stored_ofRecord {i : Inode} {r : Buf}
    (h : ∀ k < inodeSize, r k = (pureInode i).toRecord k) :
    (Inode.ofRecord r).stored = i.stored := by
  rw [Inode.ofRecord_congr h]
  refine stored_congr ?_ ?_ fun k hk => ?_
  · simp only [Inode.ofRecord, Inode.toRecord, Buf.toWords_ofWords]
    rfl
  · simp only [Inode.ofRecord, Inode.toRecord, Buf.toWords_ofWords]
    rfl
  · simp only [Inode.ofRecord, Inode.toRecord, Buf.toWords_ofWords, if_pos hk]
    rw [Nat.add_comm, Inode.words, if_pos hk]
    rfl

theorem toNat_ofNat (hn : n < 4096) : (BitVec.ofNat 32 n).toNat = n := by
  rw [BitVec.toNat_ofNat, Nat.mod_eq_of_lt (by omega)]

/-! ### What a number yields -/

theorem yields_cached (hc : CacheOk L s) (hh : h ∈ s.openInodes)
    (hno : (s.inode h).iNo = BitVec.ofNat 32 n) : yields part s n = s.inode h := by
  rw [yields]
  cases hf : s.openInodes.find? fun h => (s.inode h).iNo == BitVec.ofNat 32 n with
  | none =>
    have := List.find?_eq_none.1 hf h hh
    rw [hno] at this
    simp at this
  | some k =>
    have hk := List.find?_some hf
    rw [beq_iff_eq] at hk
    rw [hc.inj k (List.mem_of_find?_eq_some hf) h hh (hk.trans hno.symm)]

theorem yields_uncached (hu : Uncached s n) :
    yields part s n = Inode.ofRecord (inodeRecord part s.disk n) := by
  rw [yields, List.find?_eq_none.2]
  exact fun h hh => by simpa using hu h hh

theorem node_cached (hc : CacheOk L s) (hh : h ∈ s.openInodes)
    (hno : (s.inode h).iNo = BitVec.ofNat 32 n) (hn : n < 4096) :
    (s.view part).node n = (s.inode h).stored := by
  rw [← yields_cached hc hh hno]
  exact if_pos hn

theorem node_uncached (hu : Uncached s n) (hn : n < 4096) :
    (s.view part).node n = (Inode.ofRecord (inodeRecord part s.disk n)).stored := by
  rw [← yields_uncached hu]
  exact if_pos hn

/-- A number yields the same if its object is still there, or its record when there is none. -/
theorem node_eq (hc : CacheOk L s) (hc' : CacheOk L' s') (hn : n < 4096)
    (hcached : ∀ h ∈ s.openInodes, (s.inode h).iNo = BitVec.ofNat 32 n →
      h ∈ s'.openInodes ∧ (s'.inode h).stored = (s.inode h).stored)
    (hun : Uncached s n → Uncached s' n ∧
      Inode.ofRecord (inodeRecord part s'.disk n) = Inode.ofRecord (inodeRecord part s.disk n)) :
    (s'.view part).node n = (s.view part).node n := by
  by_cases hu : Uncached s n
  · obtain ⟨hu', hr⟩ := hun hu
    rw [node_uncached hu hn, node_uncached hu' hn, hr]
  · simp only [Uncached, not_forall, not_not] at hu
    obtain ⟨h, hh, hno⟩ := hu
    obtain ⟨hh', hst⟩ := hcached h hh hno
    rw [node_cached hc hh hno hn, node_cached hc' hh' ((iNo_of_stored hst).trans hno) hn, hst]

theorem view_used (s : FsState) : (s.view part).used = s.blockBitmap.bit := rfl

theorem view_data (ha : part.sb.dataStartLba ≤ k) : (s.view part).data k = s.disk.sector k :=
  if_pos ha

theorem view_data_eq {a : ℕ} (hd : part.sb.dataStartLba ≤ a → s'.disk a = s.disk a) :
    (s'.view part).data a = (s.view part).data a := by
  by_cases ha : part.sb.dataStartLba ≤ a
  · rw [view_data ha, view_data ha, Disk.sector_congr (hd ha)]
  · exact (if_neg ha).trans (if_neg ha).symm

theorem view_ext {v v' : View} (h1 : ∀ n, v.node n = v'.node n) (h2 : ∀ a, v.data a = v'.data a)
    (h3 : ∀ i, v.used i = v'.used i) : v = v' := by
  cases v
  cases v'
  simp only [View.mk.injEq]
  exact ⟨funext h1, funext h2, funext h3⟩

theorem view_node_ge (hn : 4096 ≤ n) : (s.view part).node n = inodeInit 0 := if_neg (by omega)

variable (part) in
/-- Nothing shows that is in no object of the cache, nor on disk, nor in the block bitmap. -/
theorem same_objects (hc : CacheOk L s) (ho : s'.openInodes = s.openInodes)
    (hi : ∀ k ∈ s.openInodes, (s'.inode k).stored = (s.inode k).stored)
    (htop : s.inodeTop ≤ s'.inodeTop) (hd : s'.disk = s.disk)
    (hb : s'.blockBitmap = s.blockBitmap) :
    CacheOk L s' ∧ s'.view part = s.view part ∧
      ∀ k ∈ s.openInodes, Clean part s k → Clean part s' k := by
  have hno : ∀ k ∈ s.openInodes, (s'.inode k).iNo = (s.inode k).iNo := fun k hk =>
    iNo_of_stored (hi k hk)
  have hc' : CacheOk L s' := by
    refine ⟨ho ▸ hc.nodup, ?_, ?_, ?_⟩ <;> rw [ho]
    · exact fun k hk => Nat.lt_of_lt_of_le (hc.lt k hk) htop
    · intro k hk
      rw [hno k hk]
      exact hc.no k hk
    · intro k hk j hj he
      rw [hno k hk, hno j hj] at he
      exact hc.inj k hk j hj he
  refine ⟨hc', view_ext (fun m => ?_) (fun a => view_data_eq fun _ => by rw [hd]) fun i => by
    rw [view_used, view_used, hb], fun k hk hcl => ?_⟩
  · by_cases hm : m < 4096
    · refine node_eq hc hc' hm (fun k hk _ => ⟨ho ▸ hk, hi k hk⟩)
        fun hu => ⟨fun k hk => ?_, by rw [hd]⟩
      rw [ho] at hk
      rw [hno k hk]
      exact hu k hk
    · rw [view_node_ge (by omega), view_node_ge (by omega)]
  · rw [Clean, hno k hk, hi k hk, hd]
    exact hcl

/-! ### Opening -/

/-- The disk, the bitmaps, the root directory and the file tables. -/
def tables (s : FsState) : Disk × Bitmap × Bitmap × ℕ × (ℕ → File) × (ℕ → ℕ → Int) × ℕ :=
  (s.disk, s.blockBitmap, s.inodeBitmap, s.rootInode, s.fileTable, s.fdTable, s.cur)

/-- What `inode_open` of `n` does: there is an object at `h` afterwards, and no number yields
anything else than before. -/
structure Opened (part : Partition) (L : Finset ℕ) (s s' : FsState) (n h : ℕ) : Prop where
  cache : CacheOk L s'
  view : s'.view part = s.view part
  same : tables s' = tables s
  no : (s'.inode h).iNo = BitVec.ofNat 32 n
  mem_iff : ∀ k, k ∈ s'.openInodes ↔ k ∈ s.openInodes ∨ k = h
  inode : ∀ k ∈ s.openInodes, k ≠ h → s'.inode k = s.inode k
  cnt : h ∈ s.openInodes ∧ (s'.inode h).iOpenCnts = (s.inode h).iOpenCnts + 1 ∧
      (s'.inode h).stored = (s.inode h).stored ∨
    s.inodeTop = h ∧ Uncached s n ∧ (s'.inode h).iOpenCnts = 1 ∧ Clean part s' h
  deny : (s'.inode h).writeDeny = (yields part s n).writeDeny
  mallocs : ∃ j, ∀ k, s'.mallocs k = s.mallocs (k + j)

theorem Opened.mem (ho : Opened part L s s' n h) : h ∈ s'.openInodes :=
  (ho.mem_iff h).2 (Or.inr rfl)

section

variable (hs : tables s' = tables s)

include hs

theorem disk_of_tables : s'.disk = s.disk := congrArg (·.1) hs

theorem blockBitmap_of_tables : s'.blockBitmap = s.blockBitmap :=
  congrArg (·.2.1) hs

theorem inodeBitmap_of_tables : s'.inodeBitmap = s.inodeBitmap :=
  congrArg (·.2.2.1) hs

theorem rootInode_of_tables : s'.rootInode = s.rootInode :=
  congrArg (·.2.2.2.1) hs

theorem fileTable_of_tables : s'.fileTable = s.fileTable :=
  congrArg (·.2.2.2.2.1) hs

theorem fdTable_of_tables : s'.fdTable = s.fdTable :=
  congrArg (·.2.2.2.2.2.1) hs

theorem cur_of_tables : s'.cur = s.cur := congrArg (·.2.2.2.2.2.2) hs

end

/-- An object that did not change is as clean as it was. -/
theorem Clean.of_same (hcl : Clean part s k) (hd : s'.disk = s.disk)
    (hi : (s'.inode k).stored = (s.inode k).stored) : Clean part s' k := by
  rw [Clean, hd, iNo_of_stored hi, hi]
  exact hcl

theorem Opened.clean (ho : Opened part L s s' n h) (hcl : ∀ k ∈ s.openInodes, Clean part s k) :
    ∀ k ∈ s'.openInodes, Clean part s' k := by
  have hd := disk_of_tables ho.same
  intro k hk
  by_cases hkh : k = h
  · subst hkh
    rcases ho.cnt with ⟨hm, -, hst⟩ | ⟨-, -, -, hclean⟩
    · exact (hcl k hm).of_same hd hst
    · exact hclean
  · have hm := ((ho.mem_iff k).1 hk).resolve_right hkh
    exact (hcl k hm).of_same hd (by rw [ho.inode k hm hkh])

/-- Changing the count of an open inode shows nowhere. -/
theorem opened_updInode (hc : CacheOk L s) (hh : h ∈ s.openInodes)
    (hno : (s.inode h).iNo = BitVec.ofNat 32 n) : Opened part L s
      (s.updInode h fun i => { i with iOpenCnts := i.iOpenCnts + 1 }) n h := by
  have hi : ∀ k, ((s.updInode h fun i => { i with iOpenCnts := i.iOpenCnts + 1 }).inode k).stored =
      (s.inode k).stored := by
    intro k
    simp only [updInode]
    split <;> rfl
  have hc' : CacheOk L (s.updInode h fun i => { i with iOpenCnts := i.iOpenCnts + 1 }) := by
    refine ⟨hc.nodup, hc.lt, fun k hk => ?_, fun k hk j hj he => hc.inj k hk j hj ?_⟩
    · rw [iNo_of_stored (hi k)]
      exact hc.no k hk
    · rwa [iNo_of_stored (hi k), iNo_of_stored (hi j)] at he
  refine ⟨hc', view_ext (fun m => ?_) (fun _ => rfl) fun _ => rfl, rfl,
    (iNo_of_stored (hi h)).trans hno, fun k => ⟨Or.inl, fun hk => ?_⟩,
    fun k _ hk => if_neg hk, Or.inl ⟨hh, by simp [updInode], hi h⟩, ?_, 0, fun _ => rfl⟩
  · by_cases hm : m < 4096
    · refine node_eq hc hc' hm (fun k hk _ => ⟨hk, hi k⟩) fun hu => ⟨fun k hk => ?_, rfl⟩
      rw [iNo_of_stored (hi k)]
      exact hu k hk
    · rw [view_node_ge (by omega), view_node_ge (by omega)]
  · rcases hk with hk | rfl
    · exact hk
    · exact hh
  · rw [yields_cached hc hh hno]
    simp only [updInode, if_true]

/-- A new object that says what the record of its number says does not show. -/
theorem push_object (hc : CacheOk L s) (hu : Uncached s n) (hlt : n < 4096)
    (hnew : h ∉ s.openInodes) (hopen : s'.openInodes = h :: s.openInodes)
    (hh : h < s'.inodeTop) (htop : s.inodeTop ≤ s'.inodeTop)
    (hold : ∀ k ∈ s.openInodes, s'.inode k = s.inode k)
    (hno : (s'.inode h).iNo = BitVec.ofNat 32 n)
    (hst : (s'.inode h).stored = (Inode.ofRecord (inodeRecord part s.disk n)).stored)
    (hd : s'.disk = s.disk) (hb : s'.blockBitmap = s.blockBitmap) :
    CacheOk (insert n L) s' ∧ s'.view part = s.view part ∧ Clean part s' h := by
  have hc' : CacheOk (insert n L) s' := by
    refine ⟨?_, ?_, ?_, ?_⟩ <;> rw [hopen]
    · exact List.nodup_cons.2 ⟨hnew, hc.nodup⟩
    · intro k hk
      rcases List.mem_cons.1 hk with rfl | hk
      · exact hh
      · exact Nat.lt_of_lt_of_le (hc.lt k hk) htop
    · intro k hk
      rcases List.mem_cons.1 hk with rfl | hk
      · exact ⟨n, Finset.mem_insert_self _ _, hno⟩
      · obtain ⟨m, hm, hmk⟩ := hc.no k hk
        exact ⟨m, Finset.mem_insert_of_mem hm, by rw [hold k hk, hmk]⟩
    · intro k hk j hj he
      rcases List.mem_cons.1 hk with hk | hk <;> rcases List.mem_cons.1 hj with hj | hj
      · rw [hk, hj]
      · rw [hold j hj, hk, hno] at he
        exact absurd he.symm (hu j hj)
      · rw [hold k hk, hj, hno] at he
        exact absurd he (hu k hk)
      · rw [hold k hk, hold j hj] at he
        exact hc.inj k hk j hj he
  have hmem : h ∈ s'.openInodes := hopen ▸ List.mem_cons_self
  refine ⟨hc', view_ext (fun m => ?_) (fun a => ?_) fun i => ?_, ?_⟩
  · by_cases hm : m < 4096
    · by_cases hmn : m = n
      · subst hmn
        rw [node_uncached hu hm, node_cached hc' hmem hno hm, hst]
      · refine node_eq hc hc' hm (fun k hk _ => ⟨hopen ▸ List.mem_cons_of_mem _ hk, by
          rw [hold k hk]⟩) fun hum => ⟨fun k hk => ?_, by rw [hd]⟩
        rw [hopen] at hk
        rcases List.mem_cons.1 hk with rfl | hk
        · exact fun he => hmn (eq_of_ofNat hm hlt (he.symm.trans hno))
        · rw [hold k hk]
          exact hum k hk
    · rw [view_node_ge (by omega), view_node_ge (by omega)]
  · exact view_data_eq fun _ => by rw [hd]
  · rw [view_used, view_used, hb]
  · rw [Clean, hno, toNat_ofNat hlt, hd, hst]

/-- **`inode_open`.** Without memory it writes through a null pointer. -/
theorem inodeOpen_wp {E : Fault → Prop} (hc : CacheOk L s) (hn : n ∈ L) (hlt : n < 4096)
    (hno : ((s.view part).node n).iNo = BitVec.ofNat 32 n)
    (hE : ∀ k, s.mallocs k = false → E .wild) :
    wp (inodeOpen part (BitVec.ofNat 32 n)) (fun h s' => Opened part L s s' n h) E s := by
  rw [inodeOpen, wp_bind, wp_get]
  cases hf : s.openInodes.find? fun h => (s.inode h).iNo == BitVec.ofNat 32 n with
  | some h =>
    have hno' := List.find?_some hf
    rw [beq_iff_eq] at hno'
    simp only [wp_bind, wp_modify, wp_pure]
    exact opened_updInode hc (List.mem_of_find?_eq_some hf) hno'
  | none =>
    have hu : Uncached s n := fun h hh => by simpa using List.find?_eq_none.1 hf h hh
    simp only [wp_bind, wp_sysMalloc, wp_check, wp_onDisk, wp_mallocInode, wp_modify, wp_pure,
      toNat_ofNat hlt, wp_of_ok (loadInode_eq hlt)]
    refine ⟨fun _ => ?_, fun hm => ?_⟩
    rotate_left
    · rcases Bool.and_eq_false_iff.1 hm with hm | hm
      · exact hE _ hm
      · exact hE _ hm
    -- the new object is at the next address and says what the record says
    set r := inodeRecord part s.disk n with hr
    have hrno : (Inode.ofRecord r).iNo = BitVec.ofNat 32 n := by
      rw [node_uncached hu hlt] at hno
      exact hno
    have hne : ∀ k ∈ s.openInodes, k ≠ s.inodeTop := fun k hk he => by
      have := hc.lt k hk
      omega
    generalize hs' : ({ FsState.updInode _ _ _ with openInodes := _ } : FsState) = s'
    have hopen : s'.openInodes = s.inodeTop :: s.openInodes := by rw [← hs']
    have htop : s'.inodeTop = s.inodeTop + 1 := by rw [← hs']; rfl
    have hnew : s'.inode s.inodeTop = { Inode.ofRecord r with iOpenCnts := 1 } := by
      rw [← hs']
      exact if_pos rfl
    have hold : ∀ k ∈ s.openInodes, s'.inode k = s.inode k := by
      intro k hk
      rw [← hs']
      exact if_neg (hne k hk)
    have hno' : (s'.inode s.inodeTop).iNo = BitVec.ofNat 32 n := by
      rw [hnew]
      exact hrno
    obtain ⟨hc', hview, hclean⟩ := push_object hc hu hlt (fun hm => hne _ hm rfl) hopen
      (by omega) (by omega) hold hno' (by rw [hnew]; rfl) (by rw [← hs']; rfl) (by rw [← hs']; rfl)
    rw [Finset.insert_eq_self.2 hn] at hc'
    refine ⟨hc', hview, ?_, hno', fun k => ?_, fun k hk _ => hold k hk,
      .inr ⟨rfl, hu, by rw [hnew], hclean⟩, ?_, 2, fun k => by rw [← hs']; rfl⟩
    · rw [← hs']
      rfl
    · rw [hopen, List.mem_cons, or_comm]
    · rw [hnew, yields_uncached hu]

/-! ### Closing -/

/-- What `inode_close` of the object at `h` does. -/
structure Closed (part : Partition) (L : Finset ℕ) (s s' : FsState) (h : ℕ) : Prop where
  cache : CacheOk L s'
  view : (Clean part s h → s'.view part = s.view part)
  same : tables s' = tables s
  openInodes : s'.openInodes =
    if (s.inode h).iOpenCnts - 1 = 0 then s.openInodes.erase h else s.openInodes
  inode : ∀ k, k ≠ h → s'.inode k = s.inode k
  cnt : (s'.inode h).iOpenCnts = (s.inode h).iOpenCnts - 1
  stored : (s'.inode h).stored = (s.inode h).stored
  mallocs : s'.mallocs = s.mallocs

theorem Closed.sub (hc : Closed part L s s' h) {k : ℕ} (hk : k ∈ s'.openInodes) :
    k ∈ s.openInodes := by
  rw [hc.openInodes] at hk
  split at hk
  · exact List.mem_of_mem_erase hk
  · exact hk

theorem Closed.mem (hc : Closed part L s s' h) {k : ℕ} (hk : k ∈ s.openInodes) (hkh : k ≠ h) :
    k ∈ s'.openInodes := by
  rw [hc.openInodes]
  split
  · exact (List.mem_erase_of_ne hkh).2 hk
  · exact hk

theorem Closed.inode_stored (hc : Closed part L s s' h) (k : ℕ) :
    (s'.inode k).stored = (s.inode k).stored := by
  by_cases hkh : k = h
  · rw [hkh]
    exact hc.stored
  · rw [hc.inode k hkh]

theorem Closed.clean (hc : Closed part L s s' h) (hcl : ∀ k ∈ s.openInodes, Clean part s k) :
    ∀ k ∈ s'.openInodes, Clean part s' k := fun k hk =>
  (hcl k (hc.sub hk)).of_same (disk_of_tables hc.same) (hc.inode_stored k)

variable (part) in
/-- **`inode_close`.** -/
theorem inodeClose_wp {E : Fault → Prop} (hc : CacheOk L s) (hh : h ∈ s.openInodes) :
    wp (inodeClose h) (fun _ s' => Closed part L s s' h) E s := by
  simp only [inodeClose, wp_bind, wp_modify, wp_get]
  have hcnt : ((s.updInode h fun i => { i with iOpenCnts := i.iOpenCnts - 1 }).inode h).iOpenCnts =
      (s.inode h).iOpenCnts - 1 := by simp [updInode]
  -- both branches at once: the objects change in the count only, and one may leave the list
  have key : ∀ s', tables s' = tables s → s'.inodeTop = s.inodeTop → s'.mallocs = s.mallocs →
      (∀ k, s'.inode k = (s.updInode h fun i => { i with iOpenCnts := i.iOpenCnts - 1 }).inode k) →
      s'.openInodes = (if (s.inode h).iOpenCnts - 1 = 0 then s.openInodes.erase h
        else s.openInodes) → Closed part L s s' h := by
    intro s' hsame htop hmallocs hinode hopen
    have hst : ∀ k, (s'.inode k).stored = (s.inode k).stored := by
      intro k
      rw [hinode]
      simp only [updInode]
      split <;> rfl
    have hsub : ∀ k ∈ s'.openInodes, k ∈ s.openInodes := by
      intro k hk
      rw [hopen] at hk
      split at hk
      · exact List.mem_of_mem_erase hk
      · exact hk
    have hc' : CacheOk L s' := by
      refine ⟨?_, fun k hk => htop ▸ hc.lt k (hsub k hk), fun k hk => ?_, fun k hk j hj he => ?_⟩
      · rw [hopen]
        split
        · exact hc.nodup.erase h
        · exact hc.nodup
      · rw [iNo_of_stored (hst k)]
        exact hc.no k (hsub k hk)
      · rw [iNo_of_stored (hst k), iNo_of_stored (hst j)] at he
        exact hc.inj k (hsub k hk) j (hsub j hj) he
    refine ⟨hc', fun hclean => view_ext (fun m => ?_) (fun a => ?_) (fun i => ?_), hsame, hopen,
      fun k hk => ?_, ?_, hst h, hmallocs⟩
    · by_cases hm : m < 4096
      · by_cases hgone : (s.inode h).iNo = BitVec.ofNat 32 m ∧ (s.inode h).iOpenCnts - 1 = 0
        · -- the object left the cache, and its record takes over
          have hu : Uncached s' m := by
            intro k hk he
            rw [iNo_of_stored (hst k), ← hgone.1] at he
            have hkh := hc.inj k (hsub k hk) h hh he
            rw [hopen, if_pos hgone.2, hkh] at hk
            exact hc.nodup.not_mem_erase hk
          rw [node_uncached hu hm, node_cached hc hh hgone.1 hm, disk_of_tables hsame]
          rw [Clean, hgone.1, toNat_ofNat hm] at hclean
          exact hclean
        · refine node_eq hc hc' hm (fun k hk hno => ⟨?_, hst k⟩) fun hu => ⟨fun k hk => ?_, by
            rw [disk_of_tables hsame]⟩
          · rw [hopen]
            split
            · rename_i h0
              refine (List.mem_erase_of_ne ?_).2 hk
              rintro rfl
              exact hgone ⟨hno, h0⟩
            · exact hk
          · rw [iNo_of_stored (hst k)]
            exact hu k (hsub k hk)
      · rw [view_node_ge (by omega), view_node_ge (by omega)]
    · rw [view, view, disk_of_tables hsame]
    · rw [view, view, blockBitmap_of_tables hsame]
    · rw [hinode]
      exact if_neg hk
    · rw [hinode]
      exact hcnt
  rw [hcnt]
  split
  · rename_i h0
    refine key _ rfl rfl rfl (fun _ => rfl) ?_
    rw [if_pos h0]
    rfl
  · rename_i h0
    refine key _ rfl rfl rfl (fun _ => rfl) ?_
    rw [if_neg h0]
    rfl

/-! ### Working on an open inode -/

/-- The inode table is the same on both disks. -/
def SameTable (part : Partition) (d d' : Disk) : Prop :=
  ∀ a, part.sb.inodeTableLba ≤ a → a < part.sb.dataStartLba → d' a = d a

theorem SameTable.trans {d1 d2 d3 : Disk} (h1 : SameTable part d1 d2) (h2 : SameTable part d2 d3) :
    SameTable part d1 d3 := fun a ha ha' => (h2 a ha ha').trans (h1 a ha ha')

theorem BitmapFrame.sameTable {d d' : Disk} (h : BitmapFrame part d d') : SameTable part d d' :=
  fun a ha _ => h a (Or.inr ha)

/-- A write to the data area is not a write to the table. -/
theorem SameTable.write {d : Disk} {a : ℕ} (ha : part.sb.dataStartLba ≤ a) (b : Buf) :
    SameTable part d (d.write a b 1) := fun _ _ hc => Disk.write_one_of_ne (by omega)

section

variable (hc : CacheOk L s) (hr : rest h s' = rest h s)

include hc hr

/-- Work on an open inode leaves the cache in order. -/
theorem cacheOk_edit : CacheOk L s' := by
  have hopen := rest_openInodes hr
  refine ⟨hopen ▸ hc.nodup, fun k hk => ?_, fun k hk => ?_, fun k hk j hj he => ?_⟩
  · rw [rest_inodeTop hr]
    exact hc.lt k (hopen ▸ hk)
  · rw [rest_iNo hr]
    exact hc.no k (hopen ▸ hk)
  · rw [rest_iNo hr, rest_iNo hr] at he
    exact hc.inj k (hopen ▸ hk) j (hopen ▸ hj) he

omit hc in
theorem uncached_edit (hu : Uncached s m) : Uncached s' m := fun k hk => by
  rw [rest_iNo hr]
  exact hu k (rest_openInodes hr ▸ hk)

/-- **Work on an open inode shows in that inode only.** -/
theorem view_edit (htab : SameTable part s.disk s'.disk) (hno : (s.inode h).iNo = BitVec.ofNat 32 n)
    (hn : n < 4096) (hmn : m ≠ n) : (s'.view part).node m = (s.view part).node m := by
  by_cases hm : m < 4096
  · refine node_eq hc (cacheOk_edit hc hr) hm (fun k hk hkm => ⟨?_, ?_⟩)
      fun hu => ⟨uncached_edit hr hu, record_congr hm htab⟩
    · rw [rest_openInodes hr]
      exact hk
    · rw [rest_inode hr]
      rintro rfl
      exact hmn (eq_of_ofNat hm hn (hkm.symm.trans hno))
  · rw [view_node_ge (by omega), view_node_ge (by omega)]

theorem view_edit_self (hh : h ∈ s.openInodes) (hno : (s.inode h).iNo = BitVec.ofNat 32 n)
    (hn : n < 4096) : (s'.view part).node n = (s'.inode h).stored :=
  node_cached (cacheOk_edit hc hr) (rest_openInodes hr ▸ hh) ((rest_iNo hr h).trans hno) hn

omit hc in
end

/-- Inode `n` is open as the object at `h`, among inodes whose blocks are apart. -/
structure Working (part : Partition) (L : Finset ℕ) (s : FsState) (h n : ℕ) : Prop where
  own : Own part L (s.view part)
  cache : CacheOk L s
  mem : h ∈ s.openInodes
  live : n ∈ L
  lt : n < 4096
  no : (s.inode h).iNo = BitVec.ofNat 32 n

namespace Working

variable (hw : Working part L s h n)

include hw

theorem iSectors (hk : k < 13) : ((s.view part).node n).iSectors k = (s.inode h).iSectors k := by
  rw [node_cached hw.cache hw.mem hw.no hw.lt, stored_iSectors hk]

theorem slot_lt (hk : k < 12) : (s.view part).slot n k = (s.inode h).iSectors k := by
  rw [View.slot_of_lt hk, hw.iSectors (by omega)]

theorem slot_table : (s.view part).slot n 140 = (s.inode h).iSectors 12 := by
  rw [View.slot_table, hw.iSectors (by omega)]

/-- The places of an inode are those of its object. -/
theorem slot_object (hk : k ≤ 140) :
    (s.view part).slot n k = slotAddr (s.inode h) s.disk.sector k := by
  rw [slotAddr]
  by_cases h1 : k < 12
  · rw [if_pos h1, hw.slot_lt h1]
  · rw [if_neg h1]
    by_cases h2 : k = 140
    · rw [if_pos h2, h2, hw.slot_table]
    · rw [if_neg h2, View.slot_of_ge (by omega) (by omega), hw.iSectors (by omega)]
      by_cases h0 : (s.inode h).iSectors 12 = 0
      · rw [if_pos h0, if_pos h0]
      · have hu := hw.own.used hw.live (Nat.le_refl 140)
        rw [hw.slot_table] at hu
        rw [if_neg h0, if_neg h0, view_data (hu h0).le_toNat]

theorem data_slot (hk : k ≤ 140) (h0 : (s.view part).slot n k ≠ 0) :
    (s.view part).data ((s.view part).slot n k).toNat =
      s.disk.sector ((s.view part).slot n k).toNat :=
  view_data (hw.own.used hw.live hk h0).le_toNat

end Working

end

end X86Os
