import X86Os.Fs.Tables

/-!
# References to open inodes

`inode_open` takes a reference to an inode and `inode_close` gives one back; the object stays in
`open_inodes` as long as there are references. A call that looks a path up opens and closes several
directories on its way, and should leave every count as it found it, apart from the reference that
the descriptor or stream it returns stands for.

`Balance s0 held s` says this of a state in the middle of a call that began in `s0`: `held` are the
references taken since and not given back. It speaks of objects, not of inode numbers or of what is
on the disk, so it holds for any disk and any list of open inodes.

`root_dir` is static and holds a reference of its own, so `dir_close` does nothing on it and opening
`/` takes no reference.
-/

namespace X86Os

open X86Os.Comp FsState

/-! ### Counts -/

/-- The open inodes, the next address, and all of the objects but their sizes and blocks. -/
def counts (s : FsState) : List ℕ × ℕ × (ℕ → Word × Word × Bool) :=
  (s.openInodes, s.inodeTop, fun h => ((s.inode h).iOpenCnts, (s.inode h).iNo,
    (s.inode h).writeDeny))

/-- Every object in the list is there once, and was allocated. -/
structure ListOk (s : FsState) : Prop where
  nodup : s.openInodes.Nodup
  lt : ∀ h ∈ s.openInodes, h < s.inodeTop

/-- The count of the object at `h` is not zero, and has room for the references of one call. -/
structure CountOk (s : FsState) (h : ℕ) : Prop where
  ne_zero : (s.inode h).iOpenCnts ≠ 0
  room : (s.inode h).iOpenCnts.toNat + 8 < 2 ^ 32

/-- Every open inode has references, and room for more. -/
def CountsOk (s : FsState) : Prop := ∀ h ∈ s.openInodes, CountOk s h

/-- Since `s0`, the references `held` were taken and not given back. -/
structure Balance (s0 : FsState) (held : List ℕ) (s : FsState) : Prop where
  list : ListOk s
  old : ∀ h ∈ s0.openInodes, h < s0.inodeTop
  top : s0.inodeTop ≤ s.inodeTop
  known : ∀ h ∈ held, h < s.inodeTop
  few : held.length ≤ 8
  kept : ∀ h ∈ s.openInodes, h ∈ s0.openInodes →
    (s.inode h).iOpenCnts = (s0.inode h).iOpenCnts + BitVec.ofNat 32 (held.count h)
  new : ∀ h ∈ s.openInodes, h ∉ s0.openInodes →
    h ∈ held ∧ (s.inode h).iOpenCnts = BitVec.ofNat 32 (held.count h)
  stay : ∀ h ∈ s0.openInodes, CountOk s0 h → h ∈ s.openInodes
  present : ∀ h ∈ held, (h ∈ s0.openInodes → CountOk s0 h) → h ∈ s.openInodes
  fixed : ∀ h < s0.inodeTop, (s.inode h).iNo = (s0.inode h).iNo ∧
    (s.inode h).writeDeny = (s0.inode h).writeDeny

/-- The reference that a directory stands for. -/
def Dir.held (p : Dir) : List ℕ := if p.isRoot then [] else [p.inode]

theorem Dir.length_held (p : Dir) : p.held.length ≤ 1 := by
  rw [held]
  split <;> simp

theorem held_lt (p : Dir) : (p.held ++ ([] : List ℕ)).length < 8 := by
  rw [List.append_nil]
  exact Nat.lt_of_le_of_lt p.length_held (by decide)

section

variable {part : Partition} {s s' s0 : FsState} {held : List ℕ} {h : ℕ}

theorem blind_counts (h : ℕ) : Blind counts h := by
  refine ⟨⟨fun _ _ => rfl, fun _ _ _ => rfl, fun _ _ => rfl, fun s g => ?_⟩, fun s g => ?_⟩ <;>
    · simp only [counts, updInode, Prod.mk.injEq, true_and]
      funext k
      split <;> rfl

theorem Balance.start (hs : ListOk s) : Balance s [] s where
  list := hs
  old := hs.lt
  top := Nat.le_refl _
  known _ hh := absurd hh List.not_mem_nil
  few := Nat.zero_le _
  kept _ _ _ := by simp
  new _ hh hn := absurd hh hn
  stay _ hh _ := hh
  present _ hh := absurd hh List.not_mem_nil
  fixed _ _ := ⟨rfl, rfl⟩

theorem Balance.congr (hb : Balance s0 held s) (hc : counts s' = counts s) :
    Balance s0 held s' := by
  simp only [counts, Prod.mk.injEq] at hc
  obtain ⟨ho, ht, hi⟩ := hc
  have hi : ∀ k, (s'.inode k).iOpenCnts = (s.inode k).iOpenCnts ∧
    (s'.inode k).iNo = (s.inode k).iNo ∧
      (s'.inode k).writeDeny = (s.inode k).writeDeny := fun k => by simpa using congrFun hi k
  refine ⟨⟨ho ▸ hb.list.nodup, ?_⟩, hb.old, ht ▸ hb.top, ht ▸ hb.known, hb.few, fun k hk hk0 => ?_,
    fun k hk hk0 => ?_, ho ▸ hb.stay, ho ▸ hb.present, fun k hk => ?_⟩
  · rw [ho, ht]
    exact hb.list.lt
  · rw [(hi k).1]
    exact hb.kept k (ho ▸ hk) hk0
  · rw [(hi k).1]
    exact hb.new k (ho ▸ hk) hk0
  · rw [(hi k).2.1, (hi k).2.2]
    exact hb.fixed k hk

/-- The order in which references were taken does not matter. -/
theorem Balance.perm {held' : List ℕ} (hb : Balance s0 held s) (hp : held.Perm held') :
    Balance s0 held' s :=
  { hb with
    known := fun k hk => hb.known k (hp.mem_iff.2 hk)
    few := hp.length_eq ▸ hb.few
    kept := fun k hk hk0 => hp.count_eq k ▸ hb.kept k hk hk0
    new := fun k hk hk0 =>
      ⟨hp.mem_iff.1 (hb.new k hk hk0).1, hp.count_eq k ▸ (hb.new k hk hk0).2⟩
    present := fun k hk => hb.present k (hp.mem_iff.2 hk) }

theorem Comp.Keeps.balance {α : Type} {x : Kern FsState α} (hx : Keeps counts x) :
    Triple (Balance s0 held) x fun _ => Balance s0 held :=
  hx.triple fun _ _ hc hb => hb.congr hc

/-! ### Taking and giving back -/

/-- One more reference to an object in the list. -/
theorem Balance.take (hb : Balance s0 held s) (hlen : held.length < 8) (hh : h ∈ s.openInodes) :
    Balance s0 (h :: held) (s.updInode h fun i => { i with iOpenCnts := i.iOpenCnts + 1 }) := by
  refine ⟨⟨hb.list.nodup, hb.list.lt⟩, hb.old, hb.top, fun k hk => ?_, hlen, fun k hk hk0 => ?_,
    fun k hk hk0 => ?_, hb.stay, fun k hk hc => ?_, fun k hk => ?_⟩
  · rcases List.mem_cons.1 hk with rfl | hk
    · exact hb.list.lt k hh
    · exact hb.known k hk
  · by_cases hkh : k = h
    · subst hkh
      simp only [updInode, if_true, hb.kept k hk hk0, List.count_cons_self, BitVec.ofNat_add]
      exact BitVec.add_assoc _ _ _
    · simp only [updInode, if_neg hkh, List.count_cons_of_ne (Ne.symm hkh)]
      exact hb.kept k hk hk0
  · by_cases hkh : k = h
    · subst hkh
      simp only [updInode, if_true, (hb.new k hk hk0).2, List.count_cons_self, BitVec.ofNat_add]
      exact ⟨List.mem_cons_self, rfl⟩
    · simp only [updInode, if_neg hkh, List.count_cons_of_ne (Ne.symm hkh)]
      exact ⟨List.mem_cons_of_mem _ (hb.new k hk hk0).1, (hb.new k hk hk0).2⟩
  · rcases List.mem_cons.1 hk with rfl | hk
    · exact hh
    · exact hb.present k hk hc
  · simp only [updInode]
    split <;> exact hb.fixed k hk

/-- The object at `h` was allocated since, and is not in the list yet. -/
structure Spare (s0 : FsState) (held : List ℕ) (h : ℕ) (s : FsState) : Prop
    extends Balance s0 held s where
  lt : h < s.inodeTop
  ge : s0.inodeTop ≤ h
  notMem : h ∉ s.openInodes
  notHeld : h ∉ held

theorem Spare.congr (hs : Spare s0 held h s) (hc : counts s' = counts s) : Spare s0 held h s' := by
  have ho : s'.openInodes = s.openInodes := congrArg (·.1) hc
  have ht : s'.inodeTop = s.inodeTop := congrArg (·.2.1) hc
  exact ⟨hs.toBalance.congr hc, ht ▸ hs.lt, hs.ge, ho ▸ hs.notMem, hs.notHeld⟩

theorem mallocInode_spare : Triple (Balance s0 held) mallocInode fun h => Spare s0 held h := by
  refine Triple.get_bind fun s hb => ?_
  simp only [post, wp_bind, wp_modify, wp_pure]
  refine ⟨⟨⟨hb.list.nodup, fun k hk => ?_⟩, hb.old, ?_, fun k hk => ?_, hb.few, hb.kept, hb.new,
    hb.stay, hb.present, hb.fixed⟩, ?_, hb.top, fun hm => ?_, fun hm => ?_⟩
  · exact Nat.lt_succ_of_lt (hb.list.lt k hk)
  · exact Nat.le_succ_of_le hb.top
  · exact Nat.lt_succ_of_lt (hb.known k hk)
  · exact Nat.lt_succ_self _
  · exact absurd (hb.list.lt _ hm) (Nat.lt_irrefl _)
  · exact absurd (hb.known _ hm) (Nat.lt_irrefl _)

theorem Spare.fill (hs : Spare s0 held h s) (g : Inode → Inode) :
    Spare s0 held h (s.updInode h g) := by
  have hne : ∀ k ∈ s.openInodes, k ≠ h := fun k hk he => hs.notMem (he ▸ hk)
  have hold : ∀ k, k ≠ h → (s.updInode h g).inode k = s.inode k := fun k hk => if_neg hk
  refine ⟨⟨⟨hs.list.nodup, hs.list.lt⟩, hs.old, hs.top, hs.known, hs.few, fun k hk hk0 => ?_,
    fun k hk hk0 => ?_, hs.stay, hs.present, fun k hk => ?_⟩, hs.lt, hs.ge, hs.notMem, hs.notHeld⟩
  · rw [hold k (hne k hk)]
    exact hs.kept k hk hk0
  · rw [hold k (hne k hk)]
    exact hs.new k hk hk0
  · rw [hold k (Nat.ne_of_lt (Nat.lt_of_lt_of_le hk hs.ge))]
    exact hs.fixed k hk

/-- A new object goes to the list, with one reference. -/
theorem Spare.push (hs : Spare s0 held h s) (hlen : held.length < 8)
    (hcnt : (s.inode h).iOpenCnts = 1) :
    Balance s0 (h :: held) { s with openInodes := h :: s.openInodes } := by
  have hne : ∀ k ∈ s.openInodes, k ≠ h := fun k hk he => hs.notMem (he ▸ hk)
  have hcount : held.count h = 0 := List.count_eq_zero.2 hs.notHeld
  refine ⟨⟨List.nodup_cons.2 ⟨hs.notMem, hs.list.nodup⟩, fun k hk => ?_⟩, hs.old, hs.top,
    fun k hk => ?_, hlen, fun k hk hk0 => ?_, fun k hk hk0 => ?_, fun k hk hc => ?_,
    fun k hk hc => ?_, hs.fixed⟩
  · rcases List.mem_cons.1 hk with rfl | hk
    · exact hs.lt
    · exact hs.list.lt k hk
  · rcases List.mem_cons.1 hk with rfl | hk
    · exact hs.lt
    · exact hs.known k hk
  · rcases List.mem_cons.1 hk with rfl | hk
    · exact absurd (hs.old _ hk0) (Nat.not_lt.2 hs.ge)
    · rw [List.count_cons_of_ne (hne k hk).symm]
      exact hs.kept k hk hk0
  · rcases List.mem_cons.1 hk with rfl | hk
    · rw [List.count_cons_self, hcount]
      exact ⟨List.mem_cons_self, hcnt⟩
    · rw [List.count_cons_of_ne (hne k hk).symm]
      exact ⟨List.mem_cons_of_mem _ (hs.new k hk hk0).1, (hs.new k hk hk0).2⟩
  · exact List.mem_cons_of_mem _ (hs.stay k hk hc)
  · rcases List.mem_cons.1 hk with rfl | hk
    · exact List.mem_cons_self
    · exact List.mem_cons_of_mem _ (hs.present k hk hc)

/-- **`inode_open`** takes a reference. -/
theorem inodeOpen_balance (hlen : held.length < 8) (n : Word) :
    Triple (Balance s0 held) (inodeOpen part n) fun h => Balance s0 (h :: held) := by
  refine Triple.get_bind fun s hb => ?_
  cases hf : s.openInodes.find? fun h => (s.inode h).iNo == n with
  | some h =>
    simp only [post, wp_bind, wp_modify, wp_pure]
    exact hb.take hlen (List.mem_of_find?_eq_some hf)
  | none =>
    refine Triple.bind (blind_counts 0).sysMalloc.balance (fun _ =>
      .bind (blind_counts 0).sysMalloc.balance fun _ => .bind (Keeps.check _ _).balance fun _ =>
        .bind ((blind_counts 0).onDisk _).balance fun r => .bind mallocInode_spare fun h => ?_) s hb
    refine .bind (Q := fun _ => Balance s0 (h :: held)) (.modify fun s hs => ?_)
      fun _ => .pure fun _ hb => hb
    exact (hs.fill _).push hlen (by simp [updInode])

/-- **`inode_close`** gives a reference back. -/
theorem inodeClose_balance :
    Triple (Balance s0 (h :: held)) (inodeClose h) fun _ => Balance s0 held := by
  intro s hb
  simp only [inodeClose, post, wp_bind, wp_modify, wp_get]
  have hfew : held.length < 8 := hb.few
  have hself : ((s.updInode h fun i => { i with iOpenCnts := i.iOpenCnts - 1 }).inode h).iOpenCnts =
      (s.inode h).iOpenCnts - 1 := by simp [updInode]
  have hother : ∀ k, k ≠ h →
      (s.updInode h fun i => { i with iOpenCnts := i.iOpenCnts - 1 }).inode k = s.inode k :=
    fun k hk => if_neg hk
  -- an object with another reference is not dropped
  have hstay : h ∈ s.openInodes → (h ∈ s0.openInodes → CountOk s0 h) →
      (h ∉ s0.openInodes → h ∈ held) → (s.inode h).iOpenCnts - 1 ≠ 0 := by
    intro hh hok hheld hz
    have hcount : held.count h ≤ held.length := List.count_le_length
    by_cases hh0 : h ∈ s0.openInodes
    · obtain ⟨h0, hle⟩ := hok hh0
      have hpos : (s0.inode h).iOpenCnts.toNat ≠ 0 := fun he => h0 (BitVec.eq_of_toNat_eq he)
      rw [hb.kept h hh hh0, List.count_cons_self, BitVec.ofNat_add, ← BitVec.add_assoc,
        show BitVec.ofNat 32 1 = 1 from rfl, BitVec.add_sub_cancel] at hz
      have := congrArg BitVec.toNat hz
      rw [BitVec.toNat_add, BitVec.toNat_ofNat, show BitVec.toNat (0 : Word) = 0 from rfl] at this
      omega
    · have hpos : 0 < held.count h := List.count_pos_iff.2 (hheld hh0)
      rw [(hb.new h hh hh0).2, List.count_cons_self, BitVec.ofNat_add,
        show BitVec.ofNat 32 1 = 1 from rfl, BitVec.add_sub_cancel] at hz
      have := congrArg BitVec.toNat hz
      rw [BitVec.toNat_ofNat, show BitVec.toNat (0 : Word) = 0 from rfl] at this
      omega
  -- both branches at once, by the objects that are left in the list
  have key : ∀ s', s'.inodeTop = s.inodeTop → s'.openInodes.Nodup →
      (∀ k ∈ s'.openInodes, k ∈ s.openInodes ∧ (k = h → (s.inode h).iOpenCnts - 1 ≠ 0)) →
      (∀ k ∈ s.openInodes, k ≠ h ∨ (s.inode h).iOpenCnts - 1 ≠ 0 → k ∈ s'.openInodes) →
      s'.inode = (s.updInode h fun i => { i with iOpenCnts := i.iOpenCnts - 1 }).inode →
      Balance s0 held s' := by
    intro s' ht hnd hsub hsup hinode
    refine ⟨⟨hnd, fun k hk => ht ▸ hb.list.lt k (hsub k hk).1⟩, hb.old, ht ▸ hb.top,
      fun k hk => ht ▸ hb.known k (List.mem_cons_of_mem _ hk), Nat.le_of_lt hfew,
      fun k hk hk0 => ?_, fun k hk hk0 => ?_, fun k hk hok => ?_, fun k hk hok => ?_,
      fun k hk => ?_⟩ <;> try rw [hinode]
    · have hkept := hb.kept k (hsub k hk).1 hk0
      by_cases hkh : k = h
      · subst hkh
        rw [hself, hkept, List.count_cons_self, BitVec.ofNat_add, ← BitVec.add_assoc]
        exact BitVec.add_sub_cancel _ _
      · rw [hother k hkh, hkept, List.count_cons_of_ne (Ne.symm hkh)]
    · obtain ⟨hm, hnew⟩ := hb.new k (hsub k hk).1 hk0
      by_cases hkh : k = h
      · subst hkh
        rw [List.count_cons_self, BitVec.ofNat_add] at hnew
        have hc : (s.inode k).iOpenCnts - 1 = BitVec.ofNat 32 (held.count k) := by
          rw [hnew]
          exact BitVec.add_sub_cancel _ _
        refine ⟨?_, hself.trans hc⟩
        by_contra hnot
        rw [List.count_eq_zero.2 hnot] at hc
        exact (hsub k hk).2 rfl hc
      · rw [hother k hkh, hnew, List.count_cons_of_ne (Ne.symm hkh)]
        exact ⟨(List.mem_cons.1 hm).resolve_left hkh, rfl⟩
    · have hm := hb.stay k hk hok
      by_cases hkh : k = h
      · subst hkh
        exact hsup k hm (.inr (hstay hm (fun _ => hok) fun hn => absurd hk hn))
      · exact hsup k hm (.inl hkh)
    · have hm := hb.present k (List.mem_cons_of_mem _ hk) hok
      by_cases hkh : k = h
      · subst hkh
        exact hsup k hm (.inr (hstay hm hok fun _ => hk))
      · exact hsup k hm (.inl hkh)
    · have : ∀ f : Inode → Inode, (∀ i, (f i).iNo = i.iNo ∧ (f i).writeDeny = i.writeDeny) →
          ((s.updInode h f).inode k).iNo = (s.inode k).iNo ∧
            ((s.updInode h f).inode k).writeDeny = (s.inode k).writeDeny := fun f hf => by
        simp only [updInode]
        split
        · exact hf _
        · exact ⟨rfl, rfl⟩
      obtain ⟨h1, h2⟩ := this (fun i => { i with iOpenCnts := i.iOpenCnts - 1 }) fun _ => ⟨rfl, rfl⟩
      rw [h1, h2]
      exact hb.fixed k hk
  rw [hself]
  split
  · rename_i hz
    refine key _ rfl (hb.list.nodup.erase h) (fun k hk => ?_) (fun k hk hne => ?_) rfl
    · exact ⟨List.mem_of_mem_erase hk, fun he => absurd (he ▸ hk) hb.list.nodup.not_mem_erase⟩
    · exact (List.mem_erase_of_ne (hne.resolve_right fun h => h hz)).2 hk
  · rename_i hne
    exact key _ rfl hb.list.nodup (fun k hk => ⟨hk, fun _ => hne⟩) (fun k hk _ => hk) rfl

/-! ### Directories and lookups -/

theorem counts_uninit : Keeps counts uninit :=
  .bind .get fun _ => .bind (.modify fun _ => rfl) fun _ => .pure _

theorem counts_pathDepthCnt (pathname : List Byte) : Keeps counts (pathDepthCnt pathname) :=
  .bind (.check _ _) fun _ => .ite (.bind counts_uninit fun _ => .pure _) (.pure _)

theorem counts_inodeBitmapAlloc : Keeps counts inodeBitmapAlloc :=
  .bind .get fun _ => .bind (.lift _) fun _ => .ite (.pure _)
    (.bind (.modify fun _ => rfl) fun _ => .pure _)

theorem counts_undoInodeNo (n : Word) : Keeps counts (undoInodeNo n) := .modify fun _ => rfl

theorem counts_createDirEntry (name : List Byte) (n : Word) (t : FileType) :
    Keeps counts (createDirEntry name n t) := .bind (.check _ _) fun _ => .pure _

theorem dirOpen_balance (hlen : held.length < 8) (n : Word) :
    Triple (Balance s0 held) (dirOpen part n) fun p => Balance s0 (p.held ++ held) :=
  .bind (blind_counts 0).sysMalloc.balance fun _ => .bind (inodeOpen_balance hlen n) fun _ =>
    .bind (Keeps.check _ _).balance fun _ => .pure fun _ hb => hb

theorem dirClose_balance (p : Dir) : Triple (Balance s0 (p.held ++ held)) (dirClose p)
    fun _ => Balance s0 held := by
  rw [dirClose, Dir.held]
  split
  · exact .pure fun _ hb => hb
  · exact inodeClose_balance

/-- A failing exit: the directory is given back. -/
theorem dirClose_pure_balance {α : Type} (p : Dir) (a : α) :
    Triple (Balance s0 (p.held ++ held)) (dirClose p >>= fun _ => pure a)
      fun _ => Balance s0 held :=
  .bind (dirClose_balance p) fun _ => .pure fun _ hb => hb

theorem searchLoop_balance (hlen : held.length < 8) (ns : List (List Byte)) : ∀ parent pno ino path,
    Triple (Balance s0 (parent.held ++ held)) (searchLoop part ns parent pno ino path)
      fun r => Balance s0 (r.2.parentDir.held ++ held) := by
  induction ns with
  | nil =>
    exact fun _ _ _ _ => .bind (dirClose_balance _) fun _ => .bind (dirOpen_balance hlen _) fun _ =>
      .pure fun _ hb => hb
  | cons name ns ih =>
    intro parent pno ino path
    refine .bind (Keeps.check _ _).balance fun _ => .bind (Keeps.check _ _).balance fun _ =>
      .bind ((blind_counts 0).searchDirEntry _ _).balance fun r => ?_
    cases r with
    | none => exact .pure fun _ hb => hb
    | some e =>
      refine .bind (Keeps.check _ _).balance fun _ => .ite (fun _ => ?_) fun _ => .ite
        (fun _ => .pure fun _ hb => hb) fun _ => ih _ _ _ _
      exact .bind Keeps.get.balance fun _ => .bind (dirClose_balance _) fun _ =>
        .bind (dirOpen_balance hlen _) fun _ => ih _ _ _ _

/-- **A lookup** holds the directory it returns. -/
theorem searchFile_balance (hlen : held.length < 8) (pathname : CString) :
    Triple (Balance s0 held) (searchFile part pathname)
      fun r => Balance s0 (r.2.parentDir.held ++ held) := by
  refine .bind Keeps.get.balance fun s => .ite (fun _ => .pure fun _ hb => hb) fun _ => ?_
  exact .bind (Keeps.check _ _).balance fun _ => .bind counts_uninit.balance fun _ =>
    .bind (Keeps.check _ _).balance fun _ => searchLoop_balance hlen _ s.rootDir _ _ _

theorem inodeRelease_balance (hlen : held.length < 8) (n : Word) :
    Triple (Balance s0 held) (inodeRelease part n) fun _ => Balance s0 held :=
  .bind (inodeOpen_balance hlen n) fun h => .bind Keeps.get.balance fun _ =>
    .bind (Keeps.check _ _).balance fun _ => .bind ((blind_counts h).releaseBlocks _).balance
      fun _ =>
      .bind (counts_undoInodeNo n).balance fun _ =>
        .bind ((blind_counts h).bitmapSync _ _).balance fun _ =>
          .bind (blind_counts h).sysMalloc.balance fun _ => .bind (Keeps.check _ _).balance fun _ =>
            .bind ((blind_counts h).onDisk _).balance fun _ => inodeClose_balance

end

end X86Os
