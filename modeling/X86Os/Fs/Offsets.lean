import X86Os.Fs.BadFd

/-!
# Positions in open files

`fd_pos` of an entry of `file_table` is set in four ways: an open starts at 0, a write ends up one
byte before the end of the file, a read moves on by what it read, and `sys_lseek` computes a
position with signed numbers. All of it is arithmetic on 32-bit words, on a size that other
descriptors of the same file change too.

The runs here are of any processes that make these calls, one after the other, from a system in
which no file is open. What is claimed of every entry is that `fd_pos` is at most `i_size`. A seek
keeps to that by itself. A write does not if it writes nothing to an empty file: the position then
is one before 0. A read does not if its end wraps around, and past block 138 it fails an `ASSERT`
although the file may have 140 blocks.
-/

namespace X86Os

open X86Os.Comp FsState

/-! ### The system -/

/-- The calls, each with the process that makes it. -/
inductive OffsetAct
  | open (p : ℕ) (pathname : CString) (flags : Word)
  | write (p : ℕ) (fd : Int) (buf : Buf) (count : Word)
  | read (p : ℕ) (fd : Int) (buf : Option Buf) (count : Word)
  | lseek (p : ℕ) (fd : Int) (offset : Word) (whence : Byte)

/-- The process that makes the call. -/
def OffsetAct.proc : OffsetAct → ℕ
  | .open p _ _ | .write p _ _ _ | .read p _ _ _ | .lseek p _ _ _ => p

/-- The state a call leaves. -/
def OffsetAct.run (part : Partition) : OffsetAct → FsState → Option FsState
  | .open _ pathname flags => state? (sysOpen part pathname flags)
  | .write _ fd buf count => state? (sysWrite part fd buf count)
  | .read _ fd buf count => state? (sysRead fd buf count)
  | .lseek _ fd offset whence => state? (sysLseek fd offset whence)

/-- Runs from a system without open files, whatever is on the disk. -/
def offsetSys (part : Partition) : TransSys FsState OffsetAct :=
  .ofNext (fun s => (∀ g, (s.fileTable g).fdInode = none) ∧ ∀ h ∈ s.openInodes, h < s.inodeTop)
    fun s a => a.run part { s with cur := a.proc }

/-- The entry of `file_table` that descriptor `fd` of process `p` is on. -/
def fdEntry (s : FsState) (p : ℕ) (fd : Int) : ℕ := (s.fdTable p fd.toNat).toNat

/-- Something is written, or the file is not empty; and the new size is a 32-bit number. -/
def WriteFits (size count : Word) : Prop :=
  0 < size.toNat + count.toNat ∧ size.toNat + count.toNat < 2 ^ 32

/-- The end of the read is a 32-bit number, and what is read ends before block 139, unless the
position is at the end of the file already. -/
def ReadFits (pos size count : Word) : Prop :=
  pos.toNat + count.toNat < 2 ^ 32 ∧
    (size.toNat ≤ pos.toNat ∧ 0 < count.toNat ∨
      min (pos.toNat + count.toNat) size.toNat < 139 * 512)

/-- The calls that keep positions in bounds. A new entry for a directory must not make a file
shorter, which it could only do if the directory was open as a file of almost 4 GiB. -/
def OffsetOk (part : Partition) (s : FsState) : OffsetAct → Prop
  | .open _ _ flags => hasCreat flags = true → ∀ g h, (s.fileTable g).fdInode = some h →
      (s.inode h).iSize.toNat + part.sb.dirEntrySize < 2 ^ 32
  | .write p fd _ count => ∀ h, (s.fileTable (fdEntry s p fd)).fdInode = some h →
      WriteFits (s.inode h).iSize count
  | .read p fd _ count => ∀ h, (s.fileTable (fdEntry s p fd)).fdInode = some h →
      ReadFits (s.fileTable (fdEntry s p fd)).fdPos (s.inode h).iSize count
  | .lseek _ _ _ whence => 0 < whence.toNat ∧ whence.toNat < 4

/-! ### The invariant -/

/-- Every position is in the file, and every file has room for `room` more bytes. -/
structure Bounded (room : ℕ) (s : FsState) : Prop where
  top : ∀ h ∈ s.openInodes, h < s.inodeTop
  alloc : ∀ g h, (s.fileTable g).fdInode = some h → h < s.inodeTop
  pos : ∀ g h, (s.fileTable g).fdInode = some h →
    (s.fileTable g).fdPos.toNat ≤ (s.inode h).iSize.toNat
  room : ∀ g h, (s.fileTable g).fdInode = some h → (s.inode h).iSize.toNat + room < 2 ^ 32

/-- What the invariant is about. -/
def sizes (s : FsState) : List ℕ × ℕ × (ℕ → File) × (ℕ → Word) :=
  (s.openInodes, s.inodeTop, s.fileTable, fun k => (s.inode k).iSize)

section

variable {part : Partition} {s s' : FsState} {r : ℕ} {α : Type}

theorem Bounded.congr (hs : Bounded r s) (h : sizes s' = sizes s) : Bounded r s' := by
  simp only [sizes, Prod.mk.injEq] at h
  obtain ⟨hopen, htop, hfile, hsize⟩ := h
  have hsize' : ∀ k, (s'.inode k).iSize = (s.inode k).iSize := fun k => congrFun hsize k
  obtain ⟨h1, h2, h3, h4⟩ := hs
  exact ⟨by rw [hopen, htop]; exact h1, by rw [hfile, htop]; exact h2,
    by simpa only [hfile, hsize'] using h3, by simpa only [hfile, hsize'] using h4⟩

theorem Bounded.mono (hs : Bounded r s) : Bounded 0 s :=
  ⟨hs.top, hs.alloc, hs.pos, fun _ _ _ => BitVec.isLt _⟩

theorem Comp.Keeps.bounded {x : Kern FsState α} (hx : Keeps sizes x) :
    Triple (Bounded r) x fun _ => Bounded r := hx.triple fun _ _ h hs => hs.congr h

theorem sizes_updInode {h : ℕ} {g : Inode → Inode} (hg : ∀ i, (g i).iSize = i.iSize) :
    sizes (s.updInode h g) = sizes s := by
  have : (fun k => ((s.updInode h g).inode k).iSize) = fun k => (s.inode k).iSize := by
    funext k
    simp only [updInode]
    split
    · exact hg _
    · rfl
  simp only [sizes, this]
  rfl

theorem blind_sizes (h : ℕ) : BlindBlocks sizes h :=
  ⟨fun _ _ => rfl, fun _ _ _ => rfl, fun _ _ => rfl, fun _ _ => sizes_updInode fun _ => rfl⟩

theorem sizes_uninit : Keeps sizes uninit :=
  .bind .get fun _ => .bind (.modify fun _ => rfl) fun _ => .pure _

/-! ### Opening -/

theorem mallocInode_bounded : Triple (Bounded r) mallocInode
    fun h s => Bounded r s ∧ h < s.inodeTop ∧ ∀ g, (s.fileTable g).fdInode ≠ some h := by
  refine .get_bind fun s hs => ?_
  rw [post, wp_bind, wp_modify, wp_pure]
  refine ⟨⟨fun h hh => Nat.lt_succ_of_lt (hs.top h hh), fun g h hg => ?_, hs.pos, hs.room⟩,
    Nat.lt_succ_self _, fun g hg => ?_⟩
  · exact Nat.lt_succ_of_lt (hs.alloc g h hg)
  · exact Nat.lt_irrefl _ (hs.alloc g _ hg)

theorem Bounded.fill {h : ℕ} (hs : Bounded r s) (hnew : ∀ g, (s.fileTable g).fdInode ≠ some h)
    (i : Inode) : Bounded r (s.updInode h fun _ => i) := by
  have hold : ∀ g k, (s.fileTable g).fdInode = some k →
      (s.updInode h fun _ => i).inode k = s.inode k := by
    intro g k hk
    refine if_neg ?_
    rintro rfl
    exact hnew g hk
  refine ⟨hs.top, hs.alloc, fun g k hk => ?_, fun g k hk => ?_⟩
  · rw [hold g k hk]
    exact hs.pos g k hk
  · rw [hold g k hk]
    exact hs.room g k hk

theorem Bounded.push {h : ℕ} (hs : Bounded r s) (hh : h < s.inodeTop) :
    Bounded r { s with openInodes := h :: s.openInodes } :=
  ⟨fun k hk => (List.mem_cons.mp hk).elim (fun e => e ▸ hh) (hs.top k), hs.alloc, hs.pos, hs.room⟩

theorem inodeOpen_bounded (n : Word) : Triple (Bounded r) (inodeOpen part n)
    fun h s => Bounded r s ∧ h < s.inodeTop := by
  refine .get_bind fun s hs => ?_
  split
  · rename_i h hfind
    rw [post, wp_bind, wp_modify, wp_pure]
    exact ⟨hs.congr (sizes_updInode fun _ => rfl), hs.top h (List.mem_of_find?_eq_some hfind)⟩
  · refine Triple.bind (blind_sizes 0).sysMalloc.bounded (fun _ =>
      .bind (blind_sizes 0).sysMalloc.bounded fun _ => .bind (Keeps.check _ _).bounded fun _ =>
        .bind ((blind_sizes 0).onDisk _).bounded fun _ => .bind mallocInode_bounded
          fun h => ?_) s hs
    refine .bind (Q := fun _ s => Bounded r s ∧ h < s.inodeTop) (.modify ?_)
      fun _ => .pure fun _ h => h
    rintro s ⟨hs, hh, hnew⟩
    exact ⟨(hs.fill hnew _).push hh, hh⟩

theorem inodeClose_bounded (h : ℕ) : Triple (Bounded r) (inodeClose h) fun _ => Bounded r := by
  refine .bind (Q := fun _ => Bounded r)
    (.modify fun s hs => hs.congr (sizes_updInode fun _ => rfl))
    fun _ => .bind Keeps.get.bounded fun s => .ite (fun _ => .modify fun s hs => ?_) fun _ => ?_
  · exact ⟨fun k hk => hs.top k (List.mem_of_mem_erase hk), hs.alloc, hs.pos, hs.room⟩
  · exact .pure fun _ hs => hs

theorem dirOpen_bounded (n : Word) : Triple (Bounded r) (dirOpen part n) fun _ => Bounded r :=
  .bind (blind_sizes 0).sysMalloc.bounded fun _ => .bind (inodeOpen_bounded n) fun _ =>
    .bind ((Keeps.check _ _).bounded.mono (fun _ hs => hs.1) fun _ _ hs => hs) fun _ =>
      .pure fun _ hs => hs

theorem dirClose_bounded (dir : Dir) : Triple (Bounded r) (dirClose dir) fun _ => Bounded r :=
  .ite (fun _ => .pure fun _ hs => hs) fun _ => inodeClose_bounded _

theorem searchLoop_bounded (ns : List (List Byte)) : ∀ parent pno ino path,
    Triple (Bounded r) (searchLoop part ns parent pno ino path) fun _ => Bounded r := by
  induction ns with
  | nil =>
    exact fun _ _ _ _ => .bind (dirClose_bounded _) fun _ => .bind (dirOpen_bounded _) fun _ =>
      .pure fun _ hs => hs
  | cons name ns ih =>
    intro parent pno ino path
    refine .bind (Keeps.check _ _).bounded fun _ => .bind (Keeps.check _ _).bounded fun _ =>
      .bind ((blind_sizes 0).searchDirEntry _ _).bounded fun found => ?_
    cases found with
    | none => exact .pure fun _ hs => hs
    | some e =>
      refine .bind (Keeps.check _ _).bounded fun _ => .ite (fun _ => ?_) fun _ =>
        .ite (fun _ => .pure fun _ hs => hs) fun _ => ih _ _ _ _
      exact .bind Keeps.get.bounded fun _ => .bind (dirClose_bounded _) fun _ =>
        .bind (dirOpen_bounded _) fun _ => ih _ _ _ _

theorem searchFile_bounded (pathname : CString) :
    Triple (Bounded r) (searchFile part pathname) fun _ => Bounded r :=
  .bind Keeps.get.bounded fun _ => .ite (fun _ => .pure fun _ hs => hs) fun _ =>
    .bind (Keeps.check _ _).bounded fun _ => .bind sizes_uninit.bounded fun _ =>
      .bind (Keeps.check _ _).bounded fun _ => searchLoop_bounded _ _ _ _ _

theorem pathDepthCnt_bounded (pathname : List Byte) :
    Triple (Bounded r) (pathDepthCnt pathname) fun _ => Bounded r :=
  .bind (Keeps.check _ _).bounded fun _ => .ite (fun _ => .bind sizes_uninit.bounded fun _ =>
    .pure fun _ hs => hs) fun _ => .pure fun _ hs => hs

theorem pcbFdInstall_bounded (f : ℕ) : Triple (Bounded r) (pcbFdInstall f) fun _ => Bounded r := by
  refine Keeps.bounded (.bind .get fun s => ?_)
  split
  · exact .pure _
  · exact .bind (.modify fun _ => rfl) fun _ => .pure _

theorem Bounded.setEntry {h : ℕ} (hs : Bounded r s) (hh : h < s.inodeTop)
    (hroom : (s.inode h).iSize.toNat + r < 2 ^ 32) (f : ℕ) (flag : Word) :
    Bounded r (s.updFile f fun _ => ⟨0, flag, some h⟩) := by
  have hentry : ∀ g k, ((s.updFile f fun _ => ⟨0, flag, some h⟩).fileTable g).fdInode = some k →
      g = f ∧ k = h ∨ (s.updFile f fun _ => ⟨0, flag, some h⟩).fileTable g = s.fileTable g := by
    intro g k hk
    by_cases hg : g = f
    · simp only [updFile, if_pos hg, Option.some.injEq] at hk
      exact .inl ⟨hg, hk.symm⟩
    · exact .inr (if_neg hg)
  refine ⟨hs.top, fun g k hk => ?_, fun g k hk => ?_, fun g k hk => ?_⟩ <;>
    rcases hentry g k hk with ⟨rfl, rfl⟩ | hold
  · exact hh
  · exact hs.alloc g k (hold ▸ hk)
  · simp [updFile]
  · rw [hold] at hk ⊢
    exact hs.pos g k hk
  · exact hroom
  · exact hs.room g k (hold ▸ hk)

theorem Bounded.clearEntry (hs : Bounded r s) (f : ℕ) :
    Bounded r (s.updFile f fun _ => ⟨0, 0, none⟩) := by
  have hentry : ∀ g k, ((s.updFile f fun _ => ⟨0, 0, none⟩).fileTable g).fdInode = some k →
      (s.updFile f fun _ => ⟨0, 0, none⟩).fileTable g = s.fileTable g := by
    intro g k hk
    refine if_neg fun hg => ?_
    simp [updFile, hg] at hk
  refine ⟨hs.top, fun g k hk => ?_, fun g k hk => ?_, fun g k hk => ?_⟩ <;>
    have hold := hentry g k hk <;> rw [hold] at hk
  · exact hs.alloc g k hk
  · rw [hold]
    exact hs.pos g k hk
  · exact hs.room g k hk

theorem fileOpen_bounded (n flag : Word) :
    Triple (Bounded 0) (fileOpen part n flag) fun _ => Bounded 0 := by
  refine .bind (Keeps.bounded (.bind .get fun _ => .pure _)) fun slot => ?_
  cases slot with
  | none => exact .pure fun _ hs => hs
  | some f =>
    refine .bind (inodeOpen_bounded n) fun h => .bind (Q := fun _ => Bounded 0)
      (.modify fun s hs => hs.1.setEntry hs.2 (BitVec.isLt _) f flag) fun _ => ?_
    refine .bind Keeps.get.bounded fun s => .ite (fun _ => .ite (fun _ => .pure fun _ hs => hs)
      fun _ => ?_) fun _ => pcbFdInstall_bounded f
    refine .bind (Q := fun _ => Bounded 0) (.modify fun s hs => ?_) fun _ => pcbFdInstall_bounded f
    exact hs.congr (sizes_updInode fun _ => rfl)

/-- A file that grows by no more than there is room for. -/
theorem Bounded.enlarge {w : Word} (hs : Bounded r s) (hw : w.toNat ≤ r) (h : ℕ) :
    Bounded 0 (s.updInode h fun i => { i with iSize := i.iSize + w }) := by
  refine ⟨hs.top, hs.alloc, fun g k hk => ?_, fun g k hk => BitVec.isLt _⟩
  have hpos := hs.pos g k hk
  have hroom := hs.room g k hk
  simp only [updInode]
  split
  · rw [BitVec.toNat_add, Nat.mod_eq_of_lt (by omega)]
    omega
  · exact hpos

/-- What a new entry adds to the size of a directory. -/
def entryRoom (part : Partition) : ℕ := part.sb.dirEntrySize % 2 ^ 32

theorem growDir_bounded (h : ℕ) :
    Triple (Bounded (entryRoom part)) (growDir part h) fun _ => Bounded 0 :=
  .modify fun s hs => hs.enlarge (by rw [BitVec.toNat_ofNat]; exact Nat.le_refl _) h

theorem syncDirEntry_bounded (h : ℕ) (e : DirEntry) :
    Triple (Bounded (entryRoom part)) (syncDirEntry part h e) fun _ => Bounded 0 :=
  (blind_sizes h).syncDirEntry (fun _ _ heq hs => hs.congr heq) (fun _ hs => hs.mono)
    (growDir_bounded h) e

theorem sizes_undoInodeNo (n : Word) : Keeps sizes (undoInodeNo n) := fun _ => rfl

variable {h f : ℕ} {dir : Dir} {name : List Byte} {flag n : Word}

theorem Comp.Keeps.boundedWith {x : Kern FsState α} (hx : Keeps sizes x) :
    Triple (fun s => Bounded r s ∧ h < s.inodeTop) x fun _ s => Bounded r s ∧ h < s.inodeTop :=
  hx.triple fun _ _ hf hs => ⟨hs.1.congr hf, by
    have := congrArg (fun x => x.2.1) hf
    simp only [sizes] at this
    omega⟩

theorem createdFile_bounded : Triple (fun s => Bounded 0 s ∧ h < s.inodeTop)
    (createdFile part dir h f n) fun _ => Bounded 0 := by
  refine .bind Keeps.get.boundedWith fun _ => .bind ((blind_sizes 0).onDisk _).boundedWith fun _ =>
    .bind Keeps.get.boundedWith fun _ => .bind ((blind_sizes 0).onDisk _).boundedWith fun _ =>
      .bind ((blind_sizes 0).bitmapSync _ _).boundedWith fun _ => .bind (Q := fun _ => Bounded 0)
        (.modify fun s hs => ?_) fun _ => pcbFdInstall_bounded f
  have hnew : Bounded 0 (s.updInode h fun i => { i with iOpenCnts := 1 }) :=
    hs.1.congr (sizes_updInode fun _ => rfl)
  exact hnew.push hs.2

theorem createIn_bounded : Triple (fun s => Bounded (entryRoom part) s ∧ h < s.inodeTop ∧
      (s.inode h).iSize = 0) (createIn part dir name flag n h f) fun _ => Bounded 0 := by
  refine .bind (Q := fun _ s => Bounded (entryRoom part) s ∧ h < s.inodeTop)
    (.modify fun s ⟨hs, hh, h0⟩ => ⟨hs.setEntry hh ?_ f flag, hh⟩) fun _ => ?_
  · rw [h0]
    have : entryRoom part < 2 ^ 32 := Nat.mod_lt _ (by decide)
    simpa using this
  refine .bind (Keeps.boundedWith (.bind (.check _ _) fun _ => .pure _)) fun e => ?_
  refine .bind (Q := fun _ s => Bounded 0 s ∧ h < s.inodeTop) (fun s hs => ?_) fun ok => ?_
  · -- the directory may be longer now, but there is no other new inode
    have hblind : Blind FsState.inodeTop dir.inode :=
      ⟨⟨fun _ _ => rfl, fun _ _ _ => rfl, fun _ _ => rfl, fun _ _ => rfl⟩, fun _ _ => rfl⟩
    refine ((hblind.syncDirEntry e).and (syncDirEntry_bounded dir.inode e s hs.1)).mono
      (fun _ s' hs' => ⟨hs'.1, ?_⟩) fun _ h => h
    rw [hs'.2]
    exact hs.2
  · refine .ite (fun _ => createdFile_bounded) fun _ => ?_
    refine .bind (Q := fun _ => Bounded 0) (.modify fun s hs => hs.1.clearEntry f) fun _ => ?_
    exact .bind (sizes_undoInodeNo n).bounded fun _ => .pure fun _ hs => hs

theorem createFile_bounded : Triple (Bounded (entryRoom part)) (createFile part dir name flag n)
    fun _ => Bounded 0 := by
  have hundo : Triple (Bounded (entryRoom part)) (undoInodeNo n >>= fun _ => pure (-1 : Int))
      fun _ => Bounded 0 :=
    .bind (sizes_undoInodeNo n).bounded fun _ => .pure fun _ hs => hs.mono
  refine .bind (blind_sizes 0).sysMalloc.bounded fun _ => .ite (fun _ => ?_) fun _ => hundo
  refine .bind mallocInode_bounded fun h => ?_
  refine .bind (Q := fun _ s => Bounded (entryRoom part) s ∧ h < s.inodeTop ∧
    (s.inode h).iSize = 0) (.modify fun s ⟨hs, hh, hnew⟩ => ⟨hs.fill hnew _, hh, ?_⟩) fun _ => ?_
  · simp [updInode, inodeInit]
  refine .get_bind fun s hs => ?_
  split
  · exact hundo s hs.1
  · exact createIn_bounded s hs

theorem fileCreate_bounded : Triple (Bounded (entryRoom part)) (fileCreate part dir name flag)
    fun _ => Bounded 0 := by
  have halloc : Keeps sizes inodeBitmapAlloc :=
    .bind .get fun _ => .bind (.lift _) fun _ => .ite (.pure _)
      (.bind (.modify fun _ => rfl) fun _ => .pure _)
  exact .bind (blind_sizes 0).sysMalloc.bounded fun _ =>
    .ite (fun _ => .bind halloc.bounded fun _ =>
    .ite (fun _ => .pure fun _ hs => hs.mono) fun _ => createFile_bounded)
      fun _ => .pure fun _ hs => hs.mono

/-- **`sys_open`.** -/
theorem bounded_open {pathname : CString} {flags : Word}
    (hr : hasCreat flags = true → r = entryRoom part) :
    Triple (Bounded r) (sysOpen part pathname flags) fun _ => Bounded 0 := by
  have hfail : ∀ dir, Triple (Bounded r) (dirClose dir >>= fun _ => pure (-1 : Int))
      fun _ => Bounded 0 :=
    fun dir => .bind (dirClose_bounded dir) fun _ => .pure fun _ hs => hs.mono
  refine .bind (Keeps.check _ _).bounded fun _ => .ite (fun _ => .pure fun _ hs => hs.mono) fun _ =>
    .bind (Keeps.check _ _).bounded fun _ => .bind (pathDepthCnt_bounded _) fun depth =>
      .bind (searchFile_bounded pathname) ?_
  rintro ⟨n, rec⟩
  refine .ite (fun _ => hfail _) fun _ => .bind (pathDepthCnt_bounded _) fun searched =>
    .ite (fun _ => hfail _) fun _ => .ite (fun hcreat => ?_) fun _ => ?_
  · rw [hr hcreat]
    exact .bind fileCreate_bounded fun _ => .bind (dirClose_bounded _) fun _ => .pure fun _ hs => hs
  · exact (fileOpen_bounded n flags).mono (fun _ hs => hs.mono) fun _ _ hs => hs

/-! ### Seeking -/

/-- A position may be set to anything in the file. -/
theorem Bounded.setPos {g : ℕ} (hs : Bounded r s) (p : File → Word)
    (hp : ∀ h, (s.fileTable g).fdInode = some h →
      (p (s.fileTable g)).toNat ≤ (s.inode h).iSize.toNat) :
    Bounded r (s.updFile g fun e => { e with fdPos := p e }) := by
  have hinode : ∀ k, ((s.updFile g fun e => { e with fdPos := p e }).fileTable k).fdInode =
      (s.fileTable k).fdInode := by
    intro k
    simp only [updFile]
    split <;> rfl
  refine ⟨hs.top, fun k h hk => ?_, fun k h hk => ?_, fun k h hk => ?_⟩ <;> rw [hinode k] at hk
  · exact hs.alloc k h hk
  · simp only [updFile]
    split
    · rename_i hkg
      subst hkg
      exact hp h hk
    · exact hs.pos k h hk
  · exact hs.room k h hk

/-- The comparison of `sys_lseek`, which is one of signed numbers. -/
theorem seek_lt {pos size : Word} (h1 : 0 ≤ pos.toInt) (h2 : pos.toInt ≤ (size - 1).toInt) :
    pos.toNat < size.toNat := by
  rw [BitVec.toInt_eq_toNat_cond] at h1 h2
  rw [BitVec.toInt_eq_toNat_cond, BitVec.toNat_sub] at h2
  have := pos.isLt
  have := size.isLt
  have : (1 : Word).toNat = 1 := rfl
  split at h1 <;> split at h2 <;> split at h2 <;> omega

/-- **`sys_lseek`** sets a position in the file. -/
theorem bounded_lseek (fd : Int) (offset : Word) (whence : Byte) :
    Triple (Bounded 0) (sysLseek fd offset whence) fun _ => Bounded 0 := by
  refine .ite (fun _ => .pure fun _ hs => hs) fun _ => .bind (Keeps.check _ _).bounded fun _ =>
    .bind (keeps_fdLocal2global fd).bounded fun g => .get_bind fun s hs => ?_
  split
  · exact trivial
  · rename_i h hg
    rw [seek]
    split
    · exact hs
    · rename_i hpos
      rw [not_or, Int.not_lt, Int.not_lt] at hpos
      rw [post, wp_bind, wp_modify, wp_pure]
      refine hs.setPos (fun _ => newPos whence (s.fileTable g).fdPos (fdSize s g h) offset) ?_
      intro k hk
      obtain rfl : h = k := Option.some.inj (hg.symm.trans hk)
      have hlt := seek_lt hpos.1 hpos.2
      -- what a pipe has for its size is 1, which leaves position 0
      have hsize : fdSize s g h = 1 ∨ fdSize s g h = (s.inode h).iSize := by
        rw [fdSize]
        split
        · exact .inl rfl
        · exact .inr rfl
      rcases hsize with h1 | hsize
      · rw [h1] at hlt ⊢
        have : (1 : Word).toNat = 1 := rfl
        omega
      · rw [hsize] at hlt ⊢
        exact hlt.le

/-- A seek that returns -1 has done nothing. -/
theorem lseek_fail {fd : Int} {offset : Word} {whence : Byte}
    (hrun : sysLseek fd offset whence s = .ok (-1, s')) : s' = s := by
  have hpost : post (sysLseek fd offset whence) (fun ret s' => ret = -1 → s' = s) s := by
    rw [sysLseek]
    split
    · exact fun _ => rfl
    rw [post, wp_bind, wp_ASSERT]
    refine ⟨fun _ => ?_, fun _ => trivial⟩
    rw [wp_bind]
    refine fdLocal2global_post fun _ _ _ _ => ?_
    rw [wp_bind, wp_get]
    split
    · trivial
    rw [seek]
    split
    · exact fun _ => rfl
    · rename_i hpos
      rw [wp_bind, wp_modify, wp_pure]
      intro hret
      rw [hret] at hpos
      exact absurd (.inl (by decide)) hpos
  exact hpost.ok hrun rfl

/-! ### Writing -/

/-- The state in the data loop of `file_write`: the file is `size` bytes long, the position of the
entry that is written to is one less as a 32-bit number, and the other positions are in bounds. -/
structure Writing (f h size : ℕ) (s : FsState) : Prop where
  top : ∀ h ∈ s.openInodes, h < s.inodeTop
  alloc : ∀ g h, (s.fileTable g).fdInode = some h → h < s.inodeTop
  others : ∀ g k, g ≠ f → (s.fileTable g).fdInode = some k →
    (s.fileTable g).fdPos.toNat ≤ (s.inode k).iSize.toNat
  entry : (s.fileTable f).fdInode = some h
  size : (s.inode h).iSize.toNat = size
  pos : (s.fileTable f).fdPos = (s.inode h).iSize - 1

theorem Writing.congr {size : ℕ} (hs : Writing f h size s) (heq : sizes s' = sizes s) :
    Writing f h size s' := by
  simp only [sizes, Prod.mk.injEq] at heq
  obtain ⟨hopen, htop, hfile, hsize⟩ := heq
  have hsize' : ∀ k, (s'.inode k).iSize = (s.inode k).iSize := fun k => congrFun hsize k
  exact ⟨by rw [hopen, htop]; exact hs.top, by rw [hfile, htop]; exact hs.alloc,
    by simpa only [hfile, hsize'] using hs.others, by rw [hfile]; exact hs.entry,
    by rw [hsize']; exact hs.size, by rw [hfile, hsize']; exact hs.pos⟩

theorem Writing.start (hs : Bounded 0 s) (hf : (s.fileTable f).fdInode = some h) :
    Writing f h (s.inode h).iSize.toNat
      (s.updFile f fun e => { e with fdPos := (s.inode h).iSize - 1 }) := by
  have hinode : ∀ k, ((s.updFile f fun e =>
      { e with fdPos := (s.inode h).iSize - 1 }).fileTable k).fdInode =
        (s.fileTable k).fdInode := by
    intro k
    simp only [updFile]
    split <;> rfl
  refine ⟨hs.top, fun g k hk => hs.alloc g k (hinode g ▸ hk), fun g k hg hk => ?_,
    (hinode f).trans hf, rfl, ?_⟩
  · rw [hinode] at hk
    simpa only [updFile, if_neg hg] using hs.pos g k hk
  · simp only [updFile, if_pos]

/-- One round of the loop: both the size and the position move on. -/
theorem Writing.advance {size c : ℕ} (hs : Writing f h size s) (hc : size + c < 2 ^ 32) :
    Writing f h (size + c)
      ((s.updInode h fun i => { i with iSize := i.iSize + BitVec.ofNat 32 c }).updFile
      f fun e => { e with fdPos := e.fdPos + BitVec.ofNat 32 c }) := by
  have hnat : ((s.inode h).iSize + BitVec.ofNat 32 c).toNat = size + c := by
    rw [BitVec.toNat_add, BitVec.toNat_ofNat, hs.size, Nat.add_mod_mod, Nat.mod_eq_of_lt hc]
  have hinode : ∀ k,
      (((s.updInode h fun i => { i with iSize := i.iSize + BitVec.ofNat 32 c }).updFile f
      fun e => { e with fdPos := e.fdPos + BitVec.ofNat 32 c }).fileTable k).fdInode =
        (s.fileTable k).fdInode := by
    intro k
    simp only [updFile]
    split <;> rfl
  refine ⟨hs.top, fun g k hk => hs.alloc g k (hinode g ▸ hk), fun g k hg hk => ?_,
    (hinode f).trans hs.entry, ?_, ?_⟩
  · rw [hinode] at hk
    have hold := hs.others g k hg hk
    simp only [updFile, updInode, if_neg hg]
    split
    · rename_i hkh
      subst hkh
      rw [hnat]
      have := hs.size
      omega
    · exact hold
  · simpa only [updFile, updInode, if_pos] using hnat
  · simp only [updFile, updInode, if_pos, hs.pos]
    bv_omega

theorem Writing.bounded {size : ℕ} (hs : Writing f h size s) (hsize : 0 < size) : Bounded 0 s := by
  refine ⟨hs.top, hs.alloc, fun g k hk => ?_, fun _ _ _ => BitVec.isLt _⟩
  by_cases hg : g = f
  · subst hg
    obtain rfl : h = k := Option.some.inj (hs.entry.symm.trans hk)
    have := hs.size
    have h1 : (1 : Word).toNat = 1 := rfl
    rw [hs.pos, BitVec.toNat_sub, hs.size, h1]
    have := (s.inode h).iSize.isLt
    omega
  · exact hs.others g k hg hk

theorem writeLoop_writing {all : ℕ → Word} {src : Buf} {size count : ℕ}
    (hfit : size + count < 2 ^ 32)
    (fuel : ℕ) : ∀ written first io, written ≤ count →
      Triple (Writing f h (size + written)) (writeLoop f h all src count fuel written first io)
        fun _ => Writing f h (size + count) := by
  induction fuel with
  | zero => exact fun _ _ _ _ => .stop _
  | succ fuel ih =>
    intro written first io hle
    refine .ite (fun hlt => ?_) fun hge => .pure fun s hs => ?_
    · refine .get_bind fun s hs => ?_
      dsimp only
      generalize hchunk : min (count - written) (512 - (s.inode h).iSize.toNat % 512) = c
      have hc : written + c ≤ count := by omega
      refine Triple.bind (Q := fun _ => Writing f h (size + written)) ((Keeps.check _ _).triple
        fun _ _ heq hs => hs.congr heq) (fun _ => ?_) s hs
      refine .bind (Q := fun _ => Writing f h (size + written)) (((blind_sizes 0).writeSector
        _ _ _ _ _).triple fun _ _ heq hs => hs.congr heq) fun io => ?_
      refine fun s hs => ?_
      rw [post, wp_bind, wp_modify, wp_bind, wp_modify]
      refine ih (written + c) false io hc _ ?_
      have := hs.advance (c := c) (by omega)
      rwa [Nat.add_assoc] at this
    · obtain rfl : written = count := by omega
      exact hs

theorem writeData_bounded {all : ℕ → Word} {buf : Buf} {count : Word} (hs : Bounded 0 s)
    (hf : (s.fileTable f).fdInode = some h) (hfit : WriteFits (s.inode h).iSize count) :
    post (writeData part f h all buf count) (fun _ => Bounded 0) s := by
  rw [writeData, post, wp_bind, wp_modify]
  refine Triple.bind (P := Writing f h (s.inode h).iSize.toNat) (writeLoop_writing hfit.2 _ 0 true _
    (Nat.zero_le _)) (fun io => ?_) _ (Writing.start hs hf)
  refine .get_bind fun s' hs' => ?_
  refine ((blind_sizes 0).onDisk _).bind_post fun _ s'' heq => ?_
  exact (hs'.bounded hfit.1).congr heq

/-- `file_write` up to the data loop leaves sizes and positions alone. -/
theorem fileWriteAt_bounded {buf : Buf} {count : Word} (hs : Bounded 0 s)
    (hf : (s.fileTable f).fdInode = some h) (hfit : WriteFits (s.inode h).iSize count) :
    post (fileWriteAt part f h buf count) (fun _ => Bounded 0) s := by
  -- all that is needed of the state can be seen in `sizes`
  have hkept : ∀ s', sizes s' = sizes s → Bounded 0 s' ∧ (s'.fileTable f).fdInode = some h ∧
      WriteFits (s'.inode h).iSize count := by
    intro s' heq
    refine ⟨hs.congr heq, ?_⟩
    simp only [sizes, Prod.mk.injEq] at heq
    rw [heq.2.2.1, congrFun heq.2.2.2 h]
    exact ⟨hf, hfit⟩
  have hblind := blind_sizes h
  rw [fileWriteAt, post, wp_bind, wp_get]
  split
  · exact hs
  refine hblind.sysMalloc.bind_post fun _ s1 h1 => ?_
  split
  · refine hblind.sysMalloc.bind_post fun _ s2 h2 => ?_
    split
    · refine hblind.firstBlock.bind_post fun _ s3 h3 => ?_
      split
      · rw [writeBlocks, post, wp_bind, wp_get, wp_bind, wp_ASSERT]
        refine ⟨fun _ => ?_, fun _ => trivial⟩
        refine (hblind.collectBlocks _ _).bind_post fun all s4 h4 => ?_
        obtain ⟨hb, hf', hfit'⟩ := hkept s4 (h4.trans (h3.trans (h2.trans h1)))
        cases all with
        | none => exact hb
        | some all => exact writeData_bounded hb hf' hfit'
      · exact (hkept s3 (h3.trans (h2.trans h1))).1
    · exact (hkept s2 (h2.trans h1)).1
  · exact (hkept s1 h1).1

/-- **`sys_write`** of something, or to a file that is not empty. -/
theorem bounded_write {fd : Int} {buf : Buf} {count : Word} (hs : Bounded 0 s)
    (hfit : ∀ h, (s.fileTable (fdEntry s s.cur fd)).fdInode = some h →
      WriteFits (s.inode h).iSize count) :
    post (sysWrite part fd buf count) (fun _ => Bounded 0) s := by
  rw [sysWrite]
  split
  · exact hs
  have hpipe : Keeps id (isPipe fd) := keeps_isPipe fd
  refine hpipe.bind_post fun pipe s1 h1 => ?_
  obtain rfl : s1 = s := h1
  split
  · exact sizes_uninit.bounded s1 hs
  split
  · rw [post, wp_bind, wp_check]
    exact ⟨fun _ => hs, fun _ => trivial⟩
  rw [writeFile, post, wp_bind]
  refine fdLocal2global_post fun f _ _ hfd => ?_
  have hf : fdEntry s1 s1.cur fd = f := by rw [fdEntry, hfd]; rfl
  rw [wp_bind, wp_get]
  split
  · rw [fileWrite, wp_bind, wp_get]
    split
    · trivial
    · rename_i h hh
      exact fileWriteAt_bounded hs hh (hfit h (hf ▸ hh))
  · exact hs

/-! ### Reading -/

/-- The state in the data loop of `file_read`, at position `p` of a file of `n` bytes. -/
structure Reading (f h p n : ℕ) (s : FsState) : Prop extends Bounded 0 s where
  entry : (s.fileTable f).fdInode = some h
  here : (s.fileTable f).fdPos.toNat = p
  size : (s.inode h).iSize.toNat = n

theorem Reading.advance {p n c : ℕ} (hs : Reading f h p n s) (hc : p + c ≤ n) :
    Reading f h (p + c) n
      (s.updFile f fun e => { e with fdPos := e.fdPos + BitVec.ofNat 32 c }) := by
  have hlt := (s.inode h).iSize.isLt
  have hsize := hs.size
  have hnat : ((s.fileTable f).fdPos + BitVec.ofNat 32 c).toNat = p + c := by
    rw [BitVec.toNat_add, BitVec.toNat_ofNat, hs.here, Nat.add_mod_mod, Nat.mod_eq_of_lt (by omega)]
  refine ⟨hs.setPos (fun e => e.fdPos + BitVec.ofNat 32 c) fun k hk => ?_, ?_, ?_, hs.size⟩
  · obtain rfl : h = k := Option.some.inj (hs.entry.symm.trans hk)
    omega
  · simpa only [updFile, if_pos] using hs.entry
  · simpa only [updFile, if_pos] using hnat

theorem readLoop_wp {all : ℕ → Word} {gotBuf : Bool} {p count n : ℕ} (hfit : p + count ≤ n)
    (fuel : ℕ) : ∀ {bytesRead : ℕ} {dst : Buf} {s : FsState}, bytesRead ≤ count →
      Reading f h (p + bytesRead) n s →
      wp (readLoop f all gotBuf count fuel bytesRead dst) (fun _ => Bounded 0)
        (· ≠ .panic .fileRead) s := by
  induction fuel with
  | zero =>
    intro bytesRead dst s _ _
    simp [readLoop]
  | succ fuel ih =>
    intro bytesRead dst s hle hs
    rw [readLoop]
    split
    · rw [wp_bind, wp_get]
      dsimp only
      generalize hchunk : min (count - bytesRead) (512 - (s.fileTable f).fdPos.toNat % 512) = c
      have hc : bytesRead + c ≤ count := by omega
      have hnext := hs.advance (c := c) (by omega)
      rw [Nat.add_assoc] at hnext
      simp only [wp_bind, wp_check, wp_onDisk,
        wp_ideRead Nat.one_pos (by decide : 1 ≤ 256), wp_modify]
      exact ⟨fun _ => ⟨fun _ => ih hc hnext, fun _ => by simp⟩, fun _ => by simp⟩
    · exact hs.toBounded

/-- Of the `ASSERT`s of `file_read`, the one about the table is all that collecting blocks can
fail. -/
theorem collectRead_wp {inode : Inode} {first last : ℕ} {Q : (ℕ → Word) → FsState → Prop}
    (hQ : ∀ all, Q all s) : wp (collectRead inode first last) Q
      (fun e => e = .panic .fileRead → inode.iSectors 12 = 0) s := by
  have htable : ∀ b, wp (readTable (inode.iSectors 12) b) Q
      (fun e => e = .panic .fileRead → inode.iSectors 12 = 0) s := by
    intro b
    simp only [readTable, wp_bind, wp_onDisk, wp_ideRead Nat.one_pos (by decide : 1 ≤ 256), wp_pure]
    exact ⟨fun _ => hQ _, fun _ => by simp⟩
  have hassert : ∀ b, wp (ASSERT .fileRead (inode.iSectors 12 != 0) >>= fun _ =>
      readTable (inode.iSectors 12) b) Q
      (fun e => e = .panic .fileRead → inode.iSectors 12 = 0) s := by
    intro b
    rw [wp_bind, wp_ASSERT]
    exact ⟨fun _ => htable b, fun hno _ => by simpa using hno⟩
  rw [collectRead]
  split
  · split
    · exact hQ _
    · exact htable _
  split
  · exact hQ _
  split
  · exact hassert _
  · exact hassert _

theorem readData_wp {dst : Buf} {size : Word} (hs : Bounded 0 s)
    (hf : (s.fileTable f).fdInode = some h)
    (hfit : (s.fileTable f).fdPos.toNat + size.toNat ≤ (s.inode h).iSize.toNat)
    (hend : (s.fileTable f).fdPos.toNat + size.toNat < 139 * 512) :
    wp (readData f h dst size) (fun _ => Bounded 0)
      (fun e => e = .panic .fileRead → (s.inode h).iSectors 12 = 0) s := by
  have hlt := (s.inode h).iSize.isLt
  have hsum : ((s.fileTable f).fdPos + size).toNat = (s.fileTable f).fdPos.toNat + size.toNat := by
    rw [BitVec.toNat_add, Nat.mod_eq_of_lt (by omega)]
  rw [readData, wp_bind, wp_sysMalloc, wp_bind, wp_sysMalloc]
  split
  · rw [wp_bind, wp_get, wp_bind, wp_ASSERT]
    refine ⟨fun _ => ?_, fun hno => ?_⟩
    · rw [wp_bind]
      refine collectRead_wp fun all => ?_
      rw [wp_bind]
      refine wp.mono (readLoop_wp hfit _ (Nat.zero_le _) ⟨hs.congr rfl, hf, rfl, rfl⟩) ?_ ?_
      · exact fun _ _ hs' => hs'
      · exact fun e he hp => absurd hp he
    · refine absurd hno ?_
      simp only [hsum, Bool.and_eq_false_iff, decide_eq_false_iff_not, not_or,
        Nat.not_lt, Nat.not_le]
      omega
  · exact hs.congr rfl

theorem fileReadAt_wp {dst : Buf} {count : Word} (hs : Bounded 0 s)
    (hf : (s.fileTable f).fdInode = some h)
    (hfit : ReadFits (s.fileTable f).fdPos (s.inode h).iSize count) :
    wp (fileReadAt f h dst count) (fun _ => Bounded 0)
      (fun e => e = .panic .fileRead → (s.inode h).iSectors 12 = 0) s := by
  have hpos := hs.pos f h hf
  obtain ⟨hwrap, hend⟩ := hfit
  have hsum : ((s.fileTable f).fdPos + count).toNat =
      (s.fileTable f).fdPos.toNat + count.toNat := by
    rw [BitVec.toNat_add, Nat.mod_eq_of_lt hwrap]
  have hleft : ((s.inode h).iSize - (s.fileTable f).fdPos).toNat =
      (s.inode h).iSize.toNat - (s.fileTable f).fdPos.toNat := BitVec.toNat_sub_of_le hpos
  rw [fileReadAt, wp_bind, wp_get]
  dsimp only
  rw [hsum]
  split
  · split
    · exact hs
    · rename_i hne
      have hne' : ((s.inode h).iSize - (s.fileTable f).fdPos).toNat ≠ 0 := fun hz =>
        hne (BitVec.eq_of_toNat_eq hz)
      exact readData_wp hs hf (by omega) (by omega)
  · exact readData_wp hs hf (by omega) (by omega)

theorem takeChars_wp {Q : Buf → FsState → Prop} {E : Fault → Prop} (left : ℕ) :
    ∀ {n : ℕ} {dst : Buf} {s : FsState}, (∀ dst s', sizes s' = sizes s → Q dst s') →
      wp (takeChars left n dst) Q E s := by
  induction left with
  | zero => exact fun hQ => hQ _ _ rfl
  | succ left ih =>
    intro n dst s hQ
    rw [takeChars, wp_bind, wp_uninit]
    exact ih fun dst s' h => hQ dst s' h

theorem fdLocal2global_wp {fd : Int} {Q : ℕ → FsState → Prop} {E : Fault → Prop}
    (hQ : Q (fdEntry s s.cur fd) s) (hwild : E .wild) (hpanic : E (.panic .fdLocal2global)) :
    wp (fdLocal2global fd) Q E s := by
  rw [fdLocal2global, wp_bind, wp_check]
  refine ⟨fun _ => ?_, fun _ => hwild⟩
  rw [wp_bind, wp_get]
  dsimp only
  rw [wp_bind, wp_ASSERT]
  exact ⟨fun _ => hQ, fun _ => hpanic⟩

/-- **`sys_read`** that ends before block 139, or that is at the end of the file. -/
theorem bounded_read {fd : Int} {buf : Option Buf} {count : Word} (hs : Bounded 0 s)
    (hfit : ∀ h, (s.fileTable (fdEntry s s.cur fd)).fdInode = some h →
      ReadFits (s.fileTable (fdEntry s s.cur fd)).fdPos (s.inode h).iSize count) :
    wp (sysRead fd buf count) (fun _ => Bounded 0) (fun e => e = .panic .fileRead →
      ∃ h, (s.fileTable (fdEntry s s.cur fd)).fdInode = some h ∧
        (s.inode h).iSectors 12 = 0) s := by
  cases buf with
  | none => simp [sysRead]
  | some dst =>
    rw [sysRead]
    dsimp only
    split
    · exact hs
    rw [wp_bind, readFile, wp_bind, isPipe, wp_bind]
    refine fdLocal2global_wp ?_ (by simp) (by simp)
    rw [wp_bind, wp_get, wp_pure]
    split
    · rw [pipeRead, wp_bind]
      refine fdLocal2global_wp ?_ (by simp) (by simp)
      rw [wp_bind, wp_uninit, wp_bind]
      exact takeChars_wp _ fun _ s' heq => hs.congr heq
    split
    · rw [readKeyboard, wp_bind]
      exact takeChars_wp _ fun _ s' heq => hs.congr heq
    rw [wp_bind]
    refine fdLocal2global_wp ?_ (by simp) (by simp)
    rw [fileRead, wp_bind, wp_get]
    split
    · simp
    · rename_i h hh
      refine wp.mono (fileReadAt_wp hs hh (hfit h hh)) (fun _ _ hs' => hs') ?_
      exact fun e he hp => ⟨h, hh, he hp⟩

/-! ### Runs -/

theorem bounded_step {a : OffsetAct} (hs : Bounded 0 s) (hok : OffsetOk part s a)
    (hstep : (offsetSys part).step s a s') : Bounded 0 s' := by
  have henter : Bounded 0 { s with cur := a.proc } := hs.congr rfl
  cases a with
  | «open» p pathname flags =>
    obtain ⟨_, hrun⟩ := ok_of_state? hstep
    by_cases hcreat : hasCreat flags = true
    · have hroom : Bounded (entryRoom part) { s with cur := p } := by
        refine ⟨hs.top, hs.alloc, hs.pos, fun g h hg => ?_⟩
        have := hok hcreat g h hg
        have : entryRoom part ≤ part.sb.dirEntrySize := Nat.mod_le _ _
        dsimp only
        omega
      exact (bounded_open (fun _ => rfl) _ hroom).ok hrun
    · exact (bounded_open (fun h => absurd h hcreat) _ henter).ok hrun
  | write p fd buf count =>
    obtain ⟨_, hrun⟩ := ok_of_state? hstep
    exact (bounded_write henter hok).ok hrun
  | read p fd buf count =>
    obtain ⟨_, hrun⟩ := ok_of_state? hstep
    exact (bounded_read henter hok).ok hrun
  | lseek p fd offset whence =>
    obtain ⟨_, hrun⟩ := ok_of_state? hstep
    exact (bounded_lseek fd offset whence _ henter).ok hrun

/-- **Positions stay in the file.** In every state of a run whose calls are all as `OffsetOk` has
them, every position is at most the size of its file. The next read, if it is as `OffsetOk` has it,
is at the end of the file, or begins and ends before block 139, which is what an `ASSERT` of
`file_read` asks for: what fails there is at most the one about a table that the file does not have.
The next seek does not fail its `ASSERT`, and one that returns -1 has changed nothing. -/
theorem offsets_bounded (hr : (offsetSys part).Reach (OffsetOk part) s) :
    (∀ g h, (s.fileTable g).fdInode = some h →
      (s.fileTable g).fdPos.toNat ≤ (s.inode h).iSize.toNat) ∧
    (∀ p fd buf count h, OffsetOk part s (.read p fd buf count) →
      (s.fileTable (fdEntry s p fd)).fdInode = some h →
        let pos := (s.fileTable (fdEntry s p fd)).fdPos.toNat
        pos = (s.inode h).iSize.toNat ∧ 0 < count.toNat ∨
          pos / 512 < 139 ∧ min (pos + count.toNat) (s.inode h).iSize.toNat / 512 < 139) ∧
    (∀ p fd buf count, OffsetOk part s (.read p fd buf count) →
      sysRead fd buf count { s with cur := p } = .error (.panic .fileRead) →
        ∃ h, (s.fileTable (fdEntry s p fd)).fdInode = some h ∧ (s.inode h).iSectors 12 = 0) ∧
    (∀ p fd offset whence, OffsetOk part s (.lseek p fd offset whence) →
      sysLseek fd offset whence { s with cur := p } ≠ .error (.panic .sysLseek)) ∧
    ∀ p fd offset whence s', sysLseek fd offset whence { s with cur := p } = .ok (-1, s') →
      s'.fileTable = s.fileTable := by
  have hs : Bounded 0 s := by
    refine hr.invariant (fun s hs => ?_) fun s a s' hs hok hstep => bounded_step hs hok hstep
    refine ⟨hs.2, fun g h hg => ?_, fun g h hg => ?_, fun g h hg => BitVec.isLt _⟩ <;>
      rw [hs.1 g] at hg <;> cases hg
  refine ⟨hs.pos, fun p fd buf count h hok hh => ?_, fun p fd buf count hok hrun => ?_,
    fun p fd offset whence hok hrun => ?_, ?_⟩
  · have hpos := hs.pos _ h hh
    have hend := (hok h hh).2
    dsimp only
    omega
  · have henter : Bounded 0 { s with cur := p } := hs.congr rfl
    exact (bounded_read henter hok).error hrun rfl
  · have hwp : wp (sysLseek fd offset whence) (fun _ _ => True) (· ≠ .panic .sysLseek)
        { s with cur := p } := by
      rw [sysLseek]
      split
      · trivial
      rw [wp_bind, wp_ASSERT]
      refine ⟨fun _ => ?_, fun hno => (of_decide_eq_false hno hok).elim⟩
      rw [wp_bind]
      refine fdLocal2global_wp ?_ (by simp) (by simp)
      rw [wp_bind, wp_get]
      split
      · simp
      · rw [seek]
        split
        · trivial
        · trivial
    exact hwp.error hrun rfl
  · intro p fd offset whence s' hrun
    rw [lseek_fail hrun]

end

/-! ### A write of nothing -/

theorem rootOnly_init (part : Partition) : (offsetSys part).init rootOnly := by
  refine ⟨fun _ => rfl, fun h hh => ?_⟩
  obtain rfl : h = 0 := List.mem_singleton.mp hh
  exact Nat.one_pos

/-- The file "/a" has just been created, and its position is in it. -/
theorem offsets_bounded_created : ∃ s, (offsetSys smallPart).Reach (OffsetOk smallPart) s ∧
    ∃ h, (s.fileTable 3).fdInode = some h ∧
      (s.fileTable 3).fdPos.toNat ≤ (s.inode h).iSize.toNat := by
  have hrun : state? (sysOpen smallPart pathA 6) { rootOnly with cur := 1 } = some _ :=
    state?_of_value? (a := 3) (by decide)
  have hreach : (offsetSys smallPart).Reach (OffsetOk smallPart) _ :=
    .step (l := .open 1 pathA 6) (.init (rootOnly_init smallPart))
    (fun _ g h hg => by cases hg) hrun
  exact ⟨_, hreach, 1, by decide, (offsets_bounded hreach).1 3 1 (by decide)⟩

/-- **A position before the start.** Nothing is written to a file that has just been created. -/
theorem offset_before_start : ∃ s, (offsetSys smallPart).Reachable s ∧
    ∃ h, (s.fileTable 3).fdInode = some h ∧
      (s.inode h).iSize = 0 ∧ (s.fileTable 3).fdPos = 0xffffffff := by
  obtain ⟨s, hs, hP⟩ : ∃ s, (offsetSys smallPart).Reachable s ∧
      decide ((s.fileTable 3).fdInode = some 1 ∧ (s.inode 1).iSize = 0 ∧
        (s.fileTable 3).fdPos = 0xffffffff) = true :=
    TransSys.exists_reachable (rootOnly_init smallPart)
      [OffsetAct.open 1 pathA 6, OffsetAct.write 1 3 (fun _ => 0) 0] (by decide +kernel)
  exact ⟨s, hs, 1, of_decide_eq_true hP⟩

end X86Os
