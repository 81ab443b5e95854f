import X86Os.Fs.Tables
import X86Os.Lib.TransSys

/-!
# Descriptors across fork

A descriptor of a process is an index into its `fd_table`, which holds an index into the
system-wide `file_table`. `fork` copies the table of the parent, so parent and child refer to the
same entries of `file_table`, and counts the inodes of those entries up. `file_close` counts the
inode down again, but it also clears the entry, whoever else refers to it.

The system here has any number of processes and kernel threads that start, open, fork, close and
exit, one call at a time. Besides the file system it keeps what the property is about: which inode
each descriptor was opened on. A close or an exit is *private* if no other live process has a
descriptor for the same entry of `file_table`; as long as every close and exit is private,
descriptors stay put, and the first one that is not breaks them.

`inode_open` takes the memory for an inode from the kernel's heap, `file_create` takes it from the
heap of the caller (file.c:134). An inode that a *process* created is therefore at an address that
means nothing to the other processes, a fork copies it, and `inode_close`, which gives it back to
the kernel's heap, fails an assertion of `sys_free`. The runs here that are shown to be in order
create their files in kernel threads, where the two heaps are one.
-/

namespace X86Os

open X86Os.Comp FsState

/-! ### fork and exit, as far as descriptors go -/

/-- One round of `update_inode_open_cnts`: a descriptor of the child, on entry `g` of
`file_table`. -/
def countFd (fd : ℕ) (g : Int) : Kern FsState Unit :=
  if g ≠ -1 then do
    let pipe ← isPipe fd
    let s ← get
    if pipe then modify fun s => s.updFile g.toNat fun e => { e with fdPos := e.fdPos + 1 }
    else
      match (s.fileTable g.toNat).fdInode with
      | none => stop .wild
      | some h => modify fun s => s.updInode h fun i => { i with iOpenCnts := i.iOpenCnts + 1 }
  else pure ()

/-- The loop of `update_inode_open_cnts` over the descriptors of a process, with `left` of them to
go. -/
def updateInodeOpenCnts (child : ℕ) : (left : ℕ) → (fd : ℕ) → Kern FsState Unit
  | 0, _ => pure ()
  | left + 1, fd => do
    let s ← get
    ASSERT .updateInodeOpenCnts (decide (s.fdTable child fd < maxFileOpen))
    countFd fd (s.fdTable child fd)
    updateInodeOpenCnts child left (fd + 1)

/-- What `sys_fork` does to the file tables when the child `child` gets its resources. -/
def forkFiles (child : ℕ) : Kern FsState Unit := do
  modify fun s => { s with fdTable := fun p => if p = child then s.fdTable s.cur else s.fdTable p }
  updateInodeOpenCnts child (maxFilesOpenPerProc - 3) 3

/-- One round of the closing loop of `release_prog_resource`. -/
def releaseFd (fd : ℕ) : Kern FsState Unit := do
  let s ← get
  if s.fdTable s.cur fd ≠ -1 then do
    let pipe ← isPipe fd
    if pipe then do
      let g ← fdLocal2global fd
      closePipe g
    else do
      let _ ← sysClose fd
      pure ()
  else pure ()

/-- The loop of `release_prog_resource` over the descriptors, with `left` of them to go. -/
def releaseFiles : (left : ℕ) → (fd : ℕ) → Kern FsState Unit
  | 0, _ => pure ()
  | left + 1, fd => do
    releaseFd fd
    releaseFiles left (fd + 1)

/-! ### The system -/

/-- The file system, who is alive, who of them has an address space of its own (`pgdir` is not
NULL), and the inode each descriptor was opened on. -/
structure FdState where
  fs : FsState
  alive : ℕ → Bool
  user : ℕ → Bool
  held : ℕ → ℕ → Option ℕ

/-- The file system as process `p` finds it on entry to a call. -/
def FdState.enter (s : FdState) (p : ℕ) : FsState := { s.fs with cur := p }

/-- Record what descriptor `fd` of process `p` is on. -/
def setHeld (held : ℕ → ℕ → Option ℕ) (p fd : ℕ) (v : Option ℕ) : ℕ → ℕ → Option ℕ :=
  fun q k => if q = p ∧ k = fd then v else held q k

/-- The entry of `file_table` that a descriptor refers to, and the inode there. -/
def fdInodeOf (fs : FsState) (p fd : ℕ) : Option ℕ :=
  (fs.fileTable (fs.fdTable p fd).toNat).fdInode

/-- No other live process has a descriptor for the entry of `file_table` that `fd` of `p` is on. -/
def Unshared (s : FdState) (p fd : ℕ) : Prop :=
  ∀ q, s.alive q = true → q ≠ p → ∀ k, 3 ≤ k → k < maxFilesOpenPerProc →
    s.fs.fdTable q k ≠ s.fs.fdTable p fd

section

variable {part : Partition}

/-! ### Opening -/

/-- Entry `g` of `file_table`, free in `s`, refers to an inode in `s'`, and nothing else about the
tables changed. -/
structure Claims (s s' : FsState) (g : ℕ) : Prop where
  cur : s'.cur = s.cur
  fdTable : s'.fdTable = s.fdTable
  others : ∀ k, k ≠ g → s'.fileTable k = s.fileTable k
  range : 3 ≤ g ∧ g < maxFileOpen
  before : (s.fileTable g).fdInode = none
  after : (s'.fileTable g).fdInode ≠ none

/-- What an open does to the tables: entries in use keep their inode, and the descriptor it returns
was free and is on an entry that was. -/
structure Opens (s s' : FsState) (fd : Int) : Prop where
  cur : s'.cur = s.cur
  slots : ∀ g, (s.fileTable g).fdInode ≠ none → (s'.fileTable g).fdInode = (s.fileTable g).fdInode
  fds : fd = -1 ∧ s'.fdTable = s.fdTable ∨ ∃ k g : ℕ, fd = k ∧ 3 ≤ k ∧ k < maxFilesOpenPerProc ∧
    s.fdTable s.cur k = -1 ∧ 3 ≤ g ∧ g < maxFileOpen ∧ (s.fileTable g).fdInode = none ∧
    (s'.fileTable g).fdInode ≠ none ∧ s'.fdTable = (s.setFd k g).fdTable

variable {s s1 : FsState} {g : ℕ}

theorem Claims.congr {s' : FsState} (h : Claims s s1 g) (h1 : s'.fileTable = s1.fileTable)
    (h2 : s'.fdTable = s1.fdTable) (h3 : s'.cur = s1.cur) : Claims s s' g :=
  ⟨h3.trans h.cur, h2.trans h.fdTable, fun k hk => by rw [h1, h.others k hk], h.range, h.before,
    by rw [h1]; exact h.after⟩

/-- The tables may be looked at before and after routines that do not touch them. -/
theorem Opens.congr {s2 s' : FsState} {fd : Int} (h : Opens s1 s2 fd)
    (h1 : s1.fileTable = s.fileTable) (h2 : s1.fdTable = s.fdTable) (h3 : s1.cur = s.cur)
    (h1' : s'.fileTable = s2.fileTable) (h2' : s'.fdTable = s2.fdTable) (h3' : s'.cur = s2.cur) :
    Opens s s' fd := by
  obtain ⟨hc, hs, hf⟩ := h
  rw [h1] at hs hf
  rw [h2, h3] at hf
  refine ⟨h3'.trans (hc.trans h3), by rw [h1']; exact hs, ?_⟩
  rw [h1', h2']
  simpa only [setFd, h2, h3] using hf

theorem Claims.slots (h : Claims s s1 g) {k : ℕ} (hk : (s.fileTable k).fdInode ≠ none) :
    (s1.fileTable k).fdInode = (s.fileTable k).fdInode := by
  rw [h.others k]
  rintro rfl
  exact hk h.before

/-- What closing descriptor `fd` does to the tables: only the entry it was on may have changed. -/
structure Closes (s s' : FsState) (fd : ℕ) : Prop where
  cur : s'.cur = s.cur
  fdTable : ∀ p k, ¬ (p = s.cur ∧ k = fd) → s'.fdTable p k = s.fdTable p k
  slots : ∀ g : ℕ, (g : Int) ≠ s.fdTable s.cur fd →
    (s'.fileTable g).fdInode = (s.fileTable g).fdInode

/-- The inodes in `file_table`, the descriptors, and whose turn it is. -/
def slots (s : FsState) : (ℕ → Option ℕ) × (ℕ → ℕ → Int) × ℕ :=
  (fun g => (s.fileTable g).fdInode, s.fdTable, s.cur)

/-- Descriptor `k` of process `p` is free, or on an entry that refers to the inode it was opened
on. -/
def FdOk (fs : FsState) (held : ℕ → ℕ → Option ℕ) (p k : ℕ) : Prop :=
  fs.fdTable p k = -1 ∧ held p k = none ∨
    ∃ g h : ℕ, fs.fdTable p k = g ∧ held p k = some h ∧ (fs.fileTable g).fdInode = some h

/-- A descriptor carries over if its entry of `file_table` keeps its inode. -/
theorem FdOk.frame {fs fs' : FsState} {held held' : ℕ → ℕ → Option ℕ} {p q j k : ℕ}
    (h : FdOk fs held p k) (hd : fs'.fdTable q j = fs.fdTable p k) (hh : held' q j = held p k)
    (hs : ∀ g : ℕ, fs.fdTable p k = g → (fs.fileTable g).fdInode ≠ none →
      (fs'.fileTable g).fdInode = (fs.fileTable g).fdInode) : FdOk fs' held' q j := by
  rw [FdOk, hd, hh]
  refine h.imp_right fun ⟨g, i, hg, hi, hgi⟩ => ⟨g, i, hg, hi, ?_⟩
  rw [hs g hg (by simp [hgi]), hgi]

/-- Every descriptor is in order, and the descriptors of a process are on different entries. -/
structure FdInv (s : FdState) : Prop where
  fd : ∀ p, s.alive p = true → ∀ k, 3 ≤ k → k < maxFilesOpenPerProc → FdOk s.fs s.held p k
  inj : ∀ p, s.alive p = true → ∀ j k, 3 ≤ j → j < maxFilesOpenPerProc → 3 ≤ k →
    k < maxFilesOpenPerProc → s.fs.fdTable p j = s.fs.fdTable p k → s.fs.fdTable p j ≠ -1 → j = k
  held : ∀ p k, s.held p k ≠ none → s.alive p = true ∧ 3 ≤ k ∧ k < maxFilesOpenPerProc

variable {t : FdState} {p : ℕ}

/-- The entry a live descriptor is on refers to an inode. -/
theorem FdInv.slot (h : FdInv t) (hp : t.alive p = true) {k : ℕ} (h3 : 3 ≤ k)
    (h8 : k < maxFilesOpenPerProc) {g : ℕ} (hg : t.fs.fdTable p k = g) :
    (t.fs.fileTable g).fdInode ≠ none := by
  rcases h.fd p hp k h3 h8 with ⟨hn, -⟩ | ⟨g', i, hg', -, hi⟩
  · omega
  · obtain rfl : g = g' := by omega
    rw [hi]
    simp

theorem FdInv.held_none (h : FdInv t) (hp : t.alive p = false) (k : ℕ) : t.held p k = none := by
  by_contra hne
  rw [(h.held p k hne).1] at hp
  cases hp

theorem FdInv.start {user : Bool} (h : FdInv t) (hp : t.alive p = false) :
    FdInv
      { fs := { t.fs with
          fdTable := fun q => if q = p then fun fd => if fd < 3 then fd else -1
            else t.fs.fdTable q }
        alive := fun q => if q = p then true else t.alive q
        user := fun q => if q = p then user else t.user q
        held := t.held } := by
  refine ⟨fun q hq k h3 h8 => ?_, fun q hq j k h3 h8 h3' h8' hjk hne => ?_, fun q k hne => ?_⟩
  · by_cases hqp : q = p
    · subst hqp
      refine Or.inl ⟨?_, h.held_none hp k⟩
      simp only [if_true]
      exact if_neg (by omega)
    · simp only [if_neg hqp] at hq
      exact (h.fd q hq k h3 h8).frame (by simp only [if_neg hqp]) rfl fun _ _ _ => rfl
  · by_cases hqp : q = p
    · subst hqp
      simp only [if_true] at hne
      exact absurd (if_neg (by omega)) hne
    · simp only [if_neg hqp] at hq hjk hne
      exact h.inj q hq j k h3 h8 h3' h8' hjk hne
  · obtain ⟨hq, h3, h8⟩ := h.held q k hne
    refine ⟨?_, h3, h8⟩
    simp only [hq, ite_self]

theorem FdInv.open {fs : FsState} {fd : Int} (h : FdInv t) (hp : t.alive p = true)
    (ho : Opens (t.enter p) fs fd) :
    FdInv
      { t with
        fs := fs
        held := if 0 ≤ fd then setHeld t.held p fd.toNat (fdInodeOf fs p fd.toNat)
          else t.held } := by
  obtain ⟨-, hslots, ⟨rfl, hd⟩ | ⟨k, g, rfl, h3, h8, hfree, -, -, hnone, hsome, hd⟩⟩ := ho
  · refine ⟨fun q hq j h3 h8 => ?_, fun q hq => ?_, fun q j hne => h.held q j hne⟩
    · exact (h.fd q hq j h3 h8).frame (by rw [hd]; rfl) rfl fun g _ hne => hslots g hne
    · simp only [hd]
      exact h.inj q hq
  · have hd' : ∀ q j, fs.fdTable q j = if q = p ∧ j = k then (g : Int) else t.fs.fdTable q j :=
      fun q j => congrFun (congrFun hd q) j
    -- no descriptor was on the entry that the open took
    have hfresh : ∀ q, t.alive q = true → ∀ j, 3 ≤ j → j < maxFilesOpenPerProc →
        t.fs.fdTable q j ≠ g := fun q hq j h3 h8 hg => h.slot hq h3 h8 hg hnone
    obtain ⟨i, hi⟩ := Option.ne_none_iff_exists'.1 hsome
    have hin : fdInodeOf fs p k = some i := by
      rw [fdInodeOf, hd', if_pos ⟨rfl, rfl⟩, Int.toNat_natCast, hi]
    simp only [Int.natCast_nonneg, if_true, Int.toNat_natCast, hin]
    refine ⟨fun q hq j h3' h8' => ?_, fun q hq j j' h3' h8' h3'' h8'' => ?_, fun q j hne => ?_⟩
    · by_cases hqj : q = p ∧ j = k
      · refine Or.inr ⟨g, i, by simp only [hd', if_pos hqj], by simp only [setHeld, if_pos hqj], hi⟩
      · exact (h.fd q hq j h3' h8').frame (by simp only [hd', if_neg hqj])
          (by simp only [setHeld, if_neg hqj]) fun g _ hne => hslots g hne
    · simp only [hd']
      have hj := hfresh q hq j h3' h8'
      have hj' := hfresh q hq j' h3'' h8''
      have hinj := h.inj q hq j j' h3' h8' h3'' h8''
      split <;> split <;> omega
    · by_cases hqj : q = p ∧ j = k
      · exact ⟨hqj.1 ▸ hp, hqj.2 ▸ h3, hqj.2 ▸ h8⟩
      · simp only [setHeld, if_neg hqj] at hne
        exact h.held q j hne

theorem FdInv.fork {fs : FsState} {child : ℕ} (h : FdInv t) (hp : t.alive p = true)
    (hslots : ∀ g, (fs.fileTable g).fdInode = (t.fs.fileTable g).fdInode)
    (hd : ∀ q, fs.fdTable q = if q = child then t.fs.fdTable p else t.fs.fdTable q) :
    FdInv
      { fs := fs
        alive := fun q => if q = child then true else t.alive q
        user := fun q => if q = child then true else t.user q
        held := fun q => if q = child then t.held p else t.held q } := by
  -- each process of the new state looks like a process of the old one
  have hlike : ∀ q, (if q = child then true else t.alive q) = true → ∃ r, t.alive r = true ∧
      fs.fdTable q = t.fs.fdTable r ∧ (if q = child then t.held p else t.held q) = t.held r := by
    intro q hq
    by_cases hqc : q = child
    · exact ⟨p, hp, by rw [hd, if_pos hqc], if_pos hqc⟩
    · rw [if_neg hqc] at hq
      exact ⟨q, hq, by rw [hd, if_neg hqc], if_neg hqc⟩
  refine ⟨fun q hq k h3 h8 => ?_, fun q hq => ?_, fun q k hne => ?_⟩
  · obtain ⟨r, hr, hrd, hrh⟩ := hlike q hq
    exact (h.fd r hr k h3 h8).frame (congrFun hrd k) (congrFun hrh k) fun g _ _ => hslots g
  · obtain ⟨r, hr, hrd, -⟩ := hlike q hq
    simp only [hrd]
    exact h.inj r hr
  · by_cases hqc : q = child
    · simp only [if_pos hqc] at hne ⊢
      exact ⟨trivial, (h.held p k hne).2⟩
    · simp only [if_neg hqc] at hne ⊢
      exact h.held q k hne

theorem FdInv.close {fs : FsState} {k : ℕ} (h : FdInv t) (hp : t.alive p = true) (h3 : 3 ≤ k)
    (h8 : k < maxFilesOpenPerProc) (hused : t.fs.fdTable p k ≠ -1) (hun : Unshared t p k)
    (hc : Closes (t.enter p) fs k) (hfree : fs.fdTable p k = -1) :
    FdInv { t with fs := fs, held := setHeld t.held p k none } := by
  have hd : ∀ q j, ¬ (q = p ∧ j = k) → fs.fdTable q j = t.fs.fdTable q j := hc.fdTable
  have hslots : ∀ g : ℕ, (g : Int) ≠ t.fs.fdTable p k →
      (fs.fileTable g).fdInode = (t.fs.fileTable g).fdInode := hc.slots
  refine ⟨fun q hq j h3' h8' => ?_, fun q hq j j' h3' h8' h3'' h8'' => ?_, fun q j hne => ?_⟩
  · by_cases hqj : q = p ∧ j = k
    · refine Or.inl ⟨?_, by simp only [setHeld, if_pos hqj]⟩
      obtain ⟨rfl, rfl⟩ := hqj
      exact hfree
    · refine (h.fd q hq j h3' h8').frame (hd q j hqj) (by simp only [setHeld, if_neg hqj])
        fun g hg _ => hslots g fun hgk => ?_
      by_cases hqp : q = p
      · subst hqp
        exact hqj ⟨rfl, h.inj q hq j k h3' h8' h3 h8 (by omega) (by omega)⟩
      · exact hun q hq hqp j h3' h8' (by omega)
  · simp only
    by_cases hj : q = p ∧ j = k
    · obtain ⟨rfl, rfl⟩ := hj
      rw [hfree]
      exact fun _ hne => absurd rfl hne
    · by_cases hj' : q = p ∧ j' = k
      · obtain ⟨rfl, rfl⟩ := hj'
        rw [hfree]
        exact fun heq hne => absurd heq hne
      · rw [hd q j hj, hd q j' hj']
        exact h.inj q hq j j' h3' h8' h3'' h8''
  · by_cases hqj : q = p ∧ j = k
    · simp only [setHeld, if_pos hqj, ne_eq, not_true_eq_false] at hne
    · simp only [setHeld, if_neg hqj] at hne
      exact h.held q j hne

theorem FdInv.exit {fs : FsState} (h : FdInv t)
    (hpriv : ∀ fd, 3 ≤ fd → fd < maxFilesOpenPerProc → t.fs.fdTable p fd ≠ -1 → Unshared t p fd)
    (hd : ∀ q k, q ≠ p → fs.fdTable q k = t.fs.fdTable q k)
    (hslots : ∀ g : ℕ, (∀ k, 3 ≤ k → k < maxFilesOpenPerProc → t.fs.fdTable p k ≠ g) →
      (fs.fileTable g).fdInode = (t.fs.fileTable g).fdInode) :
    FdInv
      { t with
        fs := fs
        alive := fun q => if q = p then false else t.alive q
        held := fun q => if q = p then fun _ => none else t.held q } := by
  refine ⟨fun q hq k h3 h8 => ?_, fun q hq => ?_, fun q k hne => ?_⟩
  · by_cases hqp : q = p
    · simp only [if_pos hqp, Bool.false_eq_true] at hq
    · simp only [if_neg hqp] at hq
      refine (h.fd q hq k h3 h8).frame (hd q k hqp) (by simp only [if_neg hqp])
        fun g hg _ => hslots g fun j h3' h8' hgj => ?_
      exact hpriv j h3' h8' (by omega) q hq hqp k h3 h8 (by omega)
  · by_cases hqp : q = p
    · simp only [if_pos hqp, Bool.false_eq_true] at hq
    · simp only [if_neg hqp] at hq
      simp only [hd q _ hqp]
      exact h.inj q hq
  · by_cases hqp : q = p
    · simp only [if_pos hqp, ne_eq, not_true_eq_false] at hne
    · simp only [if_neg hqp] at hne ⊢
      exact h.held q k hne

end

/-! ### A run -/

/-- A disk with nothing but a root directory. -/
def rootOnlyDisk : Disk := fun lba =>
  if lba = 613 then newDirSector 0 0
  else if lba = 5 then Inode.toRecord ⟨0, 48, 0, false, fun k => if k = 0 then 613 else 0⟩
  else fun _ => 0

/-- That disk mounted, no file open, and memory for every request. -/
def rootOnly : FsState where
  disk := rootOnlyDisk
  blockBitmap := bitmapSet (bitmapInit 512) 0 true
  inodeBitmap := bitmapSet (bitmapInit 512) 0 true
  inode := fun _ => ⟨0, 48, 1, false, fun k => if k = 0 then 613 else 0⟩
  inodeTop := 1
  openInodes := [0]
  rootInode := 0
  fileTable := fun _ => ⟨0, 0, none⟩
  fdTable := fun _ fd => if fd < 3 then fd else -1
  cur := 0
  mallocs := fun _ => true
  junk := fun _ => 0

/-- The path "/a". -/
def pathA : CString := ⟨[0x2f, 0x61], by decide⟩

end X86Os
