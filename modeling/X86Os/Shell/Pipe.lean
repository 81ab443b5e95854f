import X86Os.Lib.RefCount
import X86Os.Userprog.FdTable

/-!
# Pipes

`shell/pipe.c`, `sys_lseek` and the system of processes that use pipes. A pipe is an entry of
`file_table` whose fields are used for something else: `fd_inode` is the page of the ring buffer,
`fd_flag` is `PIPE_FLAG` and `fd_pos` counts the descriptors. The page is to be freed with the last
slot of a descriptor table that refers to the entry. It is freed, and `fd_inode` set to null, where
the count comes down to zero, so the page is in use exactly as long as `fd_inode` is not null.

## What is counted

`update_inode_open_cnts` and `release_prog_resource` go through the slots from 3 on, and `sys_close`
refuses the slots below. So the count is right if it is the number of slots *from 3 on* of the live
processes. The others keep up with it only under conditions, `Counted`:

* `sys_pipe` writes 2 into the count whether or not the caller had two free slots, and does not
  notice that `file_table` is full;
* `sys_fd_redirect` rewrites a slot and does not count, which is harmless below 3;
* a slot below 3 does not hold the page, so it must not be the last;
* `sys_lseek` takes the count for an offset and the ring buffer for an inode. What it reads as the
  size is the value of the lock's semaphore, so it can set the count to zero and to nothing else.

## Main results

* `pipeInv_step` — one call keeps the counts right
* `pipe_lifetime` — **the page is in use exactly as long as a slot refers to the pipe**
* `pipe_freed_early` — a redirected slot is left with a freed pipe
-/

namespace X86Os

open X86Os.Comp FsState

/-! ### The calls -/

/-- `sys_pipe`, when `get_kernel_pages` returns `page`. Neither a full `file_table` nor a missing
page is noticed before it is used. With a full table the entry is the one at index -1, in front of
the table, where the model stops. -/
def sysPipe (page : Option ℕ) : Kern FsState (Int × Int) := do
  let g ← getFreeSlotInGlobal
  match g, page with
  | some g, some page => do
    modify fun s => s.updFile g fun _ => { fdPos := 2, fdFlag := pipeFlag, fdInode := some page }
    let fd0 ← pcbFdInstall g
    let fd1 ← pcbFdInstall g
    pure (fd0, fd1)
  | _, _ => stop .wild

/-- `sys_fd_redirect`. -/
def sysFdRedirect (oldLocalFd newLocalFd : ℕ) : Kern FsState Unit := do
  check (decide (oldLocalFd < maxFilesOpenPerProc ∧ newLocalFd < maxFilesOpenPerProc)) .wild
  modify fun s => s.setFd oldLocalFd
    (if newLocalFd < 3 then newLocalFd else s.fdTable s.cur newLocalFd)

/-- What `sys_lseek` finds where an inode has its `i_size`. In a ring buffer that is the value of
the lock's semaphore, 1 whenever nobody is in the middle of a read or a write. -/
def fdSize (s : FsState) (g h : ℕ) : Word :=
  if (s.fileTable g).fdFlag = pipeFlag then 1 else (s.inode h).iSize

/-- The position `sys_lseek` is to set: `SEEK_SET`, `SEEK_CUR` or `SEEK_END`. -/
def newPos (whence : Byte) (fdPos fileSize offset : Word) : Word :=
  if whence = 1 then offset
  else if whence = 2 then fdPos + offset
  else if whence = 3 then fileSize + offset
  else 0

/-- The end of `sys_lseek`, which compares as `int32_t`. -/
def seek (g : ℕ) (pos fileSize : Word) : Kern FsState Word :=
  if pos.toInt < 0 ∨ (fileSize - 1).toInt < pos.toInt then pure (-1)
  else do
    modify fun s => s.updFile g fun e => { e with fdPos := pos }
    pure pos

/-- `sys_lseek`. -/
def sysLseek (fd : Int) (offset : Word) (whence : Byte) : Kern FsState Word :=
  if fd < 0 then pure (-1)
  else do
    ASSERT .sysLseek (decide (0 < whence.toNat ∧ whence.toNat < 4))
    let g ← fdLocal2global fd
    let s ← get
    match (s.fileTable g).fdInode with
    | none => stop .wild
    | some h => seek g (newPos whence (s.fileTable g).fdPos (fdSize s g h) offset) (fdSize s g h)

/-! ### The system -/

/-- The file system, of which only the tables matter here, and the processes that have not
exited. -/
structure PipeState where
  fs : FsState
  alive : Finset ℕ

/-- The calls. -/
inductive PipeAct
  | pipe (p : ℕ) (page : Option ℕ)
  | fork (p child : ℕ) (ok : Bool)
  | close (p : ℕ) (fd : Int)
  | redirect (p oldLocalFd newLocalFd : ℕ)
  | lseek (p : ℕ) (fd : Int) (offset : Word) (whence : Byte)
  | exit (p : ℕ)

/-- The file system as process `p` finds it on entry to a call. -/
def PipeState.enter (s : PipeState) (p : ℕ) : FsState := { s.fs with cur := p }

/-- One call, from entry to return. A fork needs one of the 1024 pids. -/
inductive PipeStep : PipeState → PipeAct → PipeState → Prop
  | pipe {s : PipeState} {p : ℕ} {page : Option ℕ} {fds : Int × Int} {fs : FsState}
      (hp : p ∈ s.alive) (hrun : sysPipe page (s.enter p) = .ok (fds, fs)) :
      PipeStep s (.pipe p page) { s with fs := fs }
  | fork {s : PipeState} {p child : ℕ} {fs : FsState} (hp : p ∈ s.alive) (hc : child ∉ s.alive)
      (hpid : s.alive.card < 1024) (hrun : forkFiles child (s.enter p) = .ok ((), fs)) :
      PipeStep s (.fork p child true) { fs := fs, alive := insert child s.alive }
  | forkFails {s : PipeState} {p child : ℕ} (hp : p ∈ s.alive) : PipeStep s (.fork p child false) s
  | close {s : PipeState} {p : ℕ} {fd ret : Int} {fs : FsState} (hp : p ∈ s.alive)
      (hrun : sysClose fd (s.enter p) = .ok (ret, fs)) :
      PipeStep s (.close p fd) { s with fs := fs }
  | redirect {s : PipeState} {p old new : ℕ} {fs : FsState} (hp : p ∈ s.alive)
      (hrun : sysFdRedirect old new (s.enter p) = .ok ((), fs)) :
      PipeStep s (.redirect p old new) { s with fs := fs }
  | lseek {s : PipeState} {p : ℕ} {fd : Int} {offset ret : Word} {whence : Byte} {fs : FsState}
      (hp : p ∈ s.alive) (hrun : sysLseek fd offset whence (s.enter p) = .ok (ret, fs)) :
      PipeStep s (.lseek p fd offset whence) { s with fs := fs }
  | exit {s : PipeState} {p : ℕ} {fs : FsState} (hp : p ∈ s.alive)
      (hrun : releaseFiles (maxFilesOpenPerProc - 3) 3 (s.enter p) = .ok ((), fs)) :
      PipeStep s (.exit p) { fs := fs, alive := s.alive.erase p }

/-- Runs of at most 1024 processes that have their standard descriptors and nothing else open. -/
def pipeSys : TransSys PipeState PipeAct where
  init s := s.alive.card ≤ 1024 ∧
    (∀ g, (s.fs.fileTable g).fdInode = none ∧ (s.fs.fileTable g).fdFlag ≠ pipeFlag) ∧
    ∀ p ∈ s.alive, ∀ fd < maxFilesOpenPerProc,
      s.fs.fdTable p fd = if fd < 3 then (fd : Int) else -1
  step := PipeStep

/-- The value of a slot is the index of a pipe's entry in `file_table`. -/
def PipeAt (s : FsState) (v : Int) : Prop := 0 ≤ v ∧ (s.fileTable v.toNat).fdFlag = pipeFlag

/-- A slot from 3 on of a live process, one that `P` holds of, refers to entry `v`. -/
def CountedRef (s : PipeState) (v : Int) (P : ℕ → ℕ → Prop) : Prop :=
  ∃ q ∈ s.alive, ∃ k, 3 ≤ k ∧ k < maxFilesOpenPerProc ∧ P q k ∧ s.fs.fdTable q k = v

/-- A slot below 3 of a live process that `P` holds of refers to entry `v`. -/
def StdRef (s : PipeState) (v : Int) (P : ℕ → Prop) : Prop :=
  ∃ q ∈ s.alive, ∃ k < 3, P q ∧ s.fs.fdTable q k = v

/-- The calls that the count in `fd_pos` keeps up with. -/
def Counted (s : PipeState) : PipeAct → Prop
  | .pipe p _ => (∃ g, 3 ≤ g ∧ g < maxFileOpen ∧ (s.fs.fileTable g).fdInode = none) ∧
      ∃ j k, 3 ≤ j ∧ j < k ∧ k < maxFilesOpenPerProc ∧ s.fs.fdTable p j = -1 ∧
        s.fs.fdTable p k = -1
  | .fork _ _ _ => True
  | .close p fd => PipeAt s.fs (s.fs.fdTable p fd.toNat) →
      StdRef s (s.fs.fdTable p fd.toNat) (fun _ => True) →
      CountedRef s (s.fs.fdTable p fd.toNat) fun q k => ¬ (q = p ∧ k = fd.toNat)
  | .redirect p old new => 3 ≤ old →
      (3 ≤ new ∧ s.fs.fdTable p new = s.fs.fdTable p old) ∨
        ¬ PipeAt s.fs (s.fs.fdTable p old) ∧ (3 ≤ new → ¬ PipeAt s.fs (s.fs.fdTable p new))
  | .lseek p fd offset whence => PipeAt s.fs (s.fs.fdTable p fd.toNat) →
      (whence = 1 → offset ≠ 0) ∧ (whence = 3 → offset ≠ -1) ∧
      (whence = 2 → offset ≠ -(s.fs.fileTable (s.fs.fdTable p fd.toNat).toNat).fdPos)
  | .exit p => ∀ fd, 3 ≤ fd → fd < maxFilesOpenPerProc → PipeAt s.fs (s.fs.fdTable p fd) →
      StdRef s (s.fs.fdTable p fd) (fun q => q ≠ p) →
      CountedRef s (s.fs.fdTable p fd) fun q _ => q ≠ p

/-! ### What the calls do to the tables when only pipes are open -/

/-- Every entry in use is a pipe. -/
def OnlyPipes (s : FsState) : Prop :=
  ∀ g, (s.fileTable g).fdFlag = pipeFlag ∨ (s.fileTable g).fdInode = none

/-- One descriptor less. -/
def File.release (e : File) : File :=
  { e with fdPos := e.fdPos - 1, fdInode := if e.fdPos - 1 = 0 then none else e.fdInode }

/-- The slots that the count counts. -/
abbrev fdSlots : Finset ℕ := Finset.Ico 3 maxFilesOpenPerProc

section

variable {s s' : FsState} {g : ℕ}

theorem wp_closePipe {Q : Unit → FsState → Prop} {E : Fault → Prop} :
    wp (closePipe g) Q E s ↔ Q () (s.updFile g File.release) := by
  have hself : ∀ f : File → File, (s.updFile g f).fileTable g = f (s.fileTable g) :=
    fun f => if_pos rfl
  simp only [closePipe, wp_bind, wp_modify, wp_get, hself]
  have hfile : ∀ f f' : File → File, f (s.fileTable g) = f' (s.fileTable g) →
      s.updFile g f = s.updFile g f' := by
    intro f f' h
    simp only [updFile]
    congr 1
    funext k
    split
    · rename_i hk; rw [hk, h]
    · rfl
  split
  · rename_i hz
    rw [wp_modify, show ((s.updFile g fun e => { e with fdPos := e.fdPos - 1 }).updFile g fun e =>
      { e with fdInode := none }) = s.updFile g File.release from ?_]
    rw [hfile File.release fun e => { e with fdPos := e.fdPos - 1, fdInode := none }]
    · simp only [updFile]
      congr 1
      funext k
      split <;> rfl
    · simp only [File.release, hz, if_true]
  · rename_i hz
    rw [wp_pure, hfile File.release fun e => { e with fdPos := e.fdPos - 1 }]
    simp only [File.release, hz, if_false]

theorem isPipe_post {fd : Int} {Q : Bool → FsState → Prop}
    (hQ : ∀ g : ℕ, 0 ≤ fd → fd < maxFilesOpenPerProc → s.fdTable s.cur fd.toNat = g →
      Q ((s.fileTable g).fdFlag == pipeFlag) s) : post (isPipe fd) Q s := by
  rw [isPipe, post, wp_bind]
  exact fdLocal2global_post fun g h0 h8 hg => hQ g h0 h8 hg

/-- A process with a free slot gets a descriptor. -/
theorem pcbFdInstall_free {k : ℕ} (h3 : 3 ≤ k) (h8 : k < maxFilesOpenPerProc)
    (hfree : s.fdTable s.cur k = -1) :
    post (pcbFdInstall g) (fun _ s' => ∃ j, 3 ≤ j ∧ j < maxFilesOpenPerProc ∧
      s.fdTable s.cur j = -1 ∧ s' = s.setFd j g) s := by
  refine pcbFdInstall_cases (fun hn => absurd ⟨k, h3, h8, hfree⟩ hn) fun j hj3 hj8 hj => ?_
  exact ⟨j, hj3, hj8, hj, rfl⟩

/-- **`sys_pipe`**, for a caller with two free slots. -/
theorem sysPipe_post {page : Option ℕ} {j k : ℕ} (h3 : 3 ≤ j) (hjk : j < k)
    (h8 : k < maxFilesOpenPerProc) (hj : s.fdTable s.cur j = -1) (hk : s.fdTable s.cur k = -1) :
    post (sysPipe page) (fun _ s' => ∃ g a b pg, 3 ≤ g ∧ g < maxFileOpen ∧
      (s.fileTable g).fdInode = none ∧ a ∈ fdSlots ∧ b ∈ fdSlots ∧ a ≠ b ∧
      s.fdTable s.cur a = -1 ∧ s.fdTable s.cur b = -1 ∧
      s' = ((s.updFile g fun _ => ⟨2, pipeFlag, some pg⟩).setFd a g).setFd b g) s := by
  rw [sysPipe, post, wp_bind]
  refine getFreeSlotInGlobal_cases (fun _ => trivial) fun g hg3 hg32 hnone => ?_
  cases page with
  | none => trivial
  | some pg =>
    simp only [wp_bind, wp_modify, wp_pure]
    refine (pcbFdInstall_free (s := s.updFile g _)
      (Nat.le_trans h3 (Nat.le_of_lt hjk)) h8 hk).mono ?_
      fun _ h => h
    rintro _ s1 ⟨a, ha3, ha8, ha, rfl⟩
    -- one of the two free slots is left
    obtain ⟨c, hc3, hc8, hca, hc⟩ : ∃ c, 3 ≤ c ∧ c < maxFilesOpenPerProc ∧ c ≠ a ∧
        s.fdTable s.cur c = -1 := by
      by_cases hja : j = a
      · exact ⟨k, by omega, h8, by omega, hk⟩
      · exact ⟨j, h3, by omega, hja, hj⟩
    have hkeep : ∀ i, ((s.updFile g fun _ => ⟨2, pipeFlag, some pg⟩).setFd a g).fdTable s.cur i =
        if i = a then (g : Int) else s.fdTable s.cur i := fun i => by
      simp only [setFd, updFile, true_and]
    refine (pcbFdInstall_free hc3 hc8 ?_).mono ?_ fun _ h => h
    · exact (hkeep c).trans ((if_neg hca).trans hc)
    · rintro _ s2 ⟨b, hb3, hb8, hb, rfl⟩
      have hb := (hkeep b).symm.trans hb
      have hba : b ≠ a := by
        rintro rfl
        rw [if_pos rfl] at hb
        omega
      rw [if_neg hba] at hb
      exact ⟨g, a, b, pg, hg3, hg32, hnone, Finset.mem_Ico.mpr ⟨ha3, ha8⟩,
        Finset.mem_Ico.mpr ⟨hb3, hb8⟩, Ne.symm hba, ha, hb, rfl⟩

/-- **`sys_close`** of a slot from 3 on. -/
theorem sysClose_pipe (ho : OnlyPipes s) {fd : Int} (hfd : 2 < fd) :
    post (sysClose fd) (fun _ s' => ∃ g : ℕ, fd < maxFilesOpenPerProc ∧
      s.fdTable s.cur fd.toNat = g ∧ (s.fileTable g).fdFlag = pipeFlag ∧
      s' = (s.updFile g File.release).setFd fd.toNat (-1)) s := by
  rw [sysClose, if_pos hfd, post, wp_bind]
  refine fdLocal2global_post fun g _ h8 hg => ?_
  rw [wp_bind, closeEntry, wp_bind]
  refine isPipe_post fun g' _ _ hg' => ?_
  obtain rfl : g' = g := by omega
  split
  · rename_i hp
    simp only [wp_bind, wp_closePipe, wp_pure, wp_modify]
    exact ⟨g', h8, hg, by simpa using hp, rfl⟩
  · rename_i hp
    have hnone := (ho g').resolve_left (by simpa using hp)
    rw [fileClose, wp_bind, wp_get, hnone]
    trivial

/-- The count of entry `g` goes up by `n g`. -/
def addCounts (s : FsState) (n : ℕ → ℕ) : FsState :=
  { s with fileTable := fun g => { s.fileTable g with
      fdPos := (s.fileTable g).fdPos + BitVec.ofNat 32 (n g) } }

theorem countFd_pipe (ho : OnlyPipes s) (fd : ℕ) :
    post (countFd fd (s.fdTable s.cur fd)) (fun _ s' =>
      s' = addCounts s fun g => if s.fdTable s.cur fd = g then 1 else 0) s := by
  rw [countFd, post]
  split
  · rename_i hne
    rw [wp_bind]
    refine isPipe_post fun g _ _ hg => ?_
    have hg : s.fdTable s.cur fd = g := hg
    rw [wp_bind, wp_get, hg, Int.toNat_natCast]
    split
    · rw [wp_modify]
      simp only [updFile, addCounts]
      congr 1
      funext k
      by_cases hk : k = g
      · subst hk; simp
      · have : ¬ (g : Int) = k := by omega
        simp [hk, this]
    · rename_i hp
      have hnone := (ho g).resolve_left (by simpa using hp)
      rw [hnone]
      trivial
  · rename_i hne
    have hne : s.fdTable s.cur fd = -1 := by simpa using hne
    rw [wp_pure, hne]
    simp only [addCounts]
    have : ∀ g : ℕ, ¬ (-1 : Int) = g := fun g => by omega
    simp [this]

theorem addCounts_onlyPipes (ho : OnlyPipes s) (n : ℕ → ℕ) : OnlyPipes (addCounts s n) := ho

/-- **The counting loop of `sys_fork`.** -/
theorem updateInodeOpenCnts_pipe (child left : ℕ) :
    ∀ {fd : ℕ} {s : FsState}, OnlyPipes s → s.fdTable child = s.fdTable s.cur →
      post (updateInodeOpenCnts child left fd) (fun _ s' => s' = addCounts s fun g =>
        rowRefs (Finset.Ico fd (fd + left)) (s.fdTable s.cur) (g : Int)) s := by
  induction left with
  | zero => intro fd s _ _; simp [updateInodeOpenCnts, addCounts, rowRefs]
  | succ left ih =>
    intro fd s ho hc
    rw [updateInodeOpenCnts, post, wp_bind, wp_get, wp_bind, wp_ASSERT]
    refine ⟨fun _ => ?_, fun _ => trivial⟩
    rw [wp_bind, hc]
    refine (countFd_pipe ho fd).mono ?_ fun _ h => h
    rintro _ s1 rfl
    refine (ih (addCounts_onlyPipes ho _) hc).mono ?_ fun _ h => h
    rintro _ s2 rfl
    simp only [addCounts, rowRefs_Ico_succ, BitVec.ofNat_add, BitVec.add_assoc]

/-- **What `sys_fork` does to the tables.** -/
theorem forkFiles_pipe (ho : OnlyPipes s) (child : ℕ) :
    post (forkFiles child) (fun _ s' =>
      (∀ g, s'.fileTable g = { s.fileTable g with
        fdPos := (s.fileTable g).fdPos +
          BitVec.ofNat 32 (rowRefs fdSlots (s.fdTable s.cur) (g : Int)) }) ∧
      ∀ p, s'.fdTable p = if p = child then s.fdTable s.cur else s.fdTable p) s := by
  rw [forkFiles, post, wp_bind, wp_modify]
  refine (updateInodeOpenCnts_pipe child _ ?_ ?_).mono ?_ fun _ h => h
  · exact ho
  · simp only [if_true, ite_self]
  · rintro _ s' rfl
    refine ⟨fun g => ?_, fun p => rfl⟩
    simp only [addCounts, ite_self]
    rfl

/-- Entry `g` has `n g` descriptors less. -/
def releaseCounts (s : FsState) (n : ℕ → ℕ) : FsState :=
  { s with fileTable := fun g => File.release^[n g] (s.fileTable g) }

theorem release_flag (n : ℕ) (e : File) : (File.release^[n] e).fdFlag = e.fdFlag := by
  induction n generalizing e with
  | zero => rfl
  | succ n ih => rw [Function.iterate_succ_apply, ih]; rfl

theorem release_none (n : ℕ) {e : File} (he : e.fdInode = none) :
    (File.release^[n] e).fdInode = none := by
  induction n generalizing e with
  | zero => exact he
  | succ n ih =>
    rw [Function.iterate_succ_apply]
    refine ih ?_
    rw [File.release, he]
    exact ite_self _

/-- **A count that is right stays right**, and the last descriptor takes the page. -/
theorem release_count {n m : ℕ} (hlt : n < 2 ^ 32) (hm : m ≤ n) {e : File}
    (he : e.fdPos = BitVec.ofNat 32 n) :
    (File.release^[m] e).fdPos = BitVec.ofNat 32 (n - m) ∧
      (File.release^[m] e).fdInode = if 0 < m ∧ n = m then none else e.fdInode := by
  induction m generalizing n e with
  | zero => simp [he]
  | succ m ih =>
    have hpos : e.release.fdPos = BitVec.ofNat 32 (n - 1) := by
      rw [File.release, he]
      apply BitVec.eq_of_toNat_eq
      simp only [BitVec.toNat_sub, BitVec.toNat_ofNat, show BitVec.toNat (1 : Word) = 1 from rfl]
      omega
    have hzero : e.fdPos - 1 = 0 ↔ n = 1 := by
      rw [show e.fdPos - 1 = BitVec.ofNat 32 (n - 1) from hpos]
      rw [← BitVec.toNat_inj, BitVec.toNat_ofNat, show BitVec.toNat (0 : Word) = 0 from rfl]
      omega
    rw [Function.iterate_succ_apply]
    obtain ⟨h1, h2⟩ := ih (by omega) (by omega : m ≤ n - 1) hpos
    refine ⟨by rw [h1]; congr 1; omega, ?_⟩
    rw [h2, File.release]
    simp only [hzero]
    by_cases hnm : n = m + 1
    · rw [if_pos (⟨by omega, hnm⟩ : 0 < m + 1 ∧ n = m + 1)]
      by_cases hm0 : 0 < m
      · rw [if_pos ⟨hm0, by omega⟩]
      · rw [if_neg (fun h => hm0 h.1), if_pos (by omega)]
    · rw [if_neg (show ¬ (0 < m ∧ n - 1 = m) by omega), if_neg (show ¬ n = 1 by omega),
        if_neg (fun h => hnm h.2)]

theorem releaseFd_pipe (ho : OnlyPipes s) {fd : ℕ} (h3 : 3 ≤ fd) :
    post (releaseFd fd) (fun _ s' =>
      s' = releaseCounts s fun g => if s.fdTable s.cur fd = g then 1 else 0) s := by
  rw [releaseFd, post, wp_bind, wp_get]
  split
  · rw [wp_bind]
    refine isPipe_post fun g _ h8 hg => ?_
    have hg : s.fdTable s.cur fd = g := hg
    split
    · rw [wp_bind]
      refine fdLocal2global_post fun g' _ _ hg' => ?_
      have hg' : s.fdTable s.cur fd = g' := hg'
      obtain rfl : g' = g := by omega
      rw [wp_closePipe, hg]
      simp only [updFile, releaseCounts]
      congr 1
      funext k
      by_cases hk : k = g'
      · subst hk; simp
      · have : ¬ (g' : Int) = k := by omega
        simp [hk, this]
    · rename_i hp
      rw [wp_bind]
      refine (sysClose_pipe ho (by omega)).mono ?_ fun _ h => h
      rintro _ s1 ⟨g', -, hg', hp', -⟩
      have hg' : s.fdTable s.cur fd = g' := hg'
      obtain rfl : g' = g := by omega
      exact absurd (by simpa using hp') hp
  · rename_i hne
    have hne : s.fdTable s.cur fd = -1 := by simpa using hne
    have : ∀ g : ℕ, ¬ (-1 : Int) = g := fun g => by omega
    simp [wp_pure, hne, releaseCounts, this]

/-- **The closing loop of `sys_exit`.** -/
theorem releaseFiles_pipe (left : ℕ) :
    ∀ {fd : ℕ} {s : FsState}, OnlyPipes s → 3 ≤ fd →
      post (releaseFiles left fd) (fun _ s' => s' = releaseCounts s fun g =>
        rowRefs (Finset.Ico fd (fd + left)) (s.fdTable s.cur) (g : Int)) s := by
  induction left with
  | zero => intro fd s _ _; simp [releaseFiles, releaseCounts, rowRefs]
  | succ left ih =>
    intro fd s ho h3
    rw [releaseFiles, post, wp_bind]
    refine (releaseFd_pipe ho h3).mono ?_ fun _ h => h
    rintro _ s1 rfl
    have ho1 : OnlyPipes (releaseCounts s fun g => if s.fdTable s.cur fd = g then 1 else 0) :=
      fun g => (ho g).imp (fun h => (release_flag _ _).trans h) fun h => release_none _ h
    refine (ih ho1 (Nat.le_succ_of_le h3)).mono ?_ fun _ h => h
    rintro _ s2 rfl
    simp only [releaseCounts, rowRefs_Ico_succ]
    congr 1
    funext g
    rw [← Function.iterate_add_apply, Nat.add_comm (rowRefs _ _ _)]

end

/-! ### The invariant -/

/-- How many slots from 3 on of the live processes refer to entry `g`. -/
def PipeState.refs (s : PipeState) (g : ℕ) : ℕ := X86Os.refs s.alive fdSlots s.fs.fdTable (g : Int)

/-- The entries of the standard descriptors are no pipes, a slot that refers to another entry finds
it in use, and `fd_pos` of an entry in use is the number of references. -/
structure PipeInv (s : PipeState) : Prop where
  card : s.alive.card ≤ 1024
  std : ∀ g < 3, (s.fs.fileTable g).fdFlag ≠ pipeFlag
  only : OnlyPipes s.fs
  slot : ∀ p ∈ s.alive, ∀ k < maxFilesOpenPerProc, ∀ g : ℕ, s.fs.fdTable p k = g → 3 ≤ g →
    (s.fs.fileTable g).fdInode ≠ none
  count : ∀ g, (s.fs.fileTable g).fdInode ≠ none →
    (s.fs.fileTable g).fdPos = BitVec.ofNat 32 (s.refs g) ∧ 0 < s.refs g

section

variable {s : PipeState} {p : ℕ}

theorem PipeState.refs_pos {g : ℕ} : 0 < s.refs g ↔ CountedRef s g fun _ _ => True := by
  rw [PipeState.refs, refs_pos_iff]
  simp only [CountedRef, Finset.mem_Ico, true_and, and_assoc]

theorem PipeInv.refs_lt (h : PipeInv s) (g : ℕ) : s.refs g < 2 ^ 32 := by
  have hle := refs_le s.alive fdSlots s.fs.fdTable (g : Int)
  have hcard : fdSlots.card = 5 := rfl
  have := h.card
  rw [PipeState.refs]
  rw [hcard] at hle
  omega

theorem PipeInv.flag (h : PipeInv s) {g : ℕ} (hg : (s.fs.fileTable g).fdInode ≠ none) :
    (s.fs.fileTable g).fdFlag = pipeFlag := (h.only g).resolve_right hg

theorem PipeInv.ge (h : PipeInv s) {g : ℕ} (hg : (s.fs.fileTable g).fdFlag = pipeFlag) : 3 ≤ g :=
  Nat.le_of_not_lt fun hlt => h.std g hlt hg

/-- An entry that is not in use is referred to by nobody. -/
theorem PipeInv.refs_free (h : PipeInv s) {g : ℕ} (h3 : 3 ≤ g)
    (hg : (s.fs.fileTable g).fdInode = none) : s.refs g = 0 := by
  by_contra hne
  obtain ⟨q, hq, k, -, h8, -, hk⟩ := s.refs_pos.mp (Nat.pos_of_ne_zero hne)
  exact h.slot q hq k h8 g hk h3 hg

variable {fs : FsState} {g : ℕ}

theorem PipeInv.pipe (h : PipeInv s) (hp : p ∈ s.alive) {a b pg : ℕ} (h3 : 3 ≤ g)
    (hfree : (s.fs.fileTable g).fdInode = none) (ha : a ∈ fdSlots) (hb : b ∈ fdSlots) (hab : a ≠ b)
    (hfa : s.fs.fdTable p a = -1) (hfb : s.fs.fdTable p b = -1)
    (hfile : ∀ k, fs.fileTable k = if k = g then ⟨2, pipeFlag, some pg⟩ else s.fs.fileTable k)
    (hfd : fs.fdTable = fun q k => if q = p ∧ k = b then (g : Int) else
      if q = p ∧ k = a then (g : Int) else s.fs.fdTable q k) :
    PipeInv { s with fs := fs } := by
  have hrefs : ∀ x : ℕ, PipeState.refs { s with fs := fs } x =
      s.refs x + if x = g then 2 else 0 := by
    intro x
    have h1 := refs_update s.fs.fdTable (g : Int) (x : Int) hp ha
    have h2 := refs_update (fun q j => if q = p ∧ j = a then (g : Int) else s.fs.fdTable q j)
      (g : Int)
      (x : Int) hp hb
    rw [hfa, if_neg (by omega : ¬ (-1 : Int) = x)] at h1
    rw [if_neg (fun hc => hab hc.2.symm : ¬ (p = p ∧ b = a)), hfb,
      if_neg (by omega : ¬ (-1 : Int) = x)] at h2
    simp only [PipeState.refs, hfd]
    rw [Nat.add_zero] at h1 h2
    rw [h2, h1]
    by_cases hxg : x = g
    · simp [hxg]
    · have : ¬ (g : Int) = x := by omega
      simp [hxg, this]
  refine ⟨h.card, fun k hk => ?_, fun k => ?_, fun q hq k h8 x => ?_, fun x => ?_⟩
  · simp only [hfile, if_neg (show ¬ k = g by omega)]
    exact h.std k hk
  · simp only [hfile]
    split
    · exact .inl rfl
    · exact h.only k
  · simp only [hfile, hfd]
    intro hx h3x
    split
    · simp
    · rename_i hxg
      split at hx
      · exact absurd (by omega) hxg
      · split at hx
        · exact absurd (by omega) hxg
        · exact h.slot q hq k h8 x hx h3x
  · rw [hrefs]
    simp only [hfile]
    by_cases hxg : x = g
    · subst hxg
      rw [h.refs_free h3 hfree]
      simp
    · simpa [hxg] using h.count x

/-- The references when a counted slot is rewritten. -/
theorem PipeState.refs_setFd (hp : p ∈ s.alive) {k : ℕ} {v : Int}
    (hfd : fs.fdTable = fun q j => if q = p ∧ j = k then v else s.fs.fdTable q j)
    (hk : k ∈ fdSlots) (x : ℕ) :
    PipeState.refs { s with fs := fs } x + (if s.fs.fdTable p k = x then 1 else 0) =
      s.refs x + if v = x then 1 else 0 := by
  have h := refs_update s.fs.fdTable v (x : Int) hp hk
  simpa only [PipeState.refs, hfd] using h

theorem PipeInv.close (h : PipeInv s) (hp : p ∈ s.alive) {k : ℕ} (hk : k ∈ fdSlots)
    (hg : s.fs.fdTable p k = g) (hflag : (s.fs.fileTable g).fdFlag = pipeFlag)
    (hguard : StdRef s g (fun _ => True) → CountedRef s g fun q j => ¬ (q = p ∧ j = k))
    (hfile : ∀ x, fs.fileTable x =
      if x = g then (s.fs.fileTable x).release else s.fs.fileTable x)
    (hfd : fs.fdTable = fun q j => if q = p ∧ j = k then (-1 : Int) else s.fs.fdTable q j) :
    PipeInv { s with fs := fs } := by
  have h3 := h.ge hflag
  have hin := h.slot p hp k (Finset.mem_Ico.mp hk).2 g hg h3
  obtain ⟨hpos, hrefs⟩ := h.count g hin
  have hupd := PipeState.refs_setFd (s := s) hp hfd hk
  have hself : PipeState.refs { s with fs := fs } g + 1 = s.refs g := by
    have := hupd g
    rw [if_pos hg, if_neg (by omega)] at this
    exact this
  have hother : ∀ x : ℕ, x ≠ g → PipeState.refs { s with fs := fs } x = s.refs x := by
    intro x hx
    have := hupd x
    rw [hg, if_neg (by omega), if_neg (by omega)] at this
    exact this
  have hrel := release_count (h.refs_lt g) hrefs hpos
  rw [Function.iterate_one] at hrel
  -- another reference from 3 on keeps the page
  have hkeep : CountedRef s g (fun q j => ¬ (q = p ∧ j = k)) →
      (s.fs.fileTable g).release.fdInode ≠ none := by
    rintro ⟨q, hq, j, hj3, hj8, hne, hj⟩
    have : 0 < PipeState.refs { s with fs := fs } g := by
      refine PipeState.refs_pos.mpr ⟨q, hq, j, hj3, hj8, trivial, ?_⟩
      simp only [hfd]
      rw [if_neg hne]
      exact hj
    rw [hrel.2, if_neg (by omega)]
    exact hin
  refine ⟨h.card, fun x hx => ?_, fun x => ?_, fun q hq j h8 x => ?_, fun x => ?_⟩
  · simp only [hfile, if_neg (show ¬ x = g by omega)]
    exact h.std x hx
  · simp only [hfile]
    split
    · rename_i hx
      exact .inl (by rw [hx]; exact hflag)
    · exact h.only x
  · simp only [hfile, hfd]
    intro hx h3x
    split at hx
    · omega
    · rename_i hne
      have hslot := h.slot q hq j h8 x hx h3x
      split
      · rename_i hxg
        subst hxg
        refine hkeep ?_
        by_cases hj3 : 3 ≤ j
        · exact ⟨q, hq, j, hj3, h8, hne, hx⟩
        · exact hguard ⟨q, hq, j, by omega, trivial, hx⟩
      · exact hslot
  · simp only [hfile]
    split
    · rename_i hxg
      subst hxg
      intro hne
      rw [hrel.2] at hne
      have : s.refs x ≠ 1 := fun h1 => hne (if_pos ⟨by omega, h1⟩)
      rw [hrel.1]
      exact ⟨by congr 1; omega, by omega⟩
    · rename_i hxg
      rw [hother x hxg]
      exact h.count x

/-- A slot is redirected. One from 3 on neither leaves a pipe nor comes to one. -/
theorem PipeInv.redirect (h : PipeInv s) (hp : p ∈ s.alive) {k : ℕ} {v : Int}
    (hv : ∀ x : ℕ, v = x → 3 ≤ x → (s.fs.fileTable x).fdInode ≠ none)
    (hguard : 3 ≤ k → k < maxFilesOpenPerProc → v = s.fs.fdTable p k ∨
      ¬ PipeAt s.fs (s.fs.fdTable p k) ∧ ¬ PipeAt s.fs v)
    (hfile : fs.fileTable = s.fs.fileTable)
    (hfd : fs.fdTable = fun q j => if q = p ∧ j = k then v else s.fs.fdTable q j) :
    PipeInv { s with fs := fs } := by
  have hrefs : ∀ x, (s.fs.fileTable x).fdInode ≠ none →
      PipeState.refs { s with fs := fs } x = s.refs x := by
    intro x hx
    by_cases hk : k ∈ fdSlots
    · have hupd := PipeState.refs_setFd (s := s) hp hfd hk x
      obtain ⟨hk3, hk8⟩ := Finset.mem_Ico.mp hk
      rcases hguard hk3 hk8 with heq | ⟨hold, hnew⟩
      · rw [heq] at hupd
        omega
      · have hat : PipeAt s.fs x := ⟨by omega, by simpa using h.flag hx⟩
        have hold' : s.fs.fdTable p k ≠ x := fun heq => hold (by rw [heq]; exact hat)
        have hnew' : v ≠ x := fun heq => hnew (by rw [heq]; exact hat)
        rw [if_neg hold', if_neg hnew'] at hupd
        exact hupd
    · refine refs_congr fun q _ j hj => ?_
      have hne : ¬ (q = p ∧ j = k) := fun hc => hk (hc.2 ▸ hj)
      simp only [hfd]
      exact if_neg hne
  refine ⟨h.card, fun x => ?_, fun x => ?_, fun q hq j h8 x => ?_, fun x => ?_⟩
  · simp only [hfile]
    exact h.std x
  · simp only [hfile]
    exact h.only x
  · simp only [hfile, hfd]
    intro hx h3x
    split at hx
    · exact hv x hx h3x
    · exact h.slot q hq j h8 x hx h3x
  · simp only [hfile]
    intro hx
    rw [hrefs x hx]
    exact h.count x hx

/-- The child has the slots of its parent. -/
theorem PipeInv.fork (h : PipeInv s) (hp : p ∈ s.alive) {child : ℕ} (hc : child ∉ s.alive)
    (hpid : s.alive.card < 1024)
    (hfile : ∀ x, fs.fileTable x = { s.fs.fileTable x with
      fdPos := (s.fs.fileTable x).fdPos +
        BitVec.ofNat 32 (rowRefs fdSlots (s.fs.fdTable p) (x : Int)) })
    (hfd : ∀ q, fs.fdTable q = if q = child then s.fs.fdTable p else s.fs.fdTable q) :
    PipeInv { fs := fs, alive := insert child s.alive } := by
  have hold : ∀ q ∈ s.alive, fs.fdTable q = s.fs.fdTable q := fun q hq => by
    rw [hfd, if_neg]
    rintro rfl
    exact hc hq
  have hrefs : ∀ x : ℕ, PipeState.refs { fs := fs, alive := insert child s.alive } x =
      rowRefs fdSlots (s.fs.fdTable p) (x : Int) + s.refs x := by
    intro x
    simp only [PipeState.refs]
    rw [refs_insert hc, hfd, if_pos rfl]
    congr 1
    exact refs_congr fun q hq k _ => by rw [hold q hq]
  refine ⟨?_, fun x hx => ?_, fun x => ?_, fun q hq j h8 x => ?_, fun x => ?_⟩
  · simp only [Finset.card_insert_of_notMem hc]
    omega
  · simp only [hfile]
    exact h.std x hx
  · simp only [hfile]
    exact h.only x
  · simp only [hfile]
    rcases Finset.mem_insert.mp hq with rfl | hq
    · rw [hfd, if_pos rfl]
      exact h.slot p hp j h8 x
    · rw [hold q hq]
      exact h.slot q hq j h8 x
  · simp only [hfile]
    intro hx
    obtain ⟨hpos, hlt⟩ := h.count x hx
    rw [hrefs, hpos, BitVec.ofNat_add, BitVec.add_comm]
    exact ⟨rfl, by omega⟩

theorem PipeInv.exit (h : PipeInv s) (hp : p ∈ s.alive)
    (hguard : ∀ k, 3 ≤ k → k < maxFilesOpenPerProc → PipeAt s.fs (s.fs.fdTable p k) →
      StdRef s (s.fs.fdTable p k) (fun q => q ≠ p) →
      CountedRef s (s.fs.fdTable p k) fun q _ => q ≠ p)
    (hfile : ∀ x, fs.fileTable x =
      File.release^[rowRefs fdSlots (s.fs.fdTable p) (x : Int)] (s.fs.fileTable x))
    (hfd : fs.fdTable = s.fs.fdTable) :
    PipeInv { fs := fs, alive := s.alive.erase p } := by
  have hrefs : ∀ x : ℕ, rowRefs fdSlots (s.fs.fdTable p) (x : Int) +
      PipeState.refs { fs := fs, alive := s.alive.erase p } x = s.refs x := by
    intro x
    simp only [PipeState.refs, hfd]
    exact refs_erase _ hp
  -- a reference from 3 on by somebody else keeps the page
  have hkeep : ∀ x, (s.fs.fileTable x).fdInode ≠ none →
      0 < PipeState.refs { fs := fs, alive := s.alive.erase p } x →
      (fs.fileTable x).fdInode ≠ none := by
    intro x hx hpos
    have hr := hrefs x
    have hrel := release_count (m := rowRefs fdSlots (s.fs.fdTable p) (x : Int)) (h.refs_lt x)
      (by omega) (h.count x hx).1
    rw [hfile, hrel.2, if_neg (by omega)]
    exact hx
  refine ⟨?_, fun x hx => ?_, fun x => ?_, fun q hq j h8 x => ?_, fun x => ?_⟩
  · exact (Finset.card_erase_le).trans h.card
  · simp only [hfile, release_flag]
    exact h.std x hx
  · simp only [hfile, release_flag]
    exact (h.only x).imp_right (release_none _)
  · intro hx h3x
    obtain ⟨hqp, hq⟩ := Finset.mem_erase.mp hq
    simp only [hfd] at hx
    have hslot := h.slot q hq j h8 x hx h3x
    by_cases hm : rowRefs fdSlots (s.fs.fdTable p) (x : Int) = 0
    · simp only [hfile, hm]
      exact hslot
    refine hkeep x hslot (PipeState.refs_pos.mpr ?_)
    by_cases hj3 : 3 ≤ j
    · exact ⟨q, Finset.mem_erase.mpr ⟨hqp, hq⟩, j, hj3, h8, trivial, by simp only [hfd]; exact hx⟩
    · obtain ⟨k, hk, hkx⟩ := rowRefs_pos_iff.mp (Nat.pos_of_ne_zero hm)
      obtain ⟨hk3, hk8⟩ := Finset.mem_Ico.mp hk
      have hat : PipeAt s.fs (s.fs.fdTable p k) := by
        rw [hkx]
        exact ⟨by omega, by simpa using h.flag hslot⟩
      obtain ⟨r, hr, i, hi3, hi8, hrp, hi⟩ :=
        hguard k hk3 hk8 hat ⟨q, hq, j, by omega, hqp, by rw [hx, hkx]⟩
      exact ⟨r, Finset.mem_erase.mpr ⟨hrp, hr⟩, i, hi3, hi8, trivial,
        by simp only [hfd]; rw [hi, hkx]⟩
  · intro hx
    have hin : (s.fs.fileTable x).fdInode ≠ none := fun hn => hx (by
      simp only [hfile]
      exact release_none _ hn)
    have hr := hrefs x
    have hrel := release_count (m := rowRefs fdSlots (s.fs.fdTable p) (x : Int)) (h.refs_lt x)
      (by omega) (h.count x hin).1
    have hpos := (h.count x hin).2
    have hne : s.refs x ≠ rowRefs fdSlots (s.fs.fdTable p) (x : Int) := by
      intro heq
      simp only [hfile, hrel.2] at hx
      exact hx (if_pos ⟨by omega, heq⟩)
    simp only [hfile, hrel.1]
    exact ⟨by congr 1; omega, by omega⟩

/-- **`sys_lseek` on a pipe** can only set the count to zero. -/
theorem sysLseek_pipe (fs0 : FsState) (ho : OnlyPipes fs0) {fd : Int}
    {offset : Word} {whence : Byte}
    (hguard : PipeAt fs0 (fs0.fdTable fs0.cur fd.toNat) →
      (whence = 1 → offset ≠ 0) ∧ (whence = 3 → offset ≠ -1) ∧
      (whence = 2 → offset ≠ -(fs0.fileTable (fs0.fdTable fs0.cur fd.toNat).toNat).fdPos)) :
    post (sysLseek fd offset whence) (fun _ s' => s' = fs0) fs0 := by
  rw [sysLseek, post]
  split
  · rfl
  rw [wp_bind, wp_ASSERT]
  refine ⟨fun hw => ?_, fun _ => trivial⟩
  rw [wp_bind]
  refine fdLocal2global_post fun g _ _ hg => ?_
  rw [wp_bind, wp_get]
  cases hin : (fs0.fileTable g).fdInode with
  | none => trivial
  | some h =>
    have hflag := (ho g).resolve_right (by simp [hin])
    have hgd := hguard ⟨by omega, by rw [hg]; exact hflag⟩
    rw [hg, Int.toNat_natCast] at hgd
    simp only [fdSize, if_pos hflag, seek]
    have hne : newPos whence (fs0.fileTable g).fdPos 1 offset ≠ 0 := by
      simp only [decide_eq_true_eq] at hw
      simp only [newPos]
      split
      · exact hgd.1 ‹_›
      split
      · have := hgd.2.2 ‹_›
        bv_omega
      split
      · have := hgd.2.1 ‹_›
        bv_omega
      · exfalso
        bv_omega
    rw [if_pos, wp_pure]
    have hlt : 0 < (newPos whence (fs0.fileTable g).fdPos 1 offset).toNat := by bv_omega
    rw [show ((1 : Word) - 1).toInt = 0 from rfl, BitVec.toInt_eq_toNat_cond]
    split <;> omega

end

/-- **One call** that the count keeps up with. -/
theorem pipeInv_step {s s' : PipeState} {act : PipeAct} (h : PipeInv s) (hc : Counted s act)
    (hs : PipeStep s act s') : PipeInv s' := by
  cases hs with
  | pipe hp hrun =>
    obtain ⟨-, j, k, h3, hjk, h8, hj, hk⟩ := hc
    obtain ⟨g, a, b, pg, hg3, -, hfree, ha, hb, hab, hfa, hfb, rfl⟩ :=
      (sysPipe_post h3 hjk h8 hj hk).ok hrun
    exact h.pipe hp hg3 hfree ha hb hab hfa hfb (fun _ => rfl) rfl
  | @fork p child fs hp hchild hpid hrun =>
    obtain ⟨hfile, hfd⟩ := (forkFiles_pipe (s := s.enter p) h.only child).ok hrun
    exact h.fork hp hchild hpid hfile hfd
  | forkFails hp => exact h
  | @close p fd ret fs hp hrun =>
    by_cases hfd : 2 < fd
    · obtain ⟨g, h8, hg, hflag, rfl⟩ := (sysClose_pipe (s := s.enter p) h.only hfd).ok hrun
      have hg : s.fs.fdTable p fd.toNat = g := hg
      have hflag : (s.fs.fileTable g).fdFlag = pipeFlag := hflag
      simp only [Counted, hg] at hc
      refine h.close hp (Finset.mem_Ico.mpr ?_) hg hflag (hc ⟨by omega, hflag⟩) (fun x => rfl) rfl
      simp only [maxFilesOpenPerProc] at h8 ⊢
      omega
    · rw [sysClose, if_neg hfd] at hrun
      obtain ⟨-, rfl⟩ := pure_eq_ok.1 hrun
      exact ⟨h.card, h.std, h.only, h.slot, h.count⟩
  | @redirect p old new fs hp hrun =>
    obtain ⟨_, s1, hchk, hrun⟩ := bind_eq_ok.mp hrun
    obtain ⟨hlt, rfl⟩ := check_eq_ok.mp hchk
    obtain rfl := modify_eq_ok.mp hrun
    simp only [decide_eq_true_eq] at hlt
    refine h.redirect hp (k := old)
      (v := if new < 3 then (new : Int) else s.fs.fdTable p new) (fun x hx h3 => ?_)
      (fun hold _ => ?_) rfl rfl
    · split at hx
      · omega
      · exact h.slot p hp new hlt.2 x hx h3
    · split
      · rename_i hnew
        rcases hc hold with ⟨h3, -⟩ | ⟨hnot, -⟩
        · omega
        · refine .inr ⟨hnot, fun hat => h.std new hnew ?_⟩
          simpa using hat.2
      · rename_i hnew
        exact (hc hold).imp (fun hh => hh.2) fun hh => ⟨hh.1, hh.2 (by omega)⟩
  | @lseek p fd offset ret whence fs hp hrun =>
    obtain rfl := (sysLseek_pipe (s.enter p) h.only hc).ok hrun
    exact ⟨h.card, h.std, h.only, h.slot, h.count⟩
  | @exit p fs hp hrun =>
    obtain rfl := (releaseFiles_pipe _ (s := s.enter p) h.only (Nat.le_refl 3)).ok hrun
    exact h.exit hp hc (fun _ => rfl) rfl

theorem pipeInv_init {s : PipeState} (h : pipeSys.init s) : PipeInv s := by
  obtain ⟨hcard, hfile, hfd⟩ := h
  refine ⟨hcard, fun g _ => (hfile g).2, fun g => .inr (hfile g).1, fun p hp k h8 g hg h3 => ?_,
    fun g hg => absurd (hfile g).1 hg⟩
  rw [hfd p hp k h8] at hg
  split at hg <;> omega

/-- **The life of a pipe.** In every state of every run of calls that the count keeps up with, the
page of an entry of `file_table` from 3 on is in use exactly if some slot, whatever its index, of a
process that has not exited refers to the entry. -/
theorem pipe_lifetime {s : PipeState} (h : pipeSys.Reach Counted s) {g : ℕ} (hg : 3 ≤ g) :
    (s.fs.fileTable g).fdInode ≠ none ↔
      ∃ p ∈ s.alive, ∃ fd < maxFilesOpenPerProc, s.fs.fdTable p fd = g := by
  have hinv : PipeInv s := TransSys.Reach.invariant (S := pipeSys) (I := PipeInv)
    (fun _ => pipeInv_init) (fun _ _ _ hi ha hs => pipeInv_step hi ha hs) h
  refine ⟨fun hin => ?_, fun ⟨p, hp, fd, h8, hfd⟩ => hinv.slot p hp fd h8 g hfd hg⟩
  obtain ⟨p, hp, k, -, h8, -, hk⟩ := PipeState.refs_pos.mp (hinv.count g hin).2
  exact ⟨p, hp, k, h8, hk⟩

/-! ### Two runs -/

/-- Process 1 alone, with nothing open. -/
def pipeStart : PipeState := ⟨rootOnly, {1}⟩

theorem pipeStart_init : pipeSys.init pipeStart := by
  refine ⟨by decide, fun g => ⟨rfl, ?_⟩, fun p _ fd _ => rfl⟩
  change (0 : Word) ≠ 0xffff
  decide

/-- It makes a pipe. -/
def pipeMade : PipeState :=
  { pipeStart with fs := (sysPipe (some 0xc0200000)).final (pipeStart.enter 1) }

theorem pipeStart_pipe : PipeStep pipeStart (.pipe 1 (some 0xc0200000)) pipeMade :=
  .pipe (by decide) (eq_ok_of_value? (a := (3, 4)) (by decide +kernel))

/-- It redirects its standard input to the pipe. -/
def pipeRedirected : PipeState :=
  { pipeMade with fs := (sysFdRedirect 0 3).final (pipeMade.enter 1) }

theorem pipeMade_redirect : PipeStep pipeMade (.redirect 1 0 3) pipeRedirected :=
  .redirect (by decide) (eq_ok_of_value? (by decide +kernel))

/-- It closes one of the two descriptors. -/
def pipeClosed : PipeState :=
  { pipeRedirected with fs := (sysClose 3).final (pipeRedirected.enter 1) }

theorem pipeRedirected_close : PipeStep pipeRedirected (.close 1 3) pipeClosed :=
  .close (by decide) (eq_ok_of_value? (a := 0) (by decide +kernel))

theorem pipe_lifetime_closed : (pipeClosed.fs.fileTable 3).fdInode = some 0xc0200000 ∧
    ((pipeClosed.fs.fileTable 3).fdInode ≠ none ↔
      ∃ p ∈ pipeClosed.alive, ∃ fd < maxFilesOpenPerProc, pipeClosed.fs.fdTable p fd = 3) := by
  have hmade : pipeSys.Reach Counted pipeMade :=
    .step (l := .pipe 1 (some 0xc0200000)) (.init pipeStart_init)
      ⟨⟨3, by decide, by decide, rfl⟩, 3, 4, by decide, by decide, by decide, by decide, by decide⟩
      pipeStart_pipe
  have hred : pipeSys.Reach Counted pipeRedirected :=
    .step (l := .redirect 1 0 3) hmade (fun h => absurd h (by decide)) pipeMade_redirect
  have hclosed : pipeSys.Reach Counted pipeClosed := by
    refine .step (l := .close 1 3) hred (fun _ _ => ?_) pipeRedirected_close
    exact ⟨1, by decide, 4, by decide, by decide, by decide, by decide +kernel⟩
  exact ⟨by decide +kernel, pipe_lifetime (g := 3) hclosed (Nat.le_refl 3)⟩

/-- **A page freed too early.** Standard input is redirected to a pipe, and both descriptors of the
pipe are closed. -/
theorem pipe_freed_early : ∃ s, pipeSys.Reachable s ∧ (s.fs.fileTable 3).fdInode = none ∧
    ∃ p ∈ s.alive, ∃ fd < maxFilesOpenPerProc, s.fs.fdTable p fd = 3 := by
  have hclosed : pipeSys.Reachable pipeClosed := .step (.step (.step (.init pipeStart_init) trivial
    pipeStart_pipe) trivial pipeMade_redirect) trivial pipeRedirected_close
  refine ⟨{ pipeClosed with fs := (sysClose 4).final (pipeClosed.enter 1) },
    .step hclosed trivial (l := .close 1 4) (.close (by decide) (eq_ok_of_value? (a := 0)
      (by decide +kernel))), by decide +kernel, 1, by decide, 0, by decide, by decide +kernel⟩

end X86Os
