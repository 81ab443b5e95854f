import X86Os.Userprog.AddressSpace
import X86Os.Userprog.FdTable
import X86Os.Thread.TaskInv

/-!
# A fork that fails

`sys_fork` takes a page for the PCB of the child, a page to copy through, a pid, 23 pages for the
bitmap of the child's addresses and a page for its directory, one after the other, and returns -1 as
soon as `get_kernel_pages` returns `NULL`. Nothing that it has taken until then is given back.

What a fork does is described elsewhere piece by piece: to memory in `AddressSpace`, to the task
lists in `Task`, to the files in `FdTable`. Here the three are one, with the statements in the order
of the source, because which resource is missing decides what has happened to the others.

## Which request can fail

A request for one page never returns `NULL`: `bitmap_scan` stops the kernel if its bitmap is full,
and so does the scan of the frames. Only the request for 23 pages can, if the virtual pages that are
left are scattered. So there is one way to a result of -1, and it leaves two pages and a pid behind.
`BitmapDenied` is this way as a condition on the state before the call.
-/

namespace X86Os.Fork

open X86Os.Comp X86Os.Mem

/-! ### The model -/

/-- Memory, the tasks and the files. -/
structure ForkState where
  mem : MemState
  tasks : TaskState
  fs : FsState

def onMem {α : Type} (x : Kern MemState α) : Kern ForkState α :=
  zoom ForkState.mem (fun s m => { s with mem := m }) x

def onTasks {α : Type} (x : Kern TaskState α) : Kern ForkState α :=
  zoom ForkState.tasks (fun s t => { s with tasks := t }) x

def onFs {α : Type} (x : Kern FsState α) : Kern ForkState α :=
  zoom ForkState.fs (fun s f => { s with fs := f }) x

/-- `memcpy(child_thread, parent_thread, PG_SIZE)`. -/
def copyPcbPage (child parent : ℕ) : Kern ForkState Unit := do
  onMem (modify fun m => { m with task := Function.update m.task child (m.task parent) })
  onTasks (modify fun t => t.updTask child fun _ => t.task parent)
  onFs (modify fun f =>
    { f with fdTable := fun p => if p = child then f.fdTable parent else f.fdTable p })

/-- `copy_pcb_vaddrbitmap_stack0`; false is -1. -/
def copyPcbVaddrbitmapStack0 (child parent : ℕ) : Kern ForkState Bool := do
  copyPcbPage child parent
  let pid ← onTasks allocatePid
  onTasks (modify fun t => t.updTask child fun p =>
    { p with
      pid := pid
      elapsedTicks := 0
      status := .ready
      ticks := p.priority
      parentPid := (t.task parent).pid })
  onMem (initDescs child)
  let vaddrBtmp ← onMem (getKernelPages bitmapPgCnt)
  if vaddrBtmp = 0 then pure false
  else
    onMem (modifyTask child fun t => { t with bits := vaddrBtmp })
    pure true

/-- The part of `copy_process` after `copy_pcb_vaddrbitmap_stack0`. -/
def finish (child parent bufPage : ℕ) : Kern ForkState Bool := do
  let pgdir ← onMem createPageDir
  onMem (modifyTask child fun t => { t with pgdir := pgdir })
  onTasks (modify fun t => t.updTask child fun p => { p with pgdir := decide (pgdir ≠ 0) })
  if pgdir = 0 then pure false
  else
    onMem (copyBodyStack3 child parent bufPage)
    -- `build_child_stack`: the child starts in `intr_exit`, with the user's eflags
    onTasks (modify fun t => { t with oldIntr := Function.update t.oldIntr child true })
    onFs (updateInodeOpenCnts child (maxFilesOpenPerProc - 3) 3)
    onMem (mfreePage .kernel bufPage 1)
    pure true

/-- `copy_process`; false is -1. -/
def copyProcess (child parent : ℕ) : Kern ForkState Bool := do
  let bufPage ← onMem (getKernelPages 1)
  if bufPage = 0 then pure false
  else
    let copied ← copyPcbVaddrbitmapStack0 child parent
    if copied = false then pure false else finish child parent bufPage

/-- `sys_fork`: the child's pid, or -1. -/
def sysFork : Kern ForkState Int := do
  let s ← get
  let parentThread := s.tasks.cur
  let childThread ← onMem (getKernelPages 1)
  if childThread = 0 then pure (-1)
  else
    onTasks (takePage childThread)
    let s ← get
    ASSERT .sysFork (s.tasks.intr = false ∧ (s.mem.task parentThread).pgdir ≠ 0)
    let copied ← copyProcess childThread parentThread
    if copied = false then pure (-1)
    else
      onTasks (enlist .sysFork childThread)
      let s ← get
      pure (s.tasks.task childThread).pid

/-! ### What should be left as it was -/

/-- The lists of threads, the open counts of the inodes and the counts of the pipes, which are in
`fd_pos`, are the same. -/
structure SameUsers (s s' : ForkState) : Prop where
  threadReadyList : s'.tasks.threadReadyList = s.tasks.threadReadyList
  threadAllList : s'.tasks.threadAllList = s.tasks.threadAllList
  iOpenCnts : ∀ h, (s'.fs.inode h).iOpenCnts = (s.fs.inode h).iOpenCnts
  fdPos : ∀ g, (s'.fs.fileTable g).fdPos = (s.fs.fileTable g).fdPos

/-- What a fork leaves behind: `n` frames and a pid are gone. -/
structure LeftBehind (n : ℕ) (s s' : ForkState) : Prop extends SameUsers s s' where
  frames : s.mem.kernelPool.free = s'.mem.kernelPool.free + n
  pid : ∃ i, TakesPid s.tasks.pidBitmap s'.tasks.pidBitmap i

/-- There are virtual pages, but no row of them for the bitmap of a process. -/
def Scattered (v : VirtualAddr) : Prop := v.Room 1 ∧ ¬ v.Room bitmapPgCnt

def FreePid (t : TaskState) : Prop :=
  ∃ i < 8 * t.pidBitmap.btmpBytesLen, t.pidBitmap.bit i = false

/-- **The bitmap of the child finds no room.** A process calls with interrupts off, there are two
frames and a pid, and what is left of the virtual pages without the two lowest is scattered. -/
def BitmapDenied (s : ForkState) : Prop :=
  s.tasks.intr = false ∧ (s.mem.task s.tasks.cur).pgdir ≠ 0 ∧ 2 ≤ s.mem.kernelPool.free ∧
  FreePid s.tasks ∧
  ∃ p q, s.mem.kernelVaddr.FirstRun p 1 ∧ (s.mem.kernelVaddr.mark p 1 true).FirstRun q 1 ∧
    Scattered ((s.mem.kernelVaddr.mark p 1 true).mark q 1 true)

/-! ### Pages -/

section

variable {live dead : Set ℕ} {m m' : MemState} {p n : ℕ}

/-- PCBs and descriptors of the heap are no part of the page tables. -/
theorem paged_with (h : Paged m live dead) (task : ℕ → Mem.Task) (desc : ℕ → MemBlockDesc) :
    Paged { m with task := task, desc := desc } live dead :=
  ⟨⟨h.layout.1, h.layout.2, h.layout.3, h.layout.4, h.layout.5, h.layout.6, h.layout.7⟩, h.shares,
    h.page, h.excl, h.side, h.lowMem, h.running, h.tlb⟩

theorem kernelPages_marked (h : Paged m live dead) (hp : KernelPages live dead m m' p n)
    (hm : KernelMarked m) : KernelMarked m' := by
  intro v hv hne
  obtain ⟨f, hf⟩ := Option.ne_none_iff_exists'.1 hne
  have hvaddr : m'.kernelVaddr = m.kernelVaddr.mark p n true := hp.rest.kernelVaddr
  have hfirst : m.kernelVaddr.first ≤ v := by
    rw [h.layout.heapFirst]
    exact (Use.valid_kpage.1 hv).1
  rw [hvaddr, VirtualAddr.marked_mark hp.first.run.1 hfirst]
  split
  · rfl
  · rename_i hout
    rcases hp.grows.fresh (.kpage v) f ⟨hv, hf⟩ with hold | ⟨⟨k, hk, he⟩, -⟩
    · refine hm v hv ?_
      rw [hold.2]
      exact Option.some_ne_none f
    · cases he
      exact absurd ⟨Nat.le_add_right p k, Nat.add_lt_add_left hk p⟩ hout

/-- **One page**: there is no result but a page. -/
theorem getKernelPages_one (h : Paged m live dead) (htlb : Flushed m) (hm : KernelMarked m) :
    wp (getKernelPages 1) (fun r m' => ∃ p, r = p * pgSize ∧ r ≠ 0 ∧
      KernelPages live dead m m' p 1 ∧
      KernelMarked m') (fun _ => m.kernelPool.free < 1 ∨ ¬ m.kernelVaddr.Room 1) m := by
  refine getKernelPages_grows h htlb (fun hc => absurd ⟨Nat.one_pos, by decide⟩ hc)
    (fun hc => absurd hm hc) (fun hc => hc.imp_left And.right) (fun hc => absurd rfl hc)
    fun p m' hp => ⟨p, rfl, ?_, hp, kernelPages_marked h hp hm⟩
  have hfirst := hp.first.run.1
  rw [h.layout.heapFirst] at hfirst
  simp only [pgSize]
  omega

/-- **The pages of the bitmap**: `NULL` if what is left is scattered. -/
theorem getKernelPages_bitmap (h : Paged m live dead) (htlb : Flushed m) (hm : KernelMarked m) :
    wp (getKernelPages bitmapPgCnt) (fun r m' => r = 0 ∧ m' = m ∧ Scattered m.kernelVaddr ∨
      r ≠ 0 ∧ ¬ Scattered m.kernelVaddr ∧ Paged m' live dead ∧ Flushed m' ∧ KernelMarked m')
      (fun _ => ¬ Scattered m.kernelVaddr) m := by
  refine getKernelPages_grows h htlb (fun hc => absurd (by decide) hc) (fun hc => absurd hm hc)
    (fun hc hs => ?_) (fun _ hroom hone => .inl ⟨rfl, rfl, hone, hroom⟩) fun p m' hp => ?_
  · exact hc.elim (fun hroom => hs.2 hroom.1) fun hone => hone hs.1
  · refine .inr ⟨?_, fun hs => hs.2 ⟨p, hp.first.run, hp.first.clear⟩, hp.grows.paged,
      htlb.congr hp.tlb, kernelPages_marked h hp hm⟩
    have hfirst := hp.first.run.1
    rw [h.layout.heapFirst] at hfirst
    simp only [pgSize]
    omega

/-- A directory, once there is a page for it. -/
theorem createPageDir_ne_zero (h : Paged m live dead) (htlb : Flushed m) (hm : KernelMarked m) :
    post createPageDir (fun r _ => r ≠ 0) m := by
  rw [createPageDir, post, wp_bind]
  refine (getKernelPages_one h htlb hm).mono ?_ fun _ _ => trivial
  rintro r m' ⟨p, -, hr, -⟩
  rw [if_neg hr, wp_bind]
  refine post_of_forall fun _ _ => ?_
  rw [wp_bind]
  refine post_of_forall fun _ _ => ?_
  rw [wp_bind]
  exact post_of_forall fun _ _ => hr

end

/-! ### The calls -/

section

variable {live dead : Set ℕ} {s : ForkState} {child parent : ℕ}

theorem allocatePid_free (t : TaskState) : wp allocatePid (fun pid t' => ∃ (i : ℕ) (b : Bitmap),
    pid = i + 1 ∧ TakesPid t.pidBitmap b i ∧ t' = { t with pidBitmap := b })
    (fun _ => ¬ FreePid t) t := by
  simp only [allocatePid, wp_bind, wp_get, wp_lift, wp_modify, wp_pure]
  refine ⟨fun r hr => ?_, fun f hf hfree => ?_⟩
  · obtain ⟨i, rfl, hlt, hc, -⟩ := bitmapScan_one hr
    exact ⟨i, _, rfl, ⟨hlt, hc, rfl⟩, by simp⟩
  · obtain ⟨i, hi, hc⟩ := hfree
    rw [full_of_bitmapScan_error hf hi] at hc
    cases hc

/-- **The pid and the bitmap.** -/
theorem copyPcb_wp (h : Paged s.mem live dead) (htlb : Flushed s.mem) (hm : KernelMarked s.mem) :
    wp (copyPcbVaddrbitmapStack0 child parent) (fun copied s' =>
      copied = false ∧ (FreePid s.tasks ∧ Scattered s.mem.kernelVaddr) ∧ LeftBehind 0 s s' ∨
      copied = true ∧ ¬ Scattered s.mem.kernelVaddr ∧
        Paged s'.mem live dead ∧ Flushed s'.mem ∧ KernelMarked s'.mem ∧
        0 < (s'.tasks.task child).pid)
      (fun _ => ¬ (FreePid s.tasks ∧ Scattered s.mem.kernelVaddr)) s := by
  simp only [copyPcbVaddrbitmapStack0, copyPcbPage, onMem, onTasks, onFs, initDescs, modifyTask,
    wp_bind, wp_zoom, wp_modify]
  refine (allocatePid_free _).mono ?_ fun _ hc hd => hc hd.1
  rintro _ _ ⟨i, b, rfl, htakes, rfl⟩
  have hbitmap := fun task desc => getKernelPages_bitmap (paged_with h task desc) htlb hm
  refine (hbitmap _ _).mono ?_ fun _ hc (hd : _ ∧ _) => hc hd.2
  rintro r m' (⟨rfl, rfl, hs⟩ | ⟨hr, hs, hp, htlb', hm'⟩)
  · rw [if_pos rfl, wp_pure]
    exact .inl ⟨rfl, ⟨⟨i, htakes.1, htakes.2.1⟩, hs⟩, ⟨rfl, rfl, fun _ => rfl,
      fun _ => rfl⟩, rfl, i,
      htakes⟩
  · rw [if_neg hr]
    simp only [wp_bind, wp_zoom, wp_modify]
    refine .inr ⟨rfl, hs, paged_with hp _ m'.desc, htlb', hm', ?_⟩
    rw [TaskState.task_updTask, if_pos rfl]
    dsimp only
    omega

/-- One page less is scattered, if the lowest is taken. -/
def ScatteredNext (v : VirtualAddr) : Prop := ∃ q, v.FirstRun q 1 ∧ Scattered (v.mark q 1 true)

theorem scatteredNext_iff {v : VirtualAddr} {q : ℕ} (hq : v.FirstRun q 1) :
    ScatteredNext v ↔ Scattered (v.mark q 1 true) := by
  refine ⟨fun ⟨p, hp, hs⟩ => ?_, fun hs => ⟨q, hq, hs⟩⟩
  rwa [hp.unique hq] at hs

/-- The rest of `copy_process`, after the bitmap. It may stop, but it does not fail. -/
theorem finish_post {bufPage : ℕ} (h : Paged s.mem live dead) (htlb : Flushed s.mem)
    (hm : KernelMarked s.mem) (hpid : 0 < (s.tasks.task child).pid) :
    post (finish child parent bufPage)
      (fun copied s' => copied = true ∧ 0 < (s'.tasks.task child).pid) s := by
  simp only [finish, onMem, onTasks, onFs, modifyTask, wp_bind, wp_zoom, wp_modify]
  refine (createPageDir_ne_zero h htlb hm).mono (fun pgdir m1 hne => ?_) fun _ => id
  rw [if_neg hne]
  simp only [wp_bind, wp_zoom, wp_modify]
  refine post_of_forall fun _ m2 => post_of_forall fun _ f => post_of_forall fun _ m3 => ?_
  rw [wp_pure, TaskState.task_updTask, if_pos rfl]
  exact ⟨rfl, hpid⟩

/-- **The resources of the child.** -/
theorem copyProcess_wp (child parent : ℕ) (h : Paged s.mem live dead) (htlb : Flushed s.mem)
    (hm : KernelMarked s.mem) :
    wp (copyProcess child parent) (fun copied s' =>
      copied = false ∧ (1 ≤ s.mem.kernelPool.free ∧ FreePid s.tasks ∧
        ScatteredNext s.mem.kernelVaddr) ∧ LeftBehind 1 s s' ∨
      copied = true ∧ ¬ ScatteredNext s.mem.kernelVaddr ∧ 0 < (s'.tasks.task child).pid)
      (fun _ => ¬ (1 ≤ s.mem.kernelPool.free ∧ FreePid s.tasks ∧
        ScatteredNext s.mem.kernelVaddr)) s := by
  simp only [copyProcess, onMem, wp_bind, wp_zoom]
  refine (getKernelPages_one h htlb hm).mono ?_ fun _ hc hd => ?_
  case refine_2 =>
    obtain ⟨hfree, -, q, hq, -⟩ := hd
    exact hc.elim (Nat.not_lt.2 hfree) fun hone => hone ⟨q, hq.run, hq.clear⟩
  rintro _ m1 ⟨p, rfl, hr, hp, hm1⟩
  have hvaddr : m1.kernelVaddr = s.mem.kernelVaddr.mark p 1 true := hp.rest.kernelVaddr
  have hfree := hp.free
  rw [if_neg hr, wp_bind, scatteredNext_iff hp.first, ← hvaddr]
  refine (copyPcb_wp (s := { s with mem := m1 }) hp.grows.paged (htlb.congr hp.tlb) hm1).mono ?_
    fun _ hc (hd : _ ∧ _) => hc hd.2
  rintro copied s2 (⟨rfl, ⟨hpid, hs⟩, hleft⟩ | ⟨rfl, hs, hp2, htlb2, hm2, hpid⟩)
  · rw [if_pos rfl, wp_pure]
    have hframes : m1.kernelPool.free = s2.mem.kernelPool.free + 0 := hleft.frames
    exact .inl ⟨rfl, ⟨by omega, hpid, hs⟩, ⟨hleft.threadReadyList, hleft.threadAllList,
      hleft.iOpenCnts, hleft.fdPos⟩, by omega, hleft.pid⟩
  · -- what is left to do may stop, but does not fail
    rw [if_neg (by decide)]
    refine (finish_post hp2 htlb2 hm2 hpid).mono (fun copied s' hQ => .inr ⟨hQ.1, hs, hQ.2⟩)
      fun _ _ hd => hs hd.2.2

/-- **`sys_fork`** returns -1 exactly if the bitmap of the child finds no room. -/
theorem sysFork_wp (h : Paged s.mem live dead) (htlb : Flushed s.mem) (hm : KernelMarked s.mem) :
    wp sysFork (fun r s' => r = -1 ∧ BitmapDenied s ∧ LeftBehind 2 s s' ∨
      r ≠ -1 ∧ ¬ BitmapDenied s) (fun _ => ¬ BitmapDenied s) s := by
  simp only [sysFork, onMem, onTasks, takePage, wp_bind, wp_get, wp_zoom]
  refine (getKernelPages_one h htlb hm).mono ?_ fun _ hc hd => ?_
  case refine_2 =>
    obtain ⟨-, -, hfree, -, p, -, hp, -⟩ := hd
    exact hc.elim (fun hlt => by omega) fun hone => hone ⟨p, hp.run, hp.clear⟩
  rintro _ m1 ⟨p, rfl, hr, hp, hm1⟩
  have hvaddr : m1.kernelVaddr = s.mem.kernelVaddr.mark p 1 true := hp.rest.kernelVaddr
  have htask : m1.task = s.mem.task := hp.rest.task.trans rfl
  have hfree := hp.free
  have hdenied : BitmapDenied s ↔ s.tasks.intr = false ∧ (s.mem.task s.tasks.cur).pgdir ≠ 0 ∧
      1 ≤ m1.kernelPool.free ∧ FreePid s.tasks ∧ ScatteredNext m1.kernelVaddr := by
    rw [hvaddr, BitmapDenied]
    refine and_congr_right fun _ => and_congr_right fun _ => and_congr (by omega) ?_
    refine and_congr_right fun _ => ⟨?_, ?_⟩
    · rintro ⟨p', q, hp', hq, hs⟩
      rw [hp'.unique hp.first] at hq hs
      exact ⟨q, hq, hs⟩
    · rintro ⟨q, hq, hs⟩
      exact ⟨p, q, hp.first, hq, hs⟩
  rw [if_neg hr]
  simp only [wp_bind, wp_zoom, wp_modify, wp_get, wp_ASSERT, htask, hdenied]
  refine ⟨fun hassert => ?_, fun hassert hd => ?_⟩
  case refine_2 => exact of_decide_eq_false hassert ⟨hd.1, hd.2.1⟩
  obtain ⟨hintr, hpgdir⟩ := of_decide_eq_true hassert
  have hcopy := copyProcess_wp (p * pgSize) s.tasks.cur (s := { s with
    mem := m1, tasks := { s.tasks with page := Function.update s.tasks.page (p * pgSize) true } })
    hp.grows.paged (htlb.congr hp.tlb) hm1
  refine hcopy.mono ?_ fun _ hc (hd : _ ∧ _) => hc hd.2.2
  rintro copied s2 (⟨rfl, hcond, hleft⟩ | ⟨rfl, hs, hpid⟩)
  · rw [if_pos rfl, wp_pure]
    have hframes : m1.kernelPool.free = s2.mem.kernelPool.free + 1 := hleft.frames
    exact .inl ⟨rfl, ⟨hintr, hpgdir, hcond⟩, ⟨hleft.threadReadyList, hleft.threadAllList,
      hleft.iOpenCnts, hleft.fdPos⟩, by omega, hleft.pid⟩
  · have hnot : ¬ (s.tasks.intr = false ∧ (s.mem.task s.tasks.cur).pgdir ≠ 0 ∧
        1 ≤ m1.kernelPool.free ∧ FreePid s.tasks ∧ ScatteredNext m1.kernelVaddr) :=
      fun hd => hs hd.2.2.2.2
    rw [if_neg (by decide)]
    simp only [enlist, wp_bind, wp_zoom, wp_get, wp_modify, wp_ASSERT, wp_pure]
    refine ⟨fun _ => ⟨fun _ => .inr ⟨?_, hnot⟩, fun _ => hnot⟩, fun _ => hnot⟩
    omega

end

section

variable {bits : ℕ → Byte} {v : ℕ}

end

end X86Os.Fork
