import X86Os.Kernel.Bitmap
import Mathlib.Logic.Function.Basic
import Mathlib.Data.List.Basic

/-!
# Tasks and the scheduler

`thread/thread.c`, the scheduling half of `thread/sync.c`, the timer handler and the process
creation of `userprog/fork.c`, as far as they touch the task lists. Each routine is the source's,
statement by statement, in the monad of computations that may stop.

## What a state is

A PCB is the page it sits in, so a task is a page address and `task` is the memory of the PCBs.
`page` records the PCB pages that `get_kernel_pages` has handed out and `mfree_page` has not taken
back; which page it hands out is an argument of the routines that ask for one, so nothing here
depends on the allocator's policy.

A list of tags is a list of tasks. `general_tag` is one pair of links that the ready list and the
semaphores' wait queues share, and a task linked into two of them at once would have no meaning as
two lists: that it never happens is part of the invariant proved about this model.

`live` is a ghost. A task is live from the return of the routine that creates it until
`thread_exit`; a fork that fails half way leaves a page that was never a task.

## Switching

`switch_to` saves the registers of one thread and restores those of another, so what follows
`schedule` in the source is the rest of the *resumed* thread: it restores the interrupt status that
thread saved before it left. `oldIntr` is that saved status.
-/

namespace X86Os

/-- `enum task_status`. -/
inductive TaskStatus
  | running | ready | blocked | waiting | hanging | died
  deriving DecidableEq, Repr

/-- The statuses `thread_block` may set and `thread_unblock` accepts. -/
def TaskStatus.isBlocked : TaskStatus → Bool
  | blocked | waiting | hanging => true
  | _ => false

/-- `struct task_struct`. `pgdir` is whether the task has a page directory of its own. -/
structure Task where
  pid : Int
  status : TaskStatus
  priority : Byte
  ticks : Byte
  elapsedTicks : Word
  pgdir : Bool
  parentPid : Int
  exitStatus : Byte
  stackMagic : Word

/-- The fields of a PCB that scheduling does not touch. -/
def Task.ident (p : Task) : Int × Int × Byte × Bool × Word :=
  (p.pid, p.parentPid, p.exitStatus, p.pgdir, p.stackMagic)

/-- `struct semaphore`. -/
structure Semaphore where
  value : Byte
  waiters : List ℕ

/-- What the thread code keeps. -/
structure TaskState where
  /-- The PCB in each page. -/
  task : ℕ → Task
  /-- The PCB pages in use. -/
  page : ℕ → Bool
  /-- The tasks created and not exited (ghost). -/
  live : ℕ → Bool
  threadReadyList : List ℕ
  threadAllList : List ℕ
  sema : ℕ → Semaphore
  idleThread : ℕ
  gMainThread : ℕ
  /-- The page the stack pointer is in: `running_thread()`. -/
  cur : ℕ
  /-- Whether interrupts are on. -/
  intr : Bool
  /-- The interrupt status a suspended thread restores when it resumes. -/
  oldIntr : ℕ → Bool
  /-- `pid_pool.pid_bitmap`. -/
  pidBitmap : Bitmap

namespace TaskState

/-- Rewrite one PCB. -/
def updTask (s : TaskState) (t : ℕ) (f : Task → Task) : TaskState :=
  { s with task := Function.update s.task t (f (s.task t)) }

/-- `t->status = stat`. -/
def setStatus (s : TaskState) (t : ℕ) (stat : TaskStatus) : TaskState :=
  s.updTask t fun p => { p with status := stat }

/-- Rewrite one semaphore. -/
def updSema (s : TaskState) (m : ℕ) (f : Semaphore → Semaphore) : TaskState :=
  { s with sema := Function.update s.sema m (f (s.sema m)) }

section

variable (s : TaskState) (t m : ℕ) (f : Task → Task) (g : Semaphore → Semaphore)
  (stat : TaskStatus) (u : ℕ)

theorem task_updTask :
    (s.updTask t f).task u = if u = t then f (s.task t) else s.task u :=
  Function.update_apply ..

/-- A field that the update keeps is kept in every task. -/
theorem field_updTask {α : Type} {p : Task → α} (h : p (f (s.task t)) = p (s.task t)) :
    p ((s.updTask t f).task u) = p (s.task u) := by
  rw [task_updTask]
  split
  · subst u; exact h
  · rfl

theorem status_setStatus :
    ((s.setStatus t stat).task u).status = if u = t then stat else (s.task u).status := by
  rw [setStatus, task_updTask]
  split <;> rfl

@[simp] theorem ident_setStatus :
    ((s.setStatus t stat).task u).ident = (s.task u).ident :=
  field_updTask s t _ u (p := Task.ident) rfl

theorem sema_updSema :
    (s.updSema m g).sema u = if u = m then g (s.sema m) else s.sema u :=
  Function.update_apply ..

end

end TaskState

open X86Os.Comp TaskState

/-! ### Interrupts -/

/-- `intr_disable`, which returns the status before it. -/
def intrDisable : Kern TaskState Bool := do
  let s ← get
  modify fun s => { s with intr := false }
  pure s.intr

/-- `intr_set_status`. -/
def intrSetStatus (status : Bool) : Kern TaskState Unit := modify fun s => { s with intr := status }

/-! ### Scheduling -/

/-- `thread_unblock`. -/
def threadUnblock (pthread : ℕ) : Kern TaskState Unit := do
  let oldStatus ← intrDisable
  let s ← get
  ASSERT .threadUnblock (s.task pthread).status.isBlocked
  if (s.task pthread).status ≠ .ready then
    ASSERT .threadUnblock (pthread ∉ s.threadReadyList)
    if pthread ∈ s.threadReadyList then stop (.panic .threadUnblock)
    modify fun s => { s with threadReadyList := pthread :: s.threadReadyList }
    modify fun s => s.setStatus pthread .ready
  intrSetStatus oldStatus

/-- `switch_to`, and the status the resumed thread then restores. -/
def switchTo (next : ℕ) : Kern TaskState Unit :=
  modify fun s => { s with cur := next, intr := s.oldIntr next }

/-- The part of `schedule` that puts the running thread back into the ready list. -/
def schedulePutBack : Kern TaskState Unit := do
  let s ← get
  if (s.task s.cur).status = .running then
    ASSERT .schedule (s.cur ∉ s.threadReadyList)
    modify fun s => { s with threadReadyList := s.threadReadyList ++ [s.cur] }
    modify fun s => s.updTask s.cur fun p => { p with ticks := p.priority, status := .ready }

/-- The part of `schedule` that wakes the idle thread when nothing else can run. -/
def scheduleWakeIdle : Kern TaskState Unit := do
  let s ← get
  if s.threadReadyList = [] then threadUnblock s.idleThread

/-- The part of `schedule` that picks the next thread and switches to it. -/
def schedulePick : Kern TaskState Unit := do
  let s ← get
  ASSERT .schedule (s.threadReadyList ≠ [])
  match s.threadReadyList with
  | [] => stop .wild
  | next :: rest =>
    modify fun s => { s with threadReadyList := rest }
    modify fun s => s.setStatus next .running
    switchTo next

/-- `schedule`. -/
def schedule : Kern TaskState Unit := do
  let s ← get
  ASSERT .schedule (!s.intr)
  schedulePutBack
  scheduleWakeIdle
  schedulePick

/-- Note the interrupt status the running thread restores when it is resumed. -/
def saveIntr (status : Bool) : Kern TaskState Unit :=
  modify fun s => { s with oldIntr := Function.update s.oldIntr s.cur status }

/-- `thread_block`. -/
def threadBlock (stat : TaskStatus) : Kern TaskState Unit := do
  ASSERT .threadBlock stat.isBlocked
  let oldStatus ← intrDisable
  saveIntr oldStatus
  modify fun s => s.setStatus s.cur stat
  schedule

/-- `thread_yield`. -/
def threadYield : Kern TaskState Unit := do
  let oldStatus ← intrDisable
  saveIntr oldStatus
  let s ← get
  ASSERT .threadYield (s.cur ∉ s.threadReadyList)
  modify fun s => { s with threadReadyList := s.threadReadyList ++ [s.cur] }
  modify fun s => s.setStatus s.cur .ready
  schedule

/-- `intr_timer_handler`, entered through an interrupt gate and left by `iret`. -/
def intrTimerHandler : Kern TaskState Unit := do
  let oldStatus ← intrDisable
  saveIntr oldStatus
  let s ← get
  ASSERT .intrTimerHandler ((s.task s.cur).stackMagic = 0x19870916#32)
  modify fun s => s.updTask s.cur fun p => { p with elapsedTicks := p.elapsedTicks + 1 }
  if (s.task s.cur).ticks = 0 then schedule
  else
    modify fun s => s.updTask s.cur fun p => { p with ticks := p.ticks - 1 }
    intrSetStatus oldStatus

/-! ### Semaphores -/

/-- `sema_down`, until it has taken the semaphore or blocked. A thread that blocked here runs the
loop again when it is resumed. -/
def semaDown (psema : ℕ) : Kern TaskState Unit := do
  let oldStatus ← intrDisable
  let s ← get
  if (s.sema psema).value = 0 then
    ASSERT .semaDown (s.cur ∉ (s.sema psema).waiters)
    if s.cur ∈ (s.sema psema).waiters then stop (.panic .semaDown)
    modify fun s => s.updSema psema fun m => { m with waiters := m.waiters ++ [s.cur] }
    threadBlock .blocked
  else
    modify fun s => s.updSema psema fun m => { m with value := m.value - 1 }
    let s ← get
    ASSERT .semaDown ((s.sema psema).value = 0)
    intrSetStatus oldStatus

/-- The part of `sema_up` that wakes the first waiter. -/
def semaWake (psema : ℕ) : Kern TaskState Unit := do
  let s ← get
  match (s.sema psema).waiters with
  | [] => pure ()
  | threadBlocked :: rest =>
    modify fun s => s.updSema psema fun m => { m with waiters := rest }
    threadUnblock threadBlocked

/-- `sema_up`. -/
def semaUp (psema : ℕ) : Kern TaskState Unit := do
  let oldStatus ← intrDisable
  let s ← get
  ASSERT .semaUp ((s.sema psema).value = 0)
  semaWake psema
  modify fun s => s.updSema psema fun m => { m with value := m.value + 1 }
  let s ← get
  ASSERT .semaUp ((s.sema psema).value = 1)
  intrSetStatus oldStatus

/-! ### Creation -/

/-- `allocate_pid`. Its lock is free whenever it is reached: the sections that take it run with
interrupts off. -/
def allocatePid : Kern TaskState Int := do
  let s ← get
  let bitIdx ← lift (bitmapScan s.pidBitmap 1)
  modify fun s => { s with pidBitmap := bitmapSet s.pidBitmap bitIdx.toNat true }
  pure (bitIdx + 1)

/-- `release_pid`. -/
def releasePid (pid : Int) : Kern TaskState Unit := do
  if pid < 1 then stop .wild
  modify fun s => { s with pidBitmap := bitmapSet s.pidBitmap (pid - 1).toNat false }

/-- A page from `get_kernel_pages(1)` for a PCB. -/
def takePage (t : ℕ) : Kern TaskState Unit :=
  modify fun s => { s with page := Function.update s.page t true }

/-- `init_thread`. The thread starts in `kernel_thread`, which turns interrupts on. -/
def initThread (pthread : ℕ) (prio : Byte) : Kern TaskState Unit := do
  let pid ← allocatePid
  modify fun s => s.updTask pthread fun _ =>
    { pid := pid
      status := if pthread = s.gMainThread then .running else .ready
      priority := prio
      ticks := prio
      elapsedTicks := 0
      pgdir := false
      parentPid := -1
      exitStatus := 0
      stackMagic := 0x19870916#32 }
  modify fun s => { s with oldIntr := Function.update s.oldIntr pthread true }

/-- The two list insertions that end `thread_start`, `process_execute` and `sys_fork`, with the
`ASSERT`s of the function they stand in. -/
def enlist (func : Func) (t : ℕ) : Kern TaskState Unit := do
  let s ← get
  ASSERT func (t ∉ s.threadReadyList)
  modify fun s => { s with threadReadyList := s.threadReadyList ++ [t] }
  let s ← get
  ASSERT func (t ∉ s.threadAllList)
  modify fun s => { s with threadAllList := s.threadAllList ++ [t] }
  modify fun s => { s with live := Function.update s.live t true }

/-- `thread_start`. It does not test the page for `NULL`. -/
def threadStart (pg : Option ℕ) (prio : Byte) : Kern TaskState Unit :=
  match pg with
  | none => stop .wild
  | some thread => do
    takePage thread
    initThread thread prio
    enlist .threadStart thread

/-- `process_execute`, which `thread_init` calls once, for `init`. -/
def processExecute (pg : Option ℕ) : Kern TaskState Unit :=
  match pg with
  | none => stop .wild
  | some thread => do
    takePage thread
    initThread thread 31
    modify fun s => s.updTask thread fun p => { p with pgdir := true }
    let oldStatus ← intrDisable
    enlist .processExecute thread
    intrSetStatus oldStatus

/-- `make_main_thread`. -/
def makeMainThread : Kern TaskState Unit := do
  modify fun s => { s with gMainThread := s.cur }
  let s ← get
  initThread s.gMainThread 31
  let s ← get
  ASSERT .makeMainThread (s.gMainThread ∉ s.threadAllList)
  modify fun s => { s with threadAllList := s.threadAllList ++ [s.gMainThread] }
  modify fun s => { s with live := Function.update s.live s.gMainThread true }

/-- `thread_init`, given the pages for `init` and for the idle thread. -/
def threadInit (initPage idlePage : ℕ) : Kern TaskState Unit := do
  modify fun s => { s with threadReadyList := [], threadAllList := [] }
  modify fun s => { s with pidBitmap := bitmapInit 128 }
  processExecute (some initPage)
  makeMainThread
  threadStart (some idlePage) 10
  modify fun s => { s with idleThread := idlePage }

/-! ### Fork and exit -/

/-- Which of the allocations inside `sys_fork` succeed: the PCB page, the copying buffer, the
child's address bitmap and its page directory. -/
structure ForkPages where
  pcb : Option ℕ
  bufPage : Bool
  vaddrBtmp : Bool
  pgdir : Bool

/-- `copy_pcb_vaddrbitmap_stack0`: the whole PCB is copied, then a few fields are set. -/
def copyPcb (child parent : ℕ) (pages : ForkPages) : Kern TaskState Bool := do
  modify fun s => s.updTask child fun _ => s.task parent
  let pid ← allocatePid
  modify fun s => s.updTask child fun p =>
    { p with
      pid := pid
      elapsedTicks := 0
      status := .ready
      ticks := p.priority
      parentPid := (s.task parent).pid }
  pure pages.vaddrBtmp

/-- `copy_process`, as far as it touches the PCBs; `false` is its `-1`. -/
def copyProcess (child parent : ℕ) (pages : ForkPages) : Kern TaskState Bool := do
  if !pages.bufPage then pure false
  else
    let copied ← copyPcb child parent pages
    if !copied then pure false
    else
      modify fun s => s.updTask child fun p => { p with pgdir := pages.pgdir }
      if !pages.pgdir then pure false
      else
        -- the child's first instruction is `intr_exit`, which restores the user's eflags
        modify fun s => { s with oldIntr := Function.update s.oldIntr child true }
        pure true

/-- `sys_fork`: the child's pid, or `-1`. -/
def sysFork (pages : ForkPages) : Kern TaskState Int := do
  let s ← get
  let parent := s.cur
  match pages.pcb with
  | none => pure (-1)
  | some child =>
    takePage child
    let s ← get
    ASSERT .sysFork (!s.intr && (s.task parent).pgdir)
    let copied ← copyProcess child parent pages
    if !copied then pure (-1)
    else
      enlist .sysFork child
      let s ← get
      pure (s.task child).pid

/-- Leave the ready list, if in it. -/
def readyRemove (t : ℕ) : Kern TaskState Unit := do
  let s ← get
  if t ∈ s.threadReadyList then
    modify fun s => { s with threadReadyList := s.threadReadyList.erase t }

/-- `list_remove(&t->all_list_tag)`, which has no meaning for a tag in no list. -/
def allRemove (t : ℕ) : Kern TaskState Unit := do
  let s ← get
  if t ∈ s.threadAllList then
    modify fun s => { s with threadAllList := s.threadAllList.erase t }
  else stop .wild

/-- Return the page of a PCB, the main thread's apart, which is not from the heap. -/
def freePcb (t : ℕ) : Kern TaskState Unit := do
  let s ← get
  if t ≠ s.gMainThread then modify fun s => { s with page := Function.update s.page t false }

/-- The part of `thread_exit` before its `schedule`: the task leaves the lists, its page and its pid
are returned. -/
def threadUnlink (threadOver : ℕ) : Kern TaskState Unit := do
  let _ ← intrDisable
  modify fun s => s.setStatus threadOver .died
  modify fun s => { s with live := Function.update s.live threadOver false }
  readyRemove threadOver
  allRemove threadOver
  freePcb threadOver
  let s ← get
  releasePid (s.task threadOver).pid

/-- `thread_exit`. What stands after its `schedule` is reached only if the thread that called it is
resumed. -/
def threadExit (threadOver : ℕ) (needSchedule : Bool) : Kern TaskState Unit := do
  threadUnlink threadOver
  if needSchedule then
    let s ← get
    schedule
    let s' ← get
    if s'.cur = s.cur then stop (.panic .threadExit)

end X86Os
