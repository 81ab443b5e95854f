import X86Os.Lib.TransSys
import X86Os.Thread.TaskInv

/-!
# The scheduler as a transition system

A run starts where `thread_init` returns and takes one scheduling routine after another, each of
them as one step, because each runs with interrupts off. Which routine, on which task and with which
page, is up to the run. The conditions on a step, `SchedAct.Allowed`, are those its callers in the
source keep:

* a task is woken directly only if it waits in no semaphore's queue (`sema_up` takes it out of the
  queue first, the keyboard's and the pipes' buffers keep a pointer and not a queue);
* the caller of `thread_exit` exits itself and reschedules, or reaps another task that is not in a
  queue and goes on; the idle thread never exits and never waits for a semaphore;
* a page from `get_kernel_pages` is not in use, and lies in the heap.
-/

namespace X86Os

open X86Os.Comp TaskState

/-! ### The start -/

/-- The machine when `thread_init` is entered: interrupts are off, the stack is in the main
thread's page below the heap, no semaphore has waiters and no page holds a task. -/
structure Boot (s : TaskState) : Prop where
  cur : s.cur < kHeapStart
  main : s.gMainThread = 0
  live : ∀ t, s.live t = false
  page : ∀ t, s.page t = false
  waiters : ∀ m, (s.sema m).waiters = []
  intr : s.intr = false

/-- The PCB `init_thread` fills in. -/
def freshTask (pid : Int) (status : TaskStatus) (prio : Byte) (pgdir : Bool) : Task :=
  { pid, status, priority := prio, ticks := prio, elapsedTicks := 0, pgdir, parentPid := -1
    exitStatus := 0, stackMagic := 0x19870916#32 }

/-- The pid bitmap after three pids were taken. -/
def initPids : Bitmap :=
  bitmapSet (bitmapSet (bitmapSet (bitmapInit 128) 0 true) 1 true) 2 true

/-- The state `thread_init` leaves: `init` has pid 1 and is ready, the main thread has pid 2 and
runs, the idle thread has pid 3 and is ready. -/
def initState (s : TaskState) (a b : ℕ) : TaskState :=
  { s with
    task := Function.update (Function.update (Function.update s.task
      a (freshTask 1 .ready 31 true)) s.cur (freshTask 2 .running 31 false))
      b (freshTask 3 .ready 10 false)
    page := Function.update (Function.update s.page a true) b true
    live := Function.update (Function.update (Function.update s.live a true) s.cur true) b true
    threadReadyList := [a, b]
    threadAllList := [a, s.cur, b]
    idleThread := b
    gMainThread := s.cur
    oldIntr :=
      Function.update (Function.update (Function.update s.oldIntr a true) s.cur true) b true
    pidBitmap := initPids }

theorem threadInit_eq {s : TaskState} (h : Boot s) {a b : ℕ} (ha : kHeapStart ≤ a)
    (hb : kHeapStart ≤ b) (hab : a ≠ b) : threadInit a b s = .ok ((), initState s a b) := by
  have hka : a ≠ 0 := by unfold kHeapStart at ha; omega
  have hca : s.cur ≠ a := by have := h.cur; omega
  have hcb : s.cur ≠ b := by have := h.cur; omega
  have hp1 : bitmapScan (bitmapInit 128) 1 = .ok 0 := rfl
  have hp2 : bitmapScan (bitmapSet (bitmapInit 128) 0 true) 1 = .ok 1 := rfl
  have hp3 : bitmapScan (bitmapSet (bitmapSet (bitmapInit 128) 0 true) 1 true) 1 = .ok 2 := rfl
  simp [threadInit, processExecute, makeMainThread, threadStart, takePage, initThread, allocatePid,
    enlist, intrDisable, intrSetStatus, ASSERT, check, lift, Except.map, bind_apply, hp1, hp2, hp3,
    updTask, h.main, hka, hca, Ne.symm hcb, Ne.symm hab, initState, freshTask, initPids]

section

variable {s : TaskState} {a b : ℕ}

theorem initState_live (h : Boot s) (u : ℕ) :
    (initState s a b).live u ↔ u = a ∨ u = s.cur ∨ u = b := by
  simp only [initState, Function.update_apply, h.live]
  grind

/-- The three tasks `thread_init` creates. -/
theorem initState_cases (h : Boot s) (ha : kHeapStart ≤ a) (hb : kHeapStart ≤ b) (hab : a ≠ b)
    {u : ℕ} (hu : (initState s a b).live u) :
    u = a ∧ (initState s a b).task u = freshTask 1 .ready 31 true ∨
      u = s.cur ∧ (initState s a b).task u = freshTask 2 .running 31 false ∨
      u = b ∧ (initState s a b).task u = freshTask 3 .ready 10 false := by
  have hca : s.cur ≠ a := by have := h.cur; omega
  have hcb : s.cur ≠ b := by have := h.cur; omega
  rcases (initState_live h u).mp hu with rfl | rfl | rfl
  · exact .inl ⟨rfl, by simp [initState, hab, Ne.symm hca]⟩
  · exact .inr (.inl ⟨rfl, by simp [initState, hcb]⟩)
  · exact .inr (.inr ⟨rfl, by simp [initState]⟩)

theorem initState_inv (h : Boot s) (ha : kHeapStart ≤ a) (hb : kHeapStart ≤ b) (hab : a ≠ b) :
    TaskInv (initState s a b) (some (initState s a b).cur) := by
  have hca : s.cur ≠ a := by have := h.cur; omega
  have hcb : s.cur ≠ b := by have := h.cur; omega
  have hlive := initState_live (a := a) (b := b) h
  have hcases := fun {u} => initState_cases h ha hb hab (u := u)
  have hrd : (initState s a b).threadReadyList = [a, b] := rfl
  have hall : (initState s a b).threadAllList = [a, s.cur, b] := rfl
  constructor
  case running_iff =>
    intro u hu
    rw [show (initState s a b).cur = s.cur from rfl]
    rcases hcases hu with ⟨rfl, ht⟩ | ⟨rfl, ht⟩ | ⟨rfl, ht⟩ <;> simp [ht, freshTask, hca, hcb]
  case running_live => rintro u ⟨⟩; exact (hlive _).mpr (.inr (.inl rfl))
  case ready_count =>
    intro u
    by_cases hu : (initState s a b).live u
    · rw [hrd]
      rcases hcases hu with ⟨rfl, ht⟩ | ⟨rfl, ht⟩ | ⟨rfl, ht⟩
      · simp [ht, hu, freshTask, Ne.symm hab]
      · simp [ht, freshTask, Ne.symm hca, Ne.symm hcb]
      · simp [ht, hu, freshTask, hab]
    · rw [hrd, if_neg (fun h' => hu h'.1)]
      rw [hlive] at hu
      grind
  case all_count => intro u; simp only [hall, hlive]; grind
  case not_died =>
    intro u hu
    rcases hcases hu with ⟨-, ht⟩ | ⟨-, ht⟩ | ⟨-, ht⟩ <;> simp [ht, freshTask]
  case idle_live => exact (hlive _).mpr (.inr (.inr rfl))
  case waiter_blocked => intro m u hu; simp [initState, h.waiters] at hu
  case waiters_nodup => intro m; simp [initState, h.waiters]
  case waiters_unique => intro m m' u hu; simp [initState, h.waiters] at hu
  case live_page =>
    intro u hu
    rcases (hlive u).mp hu with rfl | rfl | rfl
    · exact .inl (by simp [initState, Function.update_apply])
    · exact .inr rfl
    · exact .inl (by simp [initState])
  case main_low => exact h.cur
  case live_pid =>
    intro u hu
    rcases hcases hu with ⟨-, ht⟩ | ⟨-, ht⟩ | ⟨-, ht⟩ <;> simp [ht, freshTask]
  case live_magic =>
    intro u hu
    rcases hcases hu with ⟨-, ht⟩ | ⟨-, ht⟩ | ⟨-, ht⟩ <;> simp [ht, freshTask]

end

/-! ### The steps -/

/-- The scheduling steps, by the routine that takes them. -/
inductive SchedAct
  | timer
  | yield
  | block (stat : TaskStatus)
  | unblock (t : ℕ)
  | start (pg : Option ℕ) (prio : Byte)
  | fork (pages : ForkPages)
  | exit (t : ℕ) (needSchedule : Bool)
  | down (psema : ℕ)
  | up (psema : ℕ)
  | setIntr (status : Bool)

namespace SchedAct

/-- The routine. -/
def run : SchedAct → Kern TaskState Unit
  | timer => intrTimerHandler
  | yield => threadYield
  | block stat => threadBlock stat
  | unblock t => threadUnblock t
  | start pg prio => threadStart pg prio
  | fork pages => do let _ ← sysFork pages
  | exit t needSchedule => threadExit t needSchedule
  | down psema => semaDown psema
  | up psema => semaUp psema
  | setIntr status => intrSetStatus status

/-- The condition under which the source calls it. -/
def Allowed (s : TaskState) : SchedAct → Prop
  | timer => s.intr = true
  | unblock t => s.live t ∧ (s.task t).status.isBlocked ∧ ∀ m, t ∉ (s.sema m).waiters
  | start pg _ => ∀ t, pg = some t → s.page t = false ∧ kHeapStart ≤ t
  | fork pages => ∀ t, pages.pcb = some t → s.page t = false ∧ kHeapStart ≤ t
  | exit t needSchedule => s.live t ∧ t ≠ s.idleThread ∧ (∀ m, t ∉ (s.sema m).waiters) ∧
      needSchedule = decide (t = s.cur)
  | down _ => s.cur ≠ s.idleThread
  | yield | block _ | up _ | setIntr _ => True

end SchedAct

/-- The scheduler, from the end of `thread_init`. -/
def schedSys : TransSys TaskState SchedAct where
  init s := ∃ s0 a b, Boot s0 ∧ kHeapStart ≤ a ∧ kHeapStart ≤ b ∧ a ≠ b ∧
    threadInit a b s0 = .ok ((), s)
  step s act s' := act.Allowed s ∧ act.run s = .ok ((), s')

/-- The `ASSERT`s and `PANIC`s of the scheduler itself. -/
def schedFaults : List Fault :=
  [.panic .schedule, .panic .threadUnblock, .panic .threadYield, .panic .threadStart]

/-- **One step** keeps the invariant, and does not stop in the scheduler. -/
theorem SchedAct.run_wp {s : TaskState} (h : TaskInv s (some s.cur)) {act : SchedAct}
    (ha : act.Allowed s) :
    wp act.run (fun _ s' => TaskInv s' (some s'.cur)) (fun f => f ∉ schedFaults) s := by
  cases act with
  | timer => exact (intrTimerHandler_wp h).mono (fun _ _ => And.left) fun _ => False.elim
  | yield => exact (threadYield_wp h).mono (fun _ _ => And.left) fun _ => False.elim
  | block stat =>
    by_cases hb : stat.isBlocked
    · exact (threadBlock_wp (h.setStatus_cur hb) hb).mono (fun _ _ => And.left) fun _ => False.elim
    · simp [SchedAct.run, threadBlock, hb, schedFaults]
  | unblock t =>
    obtain ⟨hl, hb, hw⟩ := ha
    refine (threadUnblock_wp h hb).mono (fun _ s' => ?_) fun _ => False.elim
    rintro ⟨hm, -, hcur, -⟩
    have hne : s.cur ≠ t := by
      rintro rfl
      rw [(h.running_iff _ hl).mpr rfl] at hb
      cases hb
    rw [hcur]
    exact h.move hm hl (by simp) (fun m hu => absurd hu (hw m)) (by grind)
  | start pg prio =>
    cases pg with
    | none => simp [SchedAct.run, threadStart, schedFaults]
    | some t =>
      obtain ⟨hp, hk⟩ := ha t rfl
      refine (threadStart_wp h hp hk prio).mono (fun _ s' => ?_) (by rintro _ rfl; decide)
      rintro ⟨p, hb, -⟩
      rw [hb.cur]
      exact h.birth hb
  | fork pages =>
    simp only [SchedAct.run, wp_bind, wp_pure]
    refine (sysFork_wp h ha).mono (fun pid s' => ?_) (by rintro _ (rfl | rfl) <;> decide)
    rintro (⟨-, hf⟩ | ⟨t, p, -, hb, -⟩)
    · rw [hf.cur]
      exact h.congr hf.toAgrees (fun u hu => congrArg Task.status (hf.task u hu)) hf.ready
    · rw [hb.cur]
      exact h.birth hb.toBirths
  | exit t needSchedule =>
    obtain ⟨hl, hi, hw, hns⟩ := ha
    exact (threadExit_wp h hl hi hw hns).mono (fun _ _ => And.left) fun _ => False.elim
  | down m => exact (semaDown_wp h ha m).mono (fun _ _ => And.left) (by rintro _ rfl; decide)
  | up m => exact (semaUp_wp h m).mono (fun _ _ => And.left) (by rintro _ rfl; decide)
  | setIntr status => exact (h.flags status s.oldIntr).1

/-- **The invariant holds along every run.** -/
theorem sched_inv {s : TaskState} (h : schedSys.Reachable s) : TaskInv s (some s.cur) := by
  refine TransSys.Reach.invariant (I := fun s => TaskInv s (some s.cur)) ?_ ?_ h
  · rintro s ⟨s0, a, b, hboot, ha, hb, hab, hrun⟩
    rw [threadInit_eq hboot ha hb hab] at hrun
    cases hrun
    exact initState_inv hboot ha hb hab
  · rintro s act s' hs - ⟨ha, hrun⟩
    exact (SchedAct.run_wp hs ha).ok hrun

/-- **The scheduler is safe.** In every reachable state exactly one live task runs, and it is not in
the ready list; a live task is in the ready list exactly when it is ready, once; it is in the list
of all tasks once; and whatever step comes next does not fail an `ASSERT` of `schedule`,
`thread_unblock`, `thread_yield` or `thread_start`. -/
theorem sched_safe {s : TaskState} (h : schedSys.Reachable s) :
    (∃! t, s.live t ∧ (s.task t).status = .running) ∧
    (∀ t, s.live t → (s.task t).status = .running → t ∉ s.threadReadyList) ∧
    (∀ t, s.live t →
      s.threadReadyList.count t = if (s.task t).status = .ready then 1 else 0) ∧
    (∀ t, s.live t → s.threadAllList.count t = 1) ∧
    ∀ (act : SchedAct) (f : Fault), act.Allowed s → act.run s = .error f → f ∉ schedFaults := by
  have hinv := sched_inv h
  have hcur := hinv.running_live s.cur rfl
  refine ⟨⟨s.cur, ⟨hcur, (hinv.running_iff _ hcur).mpr rfl⟩, fun t ht => ?_⟩, fun t hl hr => ?_,
    fun t hl => ?_, fun t hl => ?_, fun act f ha hf => (SchedAct.run_wp hinv ha).error hf⟩
  · exact (Option.some.inj ((hinv.running_iff t ht.1).mp ht.2)).symm
  · obtain rfl := Option.some.inj ((hinv.running_iff t hl).mp hr)
    exact hinv.running_not_mem
  · rw [hinv.ready_count t]
    simp [hl]
  · rw [hinv.all_count t, if_pos hl]

/-- A machine before `thread_init`. -/
def bootState : TaskState where
  task _ := freshTask 0 .running 0 false
  page _ := false
  live _ := false
  threadReadyList := []
  threadAllList := []
  sema _ := ⟨0, []⟩
  idleThread := 0
  gMainThread := 0
  cur := 0xc009e000
  intr := false
  oldIntr _ := false
  pidBitmap := bitmapInit 128

theorem bootState_boot : Boot bootState :=
  ⟨by decide, rfl, fun _ => rfl, fun _ => rfl, fun _ => rfl, rfl⟩

theorem reachable_start : schedSys.Reachable (initState bootState 0xc0100000 0xc0101000) :=
  .init ⟨bootState, 0xc0100000, 0xc0101000, bootState_boot, by decide, by decide, by decide,
    threadInit_eq bootState_boot (by decide) (by decide) (by decide)⟩

theorem reachable_run {s : TaskState} (act : SchedAct) (h : schedSys.Reachable s)
    (ha : act.Allowed s) (hr : act.run.value? s = some ()) :
    schedSys.Reachable (act.run.final s) :=
  .step (l := act) h trivial ⟨ha, eq_ok_of_value? hr⟩

/-- The main thread starts a thread and waits for a semaphore, `init` yields, and the idle thread
runs. -/
def mainWaits : TaskState :=
  SchedAct.yield.run.final ((SchedAct.down 0).run.final
    ((SchedAct.start (some 0xc0102000) 31).run.final (initState bootState 0xc0100000 0xc0101000)))

theorem reachable_mainWaits : schedSys.Reachable mainWaits := by
  have h1 := reachable_run (.start (some 0xc0102000) 31) reachable_start
    (fun t ht => by cases ht; exact ⟨rfl, by decide⟩) (by decide +kernel)
  have h2 := reachable_run (.down 0) h1 (show _ ≠ _ by decide +kernel)
    (by decide +kernel)
  exact reachable_run .yield h2 trivial (by decide +kernel)

/-- The thread that waits is in no list but that of all, and the new one is ready. -/
theorem sched_safe_mainWaits :
    (mainWaits.task 0xc009e000).status = .blocked ∧
    mainWaits.threadReadyList = [0xc0102000, 0xc0100000] ∧
    (∃! t, mainWaits.live t ∧ (mainWaits.task t).status = .running) ∧
    mainWaits.threadReadyList.count 0xc009e000 = 0 ∧
    mainWaits.threadAllList.count 0xc009e000 = 1 := by
  obtain ⟨h1, -, h2, h3, -⟩ := sched_safe reachable_mainWaits
  have hlive : mainWaits.live 0xc009e000 = true := by decide +kernel
  have hb : (mainWaits.task 0xc009e000).status = .blocked := by decide +kernel
  refine ⟨hb, by decide +kernel, h1, ?_, h3 _ hlive⟩
  rw [h2 _ hlive, hb, if_neg (by decide)]

end X86Os
