import X86Os.Thread.Task

/-!
# What every scheduling routine keeps

The status word, the ready list, the list of all tasks and the wait queues are updated by separate
statements in a dozen routines. One predicate ties them together, `TaskInv s r`: `r` is the task
that runs, if any; a live task is in the ready list exactly once if it is ready and otherwise not
at all; it is in the list of all tasks exactly once; and a tag in a wait queue belongs to a blocked
task and is in no other list.

The second parameter is what makes the middle of a routine describable. Between the statement that
marks the caller blocked and the one that picks its successor nobody runs, and that is `r = none`;
`schedule` is the passage from there to `some`.

Everything the routines do is one of three things: a task changes status and place in the ready
list (`Moves`), a task is born (`Births`), or it dies (`Deaths`). The invariant is shown to survive
each of the three once, and each routine is shown to do one of them.
-/

namespace X86Os

open X86Os.Comp TaskState

/-- `K_HEAP_START`: no page that `get_kernel_pages` returns lies below it, and the main thread's
PCB does. -/
def kHeapStart : ℕ := 0xc0100000

/-- What holds of the task lists when `r` is the running task, if there is one. Inside `schedule`
there is a stretch where there is none. -/
structure TaskInv (s : TaskState) (r : Option ℕ) : Prop where
  running_iff : ∀ t, s.live t → ((s.task t).status = .running ↔ r = some t)
  running_live : ∀ t, r = some t → s.live t
  ready_count : ∀ t, s.threadReadyList.count t =
    if s.live t ∧ (s.task t).status = .ready then 1 else 0
  all_count : ∀ t, s.threadAllList.count t = if s.live t then 1 else 0
  not_died : ∀ t, s.live t → (s.task t).status ≠ .died
  idle_live : s.live s.idleThread
  waiter_blocked : ∀ m t, t ∈ (s.sema m).waiters →
    s.live t ∧ (s.task t).status = .blocked ∧ t ≠ s.idleThread
  waiters_nodup : ∀ m, (s.sema m).waiters.Nodup
  waiters_unique : ∀ m m' t, t ∈ (s.sema m).waiters → t ∈ (s.sema m').waiters → m = m'
  live_page : ∀ t, s.live t → s.page t ∨ t = s.gMainThread
  main_low : s.gMainThread < kHeapStart
  live_pid : ∀ t, s.live t → 1 ≤ (s.task t).pid
  live_magic : ∀ t, s.live t → (s.task t).stackMagic = 0x19870916#32

variable {s : TaskState} {r : Option ℕ} {t : ℕ}

theorem TaskInv.mem_ready (h : TaskInv s r) :
    t ∈ s.threadReadyList ↔ s.live t ∧ (s.task t).status = .ready := by
  have := h.ready_count t
  rw [← List.count_pos_iff]
  grind

theorem TaskInv.mem_all (h : TaskInv s r) : t ∈ s.threadAllList ↔ s.live t := by
  have := h.all_count t
  rw [← List.count_pos_iff]
  grind

/-- The running task is not in the ready list. -/
theorem TaskInv.running_not_mem (h : TaskInv s (some t)) : t ∉ s.threadReadyList := fun hm => by
  have hrun := (h.running_iff t (h.running_live _ rfl)).mpr rfl
  have hready := (h.mem_ready.mp hm).2
  rw [hrun] at hready
  cases hready

/-- A page the allocator may hand out holds no live task. -/
theorem TaskInv.not_live_of_fresh (h : TaskInv s r) (hp : s.page t = false)
    (hk : kHeapStart ≤ t) : s.live t = false := by
  have h1 := h.live_page t
  have h2 := h.main_low
  grind

/-! ### Moving one task

Every routine of the scheduler changes the status of one task and its place in the ready list, and
leaves the rest of what the invariant reads alone. -/

/-- `s'` agrees with `s` on what the invariant reads of the live tasks, statuses and the ready list
apart. -/
structure Agrees (s s' : TaskState) : Prop where
  live : s'.live = s.live
  all : s'.threadAllList = s.threadAllList
  idle : s'.idleThread = s.idleThread
  main : s'.gMainThread = s.gMainThread
  page : ∀ u, s.page u → s'.page u
  waiters : ∀ m, (s'.sema m).waiters = (s.sema m).waiters
  ident : ∀ u, s.live u → (s'.task u).ident = (s.task u).ident

/-- `s'` agrees with `s` and no pid was handed out or returned. -/
structure SameTasks (s s' : TaskState) : Prop extends Agrees s s' where
  pidBitmap : s'.pidBitmap = s.pidBitmap

theorem Agrees.pid {s s' : TaskState} (h : Agrees s s') {u : ℕ} (hu : s.live u) :
    (s'.task u).pid = (s.task u).pid := congrArg Prod.fst (h.ident u hu)

theorem Agrees.stackMagic {s s' : TaskState} (h : Agrees s s') {u : ℕ} (hu : s.live u) :
    (s'.task u).stackMagic = (s.task u).stackMagic :=
  congrArg (fun p => p.2.2.2.2) (h.ident u hu)

theorem SameTasks.refl (s : TaskState) : SameTasks s s :=
  ⟨⟨rfl, rfl, rfl, rfl, fun _ => id, fun _ => rfl, fun _ _ => rfl⟩, rfl⟩

theorem SameTasks.trans {s s' s'' : TaskState} (h : SameTasks s s') (h' : SameTasks s' s'') :
    SameTasks s s'' where
  live := h'.live.trans h.live
  all := h'.all.trans h.all
  idle := h'.idle.trans h.idle
  main := h'.main.trans h.main
  page u hu := h'.page u (h.page u hu)
  waiters m := (h'.waiters m).trans (h.waiters m)
  ident u hu := (h'.ident u (by rw [h.live]; exact hu)).trans (h.ident u hu)
  pidBitmap := h'.pidBitmap.trans h.pidBitmap

/-- The status of `t` becomes `b`, and the ready list follows. -/
structure Moves (s s' : TaskState) (t : ℕ) (b : TaskStatus) : Prop extends SameTasks s s' where
  status : ∀ u, (s'.task u).status = if u = t then b else (s.task u).status
  ready : ∀ u, s'.threadReadyList.count u =
    if u = t then if b = .ready then 1 else 0 else s.threadReadyList.count u

variable {s' : TaskState} {b : TaskStatus} {q : Option ℕ}

/-- A move keeps the invariant: a task in a wait queue may only be moved to `blocked`, and the new
running task is `t` or is not, as its new status says. -/
theorem TaskInv.move (h : TaskInv s r) (hm : Moves s s' t b) (hl : s.live t) (hb : b ≠ .died)
    (hw : ∀ m, t ∈ (s.sema m).waiters → b = .blocked)
    (hr : ∀ u, q = some u ↔ if u = t then b = .running else r = some u) : TaskInv s' q where
  running_iff u hu := by
    rw [hm.live] at hu
    rw [hm.status, hr]
    split
    · rfl
    · exact h.running_iff u hu
  running_live u hu := by
    rw [hm.live]
    rw [hr] at hu
    split at hu
    · subst u; exact hl
    · exact h.running_live u hu
  ready_count u := by
    rw [hm.ready, hm.status, hm.live]
    split
    · subst u; simp [hl]
    · exact h.ready_count u
  all_count u := by rw [hm.all, hm.live]; exact h.all_count u
  not_died u hu := by
    rw [hm.live] at hu
    rw [hm.status]
    split
    · exact hb
    · exact h.not_died u hu
  idle_live := by rw [hm.live, hm.idle]; exact h.idle_live
  waiter_blocked m u hu := by
    rw [hm.waiters] at hu
    rw [hm.live, hm.status, hm.idle]
    obtain ⟨h1, h2, h3⟩ := h.waiter_blocked m u hu
    refine ⟨h1, ?_, h3⟩
    split
    · subst u; exact hw m hu
    · exact h2
  waiters_nodup m := by rw [hm.waiters]; exact h.waiters_nodup m
  waiters_unique m m' u := by rw [hm.waiters, hm.waiters]; exact h.waiters_unique m m' u
  live_page u hu := by
    rw [hm.live] at hu; rw [hm.main]; exact (h.live_page u hu).imp_left (hm.page u)
  main_low := by rw [hm.main]; exact h.main_low
  live_pid u hu := by rw [hm.live] at hu; rw [hm.pid hu]; exact h.live_pid u hu
  live_magic u hu := by rw [hm.live] at hu; rw [hm.stackMagic hu]; exact h.live_magic u hu

theorem TaskInv.congr (h : TaskInv s r) (hs : Agrees s s')
    (hst : ∀ u, s.live u → (s'.task u).status = (s.task u).status)
    (hrd : s'.threadReadyList = s.threadReadyList) : TaskInv s' r where
  running_iff u hu := by rw [hs.live] at hu; rw [hst u hu]; exact h.running_iff u hu
  running_live u hu := by rw [hs.live]; exact h.running_live u hu
  ready_count u := by
    rw [hrd, hs.live, h.ready_count u]
    by_cases hu : s.live u
    · rw [hst u hu]
    · simp [hu]
  all_count u := by rw [hs.all, hs.live]; exact h.all_count u
  not_died u hu := by rw [hs.live] at hu; rw [hst u hu]; exact h.not_died u hu
  idle_live := by rw [hs.live, hs.idle]; exact h.idle_live
  waiter_blocked m u hu := by
    rw [hs.waiters] at hu
    obtain ⟨h1, h2, h3⟩ := h.waiter_blocked m u hu
    rw [hs.live, hst u h1, hs.idle]
    exact ⟨h1, h2, h3⟩
  waiters_nodup m := by rw [hs.waiters]; exact h.waiters_nodup m
  waiters_unique m m' u := by rw [hs.waiters, hs.waiters]; exact h.waiters_unique m m' u
  live_page u hu := by
    rw [hs.live] at hu; rw [hs.main]; exact (h.live_page u hu).imp_left (hs.page u)
  main_low := by rw [hs.main]; exact h.main_low
  live_pid u hu := by rw [hs.live] at hu; rw [hs.pid hu]; exact h.live_pid u hu
  live_magic u hu := by rw [hs.live] at hu; rw [hs.stackMagic hu]; exact h.live_magic u hu

/-- Writing to the PCBs without touching a status, a pid or the guard word. -/
theorem TaskInv.rewrite (h : TaskInv s r) {task : ℕ → Task}
    (hst : ∀ u, (task u).status = (s.task u).status) (hpid : ∀ u, (task u).pid = (s.task u).pid)
    (hmagic : ∀ u, (task u).stackMagic = (s.task u).stackMagic) :
    TaskInv { s with task := task } r :=
  { h with
    running_iff := fun u hu => by rw [hst]; exact h.running_iff u hu
    ready_count := fun u => by rw [hst]; exact h.ready_count u
    not_died := fun u hu => by rw [hst]; exact h.not_died u hu
    waiter_blocked := fun m u hu => by rw [hst]; exact h.waiter_blocked m u hu
    live_pid := fun u hu => by rw [hpid]; exact h.live_pid u hu
    live_magic := fun u hu => by rw [hmagic]; exact h.live_magic u hu }

/-- Setting a status, once the ready list is right, is a move. -/
theorem Moves.of_setStatus {s1 : TaskState} (hs : SameTasks s s1)
    (hst : ∀ u, (s1.task u).status = (s.task u).status)
    (hrd : ∀ u, s1.threadReadyList.count u =
      if u = t then if b = .ready then 1 else 0 else s.threadReadyList.count u) :
    Moves s (s1.setStatus t b) t b where
  live := hs.live
  all := hs.all
  idle := hs.idle
  main := hs.main
  page := hs.page
  waiters := hs.waiters
  ident u hu := (ident_setStatus ..).trans (hs.ident u hu)
  pidBitmap := hs.pidBitmap
  status u := by rw [status_setStatus, hst]
  ready := hrd

/-- What rescheduling changes: no pid and no parent, no list but the ready list, and the status
only of tasks that can run, except that the idle thread may be woken. -/
structure Reschedules (s s' : TaskState) : Prop extends SameTasks s s' where
  of_blocked : ∀ u, s.live u → ∀ st : TaskStatus, st.isBlocked →
    (s'.task u).status = st → (s.task u).status = st
  blocked : ∀ u, s.live u → u ≠ s.idleThread → ∀ st : TaskStatus, st.isBlocked →
    (s.task u).status = st → (s'.task u).status = st

theorem SameTasks.reschedules (h : SameTasks s s')
    (hst : ∀ u, s.live u → (s'.task u).status = (s.task u).status) : Reschedules s s' where
  toSameTasks := h
  of_blocked u hu _ _ hs := (hst u hu).symm.trans hs
  blocked u hu _ _ _ hs := (hst u hu).trans hs

theorem Reschedules.refl (s : TaskState) : Reschedules s s :=
  (SameTasks.refl s).reschedules fun _ _ => rfl

theorem Reschedules.trans {s s' s'' : TaskState} (h : Reschedules s s')
    (h' : Reschedules s' s'') : Reschedules s s'' where
  toSameTasks := h.toSameTasks.trans h'.toSameTasks
  of_blocked u hu st hst hs :=
    h.of_blocked u hu st hst (h'.of_blocked u (by rw [h.live]; exact hu) st hst hs)
  blocked u hu hi st hst hs :=
    h'.blocked u (by rw [h.live]; exact hu) (by rw [h.idle]; exact hi) st hst
      (h.blocked u hu hi st hst hs)

/-- A move to a status that can run, of a task that could or of the idle thread. -/
theorem Moves.reschedules (hm : Moves s s' t b) (hb : b.isBlocked = false)
    (ht : t = s.idleThread ∨ (s.task t).status.isBlocked = false) : Reschedules s s' where
  toSameTasks := hm.toSameTasks
  of_blocked u _ st hst hs := by
    rw [hm.status] at hs
    split at hs
    · rw [← hs, hb] at hst; cases hst
    · exact hs
  blocked u _ hi st hst hs := by
    rw [hm.status]
    split
    · subst u
      rcases ht with ht | ht
      · exact absurd ht hi
      · rw [hs, hst] at ht; cases ht
    · exact hs

/-- What the table of processes sees of scheduling: nothing. The tasks, their pids and parents and
which of them are hanging stay as they are. -/
structure Quiet (s s' : TaskState) : Prop where
  live : s'.live = s.live
  all : s'.threadAllList = s.threadAllList
  idle : s'.idleThread = s.idleThread
  ident : ∀ u, s.live u → (s'.task u).ident = (s.task u).ident
  pidBitmap : s'.pidBitmap = s.pidBitmap
  hanging : ∀ u, s.live u → ((s'.task u).status = .hanging ↔ (s.task u).status = .hanging)

theorem Quiet.trans {s s' s'' : TaskState} (h : Quiet s s') (h' : Quiet s' s'') : Quiet s s'' where
  live := h'.live.trans h.live
  all := h'.all.trans h.all
  idle := h'.idle.trans h.idle
  ident u hu := (h'.ident u (by rw [h.live]; exact hu)).trans (h.ident u hu)
  pidBitmap := h'.pidBitmap.trans h.pidBitmap
  hanging u hu := (h'.hanging u (by rw [h.live]; exact hu)).trans (h.hanging u hu)

theorem SameTasks.quiet (h : SameTasks s s')
    (hst : ∀ u, s.live u → (s'.task u).status = (s.task u).status) : Quiet s s' :=
  ⟨h.live, h.all, h.idle, h.ident, h.pidBitmap, fun u hu => by rw [hst u hu]⟩

theorem Moves.quiet (hm : Moves s s' t b) (hb : b ≠ .hanging)
    (ht : (s.task t).status ≠ .hanging) : Quiet s s' :=
  ⟨hm.live, hm.all, hm.idle, hm.ident, hm.pidBitmap, fun u _ => by
    rw [hm.status]
    split
    · subst u; simp [hb, ht]
    · rfl⟩

/-- Marking a task that is not hanging with another status than hanging. -/
theorem quiet_setStatus (hb : b ≠ .hanging) (ht : (s.task t).status ≠ .hanging) :
    Quiet s (s.setStatus t b) :=
  ⟨rfl, rfl, rfl, fun u _ => ident_setStatus s t b u, rfl, fun u _ => by
    rw [status_setStatus]
    split
    · subst u; simp [hb, ht]
    · rfl⟩

theorem quiet_updSema (m : ℕ) (g : Semaphore → Semaphore) : Quiet s (s.updSema m g) :=
  ⟨rfl, rfl, rfl, fun _ _ => rfl, rfl, fun _ _ => Iff.rfl⟩

theorem Reschedules.quiet (h : Reschedules s s') (hi : (s.task s.idleThread).status ≠ .hanging) :
    Quiet s s' :=
  ⟨h.live, h.all, h.idle, h.ident, h.pidBitmap, fun u hu =>
    ⟨h.of_blocked u hu .hanging rfl, fun hs => h.blocked u hu
      (fun he => hi (he ▸ hs)) .hanging rfl hs⟩⟩

/-- Saving and restoring interrupt flags changes nothing the invariant reads. -/
theorem TaskInv.flags (h : TaskInv s r) (i : Bool) (o : ℕ → Bool) :
    TaskInv { s with intr := i, oldIntr := o } r ∧
      Reschedules s { s with intr := i, oldIntr := o } :=
  have hs : SameTasks s { s with intr := i, oldIntr := o } :=
    ⟨⟨rfl, rfl, rfl, rfl, fun _ => id, fun _ => rfl, fun _ _ => rfl⟩, rfl⟩
  ⟨h.congr hs.toAgrees (fun _ _ => rfl) rfl, hs.reschedules fun _ _ => rfl⟩

theorem TaskInv.charge (h : TaskInv s r) (t : ℕ) {f : Task → Task}
    (hid : ∀ p, (f p).ident = p.ident) (hst : ∀ p, (f p).status = p.status) :
    TaskInv (s.updTask t f) r ∧ Reschedules s (s.updTask t f) := by
  have hs : SameTasks s (s.updTask t f) :=
    ⟨⟨rfl, rfl, rfl, rfl, fun _ => id, fun _ => rfl,
      fun u _ => field_updTask _ _ _ u (p := Task.ident) (hid _)⟩, rfl⟩
  have hstat : ∀ u, ((s.updTask t f).task u).status = (s.task u).status :=
    fun u => field_updTask _ _ _ u (p := Task.status) (hst _)
  exact ⟨h.congr hs.toAgrees (fun u _ => hstat u) rfl, hs.reschedules fun u _ => hstat u⟩

/-! ### The parts of `schedule` -/

/-- Waking a blocked task moves it to the head of the ready list. -/
theorem threadUnblock_wp (h : TaskInv s r) (hb : (s.task t).status.isBlocked) :
    wp (threadUnblock t)
      (fun _ s' => Moves s s' t .ready ∧ s'.threadReadyList = t :: s.threadReadyList ∧
        s'.cur = s.cur ∧ s'.intr = s.intr ∧ s'.sema = s.sema)
      (fun _ => False) s := by
  have hne : (s.task t).status ≠ .ready := by intro h'; rw [h'] at hb; cases hb
  have hmem : t ∉ s.threadReadyList := fun hm => hne (h.mem_ready.mp hm).2
  have hcount := List.count_eq_zero.mpr hmem
  simp only [threadUnblock, intrDisable, intrSetStatus, wp_bind, wp_get, wp_modify, wp_pure,
    wp_ASSERT, hb, if_pos hne, if_neg hmem, decide_eq_true hmem, true_implies, Bool.true_eq_false,
    false_implies, and_true]
  refine ⟨?_, rfl, rfl, trivial, rfl⟩
  have hm : Moves s ({ s with threadReadyList := t :: s.threadReadyList }.setStatus t .ready) t
      .ready := Moves.of_setStatus ⟨⟨rfl, rfl, rfl, rfl, fun _ => id, fun _ => rfl, fun _ _ => rfl⟩,
      rfl⟩ (fun _ => rfl) fun u => by
      by_cases hu : u = t
      · subst u; simp [hcount]
      · simp [hu, Ne.symm hu]
  exact ⟨⟨⟨rfl, rfl, rfl, rfl, fun _ => id, fun _ => rfl, hm.ident⟩, rfl⟩, hm.status, hm.ready⟩

/-- A live task that is neither running nor in the ready list can be woken. -/
theorem TaskInv.isBlocked (h : TaskInv s r) (hl : s.live t) (hr : r ≠ some t)
    (hm : t ∉ s.threadReadyList) : (s.task t).status.isBlocked := by
  have hrun := mt (h.running_iff t hl).mp hr
  have hrdy := mt (fun hs => h.mem_ready.mpr ⟨hl, hs⟩) hm
  have hd := h.not_died t hl
  cases hs : (s.task t).status <;> simp_all [TaskStatus.isBlocked]

/-- A move of a task that is in no wait queue, or to `blocked`, away from running. -/
theorem TaskInv.move_off (h : TaskInv s (some t)) (hm : Moves s s' t b) (hb : b ≠ .died)
    (hb' : b ≠ .running) : TaskInv s' none := by
  have hl := h.running_live t rfl
  refine h.move hm hl hb (fun m hu => ?_) fun u => ?_
  · have := (h.running_iff t hl).mpr rfl
    rw [(h.waiter_blocked m t hu).2.1] at this
    cases this
  · by_cases hu : u = t
    · simp [hu, hb']
    · simp [hu, Ne.symm hu]

/-- `schedule` puts a running task at the end of the ready list. -/
theorem schedulePutBack_wp (h : TaskInv s (some s.cur)) :
    wp schedulePutBack
      (fun _ s' => TaskInv s' none ∧ Reschedules s s' ∧ s'.cur = s.cur ∧ s'.intr = s.intr)
      (fun _ => False) s := by
  have hrun := (h.running_iff s.cur (h.running_live _ rfl)).mpr rfl
  have hmem := h.running_not_mem
  have hcount := List.count_eq_zero.mpr hmem
  simp only [schedulePutBack, wp_bind, wp_get, wp_modify, wp_ASSERT, if_pos hrun,
    decide_eq_true hmem, true_implies, Bool.true_eq_false, false_implies, and_true]
  have hm : Moves s ({ s with threadReadyList := s.threadReadyList ++ [s.cur] }.updTask s.cur
      fun p => { p with ticks := p.priority, status := .ready }) s.cur .ready :=
    { live := rfl, all := rfl, idle := rfl, main := rfl, page := fun _ => id
      waiters := fun _ => rfl, pidBitmap := rfl
      ident := fun u _ => field_updTask _ _ _ u (p := Task.ident) rfl
      status := fun u => by rw [task_updTask]; split <;> rfl
      ready := fun u => by
        by_cases hu : u = s.cur
        · subst u; simp [updTask, hcount]
        · simp [updTask, hu, Ne.symm hu] }
  have hrs := hm.reschedules rfl (.inr (by rw [hrun]; rfl))
  exact ⟨h.move_off hm (by simp) (by simp), hrs, rfl, rfl⟩

/-- When nothing is ready, the idle thread is blocked and can be woken. -/
theorem scheduleWakeIdle_wp (h : TaskInv s none) :
    wp scheduleWakeIdle
      (fun _ s' => TaskInv s' none ∧ s'.threadReadyList ≠ [] ∧ Reschedules s s' ∧
        s'.cur = s.cur ∧ s'.intr = s.intr)
      (fun _ => False) s := by
  simp only [scheduleWakeIdle, wp_bind, wp_get, wp_ite, wp_pure]
  refine ⟨fun hempty => ?_, fun hne => ⟨h, hne, .refl s, trivial, trivial⟩⟩
  have hb := h.isBlocked h.idle_live (by simp) (by simp [hempty])
  refine (threadUnblock_wp h hb).mono (fun _ s' => ?_) fun _ => id
  rintro ⟨hm, hrd, hcur, hintr, -⟩
  refine ⟨h.move hm h.idle_live (by simp) (fun m hu => ?_) fun u => ?_, by simp [hrd],
    hm.reschedules rfl (.inl rfl), hcur, hintr⟩
  · exact absurd rfl (h.waiter_blocked m _ hu).2.2
  · by_cases hu : u = s.idleThread <;> simp [hu]

/-- The first ready task is picked and runs. -/
theorem schedulePick_wp (h : TaskInv s none) (hne : s.threadReadyList ≠ []) :
    wp schedulePick (fun _ s' => TaskInv s' (some s'.cur) ∧ Reschedules s s') (fun _ => False)
      s := by
  obtain ⟨next, rest, hrd⟩ := List.exists_cons_of_ne_nil hne
  have hnext : s.live next ∧ (s.task next).status = .ready := h.mem_ready.mp (by simp [hrd])
  have hc := h.ready_count next
  rw [if_pos hnext, hrd, List.count_cons_self] at hc
  have hc : rest.count next = 0 := by omega
  simp only [schedulePick, wp_bind, wp_get, wp_ASSERT, hrd, switchTo, wp_modify]
  simp only [ne_eq, reduceCtorEq, not_false_eq_true, decide_true, true_implies, Bool.true_eq_false,
    false_implies, and_true]
  have hm : Moves s ({ s with threadReadyList := rest }.setStatus next .running) next .running :=
    Moves.of_setStatus
      ⟨⟨rfl, rfl, rfl, rfl, fun _ => id, fun _ => rfl, fun _ _ => rfl⟩, rfl⟩
      (fun _ => rfl) fun u => by
        by_cases hu : u = next
        · subst u; simpa using hc
        · simp [hu, hrd, Ne.symm hu]
  have hinv := h.move (q := some next) hm hnext.1 (by simp)
    (fun m hu => by
      have := (h.waiter_blocked m _ hu).2.1
      rw [hnext.2] at this
      cases this)
    (fun u => by grind)
  have hrs := hm.reschedules rfl (.inr (by rw [hnext.2]; rfl))
  have hs : Reschedules s
      { ({ s with threadReadyList := rest }.setStatus next .running) with
        cur := next, intr := s.oldIntr next } :=
    ⟨⟨⟨rfl, rfl, rfl, rfl, fun _ => id, fun _ => rfl, hm.ident⟩, rfl⟩, hrs.of_blocked, hrs.blocked⟩
  exact ⟨hinv.congr ⟨rfl, rfl, rfl, rfl, fun _ => id, fun _ => rfl, fun _ _ => rfl⟩
    (fun _ _ => rfl) rfl, hs⟩

/-- The states `schedule` is called in: the running task is still marked running, or it is not
and nobody is. -/
def Switchable (s : TaskState) : Prop :=
  TaskInv s (some s.cur) ∨ TaskInv s none ∧ (s.task s.cur).status ≠ .running

/-- **`schedule` never stops, and leaves exactly one task running.** -/
theorem schedule_wp (h : Switchable s) (hi : s.intr = false) :
    wp schedule (fun _ s' => TaskInv s' (some s'.cur) ∧ Reschedules s s') (fun _ => False) s := by
  simp only [schedule, wp_bind, wp_get, wp_ASSERT, hi, Bool.not_false, true_implies,
    Bool.true_eq_false, false_implies, and_true]
  have hput : wp schedulePutBack
      (fun _ s' => TaskInv s' none ∧ Reschedules s s' ∧ s'.cur = s.cur ∧ s'.intr = s.intr)
      (fun _ => False) s := by
    rcases h with h | ⟨h, hr⟩
    · exact schedulePutBack_wp h
    · simp only [schedulePutBack, wp_bind, wp_get, if_neg hr, wp_pure]
      exact ⟨h, .refl s, trivial, trivial⟩
  refine hput.mono (fun _ s1 => ?_) fun _ => id
  rintro ⟨h1, hs1, -⟩
  refine (scheduleWakeIdle_wp h1).mono (fun _ s2 => ?_) fun _ => id
  rintro ⟨h2, hne, hs2, -⟩
  refine (schedulePick_wp h2 hne).mono (fun _ s3 => ?_) fun _ => id
  rintro ⟨h3, hs3⟩
  exact ⟨h3, (hs1.trans hs2).trans hs3⟩

/-! ### The routines that reschedule -/

/-- `thread_block`, from a state that is in order once the running task is marked. -/
theorem threadBlock_wp (h : TaskInv (s.setStatus s.cur b) none)
    (hb : b.isBlocked) :
    wp (threadBlock b)
      (fun _ s' => TaskInv s' (some s'.cur) ∧ Reschedules (s.setStatus s.cur b) s')
      (fun _ => False) s := by
  simp only [threadBlock, intrDisable, saveIntr, wp_bind, wp_get, wp_modify, wp_pure, wp_ASSERT, hb,
    true_implies, Bool.true_eq_false, false_implies, and_true]
  have hag : Reschedules (s.setStatus s.cur b)
      ({ s with intr := false, oldIntr := Function.update s.oldIntr s.cur s.intr }.setStatus
        s.cur b) :=
    SameTasks.reschedules
      ⟨⟨rfl, rfl, rfl, rfl, fun _ => id, fun _ => rfl, fun _ _ => rfl⟩, rfl⟩ fun _ _ => rfl
  have hcur : ((s.setStatus s.cur b).task s.cur).status = b := by
    rw [status_setStatus, if_pos rfl]
  refine (schedule_wp (.inr ⟨h.congr hag.toAgrees (fun _ _ => rfl) rfl, ?_⟩) rfl).mono
    (fun _ s' hs' => ⟨hs'.1, hag.trans hs'.2⟩) fun _ => id
  intro hrun
  rw [show b = .running from hcur.symm.trans hrun] at hb
  cases hb

theorem TaskInv.setStatus_cur (h : TaskInv s (some t)) (hb : b.isBlocked) :
    TaskInv (s.setStatus t b) none := by
  have hnr : b ≠ .ready := by rintro rfl; cases hb
  refine h.move_off (Moves.of_setStatus (.refl s) (fun _ => rfl) fun u => ?_) ?_ ?_
  · rw [if_neg hnr]
    split
    · subst u; exact List.count_eq_zero.mpr h.running_not_mem
    · rfl
  · rintro rfl; cases hb
  · rintro rfl; cases hb

theorem threadYield_wp (h : TaskInv s (some s.cur)) :
    wp threadYield (fun _ s' => TaskInv s' (some s'.cur) ∧ Reschedules s s') (fun _ => False)
      s := by
  have hmem := h.running_not_mem
  have hcount := List.count_eq_zero.mpr hmem
  have hrun := (h.running_iff s.cur (h.running_live _ rfl)).mpr rfl
  simp only [threadYield, intrDisable, saveIntr, wp_bind, wp_get, wp_modify, wp_pure, wp_ASSERT,
    decide_eq_true hmem, true_implies, Bool.true_eq_false, false_implies, and_true]
  have hm : Moves s
      ({ s with
        intr := false
        oldIntr := Function.update s.oldIntr s.cur s.intr
        threadReadyList := s.threadReadyList ++ [s.cur] }.setStatus s.cur .ready) s.cur .ready :=
    Moves.of_setStatus ⟨⟨rfl, rfl, rfl, rfl, fun _ => id, fun _ => rfl, fun _ _ => rfl⟩, rfl⟩
      (fun _ => rfl) fun u => by
        by_cases hu : u = s.cur
        · subst u; simp [hcount]
        · simp [hu, Ne.symm hu]
  have hrs := hm.reschedules rfl (.inr (by rw [hrun]; rfl))
  refine (schedule_wp (.inr ⟨h.move_off hm (by simp) (by simp), ?_⟩) rfl).mono
    (fun _ s' hs' => ⟨hs'.1, hrs.trans hs'.2⟩) fun _ => id
  intro hr
  have hready := hm.status s.cur
  rw [if_pos rfl] at hready
  cases hready.symm.trans hr

theorem intrTimerHandler_wp (h : TaskInv s (some s.cur)) :
    wp intrTimerHandler (fun _ s' => TaskInv s' (some s'.cur) ∧ Reschedules s s')
      (fun _ => False) s := by
  have hmagic := h.live_magic _ (h.running_live _ rfl)
  simp only [intrTimerHandler, intrDisable, saveIntr, intrSetStatus, wp_bind, wp_get, wp_modify,
    wp_pure, wp_ASSERT, wp_ite, decide_eq_true hmagic, true_implies, Bool.true_eq_false,
    false_implies, and_true]
  obtain ⟨h1, hr1⟩ := h.flags false (Function.update s.oldIntr s.cur s.intr)
  obtain ⟨h2, hr2⟩ := h1.charge s.cur (f := fun p => { p with elapsedTicks := p.elapsedTicks + 1 })
    (fun _ => rfl) (fun _ => rfl)
  refine ⟨fun _ => ?_, fun _ => ?_⟩
  · exact (schedule_wp (.inl h2) rfl).mono
      (fun _ s' hs' => ⟨hs'.1, (hr1.trans hr2).trans hs'.2⟩) fun _ => id
  · obtain ⟨h3, hr3⟩ := h2.charge s.cur (f := fun p => { p with ticks := p.ticks - 1 })
      (fun _ => rfl) (fun _ => rfl)
    obtain ⟨h4, hr4⟩ := h3.flags s.intr _
    exact ⟨h4, ((hr1.trans hr2).trans hr3).trans hr4⟩

/-! ### Wait queues -/

/-- A blocked task may join a queue if it is in none. -/
theorem TaskInv.enqueue (h : TaskInv s r) (m : ℕ) (hl : s.live t)
    (hb : (s.task t).status = .blocked) (hi : t ≠ s.idleThread)
    (hw : ∀ m, t ∉ (s.sema m).waiters) :
    TaskInv (s.updSema m fun q => { q with waiters := q.waiters ++ [t] }) r := by
  have hmem : ∀ m' u, u ∈ ((s.updSema m fun q => { q with waiters := q.waiters ++ [t] }).sema
      m').waiters ↔ u ∈ (s.sema m').waiters ∨ m' = m ∧ u = t := by
    intro m' u
    rw [sema_updSema]
    split <;> simp_all
  exact
    { h with
      waiter_blocked := fun m' u hu => by
        rcases (hmem m' u).mp hu with hu | ⟨-, rfl⟩
        · exact h.waiter_blocked m' u hu
        · exact ⟨hl, hb, hi⟩
      waiters_nodup := fun m' => by
        rw [sema_updSema]
        split
        · have hnot := hw m
          exact List.nodup_append.mpr ⟨h.waiters_nodup m, by simp,
            fun a ha c hc => by rw [List.mem_singleton.mp hc]; rintro rfl; exact hnot ha⟩
        · exact h.waiters_nodup m'
      waiters_unique := fun m1 m2 u h1 h2 => by
        rcases (hmem m1 u).mp h1 with h1 | ⟨hm1, hu1⟩ <;>
          rcases (hmem m2 u).mp h2 with h2 | ⟨hm2, hu2⟩
        · exact h.waiters_unique m1 m2 u h1 h2
        · exact absurd (hu2 ▸ h1) (hw m1)
        · exact absurd (hu1 ▸ h2) (hw m2)
        · rw [hm1, hm2] }

theorem TaskInv.dequeue (h : TaskInv s r) {m : ℕ} {rest : List ℕ}
    (hq : (s.sema m).waiters = t :: rest) :
    TaskInv (s.updSema m fun q => { q with waiters := rest }) r ∧
      ∀ m', t ∉ ((s.updSema m fun q => { q with waiters := rest }).sema m').waiters := by
  have hnd := h.waiters_nodup m
  rw [hq, List.nodup_cons] at hnd
  have hsub : ∀ m' u, u ∈ ((s.updSema m fun q => { q with waiters := rest }).sema m').waiters →
      u ∈ (s.sema m').waiters ∧ u ≠ t := by
    intro m' u hu
    rw [sema_updSema] at hu
    split at hu
    · subst m'
      exact ⟨by rw [hq]; exact List.mem_cons_of_mem _ hu, fun h' => hnd.1 (h' ▸ hu)⟩
    · refine ⟨hu, ?_⟩
      rintro rfl
      exact absurd (h.waiters_unique m' m u hu (by simp [hq])) (by assumption)
  refine ⟨{ h with
    waiter_blocked := fun m' u hu => h.waiter_blocked m' u (hsub m' u hu).1
    waiters_nodup := fun m' => ?_
    waiters_unique := fun m1 m2 u h1 h2 =>
      h.waiters_unique m1 m2 u (hsub m1 u h1).1 (hsub m2 u h2).1 },
    fun m' hu => (hsub m' t hu).2 rfl⟩
  rw [sema_updSema]
  split
  · exact hnd.2
  · exact h.waiters_nodup m'

/-- A semaphore's value is not read by the invariant. -/
theorem TaskInv.setValue (h : TaskInv s r) (m : ℕ) (f : Byte → Byte) :
    TaskInv (s.updSema m fun q => { q with value := f q.value }) r ∧
      Reschedules s (s.updSema m fun q => { q with value := f q.value }) := by
  have hw : ∀ m', ((s.updSema m fun q => { q with value := f q.value }).sema m').waiters =
      (s.sema m').waiters := by
    intro m'
    rw [sema_updSema]
    split
    · subst m'; rfl
    · rfl
  have hs : SameTasks s (s.updSema m fun q => { q with value := f q.value }) :=
    ⟨⟨rfl, rfl, rfl, rfl, fun _ => id, hw, fun _ _ => rfl⟩, rfl⟩
  exact ⟨h.congr hs.toAgrees (fun _ _ => rfl) rfl, hs.reschedules fun _ _ => rfl⟩

theorem TaskInv.running_not_waiter (h : TaskInv s (some t)) (m : ℕ) :
    t ∉ (s.sema m).waiters := fun hm => by
  have hrun := (h.running_iff t (h.running_live _ rfl)).mpr rfl
  rw [(h.waiter_blocked m t hm).2.1] at hrun
  cases hrun

theorem semaDown_wp (h : TaskInv s (some s.cur)) (hi : s.cur ≠ s.idleThread) (m : ℕ) :
    wp (semaDown m)
      (fun _ s' => TaskInv s' (some s'.cur) ∧
        ((s.task s.idleThread).status ≠ .hanging → Quiet s s'))
      (fun f => f = .panic .semaDown) s := by
  have hw := h.running_not_waiter
  have hrun := (h.running_iff _ (h.running_live _ rfl)).mpr rfl
  simp only [semaDown, intrDisable, intrSetStatus, wp_bind, wp_get, wp_modify, wp_pure, wp_ASSERT,
    wp_ite, wp_stop, implies_true, and_true]
  obtain ⟨h0, hr0⟩ := h.flags false s.oldIntr
  refine ⟨fun _ _ => ⟨trivial, fun _ => ?_⟩, fun _ => ?_⟩
  · -- blocked: the state once the tag is queued and the task marked is in order
    have hb := h0.setStatus_cur (b := .blocked) rfl
    have hq := hb.enqueue (t := s.cur) m (h0.running_live _ rfl)
      (by rw [status_setStatus, if_pos rfl]) hi hw
    refine (threadBlock_wp (b := .blocked) ?_ rfl).mono (fun _ s' hs' => ⟨hs'.1, fun hid => ?_⟩)
      fun _ => False.elim
    · exact hq
    · have hnh : (s.task s.cur).status ≠ .hanging := by simp [hrun]
      have hid' : ((s.setStatus s.cur .blocked).task s.idleThread).status ≠ .hanging := by
        rw [status_setStatus, if_neg (Ne.symm hi)]; exact hid
      exact (((hr0.quiet hid).trans (quiet_updSema m _)).trans
        (quiet_setStatus (by simp) hnh)).trans
        (hs'.2.quiet hid')
  · obtain ⟨h1, hr1⟩ := h0.setValue m fun v => v - 1
    obtain ⟨h2, hr2⟩ := h1.flags s.intr s.oldIntr
    exact fun _ => ⟨h2, ((hr0.trans hr1).trans hr2).quiet⟩

theorem semaWake_wp (h : TaskInv s (some s.cur)) (m : ℕ) :
    wp (semaWake m) (fun _ s' => TaskInv s' (some s'.cur) ∧ Quiet s s') (fun _ => False) s := by
  simp only [semaWake, wp_bind, wp_get]
  cases hq : (s.sema m).waiters with
  | nil => exact ⟨h, (SameTasks.refl s).quiet fun _ _ => rfl⟩
  | cons t rest =>
    obtain ⟨hl, hb, -⟩ := h.waiter_blocked m t (by simp [hq])
    obtain ⟨h1, hout⟩ := h.dequeue hq
    have hblocked : (s.task t).status.isBlocked := by rw [hb]; rfl
    simp only [wp_bind, wp_modify]
    refine (threadUnblock_wp h1 hblocked).mono (fun _ s2 => ?_) fun _ => False.elim
    rintro ⟨hm, -, hcur, -⟩
    have hne : s.cur ≠ t := fun h' => h.running_not_waiter m (by rw [hq, h']; simp)
    have h2 := h1.move (q := some s.cur) hm hl (by simp) (fun m' hu => absurd hu (hout m'))
      (fun u => by by_cases hu : u = t <;> simp [hu, hne])
    rw [← show s2.cur = s.cur from hcur] at h2
    have hnh : (s.task t).status ≠ .hanging := by simp [hb]
    exact ⟨h2, (quiet_updSema m _).trans (hm.quiet (by simp) hnh)⟩

theorem semaUp_wp (h : TaskInv s (some s.cur)) (m : ℕ) :
    wp (semaUp m) (fun _ s' => TaskInv s' (some s'.cur) ∧ Quiet s s')
      (fun f => f = .panic .semaUp) s := by
  have hfl : ∀ (s : TaskState) i o, Quiet s { s with intr := i, oldIntr := o } := fun s i o =>
    ⟨rfl, rfl, rfl, fun _ _ => rfl, rfl, fun _ _ => Iff.rfl⟩
  obtain ⟨h0, -⟩ := h.flags false s.oldIntr
  simp only [semaUp, intrDisable, intrSetStatus, wp_bind, wp_get, wp_modify, wp_pure, wp_ASSERT,
    implies_true, and_true]
  intro _
  refine (semaWake_wp h0 m).mono (fun _ s1 h1 => ?_) fun _ => False.elim
  obtain ⟨h2, -⟩ := h1.1.setValue m fun v => v + 1
  exact fun _ => ⟨(h2.flags s.intr s1.oldIntr).1, (((hfl s false s.oldIntr).trans h1.2).trans
    (quiet_updSema m _)).trans (hfl _ s.intr s1.oldIntr)⟩

/-! ### Creation -/

/-- A free pid was taken. -/
def TakesPid (b b' : Bitmap) (i : ℕ) : Prop :=
  i < 8 * b.btmpBytesLen ∧ b.bit i = false ∧ b' = bitmapSet b i true

/-- `t`, which was not live, is a new task with the PCB `p` and with a pid that was free. -/
structure Births (s s' : TaskState) (t : ℕ) (p : Task) : Prop where
  fresh : s.live t = false
  live : s'.live = Function.update s.live t true
  all : s'.threadAllList = s.threadAllList ++ [t]
  ready : s'.threadReadyList = s.threadReadyList ++ [t]
  idle : s'.idleThread = s.idleThread
  main : s'.gMainThread = s.gMainThread
  page : s'.page = Function.update s.page t true
  sema : s'.sema = s.sema
  cur : s'.cur = s.cur
  task : s'.task = Function.update s.task t p
  status : p.status = .ready
  stackMagic : p.stackMagic = 0x19870916#32
  pid : ∃ i : ℕ, p.pid = i + 1 ∧ TakesPid s.pidBitmap s'.pidBitmap i

namespace Births

variable {p : Task} {u : ℕ}

variable (hb : Births s s' t p)

include hb

theorem live_iff (u : ℕ) : s'.live u ↔ u = t ∨ s.live u := by
  rw [hb.live, Function.update_apply]
  split <;> simp_all

theorem ne_of_live (hu : s.live u) : u ≠ t := by
  rintro rfl
  rw [hb.fresh] at hu
  cases hu

theorem task_of_ne (hu : u ≠ t) : s'.task u = s.task u := by
  rw [hb.task, Function.update_of_ne hu]

theorem task_old (u : ℕ) (hu : s.live u) : s'.task u = s.task u :=
  hb.task_of_ne (hb.ne_of_live hu)

theorem task_self : s'.task t = p := by
  rw [hb.task, Function.update_self]

end Births

theorem TaskInv.birth {p : Task} (h : TaskInv s r) (hb : Births s s' t p) : TaskInv s' r := by
  have hlive := hb.live_iff
  have hne : ∀ u, s.live u → u ≠ t := fun u => hb.ne_of_live
  have htask : ∀ u, u ≠ t → s'.task u = s.task u := fun u => hb.task_of_ne
  have hself := hb.task_self
  have hrne : r ≠ some t := fun hr => hne t (h.running_live t hr) rfl
  have hready : s.threadReadyList.count t = 0 :=
    List.count_eq_zero.mpr fun hm => hne t (h.mem_ready.mp hm).1 rfl
  constructor
  case running_iff =>
    intro u hu
    by_cases hut : u = t
    · subst u; simp [hself, hb.status, hrne]
    · rw [htask u hut]; exact h.running_iff u (((hlive u).mp hu).resolve_left hut)
  case running_live => exact fun u hu => (hlive u).mpr (.inr (h.running_live u hu))
  case ready_count =>
    intro u
    rw [hb.ready, List.count_append]
    by_cases hut : u = t
    · subst u; simp [hself, hb.status, (hlive t).mpr (.inl rfl), hready]
    · have := h.ready_count u
      rw [htask u hut, this]
      simp [Ne.symm hut, hlive, hut]
  case all_count =>
    intro u
    rw [hb.all, List.count_append, h.all_count u]
    by_cases hut : u = t
    · subst u; simp [(hlive t).mpr (.inl rfl), hb.fresh]
    · simp [Ne.symm hut, hlive, hut]
  case not_died =>
    intro u hu
    by_cases hut : u = t
    · subst u; simp [hself, hb.status]
    · rw [htask u hut]; exact h.not_died u (((hlive u).mp hu).resolve_left hut)
  case idle_live => rw [hb.idle]; exact (hlive _).mpr (.inr h.idle_live)
  case waiter_blocked =>
    intro m u hu
    rw [hb.sema] at hu
    obtain ⟨h1, h2, h3⟩ := h.waiter_blocked m u hu
    rw [htask u (hne u h1), hb.idle]
    exact ⟨(hlive u).mpr (.inr h1), h2, h3⟩
  case waiters_nodup => rw [hb.sema]; exact h.waiters_nodup
  case waiters_unique => rw [hb.sema]; exact h.waiters_unique
  case live_page =>
    intro u hu
    rw [hb.page, hb.main, Function.update_apply]
    split
    · simp
    · exact h.live_page u (((hlive u).mp hu).resolve_left (by assumption))
  case main_low => rw [hb.main]; exact h.main_low
  case live_pid =>
    intro u hu
    by_cases hut : u = t
    · subst u
      obtain ⟨i, hi, -⟩ := hb.pid
      rw [hself]
      omega
    · rw [htask u hut]; exact h.live_pid u (((hlive u).mp hu).resolve_left hut)
  case live_magic =>
    intro u hu
    by_cases hut : u = t
    · subst u; rw [hself, hb.stackMagic]
    · rw [htask u hut]; exact h.live_magic u (((hlive u).mp hu).resolve_left hut)

theorem allocatePid_wp :
    wp allocatePid
      (fun pid s' => ∃ (i : ℕ) (b : Bitmap), pid = i + 1 ∧ TakesPid s.pidBitmap b i ∧
        s' = { s with pidBitmap := b })
      (fun f => f = .panic .bitmapScan) s := by
  simp only [allocatePid, wp_bind, wp_get, wp_lift, wp_modify, wp_pure]
  refine ⟨fun r hr => ?_, fun f hf => bitmapScan_error hf⟩
  obtain ⟨i, rfl, hlt, hc, -⟩ := bitmapScan_one hr
  exact ⟨i, _, rfl, ⟨hlt, hc, rfl⟩, by simp⟩

/-- Enlisting a task whose PCB is ready completes a birth. -/
theorem enlist_wp {func : Func} (h : TaskInv s r) (hfresh : s.live t = false) {s1 : TaskState}
    (hl : s1.live = s.live) (ha : s1.threadAllList = s.threadAllList)
    (hrd : s1.threadReadyList = s.threadReadyList) :
    wp (enlist func t)
      (fun _ s' => s' = { s1 with
        threadReadyList := s.threadReadyList ++ [t]
        threadAllList := s.threadAllList ++ [t]
        live := Function.update s.live t true })
      (fun _ => False) s1 := by
  have hready : t ∉ s.threadReadyList := fun hm => by
    have hl := (h.mem_ready.mp hm).1
    rw [hfresh] at hl
    cases hl
  have hall : t ∉ s.threadAllList := fun hm => by
    have hl := h.mem_all.mp hm
    rw [hfresh] at hl
    cases hl
  simp only [enlist, wp_bind, wp_get, wp_modify, wp_ASSERT, hrd, ha, hl, decide_eq_true hready,
    decide_eq_true hall, true_implies, Bool.true_eq_false, false_implies, and_true]

theorem threadStart_wp (h : TaskInv s r) (hp : s.page t = false) (hk : kHeapStart ≤ t)
    (prio : Byte) :
    wp (threadStart (some t) prio)
      (fun _ s' => ∃ p, Births s s' t p ∧ p.parentPid = -1 ∧ p.pgdir = false)
      (fun f => f = .panic .bitmapScan) s := by
  have hfresh := h.not_live_of_fresh hp hk
  have hmain : t ≠ s.gMainThread := by have := h.main_low; omega
  simp only [threadStart, takePage, initThread, wp_bind, wp_modify]
  refine allocatePid_wp.mono (fun pid s1 => ?_) fun _ => id
  rintro ⟨i, b, hpid, htakes, rfl⟩
  refine (enlist_wp h hfresh ?_ ?_ ?_).mono (fun _ s' => ?_) fun _ => False.elim
  · rfl
  · rfl
  · rfl
  · rintro rfl
    refine ⟨_, ⟨hfresh, rfl, rfl, rfl, rfl, rfl, rfl, rfl, rfl, rfl, ?_, rfl,
      ⟨i, hpid, htakes⟩⟩, rfl, rfl⟩
    simp [hmain]

/-- `copy_process` writes the child's PCB and takes at most one pid. If it succeeds the PCB is a
copy of the parent's, ready, with a new pid and the parent's pid as its parent. -/
theorem copyProcess_wp {child parent : ℕ} (hne : parent ≠ child) (pages : ForkPages) :
    wp (copyProcess child parent pages)
      (fun copied s' => ∃ q o b,
        s' = { s with task := Function.update s.task child q, oldIntr := o, pidBitmap := b } ∧
        (b = s.pidBitmap ∨ ∃ i, TakesPid s.pidBitmap b i) ∧
        (copied = true → q.status = .ready ∧ q.stackMagic = (s.task parent).stackMagic ∧
          q.parentPid = (s.task parent).pid ∧ q.pgdir = true ∧
          q.exitStatus = (s.task parent).exitStatus ∧
          ∃ i : ℕ, q.pid = i + 1 ∧ TakesPid s.pidBitmap b i))
      (fun f => f = .panic .bitmapScan) s := by
  unfold copyProcess
  split
  · simp only [wp_pure]
    exact ⟨s.task child, s.oldIntr, s.pidBitmap, by simp, .inl rfl, by simp⟩
  · simp only [copyPcb, wp_bind, wp_modify, wp_pure]
    refine allocatePid_wp.mono (fun pid s1 => ?_) fun _ => id
    rintro ⟨i, b, rfl, htakes, rfl⟩
    simp only [wp_ite, wp_bind, wp_modify, wp_pure, updTask, Function.update_self,
      Function.update_idem, Function.update_of_ne hne]
    refine ⟨fun _ => ⟨_, _, _, rfl, .inr ⟨i, htakes⟩, by simp⟩, fun _ =>
      ⟨fun _ => ⟨_, _, _, rfl, .inr ⟨i, htakes⟩, by simp⟩, fun hpg =>
        ⟨_, _, _, rfl, .inr ⟨i, htakes⟩, fun _ => ⟨rfl, rfl, rfl, ?_, rfl, i, rfl, htakes⟩⟩⟩⟩
    simpa using hpg

/-- A fork that fails spoils a page that holds no task, and may lose a pid. -/
structure ForkFails (s s' : TaskState) : Prop extends Agrees s s' where
  cur : s'.cur = s.cur
  ready : s'.threadReadyList = s.threadReadyList
  task : ∀ u, s.live u → s'.task u = s.task u
  pids : s'.pidBitmap = s.pidBitmap ∨ ∃ i, TakesPid s.pidBitmap s'.pidBitmap i

/-- A fork that succeeds gives birth to a copy of the caller. -/
structure ForksTo (s s' : TaskState) (t : ℕ) (p : Task) : Prop extends Births s s' t p where
  user : (s.task s.cur).pgdir = true
  parent : p.parentPid = (s.task s.cur).pid
  pgdir : p.pgdir = true
  exitStatus : p.exitStatus = (s.task s.cur).exitStatus

/-- **What `sys_fork` did when it returns.** -/
theorem sysFork_wp (h : TaskInv s (some s.cur)) {pages : ForkPages}
    (hfresh : ∀ t, pages.pcb = some t → s.page t = false ∧ kHeapStart ≤ t) :
    wp (sysFork pages)
      (fun pid s' => (pid = -1 ∧ ForkFails s s') ∨
        ∃ t p, pages.pcb = some t ∧ ForksTo s s' t p ∧ pid = p.pid)
      (fun f => f = .panic .bitmapScan ∨ f = .panic .sysFork) s := by
  cases hpcb : pages.pcb with
  | none =>
    simp only [sysFork, wp_bind, wp_get, hpcb, wp_pure]
    exact .inl ⟨trivial, (SameTasks.refl s).toAgrees, rfl, rfl, fun _ _ => rfl, .inl rfl⟩
  | some child =>
    obtain ⟨hp, hk⟩ := hfresh child hpcb
    have hdead := h.not_live_of_fresh hp hk
    have hne : ∀ u, s.live u → u ≠ child := by
      rintro u hu rfl
      rw [hdead] at hu
      cases hu
    have hcl := h.running_live s.cur rfl
    simp only [sysFork, takePage, wp_bind, wp_get, hpcb, wp_modify, wp_ASSERT, or_true,
      implies_true, and_true]
    intro huser
    rw [Bool.and_eq_true] at huser
    refine (copyProcess_wp (hne _ hcl) pages).mono (fun copied s1 => ?_) fun _ => .inl
    rintro ⟨q, o, b, rfl, hpids, hq⟩
    cases copied with
    | false =>
      refine .inl ⟨rfl, ⟨rfl, rfl, rfl, rfl, fun u hu => ?_, fun _ => rfl,
        fun u hu => ?_⟩, rfl, rfl,
        fun u hu => Function.update_of_ne (hne u hu) _ _, hpids⟩
      · exact (Function.update_apply ..).trans (by simp [hu])
      · exact congrArg Task.ident (Function.update_of_ne (hne u hu) _ _)
    | true =>
      obtain ⟨h1, h2, h3, h4, h5, i, h6, htakes⟩ := hq rfl
      simp only [Bool.not_true, Bool.false_eq_true, if_false, wp_bind]
      refine (enlist_wp h hdead ?_ ?_ ?_).mono (fun _ s' => ?_) fun _ => False.elim
      · rfl
      · rfl
      · rfl
      rintro rfl
      simp only [wp_get, wp_pure, Function.update_self]
      exact .inr ⟨child, q, rfl, ⟨⟨hdead, rfl, rfl, rfl, rfl, rfl, rfl, rfl, rfl, rfl, h1,
        h2.trans (h.live_magic _ hcl), ⟨i, h6, htakes⟩⟩, huser.2, h3, h4, h5⟩, rfl⟩

/-! ### Exit -/

/-- `t` leaves the lists, and its page and pid are returned. -/
structure Deaths (s s' : TaskState) (t : ℕ) : Prop where
  live : s'.live = Function.update s.live t false
  all : s'.threadAllList = s.threadAllList.erase t
  ready : s'.threadReadyList = s.threadReadyList.erase t
  idle : s'.idleThread = s.idleThread
  main : s'.gMainThread = s.gMainThread
  page : ∀ u, u ≠ t → s'.page u = s.page u
  sema : s'.sema = s.sema
  cur : s'.cur = s.cur
  task : ∀ u, u ≠ t → s'.task u = s.task u
  status : (s'.task t).status = .died
  pids : s'.pidBitmap = bitmapSet s.pidBitmap ((s.task t).pid - 1).toNat false

theorem Deaths.live_iff (hd : Deaths s s' t) (u : ℕ) : s'.live u ↔ u ≠ t ∧ s.live u := by
  rw [hd.live, Function.update_apply]
  split <;> simp_all

/-- A death keeps the invariant, the idle thread and tasks in wait queues apart. -/
theorem TaskInv.death (h : TaskInv s r) (hd : Deaths s s' t) (hi : t ≠ s.idleThread)
    (hw : ∀ m, t ∉ (s.sema m).waiters) (hr : ∀ u, q = some u ↔ u ≠ t ∧ r = some u) :
    TaskInv s' q := by
  have hlive := hd.live_iff
  have hcount : ∀ (l : List ℕ) (u : ℕ), (l.erase t).count u =
      if u = t then l.count t - 1 else l.count u := fun l u => by
    split
    · subst u; exact List.count_erase_self
    · exact List.count_erase_of_ne (by assumption)
  constructor
  case running_iff =>
    intro u hu
    obtain ⟨hut, hl⟩ := (hlive u).mp hu
    rw [hd.task u hut, hr, h.running_iff u hl]
    simp [hut]
  case running_live =>
    intro u hu
    obtain ⟨hut, hu⟩ := (hr u).mp hu
    exact (hlive u).mpr ⟨hut, h.running_live u hu⟩
  case ready_count =>
    intro u
    rw [hd.ready, hcount]
    by_cases hut : u = t
    · subst hut
      have := h.ready_count u
      rw [if_pos rfl, if_neg (by simp [hlive])]
      split at this <;> omega
    · rw [if_neg hut, hd.task u hut, h.ready_count u]
      simp [hlive, hut]
  case all_count =>
    intro u
    rw [hd.all, hcount]
    by_cases hut : u = t
    · subst hut
      have := h.all_count u
      rw [if_pos rfl, if_neg (by simp [hlive])]
      split at this <;> omega
    · rw [if_neg hut, h.all_count u]
      simp [hlive, hut]
  case not_died =>
    intro u hu
    obtain ⟨hut, hl⟩ := (hlive u).mp hu
    rw [hd.task u hut]
    exact h.not_died u hl
  case idle_live => rw [hd.idle]; exact (hlive _).mpr ⟨Ne.symm hi, h.idle_live⟩
  case waiter_blocked =>
    intro m u hu
    rw [hd.sema] at hu
    obtain ⟨h1, h2, h3⟩ := h.waiter_blocked m u hu
    have hut : u ≠ t := fun h' => hw m (h' ▸ hu)
    rw [hd.task u hut, hd.idle]
    exact ⟨(hlive u).mpr ⟨hut, h1⟩, h2, h3⟩
  case waiters_nodup => rw [hd.sema]; exact h.waiters_nodup
  case waiters_unique => rw [hd.sema]; exact h.waiters_unique
  case live_page =>
    intro u hu
    obtain ⟨hut, hl⟩ := (hlive u).mp hu
    rw [hd.page u hut, hd.main]
    exact h.live_page u hl
  case main_low => rw [hd.main]; exact h.main_low
  case live_pid =>
    intro u hu
    obtain ⟨hut, hl⟩ := (hlive u).mp hu
    rw [hd.task u hut]
    exact h.live_pid u hl
  case live_magic =>
    intro u hu
    obtain ⟨hut, hl⟩ := (hlive u).mp hu
    rw [hd.task u hut]
    exact h.live_magic u hl

section

variable {Q : Unit → TaskState → Prop} {E : Fault → Prop}

theorem readyRemove_wp : wp (readyRemove t) Q E s ↔
    Q () { s with threadReadyList := s.threadReadyList.erase t } := by
  simp only [readyRemove, wp_bind, wp_get, wp_ite, wp_modify, wp_pure]
  by_cases hm : t ∈ s.threadReadyList
  · simp [hm]
  · simp [hm, List.erase_of_not_mem hm]

theorem allRemove_wp (hm : t ∈ s.threadAllList) : wp (allRemove t) Q E s ↔
    Q () { s with threadAllList := s.threadAllList.erase t } := by
  simp only [allRemove, wp_bind, wp_get, if_pos hm, wp_modify]

theorem freePcb_wp : wp (freePcb t) Q E s ↔
    Q () { s with page :=
      if t ≠ s.gMainThread then Function.update s.page t false else s.page } := by
  simp only [freePcb, wp_bind, wp_get, wp_ite, wp_modify, wp_pure]
  by_cases hm : t ≠ s.gMainThread <;> simp [hm]

theorem releasePid_wp {pid : Int} (hp : 1 ≤ pid) : wp (releasePid pid) Q E s ↔
    Q () { s with pidBitmap := bitmapSet s.pidBitmap (pid - 1).toNat false } := by
  simp only [releasePid, if_neg (show ¬ pid < 1 by omega), wp_modify]

end

theorem threadUnlink_wp (h : TaskInv s r) (hl : s.live t) :
    wp (threadUnlink t) (fun _ s' => Deaths s s' t ∧ s'.intr = false) (fun _ => False) s := by
  have hpid : ((s.setStatus t .died).task t).pid = (s.task t).pid :=
    congrArg Prod.fst (ident_setStatus s t .died t)
  have hpos : 1 ≤ ((s.setStatus t .died).task t).pid := by rw [hpid]; exact h.live_pid t hl
  have hst : ((s.setStatus t .died).task t).status = .died := by rw [status_setStatus, if_pos rfl]
  have htask : ∀ u, u ≠ t → (s.setStatus t .died).task u = s.task u := fun u hu => by
    rw [setStatus, task_updTask, if_neg hu]
  simp only [threadUnlink, intrDisable, wp_bind, wp_get, wp_modify, wp_pure, readyRemove_wp]
  refine (allRemove_wp ?_).mpr ?_
  · exact h.mem_all.mpr hl
  rw [freePcb_wp]
  refine (releasePid_wp ?_).mpr ⟨⟨rfl, rfl, rfl, rfl, rfl, fun u hu => ?_, rfl, rfl, htask, hst,
    congrArg (fun i : Int => bitmapSet s.pidBitmap (i - 1).toNat false) hpid⟩, rfl⟩
  · exact hpos
  · change (if t ≠ s.gMainThread then Function.update s.page t false else s.page) u = s.page u
    split
    · exact Function.update_of_ne hu _ _
    · rfl

/-- **`thread_exit`**: the task dies, and if it was the caller another one runs. -/
theorem threadExit_wp (h : TaskInv s (some s.cur)) {ns : Bool} (hl : s.live t)
    (hi : t ≠ s.idleThread) (hw : ∀ m, t ∉ (s.sema m).waiters) (hns : ns = decide (t = s.cur)) :
    wp (threadExit t ns)
      (fun _ s' => TaskInv s' (some s'.cur) ∧
        ∃ s1, Deaths s s1 t ∧ (ns = true → Reschedules s1 s') ∧ (ns = false → s' = s1))
      (fun _ => False) s := by
  simp only [threadExit, wp_bind]
  refine (threadUnlink_wp h hl).mono (fun _ s1 => ?_) fun _ => id
  rintro ⟨hd, hintr⟩
  by_cases hc : t = s.cur
  · have h1 := h.death (q := none) hd hi hw (by grind)
    have hdead : s1.live s1.cur = false := by rw [hd.live, hd.cur, ← hc, Function.update_self]
    simp only [hns, hc, decide_true, if_true, wp_bind, wp_get]
    refine (schedule_wp (.inr ⟨h1, ?_⟩) hintr).mono (fun _ s2 => ?_) fun _ => id
    · rw [hd.cur, ← hc, hd.status]; simp
    · rintro ⟨h2, hrs⟩
      have hne : s2.cur ≠ s1.cur := fun heq => by
        have hl2 := h2.running_live _ rfl
        rw [hrs.live, heq, hdead] at hl2
        cases hl2
      simp only [if_neg hne, wp_pure]
      exact ⟨h2, s1, hc ▸ hd, fun _ => hrs, by simp⟩
  · simp only [hns, hc, decide_false, Bool.false_eq_true, if_false, wp_pure]
    have h1 := h.death (q := some s.cur) hd hi hw (by grind)
    rw [← hd.cur] at h1
    exact ⟨h1, s1, hd, by simp, by simp⟩

end X86Os
