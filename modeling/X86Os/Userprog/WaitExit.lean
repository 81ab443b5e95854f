import X86Os.Thread.TaskInv

/-!
# Exit and wait

`userprog/wait_exit.c`, as far as it touches the tasks: `sys_exit` hands the caller's children to
`init`, wakes its parent if it waits, and leaves the caller hanging; `sys_wait` reaps a hanging
child if there is one. Both run with interrupts off from entry to the point where they block. What
`release_prog_resource` does to memory and files is not seen here.
-/

namespace X86Os

open X86Os.Comp TaskState

/-! ### The callbacks of `list_traversal` -/

/-- `find_child`. -/
def findChild (ppid : Int) (p : Task) : Bool := p.parentPid = ppid

/-- `find_hanging_child`. -/
def findHangingChild (ppid : Int) (p : Task) : Bool := p.parentPid = ppid && p.status = .hanging

/-- `pid_check`. -/
def pidCheck (pid : Int) (p : Task) : Bool := p.pid = pid

/-- `list_traversal(&thread_all_list, ..)`: the first task the callback accepts. -/
def listTraversal (s : TaskState) (func : Task → Bool) : Option ℕ :=
  s.threadAllList.find? fun t => func (s.task t)

/-- `pid2thread`. -/
def pid2thread (s : TaskState) (pid : Int) : Option ℕ := listTraversal s (pidCheck pid)

/-- `init_adopt_a_child`, a callback that writes to the PCBs and accepts none. -/
def initAdoptAChild (pid : Int) (task : ℕ → Task) (t : ℕ) : ℕ → Task :=
  if (task t).parentPid = pid then Function.update task t { task t with parentPid := 1 } else task

/-- `list_traversal(&thread_all_list, init_adopt_a_child, pid)`. -/
def adoptChildren (pid : Int) : Kern TaskState Unit :=
  modify fun s => { s with task := s.threadAllList.foldl (initAdoptAChild pid) s.task }

/-! ### `sys_exit` -/

/-- Wake the parent, if it waits. -/
def wakeParent (parent : ℕ) : Kern TaskState Unit := do
  let s ← get
  if (s.task parent).status = .waiting then threadUnblock parent

/-- The end of `sys_exit`: find the parent, wake it and hang. The result of `pid2thread` is not
tested for `NULL`. -/
def hangForParent : Kern TaskState Unit := do
  let s ← get
  match pid2thread s (s.task s.cur).parentPid with
  | none => stop .wild
  | some parent =>
    wakeParent parent
    threadBlock .hanging

/-- `sys_exit`. The status is kept in eight bits. -/
def sysExit (status : Word) : Kern TaskState Unit := do
  modify fun s => s.updTask s.cur fun p => { p with exitStatus := status.setWidth 8 }
  let s ← get
  if (s.task s.cur).parentPid = -1 then stop (.panic .sysExit)
  else
    adoptChildren (s.task s.cur).pid
    hangForParent

/-! ### `sys_wait` -/

/-- How a pass through the loop of `sys_wait` ends: it returns a child's pid and stores its status,
it returns `-1`, or the caller blocks and will run the loop again. -/
inductive WaitOutcome
  | child (pid : Int) (status : Word)
  | noChild
  | blocks

/-- One pass through the loop of `sys_wait`. The pid passes through a `uint16_t`. -/
def sysWait : Kern TaskState WaitOutcome := do
  let s ← get
  let ppid := (s.task s.cur).pid
  match listTraversal s (findHangingChild ppid) with
  | some child =>
    threadExit child false
    pure (.child (BitVec.ofInt 16 (s.task child).pid).toInt
      ((s.task child).exitStatus.signExtend 32))
  | none =>
    match listTraversal s (findChild ppid) with
    | none => pure .noChild
    | some _ => do
      threadBlock .waiting
      pure .blocks

/-! ### What they do -/

variable {s s' : TaskState} {t : ℕ}

theorem listTraversal_eq_some {func : Task → Bool} (h : listTraversal s func = some t) :
    t ∈ s.threadAllList ∧ func (s.task t) = true :=
  ⟨List.mem_of_find?_eq_some h, by simpa using List.find?_some (p := fun t => func (s.task t)) h⟩

theorem listTraversal_of_mem {f : Task → Bool} (hm : t ∈ s.threadAllList)
    (hf : f (s.task t) = true) : ∃ u, listTraversal s f = some u := by
  cases h : listTraversal s f with
  | some u => exact ⟨u, rfl⟩
  | none => exact absurd hf (List.find?_eq_none.mp h t hm)

theorem foldl_initAdoptAChild (pid : Int) (l : List ℕ) (task : ℕ → Task) (u : ℕ) :
    l.foldl (initAdoptAChild pid) task u =
      if u ∈ l ∧ (task u).parentPid = pid then { task u with parentPid := 1 } else task u := by
  induction l generalizing task with
  | nil => simp
  | cons t ts ih =>
    rw [List.foldl_cons, ih]
    unfold initAdoptAChild
    by_cases hp : (task t).parentPid = pid
    · rw [if_pos hp]
      by_cases hu : u = t
      · subst u; simp [hp]
      · simp [hu]
    · rw [if_neg hp]
      by_cases hu : u = t
      · subst u; simp [hp]
      · simp [hu]

/-- The caller exits with `status`: it is left hanging, and its children have the parent `1`. -/
structure Exits (s s' : TaskState) (status : Word) : Prop where
  live : s'.live = s.live
  all : s'.threadAllList = s.threadAllList
  idle : s'.idleThread = s.idleThread
  pidBitmap : s'.pidBitmap = s.pidBitmap
  pid : ∀ u, s.live u → (s'.task u).pid = (s.task u).pid
  pgdir : ∀ u, s.live u → (s'.task u).pgdir = (s.task u).pgdir
  parent : ∀ u, s.live u → (s'.task u).parentPid =
    if (s.task u).parentPid = (s.task s.cur).pid then 1 else (s.task u).parentPid
  exitStatus : ∀ u, s.live u → (s'.task u).exitStatus =
    if u = s.cur then status.setWidth 8 else (s.task u).exitStatus
  hanging : ∀ u, s.live u →
    ((s'.task u).status = .hanging ↔ u = s.cur ∨ (s.task u).status = .hanging)

theorem wakeParent_wp (h : TaskInv s (some s.cur)) (hl : s.live t) (hne : t ≠ s.cur) :
    wp (wakeParent t) (fun _ s' => TaskInv s' (some s'.cur) ∧ s'.cur = s.cur ∧ Quiet s s')
      (fun _ => False) s := by
  simp only [wakeParent, wp_bind, wp_get, wp_ite, wp_pure]
  refine ⟨fun hw => ?_, fun _ => ⟨h, trivial, (SameTasks.refl s).quiet fun _ _ => rfl⟩⟩
  refine (threadUnblock_wp h (by rw [hw]; rfl)).mono (fun _ s' => ?_) fun _ => id
  rintro ⟨hm, -, hcur, -⟩
  refine ⟨?_, hcur, hm.quiet (by simp) (by simp [hw])⟩
  rw [hcur]
  refine h.move hm hl (by simp) (fun m hu => ?_) (by grind)
  rw [(h.waiter_blocked m t hu).2.1] at hw
  cases hw

/-- The parent is in the table, so it is found; the caller is left hanging and nobody else is. -/
theorem hangForParent_wp (h : TaskInv s (some s.cur)) (hi : s.cur ≠ s.idleThread)
    (hidle : (s.task s.idleThread).status ≠ .hanging)
    (hself : (s.task s.cur).parentPid ≠ (s.task s.cur).pid)
    (hex : ∃ u, s.live u ∧ (s.task u).pid = (s.task s.cur).parentPid) :
    wp hangForParent
      (fun _ s' => TaskInv s' (some s'.cur) ∧ Quiet (s.setStatus s.cur .hanging) s')
      (fun _ => False) s := by
  have hrun := (h.running_iff _ (h.running_live _ rfl)).mpr rfl
  obtain ⟨v, hvl, hvp⟩ := hex
  obtain ⟨p, hp⟩ := listTraversal_of_mem (f := pidCheck (s.task s.cur).parentPid)
    (h.mem_all.mpr hvl) (by simpa [pidCheck] using hvp)
  obtain ⟨hpm, hpp⟩ := listTraversal_eq_some hp
  have hpne : p ≠ s.cur := by
    rintro rfl
    simp only [pidCheck, decide_eq_true_eq] at hpp
    exact hself hpp.symm
  simp only [hangForParent, wp_bind, wp_get, pid2thread, hp]
  refine (wakeParent_wp h (h.mem_all.mp hpm) hpne).mono (fun _ s1 => ?_) fun _ => id
  rintro ⟨h1, hcur, hq⟩
  refine (threadBlock_wp (h1.setStatus_cur rfl) rfl).mono (fun _ s2 => ?_) fun _ => id
  rintro ⟨h2, hrs⟩
  have hid1 : ((s1.setStatus s1.cur .hanging).task s1.idleThread).status ≠ .hanging := by
    rw [status_setStatus, if_neg (by rw [hq.idle, hcur]; exact Ne.symm hi), hq.idle,
      Ne, hq.hanging _ h.idle_live]
    exact hidle
  refine ⟨h2, Quiet.trans ?_ (hrs.quiet hid1)⟩
  refine ⟨hq.live, hq.all, hq.idle, fun u hu => ?_, hq.pidBitmap, fun u hu => ?_⟩
  · rw [ident_setStatus, ident_setStatus]
    exact hq.ident u hu
  · rw [status_setStatus, status_setStatus, hcur]
    split
    · rfl
    · exact hq.hanging u hu

/-- The PCBs once `sys_exit` has stored the status and handed the children over. -/
def exitMem (s : TaskState) (status : Word) : ℕ → Task :=
  s.threadAllList.foldl (initAdoptAChild (s.task s.cur).pid)
    (s.updTask s.cur fun p => { p with exitStatus := status.setWidth 8 }).task

theorem exitMem_apply (s : TaskState) (status : Word) (u : ℕ) :
    exitMem s status u =
      { s.task u with
        parentPid := if u ∈ s.threadAllList ∧ (s.task u).parentPid = (s.task s.cur).pid then 1
          else (s.task u).parentPid
        exitStatus := if u = s.cur then status.setWidth 8 else (s.task u).exitStatus } := by
  rw [exitMem, foldl_initAdoptAChild, task_updTask]
  by_cases hu : u = s.cur
  · subst hu
    by_cases hp : s.cur ∈ s.threadAllList ∧ (s.task s.cur).parentPid = (s.task s.cur).pid <;>
      simp [hp]
  · by_cases hp : u ∈ s.threadAllList ∧ (s.task u).parentPid = (s.task s.cur).pid <;> simp [hu, hp]

/-- `sys_exit` is its end, run once the status is stored and the children are handed over. -/
theorem wp_sysExit {status : Word} {Q : Unit → TaskState → Prop} {E : Fault → Prop} :
    wp (sysExit status) Q E s ↔
      ((s.task s.cur).parentPid = -1 → E (.panic .sysExit)) ∧
      ((s.task s.cur).parentPid ≠ -1 →
        wp hangForParent Q E { s with task := exitMem s status }) := by
  have hcur : (s.updTask s.cur fun p => { p with exitStatus := status.setWidth 8 }).task s.cur =
      { s.task s.cur with exitStatus := status.setWidth 8 } := by rw [task_updTask, if_pos rfl]
  simp only [sysExit, adoptChildren, wp_bind, wp_modify, wp_get, wp_ite, wp_stop]
  rw [show (s.updTask s.cur fun p => { p with exitStatus := status.setWidth 8 }).cur =
    s.cur from rfl,
    hcur]
  exact Iff.rfl

/-- **`sys_exit` cannot stop** when the caller's parent is in the table, and leaves the caller
hanging. -/
theorem sysExit_wp (h : TaskInv s (some s.cur)) (status : Word) (hi : s.cur ≠ s.idleThread)
    (hidle : (s.task s.idleThread).status ≠ .hanging) (hpar : (s.task s.cur).parentPid ≠ -1)
    (hself : (s.task s.cur).parentPid ≠ (s.task s.cur).pid)
    (hex : ∃ u, s.live u ∧ (s.task u).pid = (s.task s.cur).parentPid) :
    wp (sysExit status) (fun _ s' => TaskInv s' (some s'.cur) ∧ Exits s s' status)
      (fun _ => False) s := by
  have hst : ∀ u, (exitMem s status u).status = (s.task u).status := fun u => by rw [exitMem_apply]
  have hpid : ∀ u, (exitMem s status u).pid = (s.task u).pid := fun u => by rw [exitMem_apply]
  have hppid : (exitMem s status s.cur).parentPid = (s.task s.cur).parentPid := by
    rw [exitMem_apply]; simp [hself]
  have h2 : TaskInv { s with task := exitMem s status } (some s.cur) :=
    h.rewrite hst hpid fun u => by rw [exitMem_apply]
  rw [wp_sysExit]
  refine ⟨fun h' => hpar h', fun _ => (hangForParent_wp h2 hi ?_ ?_ ?_).mono
    (fun _ s' => ?_) fun _ => id⟩
  · rw [hst]; exact hidle
  · rw [hppid, hpid]; exact hself
  · rw [hppid]; simpa only [hpid] using hex
  rintro ⟨h3, hq⟩
  refine ⟨h3, hq.live, hq.all, hq.idle, hq.pidBitmap, fun u hu => ?_,
    fun u hu => ?_, fun u hu => ?_,
    fun u hu => ?_, fun u hu => ?_⟩
  all_goals have hid := (hq.ident u hu).trans (ident_setStatus _ _ _ _)
  · exact (congrArg Prod.fst hid).trans (hpid u)
  · refine (congrArg (fun i => i.2.2.2.1) hid).trans ?_
    change (exitMem s status u).pgdir = _
    rw [exitMem_apply]
  · refine (congrArg (fun i => i.2.1) hid).trans ?_
    change (exitMem s status u).parentPid = _
    rw [exitMem_apply]
    simp [h.mem_all.mpr hu]
  · refine (congrArg (fun i => i.2.2.1) hid).trans ?_
    change (exitMem s status u).exitStatus = _
    rw [exitMem_apply]
  · rw [hq.hanging u hu, status_setStatus]
    change (if u = s.cur then TaskStatus.hanging else (exitMem s status u).status) = _ ↔ _
    rw [hst]
    split <;> simp_all

theorem sysWait_wp (h : TaskInv s (some s.cur))
    (hidle : (s.task s.idleThread).status ≠ .hanging) :
    wp sysWait
      (fun out s' => TaskInv s' (some s'.cur) ∧
        match out with
        | .child pid status => ∃ c,
          listTraversal s (findHangingChild (s.task s.cur).pid) = some c ∧ s.live c ∧
            (s.task c).parentPid = (s.task s.cur).pid ∧ (s.task c).status = .hanging ∧
            pid = (BitVec.ofInt 16 (s.task c).pid).toInt ∧
            status = (s.task c).exitStatus.signExtend 32 ∧ Deaths s s' c
        | .noChild => s' = s
        | .blocks => Quiet s s')
      (fun _ => False) s := by
  have hrun := (h.running_iff _ (h.running_live _ rfl)).mpr rfl
  simp only [sysWait, wp_bind, wp_get]
  cases hc : listTraversal s (findHangingChild (s.task s.cur).pid) with
  | some c =>
    obtain ⟨hm, hf⟩ := listTraversal_eq_some hc
    simp only [findHangingChild, Bool.and_eq_true, decide_eq_true_eq] at hf
    have hl := h.mem_all.mp hm
    have hcne : c ≠ s.cur := by rintro rfl; rw [hrun] at hf; cases hf.2
    simp only [wp_bind, wp_pure]
    refine (threadExit_wp h hl (fun h' => hidle (h' ▸ hf.2)) (fun m hu => ?_)
      (by simp [hcne])).mono (fun _ s' => ?_) fun _ => id
    · have := (h.waiter_blocked m c hu).2.1
      rw [hf.2] at this
      cases this
    · rintro ⟨h', s1, hd, -, hs1⟩
      rw [hs1 rfl] at h' ⊢
      exact ⟨h', c, rfl, hl, hf.1, hf.2, rfl, rfl, hd⟩
  | none =>
    cases listTraversal s (findChild (s.task s.cur).pid) with
    | none => exact ⟨h, rfl⟩
    | some _ =>
      simp only [wp_bind, wp_pure]
      refine (threadBlock_wp (h.setStatus_cur rfl) rfl).mono (fun _ s' => ?_) fun _ => id
      rintro ⟨h', hrs⟩
      refine ⟨h', (quiet_setStatus (by simp) (by simp [hrun])).trans (hrs.quiet ?_)⟩
      rw [status_setStatus]
      split
      · simp
      · exact hidle

end X86Os
