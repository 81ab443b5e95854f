import X86Os.Userprog.ProcTable

/-!
# A parent that waits for a child that has exited

A waiting parent is woken once, by the child that exits, and nothing else looks for it. What should
follow is that no task waits while one of its children hangs. The parent is chosen at the exit,
though, and parenthood changes afterwards: when a process exits, `init_adopt_a_child` hands its
children to `init`, the hanging ones with the others, and `sys_exit` goes on to wake the parent of
the process that exits and not `init`.

## The condition

An exit is noticed if the process has no hanging child to hand over, or `init` is not waiting, or
`init` is the parent that is woken anyway. Runs of noticed exits keep the property, and one exit
that is not noticed breaks it.
-/

namespace X86Os

open X86Os.Comp TaskState

/-! ### Who starts to wait -/

/-- The task `u` is not in `TASK_WAITING`. -/
def Awake (u : ℕ) (s : TaskState) : Prop := (s.task u).status ≠ .waiting

section

variable {u t : ℕ} {b : TaskStatus} {s : TaskState}

theorem awake_setStatus (hb : b ≠ .waiting) (h : Awake u s) : Awake u (s.setStatus t b) := by
  rw [Awake, status_setStatus]
  split
  · exact hb
  · exact h

theorem awake_updTask {f : Task → Task} (hf : ∀ p, p.status ≠ .waiting → (f p).status ≠ .waiting)
    (h : Awake u s) : Awake u (s.updTask t f) := by
  rw [Awake, task_updTask]
  split
  · subst u; exact hf _ h
  · exact h

theorem awake_intrDisable : Maintains (Awake u) intrDisable :=
  .bind .get fun _ => .bind (.modify fun _ h => h) fun _ => .pure _

theorem awake_threadUnblock : Maintains (Awake u) (threadUnblock t) := by
  intro s h
  simp only [threadUnblock, intrDisable, intrSetStatus, wp_bind, wp_get, wp_modify, wp_pure,
    wp_ASSERT, wp_ite, wp_stop, implies_true, and_true, true_and]
  exact fun _ => ⟨fun _ _ _ => awake_setStatus (by simp) h, fun _ => h⟩

theorem awake_schedule : Maintains (Awake u) schedule := by
  refine .bind .get fun _ => .bind (.check _ _) fun _ => .bind ?_ fun _ => .bind ?_ fun _ => ?_
  · exact .bind .get fun _ => .ite (.bind (.check _ _) fun _ =>
      .bind (.modify fun _ h => h) fun _ =>
      .modify fun _ => awake_updTask fun _ _ => by simp) (.pure _)
  · exact .bind .get fun _ => .ite awake_threadUnblock (.pure _)
  · refine .bind .get fun s => .bind (.check _ _) fun _ => ?_
    split
    · exact .stop _
    · exact .bind (.modify fun _ h => h) fun _ => .bind (.modify fun _ => awake_setStatus (by simp))
        fun _ => .modify fun _ h => h

theorem awake_threadBlock (hb : b ≠ .waiting) : Maintains (Awake u) (threadBlock b) :=
  .bind (.check _ _) fun _ => .bind awake_intrDisable fun _ => .bind (.modify fun _ h => h) fun _ =>
    .bind (.modify fun _ => awake_setStatus hb) fun _ => awake_schedule

theorem awake_threadYield : Maintains (Awake u) threadYield :=
  .bind awake_intrDisable fun _ => .bind (.modify fun _ h => h) fun _ => .bind .get fun _ =>
    .bind (.check _ _) fun _ => .bind (.modify fun _ h => h) fun _ =>
    .bind (.modify fun _ => awake_setStatus (by simp)) fun _ => awake_schedule

theorem awake_intrTimerHandler : Maintains (Awake u) intrTimerHandler :=
  .bind awake_intrDisable fun _ => .bind (.modify fun _ h => h) fun _ => .bind .get fun _ =>
    .bind (.check _ _) fun _ => .bind (.modify fun _ => awake_updTask fun _ h => h) fun _ =>
    .ite awake_schedule (.bind (.modify fun _ => awake_updTask fun _ h => h) fun _ =>
      .modify fun _ h => h)

theorem awake_semaDown (m : ℕ) : Maintains (Awake u) (semaDown m) := by
  intro s h
  simp only [semaDown, intrDisable, intrSetStatus, wp_bind, wp_get, wp_modify, wp_pure, wp_ASSERT,
    wp_ite, wp_stop, implies_true, and_true, true_and]
  exact ⟨fun _ _ _ => awake_threadBlock (by simp) _ h, fun _ _ => h⟩

theorem awake_semaUp (m : ℕ) : Maintains (Awake u) (semaUp m) := by
  refine .bind awake_intrDisable fun _ => .bind .get fun _ => .bind (.check _ _) fun _ =>
    .bind (.bind .get fun s => ?_) fun _ => .bind (.modify fun _ h => h)
      fun _ => .bind .get fun _ =>
    .bind (.check _ _) fun _ => .modify fun _ h => h
  split
  · exact .pure _
  · exact .bind (.modify fun _ h => h) fun _ => awake_threadUnblock

theorem awake_threadStart (pg : Option ℕ) (prio : Byte) :
    Maintains (Awake u) (threadStart pg prio) := by
  cases pg with
  | none => exact .stop _
  | some t =>
    refine .bind (.modify fun _ h => h) fun _ => .bind (.bind (.bind .get fun _ => .bind (.lift _)
      fun _ => .bind (.modify fun _ h => h) fun _ => .pure _) fun _ => .bind (.modify fun s =>
        awake_updTask fun _ _ => ?_) fun _ => .modify fun _ h => h) fun _ =>
      .bind .get fun _ => .bind (.check _ _) fun _ => .bind (.modify fun _ h => h) fun _ =>
      .bind .get fun _ => .bind (.check _ _) fun _ => .bind (.modify fun _ h => h) fun _ =>
      .modify fun _ h => h
    dsimp only
    split <;> simp

theorem awake_threadUnlink : Maintains (Awake u) (threadUnlink t) := by
  refine .bind awake_intrDisable fun _ => .bind (.modify fun _ =>
    awake_setStatus (by simp)) fun _ =>
    .bind (.modify fun _ h => h) fun _ =>
    .bind (.bind .get fun _ => .ite (.modify fun _ h => h) (.pure _)) fun _ =>
    .bind (.bind .get fun _ => .ite (.modify fun _ h => h) (.stop _)) fun _ =>
    .bind (.bind .get fun _ => .ite (.modify fun _ h => h) (.pure _)) fun _ =>
    .bind .get fun _ => fun s h => ?_
  simp only [releasePid, wp_bind, wp_ite, wp_stop, wp_modify, implies_true, true_and]
  exact fun _ => h

theorem awake_threadExit (ns : Bool) : Maintains (Awake u) (threadExit t ns) :=
  .bind awake_threadUnlink fun _ => .ite (.bind .get fun _ => .bind awake_schedule fun _ =>
    .bind .get fun _ => .ite (.stop _) (.pure _)) (.pure _)

/-- **Kernel code puts no task into `TASK_WAITING`.** -/
theorem run_awake {act : SchedAct} (ha : (ProcAct.kernel act).Allowed s) :
    Maintains (Awake u) act.run := by
  cases act with
  | timer => exact awake_intrTimerHandler
  | yield => exact awake_threadYield
  | block stat =>
    obtain rfl : stat = .blocked := ha.2
    exact awake_threadBlock (by simp)
  | unblock t => exact awake_threadUnblock
  | start pg prio => exact awake_threadStart pg prio
  | fork pages => exact absurd ha.2 id
  | exit t ns => exact awake_threadExit ns
  | down m => exact awake_semaDown m
  | up m => exact awake_semaUp m
  | setIntr status => exact .modify fun _ h => h

theorem awake_adoptChildren (pid : Int) : Maintains (Awake u) (adoptChildren pid) := by
  refine .modify fun s h => ?_
  change (s.threadAllList.foldl (initAdoptAChild pid) s.task u).status ≠ _
  rw [foldl_initAdoptAChild]
  split <;> exact h

theorem awake_wakeParent : Maintains (Awake u) (wakeParent t) :=
  .bind .get fun _ => .ite awake_threadUnblock (.pure _)

/-- `sys_exit` puts no task into `TASK_WAITING`. -/
theorem awake_sysExit (status : Word) : Maintains (Awake u) (sysExit status) := by
  refine .bind (.modify fun _ => awake_updTask fun _ h => h) fun _ => .bind .get fun _ =>
    .ite (.stop _) (.bind (awake_adoptChildren _) fun _ => .bind .get fun s => ?_)
  split
  · exact .stop _
  · exact .bind awake_wakeParent fun _ => awake_threadBlock (by simp)

end

/-! ### The parent of an exit -/

section

variable {s : TaskState} {t : ℕ}

/-- The task that was to be woken does not wait any more. -/
theorem wakeParent_awake : post (wakeParent t) (fun _ => Awake t) s := by
  simp only [wakeParent, threadUnblock, intrDisable, intrSetStatus, wp_bind, wp_get, wp_modify,
    wp_pure, wp_ASSERT, wp_ite, wp_stop, implies_true, and_true, true_and]
  refine ⟨fun hw _ => ⟨fun _ _ _ => ?_, fun hr => ?_⟩, id⟩
  · rw [Awake]
    change (({ s with intr := false, threadReadyList := t :: s.threadReadyList }.setStatus t
      .ready).task t).status ≠ _
    rw [status_setStatus, if_pos rfl]
    simp
  · exact absurd hw (by simp_all)

theorem hangForParent_awake (hm : t ∈ s.threadAllList)
    (hp : (s.task t).pid = (s.task s.cur).parentPid)
    (hinj : ∀ u ∈ s.threadAllList, (s.task u).pid = (s.task t).pid → u = t) :
    post hangForParent (fun _ => Awake t) s := by
  obtain ⟨v, hv⟩ := listTraversal_of_mem (f := pidCheck (s.task s.cur).parentPid) hm
    (by simpa [pidCheck] using hp)
  obtain ⟨hvm, hvp⟩ := listTraversal_eq_some hv
  obtain rfl : v = t := hinj v hvm (by simpa [pidCheck, hp] using hvp)
  simp only [hangForParent, wp_bind, wp_get, pid2thread, hv]
  exact wakeParent_awake.mono (fun _ s1 h1 => awake_threadBlock (by simp) s1 h1) fun _ h => h

/-- **After an exit the parent of the process that exits is not waiting.** -/
theorem sysExit_parent (h : TreeInv s) (ht : TaskInv s (some s.cur)) (status : Word) (hl : s.live t)
    (hp : (s.task t).pid = (s.task s.cur).parentPid) :
    post (sysExit status) (fun _ => Awake t) s := by
  have hcl := ht.running_live _ rfl
  have hself := h.not_self _ hcl
  have hpid : ∀ u, (exitMem s status u).pid = (s.task u).pid := fun u => by rw [exitMem_apply]
  rw [post, wp_sysExit]
  refine ⟨fun _ => trivial, fun _ => hangForParent_awake (ht.mem_all.mpr hl) ?_ fun u hu => ?_⟩
  · change (exitMem s status t).pid = (exitMem s status s.cur).parentPid
    rw [hpid, exitMem_apply]
    simpa [hself] using hp
  · change (exitMem s status u).pid = (exitMem s status t).pid → u = t
    rw [hpid, hpid]
    exact h.pid_inj u t (ht.mem_all.mp hu) hl

/-- `sys_wait` blocks only if no child hangs, and puts nobody but the caller into
`TASK_WAITING`. -/
theorem sysWait_blocks (h : TaskInv s (some s.cur)) :
    post sysWait
      (fun out s' => out = .blocks →
        (∀ c, s.live c → (s.task c).parentPid = (s.task s.cur).pid → (s.task c).status ≠ .hanging) ∧
        ∀ u, s.live u → u ≠ s.cur → (s'.task u).status = .waiting → (s.task u).status = .waiting)
      s := by
  simp only [sysWait, wp_bind, wp_get]
  cases hc : listTraversal s (findHangingChild (s.task s.cur).pid) with
  | some c =>
    simp only [wp_bind, wp_pure]
    rw [wp]
    split <;> simp
  | none =>
    cases listTraversal s (findChild (s.task s.cur).pid) with
    | none => simp
    | some _ =>
      simp only [wp_bind, wp_pure]
      refine (threadBlock_wp (h.setStatus_cur rfl) rfl).mono (fun _ s' => ?_) fun _ _ => trivial
      rintro ⟨-, hrs⟩ -
      refine ⟨fun c hl hpar hst => ?_, fun u hu hne hw => ?_⟩
      · exact List.find?_eq_none.mp hc c (h.mem_all.mpr hl) (by simp [findHangingChild, hpar, hst])
      · have := hrs.of_blocked u hu .waiting rfl hw
        rwa [status_setStatus, if_neg hne] at this

end

/-! ### Runs -/

/-- Nobody waits for a child that hangs. -/
def NoMissedExit (s : TaskState) : Prop :=
  ∀ t c, s.live t → s.live c → (s.task t).status = .waiting →
  (s.task c).parentPid = (s.task t).pid →
    (s.task c).status ≠ .hanging

/-- The step is no exit that hands a hanging child to a waiting `init` and wakes somebody else. -/
def Noticed (p : ProcState) : ProcAct → Prop
  | .exit _ =>
    (∃ c ∈ p.st.threadAllList, findHangingChild (p.st.task p.st.cur).pid (p.st.task c)) →
      (∀ i ∈ p.st.threadAllList, (p.st.task i).pid = 1 → (p.st.task i).status ≠ .waiting) ∨
        (p.st.task p.st.cur).parentPid = 1
  | _ => True

section

variable {s s' : TaskState} {t : ℕ}

/-- The same processes, and nobody new waits. -/
theorem NoMissedExit.congr (h : NoMissedExit s) (hs : SameTree s s')
    (hw : ∀ u, s.live u → (s'.task u).status = .waiting → (s.task u).status = .waiting) :
    NoMissedExit s' := by
  intro u c hu hc hst hpar hh
  rw [hs.live] at hu hc
  rw [hs.parentPid hc, hs.pid hu] at hpar
  exact h u c hu hc (hw u hu hst) hpar ((hs.hanging c hc).mp hh)

theorem NoMissedExit.birth (h : NoMissedExit s) {q : Task} (hb : Births s s' t q) :
    NoMissedExit s' := by
  have hnew : (s'.task t).status = .ready := by rw [hb.task_self, hb.status]
  intro u c hu hc hst hpar hh
  rcases (hb.live_iff u).mp hu with rfl | hu
  · rw [hnew] at hst; cases hst
  rcases (hb.live_iff c).mp hc with rfl | hc
  · rw [hnew] at hh; cases hh
  rw [hb.task_old u hu] at hst hpar
  rw [hb.task_old c hc] at hpar hh
  exact h u c hu hc hst hpar hh

theorem NoMissedExit.death (h : NoMissedExit s) (hd : Deaths s s' t) : NoMissedExit s' := by
  intro u c hu hc hst hpar hh
  obtain ⟨hut, hu⟩ := (hd.live_iff u).mp hu
  obtain ⟨hct, hc⟩ := (hd.live_iff c).mp hc
  rw [hd.task u hut] at hst hpar
  rw [hd.task c hct] at hpar hh
  exact h u c hu hc hst hpar hh

/-- **An exit that is noticed**: whoever still waits is not the parent of the process that exits,
and is not `init` if a hanging child was handed over. -/
theorem NoMissedExit.exit (h : NoMissedExit s) {status : Word} (he : Exits s s' status)
    (hself : (s.task s.cur).parentPid ≠ (s.task s.cur).pid)
    (hw : ∀ u, s.live u → (s'.task u).status = .waiting →
      (s.task u).status = .waiting ∧ (s.task u).pid ≠ (s.task s.cur).parentPid)
    (hn : (∃ c, s.live c ∧ (s.task c).parentPid = (s.task s.cur).pid ∧
        (s.task c).status = .hanging) →
      (∀ i, s.live i → (s.task i).pid = 1 → (s.task i).status ≠ .waiting) ∨
        (s.task s.cur).parentPid = 1) :
    NoMissedExit s' := by
  intro u c hu hc hst hpar hh
  rw [he.live] at hu hc
  obtain ⟨hwait, hne⟩ := hw u hu hst
  rw [he.parent c hc, he.pid u hu] at hpar
  rcases (he.hanging c hc).mp hh with rfl | hold
  · rw [if_neg hself] at hpar
    exact hne hpar.symm
  · split at hpar
    · rename_i hchild
      rcases hn ⟨c, hc, hchild, hold⟩ with hinit | hinit
      · exact hinit u hu hpar.symm hwait
      · exact hne (hpar.symm.trans hinit.symm)
    · exact h u c hu hc hwait hpar hold

end

/-- **One step.** -/
theorem noMissedExit_step {p p' : ProcState} (hp : ProcInv p)
    (h : NoMissedExit p.st) {act : ProcAct}
    (hn : Noticed p act) (ha : act.Allowed p.st) (hrun : act.apply p = .ok p') :
    NoMissedExit p'.st := by
  have hidle := hp.tree.idle_not_hanging hp.task.idle_live
  have hcl := hp.task.running_live _ rfl
  cases act with
  | kernel act =>
    obtain ⟨st, hr, hold, hnew⟩ := kernel_apply hrun
    have hawake : ∀ u, (st.task u).status = .waiting → (p.st.task u).status = .waiting :=
      fun u hw => by_contra fun hne => (run_awake ha (u := u) p.st hne).ok hr hw
    rcases kernel_cases hp ha hr with ⟨hs, hne⟩ | ⟨t, prio, q, he, hb, -⟩ | ⟨hne, hi, -, s1, hd, hs⟩
    · rw [hold hne]
      exact h.congr hs fun u _ => hawake u
    · rw [hnew t prio he]
      exact h.birth hb
    · rw [hold hne]
      have hi1 : (s1.task s1.idleThread).status ≠ .hanging := by
        rw [hd.idle, hd.task _ (Ne.symm hi)]; exact hidle
      refine (h.death hd).congr (hs hi1) fun u hu hw => ?_
      rw [hd.task u ((hd.live_iff u).mp hu).1]
      exact hawake u hw
  | fork pages =>
    obtain ⟨⟨pid, st⟩, hr, rfl⟩ := map_eq_ok hrun
    rcases (sysFork_wp hp.task ha).ok hr with ⟨rfl, hf⟩ | ⟨t, q, hpcb, hb, rfl⟩
    · have hc := h.congr hf.sameTree fun u hu hw => by rwa [hf.task u hu] at hw
      cases pages.pcb <;> exact hc
    · have hc := h.birth hb.toBirths
      rw [hpcb]
      dsimp only
      split <;> exact hc
  | exit status =>
    obtain ⟨⟨⟨⟩, st⟩, hr, rfl⟩ := map_eq_ok hrun
    obtain ⟨hpg, hp1⟩ := ha
    have hself := hp.tree.not_self _ hcl
    obtain ⟨v, hv, hvp, -, -⟩ := hp.tree.parent _ hcl hpg hp1
    have hi : p.st.cur ≠ p.st.idleThread := fun heq => by
      have := hp.tree.idle_kernel
      rw [← heq, hpg] at this
      cases this
    have he := ((sysExit_wp hp.task status hi hidle (by have := hp.task.live_pid v hv; omega) hself
      ⟨v, hv, hvp⟩).ok hr).2
    refine h.exit he hself (fun u hu hw => ⟨?_, fun hpar => ?_⟩) ?_
    · exact by_contra fun hne => (awake_sysExit status (u := u) p.st hne).ok hr hw
    · exact (sysExit_parent hp.tree hp.task status hu hpar).ok hr hw
    · rintro ⟨c, hc, hpar, hst⟩
      refine (hn ⟨c, hp.task.mem_all.mpr hc, by simp [findHangingChild, hpar, hst]⟩).imp_left ?_
      exact fun hinit i hl => hinit i (hp.task.mem_all.mpr hl)
  | wait =>
    obtain ⟨⟨out, st⟩, hr, rfl⟩ := map_eq_ok hrun
    have hout := ((sysWait_wp hp.task hidle).ok hr).2
    have hblk := (sysWait_blocks hp.task).ok hr
    cases out with
    | child pid status =>
      obtain ⟨c, hc, -, -, -, -, -, hd⟩ := hout
      simp only [hc]
      exact h.death hd
    | noChild =>
      obtain rfl : st = p.st := hout
      cases listTraversal p.st (findHangingChild (p.st.task p.st.cur).pid) <;> exact h
    | blocks =>
      obtain ⟨hnone, hwait⟩ := hblk rfl
      have hq := Quiet.sameTree hout
      have hc : NoMissedExit st := by
        intro u c hu hc hst hpar hh
        rw [hq.live] at hu hc
        rw [hq.parentPid hc, hq.pid hu] at hpar
        rw [hq.hanging c hc] at hh
        by_cases hucur : u = p.st.cur
        · subst hucur
          exact hnone c hc hpar hh
        · exact h u c hu hc (hwait u hu hucur hst) hpar hh
      cases listTraversal p.st (findHangingChild (p.st.task p.st.cur).pid) <;> exact hc

/-- **No missed child exit.** In every state of a run whose exits are noticed, no task waits while a
task in the list that has it as parent hangs. -/
theorem no_missed_exit {p : ProcState} (h : procSys.Reach Noticed p) :
    ∀ t ∈ p.st.threadAllList, (p.st.task t).status = .waiting →
      ∀ c ∈ p.st.threadAllList, (p.st.task c).parentPid = (p.st.task t).pid →
        (p.st.task c).status ≠ .hanging := by
  have hboth : ProcInv p ∧ NoMissedExit p.st := by
    refine TransSys.Reach.invariant (S := procSys) (I := fun p => ProcInv p ∧ NoMissedExit p.st) ?_
      (fun p act p' hp hn hst =>
        ⟨procInv_step hp.1 hst.1 hst.2, noMissedExit_step hp.1 hp.2 hn hst.1 hst.2⟩) h
    intro p hp
    refine ⟨procInv (.init hp), fun t c ht _ hst => ?_⟩
    obtain ⟨⟨s0, a, b, hboot, ha, hb, hab, hrun⟩, -⟩ := hp
    rw [threadInit_eq hboot ha hb hab] at hrun
    obtain hs : initState s0 a b = p.st := congrArg Prod.snd (Except.ok.inj hrun)
    rw [← hs] at ht hst
    rcases initState_cases hboot ha hb hab ht with ⟨-, ht⟩ | ⟨-, ht⟩ | ⟨-, ht⟩ <;>
      exact absurd ((congrArg Task.status ht).symm.trans hst) (by simp [freshTask])
  intro t ht hst c hc
  exact hboth.2 t c (hboth.1.task.mem_all.mp ht) (hboth.1.task.mem_all.mp hc) hst

/-! ### A run that misses an exit -/

/-- `init` forks a process and waits for it. -/
def initWaits : ProcState :=
  ProcAct.wait.next ((forkAt 0xc0102000).next (enterSyscall.next
    ((ProcAct.kernel .yield).next procStart)))

/-- The kernel threads block, and the process, the child of `init`, forks another and waits. -/
def childWaits : ProcState :=
  ProcAct.wait.next ((forkAt 0xc0103000).next (enterSyscall.next
    ((ProcAct.kernel (.block .blocked)).next ((ProcAct.kernel (.block .blocked)).next initWaits))))

/-- The grandchild forks a process and lets it run. -/
def grandchildYields : ProcState :=
  (ProcAct.kernel .yield).next ((forkAt 0xc0104000).next (enterSyscall.next childWaits))

theorem reach_grandchildYields {ok : ProcState → ProcAct → Prop}
    (hk : ∀ p act, ok p (.kernel act)) (hf : ∀ p pages, ok p (.fork pages)) (hw : ∀ p, ok p .wait) :
    procSys.Reach ok grandchildYields := by
  have h1 := reach_next _ (.init procStart_init) (hk _ .yield)
    ⟨trivial, trivial⟩ (by decide +kernel)
  have h2 := reach_next _ h1 (hk _ (.setIntr false)) ⟨trivial, trivial⟩ (by decide +kernel)
  have h3 := reach_next _ h2 (hf _ ⟨some 0xc0102000, true, true, true⟩)
    (forkAt_allowed (by decide +kernel) (by decide)) (by decide +kernel)
  have h4 : procSys.Reach ok initWaits :=
    reach_next _ h3 (hw _) (show _ = _ by decide +kernel) (by decide +kernel)
  have h5 := reach_next _ h4 (hk _ (.block .blocked)) ⟨trivial, rfl⟩ (by decide +kernel)
  have h6 := reach_next _ h5 (hk _ (.block .blocked)) ⟨trivial, rfl⟩ (by decide +kernel)
  have h7 := reach_next _ h6 (hk _ (.setIntr false)) ⟨trivial, trivial⟩ (by decide +kernel)
  have h8 := reach_next _ h7 (hf _ ⟨some 0xc0103000, true, true, true⟩)
    (forkAt_allowed (by decide +kernel) (by decide)) (by decide +kernel)
  have h9 : procSys.Reach ok childWaits :=
    reach_next _ h8 (hw _) (show _ = _ by decide +kernel) (by decide +kernel)
  have h10 := reach_next _ h9 (hk _ (.setIntr false)) ⟨trivial, trivial⟩ (by decide +kernel)
  have h11 := reach_next _ h10 (hf _ ⟨some 0xc0104000, true, true, true⟩)
    (forkAt_allowed (by decide +kernel) (by decide)) (by decide +kernel)
  exact reach_next _ h11 (hk _ .yield) ⟨trivial, trivial⟩ (by decide +kernel)

/-- The last of them exits. Its parent, which is not waiting, runs next. -/
def lastExits : ProcState := (ProcAct.exit 7).next grandchildYields

theorem reach_lastExits {ok : ProcState → ProcAct → Prop} (h : procSys.Reach ok grandchildYields)
    (hok : ok grandchildYields (.exit 7)) : procSys.Reach ok lastExits :=
  reach_next _ h hok (show _ ∧ _ by decide +kernel) (by decide +kernel)

/-- Two tasks wait and one hangs, the child of neither. -/
theorem no_missed_exit_lastExits :
    (lastExits.st.task 0xc0100000).status = .waiting ∧
    (lastExits.st.task 0xc0102000).status = .waiting ∧
    (lastExits.st.task 0xc0104000).status = .hanging ∧
    ∀ t ∈ lastExits.st.threadAllList, (lastExits.st.task t).status = .waiting →
      ∀ c ∈ lastExits.st.threadAllList,
        (lastExits.st.task c).parentPid = (lastExits.st.task t).pid →
        (lastExits.st.task c).status ≠ .hanging := by
  refine ⟨by decide +kernel, by decide +kernel, by decide +kernel, no_missed_exit ?_⟩
  refine reach_lastExits (reach_grandchildYields (fun _ _ => trivial) (fun _ _ => trivial)
    fun _ => trivial) ?_
  rintro ⟨c, hc, hh⟩
  revert c
  decide +kernel

/-- **A missed exit.** When its parent exits too, the hanging process goes to `init`, which waits
and is not woken. -/
theorem missed_exit : ∃ p, procSys.Reachable p ∧
    ∃ t ∈ p.st.threadAllList, (p.st.task t).status = .waiting ∧
      ∃ c ∈ p.st.threadAllList, (p.st.task c).parentPid = (p.st.task t).pid ∧
        (p.st.task c).status = .hanging := by
  have h : procSys.Reachable lastExits := reach_lastExits (reach_grandchildYields
    (fun _ _ => trivial) (fun _ _ => trivial) fun _ => trivial) trivial
  refine ⟨(ProcAct.exit 0).next lastExits, reach_next _ h trivial (show _ ∧ _ by decide +kernel)
    (by decide +kernel), ?_⟩
  decide +kernel

end X86Os
