import X86Os.Thread.Sched
import Mathlib.Data.List.Nodup
import X86Os.Userprog.WaitExit

/-!
# The table of processes

Processes are created by `sys_fork`, end in `sys_exit` and are reaped by their parent's `sys_wait`.
A parent is named by its pid, and pids are handed out again after the reaping, so what keeps the
tree together is an invariant about all of it: the pids in `thread_all_list` are distinct and
marked in the pid bitmap, and a process's `parent_pid` names a process that has not exited.

## Histories

"Reaped at most once" is a statement about an incarnation of a task and not about its pid or its
page, both of which are used again. The state is therefore extended by a history: a serial number
for each task, never reused, the list of exits and the list of what waits returned.
-/

namespace X86Os

open X86Os.Comp TaskState

/-- An exit: which task, with which pid, and the status it passed. -/
structure ExitRec where
  serial : ℕ
  pid : Int
  status : Word

/-- What a `sys_wait` returned: the child's serial number and the `parent_pid` it had, the pid of
the caller, and the pid and status the caller received. -/
structure WaitRec where
  serial : ℕ
  parentPid : Int
  caller : Int
  pid : Int
  status : Word

/-- The tasks and their history. -/
structure ProcState where
  st : TaskState
  serial : ℕ → ℕ
  next : ℕ
  exits : List ExitRec
  waits : List WaitRec

/-- Number a new task. -/
def ProcState.bear (s : ProcState) (t : ℕ) : ProcState :=
  { s with serial := Function.update s.serial t s.next, next := s.next + 1 }

/-- The steps: what kernel code does to the tasks, and the three system calls of the running
process. -/
inductive ProcAct
  | kernel (act : SchedAct)
  | fork (pages : ForkPages)
  | exit (status : Word)
  | wait

namespace ProcAct

/-- The routine, with the history it makes. -/
def apply : ProcAct → ProcState → Except Fault ProcState
  | kernel act, s => (act.run s.st).map fun r =>
    match act with
    | .start (some t) _ => { s with st := r.2 }.bear t
    | _ => { s with st := r.2 }
  | fork pages, s => (sysFork pages s.st).map fun r =>
    match pages.pcb with
    | some t => if r.1 = -1 then { s with st := r.2 } else { s with st := r.2 }.bear t
    | none => { s with st := r.2 }
  | exit status, s => (sysExit status s.st).map fun r =>
    { s with
      st := r.2
      exits := s.exits ++ [⟨s.serial s.st.cur, (s.st.task s.st.cur).pid, status⟩] }
  | wait, s => (sysWait s.st).map fun r =>
    match r.1, listTraversal s.st (findHangingChild (s.st.task s.st.cur).pid) with
    | .child pid status, some c =>
      { s with
        st := r.2
        waits := s.waits ++ [⟨s.serial c, (s.st.task c).parentPid,
          (s.st.task s.st.cur).pid, pid, status⟩] }
    | _, _ => { s with st := r.2 }

/-- The condition under which the source takes the step. Kernel code blocks and wakes threads with
`TASK_BLOCKED` only, a kernel thread exits only by itself, and `init` never exits. -/
def Allowed (s : TaskState) : ProcAct → Prop
  | kernel act => act.Allowed s ∧
    match act with
    | .block stat => stat = .blocked
    | .unblock t => (s.task t).status = .blocked
    | .exit t _ => t = s.cur ∧ (s.task t).pgdir = false
    | .fork _ => False
    | _ => True
  | fork pages => (SchedAct.fork pages).Allowed s
  | exit _ => (s.task s.cur).pgdir = true ∧ (s.task s.cur).pid ≠ 1
  | wait => (s.task s.cur).pgdir = true

end ProcAct

/-- The processes, from the end of `thread_init`. -/
def procSys : TransSys ProcState ProcAct where
  init s := schedSys.init s.st ∧ s.exits = [] ∧ s.waits = [] ∧
    (∀ t u, s.st.live t → s.st.live u → s.serial t = s.serial u → t = u) ∧
    ∀ t, s.st.live t → s.serial t < s.next
  step s act s' := act.Allowed s.st ∧ act.apply s = .ok s'

/-! ### The invariant -/

/-- What holds of the pids and the tree. -/
structure TreeInv (s : TaskState) : Prop where
  pids_len : s.pidBitmap.btmpBytesLen = 128
  pid_le : ∀ t, s.live t → (s.task t).pid ≤ 1024
  pid_bit : ∀ t, s.live t → s.pidBitmap.bit ((s.task t).pid - 1).toNat = true
  pid_inj : ∀ t u, s.live t → s.live u → (s.task t).pid = (s.task u).pid → t = u
  idle_kernel : (s.task s.idleThread).pgdir = false
  hanging_user : ∀ t, s.live t → (s.task t).status = .hanging → (s.task t).pgdir = true
  init : ∃ i, s.live i ∧ (s.task i).pid = 1 ∧ (s.task i).pgdir = true ∧
    (s.task i).status ≠ .hanging
  parent : ∀ t, s.live t → (s.task t).pgdir = true → (s.task t).pid ≠ 1 →
    ∃ u, s.live u ∧ (s.task u).pid = (s.task t).parentPid ∧ (s.task u).pgdir = true ∧
      (s.task u).status ≠ .hanging
  root : ∀ t, s.live t → ((s.task t).pgdir = false ∨ (s.task t).pid = 1) →
    (s.task t).parentPid = -1
  not_self : ∀ t, s.live t → (s.task t).parentPid ≠ (s.task t).pid

/-- What holds of the history: of the tasks' serial numbers, the next free one, the exits and the
waits. -/
structure HistInv (s : TaskState) (serial : ℕ → ℕ) (next : ℕ) (exits : List ExitRec)
    (waits : List WaitRec) : Prop where
  serial_inj : ∀ t u, s.live t → s.live u → serial t = serial u → t = u
  serial_lt : ∀ t, s.live t → serial t < next
  exits_lt : ∀ e ∈ exits, e.serial < next
  exits_nodup : (exits.map ExitRec.serial).Nodup
  hanging : ∀ t, s.live t → (s.task t).status = .hanging →
    ∃ e ∈ exits, e.serial = serial t ∧ e.pid = (s.task t).pid ∧
      (s.task t).exitStatus = e.status.setWidth 8
  not_hanging : ∀ t, s.live t → (s.task t).status ≠ .hanging → ∀ e ∈ exits, e.serial ≠ serial t
  waits_gone : ∀ w ∈ waits, w.serial < next ∧ ∀ t, s.live t → serial t ≠ w.serial
  waits_nodup : (waits.map WaitRec.serial).Nodup
  waits_ok : ∀ w ∈ waits, w.caller = w.parentPid ∧
    ∃ e ∈ exits, e.serial = w.serial ∧ w.pid = e.pid ∧
      w.status = (e.status.setWidth 8).signExtend 32

/-- The whole invariant. -/
structure ProcInv (s : ProcState) : Prop where
  task : TaskInv s.st (some s.st.cur)
  tree : TreeInv s.st
  hist : HistInv s.st s.serial s.next s.exits s.waits

section

variable {s s' : TaskState} {t : ℕ} {serial : ℕ → ℕ} {next : ℕ} {exits : List ExitRec}
  {waits : List WaitRec}

/-! ### Steps that leave the tree alone -/

/-- `s'` has the same processes as `s`; pids may have been lost, none returned. -/
structure SameTree (s s' : TaskState) : Prop where
  live : s'.live = s.live
  idle : s'.idleThread = s.idleThread
  ident : ∀ u, s.live u → (s'.task u).ident = (s.task u).ident
  hanging : ∀ u, s.live u → ((s'.task u).status = .hanging ↔ (s.task u).status = .hanging)
  len : s'.pidBitmap.btmpBytesLen = s.pidBitmap.btmpBytesLen
  bits : ∀ i, s.pidBitmap.bit i = true → s'.pidBitmap.bit i = true

theorem Quiet.sameTree (h : Quiet s s') : SameTree s s' :=
  ⟨h.live, h.idle, h.ident, h.hanging, by rw [h.pidBitmap], fun i hi => by rw [h.pidBitmap, hi]⟩

theorem ForkFails.sameTree (h : ForkFails s s') : SameTree s s' := by
  refine ⟨h.live, h.idle, h.ident, fun u hu => by rw [h.task u hu], ?_, ?_⟩
  · rcases h.pids with hp | ⟨i, -, -, hp⟩ <;> simp [hp]
  · intro j hj
    rcases h.pids with hp | ⟨i, -, hc, hp⟩
    · rw [hp, hj]
    · rw [hp, bit_bitmapSet]
      split <;> simp [hj]

namespace SameTree

variable {u : ℕ}

theorem pid (h : SameTree s s') (hu : s.live u) : (s'.task u).pid = (s.task u).pid :=
  congrArg Prod.fst (h.ident u hu)

theorem parentPid (h : SameTree s s') (hu : s.live u) :
    (s'.task u).parentPid = (s.task u).parentPid := congrArg (fun p => p.2.1) (h.ident u hu)

theorem exitStatus (h : SameTree s s') (hu : s.live u) :
    (s'.task u).exitStatus = (s.task u).exitStatus := congrArg (fun p => p.2.2.1) (h.ident u hu)

theorem pgdir (h : SameTree s s') (hu : s.live u) : (s'.task u).pgdir = (s.task u).pgdir :=
  congrArg (fun p => p.2.2.2.1) (h.ident u hu)

end SameTree

theorem TreeInv.congr (h : TreeInv s) (hi : s.live s.idleThread) (hs : SameTree s s') :
    TreeInv s' where
  pids_len := by rw [hs.len]; exact h.pids_len
  pid_le u hu := by rw [hs.live] at hu; rw [hs.pid hu]; exact h.pid_le u hu
  pid_bit u hu := by rw [hs.live] at hu; rw [hs.pid hu]; exact hs.bits _ (h.pid_bit u hu)
  pid_inj u v hu hv := by
    rw [hs.live] at hu hv; rw [hs.pid hu, hs.pid hv]; exact h.pid_inj u v hu hv
  idle_kernel := by rw [hs.idle, hs.pgdir hi]; exact h.idle_kernel
  hanging_user u hu := by
    rw [hs.live] at hu; rw [hs.hanging u hu, hs.pgdir hu]; exact h.hanging_user u hu
  init := by
    obtain ⟨i, hl, h1, h2, h3⟩ := h.init
    exact ⟨i, by rw [hs.live]; exact hl, by rw [hs.pid hl]; exact h1,
      by rw [hs.pgdir hl]; exact h2, mt (hs.hanging i hl).mp h3⟩
  parent u hu := by
    rw [hs.live] at hu
    rw [hs.pgdir hu, hs.pid hu, hs.parentPid hu]
    intro hpg hp
    obtain ⟨v, hv, h1, h2, h3⟩ := h.parent u hu hpg hp
    exact ⟨v, by rw [hs.live]; exact hv, by rw [hs.pid hv]; exact h1,
      by rw [hs.pgdir hv]; exact h2, mt (hs.hanging v hv).mp h3⟩
  root u hu := by
    rw [hs.live] at hu
    rw [hs.pgdir hu, hs.pid hu, hs.parentPid hu]
    exact h.root u hu
  not_self u hu := by
    rw [hs.live] at hu; rw [hs.parentPid hu, hs.pid hu]; exact h.not_self u hu

theorem HistInv.congr (h : HistInv s serial next exits waits) (hs : SameTree s s') :
    HistInv s' serial next exits waits :=
  { h with
    serial_inj := by simpa only [hs.live] using h.serial_inj
    serial_lt := by simpa only [hs.live] using h.serial_lt
    waits_gone := by simpa only [hs.live] using h.waits_gone
    hanging := fun u hu hst => by
      rw [hs.live] at hu
      rw [hs.pid hu, hs.exitStatus hu]
      exact h.hanging u hu ((hs.hanging u hu).mp hst)
    not_hanging := fun u hu hst => by
      rw [hs.live] at hu
      exact h.not_hanging u hu (mt (hs.hanging u hu).mpr hst) }

/-! ### Births -/

/-- A new task is a kernel thread, or has a live process as its parent. -/
theorem TreeInv.birth (h : TreeInv s) (hi : s.live s.idleThread) {p : Task}
    (hb : Births s s' t p)
    (hp : p.pgdir = false ∧ p.parentPid = -1 ∨ p.pgdir = true ∧
      ∃ u, s.live u ∧ (s.task u).pid = p.parentPid ∧ (s.task u).pgdir = true ∧
        (s.task u).status ≠ .hanging) : TreeInv s' := by
  obtain ⟨i, hpid, hlt, hclear, hbits⟩ := hb.pid
  have hlive := hb.live_iff
  have hold := hb.task_old
  have hself := hb.task_self
  have hfreepid : ∀ u, s.live u → (s.task u).pid ≠ p.pid := fun u hu heq => by
    have hbit := h.pid_bit u hu
    rw [heq, hpid, show ((i : Int) + 1 - 1).toNat = i by omega, hclear] at hbit
    cases hbit
  have hlift : ∀ q : Int, (∃ u, s.live u ∧ (s.task u).pid = q ∧ (s.task u).pgdir = true ∧
      (s.task u).status ≠ .hanging) → ∃ u, s'.live u ∧ (s'.task u).pid = q ∧
      (s'.task u).pgdir = true ∧ (s'.task u).status ≠ .hanging := by
    rintro q ⟨u, hu, hq⟩
    exact ⟨u, (hlive u).mpr (.inr hu), by rw [hold u hu]; exact hq⟩
  constructor
  case pids_len => rw [hbits]; exact h.pids_len
  case pid_le =>
    intro u hu
    rcases (hlive u).mp hu with rfl | hu
    · rw [hself, hpid]; have := h.pids_len; omega
    · rw [hold u hu]; exact h.pid_le u hu
  case pid_bit =>
    intro u hu
    rw [hbits, bit_bitmapSet]
    rcases (hlive u).mp hu with rfl | hu
    · rw [hself, hpid, if_pos (by omega)]
    · rw [hold u hu]
      split
      · rfl
      · exact h.pid_bit u hu
  case pid_inj =>
    intro u v hu hv heq
    rcases (hlive u).mp hu with rfl | hu <;> rcases (hlive v).mp hv with rfl | hv
    · rfl
    · rw [hself, hold v hv] at heq; exact absurd heq.symm (hfreepid v hv)
    · rw [hself, hold u hu] at heq; exact absurd heq (hfreepid u hu)
    · rw [hold u hu, hold v hv] at heq; exact h.pid_inj u v hu hv heq
  case idle_kernel => rw [hb.idle, hold _ hi]; exact h.idle_kernel
  case hanging_user =>
    intro u hu hst
    rcases (hlive u).mp hu with rfl | hu
    · rw [hself, hb.status] at hst; cases hst
    · rw [hold u hu] at hst ⊢; exact h.hanging_user u hu hst
  case init =>
    obtain ⟨j, hl, hj⟩ := h.init
    exact ⟨j, (hlive j).mpr (.inr hl), by rw [hold j hl]; exact hj⟩
  case parent =>
    intro u hu hpg h1
    rcases (hlive u).mp hu with rfl | hu
    · rw [hself] at hpg h1 ⊢
      rcases hp with ⟨hp, -⟩ | ⟨-, hpar⟩
      · rw [hp] at hpg; cases hpg
      · exact hlift _ hpar
    · rw [hold u hu] at hpg h1 ⊢
      exact hlift _ (h.parent u hu hpg h1)
  case root =>
    intro u hu hor
    rcases (hlive u).mp hu with rfl | hu
    · rw [hself] at hor ⊢
      rcases hp with ⟨-, hp⟩ | ⟨hp, -⟩
      · exact hp
      · obtain ⟨j, hl, hj, -⟩ := h.init
        have := hor.resolve_left (by simp [hp])
        exact absurd (hj.trans this.symm) (hfreepid j hl)
    · rw [hold u hu] at hor ⊢; exact h.root u hu hor
  case not_self =>
    intro u hu
    rcases (hlive u).mp hu with rfl | hu
    · rw [hself]
      rcases hp with ⟨-, hp⟩ | ⟨-, v, hv, hvp, -⟩
      · rw [hp, hpid]; omega
      · rw [← hvp]; exact hfreepid v hv
    · rw [hold u hu]; exact h.not_self u hu

theorem HistInv.birth (h : HistInv s serial next exits waits) {p : Task} (hb : Births s s' t p) :
    HistInv s' (Function.update serial t next) (next + 1) exits waits := by
  have hlive := hb.live_iff
  have hold := hb.task_old
  have hser : ∀ u, s.live u → Function.update serial t next u = serial u :=
    fun u hu => Function.update_of_ne (hb.ne_of_live hu) _ _
  have hst : (s'.task t).status = .ready := by rw [hb.task_self, hb.status]
  constructor
  case serial_inj =>
    intro u v hu hv heq
    rcases (hlive u).mp hu with rfl | hu <;> rcases (hlive v).mp hv with rfl | hv
    · rfl
    · rw [Function.update_self, hser v hv] at heq
      exact absurd heq.symm (Nat.ne_of_lt (h.serial_lt v hv))
    · rw [Function.update_self, hser u hu] at heq
      exact absurd heq (Nat.ne_of_lt (h.serial_lt u hu))
    · rw [hser u hu, hser v hv] at heq; exact h.serial_inj u v hu hv heq
  case serial_lt =>
    intro u hu
    rcases (hlive u).mp hu with rfl | hu
    · rw [Function.update_self]; omega
    · rw [hser u hu]; have := h.serial_lt u hu; omega
  case exits_lt => exact fun e he => Nat.lt_succ_of_lt (h.exits_lt e he)
  case exits_nodup => exact h.exits_nodup
  case hanging =>
    intro u hu hh
    rcases (hlive u).mp hu with rfl | hu
    · exact absurd (hst.symm.trans hh) (by simp)
    · rw [hold u hu] at hh ⊢
      rw [hser u hu]
      exact h.hanging u hu hh
  case not_hanging =>
    intro u hu hh e he
    rcases (hlive u).mp hu with rfl | hu
    · rw [Function.update_self]; exact Nat.ne_of_lt (h.exits_lt e he)
    · rw [hold u hu] at hh
      rw [hser u hu]
      exact h.not_hanging u hu hh e he
  case waits_gone =>
    intro w hw
    obtain ⟨hlt, hgone⟩ := h.waits_gone w hw
    refine ⟨Nat.lt_succ_of_lt hlt, fun u hu => ?_⟩
    rcases (hlive u).mp hu with rfl | hu
    · rw [Function.update_self]; exact Ne.symm (Nat.ne_of_lt hlt)
    · rw [hser u hu]; exact hgone u hu
  case waits_nodup => exact h.waits_nodup
  case waits_ok => exact h.waits_ok

/-! ### Deaths -/

/-- A kernel thread or a hanging process may go: nobody names it as a parent. -/
theorem TreeInv.death (h : TreeInv s) (hd : Deaths s s' t) (hl : s.live t)
    (hpos : ∀ u, s.live u → 1 ≤ (s.task u).pid) (hi : t ≠ s.idleThread)
    (ht : (s.task t).pgdir = false ∨ (s.task t).status = .hanging) : TreeInv s' := by
  have hlive := hd.live_iff
  have hkeep : ∀ u, s.live u → (s.task u).pgdir = true → (s.task u).status ≠ .hanging → u ≠ t := by
    rintro u - hpg hst rfl
    rcases ht with ht | ht
    · rw [ht] at hpg; cases hpg
    · exact hst ht
  constructor
  case pids_len => rw [hd.pids]; exact h.pids_len
  case pid_le =>
    intro u hu
    obtain ⟨hne, hu⟩ := (hlive u).mp hu
    rw [hd.task u hne]
    exact h.pid_le u hu
  case pid_bit =>
    intro u hu
    obtain ⟨hne, hu⟩ := (hlive u).mp hu
    rw [hd.task u hne, hd.pids, bit_bitmapSet, if_neg]
    · exact h.pid_bit u hu
    · intro heq
      have hu1 := hpos u hu
      have ht1 := hpos t hl
      exact hne (h.pid_inj u t hu hl (by omega))
  case pid_inj =>
    intro u v hu hv heq
    obtain ⟨hu', hu⟩ := (hlive u).mp hu
    obtain ⟨hv', hv⟩ := (hlive v).mp hv
    rw [hd.task u hu', hd.task v hv'] at heq
    exact h.pid_inj u v hu hv heq
  case idle_kernel => rw [hd.idle, hd.task _ (Ne.symm hi)]; exact h.idle_kernel
  case hanging_user =>
    intro u hu
    obtain ⟨hne, hu⟩ := (hlive u).mp hu
    rw [hd.task u hne]
    exact h.hanging_user u hu
  case init =>
    obtain ⟨j, hj, h1, h2, h3⟩ := h.init
    have hne := hkeep j hj h2 h3
    exact ⟨j, (hlive j).mpr ⟨hne, hj⟩, by rw [hd.task j hne]; exact ⟨h1, h2, h3⟩⟩
  case parent =>
    intro u hu
    obtain ⟨hne, hu⟩ := (hlive u).mp hu
    rw [hd.task u hne]
    intro hpg hp
    obtain ⟨v, hv, h1, h2, h3⟩ := h.parent u hu hpg hp
    have hvne := hkeep v hv h2 h3
    exact ⟨v, (hlive v).mpr ⟨hvne, hv⟩, by rw [hd.task v hvne]; exact ⟨h1, h2, h3⟩⟩
  case root =>
    intro u hu
    obtain ⟨hne, hu⟩ := (hlive u).mp hu
    rw [hd.task u hne]
    exact h.root u hu
  case not_self =>
    intro u hu
    obtain ⟨hne, hu⟩ := (hlive u).mp hu
    rw [hd.task u hne]
    exact h.not_self u hu

theorem HistInv.death (h : HistInv s serial next exits waits) (hd : Deaths s s' t) :
    HistInv s' serial next exits waits := by
  have hlive := hd.live_iff
  exact
    { h with
      serial_inj := fun u v hu hv => h.serial_inj u v ((hlive u).mp hu).2 ((hlive v).mp hv).2
      serial_lt := fun u hu => h.serial_lt u ((hlive u).mp hu).2
      hanging := fun u hu => by
        obtain ⟨hne, hu⟩ := (hlive u).mp hu
        rw [hd.task u hne]
        exact h.hanging u hu
      not_hanging := fun u hu => by
        obtain ⟨hne, hu⟩ := (hlive u).mp hu
        rw [hd.task u hne]
        exact h.not_hanging u hu
      waits_gone := fun w hw =>
        ⟨(h.waits_gone w hw).1, fun u hu => (h.waits_gone w hw).2 u ((hlive u).mp hu).2⟩ }

/-- Reaping a hanging child makes an entry in the history. -/
theorem HistInv.reap (h : HistInv s serial next exits waits) (hd : Deaths s s' t) (hl : s.live t)
    (hst : (s.task t).status = .hanging) (hle : (s.task t).pid ≤ 1024)
    (hpos : 1 ≤ (s.task t).pid) {caller : Int} (hc : (s.task t).parentPid = caller) :
    HistInv s' serial next exits
      (waits ++ [⟨serial t, (s.task t).parentPid, caller,
        (BitVec.ofInt 16 (s.task t).pid).toInt, (s.task t).exitStatus.signExtend 32⟩]) := by
  have h' := h.death hd
  obtain ⟨e, he, hser, hpid, hcode⟩ := h.hanging t hl hst
  have hnew : ∀ w ∈ waits, w.serial ≠ serial t := fun w hw heq =>
    (h.waits_gone w hw).2 t hl heq.symm
  refine { h' with waits_gone := fun w hw => ?_, waits_nodup := ?_, waits_ok := fun w hw => ?_ }
  · rcases List.mem_append.mp hw with hw | hw
    · exact h'.waits_gone w hw
    · obtain rfl := List.mem_singleton.mp hw
      refine ⟨h.serial_lt t hl, fun u hu heq => ?_⟩
      obtain ⟨hne, hu⟩ := (hd.live_iff u).mp hu
      exact hne (h.serial_inj u t hu hl heq)
  · rw [List.map_append, List.nodup_append]
    refine ⟨h.waits_nodup, by simp, fun a ha b hb => ?_⟩
    obtain ⟨w, hw, rfl⟩ := List.mem_map.mp ha
    simp only [List.map_cons, List.map_nil, List.mem_singleton] at hb
    rw [hb]
    exact hnew w hw
  · rcases List.mem_append.mp hw with hw | hw
    · exact h'.waits_ok w hw
    · obtain rfl := List.mem_singleton.mp hw
      refine ⟨hc.symm, e, he, hser, ?_, by rw [hcode]⟩
      rw [hpid, BitVec.toInt_ofInt]
      exact Int.bmod_eq_of_le (by omega) (by omega)

/-! ### Exit -/

/-- The caller's children go to `init`, so nobody has the hanging caller as its parent. -/
theorem TreeInv.exit (h : TreeInv s) {status : Word} (he : Exits s s' status)
    (hi : s.live s.idleThread) (hpos : ∀ u, s.live u → 1 ≤ (s.task u).pid) (hcl : s.live s.cur)
    (hpg : (s.task s.cur).pgdir = true) (hp1 : (s.task s.cur).pid ≠ 1) : TreeInv s' := by
  have hlive : ∀ u, s'.live u ↔ s.live u := fun u => by rw [he.live]
  have hkeep : ∀ u, s.live u → u ≠ s.cur → (s.task u).status ≠ .hanging →
      (s'.task u).status ≠ .hanging := fun u hu hne hst => by simp [he.hanging u hu, hne, hst]
  have hinit : ∃ j, s'.live j ∧ (s'.task j).pid = 1 ∧ (s'.task j).pgdir = true ∧
      (s'.task j).status ≠ .hanging := by
    obtain ⟨j, hj, hpid, h2, h3⟩ := h.init
    refine ⟨j, (hlive j).mpr hj, by rw [he.pid j hj]; exact hpid, by rw [he.pgdir j hj]; exact h2,
      hkeep j hj ?_ h3⟩
    rintro rfl
    exact hp1 hpid
  constructor
  case pids_len => rw [he.pidBitmap]; exact h.pids_len
  case pid_le => intro u hu; rw [hlive] at hu; rw [he.pid u hu]; exact h.pid_le u hu
  case pid_bit =>
    intro u hu; rw [hlive] at hu; rw [he.pid u hu, he.pidBitmap]; exact h.pid_bit u hu
  case pid_inj =>
    intro u v hu hv
    rw [hlive] at hu hv
    rw [he.pid u hu, he.pid v hv]
    exact h.pid_inj u v hu hv
  case idle_kernel => rw [he.idle, he.pgdir _ hi]; exact h.idle_kernel
  case hanging_user =>
    intro u hu
    rw [hlive] at hu
    rw [he.hanging u hu, he.pgdir u hu]
    rintro (rfl | hst)
    · exact hpg
    · exact h.hanging_user u hu hst
  case init => exact hinit
  case parent =>
    intro u hu
    rw [hlive] at hu
    rw [he.pgdir u hu, he.pid u hu, he.parent u hu]
    intro hupg hup
    split
    · exact hinit
    · rename_i hne
      obtain ⟨v, hv, hpid, h2, h3⟩ := h.parent u hu hupg hup
      refine ⟨v, (hlive v).mpr hv, by rw [he.pid v hv]; exact hpid,
        by rw [he.pgdir v hv]; exact h2, hkeep v hv ?_ h3⟩
      rintro rfl
      exact hne hpid.symm
  case root =>
    intro u hu
    rw [hlive] at hu
    rw [he.pgdir u hu, he.pid u hu, he.parent u hu]
    intro hor
    rw [h.root u hu hor, if_neg]
    have := hpos _ hcl
    omega
  case not_self =>
    intro u hu
    rw [hlive] at hu
    rw [he.parent u hu, he.pid u hu]
    split
    · -- an adopted task had a parent, so it is not `init`
      intro h1
      have := h.root u hu (.inr h1.symm)
      have := hpos _ hcl
      omega
    · exact h.not_self u hu

/-- An exit makes an entry in the history. -/
theorem HistInv.exit (h : HistInv s serial next exits waits) {status : Word}
    (he : Exits s s' status) (hcl : s.live s.cur) (hst : (s.task s.cur).status ≠ .hanging) :
    HistInv s' serial next (exits ++ [⟨serial s.cur, (s.task s.cur).pid, status⟩]) waits := by
  have hlive : ∀ u, s'.live u ↔ s.live u := fun u => by rw [he.live]
  have hnew := h.not_hanging s.cur hcl hst
  refine
    { h with
      serial_inj := by simpa only [he.live] using h.serial_inj
      serial_lt := by simpa only [he.live] using h.serial_lt
      waits_gone := by simpa only [he.live] using h.waits_gone
      exits_lt := fun e hm => ?_
      exits_nodup := ?_
      hanging := fun u hu hh => ?_
      not_hanging := fun u hu hh e hm => ?_
      waits_ok := fun w hw => ?_ }
  · rcases List.mem_append.mp hm with hm | hm
    · exact h.exits_lt e hm
    · obtain rfl := List.mem_singleton.mp hm; exact h.serial_lt _ hcl
  · rw [List.map_append, List.nodup_append]
    refine ⟨h.exits_nodup, by simp, fun a ha b hb => ?_⟩
    obtain ⟨e, hm, rfl⟩ := List.mem_map.mp ha
    simp only [List.map_cons, List.map_nil, List.mem_singleton] at hb
    rw [hb]
    exact hnew e hm
  · rw [hlive] at hu
    rw [he.pid u hu, he.exitStatus u hu]
    rcases (he.hanging u hu).mp hh with rfl | hold
    · exact ⟨_, List.mem_append.mpr (.inr (List.mem_singleton.mpr rfl)), rfl, rfl, by simp⟩
    · have hne : u ≠ s.cur := fun h' => hst (h' ▸ hold)
      obtain ⟨e, hm, h1⟩ := h.hanging u hu hold
      exact ⟨e, List.mem_append.mpr (.inl hm), by rw [if_neg hne]; exact h1⟩
  · rw [hlive] at hu
    have hne : u ≠ s.cur ∧ (s.task u).status ≠ .hanging := by
      simpa [he.hanging u hu, not_or] using hh
    rcases List.mem_append.mp hm with hm | hm
    · exact h.not_hanging u hu hne.2 e hm
    · obtain rfl := List.mem_singleton.mp hm
      exact fun heq => hne.1 (h.serial_inj u _ hu hcl heq.symm)
  · obtain ⟨h1, e, hm, h2⟩ := h.waits_ok w hw
    exact ⟨h1, e, List.mem_append.mpr (.inl hm), h2⟩

/-! ### Runs -/

theorem TreeInv.idle_not_hanging (h : TreeInv s) (hi : s.live s.idleThread) :
    (s.task s.idleThread).status ≠ .hanging := fun hst => by
  have hpg := h.hanging_user _ hi hst
  rw [h.idle_kernel] at hpg
  cases hpg

theorem ProcInv.congr {p : ProcState} (h : ProcInv p) (hs : SameTree p.st s')
    (ht : TaskInv s' (some s'.cur)) : ProcInv { p with st := s' } :=
  ⟨ht, h.tree.congr h.task.idle_live hs, h.hist.congr hs⟩

theorem map_eq_ok {α β : Type} {x : Except Fault α} {f : α → β} {b : β} (h : x.map f = .ok b) :
    ∃ a, x = .ok a ∧ f a = b := by
  cases x with
  | error e => cases h
  | ok a => exact ⟨a, rfl, Except.ok.inj h⟩

/-- What a step of kernel code does to the tree: nothing, unless it starts a kernel thread or is the
end of one. -/
theorem kernel_cases {p : ProcState} (h : ProcInv p) {act : SchedAct}
    (ha : (ProcAct.kernel act).Allowed p.st) {st : TaskState} (hr : act.run p.st = .ok ((), st)) :
    (SameTree p.st st ∧ ∀ t prio, act ≠ .start (some t) prio) ∨
    (∃ t prio q, act = .start (some t) prio ∧ Births p.st st t q ∧ q.parentPid = -1 ∧
      q.pgdir = false) ∨
    ((∀ t prio, act ≠ .start (some t) prio) ∧ p.st.cur ≠ p.st.idleThread ∧
      (p.st.task p.st.cur).pgdir = false ∧ ∃ s1, Deaths p.st s1 p.st.cur ∧
        ((s1.task s1.idleThread).status ≠ .hanging → SameTree s1 st)) := by
  obtain ⟨hal, hk⟩ := ha
  have hidle := h.tree.idle_not_hanging h.task.idle_live
  have hcl := h.task.running_live _ rfl
  have hcr := (h.task.running_iff _ hcl).mpr rfl
  cases act with
  | timer => exact .inl ⟨(((intrTimerHandler_wp h.task).ok hr).2.quiet hidle).sameTree, nofun⟩
  | yield => exact .inl ⟨(((threadYield_wp h.task).ok hr).2.quiet hidle).sameTree, nofun⟩
  | block stat =>
    obtain rfl : stat = .blocked := hk
    have hrs := ((threadBlock_wp (h.task.setStatus_cur rfl) rfl).ok hr).2
    refine .inl ⟨((quiet_setStatus (by simp) (by simp [hcr])).trans (hrs.quiet ?_)).sameTree, nofun⟩
    rw [status_setStatus]
    split
    · simp
    · exact hidle
  | unblock t =>
    have hst : (p.st.task t).status = .blocked := hk
    have hm := ((threadUnblock_wp h.task hal.2.1).ok hr).1
    exact .inl ⟨(hm.quiet (by simp) (by simp [hst])).sameTree, nofun⟩
  | start pg prio =>
    cases pg with
    | none => cases hr
    | some t =>
      obtain ⟨hp, hkh⟩ := hal t rfl
      obtain ⟨q, hb, hpar, hpg⟩ := (threadStart_wp h.task hp hkh prio).ok hr
      exact .inr (.inl ⟨t, prio, q, rfl, hb, hpar, hpg⟩)
  | fork pages => exact absurd hk id
  | exit t ns =>
    obtain ⟨hl, hi, hw, hns⟩ := hal
    obtain ⟨rfl, hpg⟩ : t = p.st.cur ∧ _ := hk
    obtain ⟨-, s1, hd, hrs, -⟩ := (threadExit_wp h.task hl hi hw hns).ok hr
    exact .inr (.inr ⟨nofun, hi, hpg, s1, hd, fun hi1 =>
      ((hrs (by simp [hns])).quiet hi1).sameTree⟩)
  | down m => exact .inl ⟨(((semaDown_wp h.task hal m).ok hr).2 hidle).sameTree, nofun⟩
  | up m => exact .inl ⟨((semaUp_wp h.task m).ok hr).2.sameTree, nofun⟩
  | setIntr status =>
    cases hr
    exact .inl ⟨((h.task.flags status p.st.oldIntr).2.quiet hidle).sameTree, nofun⟩

/-- A step of kernel code, with its history. -/
theorem kernel_apply {p p' : ProcState} {act : SchedAct}
    (hrun : (ProcAct.kernel act).apply p = .ok p') :
    ∃ st, act.run p.st = .ok ((), st) ∧
      ((∀ t prio, act ≠ .start (some t) prio) → p' = { p with st := st }) ∧
      ∀ t prio, act = .start (some t) prio → p' = { p with st := st }.bear t := by
  obtain ⟨⟨⟨⟩, st⟩, hr, rfl⟩ := map_eq_ok hrun
  refine ⟨st, hr, fun hne => ?_, fun t prio he => by subst he; rfl⟩
  split
  · exact absurd rfl (hne _ _)
  · rfl

/-- The steps of kernel code keep the invariant. -/
theorem procInv_kernel {p p' : ProcState} (h : ProcInv p) {act : SchedAct}
    (ha : (ProcAct.kernel act).Allowed p.st) (hrun : (ProcAct.kernel act).apply p = .ok p') :
    ProcInv p' := by
  obtain ⟨st, hr, hold, hnew⟩ := kernel_apply hrun
  have htask : TaskInv st (some st.cur) := (SchedAct.run_wp h.task ha.1).ok hr
  rcases kernel_cases h ha hr with ⟨hs, hne⟩ | ⟨t, prio, q, he, hb, hpar, hpg⟩ |
    ⟨hne, hi, hpg, s1, hd, hs⟩
  · rw [hold hne]
    exact h.congr hs htask
  · rw [hnew t prio he]
    exact ⟨htask, h.tree.birth h.task.idle_live hb (.inl ⟨hpg, hpar⟩), h.hist.birth hb⟩
  · rw [hold hne]
    have hl := h.task.running_live _ rfl
    have h1 := h.tree.death hd hl h.task.live_pid hi (.inl hpg)
    have hi1 : s1.live s1.idleThread := by
      rw [hd.live_iff, hd.idle]; exact ⟨Ne.symm hi, h.task.idle_live⟩
    have hs := hs (h1.idle_not_hanging hi1)
    exact ⟨htask, h1.congr hi1 hs, (h.hist.death hd).congr hs⟩

/-- **One step** keeps the invariant. -/
theorem procInv_step {p p' : ProcState} (h : ProcInv p) {act : ProcAct}
    (ha : act.Allowed p.st) (hrun : act.apply p = .ok p') : ProcInv p' := by
  have hidle := h.tree.idle_not_hanging h.task.idle_live
  have hcl := h.task.running_live _ rfl
  have hcr := (h.task.running_iff _ hcl).mpr rfl
  cases act with
  | kernel act => exact procInv_kernel h ha hrun
  | fork pages =>
    obtain ⟨⟨pid, st⟩, hr, rfl⟩ := map_eq_ok hrun
    rcases (sysFork_wp h.task ha).ok hr with ⟨rfl, hf⟩ | ⟨t, q, hpcb, hb, rfl⟩
    · have htask : TaskInv st (some st.cur) := by
        rw [hf.cur]
        exact h.task.congr hf.toAgrees (fun u hu => congrArg Task.status (hf.task u hu)) hf.ready
      have hc := h.congr hf.sameTree htask
      cases pages.pcb <;> exact hc
    · obtain ⟨i, hi, -⟩ := hb.pid
      rw [hpcb]
      simp only [if_neg (show q.pid ≠ -1 by omega)]
      refine ⟨?_, h.tree.birth h.task.idle_live hb.toBirths (.inr ⟨hb.pgdir, p.st.cur, hcl,
        hb.parent.symm, hb.user, by simp [hcr]⟩), h.hist.birth hb.toBirths⟩
      have htask := h.task.birth hb.toBirths
      rw [← hb.cur] at htask
      exact htask
  | exit status =>
    obtain ⟨⟨⟨⟩, st⟩, hr, rfl⟩ := map_eq_ok hrun
    obtain ⟨hpg, hp1⟩ := ha
    obtain ⟨v, hv, hvp, -, hvh⟩ := h.tree.parent _ hcl hpg hp1
    have hpos := h.task.live_pid
    have hi : p.st.cur ≠ p.st.idleThread := fun heq => by
      have := h.tree.idle_kernel
      rw [← heq, hpg] at this
      cases this
    obtain ⟨htask, he⟩ := (sysExit_wp h.task status hi hidle
      (by have := hpos v hv; omega) (h.tree.not_self _ hcl) ⟨v, hv, hvp⟩).ok hr
    exact ⟨htask, h.tree.exit he h.task.idle_live hpos hcl hpg hp1,
      h.hist.exit he hcl (by simp [hcr])⟩
  | wait =>
    obtain ⟨⟨out, st⟩, hr, rfl⟩ := map_eq_ok hrun
    obtain ⟨htask, hout⟩ := (sysWait_wp h.task hidle).ok hr
    cases out with
    | child pid status =>
      obtain ⟨c, hc, hl, hpar, hst, rfl, rfl, hd⟩ := hout
      have hi : c ≠ p.st.idleThread := fun heq => hidle (heq ▸ hst)
      simp only [hc]
      exact ⟨htask, h.tree.death hd hl h.task.live_pid hi (.inr hst),
        h.hist.reap hd hl hst (h.tree.pid_le c hl) (h.task.live_pid c hl) hpar⟩
    | noChild =>
      obtain rfl : st = p.st := hout
      cases listTraversal p.st (findHangingChild (p.st.task p.st.cur).pid) <;> exact h
    | blocks =>
      have hc := h.congr (Quiet.sameTree hout) htask
      cases listTraversal p.st (findHangingChild (p.st.task p.st.cur).pid) <;> exact hc

theorem initState_tree {s0 : TaskState} (hboot : Boot s0) {a b : ℕ} (ha : kHeapStart ≤ a)
    (hb : kHeapStart ≤ b) (hab : a ≠ b) : TreeInv (initState s0 a b) := by
  have hcases := fun {u} => initState_cases hboot ha hb hab (u := u)
  have hA : (initState s0 a b).live a := (initState_live hboot a).mpr (.inl rfl)
  have hB : (initState s0 a b).live b := (initState_live hboot b).mpr (.inr (.inr rfl))
  have hpids : (initState s0 a b).pidBitmap = initPids := rfl
  have hcur := hboot.cur
  constructor
  case pids_len => rfl
  case pid_le =>
    intro u hu
    rcases hcases hu with ⟨-, ht⟩ | ⟨-, ht⟩ | ⟨-, ht⟩ <;> simp [ht, freshTask]
  case pid_bit =>
    intro u hu
    rcases hcases hu with ⟨-, ht⟩ | ⟨-, ht⟩ | ⟨-, ht⟩ <;>
      simp [ht, freshTask, hpids, initPids, bit_bitmapSet]
  case pid_inj =>
    intro u v hu hv
    rcases hcases hu with ⟨rfl, ht⟩ | ⟨rfl, ht⟩ | ⟨rfl, ht⟩ <;>
      rcases hcases hv with ⟨rfl, hv⟩ | ⟨rfl, hv⟩ | ⟨rfl, hv⟩ <;> simp [ht, hv, freshTask]
  case idle_kernel =>
    rcases hcases hB with ⟨h, -⟩ | ⟨h, -⟩ | ⟨-, h⟩
    · exact absurd h (Ne.symm hab)
    · omega
    · exact congrArg Task.pgdir h
  case hanging_user =>
    intro u hu
    rcases hcases hu with ⟨-, ht⟩ | ⟨-, ht⟩ | ⟨-, ht⟩ <;> simp [ht, freshTask]
  case init =>
    rcases hcases hA with ⟨-, h⟩ | ⟨h, -⟩ | ⟨h, -⟩
    · exact ⟨a, hA, by simp [h, freshTask]⟩
    · omega
    · exact absurd h hab
  case parent =>
    intro u hu
    rcases hcases hu with ⟨-, ht⟩ | ⟨-, ht⟩ | ⟨-, ht⟩ <;> simp [ht, freshTask]
  case root =>
    intro u hu
    rcases hcases hu with ⟨-, ht⟩ | ⟨-, ht⟩ | ⟨-, ht⟩ <;> simp [ht, freshTask]
  case not_self =>
    intro u hu
    rcases hcases hu with ⟨-, ht⟩ | ⟨-, ht⟩ | ⟨-, ht⟩ <;> simp [ht, freshTask]

/-- **The invariant holds along every run.** -/
theorem procInv {p : ProcState} (h : procSys.Reachable p) : ProcInv p := by
  refine TransSys.Reach.invariant (S := procSys) (I := ProcInv) ?_
    (fun p act p' hp _ hst => procInv_step hp hst.1 hst.2) h
  rintro ⟨st, serial, next, exits, waits⟩ ⟨⟨s0, a, b, hboot, ha, hb, hab, hrun⟩, he, hw, hinj, hlt⟩
  rw [threadInit_eq hboot ha hb hab] at hrun
  obtain rfl : initState s0 a b = st := congrArg Prod.snd (Except.ok.inj hrun)
  obtain rfl : exits = [] := he
  obtain rfl : waits = [] := hw
  refine ⟨initState_inv hboot ha hb hab, initState_tree hboot ha hb hab, hinj,
    hlt, by simp, by simp,
    fun u hu hst => ?_, by simp, by simp, by simp, by simp⟩
  -- nobody has exited yet
  rcases initState_cases hboot ha hb hab hu with ⟨-, ht⟩ | ⟨-, ht⟩ | ⟨-, ht⟩ <;>
    exact absurd ((congrArg Task.status ht).symm.trans hst) (by simp [freshTask])

end

/-! ### A run -/

/-- The table right after `thread_init`. -/
def procStart : ProcState :=
  ⟨initState bootState 0xc0100000 0xc0101000, id, 0xc0102000, [], []⟩

theorem procStart_init : procSys.init procStart := by
  refine ⟨⟨bootState, _, _, bootState_boot, by decide, by decide, by decide,
    threadInit_eq bootState_boot (by decide) (by decide) (by decide)⟩, rfl, rfl,
    fun t u _ _ heq => heq, fun t ht => ?_⟩
  rcases (initState_live bootState_boot t).mp ht with rfl | rfl | rfl <;> decide

/-- The state a step leads to, the same state if the step stops. -/
def ProcAct.next (act : ProcAct) (p : ProcState) : ProcState :=
  match act.apply p with
  | .ok p' => p'
  | .error _ => p

theorem reach_next {ok : ProcState → ProcAct → Prop} {p : ProcState} (act : ProcAct)
    (h : procSys.Reach ok p) (hok : ok p act) (ha : act.Allowed p.st)
    (hr : (act.apply p).toBool = true) : procSys.Reach ok (act.next p) := by
  refine .step h hok ⟨ha, ?_⟩
  rw [ProcAct.next]
  cases hp : act.apply p with
  | ok p' => rfl
  | error f => rw [hp] at hr; cases hr

/-- A fork in which every allocation succeeds, with the PCB in page `t`. -/
def forkAt (t : ℕ) : ProcAct := .fork ⟨some t, true, true, true⟩

theorem forkAt_allowed {s : TaskState} {t : ℕ} (hp : s.page t = false) (ht : kHeapStart ≤ t) :
    (forkAt t).Allowed s := by
  rintro u ⟨⟩
  exact ⟨hp, ht⟩

/-- Entering a system call turns interrupts off. -/
def enterSyscall : ProcAct := .kernel (.setIntr false)

/-- `init` forks two processes and waits, the main thread blocks, and the idle thread lets the first
process run. -/
def firstRuns : ProcState :=
  (ProcAct.kernel (.block .blocked)).next ((ProcAct.kernel (.block .blocked)).next
    (ProcAct.wait.next
    ((forkAt 0xc0103000).next ((forkAt 0xc0102000).next (enterSyscall.next
      ((ProcAct.kernel .yield).next procStart))))))

/-- The first process exits, and `init` waits again. -/
def reaped : ProcState := ProcAct.wait.next ((ProcAct.exit 7).next (enterSyscall.next firstRuns))

theorem reachable_reaped : procSys.Reachable reaped := by
  have h0 : procSys.Reachable procStart := .init procStart_init
  have h1 := reach_next (.kernel .yield) h0 trivial ⟨trivial, trivial⟩ (by decide +kernel)
  have h2 := reach_next enterSyscall h1 trivial ⟨trivial, trivial⟩ (by decide +kernel)
  have h3 := reach_next (forkAt 0xc0102000) h2 trivial
    (forkAt_allowed (by decide +kernel) (by decide))
    (by decide +kernel)
  have h4 := reach_next (forkAt 0xc0103000) h3 trivial
    (forkAt_allowed (by decide +kernel) (by decide))
    (by decide +kernel)
  have h5 := reach_next .wait h4 trivial (show _ = _ by decide +kernel) (by decide +kernel)
  have h6 := reach_next (.kernel (.block .blocked)) h5 trivial ⟨trivial, rfl⟩
    (by decide +kernel)
  have h7 : procSys.Reachable firstRuns := reach_next (.kernel (.block .blocked)) h6 trivial
    ⟨trivial, rfl⟩ (by decide +kernel)
  have h8 := reach_next enterSyscall h7 trivial ⟨trivial, trivial⟩ (by decide +kernel)
  have h9 := reach_next (.exit 7) h8 trivial (show _ ∧ _ by decide +kernel)
    (by decide +kernel)
  exact reach_next .wait h9 trivial (show _ = _ by decide +kernel) (by decide +kernel)

/-! ### The table -/

/-- **The table of processes.** In every reachable state the tasks in the list have distinct pids,
each marked in the bitmap; every process but `init` has a `parent_pid` that `pid2thread` finds, and
what it finds has not exited; a hanging task is nobody's parent; and no incarnation of a task was
returned by two waits, each of which was made by the task the child's `parent_pid` named and
received the pid and the low eight bits of the status of that child's exit. -/
theorem proc_table {p : ProcState} (h : procSys.Reachable p) :
    (p.st.threadAllList.Nodup ∧ ∀ t ∈ p.st.threadAllList, ∀ u ∈ p.st.threadAllList,
      (p.st.task t).pid = (p.st.task u).pid → t = u) ∧
    (∀ t ∈ p.st.threadAllList, 1 ≤ (p.st.task t).pid ∧
      p.st.pidBitmap.bit ((p.st.task t).pid - 1).toNat = true) ∧
    (∀ t ∈ p.st.threadAllList, (p.st.task t).pgdir = true → (p.st.task t).pid ≠ 1 →
      ∃ u ∈ p.st.threadAllList, pid2thread p.st (p.st.task t).parentPid = some u ∧
        (p.st.task u).pid = (p.st.task t).parentPid ∧ (p.st.task u).status ≠ .hanging ∧
        (p.st.task u).status ≠ .died) ∧
    (∀ t ∈ p.st.threadAllList, (p.st.task t).status = .hanging →
      ∀ u ∈ p.st.threadAllList, (p.st.task u).parentPid ≠ (p.st.task t).pid) ∧
    (p.waits.map WaitRec.serial).Nodup ∧
    ∀ w ∈ p.waits, w.caller = w.parentPid ∧
      ∃ e ∈ p.exits, e.serial = w.serial ∧ w.pid = e.pid ∧
        w.status = (e.status.setWidth 8).signExtend 32 := by
  obtain ⟨htask, htree, hhist⟩ := procInv h
  have hmem : ∀ {t}, t ∈ p.st.threadAllList ↔ p.st.live t := htask.mem_all
  refine ⟨⟨?_, fun t ht u hu => htree.pid_inj t u (hmem.mp ht) (hmem.mp hu)⟩,
    fun t ht => ⟨htask.live_pid t (hmem.mp ht), htree.pid_bit t (hmem.mp ht)⟩,
    fun t ht hpg hp => ?_, fun t ht hst u hu hpar => ?_, hhist.waits_nodup, hhist.waits_ok⟩
  · rw [List.nodup_iff_count_le_one]
    intro t
    rw [htask.all_count]
    split <;> omega
  · obtain ⟨u, hu, hup, -, hst⟩ := htree.parent t (hmem.mp ht) hpg hp
    obtain ⟨v, hv⟩ := listTraversal_of_mem (f := pidCheck (p.st.task t).parentPid)
      (hmem.mpr hu) (by simpa [pidCheck] using hup)
    obtain ⟨hvm, hvp⟩ := listTraversal_eq_some hv
    obtain rfl : v = u := htree.pid_inj v u (hmem.mp hvm) hu (by simpa [pidCheck, hup] using hvp)
    exact ⟨v, hvm, hv, hup, hst, htask.not_died v hu⟩
  · -- a child of `t` would have a parent that is not hanging, and that has the pid of `t`
    have hu' := hmem.mp hu
    have hpos := htask.live_pid t (hmem.mp ht)
    have hroot := mt (htree.root u hu') (by omega)
    rw [not_or, Bool.not_eq_false] at hroot
    obtain ⟨v, hv, hvp, -, hvh⟩ := htree.parent u hu' hroot.1 hroot.2
    obtain rfl := htree.pid_inj v t hv (hmem.mp ht) (hvp.trans hpar)
    exact hvh hst

/-- The first process has been reaped, and the second still has its parent. -/
theorem proc_table_reaped :
    reaped.st.threadAllList = [0xc0100000, 0xc009e000, 0xc0101000, 0xc0103000] ∧
    (reaped.waits.map fun w => (w.pid, w.status)) = [(4, 7)] ∧ reaped.st.threadAllList.Nodup ∧
    (∃ u ∈ reaped.st.threadAllList,
      (reaped.st.task u).pid = (reaped.st.task 0xc0103000).parentPid) ∧
    ∀ w ∈ reaped.waits, w.caller = w.parentPid := by
  obtain ⟨h1, -, h2, -, -, h3⟩ := proc_table reachable_reaped
  refine ⟨by decide +kernel, by decide +kernel, h1.1, ?_, fun w hw => (h3 w hw).1⟩
  obtain ⟨u, hu, -, hp, -⟩ := h2 0xc0103000 (by decide +kernel)
    (by decide +kernel) (by decide +kernel)
  exact ⟨u, hu, hp⟩

end X86Os
