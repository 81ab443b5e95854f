import X86Os.Lib.RingBuf
import X86Os.Lib.TransSys
import X86Os.Thread.Task

/-!
# The ring buffer between threads

`device/ioqueue.c`: the keyboard buffer and the pipes. `ioq_getchar` and `ioq_putchar` run with
interrupts off, so a thread that is in one of them runs until it blocks, and there are two places
where it can: in `sema_down` of the queue's lock, and in `ioq_wait`. What a thread does from one of
these to the next is one step. The lock is `thread/sync.c`, of which nothing can be interrupted
here.

A thread that finds the queue empty takes the lock, writes itself into `consumer` and sleeps, with
the lock still in its hands. It is woken by the next byte, but the lock is released only when it
runs. Who finds the queue empty in the meantime waits for the lock, and when it gets the lock it
goes to sleep on the queue **without looking at it again**.

## Main results

* `ioq_fifo` — the queue is a queue: what comes out is what went in, in order
* `ioq_sleepers` — nobody sleeps on a queue it could use, in runs in which who gets the lock late
  still finds the queue empty, or full
* `ioq_sleeps_on_byte` — a consumer asleep with a byte in the queue
-/

namespace X86Os

open X86Os.Comp

/-! ### The code -/

/-- `bufsize`. -/
def bufsize : ℕ := 2048

/-- `struct lock`. -/
structure Lock where
  holder : Option ℕ
  semaphore : Semaphore
  holderRepeatNr : Word

/-- `lock_init`. -/
def Lock.lockInit : Lock := ⟨none, ⟨1, []⟩, 0⟩

/-- `struct ioqueue`. -/
structure IoQueue where
  lock : Lock
  producer : Option ℕ
  consumer : Option ℕ
  buf : ℕ → Byte
  head : ℕ
  tail : ℕ

/-- `ioqueue_init`, of a page that holds anything. -/
def ioqueueInit (buf : ℕ → Byte) : IoQueue := ⟨.lockInit, none, none, buf, 0, 0⟩

/-- `next_pos`. -/
def nextPos (pos : ℕ) : ℕ := (pos + 1) % bufsize

/-- `ioq_full`. -/
def ioqFull (ioq : IoQueue) : Bool := nextPos ioq.head == ioq.tail

/-- `ioq_empty`. -/
def ioqEmpty (ioq : IoQueue) : Bool := ioq.head == ioq.tail

/-- `ioq_length`. -/
def ioqLength (ioq : IoQueue) : ℕ :=
  if ioq.tail ≤ ioq.head then ioq.head - ioq.tail else bufsize - (ioq.tail - ioq.head)

/-- The two calls. -/
inductive IoqCall
  | getchar
  | putchar (byte : Byte)
  deriving DecidableEq

/-- Where a thread is when it does not run. -/
inductive IoqPhase
  /-- In no call. -/
  | out
  /-- Blocked in `sema_down` of the lock. -/
  | lockWait (call : IoqCall)
  /-- Made ready there. -/
  | lockWoken (call : IoqCall)
  /-- Blocked in `ioq_wait`. -/
  | ioqWait (call : IoqCall)
  /-- Made ready there. -/
  | ioqWoken (call : IoqCall)
  deriving DecidableEq

/-- The queue, the threads, and the bytes that have been passed to calls of `ioq_putchar` that have
returned and that calls of `ioq_getchar` have returned. -/
structure IoqState where
  ioq : IoQueue
  phase : ℕ → IoqPhase
  sent : List Byte
  received : List Byte

namespace IoqState

def goto (s : IoqState) (t : ℕ) (ph : IoqPhase) : IoqState :=
  { s with phase := Function.update s.phase t ph }

def updLock (s : IoqState) (f : Lock → Lock) : IoqState :=
  { s with ioq := { s.ioq with lock := f s.ioq.lock } }

end IoqState

namespace IoqCall

/-- The condition of the loop. -/
def mustWait (ioq : IoQueue) : IoqCall → Bool
  | getchar => ioqEmpty ioq
  | putchar _ => ioqFull ioq

/-- The field of the queue that the call waits in. -/
def waiter (ioq : IoQueue) : IoqCall → Option ℕ
  | getchar => ioq.consumer
  | putchar _ => ioq.producer

def setWaiter (ioq : IoQueue) (t : Option ℕ) : IoqCall → IoQueue
  | getchar => { ioq with consumer := t }
  | putchar _ => { ioq with producer := t }

end IoqCall

/-- `thread_unblock`. -/
def ioqUnblock (t : ℕ) : Kern IoqState Unit := do
  let s ← get
  match s.phase t with
  | .lockWait call => modify (·.goto t (.lockWoken call))
  | .ioqWait call => modify (·.goto t (.ioqWoken call))
  | _ => stop (.panic .threadUnblock)

/-- `sema_down` by `t`; false if it blocks. -/
def ioqSemaDown (t : ℕ) (call : IoqCall) : Kern IoqState Bool := do
  let s ← get
  let sema := s.ioq.lock.semaphore
  if sema.value = 0 then
    ASSERT .semaDown (t ∉ sema.waiters)
    modify fun s => (s.updLock fun l =>
      { l with semaphore := { sema with waiters := sema.waiters ++ [t] } }).goto t (.lockWait call)
    pure false
  else
    modify (·.updLock fun l => { l with semaphore := { sema with value := sema.value - 1 } })
    ASSERT .semaDown (sema.value - 1 = 0)
    pure true

/-- `sema_up`. -/
def ioqSemaUp : Kern IoqState Unit := do
  let s ← get
  let sema := s.ioq.lock.semaphore
  ASSERT .semaUp (sema.value = 0)
  match sema.waiters with
  | [] => pure ()
  | t :: rest => do
    modify (·.updLock fun l => { l with semaphore := { sema with waiters := rest } })
    ioqUnblock t
  modify (·.updLock fun l => { l with semaphore := { l.semaphore with value := sema.value + 1 } })
  ASSERT .semaUp (sema.value + 1 = 1)

/-- `lock_acquire` from the semaphore on. -/
def ioqLockTake (t : ℕ) (call : IoqCall) : Kern IoqState Bool := do
  let down ← ioqSemaDown t call
  if down then
    let s ← get
    ASSERT .lockAcquire (s.ioq.lock.holderRepeatNr = 0)
    modify (·.updLock fun l => { l with holder := some t, holderRepeatNr := 1 })
    pure true
  else pure false

/-- `lock_acquire`; false if it blocks. -/
def ioqLockAcquire (t : ℕ) (call : IoqCall) : Kern IoqState Bool := do
  let s ← get
  if s.ioq.lock.holder ≠ some t then ioqLockTake t call
  else
    modify (·.updLock fun l => { l with holderRepeatNr := l.holderRepeatNr + 1 })
    pure true

/-- `lock_release`. -/
def ioqLockRelease (t : ℕ) : Kern IoqState Unit := do
  let s ← get
  let l := s.ioq.lock
  ASSERT .lockRelease (l.holder = some t)
  if 1 < l.holderRepeatNr then
    modify (·.updLock fun l => { l with holderRepeatNr := l.holderRepeatNr - 1 })
  else
    ASSERT .lockRelease (l.holderRepeatNr = 1)
    modify (·.updLock fun l => { l with holder := none, holderRepeatNr := 0 })
    ioqSemaUp

/-- `ioq_wait`. -/
def ioqWait (t : ℕ) (call : IoqCall) : Kern IoqState Unit := do
  let s ← get
  ASSERT .ioqWait (call.waiter s.ioq = none)
  modify fun s => { s with ioq := call.setWaiter s.ioq (some t) }.goto t (.ioqWait call)

/-- `wakeup`, of the thread that waits for the other side of `call`, if there is one. -/
def ioqWakeup (call : IoqCall) : Kern IoqState Unit := do
  let s ← get
  match call.waiter s.ioq with
  | none => pure ()
  | some u => do
    ioqUnblock u
    modify fun s => { s with ioq := call.setWaiter s.ioq none }

/-- What the calls do after their loop. -/
def ioqTransfer (t : ℕ) : IoqCall → Kern IoqState Unit
  | .getchar => do
    modify fun s => { s with
      ioq := { s.ioq with tail := nextPos s.ioq.tail }
      received := s.received ++ [s.ioq.buf s.ioq.tail] }
    ioqWakeup (.putchar 0)
    modify (·.goto t .out)
  | .putchar byte => do
    modify fun s => { s with
      ioq := { s.ioq with
        buf := Function.update s.ioq.buf s.ioq.head byte
        head := nextPos s.ioq.head }
      sent := s.sent ++ [byte] }
    ioqWakeup .getchar
    modify (·.goto t .out)

/-- `ioq_getchar` or `ioq_putchar` from the test of the loop on. -/
def ioqLoop (t : ℕ) (call : IoqCall) : Kern IoqState Unit := do
  let s ← get
  if call.mustWait s.ioq then
    let locked ← ioqLockAcquire t call
    if locked then ioqWait t call else pure ()
  else ioqTransfer t call

/-! ### The system -/

/-- A thread makes a call, or one that has been made ready runs. -/
inductive IoqAct
  | call (t : ℕ) (call : IoqCall)
  | resume (t : ℕ)

/-- What a thread does until it blocks or returns. -/
def IoqAct.code (s : IoqState) : IoqAct → Option (Kern IoqState Unit)
  | call t c => if s.phase t = .out then some (ioqLoop t c) else none
  | resume t =>
    match s.phase t with
    | .lockWoken c => some do
      let locked ← ioqLockTake t c
      if locked then ioqWait t c else pure ()
    | .ioqWoken c => some do
      ioqLockRelease t
      ioqLoop t c
    | _ => none

/-- The state it leaves. -/
def IoqAct.next (s : IoqState) (act : IoqAct) : Option IoqState :=
  (act.code s).bind (·.state? s)

/-- The state after `ioqueue_init`. -/
def IoqState.Initial (s : IoqState) : Prop :=
  ∃ buf, s = ⟨ioqueueInit buf, fun _ => .out, [], []⟩

/-- Threads on one queue. -/
def ioqSys : TransSys IoqState IoqAct := .ofNext IoqState.Initial IoqAct.next

/-! ### What the parts leave alone -/

/-- The buffer with its cursors, and the bytes that have passed through it. -/
def IoqState.content (s : IoqState) : (ℕ → Byte) × ℕ × ℕ × List Byte × List Byte :=
  (s.ioq.buf, s.ioq.tail, s.ioq.head, s.sent, s.received)

/-- And who sleeps. -/
def IoqState.sleepers (s : IoqState) : ((ℕ → Byte) × ℕ × ℕ × List Byte × List Byte) ×
    Option ℕ × Option ℕ := (s.content, s.ioq.consumer, s.ioq.producer)

theorem ioqUnblock_keeps (t : ℕ) : Keeps IoqState.sleepers (ioqUnblock t) := by
  intro s
  rw [ioqUnblock, post, wp_bind, wp_get]
  split <;> trivial

theorem ioqSemaDown_keeps (t : ℕ) (call : IoqCall) :
    Keeps IoqState.sleepers (ioqSemaDown t call) := by
  intro s
  rw [ioqSemaDown, post, wp_bind, wp_get]
  dsimp only
  split
  · simp only [wp_bind, wp_ASSERT, wp_modify, wp_pure]
    exact ⟨fun _ => rfl, fun _ => trivial⟩
  · simp only [wp_bind, wp_ASSERT, wp_modify, wp_pure]
    exact ⟨fun _ => rfl, fun _ => trivial⟩

theorem ioqSemaUp_keeps : Keeps IoqState.sleepers ioqSemaUp := by
  intro s
  rw [ioqSemaUp, post, wp_bind, wp_get]
  dsimp only
  rw [wp_bind, wp_ASSERT]
  refine ⟨fun _ => ?_, fun _ => trivial⟩
  split
  · simp only [wp_bind, wp_ASSERT, wp_modify]
    exact ⟨fun _ => rfl, fun _ => trivial⟩
  · rename_i u rest _
    simp only [wp_bind, wp_modify]
    refine (ioqUnblock_keeps u _).mono (fun _ s' hs' => ?_) fun _ h => h
    rw [wp_ASSERT]
    exact ⟨fun _ => hs', fun _ => trivial⟩

theorem updLock_keeps (f : Lock → Lock) :
    Keeps IoqState.sleepers (modify (·.updLock f) : Kern IoqState Unit) := fun _ => rfl

theorem ioqLockTake_keeps (t : ℕ) (call : IoqCall) :
    Keeps IoqState.sleepers (ioqLockTake t call) := by
  refine (ioqSemaDown_keeps t call).bind fun down => .ite ?_ (.pure _)
  exact Keeps.get.bind fun s => (Keeps.check _ _).bind fun _ =>
    (updLock_keeps _).bind fun _ => .pure _

/-- Who gets the lock found the semaphore up. -/
theorem ioqLockTake_post (t : ℕ) (call : IoqCall) (s : IoqState) :
    post (ioqLockTake t call) (fun locked s' => s'.sleepers = s.sleepers ∧
      (locked = true → s.ioq.lock.semaphore.value ≠ 0)) s := by
  simp only [ioqLockTake, ioqSemaDown, post, wp_bind, wp_get, wp_ite, wp_ASSERT, wp_modify, wp_pure]
  refine ⟨fun _ => ⟨fun _ => ?_, fun _ => trivial⟩, fun hv => ⟨fun _ => ⟨fun _ => ?_, ?_⟩,
    fun _ => trivial⟩⟩
  · simp
    rfl
  · exact ⟨fun _ => ⟨rfl, fun _ => hv⟩, fun _ => trivial⟩
  · simp

theorem ioqLockAcquire_keeps (t : ℕ) (call : IoqCall) :
    Keeps IoqState.sleepers (ioqLockAcquire t call) := by
  refine Keeps.get.bind fun s => .ite (ioqLockTake_keeps t call) ?_
  exact (updLock_keeps _).bind fun _ => .pure _

theorem ioqLockRelease_keeps (t : ℕ) : Keeps IoqState.sleepers (ioqLockRelease t) := by
  refine Keeps.get.bind fun s => (Keeps.check _ _).bind fun _ => .ite (updLock_keeps _) ?_
  exact (Keeps.check _ _).bind fun _ => (updLock_keeps _).bind fun _ => ioqSemaUp_keeps

theorem content_of_sleepers {s s' : IoqState} (h : s'.sleepers = s.sleepers) :
    s'.content = s.content := congrArg Prod.fst h

/-- The loop depends on the cursors, which waiting does not move. -/
theorem mustWait_of_content {s s' : IoqState} (h : s'.content = s.content) (call : IoqCall) :
    call.mustWait s'.ioq = call.mustWait s.ioq := by
  simp only [IoqState.content, Prod.mk.injEq] at h
  obtain ⟨-, ht, hh, -⟩ := h
  cases call <;> simp only [IoqCall.mustWait, ioqEmpty, ioqFull, ht, hh]

theorem waiter_of_sleepers {s s' : IoqState} (h : s'.sleepers = s.sleepers) (call : IoqCall) :
    call.waiter s'.ioq = call.waiter s.ioq := by
  simp only [IoqState.sleepers, Prod.mk.injEq] at h
  obtain ⟨-, hc, hp⟩ := h
  cases call
  · exact hc
  · exact hp

/-- `ioq_wait` names the thread as the one that waits. -/
theorem ioqWait_post (t : ℕ) (call : IoqCall) (s : IoqState) :
    post (ioqWait t call) (fun _ s' => s'.content = s.content ∧
      s'.ioq = call.setWaiter s.ioq (some t)) s := by
  simp only [ioqWait, post, wp_bind, wp_get, wp_ASSERT, wp_modify]
  refine ⟨fun _ => ⟨?_, rfl⟩, fun _ => trivial⟩
  cases call <;> rfl

/-- After `wakeup` nobody waits on that side. -/
theorem ioqWakeup_post (call : IoqCall) (s : IoqState) :
    post (ioqWakeup call) (fun _ s' => s'.content = s.content ∧ call.waiter s'.ioq = none ∧
      ∀ c : IoqCall, c.waiter s'.ioq ≠ none → c.waiter s'.ioq = c.waiter s.ioq) s := by
  rw [ioqWakeup, post, wp_bind, wp_get]
  split
  · rename_i hnone
    exact ⟨rfl, hnone, fun _ _ => rfl⟩
  · rename_i u _
    rw [wp_bind]
    refine (ioqUnblock_keeps u s).mono (fun _ s1 hs1 => ?_) fun _ h => h
    have hc := content_of_sleepers hs1
    refine ⟨?_, ?_, fun c hne => ?_⟩
    · rw [← hc]
      cases call <;> rfl
    · cases call <;> rfl
    · have hw := waiter_of_sleepers hs1 c
      cases call <;> cases c <;> first | exact absurd rfl hne | exact hw

/-! ### A queue -/

/-- The bytes that have been sent and not received are those in the buffer. -/
def Fifo (s : IoqState) : Prop :=
  ∃ q, RingBuf bufsize s.ioq.buf s.ioq.tail s.ioq.head q ∧ s.sent = s.received ++ q

theorem Fifo.congr {s s' : IoqState} (h : Fifo s) (hc : s'.content = s.content) : Fifo s' := by
  simp only [IoqState.content, Prod.mk.injEq] at hc
  obtain ⟨h1, h2, h3, h4, h5⟩ := hc
  rw [Fifo, h1, h2, h3, h4, h5]
  exact h

/-- The read or the write at the end of a call. -/
theorem ioqTransfer_fifo {t : ℕ} {call : IoqCall} {s : IoqState} (h : Fifo s)
    (hgo : call.mustWait s.ioq = false) : post (ioqTransfer t call) (fun _ s' => Fifo s') s := by
  obtain ⟨q, hq, hsent⟩ := h
  cases call with
  | getchar =>
    simp only [ioqTransfer, post, wp_bind, wp_modify]
    refine (ioqWakeup_post (.putchar 0) _).mono (fun _ s' hs' => ?_) fun _ h => h
    refine Fifo.congr ?_ hs'.1
    cases q with
    | nil =>
      have := hq.eq_iff.mpr rfl
      simp only [IoqCall.mustWait, ioqEmpty, beq_eq_false_iff_ne] at hgo
      exact absurd this hgo
    | cons x q =>
      obtain ⟨hx, hq⟩ := hq.pop
      refine ⟨q, hq, ?_⟩
      rw [hsent, hx, List.append_assoc, List.singleton_append]
  | putchar byte =>
    simp only [ioqTransfer, post, wp_bind, wp_modify]
    refine (ioqWakeup_post .getchar _).mono (fun _ s' hs' => ?_) fun _ h => h
    refine Fifo.congr ?_ hs'.1
    have hroom : q.length + 1 < bufsize := by
      have hne := mt hq.next_eq_iff.mpr (by simpa [IoqCall.mustWait, ioqFull, nextPos] using hgo)
      have := hq.length_lt
      omega
    refine ⟨q ++ [byte], hq.push hroom byte, ?_⟩
    rw [hsent, List.append_assoc]

theorem ioqLoop_fifo {t : ℕ} {call : IoqCall} {s : IoqState} (h : Fifo s) :
    post (ioqLoop t call) (fun _ s' => Fifo s') s := by
  rw [ioqLoop, post, wp_bind, wp_get, wp_ite]
  refine ⟨fun _ => ?_, fun hgo => ioqTransfer_fifo h (by simpa using hgo)⟩
  rw [wp_bind]
  refine (ioqLockAcquire_keeps t call s).mono (fun locked s1 hs1 => ?_) fun _ h => h
  have h1 := h.congr (content_of_sleepers hs1)
  rw [wp_ite]
  exact ⟨fun _ => (ioqWait_post t call s1).mono (fun _ _ hs' => h1.congr hs'.1) fun _ h => h,
    fun _ => h1⟩

theorem ioqSys_step {s s' : IoqState} {act : IoqAct} (h : ioqSys.step s act s') :
    ∃ x u, act.code s = some x ∧ x s = .ok (u, s') := by
  obtain ⟨x, hx, hs'⟩ := Option.bind_eq_some_iff.mp h
  obtain ⟨u, hu⟩ := ok_of_state? hs'
  exact ⟨x, u, hx, hu⟩

theorem IoqAct.code_fifo {s : IoqState} {act : IoqAct} {x : Kern IoqState Unit} (h : Fifo s)
    (hx : act.code s = some x) : post x (fun _ s' => Fifo s') s := by
  cases act with
  | call t c =>
    simp only [code] at hx
    split at hx
    · cases hx
      exact ioqLoop_fifo h
    · cases hx
  | resume t =>
    simp only [code] at hx
    split at hx
    · cases hx
      rw [post, wp_bind]
      refine (ioqLockTake_keeps t _ s).mono (fun locked s1 hs1 => ?_) fun _ h => h
      have h1 := h.congr (content_of_sleepers hs1)
      rw [wp_ite]
      exact ⟨fun _ => (ioqWait_post t _ s1).mono (fun _ _ hs' => h1.congr hs'.1) fun _ h => h,
        fun _ => h1⟩
    · cases hx
      rw [post, wp_bind]
      refine (ioqLockRelease_keeps t s).mono (fun _ s1 hs1 => ?_) fun _ h => h
      exact ioqLoop_fifo (h.congr (content_of_sleepers hs1))
    · cases hx

/-- **The ring buffer is a queue.** The bytes received are the first of the bytes sent, the length
is the number of those that are still to be received, one slot less than the buffer has is the most
there can be and is when the queue is full, and the bytes still to be received are in the buffer. -/
theorem ioq_fifo {s : IoqState} (h : ioqSys.Reachable s) :
    s.received <+: s.sent ∧
    ioqLength s.ioq = s.sent.length - s.received.length ∧
    ioqLength s.ioq ≤ bufsize - 1 ∧
    (ioqFull s.ioq = true ↔ ioqLength s.ioq = bufsize - 1) ∧
    ∀ i < ioqLength s.ioq,
      s.sent[s.received.length + i]? = some (s.ioq.buf ((s.ioq.tail + i) % bufsize)) := by
  obtain ⟨q, hq, hsent⟩ : Fifo s := by
    refine TransSys.Reach.invariant (I := Fifo) ?_ (fun s act s' hs _ hstep => ?_) h
    · rintro _ ⟨buf, rfl⟩
      exact ⟨[], .nil (show 0 < bufsize by decide), rfl⟩
    · obtain ⟨x, u, hx, hu⟩ := ioqSys_step hstep
      exact (act.code_fifo hs hx).ok hu
  have hlen : ioqLength s.ioq = q.length := hq.length_eq
  have hlt := hq.length_lt
  rw [hlen, hsent, List.length_append]
  refine ⟨List.prefix_append _ _, by omega, by omega, ?_, fun i hi => ?_⟩
  · rw [ioqFull, nextPos, beq_iff_eq, hq.next_eq_iff]
    omega
  · rw [List.getElem?_append_right (by omega), Nat.add_sub_cancel_left, hq.slot i hi]

/-- The queue after `ioqueue_init` of a page of zeros. -/
def ioqStart : IoqState := ⟨ioqueueInit fun _ => 0, fun _ => .out, [], []⟩

theorem ioqStart_initial : ioqStart.Initial := ⟨_, rfl⟩

/-- A producer has put two bytes and a consumer has got one. -/
theorem ioq_fifo_oneLeft :
    ∃ s : IoqState, s.sent = [1, 2] ∧ s.received = [1] ∧ s.received <+: s.sent := by
  obtain ⟨s, hs, hP⟩ : ∃ s, ioqSys.Reachable s ∧
      decide (s.sent = [1, 2] ∧ s.received = [1]) = true :=
    TransSys.exists_reachable ioqStart_initial
      [.call 1 (.putchar 1), .call 1 (.putchar 2), .call 2 .getchar] (by decide +kernel)
  obtain ⟨hsent, hreceived⟩ := of_decide_eq_true hP
  exact ⟨s, hsent, hreceived, (ioq_fifo hs).1⟩

/-! ### Sleepers -/

/-- Whoever sleeps could not go on. -/
def Asleep (s : IoqState) : Prop :=
  ∀ c : IoqCall, c.waiter s.ioq ≠ none → c.mustWait s.ioq = true

theorem Asleep.congr {s s' : IoqState} (h : Asleep s) (hs : s'.sleepers = s.sleepers) :
    Asleep s' := by
  intro c
  rw [waiter_of_sleepers hs, mustWait_of_content (content_of_sleepers hs)]
  exact h c

theorem ioqWait_asleep {t : ℕ} {call : IoqCall} {s : IoqState} (h : Asleep s)
    (hwait : call.mustWait s.ioq = true) : post (ioqWait t call) (fun _ s' => Asleep s') s := by
  refine (ioqWait_post t call s).mono (fun _ s' hs' c hne => ?_) fun _ h => h
  rw [mustWait_of_content hs'.1]
  rw [hs'.2] at hne
  cases call <;> cases c
  · exact hwait
  · exact h _ hne
  · exact h _ hne
  · exact hwait

theorem ioqTransfer_asleep {t : ℕ} {call : IoqCall} {s : IoqState} (h : Asleep s)
    (hgo : call.mustWait s.ioq = false) : post (ioqTransfer t call) (fun _ s' => Asleep s') s := by
  -- nobody waits on this side, and who waits on the other side is woken
  have hnone : call.waiter s.ioq = none := by
    by_contra hne
    rw [h call hne] at hgo
    cases hgo
  cases call with
  | getchar =>
    simp only [ioqTransfer, post, wp_bind, wp_modify]
    refine (ioqWakeup_post (.putchar 0) _).mono (fun _ s' hs' c hne => ?_) fun _ h => h
    cases c with
    | getchar => exact absurd ((hs'.2.2 _ hne).trans hnone) hne
    | putchar b => exact absurd hs'.2.1 hne
  | putchar byte =>
    simp only [ioqTransfer, post, wp_bind, wp_modify]
    refine (ioqWakeup_post .getchar _).mono (fun _ s' hs' c hne => ?_) fun _ h => h
    cases c with
    | getchar => exact absurd hs'.2.1 hne
    | putchar b => exact absurd ((hs'.2.2 _ hne).trans hnone) hne

theorem ioqLoop_asleep {t : ℕ} {call : IoqCall} {s : IoqState} (h : Asleep s) :
    post (ioqLoop t call) (fun _ s' => Asleep s') s := by
  rw [ioqLoop, post, wp_bind, wp_get, wp_ite]
  refine ⟨fun hwait => ?_, fun hgo => ioqTransfer_asleep h (by simpa using hgo)⟩
  rw [wp_bind]
  refine (ioqLockAcquire_keeps t call s).mono (fun locked s1 hs1 => ?_) fun _ h => h
  rw [wp_ite]
  refine ⟨fun _ => ioqWait_asleep (h.congr hs1) ?_, fun _ => h.congr hs1⟩
  rw [mustWait_of_content (content_of_sleepers hs1)]
  exact hwait

/-- A thread that gets the lock after it has waited for it finds the queue as it found it when it
called. -/
def FindsAsBefore (s : IoqState) : IoqAct → Prop
  | .call _ _ => True
  | .resume t => ∀ c, s.phase t = .lockWoken c → s.ioq.lock.semaphore.value ≠ 0 →
      c.mustWait s.ioq = true

theorem IoqAct.code_asleep {s : IoqState} {act : IoqAct} {x : Kern IoqState Unit} (h : Asleep s)
    (hok : FindsAsBefore s act) (hx : act.code s = some x) :
    post x (fun _ s' => Asleep s') s := by
  cases act with
  | call t c =>
    simp only [code] at hx
    split at hx
    · cases hx
      exact ioqLoop_asleep h
    · cases hx
  | resume t =>
    simp only [code] at hx
    split at hx
    · rename_i c hc
      cases hx
      rw [post, wp_bind]
      refine (ioqLockTake_post t c s).mono (fun locked s1 hs1 => ?_) fun _ h => h
      rw [wp_ite]
      refine ⟨fun hlocked => ioqWait_asleep (h.congr hs1.1) ?_, fun _ => h.congr hs1.1⟩
      rw [mustWait_of_content (content_of_sleepers hs1.1)]
      exact hok c hc (hs1.2 hlocked)
    · cases hx
      rw [post, wp_bind]
      refine (ioqLockRelease_keeps t s).mono (fun _ s1 hs1 => ?_) fun _ h => h
      exact ioqLoop_asleep (h.congr hs1)
    · cases hx

/-- **Nobody sleeps on a queue it could use**, as long as nobody gets the lock late to find that the
queue has changed. -/
theorem ioq_sleepers {s : IoqState} (h : ioqSys.Reach FindsAsBefore s) :
    (s.ioq.consumer ≠ none → ioqEmpty s.ioq = true) ∧
    (s.ioq.producer ≠ none → ioqFull s.ioq = true) := by
  have hinv : Asleep s := by
    refine TransSys.Reach.invariant (I := Asleep) ?_ (fun s act s' hs hok hstep => ?_) h
    · rintro _ ⟨buf, rfl⟩ c hc
      cases c <;> exact absurd rfl hc
    · obtain ⟨x, u, hx, hu⟩ := ioqSys_step hstep
      exact (act.code_asleep hs hok hx).ok hu
  exact ⟨hinv .getchar, hinv (.putchar 0)⟩

/-- A consumer finds the queue empty. -/
theorem ioq_sleepers_one : ∃ s : IoqState, s.ioq.consumer = some 1 ∧
    (s.ioq.consumer ≠ none → ioqEmpty s.ioq = true) := by
  refine ⟨(ioqLoop 1 .getchar).final ioqStart, by decide +kernel, (ioq_sleepers ?_).1⟩
  have hrun : (ioqLoop 1 .getchar).state? ioqStart = some ((ioqLoop 1 .getchar).final ioqStart) :=
    state?_of_value? (a := ()) (by decide +kernel)
  exact .step (l := .call 1 .getchar) (.init ioqStart_initial) trivial hrun

/-- **A consumer asleep with a byte in the queue.** Consumer 1 sleeps on the empty queue and
consumer 2 waits for the lock. A producer puts two bytes; consumer 1 takes the first and releases
the lock; consumer 2 gets it and goes to sleep. -/
theorem ioq_sleeps_on_byte :
    ∃ s, ioqSys.Reachable s ∧ s.ioq.consumer = some 2 ∧ ioqEmpty s.ioq = false := by
  obtain ⟨s, hs, hP⟩ : ∃ s, ioqSys.Reachable s ∧
      decide (s.ioq.consumer = some 2 ∧ ioqEmpty s.ioq = false) = true :=
    TransSys.exists_reachable ioqStart_initial [.call 1 .getchar, .call 2 .getchar,
      .call 3 (.putchar 7), .call 3 (.putchar 8), .resume 1, .resume 2] (by decide +kernel)
  exact ⟨s, hs, of_decide_eq_true hP⟩

end X86Os
