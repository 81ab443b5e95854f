import X86Os.Device.Ide
import X86Os.Thread.Lock

/-!
# Commands and interrupts on a disk channel

`ide_read`, `ide_write` and `intr_hd_handler` as they meet: any number of threads call the driver,
and the channel's interrupt may come at any time, whether or not a command has been given and as
often as it likes. The channel's lock is the one of `Lock`, run step by step; `expecting_intr` is
set before the command register is written, and the semaphore `disk_done` is taken down in one step
because `sema_down` turns interrupts off.

What `ide_read` and `ide_write` move is the subject of `Ide`; here a transfer is one step, which a
device that does not get ready turns into a `PANIC`.

## The invariant

At most one thread owns the lock, so at most one is in a command: from the store to `expecting_intr`
to the end of `sema_down`. While it is, either the interrupt is still expected and the semaphore is
0, or it has come and the semaphore is 1. Otherwise nothing is expected and the semaphore is 0. An
interrupt that is not expected does nothing.
-/

namespace X86Os

/-! ### The code -/

/-- A call of `ide_write` or `ide_read`. -/
structure IdeCall where
  write : Bool
  lba : ℕ
  secCnt : ℕ
  deriving DecidableEq

/-- Where a thread is in the driver, by what it does next. `secsDone` sectors have been moved. -/
inductive IdePhase
  /-- Nothing: it is not there. -/
  | out
  /-- Go on with `lock_acquire`. -/
  | acquire (c : IdeCall)
  /-- Test the loop and select the sectors. -/
  | select (c : IdeCall) (secsDone : ℕ)
  /-- Set `expecting_intr`, in `cmd_out`. -/
  | expect (c : IdeCall) (secsDone : ℕ)
  /-- Write the command register, in `cmd_out`. -/
  | command (c : IdeCall) (secsDone : ℕ)
  /-- Wait for the device and write the data. -/
  | fill (c : IdeCall) (secsDone : ℕ)
  /-- Enter `sema_down`. -/
  | down (c : IdeCall) (secsDone : ℕ)
  /-- Nothing: blocked in `sema_down`. -/
  | blocked (c : IdeCall) (secsDone : ℕ)
  /-- Made ready in `sema_down`: test the value again. -/
  | woken (c : IdeCall) (secsDone : ℕ)
  /-- Wait for the device and read the data. -/
  | fetch (c : IdeCall) (secsDone : ℕ)
  /-- Go on with `lock_release`. -/
  | release
  deriving DecidableEq

/-- `struct ide_channel`, and where the threads are. `cmds` counts the calls of `cmd_out`, `ups`
those of `sema_up` by the interrupt handler, and `upsSince` those since the last `cmd_out`. -/
structure ChannelState where
  lock : LockState
  expectingIntr : Bool
  diskDone : Semaphore
  phase : ℕ → IdePhase
  cmds : ℕ
  ups : ℕ
  upsSince : ℕ

namespace ChannelState

/-- The channel after `ide_init`. -/
def init : ChannelState := ⟨.lockInit, false, ⟨0, []⟩, fun _ => .out, 0, 0, 0⟩

def goto (s : ChannelState) (t : ℕ) (ph : IdePhase) : ChannelState :=
  { s with phase := Function.update s.phase t ph }

/-- The `ASSERT`s and the `PANIC` of `ide_read` or `ide_write`. -/
def panic (c : IdeCall) : Fault := .panic (if c.write then .ideWrite else .ideRead)

/-- Where a thread goes on after `sema_down`. -/
def afterDown (c : IdeCall) (secsDone : ℕ) : IdePhase :=
  if c.write then .select c (secsDone + secsOp c.secCnt secsDone) else .fetch c secsDone

/-- A pass through the loop of `sema_down(&disk_done)`. -/
def semaDown (s : ChannelState) (t : ℕ) (c : IdeCall) (secsDone : ℕ) : Except Fault ChannelState :=
  if s.diskDone.value = 0 then
    if t ∈ s.diskDone.waiters then .error (.panic .semaDown)
    else .ok { s.goto t (.blocked c secsDone) with
      diskDone := { s.diskDone with waiters := s.diskDone.waiters ++ [t] } }
  else if s.diskDone.value - 1 = 0 then
    .ok { s.goto t (afterDown c secsDone) with
      diskDone := { s.diskDone with value := s.diskDone.value - 1 } }
  else .error (.panic .semaDown)

/-- The waiter that `sema_up(&disk_done)` pops, and `thread_unblock` of it. -/
def semaWake (s : ChannelState) : Except Fault ChannelState :=
  match s.diskDone.waiters with
  | [] => .ok s
  | u :: rest =>
    match s.phase u with
    | .blocked c secsDone => .ok { s.goto u (.woken c secsDone) with
        diskDone := { s.diskDone with waiters := rest } }
    | _ => .error (.panic .threadUnblock)

/-- `sema_up(&disk_done)`. -/
def semaUp (s : ChannelState) : Except Fault ChannelState :=
  if s.diskDone.value = 0 then
    match s.semaWake with
    | .error f => .error f
    | .ok s =>
      if s.diskDone.value + 1 = 1 then
        .ok { s with diskDone := { s.diskDone with value := s.diskDone.value + 1 } }
      else .error (.panic .semaUp)
  else .error (.panic .semaUp)

/-- `intr_hd_handler`. -/
def intrHdHandler (s : ChannelState) : Except Fault ChannelState :=
  if s.expectingIntr then
    { s with expectingIntr := false, ups := s.ups + 1, upsSince := s.upsSince + 1 }.semaUp
  else .ok s

/-- The lock moves on. -/
def withLock (s : ChannelState) (r : Except Fault LockState) : Except Fault ChannelState :=
  r.map fun l => { s with lock := l }

/-- What `t` does next; `ready` is what `busy_wait` returns. -/
def run (s : ChannelState) (t : ℕ) (ready : Bool) : Except Fault ChannelState :=
  match s.phase t with
  | .out | .blocked _ _ => .ok s
  | .acquire c =>
    if s.lock.phase t = .out then .ok (s.goto t (.select c 0)) else s.withLock (s.lock.run t)
  | .select c k =>
    if k < c.secCnt then
      if c.lba + k ≤ maxLba then .ok (s.goto t (.expect c k)) else .error (.panic .selectSector)
    else .ok { s.goto t .release with lock := s.lock.goto t .relCheck }
  | .expect c k =>
    .ok { s.goto t (.command c k) with expectingIntr := true, cmds := s.cmds + 1, upsSince := 0 }
  | .command c k => .ok (s.goto t (if c.write then .fill c k else .down c k))
  | .fill c k => if ready then .ok (s.goto t (.down c k)) else .error (panic c)
  | .down c k | .woken c k => s.semaDown t c k
  | .fetch c k =>
    if ready then .ok (s.goto t (.select c (k + secsOp c.secCnt k))) else .error (panic c)
  | .release => if s.lock.phase t = .out then .ok (s.goto t .out) else s.withLock (s.lock.run t)

/-- `t` calls the driver. -/
def call (s : ChannelState) (t : ℕ) (c : IdeCall) : Except Fault ChannelState :=
  if c.lba ≤ maxLba ∧ 0 < c.secCnt then
    .ok { s.goto t (.acquire c) with lock := s.lock.goto t .acqTest }
  else .error (panic c)

end ChannelState

/-- The steps: a thread calls the driver, a thread in it goes on, the channel interrupts. -/
inductive ChannelAct
  | call (t : ℕ) (c : IdeCall)
  | run (t : ℕ) (ready : Bool)
  | intr

namespace ChannelAct

/-- The step. -/
def apply (s : ChannelState) : ChannelAct → Except Fault ChannelState
  | call t c => s.call t c
  | run t ready => s.run t ready
  | intr => s.intrHdHandler

/-- A blocked thread does not run. -/
def Enabled (s : ChannelState) : ChannelAct → Prop
  | call t _ => s.phase t = .out
  | run t _ => s.phase t ≠ .out ∧ (∀ c k, s.phase t ≠ .blocked c k) ∧ s.lock.phase t ≠ .blocked
  | intr => True

end ChannelAct

/-- Threads on one channel. -/
def channelSys : TransSys ChannelState ChannelAct where
  init s := s = .init
  step s act s' := act.Enabled s ∧ act.apply s = .ok s'

/-! ### The lock inside the driver -/

/-- The phases of an acquire that is not nested. -/
def Phase.isAcquire : Phase → Bool
  | .acqTest | .acqDown | .blocked | .woken | .acqHolder | .acqCheck | .acqStore => true
  | _ => false

/-- The phases of the release of a lock that is not held twice. -/
def Phase.isRelease : Phase → Bool
  | .relCheck | .relTest | .relLast | .relHolder | .relClear | .relUp => true
  | _ => false

/-- Inside `lock_acquire`, or behind it. -/
def Acquiring (l : LockState) (t : ℕ) : Prop :=
  (l.phase t).isAcquire = true ∧ l.depth t = 0 ∨ l.phase t = .out ∧ l.depth t = 1

/-- Inside `lock_release`, or behind it. -/
def Releasing (l : LockState) (t : ℕ) : Prop :=
  (l.phase t).isRelease = true ∧ l.depth t = 1 ∨ l.phase t = .out ∧ l.depth t = 0

/-- What the other threads see of a step of the lock: one of them may be woken. -/
def SameFor (l l' : LockState) (u : ℕ) : Prop :=
  l'.depth u = l.depth u ∧
    (l'.phase u = l.phase u ∨ l.phase u = .blocked ∧ l'.phase u = .woken)

section

variable {l l' : LockState} {t u : ℕ}

theorem sameFor_goto (l : LockState) (ph : Phase) (hu : u ≠ t) : SameFor l (l.goto t ph) u :=
  ⟨rfl, .inl (goto_of_ne l ph hu)⟩

theorem sameFor_leave (l : LockState) (d : ℕ) (hu : u ≠ t) : SameFor l (l.leave t d) u :=
  ⟨Function.update_of_ne hu _ _, .inl (goto_of_ne l .out hu)⟩

/-- **A step of `lock_acquire`.** -/
theorem LockInv.run_acquire (h : LockInv l) (ht : (l.phase t).isAcquire = true)
    (hd : l.depth t = 0) (hrun : l.run t = .ok l') :
    Acquiring l' t ∧ ∀ u, u ≠ t → SameFor l l' u := by
  unfold LockState.run at hrun
  cases hp : l.phase t with
  | acqTest =>
    have hne : l.holder ≠ some t := fun hc => by
      have hown := h.holder_owns t hc
      simp [LockState.Owns, hp, hd] at hown
    simp only [hp, if_pos hne] at hrun
    cases hrun
    exact ⟨.inl ⟨by simp [Phase.isAcquire], hd⟩, fun u hu => sameFor_goto l _ hu⟩
  | acqDown | woken =>
    simp only [hp, LockState.semaDown] at hrun
    split at hrun
    · split at hrun
      · cases hrun
      · cases hrun
        exact ⟨.inl ⟨by simp [Phase.isAcquire], hd⟩, fun u hu => sameFor_goto l .blocked hu⟩
    · split at hrun
      · cases hrun
        exact ⟨.inl ⟨by simp [Phase.isAcquire], hd⟩, fun u hu => sameFor_goto l .acqHolder hu⟩
      · cases hrun
  | blocked =>
    simp only [hp] at hrun
    cases hrun
    exact ⟨.inl ⟨ht, hd⟩, fun u _ => ⟨rfl, .inl rfl⟩⟩
  | acqHolder =>
    simp only [hp] at hrun
    cases hrun
    exact ⟨.inl ⟨by simp [Phase.isAcquire], hd⟩, fun u hu => sameFor_goto l .acqCheck hu⟩
  | acqCheck =>
    simp only [hp] at hrun
    split at hrun
    · cases hrun
      exact ⟨.inl ⟨by simp [Phase.isAcquire], hd⟩, fun u hu => sameFor_goto l .acqStore hu⟩
    · cases hrun
  | acqStore =>
    simp only [hp] at hrun
    cases hrun
    exact ⟨.inr ⟨leave_phase l t 1, leave_depth l t 1⟩, fun u hu => sameFor_leave l 1 hu⟩
  | out | acqLoad | acqInc | relCheck | relTest | relLoad | relDec | relLast | relHolder | relClear
  | relUp => rw [hp] at ht; cases ht

/-- **A step of `lock_release`.** -/
theorem LockInv.run_release (h : LockInv l) (ht : (l.phase t).isRelease = true)
    (hd : l.depth t = 1) (hrun : l.run t = .ok l') :
    Releasing l' t ∧ ∀ u, u ≠ t → SameFor l l' u := by
  have hlocal := h.phases t
  unfold LockState.run at hrun
  cases hp : l.phase t with
  | relCheck =>
    simp only [hp] at hrun
    split at hrun
    · cases hrun
      exact ⟨.inl ⟨by simp [Phase.isRelease], hd⟩, fun u hu => sameFor_goto l _ hu⟩
    · cases hrun
  | relTest =>
    -- the lock is held once
    have hnr : ¬ 1 < l.holderRepeatNr := by
      rw [LockState.Local, hp] at hlocal
      have := hlocal.2.2
      rw [hd] at this
      bv_omega
    simp only [hp, if_neg hnr] at hrun
    cases hrun
    exact ⟨.inl ⟨by simp [Phase.isRelease], hd⟩, fun u hu => sameFor_goto l _ hu⟩
  | relLast =>
    simp only [hp] at hrun
    split at hrun
    · cases hrun
      exact ⟨.inl ⟨by simp [Phase.isRelease], hd⟩, fun u hu => sameFor_goto l _ hu⟩
    · cases hrun
  | relHolder =>
    simp only [hp] at hrun
    cases hrun
    exact ⟨.inl ⟨by simp [Phase.isRelease], hd⟩, fun u hu => sameFor_goto l .relClear hu⟩
  | relClear =>
    simp only [hp] at hrun
    cases hrun
    exact ⟨.inl ⟨by simp [Phase.isRelease], hd⟩, fun u hu => sameFor_goto l .relUp hu⟩
  | relUp =>
    obtain ⟨l1, hl1, -, -, hd1, -, -, -, hph, -⟩ := h.wakes
    simp only [hp, LockState.semaUp, hl1] at hrun
    split at hrun
    · split at hrun
      · cases hrun
        refine ⟨.inr ⟨leave_phase l1 t 0, leave_depth l1 t 0⟩, fun u hu => ⟨?_, ?_⟩⟩
        · rw [← hd1]
          exact Function.update_of_ne hu ..
        · have hpu : (l1.leave t 0).phase u = l1.phase u := goto_of_ne l1 .out hu
          refine (hph u).imp (fun he => ?_) fun he => ⟨he.1, ?_⟩
          · exact hpu.trans he
          · exact hpu.trans he.2
      · cases hrun
    · cases hrun
  | out | acqTest | acqDown | blocked | woken | acqHolder | acqCheck | acqStore | acqLoad | acqInc
  | relLoad | relDec => rw [hp] at ht; cases ht

end

/-! ### The invariant -/

/-- Between the store to `expecting_intr` and the end of `sema_down`. -/
def IdePhase.inCommand : IdePhase → Bool
  | command _ _ | fill _ _ | down _ _ | blocked _ _ | woken _ _ => true
  | _ => false

/-- Where the thread is in the driver and where it is in the lock. -/
def Linked (l : LockState) (t : ℕ) : IdePhase → Prop
  | .out => l.phase t = .out ∧ l.depth t = 0
  | .acquire _ => Acquiring l t
  | .release => Releasing l t
  | _ => l.phase t = .out ∧ l.depth t = 1

/-- The semaphore while `t` is in a command. -/
def Awaits (s : ChannelState) (t : ℕ) : Prop :=
  match s.phase t with
  | .blocked _ _ => s.expectingIntr = true ∧ s.diskDone = ⟨0, [t]⟩
  | .woken _ _ => s.expectingIntr = false ∧ s.diskDone = ⟨1, []⟩
  | _ => s.diskDone = if s.expectingIntr then ⟨0, []⟩ else ⟨1, []⟩

/-- The invariant. -/
structure ChannelInv (s : ChannelState) : Prop where
  lock : LockInv s.lock
  linked : ∀ t, Linked s.lock t (s.phase t)
  idle : (∀ t, (s.phase t).inCommand = false) → s.expectingIntr = false ∧ s.diskDone = ⟨0, []⟩
  busy : ∀ t, (s.phase t).inCommand = true → Awaits s t
  since : s.upsSince ≤ 1
  counts : s.ups ≤ s.cmds
  expecting : s.expectingIntr = true → s.upsSince = 0 ∧ s.ups < s.cmds

theorem channelInv_init : ChannelInv .init := by
  constructor
  case lock => exact lockInit_inv
  case linked => exact fun t => ⟨rfl, rfl⟩
  case idle => exact fun _ => ⟨rfl, rfl⟩
  case busy => exact fun t ht => by cases ht
  case since => exact Nat.zero_le 1
  case counts => exact Nat.le_refl 0
  case expecting => exact fun h => by cases h

section

variable {s s' : ChannelState} {t u : ℕ}

theorem linked_of_sameFor {l l' : LockState} {ph : IdePhase} (h : Linked l u ph)
    (hs : SameFor l l' u) : Linked l' u ph := by
  obtain ⟨hd, hp⟩ := hs
  -- a thread that is woken is in the middle of an acquire
  have hwoken : l.phase u = .blocked ∧ l'.phase u = .woken → Linked l' u ph := by
    rintro ⟨hb, hw⟩
    cases ph <;> simp only [Linked, Acquiring, Releasing, hb, hw, hd] at h ⊢ <;>
      simp_all [Phase.isAcquire, Phase.isRelease]
  rcases hp with hp | hp
  · cases ph <;> simp only [Linked, Acquiring, Releasing, hd, hp] at h ⊢ <;> exact h
  · exact hwoken hp

/-- A thread in a command holds the lock once. -/
theorem linked_iff {l : LockState} {ph : IdePhase} (hin : ph.inCommand = true) :
    Linked l t ph ↔ l.phase t = .out ∧ l.depth t = 1 := by
  cases ph with
  | command | fill | down | blocked | woken => exact Iff.rfl
  | out | acquire | select | expect | fetch | release => cases hin

theorem ChannelInv.owns (h : ChannelInv s) (ht : (s.phase t).inCommand = true) : s.lock.Owns t :=
  .inl (by rw [((linked_iff ht).mp (h.linked t)).2]; omega)

/-- **At most one thread is in a command.** -/
theorem ChannelInv.unique (h : ChannelInv s) (ht : (s.phase t).inCommand = true)
    (hu : (s.phase u).inCommand = true) : t = u :=
  h.lock.owner_unique t u (h.owns ht) (h.owns hu)

theorem ChannelInv.aside (h : ChannelInv s) (hlock : LockInv s'.lock)
    (hlinked : Linked s'.lock t (s'.phase t)) (hother : ∀ u, u ≠ t → s'.phase u = s.phase u)
    (hsame : ∀ u, u ≠ t → SameFor s.lock s'.lock u) (ht : (s.phase t).inCommand = false)
    (ht' : (s'.phase t).inCommand = false) (he : s'.expectingIntr = s.expectingIntr)
    (hd : s'.diskDone = s.diskDone) (hc : s'.cmds = s.cmds) (hu : s'.ups = s.ups)
    (hs : s'.upsSince = s.upsSince) : ChannelInv s' := by
  have hin : ∀ u, (s'.phase u).inCommand = (s.phase u).inCommand := fun u => by
    by_cases hut : u = t
    · rw [hut, ht, ht']
    · rw [hother u hut]
  constructor
  case lock => exact hlock
  case linked =>
    intro u
    by_cases hut : u = t
    · rw [hut]; exact hlinked
    · rw [hother u hut]
      exact linked_of_sameFor (h.linked u) (hsame u hut)
  case idle =>
    simp only [hin, he, hd]
    exact h.idle
  case busy =>
    intro u hu
    rw [hin] at hu
    have hut : u ≠ t := by rintro rfl; rw [ht] at hu; cases hu
    have := h.busy u hu
    rw [Awaits, hother u hut, he, hd]
    exact this
  case since => rw [hs]; exact h.since
  case counts => rw [hu, hc]; exact h.counts
  case expecting => rw [he, hs, hu, hc]; exact h.expecting

/-- A step of the thread in the command, or into a command, that leaves it in one. -/
theorem ChannelInv.inside (h : ChannelInv s) (hlock : s'.lock = s.lock)
    (hlinked : s.lock.phase t = .out ∧ s.lock.depth t = 1)
    (hother : ∀ u, u ≠ t → s'.phase u = s.phase u) (ht' : (s'.phase t).inCommand = true)
    (hawaits : Awaits s' t) (hsince : s'.upsSince ≤ 1) (hcounts : s'.ups ≤ s'.cmds)
    (hexp : s'.expectingIntr = true → s'.upsSince = 0 ∧ s'.ups < s'.cmds) : ChannelInv s' := by
  have hlink : Linked s'.lock t (s'.phase t) := by
    rw [linked_iff ht', hlock]
    exact hlinked
  constructor
  case lock => rw [hlock]; exact h.lock
  case linked =>
    intro u
    by_cases hut : u = t
    · rw [hut]; exact hlink
    · rw [hother u hut, hlock]; exact h.linked u
  case idle =>
    intro hidle
    rw [hidle t] at ht'
    cases ht'
  case busy =>
    intro u hu
    by_cases hut : u = t
    · rw [hut]; exact hawaits
    · -- the lock admits only one
      rw [hother u hut] at hu
      have htown : s.lock.Owns t := .inl (by rw [hlinked.2]; omega)
      exact absurd (h.lock.owner_unique u t (h.owns hu) htown) hut
  case since => exact hsince
  case counts => exact hcounts
  case expecting => exact hexp

@[simp] theorem channel_goto_phase (s : ChannelState) (t : ℕ) (ph : IdePhase) :
    (s.goto t ph).phase t = ph := Function.update_self ..

theorem channel_goto_of_ne (s : ChannelState) (ph : IdePhase) (hu : u ≠ t) :
    (s.goto t ph).phase u = s.phase u := Function.update_of_ne hu ..

/-- Outside of commands the thread only moves on. -/
theorem ChannelInv.goto_aside (h : ChannelInv s) {ph : IdePhase}
    (hlinked : Linked s.lock t ph) (ht : (s.phase t).inCommand = false)
    (ht' : ph.inCommand = false) : ChannelInv (s.goto t ph) :=
  h.aside (t := t) h.lock (by rw [channel_goto_phase]; exact hlinked)
    (fun u hu => channel_goto_of_ne s ph hu) (fun u _ => ⟨rfl, .inl rfl⟩) ht
    (by rw [channel_goto_phase]; exact ht') rfl rfl rfl rfl rfl

/-- Inside a command it moves on without waiting. -/
theorem ChannelInv.goto_inside (h : ChannelInv s) {ph : IdePhase}
    (ht : (s.phase t).inCommand = true) (ht' : ph.inCommand = true)
    (hawaits : Awaits (s.goto t ph) t) : ChannelInv (s.goto t ph) :=
  h.inside rfl ((linked_iff ht).mp (h.linked t)) (fun u hu => channel_goto_of_ne s ph hu)
    (by rw [channel_goto_phase]; exact ht') hawaits h.since h.counts h.expecting

/-- **`sema_down`**: the interrupt has come and the command ends, or the thread blocks. -/
theorem ChannelInv.semaDown (h : ChannelInv s) {c : IdeCall} {k : ℕ}
    (hp : s.phase t = .down c k ∨ s.phase t = .woken c k) :
    ∃ s', s.semaDown t c k = .ok s' ∧ ChannelInv s' := by
  have hin : (s.phase t).inCommand = true := by rcases hp with hp | hp <;> rw [hp] <;> rfl
  have hlink := (linked_iff hin).mp (h.linked t)
  have hbusy := h.busy t hin
  have hdone : s.diskDone = ⟨0, []⟩ ∧ s.expectingIntr = true ∨
      s.diskDone = ⟨1, []⟩ ∧ s.expectingIntr = false := by
    rcases hp with hp | hp <;> simp only [Awaits, hp] at hbusy
    · cases he : s.expectingIntr <;> simp only [he] at hbusy
      · exact .inr ⟨hbusy, rfl⟩
      · exact .inl ⟨hbusy, rfl⟩
    · exact .inr ⟨hbusy.2, hbusy.1⟩
  rcases hdone with ⟨hd, he⟩ | ⟨hd, he⟩
  · refine ⟨{ s.goto t (.blocked c k) with diskDone := ⟨0, [t]⟩ },
      by simp [ChannelState.semaDown, hd],
      h.inside (t := t) rfl hlink (fun u hu => channel_goto_of_ne s _ hu) ?_ ?_ h.since h.counts
      h.expecting⟩
    · exact congrArg IdePhase.inCommand (channel_goto_phase s t _)
    · have hph : ({ s.goto t (.blocked c k) with diskDone := ⟨0, [t]⟩ } : ChannelState).phase t =
          .blocked c k := channel_goto_phase ..
      rw [Awaits, hph]
      exact ⟨he, rfl⟩
  · -- the command is over
    have hout : (ChannelState.afterDown c k).inCommand = false := by
      rw [ChannelState.afterDown]
      split <;> rfl
    have hph : ({ s.goto t (ChannelState.afterDown c k) with diskDone := ⟨0, []⟩ } :
        ChannelState).phase t = ChannelState.afterDown c k := channel_goto_phase ..
    refine ⟨{ s.goto t (ChannelState.afterDown c k) with diskDone := ⟨0, []⟩ },
      by simp [ChannelState.semaDown, hd], h.lock, fun u => ?_, fun _ => ⟨he, rfl⟩, fun u hu => ?_,
      h.since, h.counts, h.expecting⟩
    · by_cases hut : u = t
      · rw [hut, hph, ChannelState.afterDown]
        split <;> exact hlink
      · exact (channel_goto_of_ne s _ hut).symm ▸ h.linked u
    · by_cases hut : u = t
      · rw [hut, hph, hout] at hu
        cases hu
      · have hu : ((s.goto t (ChannelState.afterDown c k)).phase u).inCommand = true := hu
        rw [channel_goto_of_ne s _ hut] at hu
        exact absurd (h.unique hu hin) hut

/-- **The interrupt.** -/
theorem ChannelInv.intr (h : ChannelInv s) : ∃ s', s.intrHdHandler = .ok s' ∧ ChannelInv s' := by
  unfold ChannelState.intrHdHandler
  by_cases he : s.expectingIntr = true
  · rw [if_pos he]
    -- somebody is in a command
    obtain ⟨t, hin⟩ : ∃ t, (s.phase t).inCommand = true := by
      by_contra hn
      have := (h.idle fun t => by simpa using not_exists.mp hn t).1
      rw [he] at this
      cases this
    have hlink := (linked_iff hin).mp (h.linked t)
    have hbusy := h.busy t hin
    obtain ⟨hsince, hlt⟩ := h.expecting he
    by_cases hb : ∃ c k, s.phase t = .blocked c k
    · obtain ⟨c, k, hp⟩ := hb
      simp only [Awaits, hp] at hbusy
      refine ⟨{ s.goto t (.woken c k) with
          expectingIntr := false, diskDone := ⟨1, []⟩, ups := s.ups + 1,
            upsSince := s.upsSince + 1 },
        by simp [ChannelState.semaUp, ChannelState.semaWake, hbusy.2, hp, ChannelState.goto],
        h.inside (t := t) rfl hlink (fun u hu => channel_goto_of_ne s _ hu) ?_ ?_ ?_ ?_
        fun hc => by cases hc⟩
      · exact congrArg IdePhase.inCommand (channel_goto_phase s t _)
      · have hph : ({ s.goto t (.woken c k) with
          expectingIntr := false, diskDone := ⟨1, []⟩, ups := s.ups + 1,
          upsSince := s.upsSince + 1 } : ChannelState).phase t = .woken c k := channel_goto_phase ..
        rw [Awaits, hph]
        exact ⟨rfl, rfl⟩
      · change s.upsSince + 1 ≤ 1
        omega
      · exact hlt
    · have hnw : ∀ c k, s.phase t ≠ .woken c k := by
        intro c k hp
        simp only [Awaits, hp] at hbusy
        rw [he] at hbusy
        cases hbusy.1
      have hd : s.diskDone = ⟨0, []⟩ := by
        rw [Awaits] at hbusy
        split at hbusy
        · rename_i c k hp
          exact absurd ⟨c, k, hp⟩ hb
        · rename_i c k hp
          exact absurd hp (hnw c k)
        · rw [he] at hbusy
          exact hbusy
      refine ⟨{ s with
          expectingIntr := false, diskDone := ⟨1, []⟩, ups := s.ups + 1,
            upsSince := s.upsSince + 1 },
        by simp [ChannelState.semaUp, ChannelState.semaWake, hd],
        h.inside (t := t) rfl hlink (fun u _ => rfl) hin ?_ ?_ ?_ fun hc => by cases hc⟩
      · rw [Awaits]
        dsimp only
        split
        · rename_i c k hp
          exact absurd ⟨c, k, hp⟩ hb
        · exact ⟨rfl, rfl⟩
        · rfl
      · change s.upsSince + 1 ≤ 1
        omega
      · exact hlt
  · rw [if_neg he]
    exact ⟨s, rfl, h⟩

/-- The `ASSERT`s about the sector, and the `PANIC` when the device is not ready. -/
def AboutSector (f : Fault) : Prop :=
  f = .panic .ideRead ∨ f = .panic .ideWrite ∨ f = .panic .selectSector

theorem aboutSector_panic (c : IdeCall) : AboutSector (ChannelState.panic c) := by
  rw [ChannelState.panic]
  split
  · exact .inr (.inl rfl)
  · exact .inl rfl

/-- A thread goes on with the lock, or is done with it. -/
theorem ChannelInv.lockCall {ph : IdePhase} (h : ChannelInv s)
    (hin : (s.phase t).inCommand = false) (hin' : ph.inCommand = false)
    (hlb : s.lock.phase t ≠ .blocked) (hdone : s.lock.phase t = .out → Linked s.lock t ph)
    (hstep : s.lock.phase t ≠ .out → ∀ l', s.lock.run t = .ok l' →
      Linked l' t (s.phase t) ∧ ∀ u, u ≠ t → SameFor s.lock l' u) :
    ∃ s', (if s.lock.phase t = .out then .ok (s.goto t ph)
      else s.withLock (s.lock.run t)) = .ok s' ∧ ChannelInv s' := by
  split
  · rename_i hout
    exact ⟨_, rfl, h.goto_aside (hdone hout) hin hin'⟩
  · rename_i hout
    obtain ⟨l', hrun, hl'⟩ := h.lock.run hout hlb
    obtain ⟨hlink, hsame⟩ := hstep hout l' hrun
    refine ⟨{ s with lock := l' }, by rw [ChannelState.withLock, hrun]; rfl, ?_⟩
    exact h.aside (t := t) hl' hlink (fun _ _ => rfl) hsame hin hin rfl rfl rfl rfl rfl

theorem ChannelInv.acquire {c : IdeCall} (h : ChannelInv s) (hp : s.phase t = .acquire c)
    (hlb : s.lock.phase t ≠ .blocked) :
    ∃ s', (if s.lock.phase t = .out then .ok (s.goto t (.select c 0))
      else s.withLock (s.lock.run t)) = .ok s' ∧ ChannelInv s' := by
  have hlink := h.linked t
  rw [hp] at hlink
  refine h.lockCall (by rw [hp]; rfl) rfl hlb (fun hout => hlink.resolve_left fun ha => ?_)
    fun hout l' hrun => ?_
  · rw [hout] at ha
    cases ha.1
  · rw [hp]
    obtain ⟨ha, hd⟩ := hlink.resolve_right fun hc => hout hc.1
    exact h.lock.run_acquire ha hd hrun

theorem ChannelInv.release (h : ChannelInv s) (hp : s.phase t = .release)
    (hlb : s.lock.phase t ≠ .blocked) :
    ∃ s', (if s.lock.phase t = .out then .ok (s.goto t .out)
      else s.withLock (s.lock.run t)) = .ok s' ∧ ChannelInv s' := by
  have hlink := h.linked t
  rw [hp] at hlink
  refine h.lockCall (by rw [hp]; rfl) rfl hlb (fun hout => hlink.resolve_left fun ha => ?_)
    fun hout l' hrun => ?_
  · rw [hout] at ha
    cases ha.1
  · rw [hp]
    obtain ⟨ha, hd⟩ := hlink.resolve_right fun hc => hout hc.1
    exact h.lock.run_release ha hd hrun

/-- All sectors are done, and the release begins. -/
theorem ChannelInv.leave {c : IdeCall} {k : ℕ} (h : ChannelInv s) (hp : s.phase t = .select c k) :
    ChannelInv { s.goto t .release with lock := s.lock.goto t .relCheck } := by
  have hlink := h.linked t
  rw [hp] at hlink
  have hen : (LockAct.release t).Enabled s.lock := ⟨hlink.1, by rw [hlink.2]; omega⟩
  obtain ⟨l', hrun, hl'⟩ := lockInv_step h.lock hen
  cases hrun
  have hph : ({ s.goto t .release with lock := s.lock.goto t .relCheck } : ChannelState).phase t =
    .release := channel_goto_phase ..
  refine h.aside (t := t) (hl' trivial) ?_ (fun u hu => channel_goto_of_ne s _ hu)
    (fun u hu => sameFor_goto s.lock _ hu) (by rw [hp]; rfl) (by rw [hph]; rfl) rfl rfl rfl rfl rfl
  rw [hph]
  exact .inl ⟨by simp [Phase.isRelease], hlink.2⟩

/-- A command begins. Nobody else is in one. -/
theorem ChannelInv.expect {c : IdeCall} {k : ℕ} (h : ChannelInv s) (hp : s.phase t = .expect c k) :
    ChannelInv { s.goto t (.command c k) with
      expectingIntr := true, cmds := s.cmds + 1, upsSince := 0 } := by
  have hlink := h.linked t
  rw [hp] at hlink
  have hidle : s.expectingIntr = false ∧ s.diskDone = ⟨0, []⟩ := by
    refine h.idle fun u => ?_
    by_contra hu
    have hu : (s.phase u).inCommand = true := by simpa using hu
    obtain rfl := h.lock.owner_unique u t (h.owns hu) (.inl (by rw [hlink.2]; omega))
    rw [hp] at hu
    cases hu
  have hph : ({ s.goto t (.command c k) with
    expectingIntr := true, cmds := s.cmds + 1, upsSince := 0 } : ChannelState).phase t =
    .command c k := channel_goto_phase ..
  refine h.inside (t := t) rfl hlink (fun u hu => channel_goto_of_ne s _ hu) (by rw [hph]; rfl) ?_
    (Nat.zero_le 1) (Nat.le_succ_of_le h.counts) fun _ => ⟨rfl, Nat.lt_succ_of_le h.counts⟩
  rw [Awaits, hph]
  exact hidle.2

/-- A thread in a command goes on to another phase of it. -/
theorem ChannelInv.proceed {ph : IdePhase} (h : ChannelInv s)
    (hbusy : s.diskDone = if s.expectingIntr then ⟨0, []⟩ else ⟨1, []⟩)
    (hin : (s.phase t).inCommand = true) (hph : ∃ c k, ph = .fill c k ∨ ph = .down c k) :
    ChannelInv (s.goto t ph) := by
  obtain ⟨c, k, rfl | rfl⟩ := hph
  · exact h.goto_inside hin rfl (by rw [Awaits, channel_goto_phase]; exact hbusy)
  · exact h.goto_inside hin rfl (by rw [Awaits, channel_goto_phase]; exact hbusy)

/-- What a thread in the driver does next. -/
theorem ChannelInv.run (h : ChannelInv s) (ho : s.phase t ≠ .out)
    (hb : ∀ c k, s.phase t ≠ .blocked c k) (hlb : s.lock.phase t ≠ .blocked) (ready : Bool) :
    (∃ s', s.run t ready = .ok s' ∧ ChannelInv s') ∨
      ∃ f, s.run t ready = .error f ∧ AboutSector f := by
  have hlink := h.linked t
  have hbusy := h.busy t
  unfold ChannelState.run
  cases hp : s.phase t with
  | out => exact absurd hp ho
  | blocked c k => exact absurd hp (hb c k)
  | acquire c => exact .inl (h.acquire hp hlb)
  | select c k =>
    rw [hp] at hlink
    dsimp only
    split
    · split
      · exact .inl ⟨_, rfl, h.goto_aside hlink (by rw [hp]; rfl) rfl⟩
      · exact .inr ⟨_, rfl, .inr (.inr rfl)⟩
    · exact .inl ⟨_, rfl, h.leave hp⟩
  | expect c k => exact .inl ⟨_, rfl, h.expect hp⟩
  | command c k =>
    rw [Awaits, hp] at hbusy
    refine .inl ⟨_, rfl, h.proceed (hbusy rfl) (by rw [hp]; rfl) ⟨c, k, ?_⟩⟩
    cases c.write
    · exact .inr rfl
    · exact .inl rfl
  | fill c k =>
    rw [Awaits, hp] at hbusy
    dsimp only
    split
    · exact .inl ⟨_, rfl, h.proceed (hbusy rfl) (by rw [hp]; rfl) ⟨c, k, .inr rfl⟩⟩
    · exact .inr ⟨_, rfl, aboutSector_panic c⟩
  | down c k => exact .inl (h.semaDown (.inl hp))
  | woken c k => exact .inl (h.semaDown (.inr hp))
  | fetch c k =>
    rw [hp] at hlink
    dsimp only
    split
    · exact .inl ⟨_, rfl, h.goto_aside hlink (by rw [hp]; rfl) rfl⟩
    · exact .inr ⟨_, rfl, aboutSector_panic c⟩
  | release => exact .inl (h.release hp hlb)

/-- **One step** keeps the invariant, or fails an `ASSERT` about the sector. -/
theorem channelInv_step (h : ChannelInv s) {act : ChannelAct} (he : act.Enabled s) :
    (∃ s', act.apply s = .ok s' ∧ ChannelInv s') ∨ ∃ f, act.apply s = .error f ∧ AboutSector f := by
  cases act with
  | call t c =>
    have hp : s.phase t = .out := he
    have hlink := h.linked t
    rw [hp] at hlink
    simp only [ChannelAct.apply, ChannelState.call]
    split
    · have hen : (LockAct.acquire t).Enabled s.lock := hlink.1
      obtain ⟨l', hrun, hl'⟩ := lockInv_step h.lock hen
      cases hrun
      refine .inl ⟨_, rfl, h.aside (t := t) (hl' ?_) ?_ (fun u hu => channel_goto_of_ne s _ hu)
        (fun u hu => sameFor_goto s.lock _ hu) (by rw [hp]; rfl) ?_ rfl rfl rfl rfl rfl⟩
      · change s.lock.depth t + 1 < 2 ^ 32
        rw [hlink.2]
        decide
      · have hph : ({ s.goto t (.acquire c) with lock := s.lock.goto t .acqTest } :
          ChannelState).phase t = .acquire c := channel_goto_phase ..
        rw [hph]
        exact .inl ⟨by simp [Phase.isAcquire], hlink.2⟩
      · exact congrArg IdePhase.inCommand (channel_goto_phase s t _)
    · exact .inr ⟨_, rfl, aboutSector_panic c⟩
  | run t ready => exact h.run he.1 he.2.1 he.2.2 ready
  | intr => exact .inl h.intr

theorem channelInv (h : channelSys.Reachable s) : ChannelInv s := by
  refine TransSys.Reach.invariant (S := channelSys) (I := ChannelInv) ?_ ?_ h
  · rintro s rfl
    exact channelInv_init
  · rintro s act s' hs - ⟨he, hrun⟩
    rcases channelInv_step hs he with ⟨s'', hrun', hinv⟩ | ⟨f, hf, -⟩
    · obtain rfl := Except.ok.inj (hrun.symm.trans hrun')
      exact hinv
    · rw [hrun] at hf
      cases hf

/-- The step, where there is one. -/
def ChannelAct.next (s : ChannelState) : ChannelAct → Option ChannelState
  | call t c => if s.phase t = .out then (s.call t c).toOption else none
  | run t ready =>
    match s.phase t with
    | .out | .blocked _ _ => none
    | _ => if s.lock.phase t ≠ .blocked then (s.run t ready).toOption else none
  | intr => s.intrHdHandler.toOption

theorem ChannelAct.step_of_next {act : ChannelAct} (h : act.next s = some s') :
    channelSys.step s act s' := by
  cases act with
  | call t c =>
    rw [ChannelAct.next] at h
    split at h
    · rename_i hp
      exact ⟨hp, eq_ok_of_toOption h⟩
    · cases h
  | run t ready =>
    rw [ChannelAct.next] at h
    split at h
    · cases h
    · cases h
    · rename_i ho hb
      split at h
      · rename_i hlb
        exact ⟨⟨ho, hb, hlb⟩, eq_ok_of_toOption h⟩
      · cases h
  | intr => exact ⟨trivial, eq_ok_of_toOption h⟩

/-- **The completion protocol.** No two threads are in a command at the same time; the handler has
called `sema_up` at most once since the last command and at most once for each; the semaphore is 0
while nobody is in a command; and the only `ASSERT`s that can fail are those about the sector. -/
theorem disk_completion (h : channelSys.Reachable s) :
    (∀ t u, (s.phase t).inCommand = true → (s.phase u).inCommand = true → t = u) ∧
    s.upsSince ≤ 1 ∧ s.ups ≤ s.cmds ∧
    ((∀ t, (s.phase t).inCommand = false) → s.diskDone.value = 0) ∧
    ∀ (act : ChannelAct) (f : Fault), act.Enabled s → act.apply s = .error f →
      f = .panic .ideRead ∨ f = .panic .ideWrite ∨ f = .panic .selectSector := by
  have hinv := channelInv h
  refine ⟨fun t u => hinv.unique, hinv.since, hinv.counts, fun hidle => ?_, fun act f he hf => ?_⟩
  · rw [(hinv.idle hidle).2]
  · rcases channelInv_step hinv he with ⟨s', hrun, -⟩ | ⟨f', hf', hs⟩
    · rw [hf] at hrun
      cases hrun
    · obtain rfl := Except.error.inj (hf.symm.trans hf')
      exact hs

/-- Thread 1 has given a command and not yet entered `sema_down`; the interrupt has come already,
and thread 2 waits for the channel. -/
theorem disk_completion_early : ∃ s, channelSys.Reachable s ∧ s.phase 1 = .down ⟨false, 0, 1⟩ 0 ∧
    s.lock.phase 2 = .blocked ∧ s.ups = 1 ∧ s.upsSince ≤ 1 ∧ s.ups ≤ s.cmds ∧
    ∀ t, (s.phase t).inCommand = true → t = 1 := by
  obtain ⟨s, hs, hp⟩ := TransSys.exists_reach (S := channelSys) (s := .init)
    (P := fun s => decide (s.phase 1 = .down ⟨false, 0, 1⟩ 0 ∧
      s.lock.phase 2 = .blocked ∧ s.ups = 1))
    (fun _ _ _ h => ⟨trivial, ChannelAct.step_of_next h⟩) rfl
    [.call 1 ⟨false, 0, 1⟩, .run 1 true, .run 1 true, .run 1 true, .run 1 true, .run 1 true,
      .run 1 true, .run 1 true, .call 2 ⟨true, 8, 2⟩, .run 2 true, .run 2 true, .run 1 true,
      .run 1 true, .intr] (by decide)
  obtain ⟨h1, h2, hups⟩ := of_decide_eq_true hp
  obtain ⟨hone, hsince, hcmds, -⟩ := disk_completion hs
  refine ⟨s, hs, h1, h2, hups, hsince, hcmds, fun t ht => hone t 1 ht ?_⟩
  rw [h1]
  rfl

end

end X86Os
