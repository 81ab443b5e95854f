import X86Os.Lib.TransSys
import X86Os.Thread.Task
import Mathlib.Data.List.Nodup
import Mathlib.Tactic.NormNum

/-!
# Locks

`lock_acquire` and `lock_release` of `thread/sync.c`, by any number of threads and with a thread
switch wherever interrupts are on. `sema_down` and `sema_up` turn them off, so an attempt at the
semaphore is one step; everything else the two functions do is not protected, so every load and
every store of `holder` and `holder_repeat_nr` is a step of its own, and an increment is two. A
thread is where it stands in that code, its `Phase`.

A thread that finds the semaphore taken queues itself and blocks inside `sema_down`. `sema_up` pops
the first waiter and makes it ready, but does not hand it the semaphore: the woken thread runs the
loop of `sema_down` again, and another thread may have been faster.

## The invariant

Who owns the lock cannot be read off `holder`, which lags behind at both ends of an outermost
acquire and release. A thread *owns* it from the decrement of the semaphore to its increment,
`LockState.Owns`. At most one thread owns it; what `holder` and `holder_repeat_nr` are while it does
is a function of its phase, `LockState.Local`; and nobody else's phase says anything about them.

The counter has 32 bits, so the nesting depth it counts has to stay below `2 ^ 32`.

## Main results

* `LockInv.run`, `lockInv_step` — each step keeps the invariant
* `lock_safe` — mutual exclusion, the nesting count, the wait queue, the wake-up and the `ASSERT`s
* `lock_wraps` — at depth `2 ^ 32` the counter has wrapped and the release fails its `ASSERT`
-/

namespace X86Os

/-- Where a thread is in `lock_acquire` or `lock_release`, by what it does next. -/
inductive Phase
  /-- In neither. -/
  | out
  /-- Compare `holder` with the running thread. -/
  | acqTest
  /-- Enter `sema_down`. -/
  | acqDown
  /-- Nothing: blocked in `sema_down`. -/
  | blocked
  /-- Made ready in `sema_down`: test the value again. -/
  | woken
  /-- Store `holder`. -/
  | acqHolder
  /-- `ASSERT(holder_repeat_nr == 0)`. -/
  | acqCheck
  /-- Store `1` in `holder_repeat_nr`. -/
  | acqStore
  /-- Load `holder_repeat_nr` for its increment. -/
  | acqLoad
  /-- Store the incremented value. -/
  | acqInc (nr : Word)
  /-- `ASSERT(holder == running_thread())`. -/
  | relCheck
  /-- Test `holder_repeat_nr > 1`. -/
  | relTest
  /-- Load `holder_repeat_nr` for its decrement. -/
  | relLoad
  /-- Store the decremented value. -/
  | relDec (nr : Word)
  /-- `ASSERT(holder_repeat_nr == 1)`. -/
  | relLast
  /-- Store `NULL` in `holder`. -/
  | relHolder
  /-- Store `0` in `holder_repeat_nr`. -/
  | relClear
  /-- Enter `sema_up`. -/
  | relUp
  deriving DecidableEq

/-- The lock, and each thread's phase and nesting depth: the acquires it has returned from less the
releases. -/
structure LockState where
  holder : Option ℕ
  holderRepeatNr : Word
  semaphore : Semaphore
  phase : ℕ → Phase
  depth : ℕ → ℕ

namespace LockState

/-- `lock_init`, with every thread outside. -/
def lockInit : LockState := ⟨none, 0, ⟨1, []⟩, fun _ => .out, fun _ => 0⟩

/-- Thread `t` moves on to `ph`. -/
def goto (s : LockState) (t : ℕ) (ph : Phase) : LockState :=
  { s with phase := Function.update s.phase t ph }

/-- Thread `t` leaves with nesting depth `d`. -/
def leave (s : LockState) (t d : ℕ) : LockState :=
  { s.goto t .out with depth := Function.update s.depth t d }

/-- A pass through the loop of `sema_down` by `t`. -/
def semaDown (s : LockState) (t : ℕ) : Except Fault LockState :=
  if s.semaphore.value = 0 then
    if t ∈ s.semaphore.waiters then .error (.panic .semaDown)
    else .ok { s.goto t .blocked with
      semaphore := { s.semaphore with waiters := s.semaphore.waiters ++ [t] } }
  else if s.semaphore.value - 1 = 0 then
    .ok { s.goto t .acqHolder with
      semaphore := { s.semaphore with value := s.semaphore.value - 1 } }
  else .error (.panic .semaDown)

/-- The waiter `sema_up` pops, and `thread_unblock` of it. -/
def semaWake (s : LockState) : Except Fault LockState :=
  match s.semaphore.waiters with
  | [] => .ok s
  | u :: rest =>
    if s.phase u = .blocked then
      .ok { s.goto u .woken with semaphore := { s.semaphore with waiters := rest } }
    else .error (.panic .threadUnblock)

/-- `sema_up` by `t`, which then returns from the outermost release. -/
def semaUp (s : LockState) (t : ℕ) : Except Fault LockState :=
  if s.semaphore.value = 0 then
    match s.semaWake with
    | .error f => .error f
    | .ok s =>
      if s.semaphore.value + 1 = 1 then
        .ok { s.leave t 0 with semaphore := { s.semaphore with value := s.semaphore.value + 1 } }
      else .error (.panic .semaUp)
  else .error (.panic .semaUp)

/-- What `t` does next. -/
def run (s : LockState) (t : ℕ) : Except Fault LockState :=
  match s.phase t with
  | .out | .blocked => .ok s
  | .acqTest => .ok (if s.holder ≠ some t then s.goto t .acqDown else s.goto t .acqLoad)
  | .acqDown | .woken => s.semaDown t
  | .acqHolder => .ok { s.goto t .acqCheck with holder := some t }
  | .acqCheck =>
    if s.holderRepeatNr = 0 then .ok (s.goto t .acqStore) else .error (.panic .lockAcquire)
  | .acqStore => .ok { s.leave t 1 with holderRepeatNr := 1 }
  | .acqLoad => .ok (s.goto t (.acqInc s.holderRepeatNr))
  | .acqInc nr => .ok { s.leave t (s.depth t + 1) with holderRepeatNr := nr + 1 }
  | .relCheck =>
    if s.holder = some t then .ok (s.goto t .relTest) else .error (.panic .lockRelease)
  | .relTest => .ok (if 1 < s.holderRepeatNr then s.goto t .relLoad else s.goto t .relLast)
  | .relLoad => .ok (s.goto t (.relDec s.holderRepeatNr))
  | .relDec nr => .ok { s.leave t (s.depth t - 1) with holderRepeatNr := nr - 1 }
  | .relLast =>
    if s.holderRepeatNr = 1 then .ok (s.goto t .relHolder) else .error (.panic .lockRelease)
  | .relHolder => .ok { s.goto t .relClear with holder := none }
  | .relClear => .ok { s.goto t .relUp with holderRepeatNr := 0 }
  | .relUp => s.semaUp t

end LockState

/-- The steps: a thread outside calls one of the two functions, or a thread inside goes on. -/
inductive LockAct
  | acquire (t : ℕ)
  | release (t : ℕ)
  | run (t : ℕ)

namespace LockAct

/-- The step. -/
def apply (s : LockState) : LockAct → Except Fault LockState
  | acquire t => .ok (s.goto t .acqTest)
  | release t => .ok (s.goto t .relCheck)
  | run t => s.run t

/-- Calls are properly nested, and a blocked thread does not run. -/
def Enabled (s : LockState) : LockAct → Prop
  | acquire t => s.phase t = .out
  | release t => s.phase t = .out ∧ 0 < s.depth t
  | run t => s.phase t ≠ .out ∧ s.phase t ≠ .blocked

/-- The acquire does not nest `2 ^ 32` deep. -/
def Shallow (s : LockState) : LockAct → Prop
  | acquire t => s.depth t + 1 < 2 ^ 32
  | _ => True

end LockAct

/-- Threads on one lock, from `lock_init`. -/
def lockSys : TransSys LockState LockAct where
  init s := s = .lockInit
  step s act s' := act.Enabled s ∧ act.apply s = .ok s'

/-! ### The invariant -/

namespace LockState

/-- Thread `t` has decremented the semaphore and not yet incremented it. -/
def Owns (s : LockState) (t : ℕ) : Prop :=
  0 < s.depth t ∨ s.phase t = .acqHolder ∨ s.phase t = .acqCheck ∨ s.phase t = .acqStore

/-- The lock records `t` with its nesting depth. -/
def Held (s : LockState) (t : ℕ) : Prop :=
  s.holder = some t ∧ s.holderRepeatNr.toNat = s.depth t

/-- What the phase of a thread says about the lock. -/
def Local (s : LockState) (t : ℕ) : Prop :=
  match s.phase t with
  | .out => 0 < s.depth t → s.Held t
  | .acqTest => s.depth t + 1 < 2 ^ 32 ∧ (0 < s.depth t → s.Held t)
  | .acqDown | .blocked | .woken => s.depth t = 0
  | .acqHolder => s.depth t = 0 ∧ s.holder = none ∧ s.holderRepeatNr = 0
  | .acqCheck | .acqStore => s.depth t = 0 ∧ s.holder = some t ∧ s.holderRepeatNr = 0
  | .acqLoad => 0 < s.depth t ∧ s.depth t + 1 < 2 ^ 32 ∧ s.Held t
  | .acqInc nr => 0 < s.depth t ∧ s.depth t + 1 < 2 ^ 32 ∧ s.Held t ∧ nr = s.holderRepeatNr
  | .relCheck | .relTest => 0 < s.depth t ∧ s.Held t
  | .relLoad => 1 < s.depth t ∧ s.Held t
  | .relDec nr => 1 < s.depth t ∧ s.Held t ∧ nr = s.holderRepeatNr
  | .relLast | .relHolder => s.depth t = 1 ∧ s.Held t
  | .relClear => s.depth t = 1 ∧ s.holder = none ∧ s.holderRepeatNr = 1
  | .relUp => s.depth t = 1 ∧ s.holder = none ∧ s.holderRepeatNr = 0

end LockState

open LockState

/-- The invariant. -/
structure LockInv (s : LockState) : Prop where
  phases : ∀ t, s.Local t
  owner_unique : ∀ t u, s.Owns t → s.Owns u → t = u
  value : s.semaphore.value = 1 ∧ (∀ t, ¬ s.Owns t) ∨ s.semaphore.value = 0 ∧ ∃ t, s.Owns t
  free : (∀ t, ¬ s.Owns t) → s.holder = none ∧ s.holderRepeatNr = 0
  holder_owns : ∀ t, s.holder = some t → s.Owns t
  waiters : s.semaphore.waiters.Nodup
  mem_waiters : ∀ t, t ∈ s.semaphore.waiters ↔ s.phase t = .blocked
  wake : s.semaphore.value = 1 → s.semaphore.waiters ≠ [] → ∃ t, s.phase t = .woken

theorem lockInit_inv : LockInv .lockInit := by
  constructor <;> simp [lockInit, Local, Owns]

variable {s s' : LockState} {t u : ℕ}

/-- The phase of a thread that does not own the lock says nothing about it. -/
theorem local_of_not_owns (h : s.Local u) (hn : ¬ s.Owns u) (hp : s'.phase u = s.phase u)
    (hd : s'.depth u = s.depth u) : s'.Local u := by
  unfold Local at h ⊢
  unfold Owns at hn
  rw [hp, hd]
  cases hph : s.phase u <;> simp_all

theorem local_congr (h : s.Local u) (hp : s'.phase u = s.phase u) (hd : s'.depth u = s.depth u)
    (hh : s'.holder = s.holder) (hn : s'.holderRepeatNr = s.holderRepeatNr) : s'.Local u := by
  unfold Local Held at h ⊢
  rw [hp, hd, hh, hn]
  exact h

theorem owns_congr (hp : s'.phase u = s.phase u) (hd : s'.depth u = s.depth u) :
    s'.Owns u ↔ s.Owns u := by
  unfold Owns
  rw [hp, hd]

/-- The steps outside the semaphore: `t` moves on, owns the lock after the step exactly if it did
before, and changes the lock's fields only if it does. -/
theorem LockInv.move (h : LockInv s) {p : Phase} {d : ℕ}
    (hp : s'.phase = Function.update s.phase t p) (hd : s'.depth = Function.update s.depth t d)
    (hsem : s'.semaphore = s.semaphore) (hown : s'.Owns t ↔ s.Owns t)
    (hshared : s'.holder = s.holder ∧ s'.holderRepeatNr = s.holderRepeatNr ∨
      s.Owns t ∧ ∀ u, s'.holder = some u → u = t)
    (hloc : s'.Local t) (hb : s.phase t ≠ .blocked) (hb' : p ≠ .blocked)
    (hw : s.phase t ≠ .woken) : LockInv s' := by
  have hpu : ∀ u, u ≠ t → s'.phase u = s.phase u := fun u hu => by
    rw [hp, Function.update_of_ne hu]
  have hdu : ∀ u, u ≠ t → s'.depth u = s.depth u := fun u hu => by
    rw [hd, Function.update_of_ne hu]
  have hpt : s'.phase t = p := by rw [hp, Function.update_self]
  have howns : ∀ u, s'.Owns u ↔ s.Owns u := fun u => by
    by_cases hu : u = t
    · subst hu; exact hown
    · exact owns_congr (hpu u hu) (hdu u hu)
  constructor
  case phases =>
    intro u
    by_cases hu : u = t
    · subst hu; exact hloc
    · rcases hshared with ⟨hh, hn⟩ | ⟨ht, -⟩
      · exact local_congr (h.phases u) (hpu u hu) (hdu u hu) hh hn
      · exact local_of_not_owns (h.phases u) (fun hou => hu (h.owner_unique u t hou ht)) (hpu u hu)
          (hdu u hu)
  case owner_unique =>
    intro u v hu hv
    exact h.owner_unique u v ((howns u).mp hu) ((howns v).mp hv)
  case value => simpa only [hsem, howns] using h.value
  case free =>
    intro hfree
    have hfree' : ∀ u, ¬ s.Owns u := fun u => mt (howns u).mpr (hfree u)
    rcases hshared with ⟨hh, hn⟩ | ⟨ht, -⟩
    · rw [hh, hn]; exact h.free hfree'
    · exact absurd ht (hfree' t)
  case holder_owns =>
    intro u hu
    rw [howns]
    rcases hshared with ⟨hh, -⟩ | ⟨ht, hh⟩
    · rw [hh] at hu; exact h.holder_owns u hu
    · rw [hh u hu]; exact ht
  case waiters => rw [hsem]; exact h.waiters
  case mem_waiters =>
    intro u
    rw [hsem, h.mem_waiters]
    by_cases hu : u = t
    · subst hu; simp [hb, hpt, hb']
    · rw [hpu u hu]
  case wake =>
    rw [hsem]
    intro hv hne
    obtain ⟨u, hu⟩ := h.wake hv hne
    have hut : u ≠ t := by rintro rfl; exact hw hu
    exact ⟨u, by rw [hpu u hut]; exact hu⟩

@[simp] theorem goto_phase (s : LockState) (t : ℕ) (ph : Phase) : (s.goto t ph).phase t = ph :=
  Function.update_self ..

@[simp] theorem goto_depth (s : LockState) (t : ℕ) (ph : Phase) : (s.goto t ph).depth = s.depth :=
  rfl

@[simp] theorem goto_holder (s : LockState) (t : ℕ) (ph : Phase) :
    (s.goto t ph).holder = s.holder := rfl

@[simp] theorem goto_holderRepeatNr (s : LockState) (t : ℕ) (ph : Phase) :
    (s.goto t ph).holderRepeatNr = s.holderRepeatNr := rfl

@[simp] theorem leave_phase (s : LockState) (t d : ℕ) : (s.leave t d).phase t = .out :=
  Function.update_self ..

@[simp] theorem leave_depth (s : LockState) (t d : ℕ) : (s.leave t d).depth t = d :=
  Function.update_self ..

@[simp] theorem leave_holder (s : LockState) (t d : ℕ) : (s.leave t d).holder = s.holder := rfl

/-- Moves that change nothing but the phase. -/
theorem LockInv.goto (h : LockInv s) {ph : Phase} (hown : (s.goto t ph).Owns t ↔ s.Owns t)
    (hloc : (s.goto t ph).Local t) (hb : s.phase t ≠ .blocked) (hb' : ph ≠ .blocked)
    (hw : s.phase t ≠ .woken) : LockInv (s.goto t ph) :=
  h.move (d := s.depth t) rfl (Function.update_eq_self t s.depth).symm rfl hown (.inl ⟨rfl, rfl⟩)
    hloc hb hb' hw

theorem goto_of_ne (s : LockState) {t u : ℕ} (ph : Phase) (hu : u ≠ t) :
    (s.goto t ph).phase u = s.phase u := Function.update_of_ne hu ..

theorem Held.holderRepeatNr (h : s.Held t) (hd : s.depth t = 1) : s.holderRepeatNr = 1 := by
  have hnr := h.2
  rw [hd] at hnr
  exact BitVec.eq_of_toNat_eq hnr

section

variable (h : LockInv s)

include h

/-- A thread about to test the semaphore does not own the lock. -/
theorem LockInv.not_owns (ht : s.phase t = .acqDown ∨ s.phase t = .woken) :
    s.depth t = 0 ∧ ¬ s.Owns t := by
  have hloc := h.phases t
  have hd : s.depth t = 0 := by rcases ht with ht | ht <;> simpa [Local, ht] using hloc
  refine ⟨hd, ?_⟩
  unfold Owns
  rcases ht with ht | ht <;> simp [hd, ht]

/-- The semaphore is taken: `t` queues itself. -/
theorem LockInv.block (ht : s.phase t = .acqDown ∨ s.phase t = .woken)
    (hv : s.semaphore.value = 0) :
    LockInv { s.goto t .blocked with
      semaphore := { s.semaphore with waiters := s.semaphore.waiters ++ [t] } } := by
  obtain ⟨hd, hn⟩ := h.not_owns ht
  have hmem : t ∉ s.semaphore.waiters := by
    rw [h.mem_waiters]; rcases ht with ht | ht <;> simp [ht]
  set s' : LockState := { s.goto t .blocked with
    semaphore := { s.semaphore with waiters := s.semaphore.waiters ++ [t] } }
  have hpt : s'.phase t = .blocked := goto_phase ..
  have hpu : ∀ u, u ≠ t → s'.phase u = s.phase u := fun u hu => goto_of_ne s .blocked hu
  have howns : ∀ u, s'.Owns u ↔ s.Owns u := fun u => by
    by_cases hu : u = t
    · subst hu; simp only [hn, iff_false]; unfold Owns; simp [hpt, show s'.depth u = 0 from hd]
    · exact owns_congr (hpu u hu) rfl
  constructor
  case phases =>
    intro u
    by_cases hu : u = t
    · subst hu; unfold Local; rw [hpt]; exact hd
    · exact local_congr (h.phases u) (hpu u hu) rfl rfl rfl
  case owner_unique =>
    intro u v hu hv
    exact h.owner_unique u v ((howns u).mp hu) ((howns v).mp hv)
  case value =>
    simp only [howns]
    exact h.value
  case free => simp only [howns]; exact h.free
  case holder_owns => simp only [howns]; exact h.holder_owns
  case waiters =>
    refine List.nodup_append.mpr ⟨h.waiters, by simp, fun a ha c hc => ?_⟩
    rw [List.mem_singleton.mp hc]
    rintro rfl
    exact hmem ha
  case mem_waiters =>
    intro u
    change u ∈ s.semaphore.waiters ++ [t] ↔ _
    rw [List.mem_append, List.mem_singleton, h.mem_waiters]
    by_cases hu : u = t
    · subst hu; simp [hpt]
    · simp [hpu u hu, hu]
  case wake =>
    intro hv'
    rw [show s'.semaphore.value = s.semaphore.value from rfl, hv] at hv'
    cases hv'

theorem LockInv.take (ht : s.phase t = .acqDown ∨ s.phase t = .woken) (hv : s.semaphore.value = 1) :
    LockInv { s.goto t .acqHolder with
      semaphore := { s.semaphore with value := s.semaphore.value - 1 } } := by
  obtain ⟨hd, -⟩ := h.not_owns ht
  have hnone : ∀ u, ¬ s.Owns u := by
    rcases h.value with ⟨-, hn⟩ | ⟨h0, -⟩
    · exact hn
    · rw [hv] at h0; cases h0
  obtain ⟨hh, hnr⟩ := h.free hnone
  have hv0 : s.semaphore.value - 1 = 0 := by rw [hv]; rfl
  set s' : LockState := { s.goto t .acqHolder with
    semaphore := { s.semaphore with value := s.semaphore.value - 1 } }
  have hpt : s'.phase t = .acqHolder := goto_phase ..
  have hpu : ∀ u, u ≠ t → s'.phase u = s.phase u := fun u hu => goto_of_ne s .acqHolder hu
  have howns : ∀ u, s'.Owns u ↔ u = t := fun u => by
    by_cases hu : u = t
    · subst hu; simp [Owns, hpt]
    · simp only [hu, iff_false]; exact mt (owns_congr (hpu u hu) rfl).mp (hnone u)
  constructor
  case phases =>
    intro u
    by_cases hu : u = t
    · subst hu; unfold Local; rw [hpt]; exact ⟨hd, hh, hnr⟩
    · exact local_congr (h.phases u) (hpu u hu) rfl rfl rfl
  case owner_unique => intro u v hu hv; rw [(howns u).mp hu, (howns v).mp hv]
  case value => exact .inr ⟨hv0, t, (howns t).mpr rfl⟩
  case free => intro hfree; exact absurd ((howns t).mpr rfl) (hfree t)
  case holder_owns => intro u hu; rw [show s'.holder = s.holder from rfl, hh] at hu; cases hu
  case waiters => exact h.waiters
  case mem_waiters =>
    intro u
    rw [show s'.semaphore.waiters = s.semaphore.waiters from rfl, h.mem_waiters]
    by_cases hu : u = t
    · subst hu; rcases ht with ht | ht <;> simp [ht, hpt]
    · rw [hpu u hu]
  case wake =>
    intro hv'
    rw [show s'.semaphore.value = 0 from hv0] at hv'
    cases hv'

/-- `sema_up` wakes the first waiter, if there is one. -/
theorem LockInv.wakes :
    ∃ s1, s.semaWake = .ok s1 ∧ s1.holder = s.holder ∧ s1.holderRepeatNr = s.holderRepeatNr ∧
      s1.depth = s.depth ∧ s1.semaphore.value = s.semaphore.value ∧ s1.semaphore.waiters.Nodup ∧
      (∀ u, u ∈ s1.semaphore.waiters ↔ s1.phase u = .blocked) ∧
      (∀ u, s1.phase u = s.phase u ∨ s.phase u = .blocked ∧ s1.phase u = .woken) ∧
      (s1.semaphore.waiters ≠ [] → ∃ u, s1.phase u = .woken) := by
  unfold LockState.semaWake
  cases hw : s.semaphore.waiters with
  | nil =>
    exact ⟨s, rfl, rfl, rfl, rfl, rfl, h.waiters, h.mem_waiters, fun _ => .inl rfl,
      fun hne => absurd hw hne⟩
  | cons v rest =>
    have hnd := h.waiters
    rw [hw, List.nodup_cons] at hnd
    have hv : s.phase v = .blocked := (h.mem_waiters v).mp (by simp [hw])
    have hpv : (s.goto v .woken).phase v = .woken := goto_phase ..
    simp only [if_pos hv]
    refine ⟨_, rfl, rfl, rfl, rfl, rfl, hnd.2, fun u => ?_, fun u => ?_, fun _ => ⟨v, hpv⟩⟩
    · change u ∈ rest ↔ (s.goto v .woken).phase u = .blocked
      by_cases hu : u = v
      · subst hu; simp [hnd.1]
      · rw [goto_of_ne s _ hu, ← h.mem_waiters, hw, List.mem_cons]
        simp [hu]
    · change (s.goto v .woken).phase u = _ ∨ _ ∧ (s.goto v .woken).phase u = _
      by_cases hu : u = v
      · subst hu; exact .inr ⟨hv, hpv⟩
      · exact .inl (goto_of_ne s _ hu)

theorem LockInv.up (ht : s.phase t = .relUp) : ∃ s', s.semaUp t = .ok s' ∧ LockInv s' := by
  have hloc := h.phases t
  rw [Local, ht] at hloc
  obtain ⟨hd, hh, hnr⟩ := hloc
  have howner : s.Owns t := .inl (by omega)
  have hv : s.semaphore.value = 0 := by
    rcases h.value with ⟨-, hn⟩ | ⟨h0, -⟩
    · exact absurd howner (hn t)
    · exact h0
  obtain ⟨s1, hs1, hh1, hnr1, hd1, hval, hnd, hmem, hph, hwk⟩ := h.wakes
  have hv1 : s1.semaphore.value + 1 = 1 := by rw [hval, hv]; rfl
  have hpt1 : s1.phase t = .relUp := by
    rcases hph t with h' | ⟨h', -⟩
    · rw [h', ht]
    · rw [ht] at h'; cases h'
  set s' : LockState := { s1.leave t 0 with
    semaphore := { s1.semaphore with value := s1.semaphore.value + 1 } } with hs'
  have hpt : s'.phase t = .out := goto_phase ..
  have hpu : ∀ u, u ≠ t → s'.phase u = s1.phase u := fun u hu => goto_of_ne s1 .out hu
  have hdt : s'.depth t = 0 := Function.update_self ..
  have hdu : ∀ u, u ≠ t → s'.depth u = s.depth u := fun u hu => by
    rw [← hd1]; exact Function.update_of_ne hu ..
  have hother : ∀ u, u ≠ t → ¬ s.Owns u := fun u hu hou => hu (h.owner_unique u t hou howner)
  have hlocal : ∀ u, s'.Local u ∧ ¬ s'.Owns u := fun u => by
    by_cases hu : u = t
    · subst hu; simp [Local, Owns, hpt, hdt]
    · rcases hph u with hsame | ⟨hbl, hwo⟩
      · have hp := (hpu u hu).trans hsame
        exact ⟨local_of_not_owns (h.phases u) (hother u hu) hp (hdu u hu),
          mt (owns_congr hp (hdu u hu)).mp (hother u hu)⟩
      · have hdz := h.phases u
        rw [Local, hbl] at hdz
        have hp := (hpu u hu).trans hwo
        simp [Local, Owns, hp, hdu u hu, hdz]
  refine ⟨s', by simp [LockState.semaUp, hv, hs1, hval, hs'], ?_⟩
  constructor
  case phases => exact fun u => (hlocal u).1
  case owner_unique => exact fun u _ hu => absurd hu (hlocal u).2
  case value => exact .inl ⟨hv1, fun u => (hlocal u).2⟩
  case free => exact fun _ => ⟨hh1.trans hh, hnr1.trans hnr⟩
  case holder_owns =>
    intro u hu
    rw [show s'.holder = none from hh1.trans hh] at hu
    cases hu
  case waiters => exact hnd
  case mem_waiters =>
    intro u
    rw [show s'.semaphore.waiters = s1.semaphore.waiters from rfl, hmem]
    by_cases hu : u = t
    · subst hu; simp [hpt, hpt1]
    · rw [hpu u hu]
  case wake =>
    intro _ hne
    obtain ⟨u, hu⟩ := hwk hne
    have hut : u ≠ t := by rintro rfl; rw [hpt1] at hu; cases hu
    exact ⟨u, by rw [hpu u hut]; exact hu⟩

/-- A test of the semaphore: taken or queued. -/
theorem LockInv.down (ht : s.phase t = .acqDown ∨ s.phase t = .woken) :
    ∃ s', s.semaDown t = .ok s' ∧ LockInv s' := by
  have hmem : t ∉ s.semaphore.waiters := by
    rw [h.mem_waiters]; rcases ht with ht | ht <;> simp [ht]
  unfold LockState.semaDown
  rcases h.value with ⟨hv, -⟩ | ⟨hv, -⟩
  · refine ⟨_, ?_, h.take ht hv⟩
    rw [if_neg (by simp [hv]), if_pos (by rw [hv]; rfl)]
  · refine ⟨_, ?_, h.block ht hv⟩
    rw [if_pos hv, if_neg hmem]

/-! ### The other phases -/

theorem LockInv.acqTest (hp : s.phase t = .acqTest) :
    LockInv (if s.holder ≠ some t then s.goto t .acqDown else s.goto t .acqLoad) := by
  have hloc := h.phases t
  rw [Local, hp] at hloc
  split
  · rename_i hne
    have hd : s.depth t = 0 := by
      by_contra hpos
      exact hne (hloc.2 (by omega)).1
    exact h.goto (by simp [Owns, hp]) (by simp [Local, hd]) (by simp [hp]) (by simp) (by simp [hp])
  · rename_i heq
    have hpos : 0 < s.depth t := by
      simpa [Owns, hp] using h.holder_owns t (not_not.mp heq)
    refine h.goto (by simp [Owns, hp]) ?_ (by simp [hp]) (by simp) (by simp [hp])
    simpa [Local, hpos, Held] using ⟨hloc.1, hloc.2 hpos⟩

theorem LockInv.acqHolder (hp : s.phase t = .acqHolder) :
    LockInv { s.goto t .acqCheck with holder := some t } := by
  have hloc := h.phases t
  rw [Local, hp] at hloc
  refine h.move (p := .acqCheck) (d := s.depth t) rfl (by simp) rfl ?_ (.inr ⟨?_, ?_⟩) ?_
    (by simp [hp]) (by simp) (by simp [hp])
  · simp [Owns, hp]
  · simp [Owns, hp]
  · simp [eq_comm]
  · simp [Local, hloc]

theorem LockInv.acqStore (hp : s.phase t = .acqStore) :
    LockInv { s.leave t 1 with holderRepeatNr := 1 } := by
  have hloc := h.phases t
  rw [Local, hp] at hloc
  refine h.move (p := .out) (d := 1) rfl rfl rfl ?_ (.inr ⟨?_, ?_⟩) ?_ (by simp [hp]) (by simp)
    (by simp [hp])
  · simp [Owns, hp]
  · simp [Owns, hp]
  · simp [hloc, eq_comm]
  · simp [Local, Held, hloc]

/-- The depth is counted, as long as it has 32 bits. -/
theorem LockInv.acqInc {nr : Word} (hp : s.phase t = .acqInc nr) :
    LockInv { s.leave t (s.depth t + 1) with holderRepeatNr := nr + 1 } := by
  have hloc := h.phases t
  rw [Local, hp] at hloc
  obtain ⟨hpos, hlt, ⟨hholder, hnr⟩, rfl⟩ := hloc
  refine h.move (p := .out) (d := s.depth t + 1) rfl rfl rfl ?_ (.inr ⟨?_, ?_⟩) ?_ (by simp [hp])
    (by simp) (by simp [hp])
  · simp [Owns, hpos]
  · simp [Owns, hpos]
  · simp [hholder, eq_comm]
  · simp only [Local, leave_phase, leave_depth, Held, leave_holder, hholder, true_and]
    intro _
    rw [BitVec.toNat_add, hnr]
    exact Nat.mod_eq_of_lt hlt

theorem LockInv.relTest (hp : s.phase t = .relTest) :
    LockInv (if 1 < s.holderRepeatNr then s.goto t .relLoad else s.goto t .relLast) := by
  have hloc := h.phases t
  rw [Local, hp] at hloc
  obtain ⟨hpos, hheld⟩ := hloc
  have hnr := hheld.2
  split
  · rename_i hgt
    refine h.goto (by simp [Owns, hp]) ?_ (by simp [hp]) (by simp) (by simp [hp])
    have : 1 < s.depth t := by rw [← hnr]; exact hgt
    simpa [Local, Held, this] using hheld
  · rename_i hle
    refine h.goto (by simp [Owns, hp]) ?_ (by simp [hp]) (by simp) (by simp [hp])
    have : s.depth t = 1 := by
      have : ¬ 1 < s.depth t := by rw [← hnr]; exact hle
      omega
    simpa [Local, Held, this] using hheld

theorem LockInv.relDec {nr : Word} (hp : s.phase t = .relDec nr) :
    LockInv { s.leave t (s.depth t - 1) with holderRepeatNr := nr - 1 } := by
  have hloc := h.phases t
  rw [Local, hp] at hloc
  obtain ⟨hpos, ⟨hholder, hnr⟩, rfl⟩ := hloc
  refine h.move (p := .out) (d := s.depth t - 1) rfl rfl rfl ?_ (.inr ⟨?_, ?_⟩) ?_ (by simp [hp])
    (by simp) (by simp [hp])
  · simp [Owns, hp]; omega
  · simp [Owns]; omega
  · simp [hholder, eq_comm]
  · simp only [Local, leave_phase, leave_depth, Held, leave_holder, hholder, true_and]
    intro _
    bv_omega

theorem LockInv.relHolder (hp : s.phase t = .relHolder) :
    LockInv { s.goto t .relClear with holder := none } := by
  have hloc := h.phases t
  rw [Local, hp] at hloc
  obtain ⟨hd, hheld⟩ := hloc
  refine h.move (p := .relClear) (d := s.depth t) rfl (by simp) rfl ?_ (.inr ⟨?_, ?_⟩) ?_
    (by simp [hp]) (by simp) (by simp [hp])
  · simp [Owns, hp]
  · simp [Owns, hd]
  · simp
  · simp [Local, hd, Held.holderRepeatNr hheld hd]

theorem LockInv.relClear (hp : s.phase t = .relClear) :
    LockInv { s.goto t .relUp with holderRepeatNr := 0 } := by
  have hloc := h.phases t
  rw [Local, hp] at hloc
  refine h.move (p := .relUp) (d := s.depth t) rfl (by simp) rfl ?_ (.inr ⟨?_, ?_⟩) ?_
    (by simp [hp]) (by simp) (by simp [hp])
  · simp [Owns, hp]
  · simp [Owns, hloc]
  · simp [hloc]
  · simp [Local, hloc]

end

/-- A thread inside runs on: it does not fail an `ASSERT`, and the invariant is kept. -/
theorem LockInv.run (h : LockInv s) (ht : s.phase t ≠ .out) (hb : s.phase t ≠ .blocked) :
    ∃ s', s.run t = .ok s' ∧ LockInv s' := by
  have hloc := h.phases t
  unfold LockState.run
  cases hp : s.phase t with
  | out => exact absurd hp ht
  | blocked => exact absurd hp hb
  | acqTest => exact ⟨_, rfl, h.acqTest hp⟩
  | acqDown => exact h.down (.inl hp)
  | woken => exact h.down (.inr hp)
  | acqHolder => exact ⟨_, rfl, h.acqHolder hp⟩
  | acqCheck =>
    rw [Local, hp] at hloc
    refine ⟨_, if_pos hloc.2.2, h.goto (by simp [Owns, hp]) ?_ hb (by simp) (by simp [hp])⟩
    simp [Local, hloc]
  | acqStore => exact ⟨_, rfl, h.acqStore hp⟩
  | acqLoad =>
    rw [Local, hp] at hloc
    refine ⟨_, rfl, h.goto (by simp [Owns, hp]) ?_ hb (by simp) (by simp [hp])⟩
    simpa [Local, Held] using hloc
  | acqInc nr => exact ⟨_, rfl, h.acqInc hp⟩
  | relCheck =>
    rw [Local, hp] at hloc
    refine ⟨_, if_pos hloc.2.1, h.goto (by simp [Owns, hp]) ?_ hb (by simp) (by simp [hp])⟩
    simpa [Local, Held] using hloc
  | relTest => exact ⟨_, rfl, h.relTest hp⟩
  | relLoad =>
    rw [Local, hp] at hloc
    refine ⟨_, rfl, h.goto (by simp [Owns, hp]) ?_ hb (by simp) (by simp [hp])⟩
    simpa [Local, Held] using hloc
  | relDec nr => exact ⟨_, rfl, h.relDec hp⟩
  | relLast =>
    rw [Local, hp] at hloc
    obtain ⟨hd, hheld⟩ := hloc
    refine ⟨_, if_pos (Held.holderRepeatNr hheld hd), h.goto (by simp [Owns, hp]) ?_ hb (by simp)
      (by simp [hp])⟩
    simpa [Local, Held, hd] using hheld
  | relHolder => exact ⟨_, rfl, h.relHolder hp⟩
  | relClear => exact ⟨_, rfl, h.relClear hp⟩
  | relUp => exact h.up hp

/-! ### Runs -/

/-- **One step** does not fail an `ASSERT`, and keeps the invariant unless it nests too deep. -/
theorem lockInv_step (h : LockInv s) {act : LockAct} (he : act.Enabled s) :
    ∃ s', act.apply s = .ok s' ∧ (act.Shallow s → LockInv s') := by
  cases act with
  | acquire t =>
    have hp : s.phase t = .out := he
    have hloc := h.phases t
    rw [Local, hp] at hloc
    refine ⟨_, rfl, fun hsh => h.goto (by simp [Owns, hp]) ?_ (by simp [hp]) (by simp)
      (by simp [hp])⟩
    simpa [Local, Held] using ⟨hsh, hloc⟩
  | release t =>
    obtain ⟨hp, hpos⟩ := he
    have hloc := h.phases t
    rw [Local, hp] at hloc
    refine ⟨_, rfl, fun _ => h.goto (by simp [Owns, hp]) ?_ (by simp [hp]) (by simp)
      (by simp [hp])⟩
    simpa [Local, Held, hpos] using hloc hpos
  | run t =>
    obtain ⟨s', hrun, hinv⟩ := h.run he.1 he.2
    exact ⟨s', hrun, fun _ => hinv⟩

theorem lockInv (h : lockSys.Reach (fun s act => act.Shallow s) s) : LockInv s := by
  refine TransSys.Reach.invariant (S := lockSys) (I := LockInv) ?_ ?_ h
  · rintro s rfl
    exact lockInit_inv
  · rintro s act s' hs hok ⟨he, hrun⟩
    obtain ⟨s'', hrun', hinv⟩ := lockInv_step hs he
    obtain rfl := Except.ok.inj (hrun.symm.trans hrun')
    exact hinv hok

instance (s : LockState) : (act : LockAct) → Decidable (act.Enabled s)
  | .acquire t => inferInstanceAs (Decidable (s.phase t = .out))
  | .release t => inferInstanceAs (Decidable (s.phase t = .out ∧ 0 < s.depth t))
  | .run t => inferInstanceAs (Decidable (s.phase t ≠ .out ∧ s.phase t ≠ .blocked))

instance (s : LockState) : (act : LockAct) → Decidable (act.Shallow s)
  | .acquire t => inferInstanceAs (Decidable (s.depth t + 1 < 2 ^ 32))
  | .release _ => .isTrue trivial
  | .run _ => .isTrue trivial

theorem eq_ok_of_toOption {α : Type} {x : Except Fault α} {a : α} (h : x.toOption = some a) :
    x = .ok a := by
  cases x with
  | error f => cases h
  | ok b => cases h; rfl

/-- The step, where there is one. -/
def LockAct.next (s : LockState) (act : LockAct) : Option LockState :=
  if act.Enabled s ∧ act.Shallow s then (act.apply s).toOption else none

theorem LockAct.step_of_next {act : LockAct} (h : act.next s = some s') :
    act.Shallow s ∧ lockSys.step s act s' := by
  rw [LockAct.next] at h
  split at h
  · rename_i hen
    exact ⟨hen.2, hen.1, eq_ok_of_toOption h⟩
  · cases h

/-- **Locks are safe** in every run that never nests `2 ^ 32` deep. At most one thread is between
its outermost acquire and release, and `holder_repeat_nr` is its nesting depth (until its outermost
release has cleared it); the semaphore is `0` or `1`; a blocked thread is in the wait queue once; no
`ASSERT` fails; and when the semaphore is free while threads wait, a woken thread is about to test
it. -/
theorem lock_safe (h : lockSys.Reach (fun s act => act.Shallow s) s) :
    (∀ t u, 0 < s.depth t → 0 < s.depth u → t = u) ∧
    (∀ t, 0 < s.depth t → s.phase t ≠ .relUp → s.holderRepeatNr.toNat = s.depth t) ∧
    (s.semaphore.value = 0 ∨ s.semaphore.value = 1) ∧
    (∀ t, s.phase t = .blocked → s.semaphore.waiters.count t = 1) ∧
    (∀ (act : LockAct) (f : Fault), act.Enabled s → act.apply s ≠ .error f) ∧
    (s.semaphore.value = 1 → s.semaphore.waiters ≠ [] → ∃ t, s.phase t = .woken) := by
  have hinv := lockInv h
  refine ⟨fun t u ht hu => hinv.owner_unique t u (.inl ht) (.inl hu), fun t ht hne => ?_, ?_,
    fun t ht => ?_, fun act f he hf => ?_, hinv.wake⟩
  · have hloc := hinv.phases t
    unfold Local Held at hloc
    cases hp : s.phase t <;> simp_all
  · exact hinv.value.symm.imp And.left And.left
  · exact List.nodup_iff_count_eq_one.mp hinv.waiters t ((hinv.mem_waiters t).mpr ht)
  · obtain ⟨s', hrun, -⟩ := lockInv_step hinv he
    rw [hf] at hrun
    cases hrun

/-- Thread 0 holds the lock, two deep, and thread 1 waits for it. -/
theorem lock_safe_contended : ∃ s, lockSys.Reach (fun s act => act.Shallow s) s ∧
    s.depth 0 = 2 ∧ s.phase 1 = .blocked ∧ s.holderRepeatNr.toNat = 2 ∧
    s.semaphore.waiters.count 1 = 1 ∧ ∀ t, 0 < s.depth t → t = 0 := by
  obtain ⟨s, hs, hp⟩ := TransSys.exists_reach (S := lockSys) (s := lockInit)
    (P := fun s => decide (s.depth 0 = 2 ∧ s.phase 0 = .out ∧ s.phase 1 = .blocked))
    (fun _ _ _ => LockAct.step_of_next) rfl
    [.acquire 0, .run 0, .run 0, .run 0, .run 0, .run 0, .acquire 0, .run 0, .run 0, .run 0,
      .acquire 1, .run 1, .run 1] (by decide)
  obtain ⟨hd, h0, h1⟩ := of_decide_eq_true hp
  obtain ⟨hone, hnr, -, hcount, -⟩ := lock_safe hs
  refine ⟨s, hs, hd, h1, ?_, hcount 1 h1, fun t ht => hone t 0 ht (by omega)⟩
  rw [hnr 0 (by omega) (by rw [h0]; decide), hd]

/-! ### Nesting too deep -/

/-- Thread `0` is in phase `ph` at depth `d`, and nobody else is there. -/
def solo (ph : Phase) (holder : Option ℕ) (nr : Word) (value : Byte) (d : ℕ) : LockState :=
  ⟨holder, nr, ⟨value, []⟩, fun t => if t = 0 then ph else .out, fun t => if t = 0 then d else 0⟩

section

variable {ph ph' : Phase} {hd : Option ℕ} {nr : Word} {v : Byte} {d d' : ℕ}

@[simp] theorem solo_phase : (solo ph hd nr v d).phase 0 = ph := rfl

@[simp] theorem solo_goto : (solo ph hd nr v d).goto 0 ph' = solo ph' hd nr v d := by
  simp only [LockState.goto, solo, LockState.mk.injEq, true_and, and_true]
  funext t
  by_cases ht : t = 0 <;> simp [ht]

@[simp] theorem solo_leave : (solo ph hd nr v d).leave 0 d' = solo .out hd nr v d' := by
  simp only [LockState.leave, solo_goto]
  simp only [solo, LockState.mk.injEq, true_and]
  funext t
  by_cases ht : t = 0 <;> simp [ht]

theorem reach_solo {s' : LockState} (h : lockSys.Reachable (solo ph hd nr v d)) (ho : ph ≠ .out)
    (hb : ph ≠ .blocked) (hr : (solo ph hd nr v d).run 0 = .ok s') : lockSys.Reachable s' :=
  .step (l := .run 0) h trivial ⟨⟨ho, hb⟩, hr⟩

theorem reach_solo_acquire (h : lockSys.Reachable (solo .out hd nr v d)) :
    lockSys.Reachable (solo .acqTest hd nr v d) :=
  .step (l := .acquire 0) h trivial ⟨rfl, by simp [LockAct.apply]⟩

theorem reach_solo_release (h : lockSys.Reachable (solo .out hd nr v d)) (hd' : 0 < d) :
    lockSys.Reachable (solo .relCheck hd nr v d) :=
  .step (l := .release 0) h trivial ⟨⟨rfl, hd'⟩, by simp [LockAct.apply]⟩

end

theorem reach_nested_one : lockSys.Reachable (solo .out (some 0) 1 0 1) := by
  have h0 : lockSys.Reachable (solo .out none 0 1 0) := .init (by
    change solo .out none 0 1 0 = lockInit
    simp [solo, lockInit])
  have h1 := reach_solo_acquire h0
  have h2 : lockSys.Reachable (solo .acqDown none 0 1 0) :=
    reach_solo h1 (by simp) (by simp) (by simp only [LockState.run, solo_phase, solo_goto]; rfl)
  have h3 : lockSys.Reachable (solo .acqHolder none 0 0 0) :=
    reach_solo h2 (by simp) (by simp)
      (by simp only [LockState.run, solo_phase, LockState.semaDown, solo_goto]; rfl)
  have h4 : lockSys.Reachable (solo .acqCheck (some 0) 0 0 0) :=
    reach_solo h3 (by simp) (by simp) (by simp only [LockState.run, solo_phase, solo_goto]; rfl)
  have h5 : lockSys.Reachable (solo .acqStore (some 0) 0 0 0) :=
    reach_solo h4 (by simp) (by simp) (by simp only [LockState.run, solo_phase, solo_goto]; rfl)
  exact reach_solo h5 (by simp) (by simp)
    (by simp only [LockState.run, solo_phase, solo_leave]; rfl)

theorem reach_nested (n : ℕ) :
    lockSys.Reachable (solo .out (some 0) (BitVec.ofNat 32 (n + 1)) 0 (n + 1)) := by
  induction n with
  | zero => exact reach_nested_one
  | succ n ih =>
    have h1 := reach_solo_acquire ih
    have h2 : lockSys.Reachable
        (solo .acqLoad (some 0) (BitVec.ofNat 32 (n + 1)) 0 (n + 1)) :=
      reach_solo h1 (by simp) (by simp) (by simp only [LockState.run, solo_phase, solo_goto]; rfl)
    have h3 : lockSys.Reachable (solo (.acqInc (BitVec.ofNat 32 (n + 1))) (some 0)
        (BitVec.ofNat 32 (n + 1)) 0 (n + 1)) :=
      reach_solo h2 (by simp) (by simp) (by simp only [LockState.run, solo_phase, solo_goto]; rfl)
    refine reach_solo h3 (by simp) (by simp) ?_
    have hadd : BitVec.ofNat 32 (n + 1) + 1 = BitVec.ofNat 32 (n + 1 + 1) := by
      rw [BitVec.ofNat_add (n + 1) 1]; rfl
    rw [← hadd]
    simp only [LockState.run, solo_phase, solo_leave]
    rfl

/-- **The counter wraps.** After `2 ^ 32` nested acquires `holder_repeat_nr` is `0`, and the next
release fails `ASSERT(holder_repeat_nr == 1)`. -/
theorem lock_wraps :
    (∃ s, lockSys.Reachable s ∧ s.phase 0 = .out ∧ s.depth 0 = 2 ^ 32 ∧
      s.holderRepeatNr.toNat ≠ s.depth 0) ∧
    ∃ s act, lockSys.Reachable s ∧ LockAct.Enabled s act ∧
      act.apply s = .error (.panic .lockRelease) := by
  have h : lockSys.Reachable (solo .out (some 0) 0 0 (2 ^ 32)) := by
    have h := reach_nested (2 ^ 32 - 1)
    rw [show 2 ^ 32 - 1 + 1 = 2 ^ 32 by norm_num] at h
    exact h
  refine ⟨⟨_, h, rfl, rfl, by simp [solo]⟩, ?_⟩
  have h1 := reach_solo_release h (by decide)
  have h2 : lockSys.Reachable (solo .relTest (some 0) 0 0 (2 ^ 32)) :=
    reach_solo h1 (by simp) (by simp) (by simp only [LockState.run, solo_phase, solo_goto]; rfl)
  have h3 : lockSys.Reachable (solo .relLast (some 0) 0 0 (2 ^ 32)) :=
    reach_solo h2 (by simp) (by simp) (by simp only [LockState.run, solo_phase, solo_goto]; rfl)
  exact ⟨_, .run 0, h3, ⟨by simp, by simp⟩, rfl⟩

end X86Os
