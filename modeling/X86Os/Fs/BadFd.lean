import X86Os.Shell.Pipe

/-!
# Descriptors that are not open

`sys_read`, `sys_write`, `sys_close` and `sys_lseek` of a descriptor that is negative, past the end
of `fd_table` or on a slot that is free. The value comes from the user program as it is.

Each call has a test of its own on the sign of the descriptor, and `sys_read` refuses the two output
descriptors as well. What passes these tests goes to `is_pipe` or straight to `fd_local2global`,
which indexes `fd_table` with it and then asserts that the slot is in use. So a bad descriptor is
refused exactly where a call happens to return before that, and everywhere else it is an access past
the end of the table or a failed assertion.
-/

namespace X86Os

open X86Os.Comp FsState

/-! ### Reading -/

/-- The loops of `sys_read` and `pipe_read`, which take `left` characters from a ring buffer. What
it holds is not part of this state. -/
def takeChars : (left : ℕ) → (bytesRead : ℕ) → (dst : Buf) → Kern FsState Buf
  | 0, _, dst => pure dst
  | left + 1, bytesRead, dst => do
    let c ← uninit
    takeChars left (bytesRead + 1) fun k => if k = bytesRead then c.setWidth 8 else dst k

/-- `pipe_read`: no more than there is in the ring buffer. -/
def pipeRead (fd : Int) (dst : Buf) (count : Word) : Kern FsState (Word × Buf) := do
  let _ ← fdLocal2global fd
  let ioqLen ← uninit
  let size := if count.toNat < ioqLen.toNat then count else ioqLen
  let dst ← takeChars size.toNat 0 dst
  pure (size, dst)

/-- `sys_read` from the keyboard. -/
def readKeyboard (dst : Buf) (count : Word) : Kern FsState (Word × Buf) := do
  let dst ← takeChars count.toNat 0 dst
  pure (if count = 0 then -1 else count, dst)

/-- `sys_read` of a descriptor that is not 1 or 2. -/
def readFile (fd : Int) (dst : Buf) (count : Word) : Kern FsState (Word × Buf) := do
  let pipe ← isPipe fd
  if pipe then pipeRead fd dst count
  else if fd = 0 then readKeyboard dst count
  else do
    let g ← fdLocal2global fd
    fileRead g dst count

/-- `sys_read`: the value returned, and the buffer with what was read. The buffer is `none` for a
null pointer. -/
def sysRead (fd : Int) (buf : Option Buf) (count : Word) : Kern FsState (Word × Option Buf) :=
  match buf with
  | none => stop (.panic .sysRead)
  | some dst =>
    if fd < 0 ∨ fd = 1 ∨ fd = 2 then pure (-1, some dst)
    else do
      let (ret, dst) ← readFile fd dst count
      pure (ret, some dst)

/-! ### The calls -/

/-- The calls that take a descriptor. -/
inductive FdCall
  | read (buf : Option Buf) (count : Word)
  | write (buf : Buf) (count : Word)
  | close
  | lseek (offset : Word) (whence : Byte)

/-- The value that a call returns. -/
def FdCall.run (part : Partition) (fd : Int) : FdCall → Kern FsState Int
  | .read buf count => do
    let (ret, _) ← sysRead fd buf count
    pure ret.toInt
  | .write buf count => do
    let ret ← sysWrite part fd buf count
    pure ret.toInt
  | .close => sysClose fd
  | .lseek offset whence => do
    let ret ← sysLseek fd offset whence
    pure ret.toInt

/-- A descriptor that is not open: negative, past the end of `fd_table`, or on a free slot. -/
def BadFd (s : FsState) (fd : Int) : Prop :=
  fd < 0 ∨ (maxFilesOpenPerProc : Int) ≤ fd ∨ s.fdTable s.cur fd.toNat = -1

instance (s : FsState) (fd : Int) : Decidable (BadFd s fd) :=
  inferInstanceAs (Decidable (_ ∨ _ ∨ _))

/-- The call returns -1 and leaves everything as it was. -/
def Refuses (part : Partition) (s : FsState) (fd : Int) (call : FdCall) : Prop :=
  call.run part fd s = .ok (-1, s)

/-- The call returns before it looks at `fd_table`. -/
def FdCall.ReturnsEarly (fd : Int) : FdCall → Prop
  | .read buf _ => buf ≠ none ∧ (fd < 0 ∨ fd = 1 ∨ fd = 2)
  | .write _ _ => fd < 0
  | .close => fd ≤ 2
  | .lseek _ _ => fd < 0

section

variable {part : Partition} {s : FsState} {fd : Int}

/-- A bad descriptor does not get past `fd_local2global`. -/
theorem fdLocal2global_badFd (h : BadFd s fd) : ∃ f, fdLocal2global fd s = .error f := by
  by_cases hr : 0 ≤ fd ∧ fd < (maxFilesOpenPerProc : Int)
  · have hslot : s.fdTable s.cur fd.toNat = -1 := by
      obtain h | h | h := h
      · omega
      · omega
      · exact h
    refine ⟨.panic .fdLocal2global, ?_⟩
    rw [fdLocal2global, bind_of_ok (check_of_true _ s (decide_eq_true hr)),
      bind_of_ok (get_apply s),
      bind_apply, ASSERT, check, hslot]
    rfl
  · refine ⟨.wild, ?_⟩
    rw [fdLocal2global, bind_apply, check, if_neg (by simpa using hr)]

theorem isPipe_badFd (h : BadFd s fd) : ∃ f, isPipe fd s = .error f := by
  obtain ⟨f, hf⟩ := fdLocal2global_badFd h
  exact ⟨f, by rw [isPipe, bind_apply, hf]⟩

/-- What begins with a failing routine fails. -/
theorem bind_ne_ok {α β : Type} {x : Kern FsState α} {k : α → Kern FsState β}
    (h : ∃ f, x s = .error f) (r : β × FsState) : (x >>= k) s ≠ .ok r := by
  obtain ⟨f, hf⟩ := h
  rw [bind_apply, hf]
  exact nofun

theorem refuses_read (h : BadFd s fd) (buf : Option Buf) (count : Word) :
    Refuses part s fd (.read buf count) ↔ FdCall.ReturnsEarly fd (.read buf count) := by
  cases buf with
  | none => exact ⟨nofun, fun hc => absurd rfl hc.1⟩
  | some dst =>
    by_cases hfd : fd < 0 ∨ fd = 1 ∨ fd = 2
    · refine ⟨fun _ => ⟨nofun, hfd⟩, fun _ => ?_⟩
      rw [Refuses, FdCall.run, sysRead, if_pos hfd]
      rfl
    · refine ⟨fun hr => ?_, fun hc => absurd hc.2 hfd⟩
      rw [Refuses, FdCall.run, sysRead, if_neg hfd, readFile] at hr
      obtain ⟨f, hf⟩ := isPipe_badFd h
      simp only [bind_apply, hf] at hr
      cases hr

theorem refuses_write (h : BadFd s fd) (buf : Buf) (count : Word) :
    Refuses part s fd (.write buf count) ↔ FdCall.ReturnsEarly fd (.write buf count) := by
  by_cases hfd : fd < 0
  · refine ⟨fun _ => hfd, fun _ => ?_⟩
    rw [Refuses, FdCall.run, sysWrite, if_pos hfd]
    rfl
  · refine ⟨fun hr => ?_, fun hc => absurd hc hfd⟩
    rw [Refuses, FdCall.run, sysWrite, if_neg hfd] at hr
    obtain ⟨f, hf⟩ := isPipe_badFd h
    simp only [bind_apply, hf] at hr
    cases hr

theorem refuses_close (h : BadFd s fd) :
    Refuses part s fd .close ↔ FdCall.ReturnsEarly fd .close := by
  by_cases hfd : 2 < fd
  · refine ⟨fun hr => ?_, fun hc => absurd hc (not_le.mpr hfd)⟩
    rw [Refuses, FdCall.run, sysClose, if_pos hfd] at hr
    exact absurd hr (bind_ne_ok (fdLocal2global_badFd h) _)
  · refine ⟨fun _ => not_lt.mp hfd, fun _ => ?_⟩
    rw [Refuses, FdCall.run, sysClose, if_neg hfd]
    rfl

theorem refuses_lseek (h : BadFd s fd) (offset : Word) (whence : Byte) :
    Refuses part s fd (.lseek offset whence) ↔ FdCall.ReturnsEarly fd (.lseek offset whence) := by
  by_cases hfd : fd < 0
  · refine ⟨fun _ => hfd, fun _ => ?_⟩
    rw [Refuses, FdCall.run, sysLseek, if_pos hfd]
    rfl
  · refine ⟨fun hr => ?_, fun hc => absurd hc hfd⟩
    rw [Refuses, FdCall.run, sysLseek, if_neg hfd] at hr
    obtain ⟨ret, s1, hrun, -⟩ := bind_eq_ok.mp hr
    obtain ⟨_, s2, hassert, hrun⟩ := bind_eq_ok.mp hrun
    obtain ⟨-, rfl⟩ := ASSERT_eq_ok.mp hassert
    exact absurd hrun (bind_ne_ok (fdLocal2global_badFd h) _)

variable (part) in
/-- **Which calls refuse a bad descriptor**: those that return before they look at `fd_table`. -/
theorem refuses_iff (h : BadFd s fd) (call : FdCall) :
    Refuses part s fd call ↔ call.ReturnsEarly fd := by
  cases call with
  | read buf count => exact refuses_read h buf count
  | write buf count => exact refuses_write h buf count
  | close => exact refuses_close h
  | lseek offset whence => exact refuses_lseek h offset whence

end

/-- A process that closes descriptor 2. -/
theorem refuses_iff_close_two : BadFd { rootOnly with fdTable := fun _ _ => -1 } 2 ∧
    Refuses smallPart { rootOnly with fdTable := fun _ _ => -1 } 2 .close :=
  ⟨by decide, (refuses_iff smallPart (by decide) .close).mpr
    (by unfold FdCall.ReturnsEarly; decide)⟩

/-- Closing a descriptor that is not open halts the machine. -/
theorem close_not_open : BadFd rootOnly 5 ∧ ¬ Refuses smallPart rootOnly 5 .close := by
  have h : BadFd rootOnly 5 := by decide
  refine ⟨h, fun hr => ?_⟩
  have := (refuses_close h).mp hr
  rw [FdCall.ReturnsEarly] at this
  omega

end X86Os
