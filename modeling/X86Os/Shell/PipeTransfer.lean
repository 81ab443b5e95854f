import X86Os.Device.IoQueue

/-!
# Reading from and writing to a pipe

`pipe_read` and `pipe_write` decide beforehand how much they move, so that they need not wait: not
more than there is, and not more than there is room for. They run with interrupts off, and a shell
starts the reader of a pipeline only when the writer is done, so a call that does wait waits for
good.

The ring buffer keeps one of its slots free, which `ioq_length` does not count and `pipe_write` does
not take into account: `bufsize - ioq_length` is one more than there is room for. So `pipe_read`
never waits, and `pipe_write` does exactly if it is given more than fits.

A call of `ioq_getchar` or `ioq_putchar` is the code of `IoQueue` up to where the thread blocks or
returns; if it blocks it is a `hang` here, where nobody else runs. The queue is the one that the
descriptor refers to.

## Main results

* `pipeRead_delivers` — `pipe_read` returns what there is
* `pipeWrite_appends`, `pipeWrite_hangs` — `pipe_write` returns if all of it fits, and only then
* `pipe_transfers_iff` — the two together
* `AtRest.code` — what a thread does with a queue from one place where it blocks to the next
* `ioq_never_fails` — **no assertion fails in any run**
* `pipe_after_run` — **a pipe delivers what was sent**, after any run
-/

namespace X86Os.PipeIo

open X86Os.Comp

/-! ### The code -/

/-- A call on the queue by thread `t`, with nobody else running. -/
def ioqCall (t : ℕ) (call : IoqCall) : Kern IoqState Unit := do
  ioqLoop t call
  let s ← get
  check (s.phase t = .out) .hang

/-- `ioq_putchar`. -/
def ioqPutchar (t : ℕ) (byte : Byte) : Kern IoqState Unit := ioqCall t (.putchar byte)

/-- `ioq_getchar`. -/
def ioqGetchar (t : ℕ) : Kern IoqState Byte := do
  ioqCall t .getchar
  let s ← get
  pure (s.received.getLast?.getD 0)

/-- The loop of `pipe_read`, with `left` bytes to go. -/
def readChars (t : ℕ) : (left : ℕ) → (bytesRead : ℕ) → (buffer : Buf) → Kern IoqState Buf
  | 0, _, buffer => pure buffer
  | left + 1, bytesRead, buffer => do
    let byte ← ioqGetchar t
    readChars t left (bytesRead + 1) (Function.update buffer bytesRead byte)

/-- `size` in `pipe_read`. -/
@[irreducible] def readSize (ioq : IoQueue) (count : Word) : Word :=
  let ioqLen : Word := BitVec.ofNat 32 (ioqLength ioq)
  if ioqLen > count then count else ioqLen

/-- `pipe_read`: how much was read, and the buffer with it. -/
def pipeRead (t : ℕ) (buf : Buf) (count : Word) : Kern IoqState (Word × Buf) := do
  let s ← get
  let size := readSize s.ioq count
  let buffer ← readChars t size.toNat 0 buf
  pure (size, buffer)

/-- The loop of `pipe_write`, with `left` bytes to go. -/
def writeChars (t : ℕ) (buf : Buf) : (left : ℕ) → (bytesWrite : ℕ) → Kern IoqState Unit
  | 0, _ => pure ()
  | left + 1, bytesWrite => do
    ioqPutchar t (buf bytesWrite)
    writeChars t buf left (bytesWrite + 1)

/-- `size` in `pipe_write`. -/
@[irreducible] def writeSize (ioq : IoQueue) (count : Word) : Word :=
  let ioqLeft : Word := BitVec.ofNat 32 bufsize - BitVec.ofNat 32 (ioqLength ioq)
  if ioqLeft > count then count else ioqLeft

/-- `pipe_write`: how much was written. -/
def pipeWrite (t : ℕ) (buf : Buf) (count : Word) : Kern IoqState Word := do
  let s ← get
  let size := writeSize s.ioq count
  writeChars t buf size.toNat 0
  pure size

/-! ### One byte -/

/-- The queue holds `q`, and whoever it names as waiting is asleep. -/
structure RingState (q : List Byte) (s : IoqState) : Prop where
  ring : RingBuf bufsize s.ioq.buf s.ioq.tail s.ioq.head q
  consumer : ∀ u, s.ioq.consumer = some u → ∃ c, s.phase u = .ioqWait c
  producer : ∀ u, s.ioq.producer = some u → ∃ c, s.phase u = .ioqWait c

/-- The part of it that a call needs: who waits on the other side is asleep. -/
structure Ready (side : IoqCall) (q : List Byte) (s : IoqState) : Prop where
  ring : RingBuf bufsize s.ioq.buf s.ioq.tail s.ioq.head q
  waiter : ∀ u, side.waiter s.ioq = some u → ∃ c, s.phase u = .ioqWait c

section Transfer

variable {t : ℕ} {q : List Byte} {s : IoqState} {call : IoqCall} {E : Fault → Prop}

/-- `wakeup` of a thread that is asleep, or of none. -/
theorem ioqWakeup_wp (hw : ∀ u, call.waiter s.ioq = some u → ∃ c, s.phase u = .ioqWait c) :
    wp (ioqWakeup call) (fun _ s' => s'.content = s.content ∧ call.waiter s'.ioq = none) E s := by
  rw [ioqWakeup, wp_bind, wp_get]
  split
  · rename_i hnone
    exact ⟨rfl, hnone⟩
  · rename_i u hu
    obtain ⟨c, hc⟩ := hw u hu
    rw [wp_bind, ioqUnblock, wp_bind, wp_get]
    simp only [hc, wp_modify]
    cases call <;> exact ⟨rfl, rfl⟩

/-- The loop's test comes out the wrong way: the thread ends up blocked. -/
theorem ioqLoop_blocks (hwait : call.mustWait s.ioq = true) :
    post (ioqLoop t call) (fun _ s' => s'.phase t ≠ .out) s := by
  have hwaits : ∀ s', post (ioqWait t call) (fun _ s' => s'.phase t ≠ .out) s' := by
    intro s'
    simp only [ioqWait, post, wp_bind, wp_get, wp_ASSERT, wp_modify, IoqState.goto,
      Function.update_self]
    exact ⟨fun _ => by simp, fun _ => trivial⟩
  have htakes : post (ioqLockTake t call)
      (fun locked s' => locked = false → s'.phase t ≠ .out) s := by
    simp only [ioqLockTake, ioqSemaDown, post, wp_bind, wp_get, wp_ite, wp_ASSERT, wp_modify,
      wp_pure]
    refine ⟨fun _ => ⟨fun _ => ?_, fun _ => trivial⟩, fun _ => ⟨fun _ => ?_, fun _ => trivial⟩⟩
    · simp [IoqState.goto]
    · simp
  rw [ioqLoop, post, wp_bind, wp_get, if_pos hwait, wp_bind, ioqLockAcquire, wp_bind, wp_get,
    wp_ite]
  refine ⟨fun _ => htakes.mono (fun locked s1 hl => ?_) fun _ h => h, fun _ => ?_⟩
  · cases locked with
    | true => exact hwaits s1
    | false => exact hl rfl
  · simp only [wp_bind, wp_modify, wp_pure, if_true]
    exact hwaits _

/-- A call that finds the queue in the way does not return. -/
theorem ioqCall_hangs (hwait : call.mustWait s.ioq = true) :
    post (ioqCall t call) (fun _ _ => False) s := by
  rw [ioqCall, post, wp_bind]
  refine (ioqLoop_blocks hwait).mono (fun _ s' hs' => ?_) fun _ h => h
  rw [wp_bind, wp_get, wp_check]
  exact ⟨fun hc => hs' (of_decide_eq_true hc), fun _ => trivial⟩

theorem Ready.mustWait_putchar (h : Ready call q s) (byte : Byte) :
    (IoqCall.putchar byte).mustWait s.ioq = true ↔ q.length + 1 = bufsize := by
  rw [IoqCall.mustWait, ioqFull, nextPos, beq_iff_eq, h.ring.next_eq_iff]

/-- **One byte is put** into a queue with room for it. -/
theorem ioqPutchar_wp (h : Ready .getchar q s) (hroom : q.length + 1 < bufsize) (byte : Byte) :
    wp (ioqPutchar t byte) (fun _ s' => Ready .getchar (q ++ [byte]) s') E s := by
  have hgo : ¬ (IoqCall.putchar byte).mustWait s.ioq = true := by
    rw [h.mustWait_putchar]
    omega
  rw [ioqPutchar, ioqCall, wp_bind, ioqLoop, wp_bind, wp_get, if_neg hgo, ioqTransfer, wp_bind,
    wp_modify, wp_bind]
  refine wp.mono (ioqWakeup_wp fun u hu => h.waiter u hu) (fun _ s1 hs1 => ?_) fun _ h => h
  obtain ⟨hcontent, hnone⟩ := hs1
  simp only [IoqState.content, Prod.mk.injEq] at hcontent
  obtain ⟨h1, h2, h3, -⟩ := hcontent
  simp only [wp_modify, wp_bind, wp_get, wp_check, IoqState.goto, Function.update_self]
  refine ⟨fun _ => ⟨?_, fun u hu => ?_⟩, fun hc => ?_⟩
  · rw [h1, h2, h3]
    exact h.ring.push hroom byte
  · have hu : IoqCall.getchar.waiter s1.ioq = some u := hu
    rw [hnone] at hu
    cases hu
  · simp at hc

/-- **One byte is taken** from a queue that has one. -/
theorem ioqGetchar_wp {x : Byte} (h : Ready (.putchar 0) (x :: q) s) :
    wp (ioqGetchar t) (fun byte s' => byte = x ∧ Ready (.putchar 0) q s') E s := by
  have hgo : ¬ IoqCall.getchar.mustWait s.ioq = true := by
    rw [IoqCall.mustWait, ioqEmpty, beq_iff_eq, h.ring.eq_iff]
    exact List.cons_ne_nil x q
  obtain ⟨hx, hring⟩ := h.ring.pop
  rw [ioqGetchar, wp_bind, ioqCall, wp_bind, ioqLoop, wp_bind, wp_get, if_neg hgo, ioqTransfer,
    wp_bind, wp_modify, wp_bind]
  refine wp.mono (ioqWakeup_wp fun u hu => h.waiter u hu) (fun _ s1 hs1 => ?_) fun _ h => h
  obtain ⟨hcontent, hnone⟩ := hs1
  simp only [IoqState.content, Prod.mk.injEq] at hcontent
  obtain ⟨h1, h2, h3, -, h5⟩ := hcontent
  simp only [wp_modify, wp_bind, wp_get, wp_check, wp_pure, IoqState.goto, Function.update_self]
  refine ⟨fun _ => ⟨?_, ?_, fun u hu => ?_⟩, fun hc => ?_⟩
  · rw [h5, List.getLast?_concat, Option.getD_some, hx]
  · rw [h1, h2, h3]
    exact hring
  · have hu : (IoqCall.putchar 0).waiter s1.ioq = some u := hu
    rw [hnone] at hu
    cases hu
  · simp at hc

/-! ### The loops -/

/-- The loop of `pipe_read` moves the front of the queue into the buffer. -/
theorem readChars_wp (r : List Byte) (bytesRead : ℕ) (buffer : Buf)
    (h : Ready (.putchar 0) (r ++ q) s) :
    wp (readChars t r.length bytesRead buffer) (fun b s' => Ready (.putchar 0) q s' ∧
      (∀ i < r.length, r[i]? = some (b (bytesRead + i))) ∧
      ∀ j, j < bytesRead ∨ bytesRead + r.length ≤ j → b j = buffer j) E s := by
  induction r generalizing bytesRead buffer s with
  | nil => exact ⟨h, fun i hi => absurd hi (by simp), fun _ _ => rfl⟩
  | cons x r ih =>
    rw [List.length_cons, readChars, wp_bind]
    refine (ioqGetchar_wp h).mono (fun byte s1 hs1 => ?_) fun _ h => h
    obtain ⟨rfl, h1⟩ := hs1
    refine (ih (bytesRead + 1) _ h1).mono (fun b s2 hs2 => ?_) fun _ h => h
    obtain ⟨h2, hin, hout⟩ := hs2
    refine ⟨h2, fun i hi => ?_, fun j hj => ?_⟩
    · cases i with
      | zero => rw [Nat.add_zero, hout bytesRead (by omega), Function.update_self]; rfl
      | succ i =>
        rw [List.getElem?_cons_succ, hin i (by omega), Nat.add_right_comm, Nat.add_assoc]
    · rw [hout j (by omega), Function.update_of_ne (by omega)]

/-- The bytes of a buffer from one place on. -/
def chunk (buf : Buf) (off n : ℕ) : List Byte := (List.range n).map fun i => buf (off + i)

theorem chunk_succ (buf : Buf) (off n : ℕ) :
    chunk buf off (n + 1) = buf off :: chunk buf (off + 1) n := by
  rw [chunk, chunk, List.range_succ_eq_map, List.map_cons, List.map_map, Nat.add_zero]
  congr 1
  refine List.map_congr_left fun i _ => ?_
  rw [Function.comp_apply, Nat.succ_eq_add_one, Nat.add_right_comm, Nat.add_assoc]

/-- The loop of `pipe_write` with room for all it is to write. -/
theorem writeChars_wp (buf : Buf) (n bytesWrite : ℕ) (h : Ready .getchar q s)
    (hroom : q.length + n < bufsize) :
    wp (writeChars t buf n bytesWrite)
      (fun _ s' => Ready .getchar (q ++ chunk buf bytesWrite n) s') E s := by
  induction n generalizing bytesWrite q s with
  | zero => simpa [writeChars, chunk] using h
  | succ n ih =>
    rw [writeChars, wp_bind]
    refine (ioqPutchar_wp h (by omega) _).mono (fun _ s1 h1 => ?_) fun _ h => h
    refine (ih (bytesWrite + 1) h1 (by simp; omega)).mono (fun _ s2 h2 => ?_) fun _ h => h
    rwa [chunk_succ, List.append_cons]

/-- And with room for less: it does not return. -/
theorem writeChars_hangs (buf : Buf) (n bytesWrite : ℕ) (h : Ready .getchar q s)
    (hroom : bufsize ≤ q.length + n) :
    post (writeChars t buf n bytesWrite) (fun _ _ => False) s := by
  induction n generalizing bytesWrite q s with
  | zero => exact absurd h.ring.length_lt (by omega)
  | succ n ih =>
    rw [writeChars, post, wp_bind]
    by_cases hfull : q.length + 1 = bufsize
    · exact (ioqCall_hangs ((h.mustWait_putchar _).2 hfull)).mono (fun _ _ h => h.elim) fun _ h => h
    · have hlt := h.ring.length_lt
      refine (ioqPutchar_wp h (by omega) _).mono (fun _ s1 h1 => ?_) fun _ h => h
      exact ih (bytesWrite + 1) h1 (by simp; omega)

/-! ### The transfers -/

theorem RingState.length_lt (h : RingState q s) : q.length < 2048 := h.ring.length_lt

theorem RingState.ioqLength_eq (h : RingState q s) : ioqLength s.ioq = q.length :=
  h.ring.length_eq

/-- `pipe_read` returns as many bytes as it is asked for and as there are, from the front of the
queue, in order. -/
def Delivers (t : ℕ) (buf : Buf) (count : Word) (q : List Byte) (s : IoqState) : Prop :=
  ∃ size b s', pipeRead t buf count s = .ok ((size, b), s') ∧
    size.toNat = min count.toNat q.length ∧ (∀ i < size.toNat, q[i]? = some (b i)) ∧
    (∀ j, size.toNat ≤ j → b j = buf j) ∧
    RingBuf bufsize s'.ioq.buf s'.ioq.tail s'.ioq.head (q.drop size.toNat)

/-- `pipe_write` returns how much of the front of its buffer it has appended. -/
def Appends (t : ℕ) (buf : Buf) (count : Word) (q : List Byte) (s : IoqState) : Prop :=
  ∃ size s', pipeWrite t buf count s = .ok (size, s') ∧ size.toNat ≤ count.toNat ∧
    RingBuf bufsize s'.ioq.buf s'.ioq.tail s'.ioq.head (q ++ chunk buf 0 size.toNat)

/-- How much `pipe_read` sets out to read. -/
theorem RingState.readSize_eq (h : RingState q s) (count : Word) :
    (readSize s.ioq count).toNat = min count.toNat q.length := by
  have hlen := h.length_lt
  have hq : (BitVec.ofNat 32 (ioqLength s.ioq)).toNat = q.length := by
    rw [h.ioqLength_eq, BitVec.toNat_ofNat]
    omega
  rw [readSize]
  split <;> rename_i hc <;> rw [gt_iff_lt, BitVec.lt_def, hq] at hc <;> omega

theorem pipeRead_wp {size : Word} (h : RingState q s) (buf : Buf) (count : Word)
    (hdef : readSize s.ioq count = size) :
    wp (pipeRead t buf count) (fun r s' => r.1 = size ∧ (∀ i < size.toNat, q[i]? = some (r.2 i)) ∧
      (∀ j, size.toNat ≤ j → r.2 j = buf j) ∧
      RingBuf bufsize s'.ioq.buf s'.ioq.tail s'.ioq.head (q.drop size.toNat)) E s := by
  have hsize := h.readSize_eq count
  rw [hdef] at hsize
  have htake : (q.take size.toNat).length = size.toNat := by
    rw [List.length_take]
    omega
  have hready : Ready (.putchar 0) (q.take size.toNat ++ q.drop size.toNat) s :=
    ⟨by rw [List.take_append_drop]; exact h.ring, h.producer⟩
  have hloop := readChars_wp (t := t) (E := E) (q.take size.toNat) 0 buf hready
  rw [htake] at hloop
  rw [pipeRead, wp_bind, wp_get]
  dsimp only
  rw [hdef, wp_bind]
  refine hloop.mono (fun b s' hs' => ?_) fun _ h => h
  obtain ⟨h', hin, hout⟩ := hs'
  refine ⟨rfl, fun i hi => ?_, fun j hj => hout j (by omega), h'.ring⟩
  have hb := hin i hi
  rwa [List.getElem?_take_of_lt hi, Nat.zero_add] at hb

/-- **`pipe_read` never waits.** -/
theorem pipeRead_delivers (h : RingState q s) (buf : Buf) (count : Word) :
    Delivers t buf count q s := by
  obtain ⟨⟨_, b⟩, s', hrun, rfl, hrest⟩ := (pipeRead_wp h buf count rfl).returns
  exact ⟨_, b, s', hrun, h.readSize_eq count, hrest⟩

/-- How much `pipe_write` sets out to write: one more than there is room for, if it is asked to. -/
theorem RingState.writeSize_eq (h : RingState q s) (count : Word) :
    (writeSize s.ioq count).toNat = min count.toNat (bufsize - q.length) := by
  have hlen := h.length_lt
  have hleft : (BitVec.ofNat 32 bufsize - BitVec.ofNat 32 (ioqLength s.ioq)).toNat =
      bufsize - q.length := by
    rw [h.ioqLength_eq, BitVec.toNat_sub, BitVec.toNat_ofNat, BitVec.toNat_ofNat, bufsize]
    omega
  unfold writeSize
  dsimp only
  split <;> rename_i hc <;> rw [gt_iff_lt, BitVec.lt_def, hleft] at hc <;> omega

theorem pipeWrite_wp (h : RingState q s) (buf : Buf) (count : Word)
    (hroom : q.length + count.toNat < bufsize) :
    wp (pipeWrite t buf count) (fun size s' => size.toNat = count.toNat ∧
      RingBuf bufsize s'.ioq.buf s'.ioq.tail s'.ioq.head (q ++ chunk buf 0 count.toNat)) E s := by
  have hsize := h.writeSize_eq count
  rw [pipeWrite, wp_bind, wp_get]
  dsimp only
  rw [wp_bind, hsize, Nat.min_eq_left (by omega)]
  refine (writeChars_wp buf count.toNat 0 ⟨h.ring, h.consumer⟩ hroom).mono
    (fun _ s' hs' => ?_) fun _ h => h
  exact ⟨hsize.trans (Nat.min_eq_left (by omega)), hs'.ring⟩

/-- **`pipe_write` appends what fits.** -/
theorem pipeWrite_appends (h : RingState q s) (buf : Buf) (count : Word)
    (hroom : q.length + count.toNat < bufsize) : Appends t buf count q s := by
  obtain ⟨size, s', hrun, hcount, hring⟩ := (pipeWrite_wp h buf count hroom).returns
  exact ⟨size, s', hrun, Nat.le_of_eq hcount, hcount ▸ hring⟩

/-- **`pipe_write` of more than fits** waits for room for the byte after the last that does. -/
theorem pipeWrite_hangs (h : RingState q s) (buf : Buf) (count : Word)
    (hroom : bufsize ≤ q.length + count.toNat) (r : Word × IoqState) :
    pipeWrite t buf count s ≠ .ok r := by
  have hlen := h.ring.length_lt
  intro hrun
  refine wp.ok (Q := fun _ _ => False) (E := fun _ => True) ?_ hrun
  rw [pipeWrite, wp_bind, wp_get]
  dsimp only
  rw [wp_bind, h.writeSize_eq count]
  exact (writeChars_hangs buf _ 0 ⟨h.ring, h.consumer⟩ (by omega)).mono (fun _ _ h => h.elim)
    fun _ h => h

/-- **The two ends of a pipe.** Both return, having moved what they say they have, exactly if what
is written fits beside what is stored, with the one slot left free. -/
theorem pipe_transfers_iff (h : RingState q s) (buf : Buf) (count : Word) :
    (Appends t buf count q s ∧ Delivers t buf count q s) ↔
      q.length + count.toNat < bufsize := by
  refine ⟨fun ⟨hwrite, _⟩ => ?_, fun hroom =>
    ⟨pipeWrite_appends h buf count hroom, pipeRead_delivers h buf count⟩⟩
  by_contra hroom
  obtain ⟨size, s', hrun, -⟩ := hwrite
  exact pipeWrite_hangs h buf count (Nat.le_of_not_lt hroom) _ hrun

end Transfer

theorem ringState_ioqStart : RingState [] ioqStart :=
  ⟨.nil (show 0 < bufsize by decide), nofun, nofun⟩

/-- 100 bytes into an empty pipe. -/
theorem pipe_transfers_hundred :
    Appends 1 (fun _ => 7) 100 [] ioqStart ∧ Delivers 1 (fun _ => 7) 100 [] ioqStart :=
  (pipe_transfers_iff ringState_ioqStart _ _).2 (by decide)

/-- **2048 bytes into an empty pipe**, which has room for 2047: the writer waits for a reader, whom
the shell starts when the writer has ended. -/
theorem pipeWrite_2048_hangs :
    RingState [] ioqStart ∧ pipeWrite 1 (fun _ => 7) 2048 ioqStart = .error .hang := by
  exact ⟨ringState_ioqStart, eq_error_of_fault? (by decide +kernel)⟩

/-! ### Threads on a queue -/

/-- Nobody has the lock. -/
def IsFree (l : Lock) : Prop :=
  l.holder = none ∧ l.semaphore.value = 1 ∧ l.holderRepeatNr = 0

/-- Somebody has it, once. -/
def IsHeld (l : Lock) : Prop :=
  l.holder ≠ none ∧ l.semaphore.value = 0 ∧ l.holderRepeatNr = 1

/-- The thread sleeps on the queue, or has been woken and has not run since. -/
def Owns (ph : IoqPhase) : Prop := ∃ c, ph = .ioqWait c ∨ ph = .ioqWoken c

/-- **The invariant.** The lock belongs to who sleeps on the queue, so that is one thread, on one of
the sides; the others that wait are in line for the lock. -/
structure QueueInv (l : Lock) (consumer producer : Option ℕ) (phase : ℕ → IoqPhase) : Prop where
  lock : IsFree l ∨ IsHeld l
  owner : ∀ u, l.holder = some u ↔ Owns (phase u)
  asleep : ∀ u, consumer = some u ∨ producer = some u → ∃ c, phase u = .ioqWait c
  oneSide : consumer = none ∨ producer = none
  inLine : ∀ u ∈ l.semaphore.waiters, ∃ c, phase u = .lockWait c
  nodup : l.semaphore.waiters.Nodup

/-- The invariant, with nobody running. -/
def AtRest (s : IoqState) : Prop :=
  QueueInv s.ioq.lock s.ioq.consumer s.ioq.producer s.phase

/-- The invariant, with thread `t` running: where it was last is of no account. -/
def Running (t : ℕ) (s : IoqState) : Prop :=
  QueueInv s.ioq.lock s.ioq.consumer s.ioq.producer (Function.update s.phase t .out)

section Runs

variable {t u v : ℕ} {s : IoqState} {call c : IoqCall} {l l' : Lock}
  {consumer producer consumer' producer' : Option ℕ} {phase : ℕ → IoqPhase} {ph : IoqPhase}

theorem not_owns_out : ¬ Owns .out := by simp [Owns]

namespace QueueInv

variable (h : QueueInv l consumer producer phase)

include h

theorem eq_of_owns (hu : Owns (phase u)) (hv : Owns (phase v)) : u = v :=
  Option.some.inj (((h.owner u).2 hu).symm.trans ((h.owner v).2 hv))

/-- Who has gone to sleep on the queue has the lock. -/
theorem holder_of_asleep (hu : consumer = some u ∨ producer = some u) : l.holder = some u := by
  obtain ⟨c, hc⟩ := h.asleep u hu
  exact (h.owner u).2 ⟨c, .inl hc⟩

theorem not_asleep (hu : ∀ c, phase u ≠ .ioqWait c) :
    ¬ (consumer = some u ∨ producer = some u) := fun hs =>
  (h.asleep u hs).elim hu

theorem not_inLine (hu : ∀ c, phase u ≠ .lockWait c) : u ∉ l.semaphore.waiters := fun hs =>
  (h.inLine u hs).elim hu

/-- **One thread changes its place.** The others stay where they are. -/
theorem step (hlock : IsFree l' ∨ IsHeld l') (hown : l'.holder = some t ↔ Owns ph)
    (hsleep : consumer' = some t ∨ producer' = some t → ∃ c, ph = .ioqWait c)
    (hline : t ∈ l'.semaphore.waiters → ∃ c, ph = .lockWait c)
    (hown' : ∀ u ≠ t, l'.holder = some u ↔ l.holder = some u)
    (hsleep' : ∀ u ≠ t, consumer' = some u ∨ producer' = some u →
      consumer = some u ∨ producer = some u)
    (hline' : ∀ u ≠ t, u ∈ l'.semaphore.waiters → u ∈ l.semaphore.waiters)
    (hside : consumer' = none ∨ producer' = none) (hnodup : l'.semaphore.waiters.Nodup) :
    QueueInv l' consumer' producer' (Function.update phase t ph) := by
  refine ⟨hlock, fun u => ?_, fun u hu => ?_, hside, fun u hu => ?_, hnodup⟩ <;>
    rcases eq_or_ne u t with rfl | hut
  · rwa [Function.update_self]
  · rw [Function.update_of_ne hut, hown' u hut, h.owner u]
  · rw [Function.update_self]
    exact hsleep hu
  · rw [Function.update_of_ne hut]
    exact h.asleep u (hsleep' u hut hu)
  · rw [Function.update_self]
    exact hline hu
  · rw [Function.update_of_ne hut]
    exact h.inLine u (hline' u hut hu)

end QueueInv

theorem AtRest.running (h : AtRest s) (hown : ¬ Owns (s.phase t))
    (hline : ∀ c, s.phase t ≠ .lockWait c) : Running t s := by
  have hsleep : ∀ c, s.phase t ≠ .ioqWait c := fun c hc => hown ⟨c, .inl hc⟩
  refine QueueInv.step h h.lock (iff_of_false (mt (h.owner t).1 hown) not_owns_out)
    (fun ht => absurd ht (h.not_asleep hsleep)) (fun ht => absurd ht (h.not_inLine hline))
    (fun _ _ => Iff.rfl) (fun _ _ hu => hu) (fun _ _ hu => hu) h.oneSide h.nodup

namespace Running

theorem holder_ne (h : Running t s) : s.ioq.lock.holder ≠ some t := by
  rw [Ne, h.owner t, Function.update_self]
  exact not_owns_out

theorem not_mem (h : Running t s) : t ∉ s.ioq.lock.semaphore.waiters :=
  h.not_inLine (by simp)

/-- **A thread that has to wait** goes to sleep on the queue if nobody has the lock, and into line
if somebody has. -/
theorem wait (h : Running t s) :
    wp (ioqLockTake t call) (fun locked s' =>
      wp (if locked then ioqWait t call else pure ()) (fun _ => AtRest) (fun _ => False) s')
      (fun _ => False) s := by
  have hphase : ∀ ph, Function.update s.phase t ph =
      Function.update (Function.update s.phase t .out) t ph := fun _ =>
    (Function.update_idem _ _ _).symm
  rcases h.lock with hl | hl
  · have hrun : ioqLockTake t call s = .ok (true,
        s.updLock fun l => ⟨some t, ⟨0, l.semaphore.waiters⟩, 1⟩) := by
      simp [ioqLockTake, ioqSemaDown, bind_apply, ASSERT, check, IoqState.updLock, hl.2.1, hl.2.2]
    obtain ⟨hc, hp⟩ : s.ioq.consumer = none ∧ s.ioq.producer = none := by
      simp only [Option.eq_none_iff_forall_ne_some, ← forall_and, ← not_or]
      intro u hu
      simpa [hl.1] using h.holder_of_asleep hu
    rw [wp_of_ok hrun, if_pos rfl, ioqWait, wp_bind, wp_get, wp_bind, wp_ASSERT]
    refine ⟨fun _ => ?_, fun hsome => absurd hsome ?_⟩
    · rw [wp_modify, AtRest]
      dsimp only [IoqState.goto, IoqState.updLock]
      rw [hphase]
      cases call <;>
      · refine h.step (.inr ⟨Option.some_ne_none t, rfl, rfl⟩) (iff_of_true rfl ⟨_, .inl rfl⟩)
          (fun _ => ⟨_, rfl⟩) (fun ht => absurd ht h.not_mem) (fun u hu => ?_)
          (fun u hu hsome => ?_) (fun _ _ hu => hu) ?_ h.nodup
        · simp [IoqCall.setWaiter, hl.1, hu.symm]
        · simp [IoqCall.setWaiter, hc, hp, hu.symm] at hsome
        · simp [IoqCall.setWaiter, hc, hp]
    · cases call <;> simp [IoqCall.waiter, IoqState.updLock, hc, hp]
  · have hrun : ioqLockTake t call s = .ok (false, (s.updLock fun l => { l with
        semaphore := { l.semaphore with waiters := l.semaphore.waiters ++ [t] } }).goto t
          (.lockWait call)) := by
      simp [ioqLockTake, ioqSemaDown, bind_apply, ASSERT, check, IoqState.updLock, hl.2.1,
        h.not_mem]
    rw [wp_of_ok hrun, if_neg (by simp), wp_pure, AtRest]
    dsimp only [IoqState.goto, IoqState.updLock]
    rw [hphase]
    refine h.step (.inr hl) (iff_of_false h.holder_ne (by simp [Owns]))
      (fun ht => absurd ht (h.not_asleep (by simp))) (fun _ => ⟨call, rfl⟩) (fun _ _ => Iff.rfl)
      (fun _ _ hu => hu) (fun u hu hmem => ?_) h.oneSide ?_
    · simpa [hu] using hmem
    · simpa [List.nodup_append, h.nodup] using fun u hu (he : u = t) => h.not_mem (he ▸ hu)

/-- `wakeup` makes ready who sleeps on the queue. -/
theorem wakeup (h : Running t s) :
    wp (ioqWakeup call) (fun _ => Running t) (fun _ => False) s := by
  rw [ioqWakeup, wp_bind, wp_get]
  split
  · exact h
  · rename_i u hu
    have hcp : s.ioq.consumer = some u ∨ s.ioq.producer = some u := by
      cases call
      · exact .inl hu
      · exact .inr hu
    have hut : u ≠ t := by
      rintro rfl
      exact h.not_asleep (by simp) hcp
    obtain ⟨c, hc⟩ := h.asleep u hcp
    -- there is nobody on the other side
    obtain ⟨hnc, hnp⟩ : (call.setWaiter s.ioq none).consumer = none ∧
        (call.setWaiter s.ioq none).producer = none := by
      have hside := h.oneSide
      cases call <;> simp_all [IoqCall.waiter, IoqCall.setWaiter]
    have hlock : (call.setWaiter s.ioq none).lock = s.ioq.lock := by cases call <;> rfl
    have hmem := h.not_inLine (u := u) (by simp [hc])
    rw [Function.update_of_ne hut] at hc
    rw [wp_bind, ioqUnblock, wp_bind, wp_get]
    simp only [hc, wp_modify]
    rw [Running]
    dsimp only [IoqState.goto]
    rw [Function.update_comm hut, hnc, hnp, hlock]
    exact h.step h.lock (iff_of_true (h.holder_of_asleep hcp) ⟨c, .inr rfl⟩) (by simp)
      (fun hu => absurd hu hmem) (fun _ _ => Iff.rfl) (by simp) (fun _ _ hu => hu) (.inl rfl)
      h.nodup

theorem transfer (h : Running t s) :
    wp (ioqTransfer t call) (fun _ => AtRest) (fun _ => False) s := by
  cases call <;> simp only [ioqTransfer, wp_bind, wp_modify] <;> exact wakeup h

theorem loop (h : Running t s) :
    wp (ioqLoop t call) (fun _ => AtRest) (fun _ => False) s := by
  rw [ioqLoop, wp_bind, wp_get, wp_ite]
  refine ⟨fun _ => ?_, fun _ => h.transfer⟩
  rw [wp_bind, ioqLockAcquire, wp_bind, wp_get, if_pos h.holder_ne]
  exact h.wait

end Running

/-- **Who has been woken gives the lock back**, and makes ready who is first in line for it. -/
theorem AtRest.release (h : AtRest s) (ht : s.phase t = .ioqWoken c) :
    wp (ioqLockRelease t) (fun _ => Running t) (fun _ => False) s := by
  have hholder : s.ioq.lock.holder = some t := (h.owner t).2 ⟨c, .inr ht⟩
  obtain ⟨-, hvalue, hnr⟩ : IsHeld s.ioq.lock := h.lock.resolve_left fun hf => by
    rw [hf.1] at hholder
    cases hholder
  have hfree : QueueInv ⟨none, ⟨1, s.ioq.lock.semaphore.waiters⟩, 0⟩ s.ioq.consumer s.ioq.producer
      (Function.update s.phase t .out) :=
    QueueInv.step h (.inl ⟨rfl, rfl, rfl⟩) (iff_of_false (by simp) not_owns_out)
      (fun hs => absurd hs (h.not_asleep (by simp [ht])))
      (fun hm => absurd hm (h.not_inLine (by simp [ht])))
      (fun u hu => by simpa [hholder] using hu.symm) (fun _ _ hu => hu) (fun _ _ hu => hu) h.oneSide
      h.nodup
  cases hline : s.ioq.lock.semaphore.waiters with
  | nil =>
    have hrun : ioqLockRelease t s = .ok ((), s.updLock fun _ => ⟨none, ⟨1, []⟩, 0⟩) := by
      simp [ioqLockRelease, ioqSemaUp, bind_apply, ASSERT, check, IoqState.updLock, hholder, hvalue,
        hnr, hline]
    rw [wp_of_ok hrun]
    exact hline ▸ hfree
  | cons v rest =>
    obtain ⟨c', hc'⟩ := h.inLine v (hline ▸ List.mem_cons_self)
    have hvt : v ≠ t := by
      rintro rfl
      rw [ht] at hc'
      cases hc'
    have hrun : ioqLockRelease t s = .ok ((),
        (s.updLock fun _ => ⟨none, ⟨1, rest⟩, 0⟩).goto v (.lockWoken c')) := by
      simp [ioqLockRelease, ioqSemaUp, ioqUnblock, bind_apply, ASSERT, check, IoqState.updLock,
        IoqState.goto, hholder, hvalue, hnr, hline, hc']
    rw [wp_of_ok hrun, Running]
    dsimp only [IoqState.goto, IoqState.updLock]
    rw [Function.update_comm hvt]
    rw [hline] at hfree
    have hnodup := List.nodup_cons.1 hfree.nodup
    exact hfree.step (.inl ⟨rfl, rfl, rfl⟩) (iff_of_false (by simp) (by simp [Owns]))
      (fun hs => absurd hs (hfree.not_asleep (by simp [hvt, hc'])))
      (fun hm => absurd hm hnodup.1) (fun _ _ => Iff.rfl) (fun _ _ hu => hu)
      (fun _ _ hu => List.mem_cons_of_mem v hu) h.oneSide hnodup.2

/-- **One step**: it returns. -/
theorem AtRest.code {act : IoqAct} {x : Kern IoqState Unit} (h : AtRest s)
    (hx : act.code s = some x) : wp x (fun _ => AtRest) (fun _ => False) s := by
  cases act with
  | call t c =>
    simp only [IoqAct.code] at hx
    split at hx
    · rename_i hout
      cases hx
      exact (h.running (by simp [Owns, hout]) (by simp [hout])).loop
    · cases hx
  | resume t =>
    simp only [IoqAct.code] at hx
    split at hx
    · rename_i c hc
      cases hx
      rw [wp_bind]
      exact (h.running (by simp [Owns, hc]) (by simp [hc])).wait
    · rename_i c hc
      cases hx
      rw [wp_bind]
      exact (h.release hc).mono (fun _ s1 h1 => h1.loop) fun _ h => h
    · cases hx

theorem inv_of_reachable (h : ioqSys.Reachable s) : Fifo s ∧ AtRest s := by
  refine TransSys.Reach.invariant (I := fun s => Fifo s ∧ AtRest s) ?_
    (fun s act s' hs _ hstep => ?_) h
  · rintro _ ⟨buf, rfl⟩
    refine ⟨⟨[], .nil (show 0 < bufsize by decide), rfl⟩, .inl ⟨rfl, rfl, rfl⟩, ?_, ?_, .inl rfl,
      ?_, List.nodup_nil⟩
    all_goals simp [ioqueueInit, Lock.lockInit, Owns]
  · obtain ⟨x, u, hx, hu⟩ := ioqSys_step hstep
    exact ⟨(act.code_fifo hs.1 hx).ok hu, (hs.2.code hx).ok hu⟩

theorem AtRest.ringState {q : List Byte} (h : AtRest s)
    (hq : RingBuf bufsize s.ioq.buf s.ioq.tail s.ioq.head q) : RingState q s :=
  ⟨hq, fun u hu => h.asleep u (.inl hu), fun u hu => h.asleep u (.inr hu)⟩

/-- **Threads on a queue never fail.** Whatever calls any number of threads make of `ioq_getchar`
and `ioq_putchar`, and in whatever order those that are ready run: no assertion fails, neither of
the queue nor of its lock and semaphore, and nobody is woken who is not asleep. One thread at a time
is asleep on the queue, and it has the lock; whoever the queue names as waiting is asleep. -/
theorem ioq_never_fails (h : ioqSys.Reachable s) :
    (∀ (act : IoqAct) x, act.code s = some x → ∃ s', x s = .ok ((), s')) ∧
    (∀ u v, Owns (s.phase u) → Owns (s.phase v) → u = v) ∧
    (∀ u, s.ioq.lock.holder = some u ↔ Owns (s.phase u)) ∧
    ∀ u, s.ioq.consumer = some u ∨ s.ioq.producer = some u → ∃ c, s.phase u = .ioqWait c := by
  have hrest := (inv_of_reachable h).2
  refine ⟨fun act x hx => ?_, fun u v => hrest.eq_of_owns, hrest.owner, hrest.asleep⟩
  obtain ⟨_, s', hrun, -⟩ := (hrest.code hx).returns
  exact ⟨s', hrun⟩

theorem ioq_never_fails_two : ∃ s : IoqState, s.phase 2 = .lockWait .getchar ∧
    ∀ (act : IoqAct) x, act.code s = some x → ∃ s', x s = .ok ((), s') := by
  obtain ⟨s, hs, hP⟩ : ∃ s, ioqSys.Reachable s ∧
      decide (s.phase 2 = .lockWait .getchar) = true :=
    TransSys.exists_reachable ioqStart_initial [.call 1 .getchar, .call 2 .getchar]
      (by decide +kernel)
  exact ⟨s, of_decide_eq_true hP, (ioq_never_fails hs).1⟩

/-- **A pipe delivers what was sent.** After any run `pipe_read` returns, without waiting, the first
of the bytes that were sent and not received, as many as it is asked for and as there are; and
`pipe_write` returns exactly if what it is given fits beside them. -/
theorem pipe_after_run (h : ioqSys.Reachable s) (buf : Buf) (count : Word) :
    ∃ q, s.sent = s.received ++ q ∧ Delivers t buf count q s ∧
      (Appends t buf count q s ↔ q.length + count.toNat < bufsize) := by
  obtain ⟨⟨q, hq, hsent⟩, hrest⟩ := inv_of_reachable h
  have hring := hrest.ringState hq
  refine ⟨q, hsent, pipeRead_delivers hring buf count, ?_, pipeWrite_appends hring buf count⟩
  rintro ⟨size, s', hrun, -⟩
  by_contra hroom
  exact pipeWrite_hangs hring buf count (Nat.le_of_not_lt hroom) _ hrun

theorem pipe_after_run_oneLeft :
    ∃ s : IoqState, s.sent = [1, 2] ∧ s.received = [1] ∧ Delivers 3 (fun _ => 0) 5 [2] s := by
  obtain ⟨s, hs, hP⟩ : ∃ s, ioqSys.Reachable s ∧
      decide (s.sent = [1, 2] ∧ s.received = [1]) = true :=
    TransSys.exists_reachable ioqStart_initial
      [.call 1 (.putchar 1), .call 1 (.putchar 2), .call 2 .getchar] (by decide +kernel)
  obtain ⟨hsent, hreceived⟩ := of_decide_eq_true hP
  obtain ⟨q, hq, hread, -⟩ := pipe_after_run (t := 3) hs (fun _ => 0) 5
  rw [hsent, hreceived] at hq
  obtain rfl : q = [2] := (List.cons.inj hq).2.symm
  exact ⟨s, hsent, hreceived, hread⟩

end Runs

end X86Os.PipeIo
