import X86Os.Lib.Comp

/-!
# How the kernel stops

`ASSERT` and `PANIC` call `panic_spin`, which turns interrupts off, prints the function it was
called from and spins forever. Nothing runs after it, so a routine that panics has no result and
no state after it: `Fault.panic`, with the function that `__func__` names.

Two more ways of not coming back are kept apart from it. `Fault.wild` is an access outside the
object the code means to touch: a null dereference, an index past the end of an array. C gives it
no meaning and neither does this model. `Fault.hang` is a loop that never ends.
-/

namespace X86Os

/-- The functions whose `ASSERT`s and `PANIC`s are modelled, as `__func__` names them. -/
inductive Func
  | bitmapScan | schedule | threadBlock | threadUnblock | threadYield | threadStart | threadExit
  | makeMainThread | processExecute | intrTimerHandler | sysFork
  | sysExit | semaDown | semaUp | lockAcquire | lockRelease | selectSector | ideRead | ideWrite
  | inodeLocate | inodeSync | inodeDelete | inodeRelease | fileWrite | fileRead | createDirEntry
  | syncDirEntry | deleteDirEntry | dirRemove | searchFile | sysOpen | sysUnlink | sysRmdir
  | sysMkdir | sysOpendir | mountPartition | sysRead | sysLseek | fdLocal2global
  | getParentDirInodeNr | sysGetcwd | updateInodeOpenCnts | pageTableAdd | mallocPage | getAPage
  | vaddrGet | mfreePage | sysMalloc | sysFree | ioqWait | wakeup | partitionScan | ideInit
  | dirRead | filesysInit
  deriving DecidableEq, Repr

/-- Why a kernel routine did not return. -/
inductive Fault
  /-- An `ASSERT` or `PANIC` of the function fired. -/
  | panic (func : Func)
  /-- An access outside the object it was meant for. -/
  | wild
  /-- A loop that never ends. -/
  | hang
  deriving DecidableEq, Repr

/-- A kernel routine over the state `σ`. -/
abbrev Kern (σ : Type) := Comp Fault σ

/-- `ASSERT(cond)` in the function `func`. -/
def ASSERT {σ : Type} (func : Func) (cond : Bool) : Kern σ Unit := Comp.check cond (.panic func)

theorem ASSERT_eq_ok {σ : Type} {func : Func} {cond : Bool} {s s' : σ} {u : Unit} :
    ASSERT func cond s = .ok (u, s') ↔ cond = true ∧ s = s' := Comp.check_eq_ok

@[simp] theorem wp_ASSERT {σ : Type} {func : Func} {cond : Bool} {Q : Unit → σ → Prop}
    {E : Fault → Prop} {s : σ} :
    Comp.wp (ASSERT func cond) Q E s ↔
      (cond = true → Q () s) ∧ (cond = false → E (.panic func)) := Comp.wp_check

theorem ASSERT_of_true {σ : Type} {func : Func} {cond : Bool} (s : σ) (h : cond = true) :
    ASSERT func cond s = .ok ((), s) := Comp.check_of_true _ s h

end X86Os
