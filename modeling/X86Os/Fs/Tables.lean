import X86Os.Fs.Frame
import X86Os.Fs.Syscall

/-!
# The file tables

`file_table`, and `fd_table` of every process. Few routines change them: everything that looks
paths up, works on directories or opens and closes inodes leaves them alone, which `Keeps files`
says routine by routine.
-/

namespace X86Os

open X86Os.Comp FsState

/-- The file tables, and whose turn it is. -/
def files (s : FsState) : (ℕ → File) × (ℕ → ℕ → Int) × ℕ := (s.fileTable, s.fdTable, s.cur)

section

variable {part : Partition}

theorem blind_files (h : ℕ) : Blind files h :=
  ⟨⟨fun _ _ => rfl, fun _ _ _ => rfl, fun _ _ => rfl, fun _ _ => rfl⟩, fun _ _ => rfl⟩

theorem keeps_inodeClose (h : ℕ) : Keeps files (inodeClose h) :=
  .bind (.modify fun _ => rfl) fun _ => .bind .get fun _ =>
    .ite (.modify fun _ => rfl) (.pure _)

theorem keeps_dirClose (dir : Dir) : Keeps files (dirClose dir) :=
  .ite (.pure _) (keeps_inodeClose _)

variable {s : FsState}

theorem mem_drop_range {n k i : ℕ} (h : i ∈ (List.range n).drop k) : k ≤ i ∧ i < n := by
  obtain ⟨j, hj, rfl⟩ := List.getElem_of_mem h
  rw [List.length_drop, List.length_range] at hj
  rw [List.getElem_drop, List.getElem_range]
  omega

/-- An entry of `file_table` is free. -/
def FreeSlot (s : FsState) : Prop :=
  ∃ f, 3 ≤ f ∧ f < maxFileOpen ∧ (s.fileTable f).fdInode = none

/-- A descriptor of the running process is free. -/
def FreeFd (s : FsState) : Prop :=
  ∃ fd, 3 ≤ fd ∧ fd < maxFilesOpenPerProc ∧ s.fdTable s.cur fd = -1

theorem mem_drop_range_iff {n k i : ℕ} : i ∈ (List.range n).drop k ↔ k ≤ i ∧ i < n := by
  refine ⟨mem_drop_range, fun ⟨h1, h2⟩ => ?_⟩
  refine List.mem_iff_getElem.2 ⟨i - k, by rw [List.length_drop, List.length_range]; omega, ?_⟩
  rw [List.getElem_drop, List.getElem_range]
  omega

theorem getFreeSlotInGlobal_cases {Q : Option ℕ → FsState → Prop} {E : Fault → Prop}
    (hnone : ¬ FreeSlot s → Q none s)
    (hsome : ∀ g, 3 ≤ g → g < maxFileOpen → (s.fileTable g).fdInode = none → Q (some g) s) :
    wp getFreeSlotInGlobal Q E s := by
  simp only [getFreeSlotInGlobal, wp_bind, wp_get, wp_pure]
  cases hf : ((List.range maxFileOpen).drop 3).find? fun f => (s.fileTable f).fdInode.isNone with
  | none =>
    refine hnone ?_
    rintro ⟨f, h1, h2, h3⟩
    have := List.find?_eq_none.1 hf f (mem_drop_range_iff.2 ⟨h1, h2⟩)
    rw [h3] at this
    exact this rfl
  | some g =>
    have hr := mem_drop_range (List.mem_of_find?_eq_some hf)
    have hg := List.find?_some hf
    exact hsome g hr.1 hr.2 (Option.isNone_iff_eq_none.1 hg)

/-- **`pcb_fd_install`** gives a free descriptor, or -1 if there is none. -/
theorem pcbFdInstall_cases {f : ℕ} {Q : Int → FsState → Prop} {E : Fault → Prop}
    (hnone : ¬ FreeFd s → Q (-1) s)
    (hsome : ∀ fd : ℕ, 3 ≤ fd → fd < maxFilesOpenPerProc → s.fdTable s.cur fd = -1 →
      Q fd (s.setFd fd f)) : wp (pcbFdInstall f) Q E s := by
  rw [pcbFdInstall, wp_bind, wp_get]
  cases hf : ((List.range maxFilesOpenPerProc).drop 3).find? fun fd => s.fdTable s.cur fd == -1 with
  | none =>
    refine hnone ?_
    rintro ⟨fd, h1, h2, h3⟩
    have := List.find?_eq_none.1 hf fd (mem_drop_range_iff.2 ⟨h1, h2⟩)
    rw [h3] at this
    exact this rfl
  | some fd =>
    have hr := mem_drop_range (List.mem_of_find?_eq_some hf)
    simp only [wp_bind, wp_modify, wp_pure]
    exact hsome fd hr.1 hr.2 (by simpa using List.find?_some hf)

theorem keeps_fdLocal2global {τ : Type} {f : FsState → τ} (fd : Int) :
    Keeps f (fdLocal2global fd) :=
  .bind (.check _ _) fun _ => .bind .get fun _ => .bind (.check _ _) fun _ => .pure _

theorem keeps_isPipe {τ : Type} {f : FsState → τ} (fd : Int) : Keeps f (isPipe fd) :=
  .bind (keeps_fdLocal2global fd) fun _ => .bind .get fun _ => .pure _

theorem fdLocal2global_post {fd : Int} {Q : ℕ → FsState → Prop}
    (hQ : ∀ g : ℕ, 0 ≤ fd → fd < maxFilesOpenPerProc → s.fdTable s.cur fd.toNat = g → Q g s) :
    post (fdLocal2global fd) Q s := by
  simp only [fdLocal2global, post, wp_bind, wp_check, wp_get, wp_ASSERT, wp_pure, implies_true,
    and_true, decide_eq_true_eq]
  intro hfd hg
  exact hQ _ hfd.1 hfd.2 (by omega)

end

end X86Os
