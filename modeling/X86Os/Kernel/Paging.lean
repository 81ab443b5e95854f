import X86Os.Kernel.Mmu
import X86Os.Lib.Exclusive
import Mathlib.Data.List.Nodup

/-!
# Who uses a frame

A frame of a pool is referred to from three kinds of places: the entry of a page of the kernel heap
in the tables that all directories share, an entry of the lower part of a process's directory, and
the entry of a user page in a table of a process. `Paged` is the invariant of the page tables in
these terms. A frame in a place is in no other place and is marked in the pool that it should come
from; every directory has the kernel's tables in its upper part and itself in its last entry, so the
window works; and every directory of a process is itself a page of the kernel heap.

What an allocation does is described once, by `Takes`: it puts free frames into empty places and
leaves the other places and all memory outside the tables alone. `Gives` says the same of a release.
Both compose, and both keep the invariant. A routine of the allocator is then specified by the list
of the places it fills or empties.
-/

namespace X86Os.Mem

open X86Os.Comp MemState

/-! ### The uses of a frame -/

/-- A place from which the tables refer to a frame: the entry of a kernel page in the tables that
all directories share, an entry of a directory `d`, the entry of a user page under `d`. -/
inductive Use
  | kpage (v : ℕ)
  | table (d i : ℕ)
  | upage (d v : ℕ)
  deriving DecidableEq

namespace Use

/-- The frame there. -/
def frame (phys : ℕ → ℕ → ℕ) : Use → Option ℕ
  | kpage v => target (phys (kernelTable (v / 1024)) (v % 1024))
  | table d i => target (phys d i)
  | upage d v => walk phys d v

/-- The places that count: the kernel heap, and the user half of the directories in `live`. -/
def Valid (live : Set ℕ) : Use → Prop
  | kpage v => 0xc0100 ≤ v ∧ v < 0xffc00
  | table d i => d ∈ live ∧ i < 768
  | upage d v => d ∈ live ∧ v < 0xc0000

theorem valid_kpage {live : Set ℕ} {v : ℕ} :
    (kpage v).Valid live ↔ 0xc0100 ≤ v ∧ v < 0xffc00 := Iff.rfl

/-- The pool that the frame comes from. -/
def side : Use → PoolFlags
  | kpage _ => .kernel
  | table _ _ => .kernel
  | upage _ _ => .user

end Use

/-- A place that counts refers to the frame. -/
def Holds (phys : ℕ → ℕ → ℕ) (live : Set ℕ) (u : Use) (f : ℕ) : Prop :=
  u.Valid live ∧ u.frame phys = some f

/-- The directory has the kernel's tables and points to itself. -/
def SharesKernel (phys : ℕ → ℕ → ℕ) (d : ℕ) : Prop :=
  (∀ i, 768 ≤ i → i < 1023 → phys d i = entry (kernelTable i * pgSize)) ∧
    phys d 1023 = entry (d * pgSize)

/-- The directories: the kernel's, those of the processes, and those of processes that have begun
to exit. -/
def IsDir (live dead : Set ℕ) (d : ℕ) : Prop := d = kernelDir ∨ d ∈ live ∨ d ∈ dead

/-- **The invariant of the page tables.** Every directory shares the kernel's tables and is itself a
kernel page, every frame that is used anywhere is used there only, is marked in its pool, and comes
from the pool that it should. The low megabyte is mapped where the loader mapped it, and no page of
the window was ever unmapped. -/
structure Paged (s : MemState) (live dead : Set ℕ) : Prop where
  layout : Layout s
  shares : ∀ d, IsDir live dead d → SharesKernel s.phys d
  page : ∀ d, d ∈ live ∨ d ∈ dead → ∃ v, Holds s.phys live (.kpage v) d
  excl : Exclusive (Holds s.phys live) s.Used
  side : ∀ u f, Holds s.phys live u f → (s.pool u.side).Has f
  lowMem : ∀ i < 256, s.phys (kernelTable 768) i = entry (i * pgSize)
  running : IsDir live dead s.dir
  tlb : ∀ v, 0xffc00 ≤ v → s.tlb v = none

/-- The frames that the tables themselves are made of. -/
def Structural (phys : ℕ → ℕ → ℕ) (live : Set ℕ) (f : ℕ) : Prop :=
  f < 0x200 ∨ f ∈ live ∨ ∃ d i, Holds phys live (.table d i) f

theorem walk_congr {phys phys' : ℕ → ℕ → ℕ} {d v : ℕ}
    (hd : phys' d (v / 1024) = phys d (v / 1024))
    (ht : ∀ t, target (phys d (v / 1024)) = some t → phys' t (v % 1024) = phys t (v % 1024)) :
    walk phys' d v = walk phys d v := by
  cases h : target (phys d (v / 1024)) with
  | none => rw [walk_of_none h, walk_of_none (hd ▸ h)]
  | some t => rw [walk_of_target h, walk_of_target (hd ▸ h), ht t h]

/-- Kernel pages are the same under every directory. -/
theorem SharesKernel.walk_kernel {phys : ℕ → ℕ → ℕ} {d v : ℕ} (h : SharesKernel phys d)
    (h1 : 0xc0000 ≤ v) (h2 : v < 0xffc00) : walk phys d v = (Use.kpage v).frame phys := by
  rw [walk_of_target (t := kernelTable (v / 1024))]
  · rfl
  · rw [h.1 (v / 1024) (by omega) (by omega), target_entry]

section

variable {s : MemState} {live dead : Set ℕ} {d v i j t f g w : ℕ} {u : Use}

theorem kernelTable_lt (hv : v < 0xffc00) : kernelTable (v / 1024) < 0x200 := by
  unfold kernelTable
  omega

theorem kernelTable_inj (h1 : 0xc0000 ≤ v) (h2 : 0xc0000 ≤ w)
    (h : kernelTable (v / 1024) = kernelTable (w / 1024)) : v / 1024 = w / 1024 := by
  unfold kernelTable at h
  omega

namespace Paged

theorem holds_table (hd : d ∈ live) (hi : i < 768) (ht : target (s.phys d i) = some t) :
    Holds s.phys live (.table d i) t := ⟨⟨hd, hi⟩, ht⟩

variable (h : Paged s live dead)

include h

theorem window : Window s :=
  ⟨by rw [(h.shares _ h.running).2, target_entry], h.tlb⟩

theorem low (hu : Holds s.phys live u f) : 0x200 ≤ f :=
  h.layout.low (h.side u f hu)

theorem dir_low (hd : d ∈ live) : 0x200 ≤ d := by
  obtain ⟨v, hv⟩ := h.page d (.inl hd)
  exact h.low hv

theorem table_ne_dir (ht : Holds s.phys live (.table d i) t)
    {d' : ℕ} (hd : d' ∈ live) : t ≠ d' := by
  rintro rfl
  obtain ⟨v, hv⟩ := h.page t (.inl hd)
  cases h.excl.inj _ _ _ ht hv

/-- **Writing the entry of a kernel page.** -/
theorem frame_setWord_kernel (hv : (Use.kpage v).Valid live) (hu : u.Valid live) :
    u.frame (s.setWord (kernelTable (v / 1024)) (v % 1024) w).phys =
      if u = .kpage v then target w else u.frame s.phys := by
  obtain ⟨hv1, hv2⟩ := Use.valid_kpage.1 hv
  have hlow := kernelTable_lt hv2
  cases u with
  | kpage v' =>
    obtain ⟨hu1, hu2⟩ := Use.valid_kpage.1 hu
    simp only [Use.frame, phys_setWord, Use.kpage.injEq]
    by_cases hv' : v' = v
    · subst hv'
      rw [Function.update_self, Function.update_self, if_pos rfl]
    · rw [if_neg hv']
      by_cases ht : kernelTable (v' / 1024) = kernelTable (v / 1024)
      · have hdiv := kernelTable_inj (by omega) (by omega) ht
        rw [ht, Function.update_self, Function.update_of_ne (by omega)]
      · rw [Function.update_of_ne ht]
  | table d i =>
    have hd := h.dir_low hu.1
    simp only [Use.frame, phys_setWord, reduceCtorEq, if_false]
    rw [Function.update_of_ne (by omega)]
  | upage d v' =>
    have hd := h.dir_low hu.1
    simp only [Use.frame, phys_setWord, reduceCtorEq, if_false]
    refine walk_congr (by rw [Function.update_of_ne (by omega)]) fun t ht => ?_
    have hlt : v' / 1024 < 768 := by have := hu.2; omega
    have ht' := h.low (holds_table hu.1 hlt ht)
    rw [Function.update_of_ne (by omega)]

/-- **Writing an entry of a table of a process.** -/
theorem frame_setWord_table (ht : Holds s.phys live (.table d i) t)
    (hj : j < 1024) (hu : u.Valid live) :
    u.frame (s.setWord t j w).phys =
      if u = .upage d (i * 1024 + j) then target w else u.frame s.phys := by
  have hlow := h.low ht
  cases u with
  | kpage v =>
    have hv := kernelTable_lt (Use.valid_kpage.1 hu).2
    simp only [Use.frame, phys_setWord, reduceCtorEq, if_false]
    rw [Function.update_of_ne (by omega)]
  | table d' i' =>
    simp only [Use.frame, phys_setWord, reduceCtorEq, if_false]
    rw [Function.update_of_ne (h.table_ne_dir ht hu.1).symm]
  | upage d' v =>
    simp only [Use.frame, phys_setWord, Use.upage.injEq]
    have hne := (h.table_ne_dir ht hu.1).symm
    have hlt : v / 1024 < 768 := by have := hu.2; omega
    by_cases hv : d' = d ∧ v = i * 1024 + j
    · obtain ⟨rfl, rfl⟩ := hv
      have hdiv : (i * 1024 + j) / 1024 = i := by omega
      have hmod : (i * 1024 + j) % 1024 = j := by omega
      rw [if_pos ⟨rfl, rfl⟩, walk_of_target (t := t), hmod, Function.update_self,
        Function.update_self]
      rw [Function.update_of_ne hne, hdiv]
      exact ht.2
    · rw [if_neg hv]
      refine walk_congr (by rw [Function.update_of_ne hne]) fun t' ht' => ?_
      by_cases hte : t' = t
      · subst hte
        obtain ⟨rfl, rfl⟩ := Use.table.inj (h.excl.inj _ _ _ (holds_table hu.1 hlt ht') ht)
        rw [Function.update_self, Function.update_of_ne]
        rintro rfl
        exact hv ⟨rfl, by omega⟩
      · rw [Function.update_of_ne hte]

/-- **Adding an empty table to a directory.** The frame of the table is not in use. -/
theorem frame_addTable (hd : d ∈ live) (hi : i < 768)
    (hnone : target (s.phys d i) = none) (hnew : ¬ s.Used t) (hlow : 0x200 ≤ t) (page : ℕ → ℕ)
    (hu : u.Valid live) :
    u.frame ((s.setWord d i (entry (t * pgSize))).setPage t (zeroPage page)).phys =
      if u = .table d i then some t else u.frame s.phys := by
  have hdt : ∀ d' ∈ live, d' ≠ t := by
    rintro d' hd' rfl
    obtain ⟨v, hv⟩ := h.page d' (.inl hd')
    exact hnew (h.excl.used _ _ hv)
  have hphys : ∀ f k, f ≠ t → (f = d → k ≠ i) →
      ((s.setWord d i (entry (t * pgSize))).setPage t (zeroPage page)).phys f k = s.phys f k := by
    intro f k hf hk
    rw [phys_setPage, Function.update_of_ne hf, phys_setWord]
    by_cases hfd : f = d
    · rw [hfd, Function.update_self, Function.update_of_ne (hk hfd)]
    · rw [Function.update_of_ne hfd]
  have hentry : ((s.setWord d i (entry (t * pgSize))).setPage t (zeroPage page)).phys d i =
      entry (t * pgSize) := by
    rw [phys_setPage, Function.update_of_ne (hdt d hd), phys_setWord, Function.update_self,
      Function.update_self]
  cases u with
  | kpage v =>
    have hv := kernelTable_lt (Use.valid_kpage.1 hu).2
    have hne : kernelTable (v / 1024) ≠ d := by have := h.dir_low hd; omega
    simp only [Use.frame, reduceCtorEq, if_false]
    rw [hphys _ _ (by omega) fun he => absurd he hne]
  | table d' i' =>
    simp only [Use.frame, Use.table.injEq]
    by_cases he : d' = d ∧ i' = i
    · obtain ⟨rfl, rfl⟩ := he
      rw [if_pos ⟨rfl, rfl⟩, hentry, target_entry]
    · rw [if_neg he, hphys _ _ (hdt d' hu.1) fun hd' hi' => he ⟨hd', hi'⟩]
  | upage d' v =>
    simp only [Use.frame, reduceCtorEq, if_false]
    by_cases he : d' = d ∧ v / 1024 = i
    · -- the new table has no entry
      obtain ⟨rfl, rfl⟩ := he
      rw [walk_of_target (t := t) (by rw [hentry, target_entry]), walk_of_none hnone, phys_setPage,
        Function.update_self, zeroPage, if_pos (Nat.mod_lt _ (by omega)), target_zero]
    · refine walk_congr (hphys _ _ (hdt d' hu.1) fun hd' hi' => he ⟨hd', hi'⟩) fun t' ht' => ?_
      have hlt : v / 1024 < 768 := by have := hu.2; omega
      have hold := holds_table hu.1 hlt ht'
      refine hphys _ _ (fun he => hnew (he ▸ h.excl.used _ _ hold)) fun he => ?_
      exact absurd he (h.table_ne_dir hold hd)

/-- Marking frames as used harms nothing. -/
theorem markFrame_true (pf : PoolFlags) (hf : (s.pool pf).Has f) :
    Paged (s.markFrame pf f true) live dead where
  layout := h.layout.markFrame pf f true
  shares := by rw [phys_markFrame]; exact h.shares
  page := by rw [phys_markFrame]; exact h.page
  excl := by
    rw [phys_markFrame]
    exact h.excl.sub (fun _ _ hu => hu) fun u g hu =>
      (used_markFrame_true pf hf).2 (.inl (h.excl.used u g hu))
  side := by
    rw [phys_markFrame]
    intro u g hu
    have hside := h.side u g hu
    cases pf <;> cases hs : u.side <;> rw [hs] at hside <;> exact hside
  lowMem := by rw [phys_markFrame]; exact h.lowMem
  running := by rw [dir_markFrame]; exact h.running
  tlb := by rw [tlb_markFrame]; exact h.tlb

end Paged

/-! ### Allocations -/

/-- The pool is as large and where it was, and no bit outside its bitmap has changed. -/
structure SamePool (p p' : Pool) : Prop where
  phyAddrStart : p'.phyAddrStart = p.phyAddrStart
  poolSize : p'.poolSize = p.poolSize
  btmpBytesLen : p'.poolBitmap.btmpBytesLen = p.poolBitmap.btmpBytesLen
  outside : ∀ i, 8 * p.poolBitmap.btmpBytesLen ≤ i → p'.poolBitmap.bit i = p.poolBitmap.bit i

/-- Both pools. -/
def SamePools (s s' : MemState) : Prop := ∀ pf, SamePool (s.pool pf) (s'.pool pf)

/-- Physical memory, the TLB and the marks of the pools apart, the states are the same. -/
structure SameElse (s s' : MemState) : Prop where
  cr3 : s'.cr3 = s.cr3
  kernelVaddr : s'.kernelVaddr = s.kernelVaddr
  task : s'.task = s.task
  cur : s'.cur = s.cur
  desc : s'.desc = s.desc

/-- What neither an allocation nor a release touches: the directory of the kernel and the kernel's
half of the others, the entries for the lowest megabyte, and all that is neither in memory nor a
mark of a pool. -/
structure KernelKept (live : Set ℕ) (s s' : MemState) : Prop where
  kernelDir : s'.phys kernelDir = s.phys kernelDir
  upper : ∀ d ∈ live, ∀ i, 768 ≤ i → s'.phys d i = s.phys d i
  lowMem : ∀ i < 256, s'.phys (kernelTable 768) i = s.phys (kernelTable 768) i
  pools : SamePools s s'
  rest : SameElse s s'

/-- **What an allocation does.** It puts frames that were free into places that were empty. Nothing
else in the tables changes, and no memory outside the tables. -/
structure Takes (live : Set ℕ) (s s' : MemState) (new : List (Use × ℕ)) : Prop
    extends KernelKept live s s' where
  fresh : ∀ u f, (u, f) ∈ new → u.Valid live ∧ u.frame s.phys = none ∧ (s.pool u.side).Has f ∧
    ¬ s.Used f
  nodup : (new.map Prod.snd).Nodup
  got : ∀ u f, (u, f) ∈ new → u.frame s'.phys = some f
  kept : ∀ u, u.Valid live → (∀ f, (u, f) ∉ new) → u.frame s'.phys = u.frame s.phys
  used : ∀ f, s'.Used f ↔ s.Used f ∨ ∃ u, (u, f) ∈ new
  data : ∀ f, ¬ Structural s'.phys live f → s'.phys f = s.phys f
  tlb : s'.tlb = s.tlb

theorem SamePool.refl (p : Pool) : SamePool p p := ⟨rfl, rfl, rfl, fun _ _ => rfl⟩

/-- A pool is determined by its shape and the frames in use. -/
theorem SamePool.eq {p p' : Pool} (h : SamePool p p') (hu : ∀ f, p'.Used f ↔ p.Used f) :
    p' = p := by
  have hfirst : p'.first = p.first := by rw [Pool.first, Pool.first, h.phyAddrStart]
  have hbits : p'.poolBitmap = p.poolBitmap := by
    refine Bitmap.ext_bit h.btmpBytesLen fun i => ?_
    rcases Nat.lt_or_ge i (8 * p.poolBitmap.btmpBytesLen) with hi | hi
    · have hhas : p.Has (p.first + i) := ⟨by omega, by omega⟩
      have hhas' : p'.Has (p.first + i) := by
        rw [Pool.Has, hfirst, h.btmpBytesLen]
        exact hhas
      have := hu (p.first + i)
      rw [Pool.Used, Pool.Used, hfirst, Nat.add_sub_cancel_left, and_iff_right hhas,
        and_iff_right hhas'] at this
      exact Bool.eq_iff_iff.2 this
    · exact h.outside i hi
  obtain ⟨_, _, _⟩ := p
  obtain ⟨_, _, _⟩ := p'
  obtain ⟨h1, h2, -, -⟩ := h
  simp only [Pool.mk.injEq]
  exact ⟨hbits, h1, h2⟩

namespace SamePools

variable {s1 s2 s3 : MemState}

theorem refl (s : MemState) : SamePools s s := fun _ => .refl _

theorem trans (h1 : SamePools s1 s2) (h2 : SamePools s2 s3) : SamePools s1 s3 := fun pf =>
  ⟨(h2 pf).1.trans (h1 pf).1, (h2 pf).2.trans (h1 pf).2, (h2 pf).3.trans (h1 pf).3,
    fun i hi => ((h2 pf).4 i (by rw [(h1 pf).3]; exact hi)).trans ((h1 pf).4 i hi)⟩

theorem first (h : SamePools s1 s2) (pf : PoolFlags) : (s2.pool pf).first = (s1.pool pf).first := by
  rw [Pool.first, Pool.first, (h pf).phyAddrStart]

theorem has (h : SamePools s1 s2) (pf : PoolFlags) :
    (s2.pool pf).Has f ↔ (s1.pool pf).Has f := by
  rw [Pool.Has, Pool.Has, h.first pf, (h pf).btmpBytesLen]

theorem markFrame (pf : PoolFlags) (hf : (s.pool pf).Has f) (b : Bool) :
    SamePools s (s.markFrame pf f b) := by
  have hmark : SamePool (s.pool pf) ((s.pool pf).mark f b) := by
    refine ⟨rfl, rfl, rfl, fun i hi => ?_⟩
    rw [Pool.mark, bit_bitmapSet, if_neg (by have := hf.2; have := hf.1; omega)]
  intro pf'
  cases pf <;> cases pf'
  · exact hmark
  · exact .refl _
  · exact .refl _
  · exact hmark

end SamePools

namespace SameElse

variable {s1 s2 s3 : MemState}

theorem refl (s : MemState) : SameElse s s := ⟨rfl, rfl, rfl, rfl, rfl⟩

theorem trans (h1 : SameElse s1 s2) (h2 : SameElse s2 s3) : SameElse s1 s3 :=
  ⟨h2.1.trans h1.1, h2.2.trans h1.2, h2.3.trans h1.3, h2.4.trans h1.4, h2.5.trans h1.5⟩

theorem dir (h : SameElse s1 s2) : s2.dir = s1.dir := by rw [MemState.dir, h.cr3, MemState.dir]

theorem vaddr (h : SameElse s1 s2) (pf : PoolFlags) : s2.vaddr pf = s1.vaddr pf := by
  cases pf
  · exact h.kernelVaddr
  · rw [MemState.vaddr, MemState.vaddr, h.task, h.cur]

theorem layout (h : SameElse s1 s2) (hp : SamePools s1 s2) (hl : Layout s1) : Layout s2 := by
  obtain ⟨hk, -, hkl, -⟩ := hp .kernel
  obtain ⟨hu, -, hul, -⟩ := hp .user
  simp only [pool] at hk hkl hu hul
  obtain ⟨h1, h2, h3, h4, h5, h6, h7⟩ := hl
  rw [← h.kernelVaddr, ← hkl] at h6
  rw [← hkl, ← hu] at h2
  rw [← hu, ← hul] at h4
  exact ⟨hk.trans h1, h2, hu ▸ h3, h4, h.kernelVaddr ▸ h5, h6, hkl ▸ h7⟩

end SameElse

theorem Paged.used_dir (hs : Paged s live dead) (hd : d ∈ dead) : s.Used d := by
  obtain ⟨v, hv⟩ := hs.page d (.inr hd)
  exact hs.excl.used _ _ hv

namespace KernelKept

variable {s' s'' : MemState}

theorem refl (live : Set ℕ) (s : MemState) : KernelKept live s s :=
  ⟨rfl, fun _ _ _ _ => rfl, fun _ _ => rfl, .refl s, .refl s⟩

theorem trans (h : KernelKept live s s') (h' : KernelKept live s' s'') : KernelKept live s s'' where
  kernelDir := h'.kernelDir.trans h.kernelDir
  upper d hd i hi := (h'.upper d hd i hi).trans (h.upper d hd i hi)
  lowMem i hi := (h'.lowMem i hi).trans (h.lowMem i hi)
  pools := h.pools.trans h'.pools
  rest := h.rest.trans h'.rest

theorem shares (h : KernelKept live s s') (hs : Paged s live dead)
    (hdata : ∀ d ∈ dead, ¬ Structural s.phys live d → s'.phys d = s.phys d) (d : ℕ)
    (hd : IsDir live dead d) : SharesKernel s'.phys d := by
  obtain ⟨h1, h2⟩ := hs.shares d hd
  have hup : ∀ i, 768 ≤ i → s'.phys d i = s.phys d i := by
    intro i hi
    rcases hd with rfl | hd | hd
    · rw [h.kernelDir]
    · exact h.upper d hd i hi
    · -- the directory of an exiting process is a page that no table refers to
      by_cases hl : d ∈ live
      · exact h.upper d hl i hi
      · obtain ⟨v, hv⟩ := hs.page d (.inr hd)
        rw [hdata d hd]
        rintro (hc | hc | ⟨d', i', hc⟩)
        · exact absurd (hs.low hv) (by omega)
        · exact hl hc
        · cases hs.excl.inj _ _ _ hc hv
  exact ⟨fun i hi hi' => (hup i hi).trans (h1 i hi hi'), (hup 1023 (by omega)).trans h2⟩

end KernelKept

namespace Takes

variable {s' s'' : MemState} {new new' : List (Use × ℕ)}

theorem refl (live : Set ℕ) (s : MemState) : Takes live s s [] where
  toKernelKept := .refl live s
  fresh := by simp
  nodup := List.nodup_nil
  got := by simp
  kept := fun _ _ _ => rfl
  used := by simp
  data := fun _ _ => rfl
  tlb := rfl

variable (h : Takes live s s' new)

include h

theorem valid (hm : (u, f) ∈ new) : u.Valid live := (h.fresh u f hm).1

theorem kept_of_holds (hu : Holds s.phys live u f) : Holds s'.phys live u f := by
  refine ⟨hu.1, (h.kept u hu.1 fun g hg => ?_).trans hu.2⟩
  have := (h.fresh u g hg).2.1
  rw [hu.2] at this
  cases this

/-- What is there now was there or is new. -/
theorem holds_or_new (hu : Holds s'.phys live u f) : Holds s.phys live u f ∨ (u, f) ∈ new := by
  by_cases hn : ∃ g, (u, g) ∈ new
  · obtain ⟨g, hg⟩ := hn
    have := (h.got u g hg).symm.trans hu.2
    cases this
    exact .inr hg
  · exact .inl ⟨hu.1, (h.kept u hu.1 (not_exists.1 hn)).symm.trans hu.2⟩

theorem structural (hf : Structural s.phys live f) : Structural s'.phys live f := by
  rcases hf with hf | hf | ⟨d, i, hf⟩
  · exact .inl hf
  · exact .inr (.inl hf)
  · exact .inr (.inr ⟨d, i, h.kept_of_holds hf⟩)

/-- A used frame belongs to the tables afterwards only if it did before. -/
theorem structural_of_used (hf : s.Used f)
    (hs : Structural s'.phys live f) : Structural s.phys live f := by
  rcases hs with hs | hs | ⟨d, i, hs⟩
  · exact .inl hs
  · exact .inr (.inl hs)
  · rcases h.holds_or_new hs with hold | hn
    · exact .inr (.inr ⟨d, i, hold⟩)
    · exact absurd hf (h.fresh _ _ hn).2.2.2

/-- The order of the list does not matter. -/
theorem perm (hp : new.Perm new') : Takes live s s' new' where
  toKernelKept := h.toKernelKept
  fresh u f hm := h.fresh u f (hp.mem_iff.2 hm)
  nodup := (hp.map _).nodup_iff.1 h.nodup
  got u f hm := h.got u f (hp.mem_iff.2 hm)
  kept u hu hm := h.kept u hu fun f hf => hm f (hp.mem_iff.1 hf)
  used f := (h.used f).trans (or_congr Iff.rfl (exists_congr fun _ => hp.mem_iff))
  data := h.data
  tlb := h.tlb

/-- **One allocation after another.** -/
theorem trans (h' : Takes live s' s'' new') : Takes live s s'' (new ++ new') where
  toKernelKept := h.toKernelKept.trans h'.toKernelKept
  fresh u f hm := by
    rcases List.mem_append.1 hm with hm | hm
    · exact h.fresh u f hm
    · obtain ⟨hv, hnone, hhas, hused⟩ := h'.fresh u f hm
      refine ⟨hv, ?_, (h.pools.has _).1 hhas, fun hc => hused ((h.used f).2 (.inl hc))⟩
      rw [← h.kept u hv fun g hg => ?_]
      · exact hnone
      · rw [h.got u g hg] at hnone
        cases hnone
  nodup := by
    rw [List.map_append]
    refine List.nodup_append.2 ⟨h.nodup, h'.nodup, ?_⟩
    rintro _ hf _ hf' rfl
    obtain ⟨⟨u, f⟩, hm, rfl⟩ := List.mem_map.1 hf
    obtain ⟨⟨u', f'⟩, hm', rfl⟩ := List.mem_map.1 hf'
    exact (h'.fresh u' f' hm').2.2.2 ((h.used f').2 (.inr ⟨u, hm⟩))
  got u f hm := by
    rcases List.mem_append.1 hm with hm | hm
    · exact (h'.kept_of_holds ⟨h.valid hm, h.got u f hm⟩).2
    · exact h'.got u f hm
  kept u hu hm := by
    rw [h'.kept u hu fun g hg => hm g (List.mem_append_right _ hg),
      h.kept u hu fun g hg => hm g (List.mem_append_left _ hg)]
  used f := by
    rw [h'.used, h.used, or_assoc]
    refine or_congr Iff.rfl ?_
    simp only [List.mem_append, exists_or]
  data f hf := by
    rw [h'.data f hf, h.data f fun hc => hf (h'.structural hc)]
  tlb := h'.tlb.trans h.tlb

/-- **An allocation keeps the invariant.** -/
theorem paged (hs : Paged s live dead) : Paged s' live dead where
  layout := h.rest.layout h.pools hs.layout
  shares := h.shares hs fun d hd hst => h.data d fun hc =>
    hst (h.structural_of_used (hs.used_dir hd) hc)
  page d hd := by
    obtain ⟨v, hv⟩ := hs.page d hd
    exact ⟨v, h.kept_of_holds hv⟩
  excl := by
    refine hs.excl.step (fun u f hu => ?_) (fun u u' f hu hu' hf => ?_) fun u f hu => ?_
    · exact (h.holds_or_new hu).imp_right fun hn => (h.fresh u f hn).2.2.2
    · have hn := (h.holds_or_new hu).resolve_left fun hc => hf (hs.excl.used _ _ hc)
      have hn' := (h.holds_or_new hu').resolve_left fun hc => hf (hs.excl.used _ _ hc)
      exact congrArg Prod.fst (List.inj_on_of_nodup_map h.nodup hn hn' rfl)
    · rw [h.used]
      exact (h.holds_or_new hu).imp (hs.excl.used u f) fun hn => ⟨u, hn⟩
  side u f hu := by
    rw [h.pools.has]
    rcases h.holds_or_new hu with hold | hn
    · exact hs.side u f hold
    · exact (h.fresh u f hn).2.2.1
  lowMem i hi := (h.lowMem i hi).trans (hs.lowMem i hi)
  running := by rw [h.rest.dir]; exact hs.running
  tlb := by rw [h.tlb]; exact hs.tlb

/-- **Each new place costs one frame of its pool.** -/
theorem free (hs : Paged s live dead) (pf : PoolFlags) :
    (s.pool pf).free = (s'.pool pf).free + (new.filter fun x => x.1.side = pf).length := by
  have hl := (h.paged hs).layout
  have hnodup : ((new.filter fun x => x.1.side = pf).map Prod.snd).Nodup :=
    h.nodup.sublist (List.filter_sublist.map Prod.snd)
  have hlen : (new.filter fun x => x.1.side = pf).length =
      ((new.filter fun x => x.1.side = pf).map Prod.snd).toFinset.card := by
    rw [List.toFinset_card_of_nodup hnodup, List.length_map]
  rw [hlen, Pool.free, Pool.free, ← Finset.card_union_of_disjoint]
  · congr 1
    ext f
    rw [Finset.mem_union, Pool.mem_freeFrames, Pool.mem_freeFrames, h.pools.has, List.mem_toFinset,
      List.mem_map]
    constructor
    · rintro ⟨hhas, hfree⟩
      rw [← hs.layout.used_iff hhas] at hfree
      by_cases hn : ∃ u, (u, f) ∈ new
      · obtain ⟨u, hu⟩ := hn
        refine .inr ⟨(u, f), List.mem_filter.2 ⟨hu, ?_⟩, rfl⟩
        have hside := (h.fresh u f hu).2.2.1
        cases hp : u.side <;> cases pf <;> rw [hp] at hside <;>
          simp only [decide_true, decide_eq_true_eq, reduceCtorEq]
        · exact absurd (hs.layout.kernel_lt_user hside hhas) (by omega)
        · exact absurd (hs.layout.kernel_lt_user hhas hside) (by omega)
      · refine .inl ⟨hhas, fun hc => ?_⟩
        rw [← hl.used_iff ((h.pools.has pf).2 hhas), h.used] at hc
        exact hc.elim hfree hn
    · rintro (⟨hhas, hfree⟩ | ⟨⟨u, g⟩, hm, rfl⟩)
      · refine ⟨hhas, fun hc => hfree ?_⟩
        rw [← hl.used_iff ((h.pools.has pf).2 hhas), h.used]
        exact .inl ((hs.layout.used_iff hhas).2 hc)
      · obtain ⟨hm, hside⟩ := List.mem_filter.1 hm
        obtain ⟨-, -, hhas, hfree⟩ := h.fresh u g hm
        rw [of_decide_eq_true hside] at hhas
        exact ⟨hhas, fun hc => hfree ((hs.layout.used_iff hhas).2 hc)⟩
  · rw [Finset.disjoint_left]
    intro f hf hm
    obtain ⟨hhas, hfree⟩ := Pool.mem_freeFrames.1 hf
    rw [List.mem_toFinset, List.mem_map] at hm
    obtain ⟨⟨u, g⟩, hm, rfl⟩ := hm
    rw [← hl.used_iff hhas, h.used] at hfree
    exact hfree (.inr ⟨u, (List.mem_filter.1 hm).1⟩)

end Takes

/-- The place of a page of the kernel heap, or of the user half of the directory `d`. -/
def Use.ofPage (pf : PoolFlags) (d v : ℕ) : Use :=
  match pf with
  | .kernel => .kpage v
  | .user => .upage d v

@[simp] theorem Use.side_ofPage (pf : PoolFlags) (d v : ℕ) : (Use.ofPage pf d v).side = pf := by
  cases pf <;> rfl

/-- A page of the kernel or of the running process, as the MMU finds it. -/
theorem Paged.walk_eq (h : Paged s live dead) (pf : PoolFlags)
    (hv : (Use.ofPage pf s.dir v).Valid live) :
    walk s.phys s.dir v = (Use.ofPage pf s.dir v).frame s.phys := by
  cases pf with
  | kernel =>
    obtain ⟨h1, h2⟩ := Use.valid_kpage.1 hv
    exact (h.shares _ h.running).walk_kernel (by omega) h2
  | user => rfl

/-- Nothing that happens to other pages makes the TLB and the tables disagree about a page. -/
theorem Agrees.of_holds {s' : MemState} {pf : PoolFlags} (ha : Agrees s v) (h : Paged s live dead)
    (h' : Paged s' live dead) (hdir : s'.dir = s.dir)
    (hu : Holds s.phys live (.ofPage pf s.dir v) f)
    (hu' : Holds s'.phys live (.ofPage pf s.dir v) f)
    (htlb : s'.tlb v = none ∨ s'.tlb v = s.tlb v) : Agrees s' v := by
  have hwalk : walk s'.phys s'.dir v = walk s.phys s.dir v := by
    rw [h'.walk_eq pf (by rw [hdir]; exact hu'.1), h.walk_eq pf hu.1, hdir, hu.2, hu'.2]
  rcases htlb with hnone | he
  · exact translate_of_tlb hnone
  · rw [Agrees, MemState.translate, he, hwalk]
    exact ha

theorem Agrees.translate {pf : PoolFlags} (ha : Agrees s v) (h : Paged s live dead)
    (hu : Holds s.phys live (.ofPage pf s.dir v) f) : s.translate v = some f :=
  (ha.trans (h.walk_eq pf hu.1)).trans hu.2

/-! ### Releases -/

/-- **What a release does.** It empties places and marks their frames free. Nothing else in the
tables changes, and no memory outside the tables. The TLB may keep the pages it unmaps. -/
structure Gives (live : Set ℕ) (s s' : MemState) (old : List (Use × ℕ)) : Prop
    extends KernelKept live s s' where
  held : ∀ u f, (u, f) ∈ old → Holds s.phys live u f
  gone : ∀ u f, (u, f) ∈ old → u.frame s'.phys = none
  kept : ∀ u, u.Valid live → (∀ f, (u, f) ∉ old) → u.frame s'.phys = u.frame s.phys
  used : ∀ f, s'.Used f ↔ s.Used f ∧ ∀ u, (u, f) ∉ old
  data : ∀ f, ¬ Structural s.phys live f → s'.phys f = s.phys f
  tlb : ∀ v, s'.tlb v = none ∨ s'.tlb v = s.tlb v ∨ ∃ pf f, (Use.ofPage pf s.dir v, f) ∈ old

namespace Gives

variable {s' s'' : MemState} {old old' : List (Use × ℕ)}

theorem refl (live : Set ℕ) (s : MemState) : Gives live s s [] where
  toKernelKept := .refl live s
  held := by simp
  gone := by simp
  kept := fun _ _ _ => rfl
  used := by simp
  data := fun _ _ => rfl
  tlb := fun _ => .inr (.inl rfl)

variable (h : Gives live s s' old)

include h

theorem holds (hu : Holds s'.phys live u f) : Holds s.phys live u f := by
  refine ⟨hu.1, (h.kept u hu.1 fun g hg => ?_).symm.trans hu.2⟩
  have := h.gone u g hg
  rw [hu.2] at this
  cases this

theorem kept_of_holds (hu : Holds s.phys live u f) (hm : (u, f) ∉ old) :
    Holds s'.phys live u f := by
  refine ⟨hu.1, (h.kept u hu.1 fun g hg => ?_).trans hu.2⟩
  have := (h.held u g hg).2.symm.trans hu.2
  cases this
  exact hm hg

theorem structural (hf : Structural s'.phys live f) : Structural s.phys live f := by
  rcases hf with hf | hf | ⟨d, i, hf⟩
  · exact .inl hf
  · exact .inr (.inl hf)
  · exact .inr (.inr ⟨d, i, h.holds hf⟩)

/-- **One release after another.** -/
theorem trans (h' : Gives live s' s'' old') : Gives live s s'' (old ++ old') where
  toKernelKept := h.toKernelKept.trans h'.toKernelKept
  held u f hm := by
    rcases List.mem_append.1 hm with hm | hm
    · exact h.held u f hm
    · exact h.holds (h'.held u f hm)
  gone u f hm := by
    by_cases hm' : ∃ g, (u, g) ∈ old'
    · obtain ⟨g, hg⟩ := hm'
      exact h'.gone u g hg
    · have hold := (List.mem_append.1 hm).resolve_right fun hc => hm' ⟨f, hc⟩
      rw [h'.kept u (h.held u f hold).1 (not_exists.1 hm'), h.gone u f hold]
  kept u hu hm := by
    rw [h'.kept u hu fun g hg => hm g (List.mem_append_right _ hg),
      h.kept u hu fun g hg => hm g (List.mem_append_left _ hg)]
  used f := by
    rw [h'.used, h.used, and_assoc]
    simp only [List.mem_append, not_or, forall_and]
  data f hf := by
    rw [h'.data f fun hc => hf (h.structural hc), h.data f hf]
  tlb v := by
    rcases h'.tlb v with hnone | he | ⟨pf, f, hm⟩
    · exact .inl hnone
    · rw [he]
      exact (h.tlb v).imp_right (Or.imp_right fun ⟨pf, f, hm⟩ => ⟨pf, f, List.mem_append_left _ hm⟩)
    · rw [h.rest.dir] at hm
      exact .inr (.inr ⟨pf, f, List.mem_append_right _ hm⟩)

/-- **A release keeps the invariant** if it does not take a directory away. -/
theorem paged (hs : Paged s live dead)
    (hdir : ∀ u d, (u, d) ∈ old → d ∉ live ∧ d ∉ dead) : Paged s' live dead where
  layout := h.rest.layout h.pools hs.layout
  shares := h.shares hs fun d _ => h.data d
  page d hd := by
    obtain ⟨v, hv⟩ := hs.page d hd
    exact ⟨v, h.kept_of_holds hv fun hm => hd.elim (hdir _ d hm).1 (hdir _ d hm).2⟩
  excl := by
    refine hs.excl.sub (fun u f hu => h.holds hu) fun u f hu => ?_
    refine (h.used f).2 ⟨hs.excl.used _ _ (h.holds hu), fun u' hm => ?_⟩
    have he := hs.excl.inj _ _ _ (h.held u' f hm) (h.holds hu)
    subst he
    have := h.gone u' f hm
    rw [hu.2] at this
    cases this
  side u f hu := by
    rw [h.pools.has]
    exact hs.side u f (h.holds hu)
  lowMem i hi := (h.lowMem i hi).trans (hs.lowMem i hi)
  running := by rw [h.rest.dir]; exact hs.running
  tlb v hv := by
    rcases h.tlb v with hnone | he | ⟨pf, f, hm⟩
    · exact hnone
    · rw [he]
      exact hs.tlb v hv
    · -- pages of the window are no places
      have hvalid := (h.held _ f hm).1
      cases pf with
      | kernel => exact absurd (Use.valid_kpage.1 hvalid).2 (by omega)
      | user => exact absurd hvalid.2 (by omega)

end Gives

/-! ### Writing to pages -/

/-- The frames `fs` may have other contents, and that is all. -/
structure Writes (s s' : MemState) (fs : Set ℕ) : Prop where
  phys : ∀ f, f ∉ fs → s'.phys f = s.phys f
  kernelPool : s'.kernelPool = s.kernelPool
  userPool : s'.userPool = s.userPool
  rest : SameElse s s'
  tlb : s'.tlb = s.tlb

/-- A frame that is no directory and no table. -/
def Data (phys : ℕ → ℕ → ℕ) (live dead : Set ℕ) (f : ℕ) : Prop :=
  ¬ Structural phys live f ∧ f ∉ dead

theorem Data.ne_kernelTable (h : Data s.phys live dead f) (hv : v < 0xffc00) :
    f ≠ kernelTable (v / 1024) := by
  rintro rfl
  exact h.1 (.inl (kernelTable_lt hv))

namespace Writes

variable {s' s'' : MemState} {fs fs' : Set ℕ}

theorem refl (s : MemState) (fs : Set ℕ) : Writes s s fs :=
  ⟨fun _ _ => rfl, rfl, rfl, .refl s, rfl⟩

theorem setWord (s : MemState) (f i w : ℕ) : Writes s (s.setWord f i w) {f} :=
  ⟨fun _ hg => Function.update_of_ne hg _ _, rfl, rfl, ⟨rfl, rfl, rfl, rfl, rfl⟩, rfl⟩

theorem setPage (s : MemState) (f : ℕ) (page : ℕ → ℕ) : Writes s (s.setPage f page) {f} :=
  ⟨fun _ hg => Function.update_of_ne hg _ _, rfl, rfl, ⟨rfl, rfl, rfl, rfl, rfl⟩, rfl⟩

variable (h : Writes s s' fs)

include h

theorem mono (hfs : fs ⊆ fs') : Writes s s' fs' :=
  ⟨fun f hf => h.phys f fun hc => hf (hfs hc), h.kernelPool, h.userPool, h.rest, h.tlb⟩

theorem trans (h' : Writes s' s'' fs) : Writes s s'' fs :=
  ⟨fun f hf => (h'.phys f hf).trans (h.phys f hf), h'.kernelPool.trans h.kernelPool,
    h'.userPool.trans h.userPool, h.rest.trans h'.rest, h'.tlb.trans h.tlb⟩

theorem pools : SamePools s s' := by
  intro pf
  cases pf
  · rw [pool, pool, h.kernelPool]; exact .refl _
  · rw [pool, pool, h.userPool]; exact .refl _

theorem used : s'.Used f ↔ s.Used f := by
  rw [Used, Used, h.kernelPool, h.userPool]

/-- **The tables are the same after a write to other memory.** -/
theorem frame (hfs : ∀ f ∈ fs, Data s.phys live dead f) (hu : u.Valid live) :
    u.frame s'.phys = u.frame s.phys := by
  have hlive : ∀ d ∈ live, s'.phys d = s.phys d := fun d hd =>
    h.phys d fun hc => (hfs d hc).1 (.inr (.inl hd))
  cases u with
  | kpage v =>
    have hv := (Use.valid_kpage.1 hu).2
    rw [Use.frame, h.phys _ fun hc => (hfs _ hc).ne_kernelTable hv rfl]
    rfl
  | table d i => rw [Use.frame, hlive d hu.1]; rfl
  | upage d v =>
    refine walk_congr (by rw [hlive d hu.1]) fun t ht => ?_
    rw [h.phys t fun hc => (hfs t hc).1 (.inr (.inr ⟨d, v / 1024, ?_⟩))]
    exact Paged.holds_table hu.1 (by have := hu.2; omega) ht

theorem holds (hfs : ∀ f ∈ fs, Data s.phys live dead f) :
    Holds s'.phys live u f ↔ Holds s.phys live u f :=
  and_congr_right fun hu => by rw [h.frame hfs hu]

theorem structural (hfs : ∀ f ∈ fs, Data s.phys live dead f) :
    Structural s'.phys live f ↔ Structural s.phys live f := by
  simp only [Structural, h.holds hfs]

theorem paged (hs : Paged s live dead)
    (hfs : ∀ f ∈ fs, Data s.phys live dead f) : Paged s' live dead where
  layout := h.rest.layout h.pools hs.layout
  shares d hd := by
    have hd' : s'.phys d = s.phys d := by
      refine h.phys d fun hc => ?_
      rcases hd with rfl | hd | hd
      · exact (hfs _ hc).1 (.inl (by decide))
      · exact (hfs _ hc).1 (.inr (.inl hd))
      · exact (hfs _ hc).2 hd
    rw [SharesKernel, hd']
    exact hs.shares d hd
  page d hd := by
    obtain ⟨v, hv⟩ := hs.page d hd
    exact ⟨v, (h.holds hfs).2 hv⟩
  excl := hs.excl.sub (fun u f hu => (h.holds hfs).1 hu) fun u f hu =>
    h.used.2 (hs.excl.used u f ((h.holds hfs).1 hu))
  side u f hu := (h.pools.has _).2 (hs.side u f ((h.holds hfs).1 hu))
  lowMem i hi := by
    rw [h.phys _ fun hc => (hfs _ hc).ne_kernelTable (v := 0xc0000) (by decide) rfl]
    exact hs.lowMem i hi
  running := by rw [h.rest.dir]; exact hs.running
  tlb := by rw [h.tlb]; exact hs.tlb

theorem agrees {pf : PoolFlags} (hs : Paged s live dead)
    (hfs : ∀ f ∈ fs, Data s.phys live dead f) (hu : Holds s.phys live (.ofPage pf s.dir v) f)
    (ha : Agrees s v) : Agrees s' v :=
  ha.of_holds hs (h.paged hs hfs) h.rest.dir hu ((h.holds hfs).2 hu) (.inr (by rw [h.tlb]))

/-- A write does not move a page. -/
theorem translate {pf : PoolFlags} (hs : Paged s live dead)
    (hfs : ∀ f ∈ fs, Data s.phys live dead f) (hu : Holds s.phys live (.ofPage pf s.dir v) f)
    (ha : Agrees s v) : s'.translate v = some f := by
  have hu' : Holds s'.phys live (.ofPage pf s'.dir v) f := by
    rw [h.rest.dir]
    exact (h.holds hfs).2 hu
  exact (h.agrees hs hfs hu ha).translate (h.paged hs hfs) hu'

end Writes

end

/-! ### Start -/

theorem kernelTable_ne_kernelDir (i : ℕ) : kernelTable i ≠ kernelDir := by
  unfold kernelTable
  simp only [kernelDir]
  omega

theorem layout_memInit (allMem mainThread : ℕ) : Layout (memInit allMem mainThread) := by
  have hm : sub32 allMem (pgSize * 256 + 0x100000) / pgSize % 2 ^ 16 < 2 ^ 16 :=
    Nat.mod_lt _ (by decide)
  refine ⟨rfl, ?_, ?_, ?_, rfl, rfl, ?_⟩ <;> dsimp only [memInit, bitmapInit, pgSize] at hm ⊢ <;>
    omega

/-- Above the low megabyte the loader leaves the kernel's tables empty. -/
theorem frame_setupPage {v : ℕ} (h1 : 0xc0100 ≤ v) (h2 : v < 0xffc00) :
    (Use.kpage v).frame setupPage = none := by
  have hzero : setupPage (kernelTable (v / 1024)) (v % 1024) = 0 := by
    rw [setupPage, if_neg (kernelTable_ne_kernelDir _), if_neg]
    rintro ⟨ht, hlow⟩
    have := kernelTable_inj (v := v) (w := 0xc0000) (by omega) (by omega) ht
    omega
  rw [Use.frame, hzero, target_zero]

/-- **The tables that the loader builds.** -/
theorem paged_memInit (allMem mainThread : ℕ) : Paged (memInit allMem mainThread) ∅ ∅ := by
  have hnone : ∀ u f, ¬ Holds setupPage ∅ u f := by
    rintro u f ⟨hv, hf⟩
    cases u with
    | kpage v =>
      obtain ⟨h1, h2⟩ := Use.valid_kpage.1 hv
      rw [frame_setupPage h1 h2] at hf
      cases hf
    | table d i => exact hv.1
    | upage d v => exact hv.1
  refine ⟨layout_memInit allMem mainThread, fun d hd => ?_, fun d hd => ?_, ⟨?_, ?_⟩, ?_,
    fun i hi => ?_, .inl (Nat.mul_div_cancel _ (by decide)), fun _ _ => rfl⟩
  · obtain rfl : d = kernelDir := by simpa [IsDir] using hd
    refine ⟨fun i h1 h2 => ?_, rfl⟩
    change setupPage kernelDir i = _
    rw [setupPage, if_pos rfl, if_neg (by omega), if_pos ⟨h1, h2⟩]
  · simp at hd
  · exact fun u u' f hu => absurd hu (hnone u f)
  · exact fun u f hu => absurd hu (hnone u f)
  · exact fun u f hu => absurd hu (hnone u f)
  · change setupPage (kernelTable 768) i = _
    rw [setupPage, if_neg (kernelTable_ne_kernelDir _), if_pos ⟨rfl, hi⟩]

end X86Os.Mem
