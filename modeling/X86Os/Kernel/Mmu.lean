import X86Os.Kernel.Memory
import Mathlib.Order.Interval.Finset.Nat

/-!
# The tables through the window, and the frames of a pool

Two things that everything about pages rests on. The last entry of a page directory points to the
directory, so the last four megabytes of an address space show its own tables: `load` and `store` at
`pte_ptr` and `pde_ptr` read and write the entries of the tables in physical memory. And `palloc`
returns a frame of the pool that was free, and `pfree` marks a frame in the pool it came from.
-/

namespace X86Os.Mem

open X86Os.Comp MemState

/-! ### Entries -/

theorem entry_eq (f : ℕ) : entry (f * pgSize) = f * pgSize + 7 := by
  have h : f * pgSize + 7 = f * pgSize ||| 7 := by
    rw [pgSize, Nat.mul_comm]
    exact Nat.two_pow_add_eq_or_of_lt (i := 12) (by decide) f
  rw [entry, h, Nat.or_assoc, Nat.or_assoc]
  rfl

@[simp] theorem target_entry (f : ℕ) : target (entry (f * pgSize)) = some f := by
  have h1 : (f * pgSize + 7) % 2 = 1 := by simp only [pgSize]; omega
  have h2 : (f * pgSize + 7) / pgSize = f := by simp only [pgSize]; omega
  rw [target, present, frameOf, entry_eq, Nat.testBit_zero, if_pos (decide_eq_true h1), h2]

@[simp] theorem target_zero : target 0 = none := rfl

@[simp] theorem target_clearP (w : ℕ) : target (w - w % 2) = none := by
  have h : ¬ (w - w % 2) % 2 = 1 := by omega
  rw [target, present, Nat.testBit_zero, if_neg (by simpa using h)]

theorem present_eq_isSome (w : ℕ) : present w = (target w).isSome := by
  rw [target]
  cases present w <;> rfl

theorem present_of_target {w f : ℕ} (h : target w = some f) : present w = true := by
  rw [present_eq_isSome, h]; rfl

theorem present_of_target_none {w : ℕ} (h : target w = none) : present w = false := by
  rw [present_eq_isSome, h]; rfl

theorem frameOf_of_target {w f : ℕ} (h : target w = some f) : frameOf w = f := by
  rw [target] at h
  split at h
  · exact Option.some.inj h
  · cases h

theorem walk_of_target {phys : ℕ → ℕ → ℕ} {d v t : ℕ} (h : target (phys d (v / 1024)) = some t) :
    walk phys d v = target (phys t (v % 1024)) := by rw [walk, h]; rfl

theorem walk_of_none {phys : ℕ → ℕ → ℕ} {d v : ℕ} (h : target (phys d (v / 1024)) = none) :
    walk phys d v = none := by rw [walk, h]; rfl

theorem sub32_of_le {a b : ℕ} (h : b ≤ a) : sub32 a b = a - b := if_pos h

/-! ### Reading and writing memory -/

@[simp] theorem phys_setWord (s : MemState) (f i w : ℕ) :
    (s.setWord f i w).phys = Function.update s.phys f (Function.update (s.phys f) i w) := rfl

@[simp] theorem phys_setPage (s : MemState) (f : ℕ) (page : ℕ → ℕ) :
    (s.setPage f page).phys = Function.update s.phys f page := rfl

@[simp] theorem tlb_setWord (s : MemState) (f i w : ℕ) : (s.setWord f i w).tlb = s.tlb := rfl

@[simp] theorem tlb_setPage (s : MemState) (f : ℕ) (page : ℕ → ℕ) :
    (s.setPage f page).tlb = s.tlb := rfl

@[simp] theorem dir_setWord (s : MemState) (f i w : ℕ) : (s.setWord f i w).dir = s.dir := rfl

@[simp] theorem dir_setPage (s : MemState) (f : ℕ) (page : ℕ → ℕ) :
    (s.setPage f page).dir = s.dir := rfl

section

variable {s : MemState} {va v f t w : ℕ}

/-- What the TLB does not have is looked up in the tables. -/
theorem translate_of_tlb (h : s.tlb v = none) : s.translate v = walk s.phys s.dir v := by
  rw [MemState.translate, h, Option.none_or]

/-- An access to the page goes where the tables say. -/
def Agrees (s : MemState) (v : ℕ) : Prop := s.translate v = walk s.phys s.dir v

/-- No page was unmapped since `cr3` was loaded. -/
def Flushed (s : MemState) : Prop := ∀ v, s.tlb v = none

theorem Flushed.agrees (h : Flushed s) (v : ℕ) : Agrees s v := translate_of_tlb (h v)

theorem Flushed.congr {s' : MemState} (h : Flushed s) (htlb : s'.tlb = s.tlb) : Flushed s' := by
  rw [Flushed, htlb]
  exact h

theorem load_of_translate (h : s.translate (va / pgSize) = some f) :
    load va s = .ok (s.phys f (va % pgSize / 4), s) := by rw [load, h]

theorem store_of_translate (h : s.translate (va / pgSize) = some f) :
    store va w s = .ok ((), s.setWord f (va % pgSize / 4) w) := by rw [store, h]

theorem clear_of_translate {size : ℕ} (h : s.translate (va / pgSize) = some f) :
    clear va size s = .ok ((), s.setPage f fun i =>
      if va % pgSize / 4 ≤ i ∧ i < (va % pgSize + size) / 4 then 0 else s.phys f i) := by
  rw [clear, h]

/-! ### The window -/

/-- The last entry of the directory in use points to the directory, and no page of the window has
been unmapped. -/
structure Window (s : MemState) : Prop where
  self : target (s.phys s.dir 1023) = some s.dir
  tlb : ∀ v, 0xffc00 ≤ v → s.tlb v = none

theorem Window.congr {s' : MemState} (h : Window s) (hdir : s'.dir = s.dir) (htlb : s'.tlb = s.tlb)
    (hself : s'.phys s.dir 1023 = s.phys s.dir 1023) : Window s' :=
  ⟨by rw [hdir, hself]; exact h.self, by rw [htlb]; exact h.tlb⟩

/-- The window's last page is the directory itself. -/
theorem translate_pdePtr (h : Window s) (hv : va < 2 ^ 32) :
    s.translate (pdePtr va / pgSize) = some s.dir := by
  have h1 : pdePtr va / pgSize = 0xfffff := by simp only [pdePtr, pgSize]; omega
  rw [h1, translate_of_tlb (h.tlb _ (by decide)), walk, h.self]
  exact h.self

theorem load_pdePtr (h : Window s) (hv : va < 2 ^ 32) :
    load (pdePtr va) s = .ok (s.phys s.dir (va / pgSize / 1024), s) := by
  rw [load_of_translate (translate_pdePtr h hv)]
  have h1 : pdePtr va % pgSize / 4 = va / pgSize / 1024 := by
    simp only [pdePtr, pgSize]; omega
  rw [h1]

theorem store_pdePtr (h : Window s) (hv : va < 2 ^ 32) :
    store (pdePtr va) w s = .ok ((), s.setWord s.dir (va / pgSize / 1024) w) := by
  rw [store_of_translate (translate_pdePtr h hv)]
  have h1 : pdePtr va % pgSize / 4 = va / pgSize / 1024 := by
    simp only [pdePtr, pgSize]; omega
  rw [h1]

/-- Page `i` of the window is the table of entry `i`. -/
theorem translate_ptePtr (h : Window s) (hv : va < 2 ^ 32)
    (ht : target (s.phys s.dir (va / pgSize / 1024)) = some t) :
    s.translate (ptePtr va / pgSize) = some t := by
  have h1 : ptePtr va / pgSize / 1024 = 1023 := by simp only [ptePtr, pgSize]; omega
  have h2 : ptePtr va / pgSize % 1024 = va / pgSize / 1024 := by
    simp only [ptePtr, pgSize]; omega
  rw [translate_of_tlb (h.tlb _ (by omega)), walk, h1, h.self, Option.bind_some, h2, ht]

theorem ptePtr_word : ptePtr va % pgSize / 4 = va / pgSize % 1024 := by
  simp only [ptePtr, pgSize]; omega

theorem load_ptePtr (h : Window s) (hv : va < 2 ^ 32)
    (ht : target (s.phys s.dir (va / pgSize / 1024)) = some t) :
    load (ptePtr va) s = .ok (s.phys t (va / pgSize % 1024), s) := by
  rw [load_of_translate (translate_ptePtr h hv ht), ptePtr_word]

theorem store_ptePtr (h : Window s) (hv : va < 2 ^ 32)
    (ht : target (s.phys s.dir (va / pgSize / 1024)) = some t) :
    store (ptePtr va) w s = .ok ((), s.setWord t (va / pgSize % 1024) w) := by
  rw [store_of_translate (translate_ptePtr h hv ht), ptePtr_word]

/-- A page of zeros. -/
def zeroPage (old : ℕ → ℕ) : ℕ → ℕ := fun i => if i < 1024 then 0 else old i

theorem clear_page (h : s.translate v = some f) :
    clear (v * pgSize) pgSize s = .ok ((), s.setPage f (zeroPage (s.phys f))) := by
  have hv : v * pgSize / pgSize = v := by simp only [pgSize]; omega
  rw [clear_of_translate (f := f) (by rw [hv]; exact h)]
  refine congrArg (fun p => Except.ok ((), s.setPage f p)) (funext fun i => ?_)
  rw [zeroPage]
  exact if_congr (by simp only [pgSize]; omega) rfl rfl

end

/-! ### Frames and pools -/

namespace Pool

/-- The first frame. -/
def first (p : Pool) : ℕ := p.phyAddrStart / pgSize

/-- The frames that the bitmap is about. -/
def Has (p : Pool) (f : ℕ) : Prop := p.first ≤ f ∧ f < p.first + 8 * p.poolBitmap.btmpBytesLen

/-- The frames in use. -/
def Used (p : Pool) (f : ℕ) : Prop := p.Has f ∧ p.poolBitmap.bit (f - p.first) = true

/-- The pool with the bit of a frame set or cleared. -/
def mark (p : Pool) (f : ℕ) (b : Bool) : Pool :=
  { p with poolBitmap := bitmapSet p.poolBitmap (f - p.first) b }

/-- A pool without a free frame. -/
def Full (p : Pool) : Prop := ∀ f, p.Has f → p.Used f

/-- The free frames. -/
def freeFrames (p : Pool) : Finset ℕ :=
  (Finset.Ico p.first (p.first + 8 * p.poolBitmap.btmpBytesLen)).filter fun f =>
    p.poolBitmap.bit (f - p.first) = false

/-- How many frames are free. -/
def free (p : Pool) : ℕ := p.freeFrames.card

variable {p : Pool} {f g : ℕ} {b : Bool}

@[simp] theorem first_mark : (p.mark f b).first = p.first := rfl

@[simp] theorem has_mark : (p.mark f b).Has g ↔ p.Has g := Iff.rfl

@[simp] theorem phyAddrStart_mark : (p.mark f b).phyAddrStart = p.phyAddrStart := rfl

@[simp] theorem btmpBytesLen_mark :
    (p.mark f b).poolBitmap.btmpBytesLen = p.poolBitmap.btmpBytesLen := rfl

theorem mem_freeFrames : f ∈ p.freeFrames ↔ p.Has f ∧ ¬ p.Used f := by
  rw [freeFrames, Finset.mem_filter, Finset.mem_Ico, ← Has, Used]
  refine and_congr_right fun h => ?_
  simp [h]

theorem Full.free_eq (h : p.Full) : p.free = 0 := by
  rw [free, Finset.card_eq_zero, Finset.eq_empty_iff_forall_notMem]
  intro f hf
  obtain ⟨hhas, hfree⟩ := mem_freeFrames.1 hf
  exact hfree (h f hhas)

theorem used_mark_true (hf : p.Has f) : (p.mark f true).Used g ↔ p.Used g ∨ g = f := by
  simp only [Used, has_mark, first_mark]
  rw [mark, bit_bitmapSet]
  constructor
  · rintro ⟨hg, hb⟩
    split at hb
    · exact .inr (by have := hg.1; have := hf.1; omega)
    · exact .inl ⟨hg, hb⟩
  · rintro (⟨hg, hb⟩ | rfl)
    · exact ⟨hg, by rw [hb, ite_self]⟩
    · exact ⟨hf, if_pos rfl⟩

theorem used_mark_false (hf : p.Has f) : (p.mark f false).Used g ↔ p.Used g ∧ g ≠ f := by
  simp only [Used, has_mark, first_mark]
  rw [mark, bit_bitmapSet]
  constructor
  · rintro ⟨hg, hb⟩
    split at hb
    · cases hb
    · exact ⟨⟨hg, hb⟩, by rintro rfl; contradiction⟩
  · rintro ⟨⟨hg, hb⟩, hne⟩
    exact ⟨hg, by rw [if_neg (by have := hg.1; have := hf.1; omega), hb]⟩

end Pool

namespace MemState

/-- The frames of the two pools that are in use. -/
def Used (s : MemState) (f : ℕ) : Prop := s.kernelPool.Used f ∨ s.userPool.Used f

/-- The state after the bit of a frame has been set or cleared. -/
def markFrame (s : MemState) (pf : PoolFlags) (f : ℕ) (b : Bool) : MemState :=
  s.setPool pf ((s.pool pf).mark f b)

end MemState

/-- Where the pools and the kernel heap are: the frames of the kernel pool come after the first two
megabytes and before the user pool, the heap has a page for each of them and ends below the window,
and it takes 32 bits to address it all. -/
structure Layout (s : MemState) : Prop where
  kernelStart : s.kernelPool.phyAddrStart = 0x200000
  below : 0x200000 + 8 * s.kernelPool.poolBitmap.btmpBytesLen * pgSize ≤ s.userPool.phyAddrStart
  aligned : s.userPool.phyAddrStart % pgSize = 0
  top : s.userPool.phyAddrStart + 8 * s.userPool.poolBitmap.btmpBytesLen * pgSize ≤ 2 ^ 32
  heapStart : s.kernelVaddr.vaddrStart = kHeapStart
  heapLen : s.kernelVaddr.vaddrBitmap.btmpBytesLen = s.kernelPool.poolBitmap.btmpBytesLen
  heapEnd : s.kernelPool.poolBitmap.btmpBytesLen ≤ 4096

namespace Layout

variable {s : MemState} {f : ℕ}

theorem kernel_lt_user {g : ℕ} (h : Layout s) (hf : s.kernelPool.Has f) (hg : s.userPool.Has g) :
    f < g := by
  have h1 := h.kernelStart
  have h2 := h.below
  have h3 := hf.2
  have h4 := hg.1
  simp only [Pool.first, pgSize, h1] at h2 h3 h4
  omega

theorem low (h : Layout s) {pf : PoolFlags} (hf : (s.pool pf).Has f) : 0x200 ≤ f := by
  have h1 := h.kernelStart
  have h2 := h.below
  have h3 := hf.1
  cases pf <;> simp only [pool, Pool.first, pgSize, h1] at h2 h3 <;> omega

theorem phyAddrStart_eq (h : Layout s) (pf : PoolFlags) :
    (s.pool pf).phyAddrStart = (s.pool pf).first * pgSize := by
  have h1 := h.kernelStart
  have h2 := h.aligned
  cases pf <;> simp only [pool, Pool.first, pgSize] at h1 h2 ⊢ <;> omega

theorem used_iff (h : Layout s) {pf : PoolFlags} (hf : (s.pool pf).Has f) :
    s.Used f ↔ (s.pool pf).Used f := by
  cases pf
  · exact ⟨fun hu => hu.resolve_right fun hc => absurd (h.kernel_lt_user hf hc.1) (by omega), .inl⟩
  · exact ⟨fun hu => hu.resolve_left fun hc => absurd (h.kernel_lt_user hc.1 hf) (by omega), .inr⟩

theorem markFrame (h : Layout s) (pf : PoolFlags) (f : ℕ) (b : Bool) :
    Layout (s.markFrame pf f b) := by
  cases pf <;> exact ⟨h.1, h.2, h.3, h.4, h.5, h.6, h.7⟩

end Layout

section

variable {s : MemState} {pf : PoolFlags} {f g : ℕ}

@[simp] theorem phys_markFrame (b : Bool) : (s.markFrame pf f b).phys = s.phys := by
  cases pf <;> rfl

@[simp] theorem tlb_markFrame (b : Bool) : (s.markFrame pf f b).tlb = s.tlb := by
  cases pf <;> rfl

@[simp] theorem dir_markFrame (b : Bool) : (s.markFrame pf f b).dir = s.dir := by
  cases pf <;> rfl

theorem used_markFrame_true (pf : PoolFlags) (hf : (s.pool pf).Has f) :
    (s.markFrame pf f true).Used g ↔ s.Used g ∨ g = f := by
  cases pf
  · rw [Used, show (s.markFrame .kernel f true).kernelPool = s.kernelPool.mark f true from rfl,
      Pool.used_mark_true (p := s.kernelPool) hf, Used, or_right_comm]
    rfl
  · rw [Used, show (s.markFrame .user f true).userPool = s.userPool.mark f true from rfl,
      Pool.used_mark_true (p := s.userPool) hf, Used, or_assoc]
    rfl

theorem used_markFrame_false (h : Layout s) (hf : (s.pool pf).Has f) :
    (s.markFrame pf f false).Used g ↔ s.Used g ∧ g ≠ f := by
  cases pf
  · rw [Used, show (s.markFrame .kernel f false).kernelPool = s.kernelPool.mark f false from rfl,
      Pool.used_mark_false (p := s.kernelPool) hf, Used, or_and_right]
    exact or_congr Iff.rfl ⟨fun hu => ⟨hu, fun he => absurd (h.kernel_lt_user hf hu.1) (by omega)⟩,
      And.left⟩
  · rw [Used, show (s.markFrame .user f false).userPool = s.userPool.mark f false from rfl,
      Pool.used_mark_false (p := s.userPool) hf, Used, or_and_right]
    exact or_congr ⟨fun hu => ⟨hu, fun he => absurd (h.kernel_lt_user hu.1 hf) (by omega)⟩,
      And.left⟩ Iff.rfl

/-- `palloc` returns a frame of the pool that was free, unless there is none. -/
theorem palloc_wp {Q : ℕ → MemState → Prop} {E : Fault → Prop} (h : Layout s)
    (hQ : ∀ f, (s.pool pf).Has f → ¬ s.Used f → Q (f * pgSize) (s.markFrame pf f true))
    (hE : (s.pool pf).Full → E (.panic .bitmapScan)) : wp (palloc pf) Q E s := by
  simp only [palloc, wp_bind, wp_get, wp_lift]
  refine ⟨fun r hr => ?_, fun e he => ?_⟩
  · obtain ⟨i, rfl, hi, hclear, -⟩ := bitmapScan_one hr
    rw [if_neg (by omega)]
    simp only [wp_bind, wp_modify, wp_pure, Int.toNat_natCast]
    have hhas : (s.pool pf).Has (i + (s.pool pf).first) := ⟨by omega, by omega⟩
    have hbit : i + (s.pool pf).first - (s.pool pf).first = i := by omega
    have hq := hQ _ hhas fun hu => by
      have hb := ((h.used_iff hhas).1 hu).2
      rw [hbit, hclear] at hb
      cases hb
    rw [Nat.add_mul, ← h.phyAddrStart_eq pf, MemState.markFrame, Pool.mark, hbit] at hq
    exact hq
  · rw [bitmapScan_error he]
    refine hE fun f hf => ⟨hf, ?_⟩
    by_contra hb
    have hlen : f - (s.pool pf).first < 8 * (s.pool pf).poolBitmap.btmpBytesLen := by
      have := hf.1
      have := hf.2
      omega
    obtain ⟨r, hr⟩ := bitmapScan_one_isOk hlen (by simpa using hb)
    rw [hr] at he
    cases he

/-- A frame is released in the pool it belongs to. -/
theorem releaseFrame_eq (h : Layout s) (hf : (s.pool pf).Has f) :
    releaseFrame (f * pgSize) s = .ok ((), s.markFrame pf f false) := by
  have hstart := h.phyAddrStart_eq pf
  have h1 := hf.1
  have h2 := hf.2
  have hpf : (if s.userPool.phyAddrStart ≤ f * pgSize then PoolFlags.user else .kernel) = pf := by
    cases pf
    · refine if_neg ?_
      have h3 := h.kernelStart
      have h4 := h.below
      simp only [pool, Pool.first, pgSize] at h2 h3 h4 ⊢
      omega
    · refine if_pos ?_
      simp only [pool, Pool.first, pgSize] at hstart h1 ⊢
      omega
  have hidx : sub32 (f * pgSize) (s.pool pf).phyAddrStart / pgSize = f - (s.pool pf).first := by
    rw [hstart, sub32_of_le (Nat.mul_le_mul_right _ h1)]
    simp only [pgSize]
    omega
  have hlt : decide (f - (s.pool pf).first < 8 * (s.pool pf).poolBitmap.btmpBytesLen) = true := by
    simp only [decide_eq_true_eq]
    omega
  rw [releaseFrame, bind_of_ok (get_apply s)]
  simp only [hpf, hidx]
  rw [bind_of_ok (check_of_true _ s hlt)]
  rfl

end

end X86Os.Mem
