import X86Os.Kernel.HeapCalls

/-!
# Runs of the heap

Kernel threads, or one process, allocate, free, and write to what they have. A run starts where the
page tables are in order and the descriptors are as `block_desc_init` leaves them; that is so for
the kernel after `mem_init`. Calls that stop the machine are not part of a run.

`mfree_page` leaves its pages in the TLB, and nothing but the next load of `cr3` takes them out. So
within one time slice a page can be mapped to a new frame while accesses still go to the old one,
which may by then belong to another arena. `Coherent` excludes that step and no other.

## Main results

* `HeapOk.step`, `heapOk_of_reach` — the invariant along a run
* `heap_disjoint` — **heap allocations never overlap**, and `heap_overlaps` — unless the TLB is
  stale
* `heap_accounts` — **the counts are right, and the kernel gets everything back**, and
  `heap_free_panics` — unless the TLB is stale
-/

namespace X86Os.Mem

open X86Os.Comp MemState
open Blocks (without mem_without)

/-- What happens in the context of one heap. A run records which pointers are out, with the sizes
they were asked for. -/
inductive HeapOp
  /-- A call of `sys_malloc`. -/
  | malloc (size : ℕ)
  /-- A call of `sys_free`. -/
  | free (ptr : ℕ)
  /-- The owner of a block writes a word of it. -/
  | write (va w : ℕ)
  /-- Another kernel thread runs. -/
  | run (thread : ℕ)
  /-- The time slice is over, and the task has its turn again. -/
  | reload

/-- The state it leaves. `schedule` loads `cr3`, which empties the TLB. -/
def HeapOp.next (x : MemState × List (ℕ × ℕ)) : HeapOp → Option (MemState × List (ℕ × ℕ))
  | malloc size =>
    match sysMalloc size x.1 with
    | .ok (p, s) => some (s, if p = 0 then x.2 else (p, size) :: x.2)
    | .error _ => none
  | free ptr =>
    if ptr ∈ x.2.map Prod.fst then (sysFree ptr).state? x.1 |>.map (·, without x.2 ptr) else none
  | write va w =>
    if ∃ b ∈ x.2, b.1 ≤ va ∧ va + 4 ≤ b.1 + b.2 then
      (store va w).state? x.1 |>.map (·, x.2) else none
  | run thread =>
    if (x.1.task x.1.cur).pgdir = 0 ∧ (x.1.task thread).pgdir = 0 then
      some ({ x.1 with cur := thread, cr3 := kernelDir * pgSize, tlb := fun _ => none }, x.2)
    else none
  | reload => some ({ x.1 with tlb := fun _ => none }, x.2)

/-- The calls that kernel threads, or one process, make from the state `s0` on. -/
def heapSys (s0 : MemState) : TransSys (MemState × List (ℕ × ℕ)) HeapOp :=
  .ofNext (· = (s0, [])) HeapOp.next

/-- `sys_malloc` maps no page that the TLB still has, to another frame. -/
def Coherent (x : MemState × List (ℕ × ℕ)) : HeapOp → Prop
  | .malloc size => NotStale x.1 (newPages x.1 size)
  | _ => True

instance (s : MemState) (v : ℕ) : Decidable (Agrees s v) := inferInstanceAs (Decidable (_ = _))

instance (s : MemState) (n : ℕ) : Decidable (NotStale s n) :=
  match h : mallocPage (heapPool s) n s with
  | .ok (a, s1) =>
    decidable_of_iff (a ≠ 0 → ∀ k < n, Agrees s1 (a / pgSize + k))
      ⟨fun hs _ _ he => by cases h.symm.trans he; exact hs, fun hs => hs a s1 h⟩
  | .error _ => .isTrue fun _ _ he => by cases h.symm.trans he

instance (x : MemState × List (ℕ × ℕ)) (op : HeapOp) : Decidable (Coherent x op) :=
  match op with
  | .malloc size => inferInstanceAs (Decidable (NotStale x.1 (newPages x.1 size)))
  | .free _ => .isTrue trivial
  | .write _ _ => .isTrue trivial
  | .run _ => .isTrue trivial
  | .reload => .isTrue trivial

section

variable {s s' s0 : MemState} {live dead : Set ℕ} {pf : PoolFlags} {A : Set (ℕ × Kind)}
  {out : List (ℕ × ℕ)} {a f i k n p size : ℕ} {x : MemState × List (ℕ × ℕ)}

/-! ### The invariant along a run -/

/-- **The invariant of a run.** -/
def HeapOk (live dead : Set ℕ) (pf : PoolFlags) (s0 : MemState) (x : MemState × List (ℕ × ℕ)) :
    Prop :=
  ∃ A, Heap live dead pf A x.2 x.1 ∧ Inhabited A x.2 ∧ (∀ p size, (p, size) ∈ x.2 → 0 < size) ∧
    (pf = .kernel → Accounts live s0 A x.1)

/-- The heap of a task that has just begun has no arenas. -/
theorem heap_fresh (hp : Paged s live dead) (hsp : Space s live (heapPool s))
    (hd : ∀ i < descCnt, s.desc (descAt s i) = freshDesc i) :
    Heap live dead (heapPool s) ∅ [] s where
  paged := hp
  space := hsp
  pool := rfl
  sizes i hi := by
    rw [hd i hi]
    exact ⟨rfl, rfl⟩
  blocks := by
    have hfree : ∀ i < descCnt, freeOf s i = [] := fun i hi => by
      rw [freeOf, hd i hi]
      rfl
    refine ⟨⟨?_, ?_, ?_⟩, fun i hi => ?_, fun i hi b => ?_, ?_, List.nodup_nil⟩
    · simp
    · simp
    · simp
    · rw [hfree i hi]
      exact List.nodup_nil
    · rw [hfree i hi]
      simp
    · simp
  page := by simp
  run := by simp
  header := by simp
  tlb := by simp

theorem Accounts.refl (live : Set ℕ) (s : MemState) : Accounts live s ∅ s where
  used := by simp
  fresh := by simp
  marked := by simp
  unmarked := by simp
  pools := .refl s
  vaddrStart := rfl
  btmpBytesLen := rfl

/-- A load of `cr3` leaves everything else as it is. -/
theorem Heap.reload (h : Heap live dead pf A out s) :
    Heap live dead pf A out { s with tlb := fun _ => none } where
  paged := ⟨⟨h.paged.layout.1, h.paged.layout.2, h.paged.layout.3, h.paged.layout.4,
    h.paged.layout.5, h.paged.layout.6, h.paged.layout.7⟩, h.paged.shares, h.paged.page,
    h.paged.excl, h.paged.side, h.paged.lowMem, h.paged.running, fun _ _ => rfl⟩
  space := h.space.of_vaddr rfl rfl rfl
  pool := h.pool
  sizes := h.sizes
  blocks := h.blocks
  page := h.page
  run := h.run
  header := h.header
  tlb _ _ p _ := translate_of_tlb (v := p) rfl

/-- The kernel's heap is the same for all kernel threads. -/
theorem Heap.switch (h : Heap live dead .kernel A out s) {t : ℕ} (ht : (s.task t).pgdir = 0) :
    Heap live dead .kernel A out
      { s with cur := t, cr3 := kernelDir * pgSize, tlb := fun _ => none } := by
  have hcur : (s.task s.cur).pgdir = 0 := by
    by_contra hc
    have := h.pool
    rw [heapPool, if_neg hc] at this
    cases this
  generalize hs' : { s with cur := t, cr3 := kernelDir * pgSize, tlb := fun _ => none } = s'
  have hphys : s'.phys = s.phys := hs' ▸ rfl
  have hpgdir : (s'.task s'.cur).pgdir = 0 := hs' ▸ ht
  have hdesc : ∀ i, descAt s' i = descAt s i := by
    intro i
    rw [descAt, descAt, heapDescs, heapDescs, if_pos hcur, if_pos hpgdir]
  have hfree : freeOf s' = freeOf s := by
    funext i
    rw [freeOf, hdesc, ← hs', freeOf]
  have hpaged : Paged s' live dead := by
    rw [← hs']
    exact ⟨⟨h.paged.layout.1, h.paged.layout.2, h.paged.layout.3, h.paged.layout.4,
      h.paged.layout.5, h.paged.layout.6, h.paged.layout.7⟩, h.paged.shares, h.paged.page,
      h.paged.excl, h.paged.side, h.paged.lowMem, .inl (Nat.mul_div_cancel _ (by decide)),
      fun _ _ => rfl⟩
  refine ⟨hpaged, trivial, if_pos hpgdir, fun i hi => ?_, hfree ▸ h.blocks, ?_, ?_,
    fun y hy f hf => ?_, fun y hy p hp => ?_⟩
  · rw [hdesc, ← hs']
    exact h.sizes i hi
  · rw [hphys]
    exact h.page
  · rw [← hs']
    exact h.run
  · rw [hphys] at hf
    have hhead := h.header y hy f hf
    rw [Header] at hhead ⊢
    rw [hfree, hphys]
    simp only [hdesc]
    exact hhead
  · exact translate_of_tlb (by rw [← hs'])

theorem HeapOk.malloc (h : HeapOk live dead pf s0 x) (hst : NotStale x.1 (newPages x.1 size))
    (hrun : sysMalloc size x.1 = .ok (p, s')) :
    HeapOk live dead pf s0 (s', if p = 0 then x.2 else (p, size) :: x.2) := by
  obtain ⟨A, h, hin, hpos, hacc⟩ := h
  rcases (sysMalloc_post h hin hst).ok hrun with ⟨rfl, rfl⟩ | ⟨hp, hsize, A', h', hin', hstep⟩
  · exact ⟨A, h, hin, hpos, hacc⟩
  · rw [if_neg hp]
    refine ⟨A', h', hin', fun q sz hm => ?_, fun hpf => hstep.accounts hpf s0 (hacc hpf)⟩
    rcases List.mem_cons.1 hm with he | hm
    · cases he
      exact hsize
    · exact hpos q sz hm

theorem HeapOk.free (h : HeapOk live dead pf s0 x) (hm : p ∈ x.2.map Prod.fst)
    (hrun : (sysFree p).state? x.1 = some s') : HeapOk live dead pf s0 (s', without x.2 p) := by
  obtain ⟨A, h, hin, hpos, hacc⟩ := h
  obtain ⟨⟨q, size⟩, hq, rfl⟩ := List.mem_map.1 hm
  obtain ⟨s1, A', hok, hfreed⟩ := sysFree_ok h hin hq
  obtain ⟨_, hrun⟩ := ok_of_state? hrun
  cases hok.symm.trans hrun
  exact ⟨A', hfreed.heap, hfreed.inhabited, fun q sz hm => hpos q sz (mem_without.1 hm).1,
    fun hpf => hfreed.step.accounts hpf s0 (hacc hpf)⟩

theorem HeapOk.write {va w : ℕ} (h : HeapOk live dead pf s0 x) (hm : (p, size) ∈ x.2)
    (h1 : p ≤ va) (h2 : va + 4 ≤ p + size) (hrun : (store va w).state? x.1 = some s') :
    HeapOk live dead pf s0 (s', x.2) := by
  obtain ⟨A, h, hin, hpos, hacc⟩ := h
  obtain ⟨y, hy, hs⟩ := h.blocks.serves p size hm
  have hcov : Covers y (va / pgSize) := hs.covers h1 (by omega)
  obtain ⟨f, hpage, hu, -⟩ := h.translate hy hcov
  obtain ⟨_, hrun⟩ := ok_of_state? hrun
  cases (store_of_translate hpage).symm.trans hrun
  obtain ⟨h', hst⟩ := h.store hy hcov hu (k := va % pgSize / 4) (fun hpage => by
    have hmod := hs.mod
    have hdiv := hs.page
    simp only [arenaSize, pgSize] at *
    omega) w
  exact ⟨A, h', hin, hpos, fun hpf => hst.accounts hpf s0 (hacc hpf)⟩

/-- The books do not depend on who runs. -/
theorem Accounts.congr (h : Accounts live s0 A s) (hphys : s'.phys = s.phys)
    (hk : s'.kernelPool = s.kernelPool) (hu : s'.userPool = s.userPool)
    (hv : s'.kernelVaddr = s.kernelVaddr) : Accounts live s0 A s' := by
  have hused : ∀ f, s'.Used f ↔ s.Used f := fun f => by rw [Used, Used, hk, hu]
  refine ⟨fun f => ?_, ?_, ?_, h.unmarked, fun pf => ?_, ?_, ?_⟩
  · rw [hused, hphys]
    exact h.used f
  · rw [hphys]
    exact h.fresh
  · rw [hv]
    exact h.marked
  · have hpool : s'.pool pf = s.pool pf := by cases pf <;> assumption
    rw [hpool]
    exact h.pools pf
  · rw [hv]
    exact h.vaddrStart
  · rw [hv]
    exact h.btmpBytesLen

/-- **One step.** -/
theorem HeapOk.step {op : HeapOp} {y : MemState × List (ℕ × ℕ)} (h : HeapOk live dead pf s0 x)
    (hok : Coherent x op) (hstep : op.next x = some y) : HeapOk live dead pf s0 y := by
  cases op with
  | malloc size =>
    rw [HeapOp.next] at hstep
    cases hrun : sysMalloc size x.1 with
    | error e =>
      rw [hrun] at hstep
      cases hstep
    | ok r =>
      rw [hrun] at hstep
      cases hstep
      exact h.malloc hok hrun
  | free ptr =>
    rw [HeapOp.next] at hstep
    by_cases hm : ptr ∈ x.2.map Prod.fst
    · rw [if_pos hm] at hstep
      obtain ⟨s', hrun, rfl⟩ := Option.map_eq_some_iff.1 hstep
      exact h.free hm hrun
    · rw [if_neg hm] at hstep
      cases hstep
  | write va w =>
    rw [HeapOp.next] at hstep
    by_cases hm : ∃ b ∈ x.2, b.1 ≤ va ∧ va + 4 ≤ b.1 + b.2
    · rw [if_pos hm] at hstep
      obtain ⟨s', hrun, rfl⟩ := Option.map_eq_some_iff.1 hstep
      obtain ⟨b, hb, h1, h2⟩ := hm
      exact h.write hb h1 h2 hrun
    · rw [if_neg hm] at hstep
      cases hstep
  | run thread =>
    rw [HeapOp.next] at hstep
    by_cases ht : (x.1.task x.1.cur).pgdir = 0 ∧ (x.1.task thread).pgdir = 0
    · rw [if_pos ht] at hstep
      cases hstep
      obtain ⟨A, h, hin, hpos, hacc⟩ := h
      obtain rfl : pf = .kernel := by
        rw [← h.pool]
        exact if_pos ht.1
      exact ⟨A, h.switch ht.2, hin, hpos, fun hpf => (hacc hpf).congr rfl rfl rfl rfl⟩
    · rw [if_neg ht] at hstep
      cases hstep
  | reload =>
    cases hstep
    obtain ⟨A, h, hin, hpos, hacc⟩ := h
    exact ⟨A, h.reload, hin, hpos, fun hpf => (hacc hpf).congr rfl rfl rfl rfl⟩

/-- **A whole run.** -/
theorem heapOk_of_reach (hp : Paged s0 live dead) (hsp : Space s0 live (heapPool s0))
    (hd : ∀ i < descCnt, s0.desc (descAt s0 i) = freshDesc i)
    (hx : (heapSys s0).Reach Coherent x) : HeapOk live dead (heapPool s0) s0 x := by
  refine hx.invariant (fun x hinit => ?_) fun x op y h hok hstep => h.step hok hstep
  obtain rfl : x = (s0, []) := hinit
  refine ⟨∅, heap_fresh hp hsp hd, ?_, ?_, fun _ => .refl live s0⟩
  · simp [Inhabited]
  · simp

/-- The kernel's descriptors after `mem_init`. -/
theorem desc_memInit (allMem mainThread : ℕ) : ∀ i < descCnt,
    (memInit allMem mainThread).desc (descAt (memInit allMem mainThread) i) = freshDesc i := by
  intro i hi
  have hdescs : heapDescs (memInit allMem mainThread) = kBlockDescs := if_pos rfl
  have hdesc : (memInit allMem mainThread).desc =
    blockDescInit kBlockDescs fun _ => ⟨0, 0, []⟩ := rfl
  rw [descCnt] at hi
  rw [descAt, hdescs, hdesc, blockDescInit, if_pos]
  · rw [Nat.add_sub_cancel_left, Nat.mul_div_cancel _ (by decide)]
  · simp only [descCnt, descSize]
    omega

/-! ### No overlap -/

/-- Where in memory an access goes. -/
def physAddr (s : MemState) (va : ℕ) : Option ℕ :=
  (s.translate (va / pgSize)).map (· * pgSize + va % pgSize)

/-- The bytes from `p` on are behind the header of the arena and in its pages, which are mapped and
reached. The header says how many pages there are. -/
def InArena (s : MemState) (p size : ℕ) : Prop :=
  block2arena p + arenaSize ≤ p ∧ ∃ f, s.translate (p / pgSize) = some f ∧
    p + size ≤ block2arena p + (if s.phys f 2 = 1 then s.phys f 1 else 1) * pgSize ∧
    ∀ k < if s.phys f 2 = 1 then s.phys f 1 else 1,
      ∃ g, walk s.phys s.dir (p / pgSize + k) = some g ∧ s.translate (p / pgSize + k) = some g

/-- Two ranges of bytes have none in common, as addresses and in memory. -/
def Apart (s : MemState) (p size q sz : ℕ) : Prop :=
  (p + size ≤ q ∨ q + sz ≤ p) ∧ ∀ va va', p ≤ va → va < p + size → q ≤ va' → va' < q + sz →
    physAddr s va ≠ physAddr s va'

theorem Heap.inArena (h : Heap live dead pf A out s) (hm : (p, size) ∈ out) : InArena s p size := by
  obtain ⟨x, hx, hs⟩ := h.blocks.serves p size hm
  obtain ⟨f, htr, hu, -⟩ := h.translate hx (h.blocks.arenas.covers_first hx)
  have hpage := hs.page
  have hmod := hs.mod
  have hhead := h.header x hx f hu
  have hn : (if s.phys f 2 = 1 then s.phys f 1 else 1) = x.2.pages := by
    obtain ⟨a, κ⟩ := x
    cases κ with
    | small i => rw [hhead.2.2]; rfl
    | large n => rw [hhead.2.2, hhead.2.1]; rfl
  refine ⟨?_, f, by rw [hpage]; exact htr, ?_, fun k hk => ?_⟩
  · rw [block2arena]
    have := Nat.div_add_mod p pgSize
    rw [Nat.mul_comm] at this
    omega
  · rw [hn, block2arena, hpage]
    obtain ⟨a, κ⟩ := x
    cases κ with
    | small i =>
      obtain ⟨k, hk, rfl, hsize⟩ : ∃ k < perArena i, p = block a i k ∧ size ≤ blockSize i := hs
      have hle := block_le hk
      change block a i k + size ≤ a * pgSize + 1 * pgSize
      rw [block_eq]
      omega
    | large n =>
      obtain ⟨rfl, -, hsize⟩ : p = a * pgSize + arenaSize ∧ 1024 < size ∧
        size + arenaSize ≤ n * pgSize := hs
      change a * pgSize + arenaSize + size ≤ a * pgSize + n * pgSize
      omega
  · rw [hn] at hk
    rw [hpage]
    have hcov : Covers x (x.1 + k) := covers_iff.2 ⟨k, hk, rfl⟩
    obtain ⟨g, hg, -⟩ := h.translate hx hcov
    exact ⟨g, (h.tlb x hx _ hcov).symm.trans hg, hg⟩

/-- Different bytes of arenas are in different places in memory. -/
theorem Heap.physAddr_inj (h : Heap live dead pf A out s) {x y : ℕ × Kind} {va va' : ℕ}
    (hx : x ∈ A) (hy : y ∈ A) (hva : Covers x (va / pgSize)) (hva' : Covers y (va' / pgSize))
    (he : physAddr s va = physAddr s va') : va = va' := by
  obtain ⟨f, hf, hu, -⟩ := h.translate hx hva
  obtain ⟨g, hg, hu', -⟩ := h.translate hy hva'
  rw [physAddr, physAddr, hf, hg, Option.map_some, Option.map_some, Option.some.injEq] at he
  have hmod : va % pgSize < pgSize := Nat.mod_lt _ (by decide)
  have hmod' : va' % pgSize < pgSize := Nat.mod_lt _ (by decide)
  obtain ⟨rfl, hoff⟩ : f = g ∧ va % pgSize = va' % pgSize := by
    simp only [pgSize] at *
    omega
  have hpage := Use.ofPage_inj (h.paged.excl.inj _ _ _ hu hu')
  rw [← Nat.div_add_mod va pgSize, ← Nat.div_add_mod va' pgSize, hpage, hoff]

/-- What is apart as addresses is apart in memory. -/
theorem Heap.apart (h : Heap live dead pf A out s) {x y : ℕ × Kind} {q sz : ℕ} (hx : x ∈ A)
    (hy : y ∈ A) (hsx : Serves x p size) (hsy : Serves y q sz)
    (hpq : p + size ≤ q ∨ q + sz ≤ p) : Apart s p size q sz := by
  refine ⟨hpq, fun va va' h1 h2 h3 h4 he => ?_⟩
  have := h.physAddr_inj hx hy (hsx.covers h1 h2) (hsy.covers h3 h4) he
  omega

/-- **Heap allocations never overlap**, as long as the TLB is not stale. From a state with the page
tables in order and fresh descriptors, whatever kernel threads or one process allocate and free:
what is out is inside its arena, and overlaps neither with anything else that is out nor with a
block on a free list. -/
theorem heap_disjoint (hp : Paged s0 live dead) (hsp : Space s0 live (heapPool s0))
    (hd : ∀ i < descCnt, s0.desc (descAt s0 i) = freshDesc i)
    (hx : (heapSys s0).Reach Coherent x) :
    (∀ p size, (p, size) ∈ x.2 → InArena x.1 p size) ∧ x.2.Nodup ∧
      (∀ p size q sz, (p, size) ∈ x.2 → (q, sz) ∈ x.2 → (p, size) ≠ (q, sz) →
        Apart x.1 p size q sz) ∧
      ∀ p size, (p, size) ∈ x.2 → ∀ i < descCnt, ∀ b ∈ freeOf x.1 i,
        Apart x.1 p size b (x.1.desc (descAt x.1 i)).blockSize := by
  obtain ⟨A, h, -, hpos, -⟩ := heapOk_of_reach hp hsp hd hx
  refine ⟨fun p size hm => h.inArena hm, h.blocks.outNodup.of_map, fun p size q sz hm hm' hne => ?_,
    fun p size hm i hi b hb => ?_⟩
  · obtain ⟨y, hy, hs⟩ := h.blocks.serves p size hm
    obtain ⟨z, hz, hs'⟩ := h.blocks.serves q sz hm'
    refine h.apart hy hz hs hs' (h.blocks.disjoint hm hm' (fun he => hne ?_) (hpos p size hm)
      (hpos q sz hm'))
    exact List.inj_on_of_nodup_map h.blocks.outNodup hm hm' he
  · obtain ⟨y, hy, hs⟩ := h.blocks.serves p size hm
    obtain ⟨a, k, hz, hk, he, -⟩ := (h.blocks.mem_free i hi b).1 hb
    rw [(h.sizes i hi).1]
    exact h.apart hy hz hs ⟨k, hk, he, Nat.le_refl _⟩
      (h.blocks.disjoint_free hm hi hb (hpos p size hm))

/-- A run that the calls make without a stale page. -/
theorem exists_reach_heap (s0 : MemState) (ops : List HeapOp) {P : MemState × List (ℕ × ℕ) → Bool}
    (h : (TransSys.exec (TransSys.guarded Coherent HeapOp.next) ops (s0, [])).any P = true) :
    ∃ x, (heapSys s0).Reach Coherent x ∧ P x = true :=
  TransSys.exists_reach (S := heapSys s0) (fun _ _ _ => TransSys.guarded_eq_some.1) rfl ops h

theorem exists_reachable_heap (s0 : MemState) (ops : List HeapOp)
    {P : MemState × List (ℕ × ℕ) → Bool}
    (h : (TransSys.exec HeapOp.next ops (s0, [])).any P = true) :
    ∃ x, (heapSys s0).Reachable x ∧ P x = true :=
  TransSys.exists_reach (S := heapSys s0) (fun _ _ _ hst => ⟨trivial, hst⟩) rfl ops h

/-- A machine with 32 MiB after `mem_init`. -/
def bootState : MemState := memInit 0x2000000 0xc009e000

/-- Calls of the main thread. The first page is given back and its frame is taken by the two pages
of the last call, which do not fit in its place. The next call gets the first page. -/
def firstPageFree : List HeapOp := [.malloc 2000, .malloc 2000, .free 0xc010000c, .malloc 5000]

/-- With a new time slice before the page is mapped again, all is well. -/
theorem heap_disjoint_remapped : ∃ x, (heapSys bootState).Reach Coherent x ∧
    x.2 = [(0xc010000c, 2000), (0xc010200c, 5000), (0xc010100c, 2000)] ∧
    InArena x.1 0xc010000c 2000 ∧ Apart x.1 0xc010000c 2000 0xc010200c 5000 := by
  obtain ⟨x, hx, hout⟩ := exists_reach_heap bootState (firstPageFree ++ [.reload, .malloc 2000])
    (P := fun x => decide (x.2 = [(0xc010000c, 2000), (0xc010200c, 5000), (0xc010100c, 2000)]))
    (by decide +kernel)
  have hout := of_decide_eq_true hout
  obtain ⟨h1, -, h2, -⟩ := heap_disjoint (paged_memInit _ _) trivial (desc_memInit _ _) hx
  refine ⟨x, hx, hout, h1 _ _ ?_, h2 _ _ _ _ ?_ ?_ (by decide)⟩ <;> rw [hout] <;> decide

/-- **Without, two allocations overlap.** -/
theorem heap_overlaps : ∃ x, (heapSys bootState).Reachable x ∧ (0xc010000c, 2000) ∈ x.2 ∧
    (0xc010200c, 5000) ∈ x.2 ∧ physAddr x.1 0xc010000c = some 0x20000c ∧
    physAddr x.1 0xc010200c = some 0x20000c := by
  obtain ⟨x, hx, h⟩ := exists_reachable_heap bootState (firstPageFree ++ [.malloc 2000])
    (P := fun x => decide ((0xc010000c, 2000) ∈ x.2 ∧ (0xc010200c, 5000) ∈ x.2 ∧
      physAddr x.1 0xc010000c = some 0x20000c ∧ physAddr x.1 0xc010200c = some 0x20000c))
    (by decide +kernel)
  exact ⟨x, hx, of_decide_eq_true h⟩

/-! ### Accounts -/

/-- The blocks of an arena on its free list, counted on the list. -/
theorem Blocks.card_slots {free : ℕ → List ℕ} (h : Blocks A free out) (hx : (a, .small i) ∈ A) :
    (slots free a i).card = ((free i).filter fun b => block2arena b = a * pgSize).length := by
  have hi := h.arenas.small a i hx
  have hnodup : ((free i).filter fun b => block2arena b = a * pgSize).Nodup :=
    (h.nodup i hi).filter _
  rw [← List.toFinset_card_of_nodup hnodup,
    ← Finset.card_image_of_injective (slots free a i) fun _ _ => block_inj (a := a) (i := i)]
  congr 1
  ext b
  rw [Finset.mem_image, List.mem_toFinset, List.mem_filter, decide_eq_true_eq]
  constructor
  · rintro ⟨k, hk, rfl⟩
    obtain ⟨hk, hm⟩ := Blocks.mem_slots.1 hk
    exact ⟨hm, block2arena_block hk⟩
  · rintro ⟨hm, hb⟩
    obtain ⟨a', k, -, hk, rfl, -⟩ := (h.mem_free i hi b).1 hm
    rw [block2arena_block hk] at hb
    obtain rfl : a' = a := Nat.eq_of_mul_eq_mul_right (by decide) hb
    exact ⟨k, Blocks.mem_slots.2 ⟨hk, hm⟩, rfl⟩

/-- The header of the arena that the small block `p` is in has one of the descriptors, and its `cnt`
is the number of its blocks on the free list of that descriptor. -/
def Counted (s : MemState) (p : ℕ) : Prop :=
  ∃ f, s.translate (p / pgSize) = some f ∧ s.phys f 2 = 0 ∧
    (∃ i < descCnt, s.phys f 0 = descAt s i) ∧ s.phys f 1 =
      ((s.desc (s.phys f 0)).freeList.filter fun b => block2arena b = block2arena p).length

/-- With nothing out, the marks of the kernel are what they were. -/
theorem Accounts.eq (h : Accounts live s0 ∅ s) (hl0 : Layout s0) (hl : Layout s) :
    s.kernelPool = s0.kernelPool ∧ s.kernelVaddr = s0.kernelVaddr := by
  have hused : ∀ f, s.Used f ↔ s0.Used f := fun f => by
    rw [h.used]
    simp
  have hmarked : ∀ q, s0.kernelVaddr.first ≤ q →
      (s.kernelVaddr.Marked q ↔ s0.kernelVaddr.Marked q) := fun q hq => by
    rw [h.marked q hq]
    simp
  have hfirst : s.kernelVaddr.first = s0.kernelVaddr.first := by
    rw [VirtualAddr.first, VirtualAddr.first, h.vaddrStart]
  constructor
  · refine (h.pools .kernel).eq fun f => ?_
    by_cases hf : (s0.pool .kernel).Has f
    · rw [← hl0.used_iff hf, ← hl.used_iff ((h.pools.has .kernel).2 hf)]
      exact hused f
    · exact ⟨fun hc => absurd ((h.pools.has .kernel).1 hc.1) hf, fun hc => absurd hc.1 hf⟩
  · have hbits : s.kernelVaddr.vaddrBitmap = s0.kernelVaddr.vaddrBitmap := by
      refine Bitmap.ext_bit h.btmpBytesLen fun i => ?_
      have := hmarked (s0.kernelVaddr.first + i) (by omega)
      rw [VirtualAddr.Marked, VirtualAddr.Marked, hfirst, Nat.add_sub_cancel_left] at this
      exact Bool.eq_iff_iff.2 this
    have hstart := h.vaddrStart
    cases hv : s.kernelVaddr
    cases hv0 : s0.kernelVaddr
    rw [hv, hv0] at hbits hstart
    simp only at hbits hstart
    rw [hbits, hstart]

/-- **Arena accounting and conservation**, as long as the TLB is not stale. Whatever kernel threads
allocate and free: the counts in the headers are right, every free block is in an arena that has
given something away, a pointer that is out can be freed, which unmaps its page exactly if it was
the last in it, and when nothing is out the kernel's pool and virtual pages are marked as they were
at the start. -/
theorem heap_accounts (hp : Paged s0 live dead) (hk : (s0.task s0.cur).pgdir = 0)
    (hd : ∀ i < descCnt, s0.desc (descAt s0 i) = freshDesc i)
    (hx : (heapSys s0).Reach Coherent x) :
    (∀ p size, (p, size) ∈ x.2 → size ≤ 1024 → Counted x.1 p) ∧
      (∀ i < descCnt, ∀ b ∈ freeOf x.1 i, ∃ p size, (p, size) ∈ x.2 ∧
        block2arena p = block2arena b) ∧
      (∀ p size, (p, size) ∈ x.2 → ∃ s', sysFree p x.1 = .ok ((), s') ∧
        ((∃ f, walk s'.phys s'.dir (p / pgSize) = some f) ↔
          ∃ q sz, (q, sz) ∈ x.2 ∧ q ≠ p ∧ block2arena q = block2arena p)) ∧
      (x.2 = [] → x.1.kernelPool = s0.kernelPool ∧ x.1.kernelVaddr = s0.kernelVaddr) := by
  have hpf : heapPool s0 = .kernel := if_pos hk
  obtain ⟨A, h, hin, -, hacc⟩ := heapOk_of_reach hp (by rw [hpf]; trivial) hd hx
  have hacc := hacc hpf
  have harena : ∀ p q : ℕ, block2arena p = block2arena q ↔ p / pgSize = q / pgSize := fun p q =>
    ⟨fun he => Nat.eq_of_mul_eq_mul_right (by decide) he, fun he => by
      rw [block2arena, block2arena, he]⟩
  refine ⟨fun p size hm hsize => ?_, fun i hi b hb => ?_, fun p size hm => ?_, fun hnil => ?_⟩
  · obtain ⟨y, hy, hs⟩ := h.blocks.serves p size hm
    obtain ⟨f, htr, hu, -⟩ := h.translate hy (h.blocks.arenas.covers_first hy)
    rw [← hs.page] at htr
    have hpage : block2arena p = y.1 * pgSize := by rw [block2arena, hs.page]
    obtain ⟨a, κ⟩ := y
    cases κ with
    | large n => exact absurd hs.2.1 (by omega)
    | small i =>
      obtain ⟨h0, h1, h2⟩ : x.1.phys f 0 = descAt x.1 i ∧
        x.1.phys f 1 = (slots (freeOf x.1) a i).card ∧ x.1.phys f 2 = 0 := h.header _ hy f hu
      refine ⟨f, htr, h2, ⟨i, h.blocks.arenas.small a i hy, h0⟩, ?_⟩
      rw [h1, h.blocks.card_slots hy, h0, hpage]
      rfl
  · obtain ⟨a, k, hy, hk, rfl, -⟩ := (h.blocks.mem_free i hi b).1 hb
    obtain ⟨p, size, hm, hs⟩ := hin _ hy
    exact ⟨p, size, hm, (harena _ _).2 (hs.page.trans (block_div hk).symm)⟩
  · obtain ⟨s', A', hrun, hfreed⟩ := sysFree_ok h hin hm
    refine ⟨s', hrun, hfreed.mapped.trans ?_⟩
    constructor
    · rintro ⟨q, sz, hq, he⟩
      obtain ⟨hq, hne⟩ := mem_without.1 hq
      exact ⟨q, sz, hq, hne, (harena _ _).2 he⟩
    · rintro ⟨q, sz, hq, hne, he⟩
      exact ⟨q, sz, mem_without.2 ⟨hq, hne⟩, (harena _ _).1 he⟩
  · have hA : A = ∅ := by
      refine Set.eq_empty_of_forall_notMem fun y hy => ?_
      obtain ⟨q, sz, hm, -⟩ := hin y hy
      rw [hnil] at hm
      cases hm
    rw [hA] at hacc
    exact hacc.eq hp.layout h.paged.layout

/-- With a new time slice before a page is mapped again, the header of its arena is right, and the
pages come back. -/
theorem heap_accounts_remapped : ∃ x y, (heapSys bootState).Reach Coherent x ∧
    (0xc010000c, 1000) ∈ x.2 ∧ Counted x.1 0xc010000c ∧ (heapSys bootState).Reach Coherent y ∧
    y.1.kernelPool = bootState.kernelPool ∧ y.1.kernelVaddr = bootState.kernelVaddr := by
  obtain ⟨x, hx, hout⟩ := exists_reach_heap bootState (firstPageFree ++ [.reload, .malloc 1000])
    (P := fun x => decide ((0xc010000c, 1000) ∈ x.2)) (by decide +kernel)
  obtain ⟨y, hy, hnil⟩ := exists_reach_heap bootState
    [.malloc 1000, .malloc 2000, .free 0xc010000c, .reload, .malloc 1000, .free 0xc010100c,
      .free 0xc010000c] (P := fun x => decide (x.2 = [])) (by decide +kernel)
  have hk : (bootState.task bootState.cur).pgdir = 0 := rfl
  obtain ⟨h1, -⟩ := heap_accounts (paged_memInit _ _) hk (desc_memInit _ _) hx
  obtain ⟨-, -, -, h2⟩ := heap_accounts (paged_memInit _ _) hk (desc_memInit _ _) hy
  have hout := of_decide_eq_true hout
  exact ⟨x, y, hx, hout, h1 _ _ hout (by decide), hy, h2 (of_decide_eq_true hnil)⟩

/-- **Without, `sys_free` panics.** The header of the two pages has become that of the small arena,
and blocks of the first page that were never carved are looked for on its list. -/
theorem heap_free_panics : ∃ x, (heapSys bootState).Reachable x ∧ (0xc010200c, 5000) ∈ x.2 ∧
    (sysFree 0xc010200c).fault? x.1 = some (.panic .sysFree) := by
  obtain ⟨x, hx, h⟩ := exists_reachable_heap bootState (firstPageFree ++ [.malloc 1000])
    (P := fun x => decide ((0xc010200c, 5000) ∈ x.2 ∧
      (sysFree 0xc010200c).fault? x.1 = some (.panic .sysFree))) (by decide +kernel)
  exact ⟨x, hx, of_decide_eq_true h⟩

end

end X86Os.Mem
