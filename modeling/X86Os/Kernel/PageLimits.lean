import X86Os.Kernel.PageAlloc

/-!
# Allocation when memory runs out

`malloc_page` and `get_a_page` are written as if they gave all the pages asked for or none: `palloc`
and `vaddr_get` have a branch that returns NULL, and their callers pass it on. This module says when
that is what happens.

The branch in `palloc` is dead. `bitmap_scan` asserts that the bitmap it scans has a clear bit, so a
pool without a free frame stops the kernel, in the middle of the loop of `malloc_page`, with the
virtual pages marked and the first of them mapped. The branch in `vaddr_get` is taken only if no run
of virtual pages is long enough and some page is free. A single missing page is therefore enough to
decide between NULL, with nothing changed, and a panic, with part of the work done: `MallocFits` and
`GetFits` are the states in which the pages are there or NULL is returned.
-/

namespace X86Os.Mem

open X86Os.Comp MemState

section

variable {s s' : MemState} {live dead : Set ℕ} {pf : PoolFlags} {n p va : ℕ}

/-! ### What the calls promise -/

/-- The `n` pages from page `p` on were not mapped, and each of them has a frame of its own that was
free. -/
structure Allocated (s s' : MemState) (pf : PoolFlags) (p n : ℕ) : Prop where
  unmapped : ∀ k < n, walk s.phys s.dir (p + k) = none
  mapped : ∀ k < n, ∃ f, walk s'.phys s'.dir (p + k) = some f ∧ (s.pool pf).Has f ∧ ¬ s.Used f
  own : ∀ j < n, ∀ k < n, walk s'.phys s'.dir (p + j) = walk s'.phys s'.dir (p + k) → j = k

/-- `malloc_page` returns, with `n` new pages or with NULL and nothing changed. -/
def MallocAllOrNothing (s : MemState) (pf : PoolFlags) (n : ℕ) : Prop :=
  ∃ r s', mallocPage pf n s = .ok (r, s') ∧
    (r = 0 ∧ s' = s ∨ ∃ p, r = p * pgSize ∧ Allocated s s' pf p n)

/-- `get_a_page` returns, with the page of `va` or with NULL and nothing changed. -/
def GetAllOrNothing (s : MemState) (pf : PoolFlags) (va : ℕ) : Prop :=
  ∃ r s', getAPage pf va s = .ok (r, s') ∧
    (r = 0 ∧ s' = s ∨ r = va ∧ Allocated s s' pf (va / pgSize) 1)

/-! ### What they need -/

/-- Some virtual page is free, and the lowest run of `n` of them, if there is one, lies below the
stack page of the process, is not mapped, and has frames for its pages and for the tables they
need. -/
def MallocFits (s : MemState) (pf : PoolFlags) (n : ℕ) : Prop :=
  (s.vaddr pf).Room 1 ∧ ∀ p, (s.vaddr pf).FirstRun p n → (pf = .user → p < 0xbffff) ∧
    (∀ k < n, walk s.phys s.dir (p + k) = none) ∧ n ≤ (s.pool pf).free ∧
    missingTables s p n ≤ s.kernelPool.free

/-- The page of `va` is one that the caller may have, it is not mapped, and there is a frame for it
and for the table it needs. -/
def GetFits (s : MemState) (pf : PoolFlags) (va : ℕ) : Prop :=
  MayGet s va pf ∧ (s.vaddr pf).Run (va / pgSize) 1 ∧ walk s.phys s.dir (va / pgSize) = none ∧
    1 ≤ (s.pool pf).free ∧ missingTables s (va / pgSize) 1 ≤ s.kernelPool.free

theorem VirtualAddr.FirstRun.room_one {v : VirtualAddr} (h : v.FirstRun p n) (hn : 0 < n) :
    v.Room 1 := by
  obtain ⟨h1, h2, -⟩ := h.run
  exact VirtualAddr.room_one.2 ⟨p, ⟨h1, h2, by omega⟩, h.clear 0 hn⟩

/-- New places on a list of frames are pages of their own. -/
theorem Allocated.of_takes {new : List (Use × ℕ)} {x : VirtualAddr}
    (h : Paged (s.setVaddr pf x) live dead) (htake : Takes live (s.setVaddr pf x) s' new)
    (hnone : ∀ k < n, walk s.phys s.dir (p + k) = none)
    (hpage : ∀ k < n, ∃ f, (Use.ofPage pf s.dir (p + k), f) ∈ new) : Allocated s s' pf p n := by
  have hs' := htake.paged h
  have hdir : s'.dir = s.dir := htake.rest.dir.trans (dir_setVaddr pf x)
  have hwalk : ∀ k f, (Use.ofPage pf s.dir (p + k), f) ∈ new →
      walk s'.phys s'.dir (p + k) = some f := by
    intro k f hf
    rw [hs'.walk_eq pf (by rw [hdir]; exact htake.valid hf), hdir]
    exact htake.got _ f hf
  refine ⟨hnone, fun k hk => ?_, fun j hj k hk he => ?_⟩
  · obtain ⟨f, hf⟩ := hpage k hk
    obtain ⟨-, -, hhas, hfree⟩ := htake.fresh _ f hf
    rw [Use.side_ofPage, pool_setVaddr] at hhas
    exact ⟨f, hwalk k f hf, hhas, fun hu => hfree ((used_setVaddr _ _).2 hu)⟩
  · obtain ⟨f, hf⟩ := hpage j hj
    obtain ⟨g, hg⟩ := hpage k hk
    rw [hwalk j f hf, hwalk k g hg] at he
    obtain rfl := Option.some.inj he
    have hsame := hs'.excl.inj _ _ f ⟨htake.valid hf, htake.got _ _ hf⟩
      ⟨htake.valid hg, htake.got _ _ hg⟩
    have := Use.ofPage_inj hsame
    omega

/-! ### When they keep it -/

/-- **Enough of everything.** `malloc_page` gives the pages, or NULL if no run is long enough. -/
theorem mallocPage_allocates (h : Paged s live dead) (hsp : Space s live pf) (hn : 0 < n)
    (hn' : n < 3840) (hfit : MallocFits s pf n) : MallocAllOrNothing s pf n := by
  obtain ⟨hroom, hfit⟩ := hfit
  refine (mallocPage_exact h hsp (fun hc => hc ⟨hn, hn'⟩) (fun hc => hc hroom)
    (fun p hp hpf hle => ?_) (fun p hp ⟨k, hk, hne⟩ => ?_) (fun p hp hlack => ?_)
    (fun _ _ _ => .inl ⟨rfl, rfl⟩) fun p s' new hp _ hnone _ _ htake hfills => ?_ :
    wp (mallocPage pf n) (fun r s' => r = 0 ∧ s' = s ∨ ∃ p, r = p * pgSize ∧ Allocated s s' pf p n)
      (fun _ => False) s).returns
  · exact absurd ((hfit p hp).1 hpf) (by omega)
  · exact hne ((hfit p hp).2.1 k hk)
  · obtain ⟨-, -, h1, h2⟩ := hfit p hp
    omega
  · exact .inr ⟨p, rfl, .of_takes (h.setVaddr pf p n true) htake hnone hfills.page⟩

/-- **`malloc_page` needs what it asks for.** -/
theorem MallocAllOrNothing.fits (h : Paged s live dead) (hsp : Space s live pf) (hn : 0 < n)
    (hall : MallocAllOrNothing s pf n) : MallocFits s pf n := by
  obtain ⟨r, s', hrun, -⟩ := hall
  refine (mallocPage_exact h hsp (fun _ => trivial) (fun _ => trivial) (fun _ _ _ _ => trivial)
    (fun _ _ _ => trivial) (fun _ _ _ => trivial) (fun _ hroom hone => ⟨hone, fun p hp => ?_⟩)
    fun p s' new hp hlow hnone hfree htab _ _ => ⟨hp.room_one hn, fun q hq => ?_⟩ :
    wp (mallocPage pf n) (fun _ _ => MallocFits s pf n) (fun _ => True) s).ok hrun
  · exact absurd ⟨p, hp.run, hp.clear⟩ hroom
  · obtain rfl := hp.unique hq
    exact ⟨hlow, hnone, hfree, htab⟩

/-- **Enough for one page.** -/
theorem getAPage_allocates (h : Paged s live dead) (hsp : Space s live pf) (hva : va < 2 ^ 32)
    (hfit : GetFits s pf va) : GetAllOrNothing s pf va := by
  obtain ⟨hmay, hrun, hnone, hfree, htab⟩ := hfit
  refine (getAPage_exact h hsp hva (fun hc => hc hmay) (fun hc => hc hrun) (fun hne => hne hnone)
    (fun hlack => by omega) fun _ _ _ _ _ s' f tables hstep => ?_ :
    wp (getAPage pf va) (fun r s' => r = 0 ∧ s' = s ∨ r = va ∧ Allocated s s' pf (va / pgSize) 1)
      (fun _ => False) s).returns
  refine .inr ⟨rfl, .of_takes (h.setVaddr pf _ 1 true) hstep.takes (fun k hk => ?_) fun k hk => ?_⟩
  · rwa [show va / pgSize + k = va / pgSize by omega]
  · refine ⟨f, ?_⟩
    rw [show va / pgSize + k = va / pgSize by omega, dir_setVaddr]
    exact List.mem_cons_self

/-- **`get_a_page` needs what it asks for.** -/
theorem GetAllOrNothing.fits (h : Paged s live dead) (hsp : Space s live pf) (hva : va < 2 ^ 32)
    (hall : GetAllOrNothing s pf va) : GetFits s pf va := by
  obtain ⟨r, s', hrun, -⟩ := hall
  exact (getAPage_exact h hsp hva (fun _ => trivial) (fun _ => trivial) (fun _ => trivial)
    (fun _ => trivial) fun hmay hr hnone hfree htab _ _ _ _ => ⟨hmay, hr, hnone, hfree, htab⟩ :
    wp (getAPage pf va) (fun _ _ => GetFits s pf va) (fun _ => True) s).ok hrun

/-- **All pages or none.** `malloc_page` and `get_a_page` return all the pages asked for, or NULL
with nothing changed, exactly if the pages they pick are free and have frames. -/
theorem all_or_nothing_iff (h : Paged s live dead) (hsp : Space s live pf) :
    (∀ n, 0 < n → n < 3840 → (MallocAllOrNothing s pf n ↔ MallocFits s pf n)) ∧
      ∀ va < 2 ^ 32, (GetAllOrNothing s pf va ↔ GetFits s pf va) :=
  ⟨fun _ hn hn' => ⟨fun hall => hall.fits h hsp hn, mallocPage_allocates h hsp hn hn'⟩,
    fun _ hva => ⟨fun hall => hall.fits h hsp hva, getAPage_allocates h hsp hva⟩⟩

end

/-! ### One frame less than virtual pages -/

/-- A machine with 0x1ff0000 bytes after `mem_init`, once a frame of the kernel pool is a page
table: of its 3832 frames the kernel has 3831 left, for 3832 virtual pages. -/
def oneTable : MemState := (memInit 0x1ff0000 0xc009e000).markFrame .kernel 0x200 true

theorem has_memInit (f : ℕ) :
    (memInit 0x1ff0000 0xc009e000).kernelPool.Has f ↔ 0x200 ≤ f ∧ f < 0x10f8 := Iff.rfl

theorem paged_oneTable : Paged oneTable ∅ ∅ :=
  (paged_memInit _ _).markFrame_true .kernel ((has_memInit 0x200).2 (by omega))

theorem space_oneTable : Space oneTable ∅ .kernel := trivial

theorem first_oneTable : oneTable.kernelVaddr.first = 0xc0100 := paged_oneTable.layout.heapFirst

theorem not_marked_oneTable (v : ℕ) : ¬ oneTable.kernelVaddr.Marked v := by
  have hbit : oneTable.kernelVaddr.vaddrBitmap.bit (v - oneTable.kernelVaddr.first) = false :=
    bit_bitmapInit _ _
  rw [VirtualAddr.Marked, hbit]
  exact Bool.false_ne_true

theorem run_oneTable {p n : ℕ} :
    oneTable.kernelVaddr.Run p n ↔ 0xc0100 ≤ p ∧ p < 0xc0ff8 ∧ p + n ≤ 0xc0ff9 := by
  have hlen : oneTable.kernelVaddr.vaddrBitmap.btmpBytesLen = 479 := rfl
  rw [VirtualAddr.Run, first_oneTable, hlen]

theorem walk_oneTable {v : ℕ} (h1 : 0xc0100 ≤ v) (h2 : v < 0xffc00) :
    walk oneTable.phys oneTable.dir v = none := by
  have hv : (Use.ofPage .kernel oneTable.dir v).Valid ∅ := ⟨h1, h2⟩
  rw [paged_oneTable.walk_eq .kernel hv]
  exact frame_setupPage h1 h2

theorem mem_freeFrames_oneTable {f : ℕ} :
    f ∈ oneTable.kernelPool.freeFrames ↔ 0x201 ≤ f ∧ f < 0x10f8 := by
  have hused : ¬ (memInit 0x1ff0000 0xc009e000).kernelPool.Used f := fun ⟨_, hb⟩ => by
    rw [show (memInit 0x1ff0000 0xc009e000).kernelPool.poolBitmap = bitmapInit 479 from rfl,
      bit_bitmapInit] at hb
    cases hb
  rw [Pool.mem_freeFrames]
  change (memInit 0x1ff0000 0xc009e000).kernelPool.Has f ∧
    ¬ ((memInit 0x1ff0000 0xc009e000).kernelPool.mark 0x200 true).Used f ↔ _
  rw [Pool.used_mark_true ((has_memInit 0x200).2 (by omega)), or_iff_right hused, has_memInit]
  omega

theorem free_oneTable : oneTable.kernelPool.free = 3831 := by
  have hico : oneTable.kernelPool.freeFrames = Finset.Ico 0x201 0x10f8 := by
    ext f
    rw [mem_freeFrames_oneTable, Finset.mem_Ico]
  rw [Pool.free, hico, Nat.card_Ico]

/-- One page can be had, both ways. -/
theorem all_or_nothing_oneTable :
    MallocAllOrNothing oneTable .kernel 1 ∧ GetAllOrNothing oneTable .kernel 0xc0101000 := by
  have hmissing : ∀ p, 0xc0100 ≤ p → p < 0xc0ff8 →
      missingTables oneTable p 1 ≤ oneTable.kernelPool.free := fun p h1 h2 => by
    rw [paged_oneTable.missingTables_kernel fun k hk => ⟨by omega, by omega⟩]
    exact Nat.zero_le _
  have hfree : 1 ≤ oneTable.kernelPool.free := by rw [free_oneTable]; omega
  obtain ⟨hmalloc, hget⟩ := all_or_nothing_iff paged_oneTable space_oneTable
  refine ⟨(hmalloc 1 (by omega) (by omega)).2 ⟨?_, fun p hp => ⟨nofun, fun k hk => ?_, hfree, ?_⟩⟩,
    (hget 0xc0101000 (by omega)).2 ⟨⟨rfl, ?_⟩, ?_, ?_, hfree, ?_⟩⟩
  · exact VirtualAddr.room_one.2 ⟨0xc0100, run_oneTable.2 (by omega), not_marked_oneTable _⟩
  · obtain ⟨h1, h2, -⟩ := run_oneTable.1 hp.run
    exact walk_oneTable (by omega) (by omega)
  · obtain ⟨h1, h2, -⟩ := run_oneTable.1 hp.run
    exact hmissing p h1 h2
  · rw [first_oneTable]
    simp only [pgSize]
    omega
  · exact run_oneTable.2 (by simp only [pgSize]; omega)
  · exact walk_oneTable (by simp only [pgSize]; omega) (by simp only [pgSize]; omega)
  · exact hmissing _ (by simp only [pgSize]; omega) (by simp only [pgSize]; omega)

/-- With too few frames `malloc_page` stops in the scan for the next. -/
theorem mallocPage_stops {n : ℕ} (hn : n = 3832) :
    mallocPage .kernel n oneTable = .error (.panic .bitmapScan) := by
  refine wp.stops (mallocPage_exact paged_oneTable space_oneTable (fun hc => by omega)
    (fun _ => rfl) (fun _ _ hpf _ => nomatch hpf) (fun p hp ⟨k, hk, hne⟩ => ?_) (fun _ _ _ => rfl)
    (fun _ hroom _ => hroom ?_) fun p s' new _ _ _ hfree _ _ _ => ?_)
  · obtain ⟨h1, h2, -⟩ := run_oneTable.1 hp.run
    exact absurd (walk_oneTable (by omega) (by omega)) hne
  · exact ⟨0xc0100, run_oneTable.2 (by omega), fun k _ => not_marked_oneTable _⟩
  · have hfree : n ≤ oneTable.kernelPool.free := hfree
    rw [free_oneTable] at hfree
    omega

/-- **One page too many.** Asked for all virtual pages, one more than there are frames,
`malloc_page` does not return NULL: it maps 3831 pages and stops in `bitmap_scan`. -/
theorem mallocPage_too_many : mallocPage .kernel 3832 oneTable = .error (.panic .bitmapScan) ∧
    ¬ MallocAllOrNothing oneTable .kernel 3832 := by
  have hstops := mallocPage_stops rfl
  refine ⟨hstops, fun ⟨r, s', hrun, _⟩ => ?_⟩
  rw [hstops] at hrun
  cases hrun

end X86Os.Mem
