import X86Os.Kernel.Blocks
import X86Os.Kernel.PageSteps

/-!
# The heap in memory

`Heap` ties the free lists and pointers of `Blocks` to memory. The pages of every arena are mapped,
to frames that nothing else uses, and the three words at the start of the first page say what the
lists say: the descriptor, how many of its blocks are on its list, and that it is not large; or
zero, the number of pages, and that it is.

Four things happen to an arena: it joins the heap, a block of it changes hands, its owner writes to
it, it leaves the heap. Each is a lemma that gives the invariant back together with a `HeapStep`,
which says what the step did to everybody else: nothing. In the kernel it also keeps the books.
`Accounts` compares with an earlier state, and the frames and pages marked since then are those of
the arenas.
-/

namespace X86Os.Mem

open X86Os.Comp MemState

/-! ### The free lists of the running task -/

/-- The address of the running task's descriptor for class `i`. -/
def descAt (s : MemState) (i : ℕ) : ℕ := heapDescs s + i * descSize

/-- The running task's free list for class `i`. -/
def freeOf (s : MemState) (i : ℕ) : List ℕ := (s.desc (descAt s i)).freeList

/-- Put a list into the descriptor at `d`. -/
def MemState.setFree (s : MemState) (d : ℕ) (l : List ℕ) : MemState :=
  { s with desc := Function.update s.desc d ({ s.desc d with freeList := l }) }

section

variable {s s' s'' : MemState} {live dead : Set ℕ} {pf : PoolFlags} {A A' A'' : Set (ℕ × Kind)}
  {out out' : List (ℕ × ℕ)} {a d f i j k n p size : ℕ} {l : List ℕ} {u : Use}

theorem modifyList_apply (d : ℕ) (g : List ℕ → List ℕ) (s : MemState) :
    modifyList d g s = .ok ((), s.setFree d (g (s.desc d).freeList)) := rfl

theorem descAt_inj (h : descAt s i = descAt s j) : i = j := by
  simp only [descAt, descSize] at h
  omega

theorem descAt_ne_zero (s : MemState) (i : ℕ) : descAt s i ≠ 0 := by
  simp only [descAt, heapDescs, kBlockDescs, uBlockDescOff]
  split <;> omega

/-- The same task runs, on the same directory, and other tasks are as they were. -/
structure SameTask (s s' : MemState) : Prop where
  cr3 : s'.cr3 = s.cr3
  cur : s'.cur = s.cur
  pgdir : ∀ t, (s'.task t).pgdir = (s.task t).pgdir
  task : ∀ t, t ≠ s.cur → s'.task t = s.task t

namespace SameTask

theorem refl (s : MemState) : SameTask s s := ⟨rfl, rfl, fun _ => rfl, fun _ _ => rfl⟩

theorem trans (h : SameTask s s') (h' : SameTask s' s'') : SameTask s s'' :=
  ⟨h'.cr3.trans h.cr3, h'.cur.trans h.cur, fun t => (h'.pgdir t).trans (h.pgdir t),
    fun t ht => (h'.task t (by rw [h.cur]; exact ht)).trans (h.task t ht)⟩

theorem of_sameElse (h : SameElse s s') : SameTask s s' :=
  ⟨h.cr3, h.cur, fun t => by rw [h.task], fun t _ => by rw [h.task]⟩

theorem setVaddr (s : MemState) (pf : PoolFlags) (x : VirtualAddr) :
    SameTask s (s.setVaddr pf x) := by
  cases pf with
  | kernel => exact ⟨rfl, rfl, fun _ => rfl, fun _ _ => rfl⟩
  | user =>
    refine ⟨rfl, rfl, fun t => ?_, fun t ht => Function.update_of_ne ht _ _⟩
    by_cases ht : t = s.cur
    · subst ht
      simp [MemState.setVaddr]
    · simp [MemState.setVaddr, ht]

theorem setFree (s : MemState) (d : ℕ) (l : List ℕ) : SameTask s (s.setFree d l) :=
  ⟨rfl, rfl, fun _ => rfl, fun _ _ => rfl⟩

theorem dir (h : SameTask s s') : s'.dir = s.dir := by rw [MemState.dir, h.cr3, MemState.dir]

theorem heapPool (h : SameTask s s') : heapPool s' = heapPool s := by
  rw [Mem.heapPool, Mem.heapPool, h.cur, h.pgdir]

theorem descAt (h : SameTask s s') (i : ℕ) : descAt s' i = descAt s i := by
  rw [Mem.descAt, Mem.descAt, heapDescs, heapDescs, h.cur, h.pgdir]

end SameTask

@[simp] theorem desc_setVaddr (pf : PoolFlags) (x : VirtualAddr) :
    (s.setVaddr pf x).desc = s.desc := by cases pf <;> rfl

theorem freeOf_congr (h : SameTask s s') (hd : s'.desc = s.desc) : freeOf s' = freeOf s := by
  funext i
  rw [freeOf, freeOf, h.descAt, hd]

theorem desc_setFree (s : MemState) (d d' : ℕ) (l : List ℕ) :
    (s.setFree d l).desc d' =
      if d' = d then { s.desc d with freeList := l } else s.desc d' := by
  by_cases hd : d' = d
  · simp [MemState.setFree, hd]
  · simp [MemState.setFree, hd]

theorem freeList_setFree (s : MemState) (d d' : ℕ) (l : List ℕ) :
    ((s.setFree d l).desc d').freeList = if d' = d then l else (s.desc d').freeList := by
  rw [desc_setFree]
  split <;> rfl

@[simp] theorem blockSize_setFree (s : MemState) (d d' : ℕ) (l : List ℕ) :
    ((s.setFree d l).desc d').blockSize = (s.desc d').blockSize := by
  rw [desc_setFree]
  split
  · next hd => rw [hd]
  · rfl

@[simp] theorem blocksPerArena_setFree (s : MemState) (d d' : ℕ) (l : List ℕ) :
    ((s.setFree d l).desc d').blocksPerArena = (s.desc d').blocksPerArena := by
  rw [desc_setFree]
  split
  · next hd => rw [hd]
  · rfl

@[simp] theorem vaddr_setFree (s : MemState) (d : ℕ) (l : List ℕ) (pf : PoolFlags) :
    (s.setFree d l).vaddr pf = s.vaddr pf := by cases pf <;> rfl

theorem freeOf_setFree (s : MemState) (i : ℕ) (l : List ℕ) :
    freeOf (s.setFree (descAt s i) l) = Function.update (freeOf s) i l := by
  funext j
  rw [freeOf, (SameTask.setFree s _ l).descAt, freeList_setFree]
  by_cases hj : j = i
  · rw [if_pos (by rw [hj]), hj, Function.update_self]
  · rw [if_neg fun hc => hj (descAt_inj hc), Function.update_of_ne hj, freeOf]

/-! ### Words of a page -/

theorem load_word {va : ℕ} (h : s.translate p = some f) (hk : k < 1024)
    (hva : va = p * pgSize + 4 * k) : load va s = .ok (s.phys f k, s) := by
  have h1 : va / pgSize = p := by simp only [pgSize] at hva ⊢; omega
  have h2 : va % pgSize / 4 = k := by simp only [pgSize] at hva ⊢; omega
  rw [load_of_translate (by rw [h1]; exact h), h2]

theorem store_word {va w : ℕ} (h : s.translate p = some f) (hk : k < 1024)
    (hva : va = p * pgSize + 4 * k) : store va w s = .ok ((), s.setWord f k w) := by
  have h1 : va / pgSize = p := by simp only [pgSize] at hva ⊢; omega
  have h2 : va % pgSize / 4 = k := by simp only [pgSize] at hva ⊢; omega
  rw [store_of_translate (by rw [h1]; exact h), h2]

theorem setHeader_ok {fs : Set ℕ} (h : Paged s live dead)
    (hu : Holds s.phys live (.ofPage pf s.dir p) f) (htlb : Agrees s p) (hf : f ∈ fs)
    (hfs : ∀ g ∈ fs, Data s.phys live dead g) (w0 w1 w2 : ℕ) :
    ∃ s', setHeader (p * pgSize) w0 w1 w2 s = .ok ((), s') ∧ Writes s s' fs ∧
      s'.phys f 0 = w0 ∧ s'.phys f 1 = w1 ∧ s'.phys f 2 = w2 := by
  have hsub : ({f} : Set ℕ) ⊆ fs := Set.singleton_subset_iff.2 hf
  have hpage : ∀ {t}, Writes s t fs → t.translate p = some f := fun ht =>
    ht.translate h hfs hu htlb
  have hw1 := (Writes.setWord s f 0 w0).mono hsub
  have hw2 := hw1.trans ((Writes.setWord (s.setWord f 0 w0) f 1 w1).mono hsub)
  have hw3 := hw2.trans
    ((Writes.setWord ((s.setWord f 0 w0).setWord f 1 w1) f 2 w2).mono hsub)
  refine ⟨_, ?_, hw3, ?_⟩
  · have h0 : store (p * pgSize) w0 s = .ok ((), s.setWord f 0 w0) :=
      store_word (hpage (.refl s fs)) (by omega) (Nat.add_zero _).symm
    have h1 : store (p * pgSize + 4) w1 (s.setWord f 0 w0) =
        .ok ((), (s.setWord f 0 w0).setWord f 1 w1) := store_word (hpage hw1) (by omega) rfl
    rw [setHeader, bind_of_ok h0, bind_of_ok h1]
    exact store_word (hpage hw2) (by omega) rfl
  · simp [phys_setWord]

/-! ### The pages of an arena -/

/-- **What a new arena is in memory**: pages that were not mapped, with a header, and everything
that was mapped is as it was. -/
structure NewArena (live dead : Set ℕ) (pf : PoolFlags) (s s' : MemState) (p n w0 w1 w2 : ℕ) :
    Prop where
  grows : Grows live dead s s' (pageUses pf s.dir p n ∪ tableUses pf s.dir)
  run : (s.vaddr pf).Run p n
  unmarked : ∀ k < n, ¬ (s.vaddr pf).Marked (p + k)
  unmapped : ∀ k < n, (Use.ofPage pf s.dir (p + k)).frame s.phys = none
  page : ∀ k < n, ∃ f, Holds s'.phys live (.ofPage pf s.dir (p + k)) f ∧ Data s'.phys live dead f
  header : ∀ f, Holds s'.phys live (.ofPage pf s.dir p) f →
    s'.phys f 0 = w0 ∧ s'.phys f 1 = w1 ∧ s'.phys f 2 = w2
  rest : SameElse (s.setVaddr pf ((s.vaddr pf).mark p n true)) s'
  tlb : s'.tlb = s.tlb
  agrees : ∀ k < n, Agrees s' (p + k)

/-- `malloc_page` has returned `n` pages, which the TLB does not have elsewhere; they are filled
with zeros and the header is written. -/
theorem newArena_ok {s1 : MemState} {new : List (Use × ℕ)} (h : Paged s live dead) (hn : 0 < n)
    (hrun : (s.vaddr pf).Run p n) (hfree : ∀ k < n, ¬ (s.vaddr pf).Marked (p + k))
    (htake : Takes live (s.setVaddr pf ((s.vaddr pf).mark p n true)) s1 new)
    (hfills : Fills pf s.dir p n new) (htlb : ∀ k < n, Agrees s1 (p + k)) (w0 w1 w2 : ℕ) :
    ∃ s2 s', clearPages (p * pgSize) n s1 = .ok ((), s2) ∧
      setHeader (p * pgSize) w0 w1 w2 s2 = .ok ((), s') ∧
      NewArena live dead pf s s' p n w0 w1 w2 := by
  have hs := h.setVaddr pf p n true
  have h1 := htake.paged hs
  have hdir : s1.dir = s.dir := htake.rest.dir.trans (dir_setVaddr _ _)
  -- the frames of the new pages
  let fs : Set ℕ := {g | ∃ k < n, (Use.ofPage pf s.dir (p + k), g) ∈ new}
  have hfs : ∀ g ∈ fs, Data s1.phys live dead g := by
    rintro g ⟨k, -, hm⟩
    exact htake.data_of_page hs hm fun d i => ofPage_ne_table pf s.dir _ d i
  have hpages : ∀ k < n, ∃ g ∈ fs, Holds s1.phys live (.ofPage pf s1.dir (p + k)) g := by
    intro k hk
    obtain ⟨g, hm⟩ := hfills.page k hk
    rw [hdir]
    exact ⟨g, ⟨k, hk, hm⟩, htake.valid hm, htake.got _ g hm⟩
  obtain ⟨s2, hclear, hw, -⟩ := clearPages_ok h1 hpages htlb hfs
  have hfs2 : ∀ g ∈ fs, Data s2.phys live dead g := fun g hg =>
    ⟨fun hc => (hfs g hg).1 ((hw.structural hfs).1 hc), (hfs g hg).2⟩
  obtain ⟨f, hf, hu⟩ := hpages 0 hn
  have hu2 : Holds s2.phys live (.ofPage pf s2.dir p) f := by
    rw [hw.rest.dir]
    exact (hw.holds hfs).2 hu
  obtain ⟨s', hhead, hw', hwords⟩ := setHeader_ok (hw.paged h1 hfs) hu2
    (hw.agrees h1 hfs hu (htlb 0 hn)) hf hfs2 w0 w1 w2
  have hall := hw.trans hw'
  have hgrows : Grows live dead s s' (pageUses pf s.dir p n ∪ tableUses pf s.dir) := by
    refine (Grows.of_takes hs htake hall ?_ ?_).of_setVaddr
    · rintro g ⟨k, -, hm⟩
      exact ⟨_, hm, fun d i => ofPage_ne_table pf s.dir _ d i⟩
    · exact fun u g hm => (hfills.only u g hm).imp id id
  refine ⟨s2, s', hclear, hhead, hgrows, hrun, hfree, fun k hk => ?_,
    fun k hk => ?_, fun g hg => ?_,
    htake.rest.trans hall.rest, hall.tlb.trans (htake.tlb.trans (tlb_setVaddr _ _)), fun k hk => ?_⟩
  · obtain ⟨g, hm⟩ := hfills.page k hk
    have hnone := (htake.fresh _ g hm).2.1
    rwa [phys_setVaddr] at hnone
  · obtain ⟨g, hg, hu⟩ := hpages k hk
    rw [hdir] at hu
    exact ⟨g, (hall.holds hfs).2 hu, fun hc => (hfs g hg).1 ((hall.structural hfs).1 hc),
      (hfs g hg).2⟩
  · rw [hdir] at hu
    obtain rfl := hg.unique ((hall.holds hfs).2 hu)
    exact hwords
  · obtain ⟨g, -, hu⟩ := hpages k hk
    exact hall.agrees h1 hfs hu (htlb k hk)

/-! ### The invariant -/

/-- What the header of an arena says, in the frame of its first page. -/
def Header (s : MemState) (x : ℕ × Kind) (f : ℕ) : Prop :=
  match x.2 with
  | .small i =>
    s.phys f 0 = descAt s i ∧ s.phys f 1 = (slots (freeOf s) x.1 i).card ∧ s.phys f 2 = 0
  | .large n => s.phys f 0 = 0 ∧ s.phys f 1 = n ∧ s.phys f 2 = 1

/-- **The invariant of a heap**, of the kernel or of the running process. The pages of its arenas
are mapped and belong to nothing else, the TLB has none of them elsewhere, and their headers agree
with the free lists. -/
structure Heap (live dead : Set ℕ) (pf : PoolFlags) (A : Set (ℕ × Kind)) (out : List (ℕ × ℕ))
    (s : MemState) : Prop where
  paged : Paged s live dead
  space : Space s live pf
  pool : heapPool s = pf
  sizes : ∀ i < descCnt, (s.desc (descAt s i)).blockSize = blockSize i ∧
    (s.desc (descAt s i)).blocksPerArena = perArena i
  blocks : Blocks A (freeOf s) out
  page : ∀ x ∈ A, ∀ p, Covers x p →
    ∃ f, Holds s.phys live (.ofPage pf s.dir p) f ∧ Data s.phys live dead f
  run : ∀ x ∈ A, (s.vaddr pf).Run x.1 x.2.pages
  header : ∀ x ∈ A, ∀ f, Holds s.phys live (.ofPage pf s.dir x.1) f → Header s x f
  tlb : ∀ x ∈ A, ∀ p, Covers x p → Agrees s p

/-- Since the state `s0` the kernel has marked the pages of the arenas and their frames, and
nothing else. -/
structure Accounts (live : Set ℕ) (s0 : MemState) (A : Set (ℕ × Kind)) (s : MemState) : Prop where
  used : ∀ f, s.Used f ↔ s0.Used f ∨ ∃ x ∈ A, ∃ p, Covers x p ∧ Holds s.phys live (.kpage p) f
  fresh : ∀ x ∈ A, ∀ p, Covers x p → ∀ f, Holds s.phys live (.kpage p) f → ¬ s0.Used f
  marked : ∀ p, s0.kernelVaddr.first ≤ p →
    (s.kernelVaddr.Marked p ↔ s0.kernelVaddr.Marked p ∨ ∃ x ∈ A, Covers x p)
  unmarked : ∀ x ∈ A, ∀ p, Covers x p → ¬ s0.kernelVaddr.Marked p
  pools : SamePools s0 s
  vaddrStart : s.kernelVaddr.vaddrStart = s0.kernelVaddr.vaddrStart
  btmpBytesLen : s.kernelVaddr.vaddrBitmap.btmpBytesLen = s0.kernelVaddr.vaddrBitmap.btmpBytesLen

/-- **What a call of the heap does to the rest.** The arenas were `A` and are `A'`. Pages of others
stay where they are, with what is in them; so do the descriptors of others. -/
structure HeapStep (live dead : Set ℕ) (pf : PoolFlags) (A A' : Set (ℕ × Kind)) (s s' : MemState) :
    Prop where
  task : SameTask s s'
  desc : ∀ d, (∀ i < descCnt, d ≠ descAt s i) → s'.desc d = s.desc d
  grown : ∀ x ∈ A', ∀ p, Covers x p →
    (∃ y ∈ A, Covers y p) ∨ ∀ f, ¬ Holds s.phys live (.ofPage pf s.dir p) f
  kept : ∀ u f, Holds s.phys live u f → (∀ x ∈ A, ∀ p, Covers x p → u ≠ .ofPage pf s.dir p) →
    Holds s'.phys live u f
  data : ∀ u f, Holds s.phys live u f → (∀ x ∈ A, ∀ p, Covers x p → u ≠ .ofPage pf s.dir p) →
    Data s.phys live dead f → Data s'.phys live dead f ∧ s'.phys f = s.phys f
  accounts : pf = .kernel → ∀ s0, Accounts live s0 A s → Accounts live s0 A' s'

theorem HeapStep.refl (live dead : Set ℕ) (pf : PoolFlags) (A : Set (ℕ × Kind)) (s : MemState) :
    HeapStep live dead pf A A s s :=
  ⟨.refl s, fun _ _ => rfl, fun x hx _ hp => .inl ⟨x, hx, hp⟩, fun _ _ hu _ => hu,
    fun _ _ _ _ hf => ⟨hf, rfl⟩, fun _ _ h => h⟩

/-- **One call after another.** -/
theorem HeapStep.trans (h : HeapStep live dead pf A A' s s')
    (h' : HeapStep live dead pf A' A'' s' s'') : HeapStep live dead pf A A'' s s'' := by
  have hother : ∀ {u f}, Holds s.phys live u f →
      (∀ x ∈ A, ∀ p, Covers x p → u ≠ .ofPage pf s.dir p) →
      ∀ x ∈ A', ∀ p, Covers x p → u ≠ .ofPage pf s'.dir p := by
    rintro u f hu hne x hx p hp rfl
    rw [h.task.dir] at hu hne
    rcases h.grown x hx p hp with ⟨y, hy, hp'⟩ | hnone
    · exact hne y hy p hp' rfl
    · exact hnone f hu
  refine ⟨h.task.trans h'.task, fun d hd => ?_, fun x hx p hp => ?_, fun u f hu hne => ?_,
    fun u f hu hne hf => ?_, fun hpf s0 ha => h'.accounts hpf s0 (h.accounts hpf s0 ha)⟩
  · rw [h'.desc d fun i hi => by rw [h.task.descAt]; exact hd i hi, h.desc d hd]
  · rcases h'.grown x hx p hp with ⟨y, hy, hp'⟩ | hnone
    · exact h.grown y hy p hp'
    · by_cases hA : ∃ y ∈ A, Covers y p
      · exact .inl hA
      · refine .inr fun f hf => hnone f ?_
        rw [h.task.dir]
        refine h.kept _ f hf fun y hy q hq he => hA ⟨y, hy, ?_⟩
        rwa [Use.ofPage_inj he]
  · exact h'.kept u f (h.kept u f hu hne) (hother hu hne)
  · obtain ⟨hf', he⟩ := h.data u f hu hne hf
    obtain ⟨hf'', he'⟩ := h'.data u f (h.kept u f hu hne) (hother hu hne) hf'
    exact ⟨hf'', he'.trans he⟩

/-- Free lists are no part of the page tables. -/
theorem Paged.setFree (h : Paged s live dead) (d : ℕ) (l : List ℕ) :
    Paged (s.setFree d l) live dead :=
  ⟨⟨h.layout.1, h.layout.2, h.layout.3, h.layout.4, h.layout.5, h.layout.6, h.layout.7⟩, h.shares,
    h.page, h.excl, h.side, h.lowMem, h.running, h.tlb⟩

theorem setFree_self (s : MemState) (d : ℕ) : s.setFree d (s.desc d).freeList = s := by
  rw [setFree, Function.update_eq_self]

/-- A header says the same while its page and the count of its blocks are the same. -/
theorem Header.congr {x : ℕ × Kind} (h : Header s x f) (ht : SameTask s s')
    (hf : s'.phys f = s.phys f)
    (hslots : ∀ i, x.2 = .small i → slots (freeOf s') x.1 i = slots (freeOf s) x.1 i) :
    Header s' x f := by
  obtain ⟨a, κ⟩ := x
  cases κ with
  | small i =>
    obtain ⟨h0, h1, h2⟩ : s.phys f 0 = descAt s i ∧ s.phys f 1 = (slots (freeOf s) a i).card ∧
      s.phys f 2 = 0 := h
    refine ⟨?_, ?_, ?_⟩
    · rw [hf, ht.descAt, h0]
    · rw [hf, h1, ← hslots i rfl]
    · rw [hf, h2]
  | large n =>
    rw [Header] at h ⊢
    rw [hf]
    exact h

theorem Space.of_vaddr (h : Space s live pf) (hdir : s'.dir = s.dir)
    (h1 : (s'.vaddr pf).vaddrStart = (s.vaddr pf).vaddrStart)
    (h2 : (s'.vaddr pf).vaddrBitmap.btmpBytesLen = (s.vaddr pf).vaddrBitmap.btmpBytesLen) :
    Space s' live pf := by
  cases pf with
  | kernel => trivial
  | user => exact ⟨hdir ▸ UserSpace.dir h, h1.trans (UserSpace.vaddrStart h),
      h2.trans (UserSpace.btmpBytesLen h)⟩

theorem VirtualAddr.Run.mark {v : VirtualAddr} {q m : ℕ} {b : Bool} (h : v.Run p n) :
    (v.mark q m b).Run p n := by
  obtain ⟨h1, h2, h3⟩ := h
  refine ⟨h1, ?_, ?_⟩
  · rw [VirtualAddr.mark, btmpBytesLen_bitmapSetRun]
    exact h2
  · rw [VirtualAddr.mark, btmpBytesLen_bitmapSetRun]
    exact h3

/-! ### Arenas come and go -/

namespace NewArena

variable {x : ℕ × Kind} {w0 w1 w2 : ℕ}

variable (h : NewArena live dead pf s s' p n w0 w1 w2)

include h

theorem task : SameTask s s' :=
  (SameTask.setVaddr s pf _).trans (.of_sameElse h.rest)

theorem desc : s'.desc = s.desc :=
  h.rest.desc.trans (desc_setVaddr _ _)

theorem vaddr : s'.vaddr pf = (s.vaddr pf).mark p n true :=
  (h.rest.vaddr pf).trans (vaddr_setVaddr pf _)

theorem freeOf (i : ℕ) (l : List ℕ) :
    freeOf (s'.setFree (descAt s i) l) = Function.update (freeOf s) i l := by
  rw [← h.task.descAt, freeOf_setFree, freeOf_congr h.task h.desc]

omit h

theorem not_mapped (h : NewArena live dead pf s s' x.1 x.2.pages w0 w1 w2) (hp : Covers x p) :
    ∀ f, ¬ Holds s.phys live (.ofPage pf s.dir p) f := by
  intro f hf
  obtain ⟨k, hk, rfl⟩ := covers_iff.1 hp
  have hnone := h.unmapped k hk
  rw [hf.2] at hnone
  cases hnone

/-- The pages of other arenas are where they were. -/
theorem page_eq (h : NewArena live dead pf s s' p n w0 w1 w2)
    (hpage : ∃ g, Holds s.phys live u g) (hf : Holds s'.phys live u f) :
    Holds s.phys live u f := by
  obtain ⟨g, hg⟩ := hpage
  exact hf.unique (h.grows.kept _ g hg) ▸ hg

end NewArena

/-- **A new arena joins the heap.** -/
theorem Heap.grow {s1 : MemState} {x : ℕ × Kind} {w0 w1 w2 : ℕ} (h : Heap live dead pf A out s)
    (hnew : NewArena live dead pf s s1 x.1 x.2.pages w0 w1 w2)
    (hblocks : Blocks (insert x A) (Function.update (freeOf s) i l) out')
    (hhead : ∀ f, s1.phys f 0 = w0 ∧ s1.phys f 1 = w1 ∧ s1.phys f 2 = w2 →
      Header (s1.setFree (descAt s i) l) x f)
    (hother : ∀ a j, (a, .small j) ∈ A →
      slots (Function.update (freeOf s) i l) a j = slots (freeOf s) a j) :
    Heap live dead pf (insert x A) out' (s1.setFree (descAt s i) l) := by
  have ht := hnew.task.trans (.setFree s1 (descAt s i) l)
  have hpaged := hnew.grows.paged.setFree (descAt s i) l
  refine ⟨hpaged, ?_, ?_, ?_, hnew.freeOf i l ▸ hblocks, ?_, ?_, ?_, ?_⟩
  · refine h.space.of_vaddr ht.dir ?_ ?_
    · rw [vaddr_setFree, hnew.vaddr]
      rfl
    · rw [vaddr_setFree, hnew.vaddr]
      exact btmpBytesLen_bitmapSetRun _ _ _ _
  · rw [ht.heapPool]
    exact h.pool
  · intro j hj
    rw [ht.descAt, blockSize_setFree, blocksPerArena_setFree, hnew.desc]
    exact h.sizes j hj
  · rintro y (rfl | hy) q hq
    · obtain ⟨k, hk, rfl⟩ := covers_iff.1 hq
      obtain ⟨f, hu, hf⟩ := hnew.page k hk
      exact ⟨f, by rw [ht.dir]; exact hu, hf⟩
    · obtain ⟨f, hu, hf⟩ := h.page y hy q hq
      exact ⟨f, by rw [ht.dir]; exact hnew.grows.kept _ f hu, (hnew.grows.data _ f hu hf).1⟩
  · rw [vaddr_setFree, hnew.vaddr]
    rintro y (rfl | hy)
    · exact hnew.run.mark
    · exact (h.run y hy).mark
  · rintro y (rfl | hy) f hf
    · rw [ht.dir] at hf
      exact hhead f (hnew.header f hf)
    · rw [ht.dir] at hf
      obtain ⟨g, hu, hg⟩ := h.page y hy _ (h.blocks.arenas.covers_first hy)
      obtain rfl := hu.unique (hnew.page_eq ⟨g, hu⟩ hf)
      refine (h.header y hy g hu).congr ht (hnew.grows.data _ g hu hg).2 fun j hj => ?_
      rw [hnew.freeOf]
      refine hother y.1 j ?_
      rw [← hj]
      exact hy
  · rintro y (rfl | hy) q hq
    · obtain ⟨k, hk, rfl⟩ := covers_iff.1 hq
      exact hnew.agrees k hk
    · obtain ⟨f, hu, -⟩ := h.page y hy q hq
      exact (h.tlb y hy q hq).of_holds h.paged hpaged ht.dir hu (hnew.grows.kept _ f hu)
        (.inr (congrFun hnew.tlb q))

/-- **The books after a new arena**: its pages and frames come on top. -/
theorem Accounts.grow {s0 s1 : MemState} {x : ℕ × Kind} {w0 w1 w2 : ℕ} (ha : Accounts live s0 A s)
    (hnew : NewArena live dead .kernel s s1 x.1 x.2.pages w0 w1 w2)
    (hpage : ∀ y ∈ A, ∀ p, Covers y p → ∃ f, Holds s.phys live (.kpage p) f) :
    Accounts live s0 (insert x A) s1 := by
  have hk : s1.kernelVaddr = s.kernelVaddr.mark x.1 x.2.pages true := hnew.vaddr
  have hfirst : s.kernelVaddr.first = s0.kernelVaddr.first := by
    rw [VirtualAddr.first, VirtualAddr.first, ha.vaddrStart]
  refine ⟨fun f => ?_, ?_, fun q hq => ?_, ?_, ha.pools.trans hnew.grows.pools, ?_, ?_⟩
  · rw [hnew.grows.used, ha.used, or_assoc]
    refine or_congr Iff.rfl ⟨?_, ?_⟩
    · rintro (⟨y, hy, q, hq, hu⟩ | ⟨u, hn, hu, -⟩)
      · exact ⟨y, .inr hy, q, hq, hnew.grows.kept _ f hu⟩
      · obtain ⟨k, hk, rfl⟩ := hn.resolve_right fun hc => by cases hc.1
        exact ⟨x, .inl rfl, _, covers_iff.2 ⟨k, hk, rfl⟩, hu⟩
    · rintro ⟨y, rfl | hy, q, hq, hu⟩
      · obtain ⟨k, hk, rfl⟩ := covers_iff.1 hq
        exact .inr ⟨_, .inl ⟨k, hk, rfl⟩, hu, hnew.unmapped k hk⟩
      · exact .inl ⟨y, hy, q, hq, hnew.page_eq (hpage y hy q hq) hu⟩
  · rintro y (rfl | hy) q hq f hu hused
    · rcases hnew.grows.fresh _ f hu with hold | ⟨-, -, hfree⟩
      · exact hnew.not_mapped hq f hold
      · exact hfree ((ha.used f).2 (.inl hused))
    · exact ha.fresh y hy q hq f (hnew.page_eq (hpage y hy q hq) hu) hused
  · have hmark : s1.kernelVaddr.Marked q ↔
        if Covers x q then true = true else s.kernelVaddr.Marked q := by
      rw [hk]
      exact VirtualAddr.marked_mark hnew.run.1 (by rw [hfirst]; exact hq)
    rw [hmark, ha.marked q hq]
    by_cases hx : Covers x q
    · rw [if_pos hx]
      exact ⟨fun _ => .inr ⟨x, .inl rfl, hx⟩, fun _ => rfl⟩
    · rw [if_neg hx]
      refine or_congr Iff.rfl ⟨Exists.imp fun y hy => ⟨.inr hy.1, hy.2⟩, ?_⟩
      rintro ⟨y, rfl | hy, hq⟩
      · exact absurd hq hx
      · exact ⟨y, hy, hq⟩
  · rintro y (rfl | hy) q hq hm
    · obtain ⟨k, hk, rfl⟩ := covers_iff.1 hq
      refine hnew.unmarked k hk ((ha.marked _ ?_).2 (.inl hm))
      have := hnew.run.1
      rw [MemState.vaddr, hfirst] at this
      omega
    · exact ha.unmarked y hy q hq hm
  · exact (congrArg VirtualAddr.vaddrStart hk).trans ha.vaddrStart
  · refine (congrArg (fun v => v.vaddrBitmap.btmpBytesLen) hk).trans ?_
    exact (btmpBytesLen_bitmapSetRun _ _ _ _).trans ha.btmpBytesLen

/-- Free lists are not in the books. -/
theorem Accounts.setFree {s0 : MemState} (h : Accounts live s0 A s) (d : ℕ) (l : List ℕ) :
    Accounts live s0 A (s.setFree d l) :=
  ⟨h.used, h.fresh, h.marked, h.unmarked, h.pools, h.vaddrStart, h.btmpBytesLen⟩

/-- **A new arena is no business of others.** -/
theorem HeapStep.grow {s1 : MemState} {x : ℕ × Kind} {w0 w1 w2 : ℕ}
    (h : Heap live dead pf A out s) (hnew : NewArena live dead pf s s1 x.1 x.2.pages w0 w1 w2)
    (hi : i < descCnt) :
    HeapStep live dead pf A (insert x A) s (s1.setFree (descAt s i) l) := by
  refine ⟨hnew.task.trans (.setFree s1 (descAt s i) l), fun d hd => ?_, ?_,
    fun u f hu _ => hnew.grows.kept u f hu, fun u f hu _ hf => hnew.grows.data u f hu hf,
    fun hpf s0 ha => ?_⟩
  · rw [desc_setFree, if_neg (hd i hi), hnew.desc]
  · rintro y (rfl | hy) q hq
    · exact .inr (hnew.not_mapped hq)
    · exact .inl ⟨y, hy, hq⟩
  · subst hpf
    refine (ha.grow hnew fun y hy q hq => ?_).setFree _ _
    obtain ⟨f, hu, -⟩ := h.page y hy q hq
    exact ⟨f, hu⟩

/-- **The pages of an arena have been freed**, after its blocks were taken off the list. -/
structure GoneArena (live dead : Set ℕ) (pf : PoolFlags) (s s' : MemState) (x : ℕ × Kind) (i : ℕ)
    (l : List ℕ) : Prop where
  shrinks : Shrinks live dead (s.setFree (descAt s i) l) s' (pageUses pf s.dir x.1 x.2.pages)
  rest : SameElse ((s.setFree (descAt s i) l).setVaddr pf
    ((s.vaddr pf).mark x.1 x.2.pages false)) s'

namespace GoneArena

variable {x y : ℕ × Kind}

variable (h : GoneArena live dead pf s s' x i l)

include h

theorem task : SameTask s s' :=
  (SameTask.setFree s (descAt s i) l).trans
    ((SameTask.setVaddr _ pf _).trans (.of_sameElse h.rest))

theorem desc : s'.desc = (s.setFree (descAt s i) l).desc :=
  h.rest.desc.trans (desc_setVaddr _ _)

theorem vaddr : s'.vaddr pf = (s.vaddr pf).mark x.1 x.2.pages false := by
  rw [h.rest.vaddr pf, vaddr_setVaddr]

theorem freeOf : freeOf s' = Function.update (freeOf s) i l := by
  rw [freeOf_congr ((SameTask.setVaddr _ pf _).trans (.of_sameElse h.rest)) h.desc, freeOf_setFree]

omit h

/-- The pages of other arenas are not among those that have gone. -/
theorem not_mem (hA : Arenas A) (hx : x ∈ A) (hy : y ∈ A \ {x}) (hp : Covers y p)
    (pf' : PoolFlags) : Use.ofPage pf' d p ∉ pageUses pf d x.1 x.2.pages := by
  rintro ⟨k, hk, he⟩
  obtain rfl := Use.ofPage_inj he
  exact hy.2 (hA.apart y hy.1 x hx _ hp (covers_iff.2 ⟨k, hk, rfl⟩))

end GoneArena

/-- **An arena leaves the heap.** Its blocks are off the free list by then. -/
theorem Heap.shrink {x : ℕ × Kind} (h : Heap live dead pf A out s) (hx : x ∈ A)
    (hgone : GoneArena live dead pf s s' x i l)
    (hblocks : Blocks (A \ {x}) (Function.update (freeOf s) i l) out')
    (hother : ∀ a j, (a, .small j) ∈ A \ {x} →
      slots (Function.update (freeOf s) i l) a j = slots (freeOf s) a j) :
    Heap live dead pf (A \ {x}) out' s' := by
  have ht := hgone.task
  have hkept : ∀ {y q f}, y ∈ A \ {x} → Covers y q → Holds s.phys live (.ofPage pf s.dir q) f →
      Holds s'.phys live (.ofPage pf s.dir q) f := fun hy hq hu =>
    hgone.shrinks.kept _ _ hu (GoneArena.not_mem h.blocks.arenas hx hy hq pf)
  refine ⟨hgone.shrinks.paged, ?_, ?_, ?_, hgone.freeOf ▸ hblocks, ?_, ?_, ?_, ?_⟩
  · refine h.space.of_vaddr ht.dir ?_ ?_
    · rw [hgone.vaddr]
      rfl
    · rw [hgone.vaddr]
      exact btmpBytesLen_bitmapSetRun _ _ _ _
  · rw [ht.heapPool]
    exact h.pool
  · intro j hj
    rw [ht.descAt, hgone.desc, blockSize_setFree, blocksPerArena_setFree]
    exact h.sizes j hj
  · intro y hy q hq
    obtain ⟨f, hu, hf⟩ := h.page y hy.1 q hq
    exact ⟨f, by rw [ht.dir]; exact hkept hy hq hu, (hgone.shrinks.data f hf).1⟩
  · intro y hy
    rw [hgone.vaddr]
    exact (h.run y hy.1).mark
  · intro y hy f hf
    rw [ht.dir] at hf
    have hu : Holds s.phys live (.ofPage pf s.dir y.1) f := hgone.shrinks.holds _ f hf
    obtain ⟨g, hg, hdata⟩ := h.page y hy.1 y.1 (h.blocks.arenas.covers_first hy.1)
    obtain rfl := hu.unique hg
    refine (h.header y hy.1 f hu).congr ht (hgone.shrinks.data f hdata).2 fun j hj => ?_
    rw [hgone.freeOf]
    refine hother y.1 j ?_
    rw [← hj]
    exact hy
  · intro y hy q hq
    obtain ⟨f, hu, -⟩ := h.page y hy.1 q hq
    exact (h.tlb y hy.1 q hq).of_holds h.paged hgone.shrinks.paged ht.dir hu (hkept hy hq hu)
      (hgone.shrinks.tlb q (GoneArena.not_mem h.blocks.arenas hx hy hq))

/-- **The books after an arena has gone**: its pages and frames are as they were in `s0`. -/
theorem Accounts.shrink {s0 : MemState} {x : ℕ × Kind} (ha : Accounts live s0 A s)
    (h : Heap live dead .kernel A out s) (hx : x ∈ A)
    (hgone : GoneArena live dead .kernel s s' x i l) : Accounts live s0 (A \ {x}) s' := by
  have hk : s'.kernelVaddr = s.kernelVaddr.mark x.1 x.2.pages false := hgone.vaddr
  have hfirst : s.kernelVaddr.first = s0.kernelVaddr.first := by
    rw [VirtualAddr.first, VirtualAddr.first, ha.vaddrStart]
  refine ⟨fun f => ?_, fun y hy q hq f hu => ?_, fun q hq => ?_, fun y hy => ?_,
    ha.pools.trans hgone.shrinks.pools, ?_, ?_⟩
  · rw [hgone.shrinks.used]
    change s.Used f ∧ _ ↔ _
    constructor
    · rintro ⟨hused, hnone⟩
      refine ((ha.used f).1 hused).imp_right ?_
      rintro ⟨y, hy, q, hq, hu⟩
      have hyx : y ≠ x := by
        rintro rfl
        obtain ⟨k, hk, rfl⟩ := covers_iff.1 hq
        exact hnone _ ⟨k, hk, rfl⟩ hu
      exact ⟨y, ⟨hy, hyx⟩, q, hq, hgone.shrinks.kept _ f hu
        (GoneArena.not_mem h.blocks.arenas hx ⟨hy, hyx⟩ hq .kernel)⟩
    · rintro (hused | ⟨y, hy, q, hq, hu⟩)
      · refine ⟨(ha.used f).2 (.inl hused), ?_⟩
        rintro _ ⟨k, hk, rfl⟩ hu
        exact ha.fresh x hx _ (covers_iff.2 ⟨k, hk, rfl⟩) f hu hused
      · have hu := hgone.shrinks.holds _ f hu
        refine ⟨(ha.used f).2 (.inr ⟨y, hy.1, q, hq, hu⟩), fun u hm hu' => ?_⟩
        obtain rfl := h.paged.excl.inj _ _ _ hu hu'
        exact GoneArena.not_mem h.blocks.arenas hx hy hq .kernel hm
  · exact ha.fresh y hy.1 q hq f (hgone.shrinks.holds _ f hu)
  · have hmark : s'.kernelVaddr.Marked q ↔
        if Covers x q then false = true else s.kernelVaddr.Marked q := by
      rw [hk]
      exact VirtualAddr.marked_mark (h.run x hx).1 (by rw [hfirst]; exact hq)
    rw [hmark, ha.marked q hq]
    by_cases hc : Covers x q
    · rw [if_pos hc]
      refine ⟨by simp, ?_⟩
      rintro (hm | ⟨y, hy, hq'⟩)
      · exact absurd hm (ha.unmarked x hx q hc)
      · exact absurd (h.blocks.arenas.apart y hy.1 x hx q hq' hc) hy.2
    · rw [if_neg hc]
      refine or_congr Iff.rfl (exists_congr fun y => and_congr_left fun hq' => ?_)
      refine ⟨fun hy => ⟨hy, ?_⟩, fun hy => hy.1⟩
      rintro rfl
      exact hc hq'
  · exact ha.unmarked y hy.1
  · exact (congrArg VirtualAddr.vaddrStart hk).trans ha.vaddrStart
  · refine (congrArg (fun v => v.vaddrBitmap.btmpBytesLen) hk).trans ?_
    exact (btmpBytesLen_bitmapSetRun _ _ _ _).trans ha.btmpBytesLen

/-- **An arena that goes is no business of others.** -/
theorem HeapStep.shrink {x : ℕ × Kind} (h : Heap live dead pf A out s) (hx : x ∈ A)
    (hi : i < descCnt) (hgone : GoneArena live dead pf s s' x i l) :
    HeapStep live dead pf A (A \ {x}) s s' := by
  refine ⟨hgone.task, fun d hd => ?_, fun y hy q hq => .inl ⟨y, hy.1, hq⟩, fun u f hu hne => ?_,
    fun u f hu _ hf => hgone.shrinks.data f hf, fun hpf s0 ha => ?_⟩
  · rw [hgone.desc, desc_setFree, if_neg (hd i hi)]
  · refine hgone.shrinks.kept u f hu ?_
    rintro ⟨k, hk, he⟩
    exact hne x hx _ (covers_iff.2 ⟨k, hk, rfl⟩) he
  · subst hpf
    exact ha.shrink h hx hgone

/-- **Writing to a page of an arena**, while one free list changes. The header of that arena and the
counts of the others are what there is to show. -/
theorem Heap.write {x : ℕ × Kind} (h : Heap live dead pf A out s) (hx : x ∈ A) (hp : Covers x p)
    (hu : Holds s.phys live (.ofPage pf s.dir p) f) (hi : i < descCnt)
    (hw : Writes (s.setFree (descAt s i) l) s' {f})
    (hblocks : Blocks A (Function.update (freeOf s) i l) out')
    (hhead : ∀ g, Holds s.phys live (.ofPage pf s.dir x.1) g → Header s' x g)
    (hother : ∀ a j, (a, .small j) ∈ A → (a, .small j) ≠ x →
      slots (Function.update (freeOf s) i l) a j = slots (freeOf s) a j) :
    Heap live dead pf A out' s' ∧ HeapStep live dead pf A A s s' := by
  have ht : SameTask s s' := (SameTask.setFree s (descAt s i) l).trans (.of_sameElse hw.rest)
  have hdesc : s'.desc = (s.setFree (descAt s i) l).desc := hw.rest.desc
  have hvaddr : s'.vaddr pf = s.vaddr pf := by rw [hw.rest.vaddr pf, vaddr_setFree]
  have hfree : freeOf s' = Function.update (freeOf s) i l := by
    rw [freeOf_congr (.of_sameElse hw.rest) hdesc, freeOf_setFree]
  have hf : Data s.phys live dead f := by
    obtain ⟨g, hg, hdata⟩ := h.page x hx p hp
    exact hu.unique hg ▸ hdata
  have hfs : ∀ g ∈ ({f} : Set ℕ), Data (s.setFree (descAt s i) l).phys live dead g := by
    rintro g rfl
    exact hf
  have hholds : ∀ {u g}, Holds s'.phys live u g ↔ Holds s.phys live u g := hw.holds hfs
  have hdata : ∀ {g}, Data s.phys live dead g → Data s'.phys live dead g := fun hg =>
    ⟨fun hc => hg.1 ((hw.structural hfs).1 hc), hg.2⟩
  have hphys : ∀ {g}, g ≠ f → s'.phys g = s.phys g := fun hg => hw.phys _ hg
  refine ⟨⟨hw.paged (h.paged.setFree _ _) hfs, ?_, ?_, ?_, hfree ▸ hblocks, ?_, ?_, ?_, ?_⟩,
    ht, fun d hd => ?_, fun y hy q hq => .inl ⟨y, hy, hq⟩, fun u g hg _ => hholds.2 hg,
    fun u g hg hne hdg => ⟨hdata hdg, hphys ?_⟩, fun hpf s0 ha => ?_⟩
  · exact h.space.of_vaddr ht.dir (by rw [hvaddr]) (by rw [hvaddr])
  · rw [ht.heapPool]
    exact h.pool
  · intro j hj
    rw [ht.descAt, hdesc, blockSize_setFree, blocksPerArena_setFree]
    exact h.sizes j hj
  · intro y hy q hq
    obtain ⟨g, hg, hdg⟩ := h.page y hy q hq
    exact ⟨g, by rw [ht.dir]; exact hholds.2 hg, hdata hdg⟩
  · rw [hvaddr]
    exact h.run
  · intro y hy g hg
    rw [ht.dir] at hg
    have hg := hholds.1 hg
    by_cases hyx : y = x
    · rw [hyx] at hg ⊢
      exact hhead g hg
    · have hne : g ≠ f := by
        rintro rfl
        obtain rfl := Use.ofPage_inj (h.paged.excl.inj _ _ _ hg hu)
        exact hyx (h.blocks.arenas.apart y hy x hx _ (h.blocks.arenas.covers_first hy) hp)
      refine (h.header y hy g hg).congr ht (hphys hne) fun j hj => ?_
      have hy' : (y.1, Kind.small j) = y := by rw [← hj]
      rw [hfree]
      exact hother y.1 j (hy' ▸ hy) (hy' ▸ hyx)
  · intro y hy q hq
    obtain ⟨g, hg, -⟩ := h.page y hy q hq
    exact hw.agrees (h.paged.setFree _ _) hfs hg (h.tlb y hy q hq)
  · rw [hdesc, desc_setFree, if_neg (hd i hi)]
  · rintro rfl
    exact hne x hx p hp (h.paged.excl.inj _ _ _ hg hu)
  · have hk : s'.kernelVaddr = s.kernelVaddr := hw.rest.kernelVaddr
    refine ⟨fun g => ?_, fun y hy q hq g hg => ?_, fun q hq => ?_, ha.unmarked,
      ha.pools.trans hw.pools, ?_, ?_⟩
    · rw [hw.used]
      change s.Used g ↔ _
      rw [ha.used]
      simp only [hholds]
    · exact ha.fresh y hy q hq g (hholds.1 hg)
    · rw [hk]
      exact ha.marked q hq
    · rw [hk]
      exact ha.vaddrStart
    · rw [hk]
      exact ha.btmpBytesLen

/-- **A block changes hands.** -/
theorem Heap.relist (h : Heap live dead pf A out s) (hx : (a, .small i) ∈ A)
    (hu : Holds s.phys live (.ofPage pf s.dir a) f)
    (hw : Writes (s.setFree (descAt s i) l) s' {f})
    (hblocks : Blocks A (Function.update (freeOf s) i l) out')
    (h0 : s'.phys f 0 = s.phys f 0) (h2 : s'.phys f 2 = s.phys f 2)
    (h1 : s'.phys f 1 = (slots (Function.update (freeOf s) i l) a i).card)
    (hother : ∀ a', a' ≠ a →
      slots (Function.update (freeOf s) i l) a' i = slots (freeOf s) a' i) :
    Heap live dead pf A out' s' ∧ HeapStep live dead pf A A s s' := by
  have hi := h.blocks.arenas.small a i hx
  have ht : SameTask s s' := (SameTask.setFree s (descAt s i) l).trans (.of_sameElse hw.rest)
  refine h.write hx (covers_small.2 rfl) hu hi hw hblocks (fun g hg => ?_) fun a' j hy hne => ?_
  · obtain rfl := hg.unique hu
    obtain ⟨hh0, -, hh2⟩ : s.phys g 0 = descAt s i ∧ s.phys g 1 = (slots (freeOf s) a i).card ∧
      s.phys g 2 = 0 := h.header _ hx g hg
    refine ⟨?_, ?_, ?_⟩
    · rw [h0, hh0, ht.descAt]
    · rw [h1, freeOf_congr (.of_sameElse hw.rest) hw.rest.desc, freeOf_setFree]
    · rw [h2, hh2]
  · by_cases hji : j = i
    · subst hji
      exact hother a' fun ha => hne (by rw [ha])
    · exact Blocks.slots_update_ne hji l

/-- **The owner of a block writes to it.** The header of the arena is in front of the block. -/
theorem Heap.store {x : ℕ × Kind} (h : Heap live dead pf A out s) (hx : x ∈ A) (hp : Covers x p)
    (hu : Holds s.phys live (.ofPage pf s.dir p) f) (hk : p = x.1 → 3 ≤ k) (w : ℕ) :
    Heap live dead pf A out (s.setWord f k w) ∧ HeapStep live dead pf A A s (s.setWord f k w) := by
  have hlist : s.setFree (descAt s 0) (freeOf s 0) = s := setFree_self s _
  refine h.write (i := 0) (l := freeOf s 0) hx hp hu (by decide)
    (by rw [hlist]; exact .setWord s f k w)
    (by rw [Function.update_eq_self]; exact h.blocks) (fun g hg => ?_)
    fun a j _ _ => by rw [Function.update_eq_self]
  have hword : ∀ m < 3, (s.setWord f k w).phys g m = s.phys g m := by
    intro m hm
    rw [phys_setWord]
    by_cases hgf : g = f
    · subst hgf
      have := hk (Use.ofPage_inj (h.paged.excl.inj _ _ _ hu hg))
      rw [Function.update_self, Function.update_of_ne (by omega)]
    · rw [Function.update_of_ne hgf]
  have hhead := h.header x hx g hg
  rw [Header] at hhead ⊢
  rw [hword 0 (by omega), hword 1 (by omega), hword 2 (by omega)]
  exact hhead

end

end X86Os.Mem
