import X86Os.Kernel.Paging

/-!
# Allocating and releasing pages

What `malloc_page`, `get_kernel_pages`, `get_a_page` and `mfree_page` do to the page tables, in
terms of the places of `Paging`. Each of them is shown to be a `Takes` or a `Gives` with the places
named: the pages asked for, and for a process the tables that had to be added.

Allocation can fail in ways that do not come back. `bitmap_scan` asserts that a bitmap it scans is
not full, so a pool without a free frame is a panic and not a null result; a run of pages of a
process may end one page too far, in the kernel, where `page_table_add` finds a present entry. The
rules have one hypothesis for each of them, so that a caller who can exclude it gets a call that
returns. Releasing pages that are mapped cannot fail, and is stated as such.
-/

namespace X86Os.Mem

open X86Os.Comp MemState

section

variable {s : MemState} {live dead : Set ℕ} {d v i j t f g w : ℕ} {u : Use} {pf : PoolFlags}
  {Q : ℕ → MemState → Prop} {E : Fault → Prop}

/-! ### Mapping one page -/

/-- The table that has the entry of page `v`: one of the kernel's, or one of the directory `d`. -/
def TableOf (s : MemState) (live : Set ℕ) (d v t : ℕ) : PoolFlags → Prop
  | .kernel => t = kernelTable (v / 1024) ∧ (Use.kpage v).Valid live
  | .user => Holds s.phys live (.table d (v / 1024)) t

namespace TableOf

theorem valid (ht : TableOf s live d v t pf) : (Use.ofPage pf d v).Valid live := by
  cases pf with
  | kernel => exact ht.2
  | user => exact ⟨ht.1.1, by have := ht.1.2; omega⟩

theorem frame_eq (ht : TableOf s live d v t pf) :
    (Use.ofPage pf d v).frame s.phys = target (s.phys t (v % 1024)) := by
  cases pf with
  | kernel => rw [ht.1]; rfl
  | user => exact walk_of_target ht.2

theorem structural (ht : TableOf s live d v t pf) : Structural s.phys live t := by
  cases pf with
  | kernel => exact .inl (ht.1 ▸ kernelTable_lt (Use.valid_kpage.1 ht.2).2)
  | user => exact .inr (.inr ⟨_, _, ht⟩)

theorem ne_dir (ht : TableOf s live d v t pf) (h : Paged s live dead) {d' : ℕ}
    (hd : d' = kernelDir ∨ d' ∈ live) : d' ≠ t := by
  cases pf with
  | kernel =>
    have hlow := kernelTable_lt (Use.valid_kpage.1 ht.2).2
    rw [ht.1]
    rcases hd with rfl | hd
    · unfold kernelDir kernelTable
      omega
    · have := h.dir_low hd
      omega
  | user =>
    rcases hd with rfl | hd
    · have := h.low ht
      unfold kernelDir
      omega
    · exact (h.table_ne_dir ht hd).symm

/-- The entries of the low megabyte come before those of the heap. -/
theorem setWord_low (ht : TableOf s live d v t pf) (h : Paged s live dead) (hi : i < 256) :
    (s.setWord t (v % 1024) w).phys (kernelTable 768) i = s.phys (kernelTable 768) i := by
  rw [phys_setWord]
  by_cases he : kernelTable 768 = t
  · rw [he, Function.update_self, Function.update_of_ne]
    cases pf with
    | kernel =>
      obtain ⟨rfl, hv⟩ := ht
      obtain ⟨hv1, hv2⟩ := Use.valid_kpage.1 hv
      unfold kernelTable at he
      omega
    | user =>
      have := h.low ht
      unfold kernelTable at he
      omega
  · rw [Function.update_of_ne he]

/-- **Writing the entry of a page.** -/
theorem frame_setWord (ht : TableOf s live d v t pf) (h : Paged s live dead) (hu : u.Valid live) :
    u.frame (s.setWord t (v % 1024) w).phys =
      if u = .ofPage pf d v then target w else u.frame s.phys := by
  cases pf with
  | kernel => rw [ht.1]; exact h.frame_setWord_kernel ht.2 hu
  | user =>
    rw [h.frame_setWord_table ht (Nat.mod_lt _ (by omega)) hu,
      show v / 1024 * 1024 + v % 1024 = v by omega]
    rfl

end TableOf

namespace Paged

variable (h : Paged s live dead)

include h

/-- The table that the running directory has for a page. -/
theorem tableOf (hv : (Use.ofPage pf s.dir v).Valid live)
    (ht : target (s.phys s.dir (v / 1024)) = some t) : TableOf s live s.dir v t pf := by
  cases pf with
  | kernel =>
    obtain ⟨h1, h2⟩ := Use.valid_kpage.1 hv
    rw [(h.shares _ h.running).1 _ (by omega) (by omega), target_entry] at ht
    exact ⟨(Option.some.inj ht).symm, hv⟩
  | user => exact holds_table hv.1 (by have := hv.2; omega) ht

theorem has_of_holds (hu : Holds s.phys live (.ofPage pf d v) f) : (s.pool pf).Has f := by
  have := h.side _ _ hu
  rwa [Use.side_ofPage] at this

/-- An entry of a table of pages is not one of those that are kept. -/
theorem kernelKept (ht : TableOf s live d v t pf) {s' : MemState} {w : ℕ}
    (hphys : s'.phys = (s.setWord t (v % 1024) w).phys) (hpools : SamePools s s')
    (hrest : SameElse s s') : KernelKept live s s' where
  kernelDir := by rw [hphys, phys_setWord, Function.update_of_ne (ht.ne_dir h (.inl rfl))]
  upper d' hd' i _ := by rw [hphys, phys_setWord, Function.update_of_ne (ht.ne_dir h (.inr hd'))]
  lowMem i hi := by rw [hphys, ht.setWord_low h hi]
  pools := hpools
  rest := hrest

/-- A frame for a page whose table is there. -/
theorem takes_page (ht : TableOf s live d v t pf)
    (hnone : target (s.phys t (v % 1024)) = none) (hf : (s.pool pf).Has f) (hnew : ¬ s.Used f) :
    Takes live s ((s.markFrame pf f true).setWord t (v % 1024) (entry (f * pgSize)))
      [(.ofPage pf d v, f)] := by
  have hphys : ((s.markFrame pf f true).setWord t (v % 1024) (entry (f * pgSize))).phys =
      (s.setWord t (v % 1024) (entry (f * pgSize))).phys := by
    rw [phys_setWord, phys_setWord, phys_markFrame]
  have hframe : ∀ u, Use.Valid live u → u.frame (s.setWord t (v % 1024) (entry (f * pgSize))).phys =
      if u = .ofPage pf d v then some f else u.frame s.phys := by
    intro u hu
    rw [ht.frame_setWord h hu, target_entry]
  constructor
  · exact h.kernelKept ht hphys (.markFrame pf hf true)
      (by cases pf <;> exact ⟨rfl, rfl, rfl, rfl, rfl⟩)
  · intro u g hm
    cases List.mem_singleton.1 hm
    exact ⟨ht.valid, ht.frame_eq.trans hnone, by rwa [Use.side_ofPage], hnew⟩
  · exact List.nodup_singleton f
  · intro u g hm
    cases List.mem_singleton.1 hm
    rw [hphys, hframe _ ht.valid, if_pos rfl]
  · intro u hu hm
    rw [hphys, hframe u hu, if_neg]
    rintro rfl
    exact hm f (List.mem_singleton_self _)
  · intro g
    refine (used_markFrame_true pf hf).trans (or_congr Iff.rfl ?_)
    simp
  · intro g hg
    rw [hphys, phys_setWord, Function.update_of_ne]
    rintro rfl
    rw [hphys] at hg
    refine hg ?_
    rcases ht.structural with hc | hc | ⟨d', i', hc⟩
    · exact .inl hc
    · exact .inr (.inl hc)
    · exact .inr (.inr ⟨d', i', hc.1, by rw [hframe _ hc.1, if_neg (by cases pf <;> nofun), hc.2]⟩)
  · rw [tlb_setWord, tlb_markFrame]

/-- A frame of the kernel pool for a table, which is empty. -/
theorem takes_table (hd : d ∈ live) (hi : i < 768)
    (hnone : target (s.phys d i) = none) (ht : s.kernelPool.Has t) (htnew : ¬ s.Used t)
    (page : ℕ → ℕ) :
    Takes live s (((s.markFrame .kernel t true).setWord d i (entry (t * pgSize))).setPage t
      (zeroPage page)) [(.table d i, t)] := by
  have hlow : 0x200 ≤ t := h.layout.low (show (s.pool .kernel).Has t from ht)
  have hdlow := h.dir_low hd
  have hdt : ∀ d' ∈ live, d' ≠ t := by
    rintro d' hd' rfl
    obtain ⟨v, hv⟩ := h.page d' (.inl hd')
    exact htnew (h.excl.used _ _ hv)
  have hphys : ∀ f, f ≠ t → f ≠ d → (((s.markFrame .kernel t true).setWord d i
      (entry (t * pgSize))).setPage t (zeroPage page)).phys f = s.phys f := by
    intro f hft hfd
    rw [phys_setPage, Function.update_of_ne hft, phys_setWord, Function.update_of_ne hfd,
      phys_markFrame]
  have hframe := fun u => h.frame_addTable hd hi hnone htnew hlow page (u := u)
  have htable : (Use.table d i).Valid live := ⟨hd, hi⟩
  constructor
  · refine ⟨?_, fun d' hd' k hk => ?_, fun k _ => ?_, .markFrame .kernel ht true,
      ⟨rfl, rfl, rfl, rfl, rfl⟩⟩
    · unfold kernelDir
      exact hphys _ (by omega) (by omega)
    · by_cases he : d' = d
      · rw [phys_setPage, Function.update_of_ne (hdt d' hd'), he, phys_setWord,
          Function.update_self, Function.update_of_ne (by omega), phys_markFrame]
      · rw [hphys d' (hdt d' hd') he]
    · unfold kernelTable
      rw [hphys _ (by omega) (by omega)]
  · intro u g hm
    cases List.mem_singleton.1 hm
    exact ⟨htable, hnone, ht, htnew⟩
  · exact List.nodup_singleton t
  · intro u g hm
    cases List.mem_singleton.1 hm
    exact (hframe _ htable).trans (if_pos rfl)
  · intro u hu hm
    refine (hframe u hu).trans (if_neg ?_)
    rintro rfl
    exact hm t (List.mem_singleton_self _)
  · intro g
    refine (used_markFrame_true .kernel ht).trans (or_congr Iff.rfl ?_)
    simp
  · intro g hg
    refine hphys g ?_ fun he => hg (.inr (.inl (he ▸ hd)))
    rintro rfl
    exact hg (.inr (.inr ⟨d, i, htable, (hframe _ htable).trans (if_pos rfl)⟩))
  · rfl

/-- A frame of the user pool for a page of a process, and one of the kernel pool for its table. -/
theorem takes_newTable (hv : (Use.upage d v).Valid live)
    (hnone : target (s.phys d (v / 1024)) = none) (hf : s.userPool.Has f) (hnew : ¬ s.Used f)
    (ht : s.kernelPool.Has t) (htnew : ¬ s.Used t) (page : ℕ → ℕ) :
    Takes live s (((((s.markFrame .user f true).markFrame .kernel t true).setWord d (v / 1024)
      (entry (t * pgSize))).setPage t (zeroPage page)).setWord t (v % 1024) (entry (f * pgSize)))
      [(.upage d v, f), (.table d (v / 1024), t)] := by
  have hi : v / 1024 < 768 := by have := hv.2; omega
  have htake := h.takes_table hv.1 hi hnone ht htnew page
  have hft : f ≠ t := fun he => absurd (h.layout.kernel_lt_user ht hf) (by omega)
  have hentry : (zeroPage page) (v % 1024) = 0 := if_pos (Nat.mod_lt _ (by omega))
  have htable : TableOf _ live d v t .user :=
    ⟨⟨hv.1, hi⟩, htake.got _ t (List.mem_singleton_self _)⟩
  refine (htake.trans ((htake.paged h).takes_page (f := f) htable ?_ hf fun hc => ?_)).perm
    (List.Perm.swap _ _ [])
  · rw [phys_setPage, Function.update_self, hentry, target_zero]
  · rcases (htake.used f).1 hc with hc | ⟨u, hm⟩
    · exact hnew hc
    · exact hft (Prod.mk.inj (List.mem_singleton.1 hm)).2

end Paged

/-- `page_table_add` where the directory has a table. -/
theorem pageTableAdd_of_table {va pa : ℕ} (hw : Window s) (hva : va < 2 ^ 32)
    (ht : target (s.phys s.dir (va / pgSize / 1024)) = some t) :
    pageTableAdd va pa s =
      if present (s.phys t (va / pgSize % 1024)) then .error (.panic .pageTableAdd)
      else .ok ((), s.setWord t (va / pgSize % 1024) (entry pa)) := by
  rw [pageTableAdd, bind_of_ok (load_pdePtr hw hva), if_pos (present_of_target ht),
    bind_of_ok (load_ptePtr hw hva ht)]
  cases hp : present (s.phys t (va / pgSize % 1024))
  · rw [Bool.not_false, bind_of_ok (ASSERT_of_true s rfl), store_ptePtr hw hva ht]
    rfl
  · rfl

theorem pageTableAdd_newTable {va pa : ℕ} {Q : Unit → MemState → Prop}
    (hw : Window s) (hl : Layout s) (hva : va < 2 ^ 32)
    (ht : target (s.phys s.dir (va / pgSize / 1024)) = none) (hdir : s.Used s.dir)
    (hQ : ∀ t page, s.kernelPool.Has t → ¬ s.Used t →
      Q () ((((s.markFrame .kernel t true).setWord s.dir (va / pgSize / 1024)
        (entry (t * pgSize))).setPage t (zeroPage page)).setWord t (va / pgSize % 1024) (entry pa)))
    (hE : s.kernelPool.Full → E (.panic .bitmapScan)) : wp (pageTableAdd va pa) Q E s := by
  have hne : va / pgSize / 1024 ≠ 1023 := by
    intro he
    rw [he, hw.self] at ht
    cases ht
  rw [pageTableAdd, wp_bind, wp_of_ok (load_pdePtr hw hva),
    if_neg (by rw [present_of_target_none ht]; exact Bool.false_ne_true), wp_bind]
  refine palloc_wp hl (fun t hhas hnew => ?_) hE
  -- the state with the new directory entry
  have hw1 : Window (s.markFrame .kernel t true) :=
    hw.congr (dir_markFrame _) (tlb_markFrame _) (by rw [phys_markFrame])
  rw [wp_bind, wp_of_ok (store_pdePtr hw1 hva), dir_markFrame, wp_bind]
  generalize hs1 : (s.markFrame .kernel t true).setWord s.dir (va / pgSize / 1024)
    (entry (t * pgSize)) = s1
  have hdir1 : s1.dir = s.dir := by rw [← hs1, dir_setWord, dir_markFrame]
  have hdt : s.dir ≠ t := fun he => hnew (he ▸ hdir)
  have hw2 : Window s1 := by
    refine hw.congr hdir1 (by rw [← hs1, tlb_setWord, tlb_markFrame]) ?_
    rw [← hs1, phys_setWord, Function.update_self, Function.update_of_ne (Ne.symm hne),
      phys_markFrame]
  have ht1 : target (s1.phys s1.dir (va / pgSize / 1024)) = some t := by
    rw [hdir1, ← hs1, phys_setWord, Function.update_self, Function.update_self, target_entry]
  rw [wp_of_ok (clear_page (translate_ptePtr hw2 hva ht1))]
  -- and with the new table
  have hw3 : Window (s1.setPage t (zeroPage (s1.phys t))) := by
    refine hw2.congr (dir_setPage _ _ _) (tlb_setPage _ _ _) ?_
    rw [phys_setPage, Function.update_of_ne (hdir1 ▸ hdt)]
  have ht3 : target ((s1.setPage t (zeroPage (s1.phys t))).phys s1.dir (va / pgSize / 1024)) =
      some t := by
    rw [phys_setPage, Function.update_of_ne (hdir1 ▸ hdt)]
    exact ht1
  have hzero : (s1.setPage t (zeroPage (s1.phys t))).phys t (va / pgSize % 1024) = 0 := by
    rw [phys_setPage, Function.update_self, zeroPage, if_pos (Nat.mod_lt _ (by omega))]
  rw [wp_bind, wp_of_ok (load_ptePtr hw3 hva ht3), hzero, show (!present 0) = true from rfl,
    wp_bind, wp_of_ok (ASSERT_of_true _ rfl), wp_of_ok (store_ptePtr hw3 hva ht3)]
  rw [← hs1]
  exact hQ t _ hhas hnew

/-- **A frame for one page.** The page of `va` was not mapped; what it takes is a frame of its pool
and, if the process has no table there, one more of the kernel pool. -/
theorem getAPageWithout_wp {va : ℕ}
    (h : Paged s live dead) (hva : va < 2 ^ 32)
    (hv : (Use.ofPage pf s.dir (va / pgSize)).Valid live)
    (hnone : (Use.ofPage pf s.dir (va / pgSize)).frame s.phys ≠ none → E (.panic .pageTableAdd))
    (hE : (s.pool pf).Full ∨ pf = .user ∧
      (Use.table s.dir (va / pgSize / 1024)).frame s.phys = none ∧ s.kernelPool.Full →
      E (.panic .bitmapScan))
    (hQ : ∀ s' f tables, Takes live s s' ((Use.ofPage pf s.dir (va / pgSize), f) :: tables) →
      (tables = [] ∨ pf = .user ∧ ∃ t, tables = [(.table s.dir (va / pgSize / 1024), t)]) →
      Q va s') :
    wp (getAPageWithoutOpvaddrbitmap pf va) Q E s := by
  rw [getAPageWithoutOpvaddrbitmap, wp_bind]
  refine palloc_wp h.layout (fun f hf hnew => ?_) fun hfull => hE (.inl hfull)
  have hlow := h.layout.low hf
  rw [if_neg (by simp only [pgSize]; omega), wp_bind]
  have h1 := h.markFrame_true _ hf
  cases ht : target (s.phys s.dir (va / pgSize / 1024)) with
  | some t =>
    have htable := h.tableOf hv ht
    rw [wp, pageTableAdd_of_table h1.window hva (by rw [phys_markFrame, dir_markFrame]; exact ht),
      phys_markFrame]
    cases hp : target (s.phys t (va / pgSize % 1024)) with
    | none =>
      rw [if_neg (by rw [present_of_target_none hp]; exact Bool.false_ne_true)]
      exact hQ _ f [] (h.takes_page htable hp hf hnew) (.inl rfl)
    | some g =>
      rw [if_pos (present_of_target hp)]
      exact hnone (by rw [htable.frame_eq, hp]; exact Option.some_ne_none g)
  | none =>
    cases pf with
    | kernel =>
      obtain ⟨hv1, hv2⟩ := Use.valid_kpage.1 hv
      rw [(h.shares _ h.running).1 _ (by omega) (by omega), target_entry] at ht
      cases ht
    | user =>
      obtain ⟨v, hdir⟩ := h.page s.dir (.inl hv.1)
      refine pageTableAdd_newTable h1.window h1.layout hva (by
        rw [phys_markFrame, dir_markFrame]; exact ht)
        (h1.excl.used (.kpage v) _ (by rw [phys_markFrame, dir_markFrame]; exact hdir)) ?_
        fun hfull => hE (.inr ⟨rfl, ht, hfull⟩)
      intro t page hhas htnew
      rw [used_markFrame_true _ hf, not_or] at htnew
      exact hQ _ f _ (h.takes_newTable hv ht hf hnew hhas htnew.1 page) (.inr ⟨rfl, t, rfl⟩)

/-- The table that has the entry of a page of the kernel or of the running process. -/
theorem Paged.table_of_holds (h : Paged s live dead)
    (hu : Holds s.phys live (.ofPage pf s.dir v) f) :
    ∃ t, target (s.phys s.dir (v / 1024)) = some t ∧ target (s.phys t (v % 1024)) = some f := by
  have hwalk := (h.walk_eq _ hu.1).trans hu.2
  cases ht : target (s.phys s.dir (v / 1024)) with
  | none => rw [walk_of_none ht] at hwalk; cases hwalk
  | some t => exact ⟨t, rfl, (walk_of_target ht).symm.trans hwalk⟩

theorem Paged.gives_page (h : Paged s live dead) {tlb : ℕ → Option ℕ}
    (hu : Holds s.phys live (.ofPage pf s.dir v) f)
    (ht : target (s.phys s.dir (v / 1024)) = some t)
    (htlb : ∀ x, x ≠ v → tlb x = none ∨ tlb x = s.tlb x) :
    Gives live s { (s.markFrame pf f false).setWord t (v % 1024) (w - w % 2) with tlb := tlb }
      [(.ofPage pf s.dir v, f)] := by
  have hhas := h.has_of_holds hu
  have htable := h.tableOf hu.1 ht
  have hphys : ((s.markFrame pf f false).setWord t (v % 1024) (w - w % 2)).phys =
      (s.setWord t (v % 1024) (w - w % 2)).phys := by
    rw [phys_setWord, phys_setWord, phys_markFrame]
  have hframe : ∀ u, Use.Valid live u → u.frame (s.setWord t (v % 1024) (w - w % 2)).phys =
      if u = .ofPage pf s.dir v then none else u.frame s.phys := by
    intro u hv
    rw [htable.frame_setWord h hv, target_clearP]
  constructor
  · exact h.kernelKept htable hphys (.markFrame _ hhas false)
      (by cases pf <;> exact ⟨rfl, rfl, rfl, rfl, rfl⟩)
  · intro u g hm
    cases List.mem_singleton.1 hm
    exact hu
  · intro u g hm
    cases List.mem_singleton.1 hm
    rw [hphys, hframe _ hu.1, if_pos rfl]
  · intro u hv hm
    rw [hphys, hframe u hv, if_neg]
    rintro rfl
    exact hm f (List.mem_singleton_self _)
  · intro g
    refine (used_markFrame_false h.layout hhas).trans (and_congr Iff.rfl ?_)
    simp
  · intro g hg
    rw [hphys, phys_setWord, Function.update_of_ne]
    rintro rfl
    exact hg htable.structural
  · intro x
    by_cases hx : x = v
    · exact .inr (.inr ⟨pf, f, by rw [hx]; exact List.mem_singleton_self _⟩)
    · exact (htlb x hx).imp_right .inl

/-- The address of a page that is mapped. -/
theorem addrV2p_of_holds (h : Paged s live dead) (hv : v < 2 ^ 20)
    (hu : Holds s.phys live (.ofPage pf s.dir v) f) :
    addrV2p (v * pgSize) s = .ok (f * pgSize, s) := by
  obtain ⟨t, ht, hpte⟩ := h.table_of_holds hu
  have hva : v * pgSize < 2 ^ 32 := by simp only [pgSize]; omega
  have hpage : v * pgSize / pgSize = v := by simp only [pgSize]; omega
  rw [addrV2p, bind_of_ok (load_ptePtr h.window hva (by rw [hpage]; exact ht)), hpage,
    frameOf_of_target hpte]
  simp [pgSize]

/-- The TLB keeps the page that `page_table_pte_remove` unmaps, and forgets that of the stack. -/
theorem pageTablePteRemove_ok (hw : Window s) {va t : ℕ} (hva : va < 2 ^ 32)
    (ht : target (s.phys s.dir (va / pgSize / 1024)) = some t) :
    ∃ tlb : ℕ → Option ℕ, (∀ x, x ≠ va / pgSize → tlb x = none ∨ tlb x = s.tlb x) ∧
      pageTablePteRemove va s = .ok ((),
        { s.setWord t (va / pgSize % 1024) (s.phys t (va / pgSize % 1024) -
          s.phys t (va / pgSize % 1024) % 2) with tlb := tlb }) := by
  refine ⟨Function.update (Function.update s.tlb (va / pgSize) (s.translate (va / pgSize)))
    (s.cur / pgSize) none, fun x hx => ?_, ?_⟩
  · rw [Function.update_apply, Function.update_of_ne hx]
    split
    · exact .inl rfl
    · exact .inr rfl
  · rw [pageTablePteRemove, bind_of_ok (get_apply _), bind_of_ok (load_ptePtr hw hva ht),
      bind_of_ok (store_ptePtr hw hva ht)]
    rfl

/-- One round of the loops of `mfree_page`. -/
theorem unmapPages_step (h : Paged s live dead) {expected : ℕ → Bool} {n : ℕ}
    (hv : v < 2 ^ 20) (hu : Holds s.phys live (.ofPage pf s.dir v) f)
    (hexp : expected (f * pgSize) = true) :
    ∃ s', Gives live s s' [(.ofPage pf s.dir v, f)] ∧
      unmapPages expected (n + 1) (v * pgSize) s = unmapPages expected n ((v + 1) * pgSize) s' := by
  obtain ⟨t, ht, hpte⟩ := h.table_of_holds hu
  have hva : v * pgSize < 2 ^ 32 := by simp only [pgSize]; omega
  have hpage : v * pgSize / pgSize = v := by simp only [pgSize]; omega
  have hhas := h.has_of_holds hu
  have hw : Window (s.markFrame pf f false) :=
    h.window.congr (dir_markFrame _) (tlb_markFrame _) (by rw [phys_markFrame])
  have ht1 : target ((s.markFrame pf f false).phys (s.markFrame pf f false).dir
      (v * pgSize / pgSize / 1024)) = some t := by
    rw [phys_markFrame, dir_markFrame, hpage]
    exact ht
  obtain ⟨tlb, htlb, hremove⟩ := pageTablePteRemove_ok hw hva ht1
  rw [hpage, tlb_markFrame] at htlb
  rw [hpage, phys_markFrame] at hremove
  refine ⟨_, h.gives_page (w := s.phys t (v % 1024)) hu ht htlb, ?_⟩
  have hcond : decide (f * pgSize % pgSize = 0 ∧ expected (f * pgSize) = true) = true := by
    rw [decide_eq_true_eq]
    exact ⟨Nat.mul_mod_left _ _, hexp⟩
  have hnext : v * pgSize + pgSize = (v + 1) * pgSize := by rw [Nat.add_mul, Nat.one_mul]
  rw [unmapPages, bind_of_ok (addrV2p_of_holds h hv hu), bind_of_ok (ASSERT_of_true s hcond), pfree,
    bind_of_ok (releaseFrame_eq h.layout hhas), bind_of_ok hremove, hnext]

/-! ### Runs of pages -/

theorem bit_bitmapSetRun (b : Bitmap) (i j : ℕ) (value : Bool) (n : ℕ) :
    (bitmapSetRun b i value n).bit j = if i ≤ j ∧ j < i + n then value else b.bit j := by
  induction n generalizing b i with
  | zero => rw [bitmapSetRun, if_neg (by omega)]
  | succ n ih =>
    rw [bitmapSetRun, ih, bit_bitmapSet]
    by_cases hj : j = i
    · rw [if_neg (by omega), if_pos hj, if_pos (by omega)]
    · rw [if_neg hj]
      exact if_congr (by omega) rfl rfl

@[simp] theorem btmpBytesLen_bitmapSetRun (b : Bitmap) (i : ℕ) (value : Bool) (n : ℕ) :
    (bitmapSetRun b i value n).btmpBytesLen = b.btmpBytesLen := by
  induction n generalizing b i with
  | zero => rfl
  | succ n ih => rw [bitmapSetRun, ih, btmpBytesLen_bitmapSet]

namespace VirtualAddr

/-- The first page. -/
def first (v : VirtualAddr) : ℕ := v.vaddrStart / pgSize

/-- The marks of `n` pages from page `p` on. -/
def mark (v : VirtualAddr) (p n : ℕ) (b : Bool) : VirtualAddr :=
  { v with vaddrBitmap := bitmapSetRun v.vaddrBitmap (p - v.first) b n }

/-- The page is marked as taken. -/
def Marked (v : VirtualAddr) (p : ℕ) : Prop := v.vaddrBitmap.bit (p - v.first) = true

/-- The pages from `p` on that a scan for `n` pages may find. -/
def Run (v : VirtualAddr) (p n : ℕ) : Prop :=
  v.first ≤ p ∧ p < v.first + 8 * v.vaddrBitmap.btmpBytesLen ∧
    p + n ≤ v.first + 8 * v.vaddrBitmap.btmpBytesLen + 1

/-- The lowest `n` pages in a row that are not marked. -/
structure FirstRun (v : VirtualAddr) (p n : ℕ) : Prop where
  run : v.Run p n
  clear : ∀ k < n, ¬ v.Marked (p + k)
  lowest : ∀ q, v.first ≤ q → q < p → ∃ k < n, v.Marked (q + k)

/-- `n` pages in a row are not marked. -/
def Room (v : VirtualAddr) (n : ℕ) : Prop := ∃ p, v.Run p n ∧ ∀ k < n, ¬ v.Marked (p + k)

theorem room_one {v : VirtualAddr} : v.Room 1 ↔ ∃ p, v.Run p 1 ∧ ¬ v.Marked p := by
  refine exists_congr fun p => and_congr_right fun _ => ⟨fun h => h 0 (by omega), fun h k hk => ?_⟩
  rwa [show p + k = p by omega]

theorem FirstRun.unique {v : VirtualAddr} {p q n : ℕ} (hp : v.FirstRun p n) (hq : v.FirstRun q n) :
    p = q := by
  rcases Nat.lt_trichotomy p q with hlt | he | hlt
  · obtain ⟨k, hk, hm⟩ := hq.lowest p hp.run.1 hlt
    exact absurd hm (hp.clear k hk)
  · exact he
  · obtain ⟨k, hk, hm⟩ := hp.lowest q hq.run.1 hlt
    exact absurd hm (hq.clear k hk)

@[simp] theorem first_mark (v : VirtualAddr) (p n : ℕ) (b : Bool) :
    (v.mark p n b).first = v.first := rfl

theorem marked_mark {v : VirtualAddr} {p n q : ℕ} {b : Bool} (hp : v.first ≤ p)
    (hq : v.first ≤ q) :
    (v.mark p n b).Marked q ↔ if p ≤ q ∧ q < p + n then b = true else v.Marked q := by
  rw [Marked, first_mark, mark, bit_bitmapSetRun]
  by_cases h : p ≤ q ∧ q < p + n
  · rw [if_pos (by omega), if_pos h]
  · rw [if_neg (by omega), if_neg h]
    rfl

end VirtualAddr

namespace Layout

theorem heapFirst (h : Layout s) : s.kernelVaddr.first = 0xc0100 := by
  rw [VirtualAddr.first, h.heapStart]
  rfl

theorem setVaddr (h : Layout s) (pf : PoolFlags) (p n : ℕ) (b : Bool) :
    Layout (s.setVaddr pf ((s.vaddr pf).mark p n b)) := by
  cases pf
  · refine ⟨h.1, h.2, h.3, h.4, h.5, ?_, h.7⟩
    exact (btmpBytesLen_bitmapSetRun _ _ _ _).trans h.heapLen
  · exact ⟨h.1, h.2, h.3, h.4, h.5, h.6, h.7⟩

end Layout

@[simp] theorem phys_setVaddr (pf : PoolFlags) (x : VirtualAddr) :
    (s.setVaddr pf x).phys = s.phys := by cases pf <;> rfl

@[simp] theorem dir_setVaddr (pf : PoolFlags) (x : VirtualAddr) :
    (s.setVaddr pf x).dir = s.dir := by
  cases pf <;> rfl

@[simp] theorem tlb_setVaddr (pf : PoolFlags) (x : VirtualAddr) :
    (s.setVaddr pf x).tlb = s.tlb := by
  cases pf <;> rfl

@[simp] theorem kernelPool_setVaddr (pf : PoolFlags) (x : VirtualAddr) :
    (s.setVaddr pf x).kernelPool = s.kernelPool := by cases pf <;> rfl

@[simp] theorem userPool_setVaddr (pf : PoolFlags) (x : VirtualAddr) :
    (s.setVaddr pf x).userPool = s.userPool := by cases pf <;> rfl

theorem pool_setVaddr (pf pf' : PoolFlags) (x : VirtualAddr) :
    (s.setVaddr pf x).pool pf' = s.pool pf' := by cases pf <;> cases pf' <;> rfl

@[simp] theorem used_setVaddr (pf : PoolFlags) (x : VirtualAddr) :
    (s.setVaddr pf x).Used f ↔ s.Used f := by
  rw [Used, Used, kernelPool_setVaddr, userPool_setVaddr]

theorem vaddr_setVaddr (pf : PoolFlags) (x : VirtualAddr) : (s.setVaddr pf x).vaddr pf = x := by
  cases pf
  · rfl
  · simp [MemState.setVaddr, MemState.vaddr]

/-- The marks of virtual pages are no part of the tables. -/
theorem Paged.setVaddr (h : Paged s live dead) (pf : PoolFlags) (p n : ℕ) (b : Bool) :
    Paged (s.setVaddr pf ((s.vaddr pf).mark p n b)) live dead where
  layout := h.layout.setVaddr pf p n b
  shares := by rw [phys_setVaddr]; exact h.shares
  page := by rw [phys_setVaddr]; exact h.page
  excl := by
    rw [phys_setVaddr]
    exact h.excl.sub (fun _ _ hu => hu) fun u g hu => (used_setVaddr _ _).2 (h.excl.used u g hu)
  side := by
    intro u g hu
    rw [phys_setVaddr] at hu
    rw [pool_setVaddr]
    exact h.side u g hu
  lowMem := by rw [phys_setVaddr]; exact h.lowMem
  running := by rw [dir_setVaddr]; exact h.running
  tlb := by rw [tlb_setVaddr]; exact h.tlb

/-- **`vaddr_get`** marks the lowest run of pages that were not marked. -/
theorem vaddrGet_wp {n : ℕ}
    (hstart : (s.vaddr pf).vaddrStart = (s.vaddr pf).first * pgSize) (hn : 0 < n)
    (hQ : ∀ p, (s.vaddr pf).FirstRun p n → (pf = .user → p < 0xbffff) →
      Q (p * pgSize) (s.setVaddr pf ((s.vaddr pf).mark p n true)))
    (hnull : n ≠ 1 → ¬ (s.vaddr pf).Room n → (s.vaddr pf).Room 1 → Q 0 s)
    (hscan : ¬ (s.vaddr pf).Room 1 → E (.panic .bitmapScan))
    (hhigh : ∀ p, (s.vaddr pf).FirstRun p n → pf = .user → 0xbffff ≤ p → E (.panic .vaddrGet)) :
    wp (vaddrGet pf n) Q E s := by
  simp only [vaddrGet, wp_bind, wp_get, wp_lift]
  refine ⟨fun r hr => ?_, fun e he => ?_⟩
  · by_cases h0 : r = -1
    · rw [if_pos h0]
      refine hnull (fun h1 => ?_) ?_ ?_
      · subst h1
        obtain ⟨i, rfl, -⟩ := bitmapScan_one hr
        omega
      swap
      · obtain ⟨i, hi, hclear⟩ := exists_clear_of_bitmapScan hr
        exact VirtualAddr.room_one.2 ⟨_, ⟨Nat.le_add_right _ i, by omega, by omega⟩, fun hm => by
          rw [VirtualAddr.Marked, Nat.add_sub_cancel_left, hclear] at hm
          cases hm⟩
      rintro ⟨p, hrun, hfree⟩
      obtain ⟨j, hle, h2, hj⟩ := bitmapScan_complete hn (h0 ▸ hr) (i := p - (s.vaddr pf).first)
        (by have := hrun.1; have := hrun.2.2; omega)
      have hp := hrun.1
      refine hfree (j - (p - (s.vaddr pf).first)) (by omega) ?_
      rw [VirtualAddr.Marked,
        show p + (j - (p - (s.vaddr pf).first)) - (s.vaddr pf).first = j by omega]
      exact hj
    · rw [if_neg h0]
      have h0' : 0 ≤ r := by
        rcases bitmapScan_ge hr with h | h
        · exact absurd h h0
        · exact h
      obtain ⟨i, rfl, hi, hrun, hclear⟩ := bitmapScan_sound hn hr h0'
      simp only [wp_bind, wp_modify, wp_ASSERT, wp_pure, Int.toNat_natCast]
      have haddr : (s.vaddr pf).vaddrStart + i * pgSize = ((s.vaddr pf).first + i) * pgSize := by
        rw [hstart, Nat.add_mul]
      have hmark : (s.vaddr pf).mark ((s.vaddr pf).first + i) n true =
          { s.vaddr pf with vaddrBitmap := bitmapSetRun (s.vaddr pf).vaddrBitmap i true n } := by
        rw [VirtualAddr.mark, Nat.add_sub_cancel_left]
      simp only [haddr, ← hmark]
      have hfirst : (s.vaddr pf).FirstRun ((s.vaddr pf).first + i) n := by
        refine ⟨⟨by omega, by omega, by omega⟩, fun k hk hm => ?_, fun q hle h2 => ?_⟩
        · have := hclear (i + k) (by omega) (by omega)
          rw [VirtualAddr.Marked,
            show (s.vaddr pf).first + i + k - (s.vaddr pf).first = i + k by omega, this] at hm
          cases hm
        · obtain ⟨j, h3, h4, hj⟩ := bitmapScan_missed hn hr (i := q - (s.vaddr pf).first)
            (.inr (by omega))
          refine ⟨j - (q - (s.vaddr pf).first), by omega, ?_⟩
          rw [VirtualAddr.Marked,
            show q + (j - (q - (s.vaddr pf).first)) - (s.vaddr pf).first = j by omega]
          exact hj
      refine ⟨fun hc => hQ _ hfirst fun hpf => ?_, fun hc => ?_⟩
      · simp only [decide_eq_true_eq] at hc
        have := hc.resolve_left (by rw [hpf]; simp)
        simp only [pgSize] at this
        omega
      · simp only [decide_eq_false_iff_not, not_or] at hc
        cases pf with
        | kernel => exact absurd rfl hc.1
        | user =>
          refine hhigh _ hfirst rfl ?_
          have := hc.2
          simp only [pgSize] at this
          omega
  · rw [bitmapScan_error he]
    refine hscan fun hroom => ?_
    obtain ⟨p, hp, hclear⟩ := VirtualAddr.room_one.1 hroom
    exact hclear (full_of_bitmapScan_error he (by have := hp.1; have := hp.2.1; omega))

/-- The entries of a list that `malloc_page` adds for `n` pages from page `v` on: one for each page,
and tables of the process. -/
structure Fills (pf : PoolFlags) (d v n : ℕ) (new : List (Use × ℕ)) : Prop where
  page : ∀ k < n, ∃ f, (Use.ofPage pf d (v + k), f) ∈ new
  only : ∀ u f, (u, f) ∈ new →
    (∃ k < n, u = .ofPage pf d (v + k)) ∨ pf = .user ∧ ∃ i, u = .table d i
  length : pf = .kernel → new.length = n

theorem Use.ofPage_inj {pf pf' : PoolFlags} {v v' : ℕ} (h : Use.ofPage pf d v = .ofPage pf' d v') :
    v = v' := by
  obtain rfl : pf = pf' := by rw [← Use.side_ofPage pf d v, h, Use.side_ofPage]
  cases pf
  · exact Use.kpage.inj h
  · exact (Use.upage.inj h).2

/-- The loop of `malloc_page` is a sequence of single allocations. -/
theorem mapPages_succ {n va : ℕ} (hva : va ≠ 0) :
    mapPages pf (n + 1) va = (do
      let r ← getAPageWithoutOpvaddrbitmap pf va
      if r = 0 then pure false else mapPages pf n (va + pgSize)) := by
  funext s
  rw [mapPages, getAPageWithoutOpvaddrbitmap]
  simp only [bind_apply]
  cases palloc pf s with
  | error e => rfl
  | ok r =>
    by_cases h0 : r.1 = 0
    · simp only [if_pos h0, pure_apply, if_true]
    · simp only [if_neg h0, bind_apply]
      cases pageTableAdd va r.1 r.2 with
      | error e => rfl
      | ok r => simp only [pure_apply, if_neg hva]

/-- There is no page for the process where the kernel begins. -/
theorem getAPageWithout_boundary {va : ℕ}
    (h : Paged s live dead) (hva : va / pgSize = 0xc0000)
    (hscan : s.userPool.Full → E (.panic .bitmapScan))
    (hadd : E (.panic .pageTableAdd)) : wp (getAPageWithoutOpvaddrbitmap .user va) Q E s := by
  rw [getAPageWithoutOpvaddrbitmap, wp_bind]
  refine palloc_wp h.layout (fun f hf hnew => ?_) hscan
  have hlow := h.layout.low hf
  have h1 := h.markFrame_true _ hf
  have hva1 : va / pgSize / 1024 = 768 := by omega
  have hva2 : va / pgSize % 1024 = 0 := by omega
  have hlt : va < 2 ^ 32 := by simp only [pgSize] at hva; omega
  have ht : target ((s.markFrame .user f true).phys (s.markFrame .user f true).dir
      (va / pgSize / 1024)) = some (kernelTable 768) := by
    rw [hva1, (h1.shares _ h1.running).1 _ (by omega) (by omega), target_entry]
  rw [if_neg (by simp only [pgSize]; omega), wp_bind, wp,
    pageTableAdd_of_table h1.window hlt ht, hva2, h1.lowMem 0 (by omega), if_pos]
  · exact hadd
  · exact present_of_target (target_entry 0)

/-- The page where the kernel begins is always mapped. -/
theorem Paged.walk_boundary (h : Paged s live dead) : walk s.phys s.dir 0xc0000 = some 0 := by
  have ht : target (s.phys s.dir 768) = some (kernelTable 768) := by
    rw [(h.shares _ h.running).1 _ (by omega) (by omega), target_entry]
  rw [walk_of_target (v := 0xc0000) ht, h.lowMem 0 (by omega), target_entry]

/-! ### The tables that pages need -/

/-- How many tables the running directory lacks for the `n` pages from page `v` on. -/
def missingTables (s : MemState) (v n : ℕ) : ℕ :=
  (((Finset.range n).image fun k => (v + k) / 1024).filter fun i =>
    target (s.phys s.dir i) = none).card

/-- The entries of the running directory that `page_table_add` may look at: those of the process
and those of the kernel. -/
def MayLack (s : MemState) (live : Set ℕ) (i : ℕ) : Prop :=
  s.dir ∈ live ∧ i < 768 ∨ 768 ≤ i ∧ i < 1023

@[simp] theorem missingTables_setVaddr (pf : PoolFlags) (x : VirtualAddr) (v n : ℕ) :
    missingTables (s.setVaddr pf x) v n = missingTables s v n := by
  simp only [missingTables, phys_setVaddr, dir_setVaddr]

/-- Every directory has the tables of the kernel. -/
theorem Paged.target_kernel (h : Paged s live dead) {i : ℕ} (h1 : 768 ≤ i) (h2 : i < 1023) :
    target (s.phys s.dir i) = some (kernelTable i) := by
  rw [(h.shares _ h.running).1 _ h1 h2, target_entry]

theorem Paged.missingTables_kernel (h : Paged s live dead) {v n : ℕ}
    (hv : ∀ k < n, (Use.kpage (v + k)).Valid live) : missingTables s v n = 0 := by
  rw [missingTables, Finset.card_eq_zero, Finset.filter_eq_empty_iff]
  intro i hi
  obtain ⟨k, hk, rfl⟩ := Finset.mem_image.1 hi
  obtain ⟨h1, h2⟩ := Use.valid_kpage.1 (hv k (Finset.mem_range.1 hk))
  rw [h.target_kernel (by omega) (by omega)]
  exact Option.some_ne_none _

theorem missingTables_pos {v n : ℕ} (ht : target (s.phys s.dir (v / 1024)) = none) :
    0 < missingTables s v (n + 1) := by
  refine Finset.card_pos.2 ⟨v / 1024, Finset.mem_filter.2 ⟨Finset.mem_image.2 ⟨0, ?_, rfl⟩, ht⟩⟩
  exact Finset.mem_range.2 (by omega)

theorem missingTables_mono {v m n : ℕ} (hmn : m ≤ n) : missingTables s v m ≤ missingTables s v n :=
  Finset.card_le_card (Finset.filter_subset_filter _
    (Finset.image_subset_image (Finset.range_mono hmn)))

/-- After an allocation a table is missing that was missing, except those that it took. -/
theorem Takes.table_none_iff {s' : MemState} {new : List (Use × ℕ)} {i : ℕ}
    (h : Takes live s s' new) (hs : Paged s live dead) (hi : MayLack s live i) :
    target (s'.phys s'.dir i) = none ↔
      target (s.phys s.dir i) = none ∧ ∀ f, (Use.table s.dir i, f) ∉ new := by
  rcases hi with hi | ⟨h1, h2⟩
  · have hi : (Use.table s.dir i).Valid live := hi
    rw [h.rest.dir]
    refine ⟨fun hnone => ?_, fun ⟨hnone, hnew⟩ => ?_⟩
    · have hnew : ∀ f, (Use.table s.dir i, f) ∉ new := fun f hf => by
        have hgot := h.got _ _ hf
        rw [Use.frame, hnone] at hgot
        cases hgot
      exact ⟨(h.kept _ hi hnew).symm.trans hnone, hnew⟩
    · exact (h.kept _ hi hnew).trans hnone
  · rw [hs.target_kernel h1 h2, (h.paged hs).target_kernel h1 h2]
    simp

/-- The page and the tables that one step of the loop takes. -/
structure TakesPage (live : Set ℕ) (s s' : MemState) (pf : PoolFlags) (v f : ℕ)
    (tables : List (Use × ℕ)) : Prop where
  takes : Takes live s s' ((Use.ofPage pf s.dir v, f) :: tables)
  only : tables = [] ∨ pf = .user ∧ ∃ t, tables = [(.table s.dir (v / 1024), t)]

namespace TakesPage

variable {s' : MemState} {tables : List (Use × ℕ)}

variable (h : TakesPage live s s' pf v f tables)

include h

theorem mem_cons {g : ℕ} (hg : (u, g) ∈ (Use.ofPage pf s.dir v, f) :: tables) :
    u = .ofPage pf s.dir v ∨ pf = .user ∧ ∃ i, u = .table s.dir i := by
  rcases List.mem_cons.1 hg with he | hg
  · exact .inl (Prod.mk.inj he).1
  · rcases h.only with rfl | ⟨hpf, t, rfl⟩
    · simp at hg
    · exact .inr ⟨hpf, _, (Prod.mk.inj (List.mem_singleton.1 hg)).1⟩

/-- The pages of the loop that come later are mapped as before. -/
theorem walk_eq (hs : Paged s live dead) {w : ℕ}
    (hw : (Use.ofPage pf s.dir w).Valid live ∨ pf = .user ∧ w = 0xc0000) (hne : w ≠ v) :
    walk s'.phys s'.dir w = walk s.phys s.dir w := by
  rcases hw with hw | ⟨-, rfl⟩
  · have hw' : (Use.ofPage pf s'.dir w).Valid live := by rw [h.takes.rest.dir]; exact hw
    rw [hs.walk_eq pf hw, (h.takes.paged hs).walk_eq pf hw', h.takes.rest.dir]
    refine h.takes.kept _ hw fun g hg => ?_
    rcases h.mem_cons hg with he | ⟨rfl, i, he⟩
    · exact hne (Use.ofPage_inj he)
    · cases he
  · rw [hs.walk_boundary, (h.takes.paged hs).walk_boundary]

/-- One frame of the pool is gone, and one of the kernel's for a table. -/
theorem free (hs : Paged s live dead) :
    (s.pool pf).free = (s'.pool pf).free + 1 ∧
      (pf = .user → s.kernelPool.free = s'.kernelPool.free + tables.length) := by
  have hpool := h.takes.free hs pf
  have hkernel := h.takes.free hs .kernel
  rcases h.only with rfl | ⟨rfl, t, rfl⟩
  · rw [List.filter_cons_of_pos (by simp [Use.side_ofPage])] at hpool
    refine ⟨hpool, ?_⟩
    rintro rfl
    rwa [List.filter_cons_of_neg (by simp [Use.side_ofPage])] at hkernel
  · rw [List.filter_cons_of_pos (by simp [Use.side_ofPage]),
      List.filter_cons_of_neg (by simp [Use.side])] at hpool
    rw [List.filter_cons_of_neg (by simp [Use.side_ofPage]),
      List.filter_cons_of_pos (by simp [Use.side])] at hkernel
    exact ⟨hpool, fun _ => hkernel⟩

/-- A table is taken exactly if it was missing. -/
theorem length_tables (hs : Paged s live dead) (hv : (Use.ofPage pf s.dir v).Valid live) :
    tables.length = if target (s.phys s.dir (v / 1024)) = none then 1 else 0 := by
  rcases h.only with rfl | ⟨rfl, t, rfl⟩
  · rw [if_neg, List.length_nil]
    intro hnone
    cases pf with
    | kernel =>
      obtain ⟨h1, h2⟩ := Use.valid_kpage.1 hv
      rw [hs.target_kernel (by omega) (by omega)] at hnone
      cases hnone
    | user =>
      have hi : MayLack s live (v / 1024) := .inl ⟨hv.1, by have := hv.2; omega⟩
      have hnone' := (h.takes.table_none_iff hs hi).2 ⟨hnone, by simp [Use.ofPage]⟩
      have hgot := h.takes.got _ f List.mem_cons_self
      rw [Use.ofPage, Use.frame, ← h.takes.rest.dir, walk_of_none hnone'] at hgot
      cases hgot
  · rw [if_pos, List.length_singleton]
    exact (h.takes.fresh _ t (List.mem_cons_of_mem _ List.mem_cons_self)).2.1

/-- What the pages after the first still lack. -/
theorem missingTables_succ (hs : Paged s live dead) {n : ℕ}
    (hv : (Use.ofPage pf s.dir v).Valid live)
    (hlack : ∀ k < n + 1, MayLack s live ((v + k) / 1024)) :
    missingTables s v (n + 1) = missingTables s' (v + 1) n + tables.length := by
  have himage : (Finset.range (n + 1)).image (fun k => (v + k) / 1024) =
      insert (v / 1024) ((Finset.range n).image fun k => (v + 1 + k) / 1024) := by
    ext i
    simp only [Finset.mem_image, Finset.mem_insert, Finset.mem_range]
    refine ⟨fun ⟨k, hk, he⟩ => ?_, fun hi => ?_⟩
    · cases k with
      | zero => exact .inl he.symm
      | succ k => exact .inr ⟨k, by omega, by rw [← he, Nat.add_assoc, Nat.add_comm 1 k]⟩
    · rcases hi with rfl | ⟨k, hk, he⟩
      · exact ⟨0, by omega, rfl⟩
      · exact ⟨k + 1, by omega, by rw [← he, Nat.add_assoc, Nat.add_comm 1 k]⟩
  -- the first page's table is there now, and the others are where they were
  have hnow : ∀ i ∈ (Finset.range n).image (fun k => (v + 1 + k) / 1024),
      (target (s'.phys s'.dir i) = none ↔
        target (s.phys s.dir i) = none ∧
          (target (s.phys s.dir (v / 1024)) = none → i ≠ v / 1024)) := by
    intro i hi
    obtain ⟨k, hk, rfl⟩ := Finset.mem_image.1 hi
    have hk := Finset.mem_range.1 hk
    have hlack' := hlack (k + 1) (by omega)
    rw [show v + (k + 1) = v + 1 + k by omega] at hlack'
    rw [h.takes.table_none_iff hs hlack']
    refine and_congr_right fun hnone => ?_
    rcases h.only with rfl | ⟨rfl, t, rfl⟩
    · have := h.length_tables hs hv
      rw [List.length_nil] at this
      have hsome : target (s.phys s.dir (v / 1024)) ≠ none := fun hc => by
        rw [if_pos hc] at this
        cases this
      refine ⟨fun _ hc => absurd hc hsome, fun _ g hg => ?_⟩
      cases pf <;> cases (Prod.mk.inj (List.mem_singleton.1 hg)).1
    · have hnone0 := (h.takes.fresh _ t (List.mem_cons_of_mem _ List.mem_cons_self)).2.1
      refine ⟨fun hnew _ he => hnew t ?_, fun hne g hg => ?_⟩
      · rw [he]
        exact List.mem_cons_of_mem _ List.mem_cons_self
      · rcases List.mem_cons.1 hg with he | hg
        · cases (Prod.mk.inj he).1
        · exact hne hnone0 (Use.table.inj (Prod.mk.inj (List.mem_singleton.1 hg)).1).2
  rw [missingTables, missingTables, himage, h.length_tables hs hv, Finset.filter_insert,
    Finset.filter_congr hnow]
  by_cases ht : target (s.phys s.dir (v / 1024)) = none
  · rw [if_pos ht, if_pos ht]
    rw [← Finset.card_insert_of_notMem (a := v / 1024)]
    · congr 1
      ext i
      simp only [Finset.mem_insert, Finset.mem_filter, ht, true_implies]
      by_cases hi : i = v / 1024
      · simp [hi]
      · simp [hi]
    · simp [ht]
  · rw [if_neg ht, if_neg ht, Nat.add_zero]
    simp [ht]

theorem fills {n : ℕ} {new : List (Use × ℕ)} (hfills : Fills pf s.dir (v + 1) n new) :
    Fills pf s.dir v (n + 1) ((Use.ofPage pf s.dir v, f) :: tables ++ new) := by
  refine ⟨fun k hk => ?_, fun u g hg => ?_, fun hpf => ?_⟩
  · cases k with
    | zero => exact ⟨f, by simp⟩
    | succ k =>
      obtain ⟨g, hg⟩ := hfills.page k (by omega)
      rw [Nat.add_assoc, Nat.add_comm 1 k] at hg
      exact ⟨g, List.mem_append_right _ hg⟩
  · rcases List.mem_append.1 hg with hg | hg
    · exact (h.mem_cons hg).imp_left fun he => ⟨0, by omega, he⟩
    · refine (hfills.only u g hg).imp_left fun ⟨k, hk, he⟩ => ⟨k + 1, by omega, ?_⟩
      rw [he, Nat.add_assoc, Nat.add_comm 1 k]
  · obtain rfl := h.only.resolve_right fun hc => by rw [hpf] at hc; cases hc.1
    rw [List.length_append, hfills.length hpf, List.length_singleton, Nat.add_comm]

end TakesPage

theorem Use.lt_of_valid (hv : (Use.ofPage pf d v).Valid live) :
    v * pgSize < 2 ^ 32 := by
  have hlt : v < 0xffc00 := by
    cases pf with
    | kernel => exact (Use.valid_kpage.1 hv).2
    | user => have := hv.2; omega
  simp only [pgSize]
  omega

theorem mayLack_of_valid
    (hv : (Use.ofPage pf s.dir v).Valid live ∨ pf = .user ∧ v = 0xc0000) :
    MayLack s live (v / 1024) := by
  rcases hv with hv | ⟨-, rfl⟩
  · cases pf with
    | kernel =>
      obtain ⟨h1, h2⟩ := Use.valid_kpage.1 hv
      exact .inr ⟨by omega, by omega⟩
    | user => exact .inl ⟨hv.1, by have := hv.2; omega⟩
  · exact .inr ⟨by omega, by omega⟩

/-- A frame for one page, with every outcome. -/
theorem getAPageWithout_exact {va : ℕ}
    (h : Paged s live dead) (hva : va < 2 ^ 32)
    (hv : (Use.ofPage pf s.dir (va / pgSize)).Valid live)
    (hadd : walk s.phys s.dir (va / pgSize) ≠ none → E (.panic .pageTableAdd))
    (hscan : (s.pool pf).free < 1 ∨ s.kernelPool.free < missingTables s (va / pgSize) 1 →
      E (.panic .bitmapScan))
    (hQ : walk s.phys s.dir (va / pgSize) = none → 1 ≤ (s.pool pf).free →
      missingTables s (va / pgSize) 1 ≤ s.kernelPool.free → ∀ s' f tables,
      TakesPage live s s' pf (va / pgSize) f tables → Q va s') :
    wp (getAPageWithoutOpvaddrbitmap pf va) Q E s := by
  refine getAPageWithout_wp h hva hv (fun hne => hadd ?_) (fun hfull => hscan ?_)
    fun s' f tables htake htables => ?_
  · rwa [h.walk_eq pf hv]
  · rcases hfull with hfull | ⟨-, ht, hfull⟩
    · exact .inl (by rw [hfull.free_eq]; omega)
    · exact .inr (by rw [hfull.free_eq]; exact missingTables_pos ht)
  · have hstep : TakesPage live s s' pf (va / pgSize) f tables := ⟨htake, htables⟩
    obtain ⟨hpool, hkernel⟩ := hstep.free h
    refine hQ ?_ (by omega) ?_ s' f tables hstep
    · exact (h.walk_eq pf hv).trans (htake.fresh _ f List.mem_cons_self).2.1
    · have hone : ∀ k < 1, va / pgSize + k = va / pgSize := by omega
      cases pf with
      | kernel =>
        rw [h.missingTables_kernel fun k hk => by rw [hone k hk]; exact hv]
        exact Nat.zero_le _
      | user =>
        have hlack : ∀ k < 0 + 1, MayLack s live ((va / pgSize + k) / 1024) := fun k hk => by
          rw [hone k hk]
          exact mayLack_of_valid (.inl hv)
        rw [hstep.missingTables_succ h hv hlack, hkernel rfl]
        simp [missingTables]

/-- **The loop of `malloc_page`.** It stops at a page that is mapped already, and where the frames
of the pool or the kernel's frames for tables run out; otherwise each page gets a frame. -/
theorem mapPages_wp {n v : ℕ} {Q : Bool → MemState → Prop}
    (h : Paged s live dead) (hv : 0 < v)
    (hvalid : ∀ k < n, (Use.ofPage pf s.dir (v + k)).Valid live ∨ pf = .user ∧ v + k = 0xc0000)
    (hadd : (∃ k < n, walk s.phys s.dir (v + k) ≠ none) → E (.panic .pageTableAdd))
    (hscan : (s.pool pf).free < n ∨ s.kernelPool.free < missingTables s v n →
      E (.panic .bitmapScan))
    (hQ : (∀ k < n, walk s.phys s.dir (v + k) = none) → n ≤ (s.pool pf).free →
      missingTables s v n ≤ s.kernelPool.free →
      ∀ s' new, Takes live s s' new → Fills pf s.dir v n new → Q true s') :
    wp (mapPages pf n (v * pgSize)) Q E s := by
  induction n generalizing s v with
  | zero =>
    refine hQ (by simp) (by omega) ?_ s [] (.refl live s) ⟨by simp, by simp, fun _ => rfl⟩
    simp [missingTables]
  | succ n ih =>
    have hpage : v * pgSize / pgSize = v := by simp only [pgSize]; omega
    have hva : v * pgSize ≠ 0 := by simp only [pgSize]; omega
    rw [mapPages_succ hva, wp_bind]
    rcases hvalid 0 (by omega) with hv0 | ⟨rfl, hv0⟩
    · refine getAPageWithout_exact h (Use.lt_of_valid hv0) (by rw [hpage]; exact hv0)
        (fun hne => hadd ⟨0, by omega, by rw [hpage] at hne; exact hne⟩)
        (fun hlack => hscan (hlack.imp (fun hlt => by omega) fun hlt => ?_))
        fun hwalk _ _ s1 f tables hstep => ?_
      · rw [hpage] at hlt
        exact hlt.trans_le (missingTables_mono (by omega))
      rw [hpage] at hstep hwalk
      rw [if_neg hva, show v * pgSize + pgSize = (v + 1) * pgSize by rw [Nat.add_mul, Nat.one_mul]]
      have htake := hstep.takes
      have hdir : s1.dir = s.dir := htake.rest.dir
      have hcomm : ∀ k, v + 1 + k = v + (k + 1) := by omega
      have hkeep : ∀ k < n, walk s1.phys s1.dir (v + 1 + k) = walk s.phys s.dir (v + (k + 1)) := by
        intro k hk
        rw [hstep.walk_eq h (by rw [hcomm]; exact hvalid (k + 1) (by omega)) (by omega), hcomm]
      obtain ⟨hpool, hkernel⟩ := hstep.free h
      have hmissing : missingTables s v (n + 1) = missingTables s1 (v + 1) n + tables.length :=
        hstep.missingTables_succ h hv0 fun k hk => mayLack_of_valid (hvalid k hk)
      refine ih (htake.paged h) (by omega) (fun k hk => ?_) (fun hne => hadd ?_)
        (fun hlow => hscan ?_) fun hnone hfree htab s' new htake' hfills => ?_
      · rw [hdir, hcomm]
        exact hvalid (k + 1) (by omega)
      · obtain ⟨k, hk, hne⟩ := hne
        exact ⟨k + 1, by omega, by rw [← hkeep k hk]; exact hne⟩
      · refine hlow.imp (fun hlow => by omega) fun hlack => ?_
        clear hlow
        cases pf with
        | kernel =>
          have hv1 : ∀ k < n, (Use.kpage (v + 1 + k)).Valid live := fun k hk => by
            rw [hcomm]
            exact (hvalid (k + 1) (by omega)).resolve_right (by simp)
          rw [(htake.paged h).missingTables_kernel hv1] at hlack
          exact absurd hlack (Nat.not_lt_zero _)
        | user =>
          have := hkernel rfl
          omega
      · rw [hdir] at hfills
        refine hQ (fun k hk => ?_) (by omega) ?_ s' _ (htake.trans htake')
          (hstep.fills hfills)
        · cases k with
          | zero => exact hwalk
          | succ k => rw [← hkeep k (by omega)]; exact hnone k (by omega)
        · cases pf with
          | kernel =>
            rw [h.missingTables_kernel fun k hk => (hvalid k hk).resolve_right (by simp)]
            exact Nat.zero_le _
          | user =>
            have := hkernel rfl
            omega
    · have hv0 : v = 0xc0000 := hv0
      refine getAPageWithout_boundary h (by rw [hpage]; exact hv0) (fun hfull => hscan (.inl ?_))
        (hadd ⟨0, by omega, ?_⟩)
      · rw [show s.pool .user = s.userPool from rfl, hfull.free_eq]
        omega
      · rw [Nat.add_zero, hv0, h.walk_boundary]
        exact Option.some_ne_none 0

/-- The running process has a directory, and its virtual pages are those of user programs. -/
structure UserSpace (s : MemState) (live : Set ℕ) : Prop where
  dir : s.dir ∈ live
  vaddrStart : (s.vaddr .user).vaddrStart = 0x8048000
  btmpBytesLen : (s.vaddr .user).vaddrBitmap.btmpBytesLen = 94199

/-- The kernel pages that are mapped are marked. -/
def KernelMarked (s : MemState) : Prop :=
  ∀ v, (Use.kpage v).Valid ∅ → (Use.kpage v).frame s.phys ≠ none → s.kernelVaddr.Marked v

/-- Where `vaddr_get` takes pages from. -/
def Space (s : MemState) (live : Set ℕ) : PoolFlags → Prop
  | .kernel => True
  | .user => UserSpace s live

theorem Space.vaddrStart (h : Space s live pf) (hl : Layout s) :
    (s.vaddr pf).vaddrStart = (s.vaddr pf).first * pgSize := by
  cases pf with
  | kernel => rw [vaddr, hl.heapFirst, hl.heapStart]; rfl
  | user => rw [VirtualAddr.first, UserSpace.vaddrStart h]; rfl

/-- The pages of a run belong to the kernel heap or to the process, except the one after its
last. -/
theorem Space.valid {p n k : ℕ} (h : Space s live pf) (hl : Layout s)
    (hr : (s.vaddr pf).Run p n) (hk : k < n) :
    (Use.ofPage pf s.dir (p + k)).Valid live ∨ pf = .user ∧ p + k = 0xc0000 := by
  obtain ⟨h1, h2, h3⟩ := hr
  cases pf with
  | kernel =>
    rw [vaddr, hl.heapFirst, hl.heapLen] at h3
    rw [vaddr, hl.heapFirst] at h1
    have := hl.heapEnd
    exact .inl (Use.valid_kpage.2 ⟨by omega, by omega⟩)
  | user =>
    have hfirst : (s.vaddr .user).first = 0x8048 := by
      rw [VirtualAddr.first, UserSpace.vaddrStart h]; rfl
    rw [hfirst, UserSpace.btmpBytesLen h] at h3
    by_cases hb : p + k = 0xc0000
    · exact .inr ⟨rfl, hb⟩
    · exact .inl ⟨UserSpace.dir h, by omega⟩

theorem Space.pos {p n : ℕ} (h : Space s live pf) (hl : Layout s)
    (hr : (s.vaddr pf).Run p n) : 0 < p := by
  have h1 := hr.1
  cases pf with
  | kernel =>
    rw [vaddr, hl.heapFirst] at h1
    omega
  | user =>
    rw [VirtualAddr.first, UserSpace.vaddrStart h] at h1
    simp only [pgSize] at h1
    omega

/-- **`malloc_page`, with every outcome.** It returns 0 and changes nothing if no run is long
enough. Otherwise it takes the lowest run, and stops on the way if the run is the stack page of the
process, has a page that is mapped, or frames are missing. -/
theorem mallocPage_exact {n : ℕ}
    (h : Paged s live dead) (hsp : Space s live pf)
    (hcnt : ¬ (0 < n ∧ n < 3840) → E (.panic .mallocPage))
    (hfull : ¬ (s.vaddr pf).Room 1 → E (.panic .bitmapScan))
    (hhigh : ∀ p, (s.vaddr pf).FirstRun p n → pf = .user → 0xbffff ≤ p → E (.panic .vaddrGet))
    (hadd : ∀ p, (s.vaddr pf).FirstRun p n → (∃ k < n, walk s.phys s.dir (p + k) ≠ none) →
      E (.panic .pageTableAdd))
    (hscan : ∀ p, (s.vaddr pf).FirstRun p n →
      (s.pool pf).free < n ∨ s.kernelPool.free < missingTables s p n → E (.panic .bitmapScan))
    (hnull : n ≠ 1 → ¬ (s.vaddr pf).Room n → (s.vaddr pf).Room 1 → Q 0 s)
    (hQ : ∀ p s' new, (s.vaddr pf).FirstRun p n → (pf = .user → p < 0xbffff) →
      (∀ k < n, walk s.phys s.dir (p + k) = none) → n ≤ (s.pool pf).free →
      missingTables s p n ≤ s.kernelPool.free →
      Takes live (s.setVaddr pf ((s.vaddr pf).mark p n true)) s' new → Fills pf s.dir p n new →
      Q (p * pgSize) s') : wp (mallocPage pf n) Q E s := by
  rw [mallocPage, wp_bind, wp_ASSERT]
  refine ⟨fun hn => ?_, fun hn => hcnt (of_decide_eq_false hn)⟩
  have hn := of_decide_eq_true hn
  rw [wp_bind]
  refine vaddrGet_wp (hsp.vaddrStart h.layout) hn.1 (fun p hfirst hlow => ?_) ?_ hfull hhigh
  · have hp := hsp.pos h.layout hfirst.run
    rw [if_neg (by simp only [pgSize]; omega), wp_bind]
    refine mapPages_wp (h.setVaddr pf p n true) hp (fun k hk => ?_) (fun hne => hadd p hfirst ?_)
      (fun hlack => hscan p hfirst ?_) fun hnone hfree htab s' new htake hfills => ?_
    · rw [dir_setVaddr]
      exact hsp.valid h.layout hfirst.run hk
    · rwa [phys_setVaddr, dir_setVaddr] at hne
    · rwa [pool_setVaddr, kernelPool_setVaddr, missingTables_setVaddr] at hlack
    · rw [if_pos rfl]
      rw [dir_setVaddr] at hfills hnone
      rw [phys_setVaddr] at hnone
      rw [pool_setVaddr] at hfree
      rw [kernelPool_setVaddr, missingTables_setVaddr] at htab
      exact hQ p s' new hfirst hlow hnone hfree htab htake hfills
  · intro hn hroom hone
    rw [if_pos rfl]
    exact hnull hn hroom hone

/-- **`malloc_page`** returns 0 and changes nothing, or marks the lowest run of pages that were not
marked and gives each of them a frame that was free. -/
theorem mallocPage_wp {n : ℕ}
    (h : Paged s live dead) (hsp : Space s live pf)
    (hcnt : ¬ (0 < n ∧ n < 3840) → E (.panic .mallocPage))
    (hhigh : pf = .user → E (.panic .vaddrGet))
    (hadd : pf = .user ∨ ¬ KernelMarked s → E (.panic .pageTableAdd))
    (hscan : pf = .user ∨ s.kernelVaddr.Room n ∧ s.kernelPool.free < n ∨ ¬ s.kernelVaddr.Room 1 →
      E (.panic .bitmapScan))
    (hnull : n ≠ 1 → ¬ (s.vaddr pf).Room n → (s.vaddr pf).Room 1 → Q 0 s)
    (hQ : ∀ p s' new, (s.vaddr pf).FirstRun p n →
      Takes live (s.setVaddr pf ((s.vaddr pf).mark p n true)) s' new → Fills pf s.dir p n new →
      Q (p * pgSize) s') : wp (mallocPage pf n) Q E s := by
  refine mallocPage_exact h hsp hcnt (fun hfull => hscan ?_) (fun _ _ hpf _ => hhigh hpf)
    (fun p hfirst ⟨k, hk, hne⟩ => hadd ?_) (fun p hfirst hlack => hscan ?_)
    hnull fun p s' new hfirst _ _ _ _ htake hfills => hQ p s' new hfirst htake hfills
  · cases pf with
    | kernel => exact .inr (.inr hfull)
    | user => exact .inl rfl
  · cases pf with
    | kernel =>
      have hv := (hsp.valid h.layout hfirst.run hk).resolve_right (by simp)
      rw [h.walk_eq _ hv] at hne
      exact .inr fun hm => hfirst.clear k hk (hm _ hv hne)
    | user => exact .inl rfl
  · cases pf with
    | kernel =>
      have hv := fun k hk => (hsp.valid h.layout hfirst.run (k := k) hk).resolve_right (by simp)
      rw [h.missingTables_kernel hv] at hlack
      exact .inr (.inl ⟨⟨p, hfirst.run, hfirst.clear⟩, hlack.resolve_right (by omega)⟩)
    | user => exact .inl rfl

/-! ### The page of an address -/

/-- The arguments that `get_a_page` accepts: a process takes pages for itself, and a thread takes
kernel pages other than the first. -/
def MayGet (s : MemState) (va : ℕ) : PoolFlags → Prop
  | .kernel => (s.task s.cur).pgdir = 0 ∧ va / pgSize ≠ s.kernelVaddr.first
  | .user => (s.task s.cur).pgdir ≠ 0

/-- The virtual pages lie in the address space. -/
theorem Space.first_add_le (h : Space s live pf) (hl : Layout s) :
    (s.vaddr pf).first + 8 * (s.vaddr pf).vaddrBitmap.btmpBytesLen ≤ 2 ^ 20 := by
  cases pf with
  | kernel =>
    rw [vaddr, hl.heapFirst, hl.heapLen]
    have := hl.heapEnd
    omega
  | user =>
    rw [VirtualAddr.first, UserSpace.vaddrStart h, UserSpace.btmpBytesLen h]
    simp only [pgSize]
    omega

/-- The index of an address in a bitmap of pages, where the difference may wrap. -/
theorem bitIdx_eq {va p : ℕ} (hva : va < 2 ^ 32) (hp : p ≤ 2 ^ 20) :
    sub32 va (p * pgSize) / pgSize =
      if p ≤ va / pgSize then va / pgSize - p else va / pgSize + 2 ^ 20 - p := by
  by_cases hle : p ≤ va / pgSize
  · have : p * pgSize ≤ va := by simp only [pgSize] at hle ⊢; omega
    rw [if_pos hle, sub32, if_pos this]
    simp only [pgSize] at hle ⊢
    omega
  · have : ¬ p * pgSize ≤ va := by simp only [pgSize] at hle ⊢; omega
    rw [if_neg hle, sub32, if_neg this]
    simp only [pgSize] at hle ⊢
    omega

/-- **`get_a_page`, with every outcome.** -/
theorem getAPage_exact {va : ℕ}
    (h : Paged s live dead) (hsp : Space s live pf) (hva : va < 2 ^ 32)
    (harg : ¬ MayGet s va pf → E (.panic .getAPage))
    (hrange : ¬ (s.vaddr pf).Run (va / pgSize) 1 → E .wild)
    (hadd : walk s.phys s.dir (va / pgSize) ≠ none → E (.panic .pageTableAdd))
    (hscan : (s.pool pf).free < 1 ∨ s.kernelPool.free < missingTables s (va / pgSize) 1 →
      E (.panic .bitmapScan))
    (hQ : MayGet s va pf → (s.vaddr pf).Run (va / pgSize) 1 →
      walk s.phys s.dir (va / pgSize) = none → 1 ≤ (s.pool pf).free →
      missingTables s (va / pgSize) 1 ≤ s.kernelPool.free → ∀ s' f tables,
      TakesPage live (s.setVaddr pf ((s.vaddr pf).mark (va / pgSize) 1 true)) s' pf (va / pgSize) f
        tables → Q va s') :
    wp (getAPage pf va) Q E s := by
  have hfirst := hsp.first_add_le h.layout
  have hidx := bitIdx_eq hva (p := (s.vaddr pf).first) (by omega)
  rw [← hsp.vaddrStart h.layout] at hidx
  have hrun : (s.vaddr pf).Run (va / pgSize) 1 ↔ sub32 va (s.vaddr pf).vaddrStart / pgSize <
      8 * (s.vaddr pf).vaddrBitmap.btmpBytesLen := by
    rw [hidx, VirtualAddr.Run]
    generalize va / pgSize = w
    split <;> omega
  have hget : MayGet s va pf → (s.vaddr pf).Run (va / pgSize) 1 →
      wp (getAPageWithoutOpvaddrbitmap pf va) Q E (s.setVaddr pf { s.vaddr pf with
        vaddrBitmap := bitmapSet (s.vaddr pf).vaddrBitmap
          (sub32 va (s.vaddr pf).vaddrStart / pgSize) true }) := by
    intro hmay hr
    have hmark : (s.vaddr pf).mark (va / pgSize) 1 true = { s.vaddr pf with
        vaddrBitmap := bitmapSet (s.vaddr pf).vaddrBitmap
          (sub32 va (s.vaddr pf).vaddrStart / pgSize) true } := by
      rw [hidx, if_pos hr.1]
      rfl
    have hv : (Use.ofPage pf s.dir (va / pgSize)).Valid live := by
      refine (hsp.valid h.layout hr (k := 0) (by omega)).resolve_right ?_
      rintro ⟨rfl, he⟩
      have hlt := hr.2.1
      rw [VirtualAddr.first, UserSpace.vaddrStart hsp, UserSpace.btmpBytesLen hsp] at hlt
      simp only [pgSize] at hlt he
      omega
    rw [← hmark]
    refine getAPageWithout_exact (h.setVaddr pf _ 1 true) hva (by rw [dir_setVaddr]; exact hv)
      (fun hne => hadd ?_) (fun hlack => hscan ?_) fun hnone hfree htab => hQ hmay hr ?_ ?_ ?_
    · rwa [phys_setVaddr, dir_setVaddr] at hne
    · rwa [pool_setVaddr, kernelPool_setVaddr, missingTables_setVaddr] at hlack
    · rwa [phys_setVaddr, dir_setVaddr] at hnone
    · rwa [pool_setVaddr] at hfree
    · rwa [kernelPool_setVaddr, missingTables_setVaddr] at htab
  cases pf with
  | kernel =>
    simp only [getAPage, wp_bind, wp_get, wp_ASSERT, wp_check, wp_modify, decide_eq_true_eq,
      decide_eq_false_iff_not]
    have hmay : MayGet s va .kernel ↔ (s.task s.cur).pgdir = 0 ∧
        0 < sub32 va (s.vaddr .kernel).vaddrStart / pgSize := by
      have hheap : (s.vaddr .kernel).first = 0xc0100 := h.layout.heapFirst
      rw [hidx]
      refine and_congr_right fun _ => ?_
      change va / pgSize ≠ (s.vaddr .kernel).first ↔ _
      generalize va / pgSize = w
      split <;> omega
    exact ⟨fun ha => ⟨fun hb => hget (hmay.2 ha) (hrun.2 hb), fun hb => hrange (mt hrun.1 hb)⟩,
      fun ha => harg (mt hmay.1 ha)⟩
  | user =>
    simp only [getAPage, wp_bind, wp_get, wp_ASSERT, wp_check, wp_modify, decide_eq_true_eq,
      decide_eq_false_iff_not]
    exact ⟨fun ha => ⟨fun hb => hget ha (hrun.2 hb), fun hb => hrange (mt hrun.1 hb)⟩,
      fun ha => harg ha⟩

/-! ### Filling pages with zeros -/

/-- The frame of a new page is no table and no directory. -/
theorem Takes.data_of_page {s' : MemState} {new : List (Use × ℕ)} (h : Takes live s s' new)
    (hs : Paged s live dead) (hm : (u, f) ∈ new) (hu : ∀ d i, u ≠ .table d i) :
    Data s'.phys live dead f := by
  obtain ⟨hv, -, hhas, hnew⟩ := h.fresh u f hm
  have hdir : ∀ d, d ∈ live ∨ d ∈ dead → f ≠ d := by
    rintro d hd rfl
    obtain ⟨v, hv⟩ := hs.page f hd
    exact hnew (hs.excl.used _ _ hv)
  refine ⟨?_, fun hd => hdir f (.inr hd) rfl⟩
  rintro (hc | hc | ⟨d, i, hc⟩)
  · exact absurd (hs.layout.low hhas) (by omega)
  · exact hdir f (.inl hc) rfl
  · exact hu d i ((h.paged hs).excl.inj _ _ _ ⟨hv, h.got u f hm⟩ hc)

/-- `memset` over whole pages, none of which is part of the tables. -/
theorem clearPages_ok {n : ℕ} {fs : Set ℕ} (h : Paged s live dead)
    (hpages : ∀ k < n, ∃ f ∈ fs, Holds s.phys live (.ofPage pf s.dir (v + k)) f)
    (htlb : ∀ k < n, Agrees s (v + k)) (hfs : ∀ f ∈ fs, Data s.phys live dead f) :
    ∃ s', clearPages (v * pgSize) n s = .ok ((), s') ∧ Writes s s' fs ∧
      (∀ k < n, ∀ f, Holds s.phys live (.ofPage pf s.dir (v + k)) f →
        ∀ i < 1024, s'.phys f i = 0) ∧
      ∀ f, (∀ i < 1024, s.phys f i = 0) → ∀ i < 1024, s'.phys f i = 0 := by
  induction n generalizing s v with
  | zero => exact ⟨s, rfl, .refl s fs, fun k hk => absurd hk (by omega), fun _ hf => hf⟩
  | succ n ih =>
    obtain ⟨f, hf, hu⟩ := hpages 0 (by omega)
    rw [Nat.add_zero] at hu
    have hwrite : Writes s (s.setPage f (zeroPage (s.phys f))) fs :=
      (Writes.setPage s f _).mono (by simpa using hf)
    have hzero : ∀ g, (g = f ∨ ∀ i < 1024, s.phys g i = 0) →
        ∀ i < 1024, (s.setPage f (zeroPage (s.phys f))).phys g i = 0 := by
      intro g hg i hi
      rw [phys_setPage]
      by_cases he : g = f
      · rw [he, Function.update_self, zeroPage, if_pos hi]
      · rw [Function.update_of_ne he]
        exact hg.resolve_left he i hi
    have hdata : ∀ g ∈ fs, Data (s.setPage f (zeroPage (s.phys f))).phys live dead g := fun g hg =>
      ⟨fun hc => (hfs g hg).1 ((hwrite.structural hfs).1 hc), (hfs g hg).2⟩
    obtain ⟨s', hrun, hw', hz1, hz2⟩ := ih (v := v + 1) (hwrite.paged h hfs)
      (fun k hk => by
        obtain ⟨g, hg, hu⟩ := hpages (k + 1) (by omega)
        rw [Nat.add_assoc, Nat.add_comm 1 k, dir_setPage]
        exact ⟨g, hg, (hwrite.holds hfs).2 hu⟩)
      (fun k hk => by
        obtain ⟨g, hg, hu⟩ := hpages (k + 1) (by omega)
        rw [Nat.add_assoc, Nat.add_comm 1 k]
        exact hwrite.agrees h hfs hu (htlb (k + 1) (by omega))) hdata
    refine ⟨s', ?_, hwrite.trans hw', fun k hk g hg => ?_, fun g hg => ?_⟩
    · have ht : s.translate v = some f := (htlb 0 (by omega)).translate h hu
      rw [clearPages, bind_of_ok (clear_page ht),
        show v * pgSize + pgSize = (v + 1) * pgSize by rw [Nat.add_mul, Nat.one_mul]]
      exact hrun
    · cases k with
      | zero =>
        have he := hg.2.symm.trans hu.2
        cases he
        exact hz2 f (hzero f (.inl rfl))
      | succ k =>
        refine hz1 k (by omega) g ?_
        rw [Nat.add_assoc, Nat.add_comm 1 k, dir_setPage]
        exact (hwrite.holds hfs).2 hg
    · exact hz2 g (hzero g (.inr hg))

/-- The frames of the places in a list. -/
def framesOf (new : List (Use × ℕ)) : Set ℕ := {f | ∃ u, (u, f) ∈ new}

/-- **`get_kernel_pages`**: pages of zeros. -/
theorem getKernelPages_wp {n : ℕ}
    (h : Paged s live dead) (htlb : Flushed s)
    (hcnt : ¬ (0 < n ∧ n < 3840) → E (.panic .mallocPage))
    (hadd : ¬ KernelMarked s → E (.panic .pageTableAdd))
    (hscan : s.kernelVaddr.Room n ∧ s.kernelPool.free < n ∨ ¬ s.kernelVaddr.Room 1 →
      E (.panic .bitmapScan))
    (hnull : n ≠ 1 → ¬ s.kernelVaddr.Room n → s.kernelVaddr.Room 1 → Q 0 s)
    (hQ : ∀ p s1 s' new, s.kernelVaddr.FirstRun p n →
      Takes live (s.setVaddr .kernel (s.kernelVaddr.mark p n true)) s1 new →
      Fills .kernel s.dir p n new → Writes s1 s' (framesOf new) →
      (∀ f ∈ framesOf new, Data s1.phys live dead f) →
      (∀ f ∈ framesOf new, ∀ i < 1024, s'.phys f i = 0) → Q (p * pgSize) s') :
    wp (getKernelPages n) Q E s := by
  rw [getKernelPages, wp_bind]
  refine mallocPage_wp h (show Space s live .kernel from trivial) hcnt (by simp)
    (by simpa using hadd)
    (by simpa using hscan) ?_ fun p s1 new hfirst htake hfills => ?_
  · exact hnull
  · have hs1 := h.setVaddr .kernel p n true
    have hp : p * pgSize ≠ 0 := by
      have h1 : s.kernelVaddr.first ≤ p := hfirst.run.1
      rw [h.layout.heapFirst] at h1
      simp only [pgSize]
      omega
    have hpage : ∀ u f, (u, f) ∈ new → ∃ k < n, u = .ofPage .kernel s.dir (p + k) :=
      fun u f hm => (hfills.only u f hm).resolve_right (by simp)
    have hdata : ∀ f ∈ framesOf new, Data s1.phys live dead f := by
      rintro f ⟨u, hm⟩
      obtain ⟨k, -, rfl⟩ := hpage u f hm
      exact htake.data_of_page hs1 hm fun d i he => by cases he
    have hdir : s1.dir = s.dir := htake.rest.dir.trans (dir_setVaddr _ _)
    have hpages : ∀ k < n, ∃ f ∈ framesOf new,
        Holds s1.phys live (.ofPage .kernel s1.dir (p + k)) f := by
      intro k hk
      obtain ⟨f, hm⟩ := hfills.page k hk
      exact ⟨f, ⟨_, hm⟩, htake.valid hm, htake.got _ f hm⟩
    have htlb1 : Flushed s1 := htlb.congr (htake.tlb.trans (tlb_setVaddr _ _))
    obtain ⟨s', hclear, hwrite, hzero, -⟩ := clearPages_ok (htake.paged hs1) hpages
      (fun k _ => htlb1.agrees _) hdata
    rw [if_pos hp, wp_bind, wp_of_ok hclear]
    refine hQ p s1 s' new hfirst htake hfills hwrite hdata ?_
    rintro f ⟨u, hm⟩
    obtain ⟨k, hk, rfl⟩ := hpage u f hm
    refine hzero k hk f ⟨htake.valid hm, htake.got _ f hm⟩

/-! ### Releasing pages -/

/-- The places of `n` pages from page `v` on, with the frames there. -/
def Empties (live : Set ℕ) (s : MemState) (pf : PoolFlags) (v n : ℕ) (old : List (Use × ℕ)) :
    Prop :=
  ∀ u f, (u, f) ∈ old ↔ (∃ k < n, u = .ofPage pf s.dir (v + k)) ∧ Holds s.phys live u f

/-- **The loops of `mfree_page`.** -/
theorem unmapPages_ok {expected : ℕ → Bool} {n : ℕ} (h : Paged s live dead)
    (hv : v + n ≤ 2 ^ 20)
    (hpages : ∀ k < n, ∃ f, Holds s.phys live (.ofPage pf s.dir (v + k)) f ∧ f ∉ live ∧ f ∉ dead)
    (hexp : ∀ f, (s.pool pf).Has f → expected (f * pgSize) = true) :
    ∃ s' old, unmapPages expected n (v * pgSize) s = .ok ((), s') ∧ Gives live s s' old ∧
      Paged s' live dead ∧ Empties live s pf v n old := by
  induction n generalizing s v with
  | zero =>
    refine ⟨s, [], rfl, .refl live s, h, fun u f => ⟨by simp, ?_⟩⟩
    rintro ⟨⟨k, hk, -⟩, -⟩
    omega
  | succ n ih =>
    obtain ⟨f, hu, hdir⟩ := hpages 0 (by omega)
    rw [Nat.add_zero] at hu
    obtain ⟨s1, hgive, hstep⟩ := unmapPages_step (n := n) h (by omega) hu
      (hexp f (h.has_of_holds hu))
    have h1 : Paged s1 live dead := hgive.paged h fun u d hm => by
      cases List.mem_singleton.1 hm
      exact hdir
    have hd : s1.dir = s.dir := hgive.rest.dir
    have hkeep : ∀ k < n, ∀ g, Holds s.phys live (.ofPage pf s.dir (v + (k + 1))) g →
        Holds s1.phys live (.ofPage pf s.dir (v + (k + 1))) g := by
      intro k hk g hg
      refine hgive.kept_of_holds hg fun hm => ?_
      have := Use.ofPage_inj (Prod.mk.inj (List.mem_singleton.1 hm)).1
      omega
    obtain ⟨s', old, hrun, hgive', h', hold⟩ := ih (v := v + 1) h1 (by omega) (fun k hk => by
      obtain ⟨g, hg, hdir⟩ := hpages (k + 1) (by omega)
      rw [hd, Nat.add_assoc, Nat.add_comm 1 k]
      exact ⟨g, hkeep k hk g hg, hdir⟩) fun g hg => hexp g ((hgive.pools.has pf).1 hg)
    refine ⟨s', _, hstep.trans hrun, hgive.trans hgive', h', fun u g => ?_⟩
    rw [List.mem_append, List.mem_singleton, hold, hd]
    constructor
    · rintro (he | ⟨⟨k, hk, rfl⟩, hg⟩)
      · cases he
        exact ⟨⟨0, by omega, rfl⟩, hu⟩
      · refine ⟨⟨k + 1, by omega, ?_⟩, hgive.holds hg⟩
        rw [Nat.add_assoc, Nat.add_comm 1 k]
    · rintro ⟨⟨k, hk, rfl⟩, hg⟩
      cases k with
      | zero =>
        have he := hg.2.symm.trans hu.2
        cases he
        exact .inl rfl
      | succ k =>
        refine .inr ⟨⟨k, by omega, ?_⟩, hkeep k (by omega) g hg⟩
        rw [Nat.add_assoc, Nat.add_comm 1 k]

/-- **`mfree_page`** empties the places of the pages and takes their marks away. -/
theorem mfreePage_ok {n : ℕ} (h : Paged s live dead) (hsp : Space s live pf)
    (hn : 1 ≤ n) (hfirst : (s.vaddr pf).first ≤ v)
    (hlast : v + n ≤ (s.vaddr pf).first + 8 * (s.vaddr pf).vaddrBitmap.btmpBytesLen + 1)
    (hpages : ∀ k < n, ∃ f, Holds s.phys live (.ofPage pf s.dir (v + k)) f ∧ f ∉ live ∧ f ∉ dead) :
    ∃ s' old, mfreePage pf (v * pgSize) n s =
        .ok ((), s'.setVaddr pf ((s'.vaddr pf).mark v n false)) ∧
      Gives live s s' old ∧ Paged s' live dead ∧ Empties live s pf v n old := by
  obtain ⟨f, hu, -⟩ := hpages 0 (by omega)
  rw [Nat.add_zero] at hu
  have hhas := h.has_of_holds hu
  have hv : v + n ≤ 2 ^ 20 := by
    cases pf with
    | kernel =>
      have h1 := h.layout.heapFirst
      have h2 := h.layout.heapLen
      have h3 := h.layout.heapEnd
      simp only [vaddr, h1, h2] at hlast
      omega
    | user =>
      have h1 : (s.vaddr .user).first = 0x8048 := by
        rw [VirtualAddr.first, UserSpace.vaddrStart hsp]; rfl
      rw [h1, UserSpace.btmpBytesLen hsp] at hlast
      omega
  -- the frame decides which loop runs
  have hside : s.userPool.phyAddrStart ≤ f * pgSize ↔ pf = .user := by
    have h1 := h.layout.kernelStart
    have h2 := h.layout.below
    have h3 := h.layout.aligned
    obtain ⟨h4, h5⟩ := hhas
    cases pf <;> simp only [pool, Pool.first, pgSize, reduceCtorEq, iff_false, iff_true] at * <;>
      omega
  have hexp : ∀ g, (s.pool pf).Has g → (if pf = .user then
      fun pa => decide (s.userPool.phyAddrStart ≤ pa) else fun pa =>
        decide (s.kernelPool.phyAddrStart ≤ pa ∧ pa < s.userPool.phyAddrStart))
        (g * pgSize) = true := by
    intro g hg
    have h1 := h.layout.kernelStart
    have h2 := h.layout.below
    have h3 := h.layout.aligned
    obtain ⟨h4, h5⟩ := hg
    cases pf <;> simp only [pool, Pool.first, pgSize, reduceCtorEq, if_false, if_true,
      decide_eq_true_eq] at * <;> omega
  obtain ⟨s', old, hrun, hgive, h', hold⟩ := unmapPages_ok h hv hpages hexp
  refine ⟨s', old, ?_, hgive, h', hold⟩
  have hlow := h.layout.low hhas
  have hremove : vaddrRemove pf (v * pgSize) n s' =
      .ok ((), s'.setVaddr pf ((s'.vaddr pf).mark v n false)) := by
    have hvaddr : s'.vaddr pf = s.vaddr pf := hgive.rest.vaddr pf
    have hidx : sub32 (v * pgSize) (s'.vaddr pf).vaddrStart / pgSize =
        v - (s'.vaddr pf).first := by
      rw [hvaddr, hsp.vaddrStart h.layout, sub32_of_le (Nat.mul_le_mul_right _ hfirst)]
      simp only [pgSize]
      omega
    have hcheck : decide (v - (s'.vaddr pf).first + n ≤
        8 * (s'.vaddr pf).vaddrBitmap.btmpBytesLen + 1) = true := by
      rw [decide_eq_true_eq, hvaddr]
      omega
    rw [vaddrRemove, bind_of_ok (get_apply s')]
    simp only [hidx]
    rw [bind_of_ok (check_of_true _ s' hcheck)]
    rfl
  have hassert1 : decide (1 ≤ n ∧ v * pgSize % pgSize = 0) = true :=
    decide_eq_true ⟨hn, Nat.mul_mod_left _ _⟩
  have hassert2 : decide (f * pgSize % pgSize = 0 ∧ 0x102000 ≤ f * pgSize) = true := by
    refine decide_eq_true ⟨Nat.mul_mod_left _ _, ?_⟩
    simp only [pgSize]
    omega
  rw [mfreePage, bind_of_ok (ASSERT_of_true s hassert1),
    bind_of_ok (addrV2p_of_holds h (by omega) hu), bind_of_ok (ASSERT_of_true s hassert2),
    bind_of_ok (get_apply s)]
  by_cases hpf : pf = .user
  · rw [if_pos hpf] at hrun
    rw [if_pos (hside.2 hpf), bind_of_ok hrun]
    exact hremove
  · rw [if_neg hpf] at hrun
    rw [if_neg fun hc => hpf (hside.1 hc), bind_of_ok hrun]
    exact hremove

end

end X86Os.Mem
