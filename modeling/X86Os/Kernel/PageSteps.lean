import X86Os.Kernel.PageAlloc

/-!
# Steps of the page allocator

`Takes` and `Gives` describe a routine of the allocator entry by entry, with lists. Who only wants
to know what a call did to the places that others use needs less. `Grows` says that the places that
were filled still are, that the new ones are among those named and got frames that were free, and
that memory that belonged to somebody is as it was, even if the new pages have been written to.
`Shrinks` says the same of a release, and which pages the TLB may have kept. Neither mentions
virtual pages, tasks or `cr3`, so that what is done to those in between does not matter.
-/

namespace X86Os.Mem

open X86Os.Comp MemState

section

variable {s s' s'' : MemState} {live dead : Set ℕ} {pf : PoolFlags} {d f n p v : ℕ} {u : Use}

/-- **What an allocation does to the places.** Those in `new` may have been filled. -/
structure Grows (live dead : Set ℕ) (s s' : MemState) (new : Set Use) : Prop where
  paged : Paged s' live dead
  kept : ∀ u f, Holds s.phys live u f → Holds s'.phys live u f
  fresh : ∀ u f, Holds s'.phys live u f →
    Holds s.phys live u f ∨ u ∈ new ∧ u.frame s.phys = none ∧ ¬ s.Used f
  used : ∀ f, s'.Used f ↔
    s.Used f ∨ ∃ u ∈ new, Holds s'.phys live u f ∧ u.frame s.phys = none
  data : ∀ u f, Holds s.phys live u f → Data s.phys live dead f →
    Data s'.phys live dead f ∧ s'.phys f = s.phys f
  pools : SamePools s s'

/-- **What a release does to the places.** Those in `old` are empty. -/
structure Shrinks (live dead : Set ℕ) (s s' : MemState) (old : Set Use) : Prop where
  paged : Paged s' live dead
  kept : ∀ u f, Holds s.phys live u f → u ∉ old → Holds s'.phys live u f
  holds : ∀ u f, Holds s'.phys live u f → Holds s.phys live u f
  gone : ∀ u ∈ old, u.frame s'.phys = none
  used : ∀ f, s'.Used f ↔ s.Used f ∧ ∀ u ∈ old, ¬ Holds s.phys live u f
  data : ∀ f, Data s.phys live dead f → Data s'.phys live dead f ∧ s'.phys f = s.phys f
  pools : SamePools s s'
  tlb : ∀ v, (∀ pf, Use.ofPage pf s.dir v ∉ old) → s'.tlb v = none ∨ s'.tlb v = s.tlb v

theorem Holds.unique {g : ℕ} (h : Holds s.phys live u f) (h' : Holds s.phys live u g) : f = g :=
  Option.some.inj (h.2.symm.trans h'.2)

namespace Grows

variable {new : Set Use}

/-- What else the states have does not matter. -/
theorem congr {t t' : MemState} (h : Grows live dead s s' new) (hphys : t.phys = s.phys)
    (hused : ∀ f, t.Used f ↔ s.Used f) (hpools : ∀ pf, t.pool pf = s.pool pf)
    (hphys' : t'.phys = s'.phys) (hused' : ∀ f, t'.Used f ↔ s'.Used f)
    (hpools' : ∀ pf, t'.pool pf = s'.pool pf) (ht' : Paged t' live dead) :
    Grows live dead t t' new := by
  refine ⟨ht', ?_, ?_, ?_, ?_, fun pf => ?_⟩
  · rw [hphys, hphys']
    exact h.kept
  · rw [hphys, hphys']
    simp only [hused]
    exact h.fresh
  · rw [hphys, hphys']
    simp only [hused, hused']
    exact h.used
  · rw [hphys, hphys']
    exact h.data
  · rw [hpools, hpools']
    exact h.pools pf

/-- **An allocation in the sense of `Takes`**, after which the new pages may be written to. -/
theorem of_takes {s1 : MemState} {l : List (Use × ℕ)} {fs : Set ℕ} (h : Paged s live dead)
    (htake : Takes live s s1 l) (hw : Writes s1 s' fs)
    (hfs : ∀ f ∈ fs, ∃ u, (u, f) ∈ l ∧ ∀ d i, u ≠ .table d i)
    (hnew : ∀ u f, (u, f) ∈ l → u ∈ new) : Grows live dead s s' new := by
  have h1 := htake.paged h
  have hdata : ∀ f ∈ fs, Data s1.phys live dead f := by
    intro f hf
    obtain ⟨u, hm, hu⟩ := hfs f hf
    exact htake.data_of_page h hm hu
  have hgot : ∀ {u f}, (u, f) ∈ l → Holds s'.phys live u f := fun hm =>
    (hw.holds hdata).2 ⟨htake.valid hm, htake.got _ _ hm⟩
  refine ⟨hw.paged h1 hdata, fun u f hu => (hw.holds hdata).2 (htake.kept_of_holds hu),
    fun u f hu => ?_, fun f => ?_, fun u f hu hf => ?_, htake.pools.trans hw.pools⟩
  · refine (htake.holds_or_new ((hw.holds hdata).1 hu)).imp_right fun hm => ?_
    obtain ⟨-, hnone, -, hused⟩ := htake.fresh u f hm
    exact ⟨hnew u f hm, hnone, hused⟩
  · rw [hw.used, htake.used]
    refine or_congr Iff.rfl ⟨fun ⟨u, hm⟩ => ?_, fun ⟨u, _, hu, hnone⟩ => ?_⟩
    · exact ⟨u, hnew u f hm, hgot hm, (htake.fresh u f hm).2.1⟩
    · rcases htake.holds_or_new ((hw.holds hdata).1 hu) with hold | hm
      · rw [hold.2] at hnone
        cases hnone
      · exact ⟨u, hm⟩
  · have hst : ¬ Structural s1.phys live f := fun hc =>
      hf.1 (htake.structural_of_used (h.excl.used u f hu) hc)
    have hf' : f ∉ fs := by
      intro hc
      obtain ⟨u', hm, -⟩ := hfs f hc
      exact (htake.fresh u' f hm).2.2.2 (h.excl.used u f hu)
    refine ⟨⟨fun hc => hst ((hw.structural hdata).1 hc), hf.2⟩, ?_⟩
    rw [hw.phys f hf', htake.data f hst]

end Grows

/-! ### The calls -/

/-- The places of `n` pages from `p` on. -/
def pageUses (pf : PoolFlags) (d p n : ℕ) : Set Use := {u | ∃ k < n, u = .ofPage pf d (p + k)}

/-- The places of the tables that an allocation may add. -/
def tableUses (pf : PoolFlags) (d : ℕ) : Set Use := {u | pf = .user ∧ ∃ i, u = .table d i}

theorem ofPage_ne_table (pf : PoolFlags) (d v d' i : ℕ) : Use.ofPage pf d v ≠ .table d' i := by
  cases pf <;> exact fun he => by cases he

theorem SameElse.setVaddr (h : SameElse s s') (pf : PoolFlags) (x : VirtualAddr) :
    SameElse (s.setVaddr pf x) (s'.setVaddr pf x) := by
  obtain ⟨h1, h2, h3, h4, h5⟩ := h
  cases pf with
  | kernel => exact ⟨h1, rfl, h3, h4, h5⟩
  | user =>
    refine ⟨h1, h2, ?_, h4, h5⟩
    simp only [MemState.setVaddr, h3, h4]

theorem samePools_setVaddr (s : MemState) (pf : PoolFlags) (x : VirtualAddr) :
    SamePools s (s.setVaddr pf x) := fun pf' => by
  rw [pool_setVaddr]
  exact .refl _

/-- The marks of virtual pages are no places. -/
theorem Grows.of_setVaddr {new : Set Use} {x : VirtualAddr}
    (h : Grows live dead (s.setVaddr pf x) s' new) : Grows live dead s s' new :=
  h.congr (phys_setVaddr _ _).symm (fun _ => (used_setVaddr _ _).symm)
    (fun _ => (pool_setVaddr _ _ _).symm) rfl (fun _ => Iff.rfl) (fun _ => rfl) h.paged

/-- **`n` new kernel pages** from `p` on, filled with zeros. -/
structure KernelPages (live dead : Set ℕ) (s s' : MemState) (p n : ℕ) : Prop where
  grows : Grows live dead s s' (pageUses .kernel s.dir p n)
  first : s.kernelVaddr.FirstRun p n
  page : ∀ k < n, ∃ f, Holds s'.phys live (.kpage (p + k)) f ∧ Data s'.phys live dead f ∧
    ¬ s.Used f ∧ ∀ i < 1024, s'.phys f i = 0
  free : s.kernelPool.free = s'.kernelPool.free + n
  freeUser : s'.userPool.free = s.userPool.free
  rest : SameElse (s.setVaddr .kernel (s.kernelVaddr.mark p n true)) s'
  tlb : s'.tlb = s.tlb

/-- A pool is as free as its bitmap says. -/
theorem free_of_writes {fs : Set ℕ} (hw : Writes s s' fs) (pf : PoolFlags) :
    (s'.pool pf).free = (s.pool pf).free := by
  cases pf
  · rw [pool, pool, hw.kernelPool]
  · rw [pool, pool, hw.userPool]

/-- **`get_kernel_pages`**. -/
theorem getKernelPages_grows {Q : ℕ → MemState → Prop} {E : Fault → Prop} (h : Paged s live dead)
    (htlb : Flushed s) (hcnt : ¬ (0 < n ∧ n < 3840) → E (.panic .mallocPage))
    (hadd : ¬ KernelMarked s → E (.panic .pageTableAdd))
    (hscan : s.kernelVaddr.Room n ∧ s.kernelPool.free < n ∨ ¬ s.kernelVaddr.Room 1 →
      E (.panic .bitmapScan))
    (hnull : n ≠ 1 → ¬ s.kernelVaddr.Room n → s.kernelVaddr.Room 1 → Q 0 s)
    (hQ : ∀ p s', KernelPages live dead s s' p n → Q (p * pgSize) s') :
    wp (getKernelPages n) Q E s := by
  refine getKernelPages_wp h htlb hcnt hadd hscan hnull
    fun p s1 s' new hfirst htake hfills hw hdata hzero => ?_
  have hs := h.setVaddr .kernel p n true
  have hpage : ∀ u f, (u, f) ∈ new → ∃ k < n, u = .ofPage .kernel s.dir (p + k) :=
    fun u f hm => (hfills.only u f hm).resolve_right (by simp)
  have hside : ∀ x ∈ new, x.1.side = .kernel := by
    rintro ⟨u, f⟩ hm
    obtain ⟨k, -, rfl⟩ := hpage u f hm
    rfl
  have hgrows : Grows live dead s s' (pageUses .kernel s.dir p n) := by
    refine (Grows.of_takes hs htake hw ?_ hpage).of_setVaddr
    rintro f ⟨u, hm⟩
    obtain ⟨k, -, rfl⟩ := hpage u f hm
    exact ⟨_, hm, fun d i => ofPage_ne_table .kernel s.dir _ d i⟩
  refine hQ p s' ⟨hgrows, hfirst, fun k hk => ?_, ?_, ?_, htake.rest.trans hw.rest,
    hw.tlb.trans (htake.tlb.trans (tlb_setVaddr _ _))⟩
  · obtain ⟨f, hm⟩ := hfills.page k hk
    have hf := hdata f ⟨_, hm⟩
    refine ⟨f, (hw.holds hdata).2 ⟨htake.valid hm, htake.got _ f hm⟩,
      ⟨fun hc => hf.1 ((hw.structural hdata).1 hc), hf.2⟩, fun hc => ?_, hzero f ⟨_, hm⟩⟩
    exact (htake.fresh _ f hm).2.2.2 ((used_setVaddr _ _).2 hc)
  · have hcount := htake.free hs .kernel
    rw [pool_setVaddr, List.filter_eq_self.2 fun x hx => decide_eq_true (hside x hx),
      hfills.length rfl, ← free_of_writes hw] at hcount
    exact hcount
  · have hcount := htake.free hs .user
    rw [pool_setVaddr, List.filter_eq_nil_iff.2 fun x hx => by rw [hside x hx]; decide,
      ← free_of_writes hw] at hcount
    exact hcount.symm

/-- **`mfree_page`** of pages that are mapped. -/
theorem mfreePage_shrinks (h : Paged s live dead) (hsp : Space s live pf) (hn : 1 ≤ n)
    (hfirst : (s.vaddr pf).first ≤ v)
    (hlast : v + n ≤ (s.vaddr pf).first + 8 * (s.vaddr pf).vaddrBitmap.btmpBytesLen + 1)
    (hpages : ∀ k < n, ∃ f, Holds s.phys live (.ofPage pf s.dir (v + k)) f ∧ f ∉ live ∧ f ∉ dead) :
    ∃ s', mfreePage pf (v * pgSize) n s = .ok ((), s') ∧
      Shrinks live dead s s' (pageUses pf s.dir v n) ∧
      SameElse (s.setVaddr pf ((s.vaddr pf).mark v n false)) s' := by
  obtain ⟨t, old, hfree, hgive, ht, hold⟩ := mfreePage_ok h hsp hn hfirst hlast hpages
  refine ⟨_, hfree, ⟨ht.setVaddr pf v n false, fun u f hu hne => ?_, fun u f hu => ?_, ?_,
    fun f => ?_, fun f hf => ?_, hgive.pools.trans (samePools_setVaddr t pf _), fun q hq => ?_⟩, ?_⟩
  · rw [phys_setVaddr]
    exact hgive.kept_of_holds hu fun hm => hne ((hold u f).1 hm).1
  · rw [phys_setVaddr] at hu
    exact hgive.holds hu
  · rintro u ⟨k, hk, rfl⟩
    rw [phys_setVaddr]
    obtain ⟨f, hu, -⟩ := hpages k hk
    exact hgive.gone _ f ((hold _ f).2 ⟨⟨k, hk, rfl⟩, hu⟩)
  · rw [used_setVaddr, hgive.used]
    refine and_congr_right fun _ => ⟨fun hc u hm hu => ?_, fun hc u hm => ?_⟩
    · exact hc u ((hold u f).2 ⟨hm, hu⟩)
    · obtain ⟨hk, hu⟩ := (hold u f).1 hm
      exact hc u hk hu
  · rw [phys_setVaddr]
    exact ⟨⟨fun hc => hf.1 (hgive.structural hc), hf.2⟩, hgive.data f hf.1⟩
  · rw [tlb_setVaddr]
    refine (hgive.tlb q).imp_right fun hkept => hkept.resolve_right ?_
    rintro ⟨pf', f, hm⟩
    exact hq pf' ((hold _ f).1 hm).1
  · rw [hgive.rest.vaddr pf]
    exact hgive.rest.setVaddr pf _

end

end X86Os.Mem
