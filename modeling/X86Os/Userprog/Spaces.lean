import X86Os.Lib.TransSys
import X86Os.Userprog.AddressSpace

/-!
# Address spaces side by side

The kernel allocates and frees pages for itself and for the process that runs, creates processes,
and gives the processor from one task to another. Each of these works on the page tables through the
directory that is loaded at the time, and knows nothing about the others.

That the spaces stay apart is the invariant `Paged` of the page tables, taken with respect to the
directories that there are. The two steps that are not about pages change just that. A page becomes
a directory once the kernel's entries have been copied into it (`Paged.addDir`), and another
directory is loaded (`Paged.congr`); what a process has mapped is not touched by either.

The state names the pages that are directories. They are not to be freed, and a page of a process is
allocated or freed only while its directory is loaded. `mfree_page` leaves its pages in the TLB, so
after it no page is mapped before the next `schedule`. Everything else is left to the caller.
Processes do not exit here.

## Main results

* `createPageDir_post` — a new directory
* `SpaceInv.next` — one step
* `frames_exclusive` — **no frame is mapped twice**
* `kernel_space_shared` — **the kernel's space is the same everywhere**
-/

namespace X86Os.Mem

open X86Os.Comp MemState

/-! ### The system -/

/-- Memory, and the pages that `create_page_dir` has returned. -/
structure SpaceState where
  mem : MemState
  dirs : List ℕ

/-- The frames of the directories of processes. -/
def SpaceState.dirFrames (s : SpaceState) : Set ℕ :=
  {d | ∃ v ∈ s.dirs, (Use.kpage v).frame s.mem.phys = some d}

/-- The running task is a process, and its own directory is loaded. -/
def InProcess (m : MemState) : Prop :=
  (m.task m.cur).pgdir ≠ 0 ∧ walk m.phys m.dir ((m.task m.cur).pgdir / pgSize) = some m.dir

/-- The calls: `malloc_page`, `get_a_page`, `mfree_page` of the pages from `v` on,
`process_execute`, and `schedule`. -/
inductive SpaceAct
  | malloc (pf : PoolFlags) (n : ℕ)
  | get (pf : PoolFlags) (va : BitVec 32)
  | free (pf : PoolFlags) (v n : ℕ)
  | create
  | run (p : ℕ)

/-- User pages are for the process that runs; what is freed is mapped, and no directory; nothing is
mapped while the TLB has pages that were unmapped. -/
def SpaceAct.Allowed (s : SpaceState) : SpaceAct → Prop
  | malloc pf _ => Flushed s.mem ∧ (pf = .user → InProcess s.mem)
  | get pf _ => Flushed s.mem ∧ (pf = .user → InProcess s.mem)
  | free pf v n => (pf = .user → InProcess s.mem) ∧ 1 ≤ n ∧ (s.mem.vaddr pf).first ≤ v ∧
      v + n ≤ (s.mem.vaddr pf).first + 8 * (s.mem.vaddr pf).vaddrBitmap.btmpBytesLen ∧
      ∀ k < n, walk s.mem.phys s.mem.dir (v + k) ≠ none ∧ v + k ∉ s.dirs
  | create => Flushed s.mem
  | run _ => True

/-- The state it leaves. -/
def SpaceAct.next (s : SpaceState) : SpaceAct → Option SpaceState
  | malloc pf n => (mallocPage pf n).state? s.mem |>.map (⟨·, s.dirs⟩)
  | get pf va => (getAPage pf va.toNat).state? s.mem |>.map (⟨·, s.dirs⟩)
  | free pf v n => (mfreePage pf (v * pgSize) n).state? s.mem |>.map (⟨·, s.dirs⟩)
  | create =>
    match processExecute s.mem with
    | .ok (thread, m) => some ⟨m, (m.task thread).pgdir / pgSize :: s.dirs⟩
    | .error _ => none
  | run p => (runTask p).state? s.mem |>.map (⟨·, s.dirs⟩)

/-- From `mem_init` on. -/
def spaceSys : TransSys SpaceState SpaceAct :=
  .ofNext (fun s => ∃ allMem mainThread, s = ⟨memInit allMem mainThread, []⟩) SpaceAct.next

/-! ### Directories -/

theorem page_div (v : ℕ) : v * pgSize / pgSize = v := Nat.mul_div_cancel v (by decide)

section

variable {s s' : MemState} {live dead : Set ℕ} {d f n p v : ℕ} {u : Use}

/-- Nothing is below an empty directory. -/
theorem holds_insert (hempty : ∀ i < 768, target (s.phys d i) = none) :
    Holds s.phys (insert d live) u f ↔ Holds s.phys live u f := by
  refine and_congr_left fun hf => ?_
  cases u with
  | kpage v => exact Iff.rfl
  | table d' i =>
    refine and_congr_left fun hi => or_iff_right ?_
    rintro rfl
    rw [Use.frame, hempty i hi] at hf
    cases hf
  | upage d' v =>
    refine and_congr_left fun hv => or_iff_right ?_
    rintro rfl
    rw [Use.frame, walk_of_none (hempty _ (by omega))] at hf
    cases hf

/-- **A page becomes a directory.** -/
theorem Paged.addDir (h : Paged s live dead) (hd : Holds s.phys live (.kpage v) d)
    (hs : SharesKernel s.phys d) (hempty : ∀ i < 768, target (s.phys d i) = none) :
    Paged s (insert d live) dead where
  layout := h.layout
  shares d' hd' := by
    rcases hd' with hd' | (rfl | hd') | hd'
    · exact h.shares d' (.inl hd')
    · exact hs
    · exact h.shares d' (.inr (.inl hd'))
    · exact h.shares d' (.inr (.inr hd'))
  page d' hd' := by
    simp only [holds_insert hempty]
    rcases hd' with (rfl | hd') | hd'
    · exact ⟨v, hd⟩
    · exact h.page d' (.inl hd')
    · exact h.page d' (.inr hd')
  excl := h.excl.sub (fun _ _ hu => (holds_insert hempty).1 hu)
    fun u f hu => h.excl.used u f ((holds_insert hempty).1 hu)
  side u f hu := h.side u f ((holds_insert hempty).1 hu)
  lowMem := h.lowMem
  running := h.running.imp_right fun hr => hr.imp_left .inr
  tlb := h.tlb

/-- The tables depend on memory, the pools and the kernel's pages, and on which directory is
loaded. -/
theorem Paged.congr (h : Paged s live dead) (hphys : s'.phys = s.phys)
    (hk : s'.kernelPool = s.kernelPool) (hu : s'.userPool = s.userPool)
    (hv : s'.kernelVaddr = s.kernelVaddr) (hrun : IsDir live dead s'.dir)
    (htlb : ∀ v, 0xffc00 ≤ v → s'.tlb v = none) : Paged s' live dead := by
  obtain ⟨phys, cr3, tlb, kernelPool, userPool, kernelVaddr, task, cur, desc⟩ := s'
  obtain ⟨⟨h1, h2, h3, h4, h5, h6, h7⟩, hshares, hpage, hexcl, hside, hlow, -⟩ := h
  subst hphys hk hu hv
  exact ⟨⟨h1, h2, h3, h4, h5, h6, h7⟩, hshares, hpage, hexcl, hside, hlow, hrun, htlb⟩

/-- **`create_page_dir`** returns a page that is a directory now. -/
theorem createPageDir_post (h : Paged s live dead) (htlb : Flushed s) :
    post createPageDir (fun r s' => ∃ v d, r = v * pgSize ∧ r ≠ 0 ∧ s'.task = s.task ∧
      Paged s' (insert d live) dead ∧ Holds s'.phys (insert d live) (.kpage v) d ∧
      ∀ u f, Holds s.phys live u f → Holds s'.phys (insert d live) u f) s := by
  rw [createPageDir, post, wp_bind]
  refine getKernelPages_grows h htlb (fun _ => trivial) (fun _ => trivial) (fun _ => trivial)
    (fun hne => absurd rfl hne) fun p s1 hp => ?_
  obtain ⟨d, hd, hdata, -, hzero⟩ := hp.page 0 (by omega)
  have h1 := hp.grows.paged
  have hdatas : ∀ f ∈ ({d} : Set ℕ), Data s1.phys live dead f := by
    rintro f rfl
    exact hdata
  obtain ⟨hp1, hp2⟩ := Use.valid_kpage.1 hd.1
  rw [Nat.add_zero] at hd hp1 hp2
  have htlb1 : Flushed s1 := htlb.congr hp.tlb
  have hpage : Holds s1.phys live (.ofPage .kernel s1.dir p) d := hd
  have hto : s1.translate p = some d := (htlb1.agrees p).translate h1 hpage
  have hself : s1.translate 0xfffff = some s1.dir :=
    translate_pdePtr h1.window (show 0 < 2 ^ 32 by decide)
  have hne : p * pgSize ≠ 0 := by simp only [pgSize]; omega
  have hdiv : ∀ k < 4096, (p * pgSize + k) / pgSize = p ∧ (p * pgSize + k) % pgSize = k := by
    simp only [pgSize]
    omega
  rw [if_neg hne, wp_bind]
  -- the upper quarter of the loaded directory, seen through the window
  have hcopy : copyWords (p * pgSize + 0x300 * 4) (0xfffff000 + 0x300 * 4) 1024 s1 =
      .ok ((), s1.setPage d fun i =>
        if 768 ≤ i ∧ i < 1024 then s1.phys s1.dir i else s1.phys d i) := by
    obtain ⟨hdst, hoff⟩ := hdiv (0x300 * 4) (by omega)
    rw [copyWords, hdst, hto, show (0xfffff000 + 0x300 * 4) / pgSize = 0xfffff from rfl, hself]
    refine congrArg (fun g => Except.ok ((), s1.setPage d g)) (funext fun i => ?_)
    rw [hoff]
    refine if_ctx_congr (by omega) (fun hi => ?_) fun _ => rfl
    rw [show i - 0xc00 / 4 + (0xfffff000 + 0x300 * 4) % pgSize / 4 = i by
      simp only [pgSize]; omega]
  rw [wp_of_ok hcopy, wp_bind]
  generalize hs2 : s1.setPage d _ = s2
  have hw2 : Writes s1 s2 {d} := hs2 ▸ Writes.setPage s1 d _
  have hd2 : Holds s2.phys live (.ofPage .kernel s2.dir p) d := (hw2.holds hdatas).2 hd
  have h2 := hw2.paged h1 hdatas
  rw [wp_of_ok (addrV2p_of_holds h2 (by omega) hd2), wp_bind]
  have hstore : store (p * pgSize + 1023 * 4) (entry (d * pgSize)) s2 =
      .ok ((), s2.setWord d 1023 (entry (d * pgSize))) := by
    obtain ⟨hva, hoff⟩ := hdiv (1023 * 4) (by omega)
    rw [store_of_translate (by rw [hva]; exact hw2.translate h1 hdatas hpage (htlb1.agrees p)),
      hoff]
  rw [wp_of_ok hstore, wp_pure]
  have hw : Writes s1 (s2.setWord d 1023 (entry (d * pgSize))) {d} :=
    hw2.trans (Writes.setWord s2 d 1023 _)
  have hentry : ∀ i < 1024, (s2.setWord d 1023 (entry (d * pgSize))).phys d i =
      if i = 1023 then entry (d * pgSize) else if 768 ≤ i then s1.phys s1.dir i else 0 := by
    intro i hi
    rw [phys_setWord, Function.update_self, Function.update_apply, ← hs2, phys_setPage,
      Function.update_self, hzero i hi]
    exact if_congr Iff.rfl rfl (if_congr (by omega) rfl rfl)
  have hempty : ∀ i < 768, target ((s2.setWord d 1023 (entry (d * pgSize))).phys d i) = none := by
    intro i hi
    rw [hentry i (by omega), if_neg (by omega), if_neg (by omega), target_zero]
  have hold := (hw.holds hdatas).2 hd
  refine ⟨p, d, rfl, hne, hw.rest.task.trans hp.rest.task,
    (hw.paged h1 hdatas).addDir hold ⟨fun i hi hi' => ?_, ?_⟩ hempty, (holds_insert hempty).2 hold,
    fun u f hu => (holds_insert hempty).2 ((hw.holds hdatas).2 (hp.grows.kept u f hu))⟩
  · rw [hentry i (by omega), if_neg (by omega), if_pos hi, (h1.shares _ h1.running).1 i hi hi']
  · rw [hentry 1023 (by omega), if_pos rfl]

end

/-! ### The invariant -/

/-- The task is a process with one of the directories, and its pages are those of user programs. -/
structure IsProcess (t : Task) (dirs : List ℕ) : Prop where
  dir : ∃ v ∈ dirs, t.pgdir = v * pgSize
  vaddrStart : t.userprogVaddr.vaddrStart = 0x8048000
  btmpBytesLen : t.userprogVaddr.vaddrBitmap.btmpBytesLen = 94199

/-- **The invariant.** The tables are in order with respect to the frames of the directories. -/
structure SpaceInv (m : MemState) (dirs : List ℕ) (live : Set ℕ) : Prop where
  paged : Paged m live ∅
  frame : ∀ v ∈ dirs, ∃ d ∈ live, Holds m.phys live (.kpage v) d
  page : ∀ d ∈ live, ∃ v ∈ dirs, Holds m.phys live (.kpage v) d
  task : ∀ p, (m.task p).pgdir ≠ 0 → IsProcess (m.task p) dirs

namespace SpaceInv

variable {m m' : MemState} {dirs : List ℕ} {live : Set ℕ} {pf : PoolFlags} {p n : ℕ} {b : Bool}

variable (h : SpaceInv m dirs live)

include h

/-- What is left to show after a step that keeps the directories. -/
theorem step (hpaged : Paged m' live ∅)
    (hkept : ∀ v ∈ dirs, ∀ d, Holds m.phys live (.kpage v) d → Holds m'.phys live (.kpage v) d)
    (htask : ∀ p, (m'.task p).pgdir ≠ 0 → IsProcess (m'.task p) dirs) :
    SpaceInv m' dirs live where
  paged := hpaged
  frame v hv := by
    obtain ⟨d, hd, hold⟩ := h.frame v hv
    exact ⟨d, hd, hkept v hv d hold⟩
  page d hd := by
    obtain ⟨v, hv, hold⟩ := h.page d hd
    exact ⟨v, hv, hkept v hv d hold⟩
  task := htask

/-- A record that is written makes no difference to the others. -/
theorem modifyTask (t : Task) (ht : t.pgdir ≠ 0 → IsProcess t dirs) :
    SpaceInv { m with task := Function.update m.task p t } dirs live := by
  refine h.step (h.paged.congr rfl rfl rfl rfl h.paged.running h.paged.tlb)
    (fun _ _ _ hold => hold) fun q hq => ?_
  by_cases hqp : q = p
  · subst hqp
    simp only [Function.update_self] at hq ⊢
    exact ht hq
  · simp only [Function.update_of_ne hqp] at hq ⊢
    exact h.task q hq

/-- The marks of virtual pages. -/
theorem setVaddr : SpaceInv (m.setVaddr pf ((m.vaddr pf).mark p n b)) dirs live := by
  refine h.step (h.paged.setVaddr pf p n b) (fun v _ d hold => ?_) fun q hq => ?_
  · rwa [phys_setVaddr]
  · cases pf with
    | kernel => exact h.task q hq
    | user =>
      refine (h.modifyTask (p := m.cur) { m.task m.cur with
        userprogVaddr := (m.vaddr .user).mark p n b } fun ht => ?_).task q hq
      obtain ⟨hdir, hstart, hlen⟩ := h.task m.cur ht
      exact ⟨hdir, hstart, (btmpBytesLen_bitmapSetRun _ _ _ _).trans hlen⟩

theorem takes {new : List (Use × ℕ)} (htake : Takes live m m' new) : SpaceInv m' dirs live :=
  h.step (htake.paged h.paged) (fun _ _ _ hold => htake.kept_of_holds hold)
    (htake.rest.task ▸ h.task)

/-- Where pages come from. -/
theorem space (hpf : pf = .user → InProcess m) : Space m live pf := by
  cases pf with
  | kernel => trivial
  | user =>
    obtain ⟨hne, hself⟩ := hpf rfl
    obtain ⟨⟨v, hv, hpgdir⟩, hstart, hlen⟩ := h.task m.cur hne
    obtain ⟨d, hd, hold⟩ := h.frame v hv
    rw [hpgdir, page_div, (h.paged.walk_eq .kernel hold.1).trans hold.2] at hself
    exact ⟨Option.some.inj hself ▸ hd, hstart, hlen⟩

theorem malloc (hpf : pf = .user → InProcess m) :
    post (mallocPage pf n) (fun _ m' => SpaceInv m' dirs live) m :=
  mallocPage_wp h.paged (h.space hpf) (fun _ => trivial) (fun _ => trivial) (fun _ => trivial)
    (fun _ => trivial) (fun _ _ _ => h) fun _ _ _ _ htake _ => h.setVaddr.takes htake

theorem get (hpf : pf = .user → InProcess m) (va : BitVec 32) :
    post (getAPage pf va.toNat) (fun _ m' => SpaceInv m' dirs live) m :=
  getAPage_exact h.paged (h.space hpf) va.isLt (fun _ => trivial) (fun _ => trivial)
    (fun _ => trivial) (fun _ => trivial)
    fun _ _ _ _ _ _ _ _ hpage => h.setVaddr.takes hpage.takes

theorem free {v : ℕ} (hok : (SpaceAct.free pf v n).Allowed ⟨m, dirs⟩) :
    post (mfreePage pf (v * pgSize) n) (fun _ m' => SpaceInv m' dirs live) m := by
  obtain ⟨hpf, hn, hfirst, hlast, hpages⟩ := hok
  dsimp only at hpf hfirst hlast hpages
  have hsp := h.space hpf
  have hvalid : ∀ k < n, (Use.ofPage pf m.dir (v + k)).Valid live := by
    intro k hk
    have hrun : (m.vaddr pf).Run (v + k) 1 := ⟨by omega, by omega, by omega⟩
    refine (hsp.valid h.paged.layout hrun (k := 0) (by omega)).resolve_right ?_
    rintro ⟨rfl, he⟩
    rw [VirtualAddr.first, UserSpace.vaddrStart hsp, UserSpace.btmpBytesLen hsp] at hlast
    simp only [pgSize] at hlast
    omega
  -- a directory is in its own place only, which is not one of those
  have hplace : ∀ w ∈ dirs, ∀ k < n, Use.kpage w ≠ .ofPage pf m.dir (v + k) := by
    intro w hw k hk he
    cases pf with
    | kernel => exact (hpages k hk).2 (Use.kpage.inj he ▸ hw)
    | user => cases he
  obtain ⟨m1, hrun, hshrink, hrest⟩ := mfreePage_shrinks h.paged hsp hn hfirst (by omega)
    fun k hk => by
      obtain ⟨f, hf⟩ := Option.ne_none_iff_exists'.1 (hpages k hk).1
      have hold : Holds m.phys live (.ofPage pf m.dir (v + k)) f :=
        ⟨hvalid k hk, (h.paged.walk_eq pf (hvalid k hk)).symm.trans hf⟩
      refine ⟨f, hold, fun hlive => ?_, fun hc => hc⟩
      obtain ⟨w, hw, hdir⟩ := h.page f hlive
      exact hplace w hw k hk (h.paged.excl.inj _ _ _ hdir hold)
  have hmarks : SpaceInv (m.setVaddr pf ((m.vaddr pf).mark v n false)) dirs live := h.setVaddr
  rw [post, wp_of_ok hrun]
  refine h.step hshrink.paged (fun w hw d hold => hshrink.kept _ _ hold ?_)
    (hrest.task ▸ hmarks.task)
  rintro ⟨k, hk, he⟩
  exact hplace w hw k hk he

theorem kernelPages (htlb : Flushed m) :
    post (getKernelPages n)
      (fun _ m' => SpaceInv m' dirs live ∧ m'.task = m.task ∧ Flushed m') m := by
  refine getKernelPages_grows h.paged htlb (fun _ => trivial) (fun _ => trivial) (fun _ => trivial)
    (fun _ _ _ => ⟨h, rfl, htlb⟩) fun p m' hp => ?_
  have htask : m'.task = m.task := hp.rest.task
  exact ⟨h.step hp.grows.paged (fun _ _ _ hold => hp.grows.kept _ _ hold) (htask ▸ h.task), htask,
    htlb.congr hp.tlb⟩

/-- **`process_execute`**: the new process has the new directory. -/
theorem create (htlb : Flushed m) :
    post processExecute (fun thread m' =>
      ∃ live', SpaceInv m' ((m'.task thread).pgdir / pgSize :: dirs) live') m := by
  simp only [processExecute, createUserVaddrBitmap, post, Mem.modifyTask, wp_bind, wp_check,
    wp_modify]
  refine (h.kernelPages htlb).mono (fun thread m1 hm1 => ⟨fun _ => ?_, fun _ => trivial⟩)
    fun _ h => h
  have h1 := hm1.1.modifyTask (p := thread) ⟨0, ⟨bitmapInit 0, 0⟩, 0⟩ (absurd rfl)
  refine (h1.kernelPages hm1.2.2).mono (fun bits m2 hm2 => ⟨fun _ => ?_, fun _ => trivial⟩)
    fun _ h => h
  have hzero : (m2.task thread).pgdir = 0 := by
    rw [hm2.2.1]
    exact congrArg Task.pgdir (Function.update_self thread _ m1.task)
  have h2 := hm2.1.modifyTask (p := thread) { m2.task thread with
    userprogVaddr := ⟨bitmapInit userBitmapLen, userVaddrStart⟩, bits := bits } (absurd hzero)
  refine (createPageDir_post h2.paged hm2.2.2).mono ?_ fun _ h => h
  rintro _ m3 ⟨v, d, rfl, hne, htask, hpaged, hold, hkept⟩
  have h3 : SpaceInv m3 (v :: dirs) (insert d live) := by
    refine ⟨hpaged, fun w hw => ?_, fun d' hd' => ?_, fun q hq => ?_⟩
    · rcases List.mem_cons.1 hw with rfl | hw
      · exact ⟨d, .inl rfl, hold⟩
      · obtain ⟨d', hd', hw'⟩ := h2.frame w hw
        exact ⟨d', .inr hd', hkept _ _ hw'⟩
    · rcases hd' with rfl | hd'
      · exact ⟨v, List.mem_cons_self, hold⟩
      · obtain ⟨w, hw, hw'⟩ := h2.page d' hd'
        exact ⟨w, List.mem_cons_of_mem v hw, hkept _ _ hw'⟩
    · rw [htask] at hq ⊢
      obtain ⟨⟨w, hw, he⟩, hstart, hlen⟩ := h2.task q hq
      exact ⟨⟨w, List.mem_cons_of_mem v hw, he⟩, hstart, hlen⟩
  have hrecord : (m3.task thread).userprogVaddr = ⟨bitmapInit userBitmapLen, userVaddrStart⟩ := by
    rw [htask]
    exact congrArg Task.userprogVaddr (Function.update_self thread _ m2.task)
  have h4 := h3.modifyTask (p := thread) { m3.task thread with pgdir := v * pgSize } fun _ =>
    ⟨⟨v, List.mem_cons_self, rfl⟩, by rw [hrecord]; rfl, by rw [hrecord]; rfl⟩
  simp only [initDescs, wp_modify, wp_pure, Function.update_self, page_div]
  exact ⟨_, h4.step (h4.paged.congr rfl rfl rfl rfl h4.paged.running h4.paged.tlb)
    (fun _ _ _ hold => hold) h4.task⟩

/-- **`schedule`** loads a directory that there is. -/
theorem run : post (runTask p) (fun _ m' => SpaceInv m' dirs live) m := by
  have hload : ∀ d, IsDir live ∅ d →
      SpaceInv { m with cr3 := d * pgSize, tlb := fun _ => none, cur := p } dirs live := by
    intro d hd
    refine h.step (h.paged.congr rfl rfl rfl rfl ?_ fun _ _ => rfl) (fun _ _ _ hold => hold) h.task
    rwa [MemState.dir, page_div]
  simp only [runTask, pageDirActivate, post, wp_bind, wp_get, wp_modify]
  by_cases hp : (m.task p).pgdir = 0
  · rw [if_neg (by simpa using hp), wp_bind, wp_pure]
    exact hload kernelDir (.inl rfl)
  · obtain ⟨⟨v, hv, hpgdir⟩, -, -⟩ := h.task p hp
    obtain ⟨d, hd, hold⟩ := h.frame v hv
    have hlt := (Use.valid_kpage.1 hold.1).2
    have hpage : Holds m.phys live (.ofPage .kernel m.dir v) d := hold
    have haddr := addrV2p_of_holds h.paged (by omega) hpage
    rw [if_pos hp, hpgdir, wp_bind, wp_of_ok haddr]
    exact hload d (.inr (.inl hd))

end SpaceInv

variable {s : SpaceState} {act : SpaceAct}

/-- **One step.** -/
theorem SpaceInv.next {live : Set ℕ} {s' : SpaceState} (h : SpaceInv s.mem s.dirs live)
    (hok : act.Allowed s) (hstep : act.next s = some s') :
    ∃ live', SpaceInv s'.mem s'.dirs live' := by
  have hkeep : ∀ {α : Type} {x : Kern MemState α},
      post x (fun _ m' => SpaceInv m' s.dirs live) s.mem →
      ((x.state? s.mem).map fun m' => (⟨m', s.dirs⟩ : SpaceState)) = some s' →
      ∃ live', SpaceInv s'.mem s'.dirs live' := by
    intro α x hpost hx
    obtain ⟨m', hm', rfl⟩ := Option.map_eq_some_iff.1 hx
    obtain ⟨a, ha⟩ := ok_of_state? hm'
    exact ⟨live, hpost.ok ha⟩
  cases act with
  | malloc pf n => exact hkeep (h.malloc hok.2) hstep
  | get pf va => exact hkeep (h.get hok.2 va) hstep
  | free pf v n => exact hkeep (h.free hok) hstep
  | create =>
    rw [SpaceAct.next] at hstep
    cases hrun : processExecute s.mem with
    | error e => rw [hrun] at hstep; cases hstep
    | ok r =>
      rw [hrun] at hstep
      cases hstep
      exact (h.create hok).ok hrun
  | run p => exact hkeep h.run hstep

/-- **The invariant holds in every state of a run**, with the frames of the directories. -/
theorem spaceInv_of_reach (h : spaceSys.Reach SpaceAct.Allowed s) :
    SpaceInv s.mem s.dirs s.dirFrames := by
  obtain ⟨live, hinv⟩ : ∃ live, SpaceInv s.mem s.dirs live := by
    refine TransSys.Reach.invariant (I := fun s => ∃ live, SpaceInv s.mem s.dirs live) ?_
      (fun s act s' hs hok hstep => ?_) h
    · rintro _ ⟨allMem, mainThread, rfl⟩
      exact ⟨∅, paged_memInit allMem mainThread, by simp, by simp, fun p hp => absurd rfl hp⟩
    · obtain ⟨live, hinv⟩ := hs
      exact hinv.next hok hstep
  have hlive : s.dirFrames = live := by
    ext d
    constructor
    · rintro ⟨v, hv, hd⟩
      obtain ⟨d', hd', hold⟩ := hinv.frame v hv
      rwa [Option.some.inj (hd.symm.trans hold.2)]
    · intro hd
      obtain ⟨v, hv, hold⟩ := hinv.page d hd
      exact ⟨v, hv, hold.2⟩
  rwa [hlive]

theorem reach_create {m m' : MemState} {dirs : List ℕ} {thread : ℕ}
    (h : spaceSys.Reach SpaceAct.Allowed ⟨m, dirs⟩) (htlb : Flushed m)
    (hrun : processExecute m = .ok (thread, m')) :
    spaceSys.Reach SpaceAct.Allowed ⟨m', (m'.task thread).pgdir / pgSize :: dirs⟩ := by
  refine .step (l := .create) h htlb ?_
  show SpaceAct.next _ _ = _
  rw [SpaceAct.next, hrun]

/-- There is a first process. -/
theorem exists_process : ∃ s d, spaceSys.Reach SpaceAct.Allowed s ∧ d ∈ s.dirFrames := by
  have hsome : (processExecute.value? (memInit 0x2000000 gMainThread)).isSome = true := by
    decide +kernel
  obtain ⟨thread, hthread⟩ := Option.isSome_iff_exists.1 hsome
  have hreach := reach_create (.init ⟨_, _, rfl⟩) (fun _ => rfl) (eq_ok_of_value? hthread)
  obtain ⟨d, hd, -⟩ := (spaceInv_of_reach hreach).frame _ List.mem_cons_self
  exact ⟨_, d, hreach, hd⟩

/-! ### What it says -/

/-- **No frame is mapped twice.** In every state of a run a frame that a page of the kernel, a page
of a process or an entry of a process's directory refers to is referred to from there only, is
marked in its pool, and is of the pool that it should be of. So no page of a process is a page of
another process, or has two addresses. -/
theorem frames_exclusive (h : spaceSys.Reach SpaceAct.Allowed s) :
    (∀ u u' f, Holds s.mem.phys s.dirFrames u f → Holds s.mem.phys s.dirFrames u' f → u = u') ∧
    (∀ u f, Holds s.mem.phys s.dirFrames u f → s.mem.Used f ∧ (s.mem.pool u.side).Has f) ∧
    ∀ d ∈ s.dirFrames, ∀ d' ∈ s.dirFrames, ∀ v < 0xc0000, ∀ v' < 0xc0000, ∀ f,
      walk s.mem.phys d v = some f → walk s.mem.phys d' v' = some f → d = d' ∧ v = v' := by
  have hinv := (spaceInv_of_reach h).paged
  refine ⟨hinv.excl.inj, fun u f hu => ⟨hinv.excl.used u f hu, hinv.side u f hu⟩, ?_⟩
  intro d hd d' hd' v hv v' hv' f hf hf'
  exact Use.upage.inj (hinv.excl.inj (.upage d v) (.upage d' v') f ⟨⟨hd, hv⟩, hf⟩ ⟨⟨hd', hv'⟩, hf'⟩)

theorem frames_exclusive_process : ∃ s : SpaceState,
    spaceSys.Reach SpaceAct.Allowed s ∧ (∃ d, d ∈ s.dirFrames) ∧
    ∀ u u' f, Holds s.mem.phys s.dirFrames u f → Holds s.mem.phys s.dirFrames u' f → u = u' := by
  obtain ⟨s, d, hs, hd⟩ := exists_process
  exact ⟨s, hs, ⟨d, hd⟩, (frames_exclusive hs).1⟩

/-- **The kernel's space is the same everywhere.** In every state of a run each address from
`0xc0000000` up to the window has the same frame, or none, under the directory of each process and
under the kernel's; the entries for it are those that the loader made. -/
theorem kernel_space_shared (h : spaceSys.Reach SpaceAct.Allowed s) {d : ℕ}
    (hd : d ∈ s.dirFrames) :
    (∀ v, 0xc0000 ≤ v → v < 0xffc00 → walk s.mem.phys d v = walk s.mem.phys kernelDir v) ∧
    ∀ i, 768 ≤ i → i < 1023 → s.mem.phys d i = entry (kernelTable i * pgSize) := by
  have hinv := (spaceInv_of_reach h).paged
  have hshares := hinv.shares d (.inr (.inl hd))
  refine ⟨fun v h1 h2 => ?_, hshares.1⟩
  rw [hshares.walk_kernel h1 h2, (hinv.shares kernelDir (.inl rfl)).walk_kernel h1 h2]

theorem kernel_space_shared_process : ∃ (s : SpaceState) (d : ℕ),
    spaceSys.Reach SpaceAct.Allowed s ∧ d ∈ s.dirFrames ∧
    ∀ v, 0xc0000 ≤ v → v < 0xffc00 → walk s.mem.phys d v = walk s.mem.phys kernelDir v := by
  obtain ⟨s, d, hs, hd⟩ := exists_process
  exact ⟨s, d, hs, hd, (kernel_space_shared hs hd).1⟩

end X86Os.Mem
