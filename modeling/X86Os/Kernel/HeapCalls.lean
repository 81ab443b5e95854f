import X86Os.Kernel.HeapInv
import X86Os.Lib.TransSys

/-!
# `sys_malloc` and `sys_free`

The two calls keep the invariant of the heap. `sys_malloc` returns a null pointer and has changed
nothing, or a pointer that joins those that are out. `sys_free` of a pointer that is out returns:
none of its assertions fails, neither for a large arena nor for the last block of a small one, whose
blocks have to be found on the free list one by one.

Between calls every arena has something out (`Inhabited`). That is what makes the heap give
everything back: an arena leaves with its last pointer.
-/

namespace X86Os.Mem

open X86Os.Comp MemState

section

variable {s s' : MemState} {live dead : Set ℕ} {pf : PoolFlags} {A : Set (ℕ × Kind)}
  {out : List (ℕ × ℕ)} {a b d f i j k n p size : ℕ} {l rest : List ℕ}

/-! ### The loops over the blocks of an arena -/

theorem setFree_setFree (s : MemState) (d : ℕ) (l l' : List ℕ) :
    (s.setFree d l).setFree d l' = s.setFree d l' := by
  simp [MemState.setFree, Function.update_idem]

theorem carveArena_ok (hsize : (s.desc d).blockSize = blockSize i)
    (hnew : ∀ k, j ≤ k → k < j + n → block a i k ∉ (s.desc d).freeList) :
    carveArena (a * pgSize) d n j s = .ok ((), s.setFree d
      ((s.desc d).freeList ++ (List.range' j n).map (block a i))) := by
  induction n generalizing s j with
  | zero =>
    rw [List.range'_zero, List.map_nil, List.append_nil, setFree_self]
    rfl
  | succ n ih =>
    have hb : arena2block (a * pgSize) j (s.desc d).blockSize = block a i j := by
      rw [hsize]
      rfl
    have hassert : decide (block a i j ∉ (s.desc d).freeList) = true :=
      decide_eq_true (hnew j (by omega) (by omega))
    have hlist : ((s.setFree d ((s.desc d).freeList ++ [block a i j])).desc d).freeList =
        (s.desc d).freeList ++ [block a i j] := by
      rw [freeList_setFree, if_pos rfl]
    have hrec := ih (s := s.setFree d ((s.desc d).freeList ++ [block a i j])) (j := j + 1)
      (by rw [blockSize_setFree]; exact hsize) (fun k hk hk' => by
        rw [hlist, List.mem_append, List.mem_singleton, not_or]
        refine ⟨hnew k (by omega) (by omega), fun he => ?_⟩
        have := block_inj he
        omega)
    rw [setFree_setFree, hlist, List.append_assoc, List.singleton_append] at hrec
    rw [carveArena, bind_of_ok (get_apply s)]
    simp only [hb]
    rw [bind_of_ok (ASSERT_of_true s hassert), bind_of_ok (modifyList_apply d _ s), hrec,
      List.range'_succ, List.map_cons]

theorem dropBlocks_ok (hsize : (s.desc d).blockSize = blockSize i)
    (hnodup : (s.desc d).freeList.Nodup)
    (hmem : ∀ k, j ≤ k → k < j + n → block a i k ∈ (s.desc d).freeList) :
    dropBlocks (a * pgSize) d n j s = .ok ((), s.setFree d
      ((s.desc d).freeList.filter fun b => b ∉ (List.range' j n).map (block a i))) := by
  induction n generalizing s j with
  | zero =>
    have hall : (s.desc d).freeList.filter (fun b => b ∉ (List.range' j 0).map (block a i)) =
        (s.desc d).freeList := by
      rw [List.filter_eq_self]
      simp
    rw [hall, setFree_self]
    rfl
  | succ n ih =>
    have hb : arena2block (a * pgSize) j (s.desc d).blockSize = block a i j := by
      rw [hsize]
      rfl
    have hassert : decide (block a i j ∈ (s.desc d).freeList) = true :=
      decide_eq_true (hmem j (by omega) (by omega))
    have hlist : ((s.setFree d ((s.desc d).freeList.erase (block a i j))).desc d).freeList =
        (s.desc d).freeList.erase (block a i j) := by
      rw [freeList_setFree, if_pos rfl]
    have hrec := ih (s := s.setFree d ((s.desc d).freeList.erase (block a i j))) (j := j + 1)
      (by rw [blockSize_setFree]; exact hsize) (by rw [hlist]; exact hnodup.erase _)
      (fun k hk hk' => by
        rw [hlist, hnodup.mem_erase_iff]
        refine ⟨fun he => ?_, hmem k (by omega) (by omega)⟩
        have := block_inj he
        omega)
    rw [setFree_setFree, hlist, hnodup.erase_eq_filter, List.filter_filter] at hrec
    rw [dropBlocks, bind_of_ok (get_apply s)]
    simp only [hb]
    rw [bind_of_ok (ASSERT_of_true s hassert), bind_of_ok (modifyList_apply d _ s),
      hnodup.erase_eq_filter, hrec]
    refine congrArg (fun l => Except.ok ((), s.setFree d l)) (List.filter_congr fun b _ => ?_)
    rw [List.range'_succ, List.map_cons, Bool.eq_iff_iff]
    simp only [Bool.and_eq_true, decide_eq_true_eq, bne_iff_ne, List.mem_cons, not_or]
    exact and_comm

/-! ### Taking a block -/

/-- The page of an arena, as the MMU finds it. -/
theorem Heap.translate (h : Heap live dead pf A out s) {x : ℕ × Kind} (hx : x ∈ A)
    (hp : Covers x p) :
    ∃ f, s.translate p = some f ∧ Holds s.phys live (.ofPage pf s.dir p) f ∧
      Data s.phys live dead f := by
  obtain ⟨f, hu, hf⟩ := h.page x hx p hp
  exact ⟨f, (h.tlb x hx p hp).translate h.paged hu, hu, hf⟩

/-- **The end of `sys_malloc`.** -/
theorem takeBlock_ok (h : Heap live dead pf A out s) (hi : i < descCnt)
    (hfree : freeOf s i = b :: rest) (hsize : size ≤ blockSize i) :
    ∃ s', takeBlock (descAt s i) s = .ok (b, s') ∧ Heap live dead pf A ((b, size) :: out) s' ∧
      HeapStep live dead pf A A s s' := by
  obtain ⟨a, k, hx, hk, rfl, -⟩ :=
    (h.blocks.mem_free i hi b).1 (by rw [hfree]; exact List.mem_cons_self)
  obtain ⟨f, htr, hu, hf⟩ := h.translate hx (covers_small.2 rfl)
  obtain ⟨-, hcnt, -⟩ : s.phys f 0 = descAt s i ∧ s.phys f 1 = (slots (freeOf s) a i).card ∧
    s.phys f 2 = 0 := h.header _ hx f hu
  have hslots := Blocks.slots_take hfree hk (h.blocks.nodup i hi)
  have hbs : (s.desc (descAt s i)).blockSize = blockSize i := (h.sizes i hi).1
  -- the block is zeroed from its first word on, which is behind the header
  let page : ℕ → ℕ := fun w => if block a i k % pgSize / 4 ≤ w ∧
    w < (block a i k % pgSize + blockSize i) / 4 then 0 else s.phys f w
  have hpage : ∀ w, w < 3 → page w = s.phys f w := by
    intro w hw
    refine if_neg fun hc => ?_
    have := hc.1
    rw [block_mod hk, arenaSize] at this
    omega
  let s1 := s.setFree (descAt s i) rest
  let s2 := s1.setPage f page
  have hclear : clear (block a i k) (blockSize i) s1 = .ok ((), s2) :=
    clear_of_translate (by rw [block_div hk]; exact htr)
  have hw2 : Writes s1 s2 {f} := Writes.setPage s1 f page
  have htr2 : s2.translate a = some f :=
    hw2.translate (h.paged.setFree (descAt s i) rest) (fun g hg => by rw [hg]; exact hf) hu
      (h.tlb _ hx a (covers_small.2 rfl))
  have hphys2 : s2.phys f = page := by
    change Function.update s.phys f page f = page
    rw [Function.update_self]
  have hload : load (block2arena (block a i k) + 4) s2 = .ok (s.phys f 1, s2) := by
    rw [block2arena_block hk, load_word htr2 (k := 1) (by omega) rfl, hphys2, hpage 1 (by omega)]
  let s3 := s2.setWord f 1 (s.phys f 1 - 1)
  have hstore : store (block2arena (block a i k) + 4) (sub32 (s.phys f 1) 1) s2 = .ok ((), s3) := by
    rw [block2arena_block hk, store_word htr2 (k := 1) (by omega) rfl,
      sub32_of_le (by rw [hcnt]; omega)]
  have hphys3 : ∀ w, s3.phys f w = if w = 1 then s.phys f 1 - 1 else page w := by
    intro w
    change Function.update s2.phys f (Function.update (s2.phys f) 1 (s.phys f 1 - 1)) f w = _
    rw [Function.update_self, hphys2, Function.update_apply]
  have hw3 : Writes s1 s3 {f} := hw2.trans (Writes.setWord s2 f 1 _)
  refine ⟨s3, ?_, h.relist hx hu hw3 (h.blocks.take hi hfree hsize) ?_ ?_ ?_ fun a' ha' =>
    Blocks.slots_take_ne ha' hk hfree⟩
  · have hlist : (s.desc (descAt s i)).freeList = block a i k :: rest := hfree
    rw [takeBlock, bind_of_ok (get_apply s)]
    simp only [hlist, hbs]
    rw [bind_of_ok (modifyList_apply _ _ s), bind_of_ok hclear, bind_of_ok hload,
      bind_of_ok hstore]
    rfl
  · rw [hphys3, if_neg (by omega), hpage 0 (by omega)]
  · rw [hphys3, if_neg (by omega), hpage 2 (by omega)]
  · rw [hphys3, if_pos rfl, hcnt]
    omega

/-! ### `sys_malloc` -/

/-- The TLB does not send the `n` pages that `malloc_page` maps next to frames other than theirs. -/
def NotStale (s : MemState) (n : ℕ) : Prop :=
  ∀ a s1, mallocPage (heapPool s) n s = .ok (a, s1) → a ≠ 0 →
    ∀ k < n, Agrees s1 (a / pgSize + k)

/-- How many pages `sys_malloc` asks `malloc_page` for. -/
def newPages (s : MemState) (size : ℕ) : ℕ :=
  if ¬ (0 < size ∧ size < (s.pool (heapPool s)).poolSize) then 0
  else if 1024 < size then (size + arenaSize + pgSize - 1) / pgSize
  else if (s.desc (heapDescs s + matchDesc s.desc (heapDescs s) size descCnt 0 * descSize)).freeList
    = [] then 1 else 0

/-- Every arena has given something away. It holds whenever no call is running. -/
def Inhabited (A : Set (ℕ × Kind)) (out : List (ℕ × ℕ)) : Prop :=
  ∀ x ∈ A, ∃ p size, (p, size) ∈ out ∧ Serves x p size

/-- The search for a class ends at one whose blocks are large enough. -/
theorem matchDesc_spec {desc : ℕ → MemBlockDesc} {descs fuel : ℕ}
    (hsizes : ∀ i < descCnt, (desc (descs + i * descSize)).blockSize = blockSize i)
    (hsize : size ≤ 1024) (hfuel : j + fuel = descCnt) (hpos : 0 < fuel) :
    matchDesc desc descs size fuel j < descCnt ∧
      size ≤ blockSize (matchDesc desc descs size fuel j) := by
  induction fuel generalizing j with
  | zero => omega
  | succ fuel ih =>
    rw [matchDesc, hsizes j (by omega)]
    by_cases hj : size ≤ blockSize j
    · rw [if_pos hj]
      exact ⟨by omega, hj⟩
    · rw [if_neg hj]
      rcases Nat.eq_zero_or_pos fuel with rfl | hpos
      · -- the last class has blocks of 1024 bytes
        have hj6 : j = 6 := by rw [descCnt] at hfuel; omega
        subst hj6
        exact absurd hsize hj
      · exact ih (by omega) hpos

/-- A page that was not mapped belongs to no arena. -/
theorem NewArena.not_covers {w0 w1 w2 : ℕ} (hnew : NewArena live dead pf s s' p n w0 w1 w2)
    (h : Heap live dead pf A out s) {q : ℕ} (h1 : p ≤ q) (h2 : q < p + n) :
    ∀ x ∈ A, ¬ Covers x q := by
  intro x hx hq
  obtain ⟨f, hu, -⟩ := h.page x hx q hq
  have hnone := hnew.unmapped (q - p) (by omega)
  rw [show p + (q - p) = q by omega, hu.2] at hnone
  cases hnone

/-- The state after a call of `sys_malloc` that has returned `p`. -/
def Malloced (live dead : Set ℕ) (pf : PoolFlags) (A : Set (ℕ × Kind)) (out : List (ℕ × ℕ))
    (s : MemState) (size p : ℕ) (s' : MemState) : Prop :=
  p = 0 ∧ s' = s ∨ p ≠ 0 ∧ 0 < size ∧ ∃ A', Heap live dead pf A' ((p, size) :: out) s' ∧
    Inhabited A' ((p, size) :: out) ∧ HeapStep live dead pf A A' s s'

theorem Heap.ne_zero (h : Heap live dead pf A out s) (hm : (p, size) ∈ out) : p ≠ 0 := by
  rintro rfl
  obtain ⟨x, -, hs⟩ := h.blocks.serves 0 size hm
  have := hs.mod
  simp [arenaSize] at this

/-- Taking a block where one is on the list. -/
theorem takeBlock_malloced {A0 : Set (ℕ × Kind)} {s0 : MemState} {E : Fault → Prop}
    (h : Heap live dead pf A out s) (hi : i < descCnt) (hne : freeOf s i ≠ [])
    (hsize : size ≤ blockSize i) (hpos : 0 < size)
    (hin : ∀ x ∈ A, (∃ p size, (p, size) ∈ out ∧ Serves x p size) ∨
      ∀ b ∈ freeOf s i, Serves x b size)
    (hstep : HeapStep live dead pf A0 A s0 s) :
    wp (takeBlock (descAt s i)) (Malloced live dead pf A0 out s0 size) E s := by
  obtain ⟨b, rest, hfree⟩ := List.exists_cons_of_ne_nil hne
  obtain ⟨s', hrun, h', hstep'⟩ := takeBlock_ok h hi hfree hsize
  rw [wp_of_ok hrun]
  refine .inr ⟨h'.ne_zero List.mem_cons_self, hpos, A, h', fun x hx => ?_, hstep.trans hstep'⟩
  rcases hin x hx with ⟨q, sz, hm, hs⟩ | hall
  · exact ⟨q, sz, List.mem_cons_of_mem _ hm, hs⟩
  · exact ⟨b, size, List.mem_cons_self, hall b (by rw [hfree]; exact List.mem_cons_self)⟩

/-- **A new arena of small blocks**, carved up. -/
theorem newArena_carved {s1 : MemState} (h : Heap live dead pf A out s) (hi : i < descCnt)
    (hnew : NewArena live dead pf s s1 p 1 (descAt s i) (perArena i) 0) :
    ∃ s', carveArena (p * pgSize) (descAt s i) (perArena i) 0 s1 = .ok ((), s') ∧
      Heap live dead pf (insert (p, .small i) A) out s' ∧
      HeapStep live dead pf A (insert (p, .small i) A) s s' ∧
      freeOf s' i = freeOf s i ++ blocksOf p i := by
  have hdesc : s1.desc = s.desc := hnew.desc
  have hcov : ∀ x ∈ A, ¬ Covers x p := hnew.not_covers h (Nat.le_refl p) (by omega)
  have hcarve := carveArena_ok (s := s1) (d := descAt s i) (i := i) (a := p) (n := perArena i)
    (j := 0) (by rw [hdesc]; exact (h.sizes i hi).1) (fun k _ hk hm => by
      rw [hdesc] at hm
      obtain ⟨a, k', hx, hk', he, -⟩ := (h.blocks.mem_free i hi _).1 hm
      have hpa : p = a := by
        rw [← block_div (a := p) (i := i) (k := k) (by omega), he, block_div hk']
      exact hcov _ hx (covers_small.2 hpa))
  have hlist : (s1.desc (descAt s i)).freeList ++ (List.range' 0 (perArena i)).map (block p i) =
      freeOf s i ++ blocksOf p i := by
    rw [hdesc, blocksOf, List.range_eq_range', freeOf]
  rw [hlist] at hcarve
  have hfree := hnew.freeOf i (freeOf s i ++ blocksOf p i)
  refine ⟨_, hcarve, h.grow (x := (p, .small i)) hnew (h.blocks.grow hi hcov) (fun f hf => ?_)
    fun a j hx => ?_, .grow (x := (p, .small i)) h hnew hi, by rw [hfree, Function.update_self]⟩
  · refine ⟨?_, ?_, hf.2.2⟩
    · rw [(hnew.task.trans (.setFree s1 _ _)).descAt]
      exact hf.1
    · rw [hfree, Blocks.slots_grow]
      exact hf.2.1
  · by_cases hji : j = i
    · subst hji
      exact Blocks.slots_grow_ne fun hap => hcov _ hx (covers_small.2 hap.symm)
    · exact Blocks.slots_update_ne hji _

theorem NotStale.agrees {s1 : MemState} (h : NotStale s n) (hpf : heapPool s = pf)
    (hrun : mallocPage pf n s = .ok (p * pgSize, s1)) (hp : p * pgSize ≠ 0) :
    ∀ k < n, Agrees s1 (p + k) := by
  have ha := h (p * pgSize) s1 (by rw [hpf]; exact hrun) hp
  rwa [Nat.mul_div_cancel p (by decide)] at ha

/-- **New pages with a header**, or none. -/
theorem mallocPage_heads (h : Heap live dead pf A out s) (hn : 0 < n) (hst : NotStale s n)
    (w0 w1 w2 : ℕ) {Q : ℕ → MemState → Prop} (hnull : Q 0 s)
    (hnew : ∀ p s1 s2 s3, p * pgSize ≠ 0 → clearPages (p * pgSize) n s1 = .ok ((), s2) →
      setHeader (p * pgSize) w0 w1 w2 s2 = .ok ((), s3) →
      NewArena live dead pf s s3 p n w0 w1 w2 → Q (p * pgSize) s1) :
    post (mallocPage pf n) Q s := by
  refine wp_of_run (mallocPage_wp h.paged h.space (fun _ => trivial) (fun _ => trivial)
    (fun _ => trivial) (fun _ => trivial) (fun _ _ _ _ => hnull)
    fun p s1 new hfirst htake hfills hrun => ?_)
  have hp : p * pgSize ≠ 0 :=
    (Nat.mul_pos (h.space.pos h.paged.layout hfirst.run) (by decide)).ne'
  obtain ⟨s2, s3, hclear, hhead, harena⟩ := newArena_ok h.paged hn hfirst.run hfirst.clear htake
    hfills (hst.agrees h.pool hrun hp) w0 w1 w2
  exact hnew p s1 s2 s3 hp hclear hhead harena

theorem mallocSmall_post (h : Heap live dead pf A out s) (hin : Inhabited A out) (hpos : 0 < size)
    (hsize : size ≤ 1024)
    (hst : (s.desc (heapDescs s +
      matchDesc s.desc (heapDescs s) size descCnt 0 * descSize)).freeList = [] → NotStale s 1) :
    post (do
      let d := heapDescs s + matchDesc s.desc (heapDescs s) size descCnt 0 * descSize
      if (s.desc d).freeList = [] then
        let a ← mallocPage pf 1
        if a = 0 then pure 0
        else
          clearPages a 1
          setHeader a d (s.desc d).blocksPerArena 0
          carveArena a d (s.desc d).blocksPerArena 0
          takeBlock d
      else takeBlock d) (Malloced live dead pf A out s size) s := by
  obtain ⟨hi, hfit⟩ := matchDesc_spec (fun i hi => (h.sizes i hi).1) hsize
    (Nat.zero_add descCnt) (by decide)
  generalize matchDesc s.desc (heapDescs s) size descCnt 0 = i at hi hfit hst
  change post (if freeOf s i = [] then _ else takeBlock (descAt s i)) _ s
  by_cases hempty : freeOf s i = []
  case neg =>
    rw [if_neg hempty]
    exact takeBlock_malloced h hi hempty hfit hpos (fun x hx => .inl (hin x hx)) (.refl _ _ _ _ _)
  rw [if_pos hempty, post, wp_bind]
  refine mallocPage_heads h Nat.one_pos (hst hempty) (descAt s i) (perArena i) 0 (.inl ⟨rfl, rfl⟩)
    fun p s1 s2 s3 hp hclear hhead hnew => ?_
  obtain ⟨s4, hcarve, h', hstep, hlist⟩ := newArena_carved h hi hnew
  rw [if_neg hp, wp_bind, wp_of_ok hclear, show heapDescs s + i * descSize = descAt s i from rfl,
    (h.sizes i hi).2, wp_bind, wp_of_ok hhead, wp_bind, wp_of_ok hcarve, ← hstep.task.descAt]
  rw [hempty, List.nil_append] at hlist
  refine takeBlock_malloced h' hi ?_ hfit hpos ?_ hstep
  · rw [hlist]
    intro hnil
    have := List.length_eq_zero_iff.2 hnil
    rw [blocksOf, List.length_map, List.length_range] at this
    exact (perArena_pos hi).ne' this
  · rintro x (rfl | hx)
    · refine .inr fun b hb => ?_
      rw [hlist] at hb
      obtain ⟨k, hk, rfl⟩ := mem_blocksOf.1 hb
      exact ⟨k, hk, rfl, hfit⟩
    · exact .inl (hin x hx)

/-- **`sys_malloc`** returns 0 and changes nothing, or a pointer that joins those that are out. -/
theorem sysMalloc_post (h : Heap live dead pf A out s) (hin : Inhabited A out)
    (hst : NotStale s (newPages s size)) :
    post (sysMalloc size) (Malloced live dead pf A out s size) s := by
  rw [sysMalloc, post, wp_bind, wp_get]
  rw [newPages] at hst
  simp only [h.pool] at hst ⊢
  by_cases hpos : 0 < size ∧ size < (s.pool pf).poolSize
  case neg =>
    rw [if_pos hpos]
    exact .inl ⟨rfl, rfl⟩
  rw [if_neg (not_not_intro hpos)] at hst ⊢
  have hpos := hpos.1
  by_cases hbig : 1024 < size
  · -- whole pages
    have hn : 0 < (size + arenaSize + pgSize - 1) / pgSize := by
      simp only [arenaSize, pgSize]
      omega
    rw [if_pos hbig] at hst
    rw [if_pos hbig, wp_bind]
    refine mallocPage_heads h hn hst 0 ((size + arenaSize + pgSize - 1) / pgSize) 1
      (.inl ⟨rfl, rfl⟩) fun p s1 s2 s3 hp hclear hhead hnew => ?_
    generalize hpc : (size + arenaSize + pgSize - 1) / pgSize = n at *
    rw [if_pos hp, wp_bind, wp_of_ok hclear, wp_bind, wp_of_ok hhead]
    have hsize : size + arenaSize ≤ n * pgSize := by
      simp only [arenaSize, pgSize] at hpc ⊢
      omega
    have hcov : ∀ x ∈ A, ∀ q, Covers (p, .large n) q → ¬ Covers x q := fun x hx q hq =>
      hnew.not_covers h hq.1 hq.2 x hx
    have hlist : s3.setFree (descAt s 0) (freeOf s 0) = s3 := by
      rw [freeOf, ← desc_setVaddr pf _, ← hnew.rest.desc, setFree_self]
    have h' := h.grow (x := (p, .large n)) (i := 0) (l := freeOf s 0) hnew
      (by rw [Function.update_eq_self]; exact h.blocks.large hn hcov hbig hsize)
      (fun f hf => by rw [hlist]; exact hf) fun a j _ => by rw [Function.update_eq_self]
    have hstep := HeapStep.grow (x := (p, .large n)) (i := 0) (l := freeOf s 0) h hnew (by decide)
    rw [hlist] at h' hstep
    refine .inr ⟨h'.ne_zero List.mem_cons_self, hpos, _, h', ?_, hstep⟩
    rintro x (rfl | hx)
    · exact ⟨_, _, List.mem_cons_self, rfl, hbig, hsize⟩
    · obtain ⟨q, sz, hm, hs⟩ := hin x hx
      exact ⟨q, sz, List.mem_cons_of_mem _ hm, hs⟩
  · rw [if_neg hbig] at hst ⊢
    exact mallocSmall_post h hin hpos (by omega) fun hempty => by rwa [if_pos hempty] at hst

/-! ### `sys_free` -/

open Blocks (without mem_without)

/-- The state after the pointer `p` has come back. The first page of its arena is still mapped
exactly if another pointer into it is out. -/
structure Freed (live dead : Set ℕ) (pf : PoolFlags) (A A' : Set (ℕ × Kind))
    (out : List (ℕ × ℕ)) (s : MemState) (p : ℕ) (s' : MemState) : Prop where
  heap : Heap live dead pf A' (without out p) s'
  inhabited : Inhabited A' (without out p)
  step : HeapStep live dead pf A A' s s'
  mapped : (∃ f, walk s'.phys s'.dir (p / pgSize) = some f) ↔
    ∃ q sz, (q, sz) ∈ without out p ∧ q / pgSize = p / pgSize

theorem Freed.of_stay {x : ℕ × Kind} (h : Heap live dead pf A (without out p) s')
    (hin : Inhabited A (without out p)) (hstep : HeapStep live dead pf A A s s') (hx : x ∈ A)
    (hp : p / pgSize = x.1) : Freed live dead pf A A out s p s' := by
  refine ⟨h, hin, hstep, fun _ => ?_, fun _ => ?_⟩
  · obtain ⟨q, sz, hm, hs⟩ := hin x hx
    exact ⟨q, sz, hm, hs.page.trans hp.symm⟩
  · obtain ⟨f, hu, -⟩ := h.page x hx _ (h.blocks.arenas.covers_first hx)
    exact ⟨f, hp ▸ (h.paged.walk_eq _ hu.1).trans hu.2⟩

theorem Freed.of_gone {x : ℕ × Kind} (hA : Arenas A)
    (h : Heap live dead pf (A \ {x}) (without out p) s')
    (hin : ∀ y ∈ A \ {x}, ∃ q sz, (q, sz) ∈ without out p ∧ Serves y q sz)
    (hstep : HeapStep live dead pf A (A \ {x}) s s') (hx : x ∈ A) (hp : p / pgSize = x.1)
    (hvalid : (Use.ofPage pf s.dir x.1).Valid live)
    (hgone : (Use.ofPage pf s.dir x.1).frame s'.phys = none) :
    Freed live dead pf A (A \ {x}) out s p s' := by
  refine ⟨h, hin, hstep, fun ⟨f, hf⟩ => ?_, fun ⟨q, sz, hm, hq⟩ => ?_⟩
  · rw [hp, h.paged.walk_eq pf (by rw [hstep.task.dir]; exact hvalid), hstep.task.dir, hgone] at hf
    cases hf
  · obtain ⟨y, hy, hs⟩ := h.blocks.serves q sz hm
    have hxy : y.1 = x.1 := by rw [← hs.page, hq, hp]
    refine absurd ?_ hy.2
    exact hA.apart y hy.1 x hx x.1 (hxy ▸ hA.covers_first hy.1) (hA.covers_first hx)

/-- Other arenas do not notice that a pointer comes back. -/
theorem Inhabited.without {x : ℕ × Kind} (h : Inhabited A out) (hA : Arenas A) (hx : x ∈ A)
    (hp : p / pgSize = x.1) : Inhabited (A \ {x}) (without out p) := by
  intro y hy
  obtain ⟨q, sz, hm, hs⟩ := h y hy.1
  refine ⟨q, sz, mem_without.2 ⟨hm, ?_⟩, hs⟩
  rintro rfl
  have hxy : y.1 = x.1 := by rw [← hs.page, hp]
  exact hy.2 (hA.apart y hy.1 x hx x.1 (hxy ▸ hA.covers_first hy.1) (hA.covers_first hx))

variable (h : Heap live dead pf A out s)

include h

/-- The pages of an arena, as `mfree_page` wants them. -/
theorem Heap.goneArena {x : ℕ × Kind} (hx : x ∈ A) (l : List ℕ) :
    ∃ s', mfreePage pf (x.1 * pgSize) x.2.pages (s.setFree (descAt s i) l) = .ok ((), s') ∧
      GoneArena live dead pf s s' x i l := by
  obtain ⟨k, hk, -⟩ := covers_iff.1 (h.blocks.arenas.covers_first hx)
  have hrun := h.run x hx
  have hsp : Space (s.setFree (descAt s i) l) live pf :=
    h.space.of_vaddr rfl (by rw [vaddr_setFree]) (by rw [vaddr_setFree])
  obtain ⟨s', hfree, hgone, hrest⟩ := mfreePage_shrinks (v := x.1) (n := x.2.pages)
    (h.paged.setFree (descAt s i) l) hsp (Nat.one_le_of_lt hk)
    (by rw [vaddr_setFree]; exact hrun.1) (by rw [vaddr_setFree]; exact hrun.2.2) fun k hk => by
      obtain ⟨f, hu, hf⟩ := h.page x hx _ (covers_iff.2 ⟨k, hk, rfl⟩)
      exact ⟨f, hu, fun hc => hf.1 (.inr (.inl hc)), hf.2⟩
  rw [vaddr_setFree] at hrest
  exact ⟨s', hfree, hgone, hrest⟩

theorem freeLarge_ok (hin : Inhabited A out)
    (hx : (a, .large n) ∈ A) (hp : p = a * pgSize + arenaSize) :
    ∃ s' A', mfreePage pf (a * pgSize) n s = .ok ((), s') ∧
      Freed live dead pf A A' out s p s' := by
  have hlist : s.setFree (descAt s 0) (freeOf s 0) = s := setFree_self s _
  obtain ⟨s', hrun, hgone⟩ := h.goneArena (i := 0) hx (freeOf s 0)
  have hpage : p / pgSize = a := by
    rw [hp]
    simp only [pgSize, arenaSize]
    omega
  have h' := h.shrink (i := 0) hx hgone
    (by rw [Function.update_eq_self]; exact h.blocks.dropLarge hx)
    fun a j _ => by rw [Function.update_eq_self]
  rw [← hp] at h'
  rw [hlist] at hrun
  obtain ⟨f, hu, -⟩ := h.page _ hx a (h.blocks.arenas.covers_first hx)
  exact ⟨s', _, hrun, .of_gone h.blocks.arenas h' (hin.without h.blocks.arenas hx hpage)
    (.shrink h hx (by decide) hgone) hx hpage hu.1
    (hgone.shrinks.gone _ ⟨0, h.blocks.arenas.large a n hx, rfl⟩)⟩

/-- The block goes back to its list and is counted. -/
theorem putBlock_ok (hx : (a, .small i) ∈ A) (hk : k < perArena i)
    (hm : (block a i k, size) ∈ out) (hu : Holds s.phys live (.ofPage pf s.dir a) f) :
    ∃ s', load (a * pgSize + 4) (s.setFree (descAt s i) (freeOf s i ++ [block a i k])) =
        .ok (s.phys f 1, s.setFree (descAt s i) (freeOf s i ++ [block a i k])) ∧
      store (a * pgSize + 4) (s.phys f 1 + 1)
        (s.setFree (descAt s i) (freeOf s i ++ [block a i k])) = .ok ((), s') ∧
      Heap live dead pf A (without out (block a i k)) s' ∧ HeapStep live dead pf A A s s' ∧
      s.phys f 1 + 1 = (slots (freeOf s') a i).card := by
  have hi := h.blocks.arenas.small a i hx
  have hout : block a i k ∈ out.map Prod.fst := List.mem_map.2 ⟨_, hm, rfl⟩
  have hpage : s.translate a = some f :=
    (h.tlb _ hx a (covers_small.2 rfl)).translate h.paged hu
  obtain ⟨-, hcnt, -⟩ : s.phys f 0 = descAt s i ∧ s.phys f 1 = (slots (freeOf s) a i).card ∧
    s.phys f 2 = 0 := h.header _ hx f hu
  have hslots := Blocks.slots_put hk fun hc => h.blocks.free_not_out hi hc hout
  let s1 := s.setFree (descAt s i) (freeOf s i ++ [block a i k])
  have hw : Writes s1 (s1.setWord f 1 (s.phys f 1 + 1)) {f} := Writes.setWord s1 f 1 _
  have hphys : ∀ w, (s1.setWord f 1 (s.phys f 1 + 1)).phys f w =
      if w = 1 then s.phys f 1 + 1 else s.phys f w := by
    intro w
    rw [phys_setWord, Function.update_self, Function.update_apply]
    rfl
  obtain ⟨h', hstep⟩ := h.relist hx hu hw (h.blocks.put hx hk hout)
    (by rw [hphys, if_neg (by omega)]) (by rw [hphys, if_neg (by omega)])
    (by rw [hphys, if_pos rfl, hcnt, hslots]) fun a' ha' => Blocks.slots_put_ne ha' hk
  refine ⟨_, load_word (s := s1) hpage (by omega) rfl,
    store_word (s := s1) hpage (by omega) rfl, h',
    hstep, ?_⟩
  have hfree : freeOf (s1.setWord f 1 (s.phys f 1 + 1)) =
      Function.update (freeOf s) i (freeOf s i ++ [block a i k]) := freeOf_setFree s i _
  rw [hfree, hslots, hcnt]

/-- The last block of an arena has come back: the blocks leave the list and the page is freed. -/
theorem dropArena_ok (hx : (a, .small i) ∈ A) (hfull : (slots (freeOf s) a i).card = perArena i) :
    ∃ s1 s', dropBlocks (a * pgSize) (descAt s i) (perArena i) 0 s = .ok ((), s1) ∧
      mfreePage pf (a * pgSize) 1 s1 = .ok ((), s') ∧
      (Use.ofPage pf s.dir a).frame s'.phys = none ∧
      Heap live dead pf (A \ {(a, .small i)}) out s' ∧
      HeapStep live dead pf A (A \ {(a, .small i)}) s s' := by
  have hi := h.blocks.arenas.small a i hx
  have hall := (h.blocks.slots_full hx).1 hfull
  have hdrop := dropBlocks_ok (s := s) (d := descAt s i) (i := i) (a := a)
    (n := perArena i) (j := 0)
    (h.sizes i hi).1 (h.blocks.nodup i hi) fun k _ hk =>
      (h.blocks.mem_free i hi _).2 ⟨a, k, hx, by omega, rfl, hall k (by omega)⟩
  have hlist : (s.desc (descAt s i)).freeList.filter
      (fun b => b ∉ (List.range' 0 (perArena i)).map (block a i)) =
      (freeOf s i).filter fun b => b ∉ blocksOf a i := by
    rw [blocksOf, List.range_eq_range', freeOf]
  rw [hlist] at hdrop
  obtain ⟨s', hrun, hgone⟩ :=
    h.goneArena (i := i) hx ((freeOf s i).filter fun b => b ∉ blocksOf a i)
  refine ⟨_, s', hdrop, hrun, hgone.shrinks.gone _ ⟨0, Nat.one_pos, rfl⟩,
    h.shrink hx hgone (h.blocks.drop hx hall) fun a' j hy => ?_, .shrink h hx hi hgone⟩
  by_cases hji : j = i
  · subst hji
    exact Blocks.slots_drop_ne fun ha => hy.2 (by rw [ha]; rfl)
  · exact Blocks.slots_update_ne hji _

/-- An arena whose blocks are not all on the list has one out. -/
theorem Heap.inhabited_of_not_full (hx : (a, .small i) ∈ A)
    (hfull : (slots (freeOf s) a i).card ≠ perArena i) :
    ∃ q sz, (q, sz) ∈ out ∧ Serves (a, .small i) q sz := by
  by_contra hno
  refine hfull ((h.blocks.slots_full hx).2 fun k hk hm => hno ?_)
  obtain ⟨⟨q, sz⟩, hm, rfl⟩ := List.mem_map.1 hm
  exact ⟨_, sz, hm, h.blocks.block_of_out hx hm (block_div hk)⟩

/-- **`sys_free`** of a pointer that is out returns. -/
theorem sysFree_ok (hin : Inhabited A out) (hm : (p, size) ∈ out) :
    ∃ s' A', sysFree p s = .ok ((), s') ∧ Freed live dead pf A A' out s p s' := by
  obtain ⟨x, hx, hs⟩ := h.blocks.serves p size hm
  have hpage := hs.page
  obtain ⟨f, htr, hu, hf⟩ := h.translate hx (h.blocks.arenas.covers_first hx)
  have hassert1 : decide (p ≠ 0) = true := decide_eq_true (h.ne_zero hm)
  have hassert2 : decide (pf = .kernel → kHeapStart ≤ p) = true := by
    refine decide_eq_true fun hpf => ?_
    subst hpf
    have := (Use.valid_kpage.1 hu.1).1
    simp only [kHeapStart, pgSize] at hpage ⊢
    omega
  have harena : block2arena p = x.1 * pgSize := by rw [block2arena, hpage]
  have hload2 : load (x.1 * pgSize + 8) s = .ok (s.phys f 2, s) :=
    load_word htr (by omega) rfl
  have hload0 : load (x.1 * pgSize) s = .ok (s.phys f 0, s) :=
    load_word htr (by omega) (Nat.add_zero _).symm
  have hhead := h.header x hx f hu
  have hlarge : decide (s.phys f 2 = 0 ∨ s.phys f 2 = 1) = true := by
    refine decide_eq_true ?_
    obtain ⟨a, κ⟩ := x
    cases κ with
    | small i => exact .inl hhead.2.2
    | large n => exact .inr hhead.2.2
  rw [sysFree, bind_of_ok (ASSERT_of_true s hassert1), bind_of_ok (get_apply s)]
  simp only [h.pool]
  rw [bind_of_ok (ASSERT_of_true s hassert2), harena, bind_of_ok hload2,
    bind_of_ok (ASSERT_of_true s hlarge), bind_of_ok hload0]
  obtain ⟨a, κ⟩ := x
  cases κ with
  | large n =>
    obtain ⟨h0, h1, h2⟩ : s.phys f 0 = 0 ∧ s.phys f 1 = n ∧ s.phys f 2 = 1 := hhead
    have hload1 : load (a * pgSize + 4) s = .ok (s.phys f 1, s) := load_word htr (by omega) rfl
    rw [if_pos ⟨h0, h2⟩, bind_of_ok hload1, h1]
    exact freeLarge_ok h hin hx hs.1
  | small i =>
    obtain ⟨h0, h1, h2⟩ : s.phys f 0 = descAt s i ∧ s.phys f 1 = (slots (freeOf s) a i).card ∧
      s.phys f 2 = 0 := hhead
    obtain ⟨k, hk, rfl, hsize⟩ : ∃ k < perArena i, p = block a i k ∧ size ≤ blockSize i := hs
    have hi := h.blocks.arenas.small a i hx
    obtain ⟨s2, hload, hstore, h', hstep, hcnt⟩ := putBlock_ok h hx hk hm hu
    have hmod : modifyList (descAt s i) (· ++ [block a i k]) s =
        .ok ((), s.setFree (descAt s i) (freeOf s i ++ [block a i k])) := rfl
    have hothers := hin.without h.blocks.arenas hx hpage
    rw [if_neg fun hc => descAt_ne_zero s i (h0 ▸ hc.1), h0,
      bind_of_ok (check_of_true _ s (decide_eq_true (descAt_ne_zero s i))), bind_of_ok hmod,
      bind_of_ok hload, bind_of_ok hstore, (h.sizes i hi).2, hcnt]
    by_cases hfull : (slots (freeOf s2) a i).card = perArena i
    · obtain ⟨s3, s', hdrop, hfree, hgone, h'', hstep'⟩ := dropArena_ok h' hx hfull
      rw [hstep.task.descAt] at hdrop
      rw [hstep.task.dir] at hgone
      rw [if_pos hfull, bind_of_ok hdrop]
      exact ⟨s', _, hfree, .of_gone h.blocks.arenas h'' hothers (hstep.trans hstep') hx hpage hu.1
        hgone⟩
    · rw [if_neg hfull]
      refine ⟨s2, A, rfl, .of_stay h' (fun y hy => ?_) hstep hx hpage⟩
      by_cases hyx : y = (a, .small i)
      · rw [hyx]
        exact h'.inhabited_of_not_full hx hfull
      · exact hothers y ⟨hy, hyx⟩

end

end X86Os.Mem
