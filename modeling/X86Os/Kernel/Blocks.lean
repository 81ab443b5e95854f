import X86Os.Kernel.Heap
import Mathlib.Order.Interval.Finset.Nat
import Mathlib.Data.Finset.Card

/-!
# Blocks and free lists

The heap without its memory: which pages are arenas and of which kind, what is on the seven free
lists, and which pointers are out. `Blocks` relates the three. A block of an arena is on the free
list of its size or belongs to somebody, and never both; a pointer is a block of an arena, or the
first address after the header of a large one.

The four things that `sys_malloc` and `sys_free` do to the lists keep that relation, and change the
number of blocks that an arena has on its list as the count in its header says: a new arena, a block
taken, a block put back, an arena given up.
-/

namespace X86Os.Mem

/-! ### Geometry -/

/-- The block size of a class. -/
def blockSize (i : ℕ) : ℕ := 16 * 2 ^ i

/-- How many blocks of a class fit into an arena. -/
def perArena (i : ℕ) : ℕ := (pgSize - arenaSize) / blockSize i

/-- Block `k` of the arena in page `a`. -/
def block (a i k : ℕ) : ℕ := arena2block (a * pgSize) k (blockSize i)

theorem blockSize_pos (i : ℕ) : 0 < blockSize i := Nat.mul_pos (by decide) (Nat.two_pow_pos i)

theorem block_le {i k : ℕ} (hk : k < perArena i) :
    arenaSize + k * blockSize i + blockSize i ≤ pgSize := by
  have h := (Nat.le_div_iff_mul_le (blockSize_pos i)).1 (Nat.succ_le_of_lt hk)
  rw [Nat.succ_mul] at h
  simp only [pgSize, arenaSize] at h ⊢
  omega

theorem block_eq (a i k : ℕ) : block a i k = a * pgSize + (arenaSize + k * blockSize i) := by
  rw [block, arena2block, Nat.add_assoc]

theorem block_div {a i k : ℕ} (hk : k < perArena i) : block a i k / pgSize = a := by
  have h := block_le hk
  have hs := blockSize_pos i
  rw [block_eq]
  simp only [pgSize] at h ⊢
  omega

theorem block_mod {a i k : ℕ} (hk : k < perArena i) :
    block a i k % pgSize = arenaSize + k * blockSize i := by
  have h := block_le hk
  have hs := blockSize_pos i
  rw [block_eq]
  simp only [pgSize] at h ⊢
  omega

theorem block2arena_block {a i k : ℕ} (hk : k < perArena i) :
    block2arena (block a i k) = a * pgSize := by
  rw [block2arena, block_div hk]

theorem block_inj {a i k k' : ℕ} (h : block a i k = block a i k') : k = k' := by
  rw [block_eq, block_eq] at h
  exact Nat.eq_of_mul_eq_mul_right (blockSize_pos i) (by omega)

theorem perArena_pos {i : ℕ} (hi : i < descCnt) : 0 < perArena i := by
  revert i
  decide

/-! ### Arenas -/

/-- What an arena is cut into: blocks of a class, or a number of pages for one pointer. -/
inductive Kind
  | small (i : ℕ)
  | large (n : ℕ)

/-- How many pages it has. -/
def Kind.pages : Kind → ℕ
  | .small _ => 1
  | .large n => n

/-- The page belongs to the arena. -/
def Covers (x : ℕ × Kind) (p : ℕ) : Prop := x.1 ≤ p ∧ p < x.1 + x.2.pages

instance (x : ℕ × Kind) (p : ℕ) : Decidable (Covers x p) := inferInstanceAs (Decidable (_ ∧ _))

theorem covers_iff {x : ℕ × Kind} {p : ℕ} : Covers x p ↔ ∃ k < x.2.pages, p = x.1 + k :=
  ⟨fun h => ⟨p - x.1, by have := h.1; have := h.2; omega, by have := h.1; omega⟩,
    fun ⟨k, hk, hp⟩ => ⟨by omega, by omega⟩⟩

theorem covers_small {a i p : ℕ} : Covers (a, .small i) p ↔ p = a := by
  simp only [Covers, Kind.pages]
  omega

/-- The arenas are of a possible kind and have no page in common. -/
structure Arenas (A : Set (ℕ × Kind)) : Prop where
  small : ∀ a i, (a, Kind.small i) ∈ A → i < descCnt
  large : ∀ a n, (a, Kind.large n) ∈ A → 0 < n
  apart : ∀ x ∈ A, ∀ y ∈ A, ∀ p, Covers x p → Covers y p → x = y

/-- The pointer `p`, asked for with `size` bytes, is what the arena has to give. -/
def Serves (x : ℕ × Kind) (p size : ℕ) : Prop :=
  match x.2 with
  | .small i => ∃ k < perArena i, p = block x.1 i k ∧ size ≤ blockSize i
  | .large n => p = x.1 * pgSize + arenaSize ∧ 1024 < size ∧ size + arenaSize ≤ n * pgSize

/-- **The arenas, the free lists and the pointers that are out.** -/
structure Blocks (A : Set (ℕ × Kind)) (free : ℕ → List ℕ) (out : List (ℕ × ℕ)) : Prop where
  arenas : Arenas A
  nodup : ∀ i < descCnt, (free i).Nodup
  mem_free : ∀ i < descCnt, ∀ b, b ∈ free i ↔
    ∃ a k, (a, Kind.small i) ∈ A ∧ k < perArena i ∧ b = block a i k ∧ b ∉ out.map Prod.fst
  serves : ∀ p size, (p, size) ∈ out → ∃ x ∈ A, Serves x p size
  outNodup : (out.map Prod.fst).Nodup

/-- The blocks of an arena. -/
def blocksOf (a i : ℕ) : List ℕ := (List.range (perArena i)).map (block a i)

theorem mem_blocksOf {a i b : ℕ} : b ∈ blocksOf a i ↔ ∃ k < perArena i, b = block a i k := by
  simp only [blocksOf, List.mem_map, List.mem_range, eq_comm]

theorem nodup_blocksOf (a i : ℕ) : (blocksOf a i).Nodup :=
  List.Nodup.map (fun _ _ => block_inj) List.nodup_range

/-- The indices of the blocks of an arena that are on the free list. -/
def slots (free : ℕ → List ℕ) (a i : ℕ) : Finset ℕ :=
  (Finset.range (perArena i)).filter fun k => block a i k ∈ free i

theorem Arenas.covers_first {A : Set (ℕ × Kind)} (h : Arenas A) {x : ℕ × Kind} (hx : x ∈ A) :
    Covers x x.1 := by
  obtain ⟨a, κ⟩ := x
  refine ⟨Nat.le_refl _, Nat.lt_add_of_pos_right ?_⟩
  cases κ with
  | small i => exact Nat.one_pos
  | large n => exact h.large a n hx

theorem Arenas.sub {A B : Set (ℕ × Kind)} (h : Arenas A) (hB : B ⊆ A) : Arenas B :=
  ⟨fun a i hx => h.small a i (hB hx), fun a n hx => h.large a n (hB hx),
    fun x hx y hy => h.apart x (hB hx) y (hB hy)⟩

/-- A pointer is in the first page of its arena. -/
theorem Serves.page {x : ℕ × Kind} {p size : ℕ} (h : Serves x p size) : p / pgSize = x.1 := by
  obtain ⟨a, κ⟩ := x
  cases κ with
  | small i =>
    obtain ⟨k, hk, rfl, -⟩ := h
    exact block_div hk
  | large n =>
    obtain ⟨rfl, -⟩ := h
    simp only [pgSize, arenaSize]
    omega

theorem Serves.mod {x : ℕ × Kind} {p size : ℕ} (h : Serves x p size) :
    arenaSize ≤ p % pgSize := by
  obtain ⟨a, κ⟩ := x
  cases κ with
  | small i =>
    obtain ⟨k, hk, rfl, -⟩ := h
    rw [block_mod hk]
    omega
  | large n =>
    obtain ⟨rfl, -⟩ := h
    simp only [pgSize, arenaSize]
    omega

/-- The bytes asked for are in the pages of the arena. -/
theorem Serves.covers {x : ℕ × Kind} {p size y : ℕ} (h : Serves x p size) (h1 : p ≤ y)
    (h2 : y < p + size) : Covers x (y / pgSize) := by
  obtain ⟨a, κ⟩ := x
  cases κ with
  | small i =>
    obtain ⟨k, hk, rfl, hsize⟩ := h
    have hle := block_le hk
    rw [block_eq] at h1 h2
    rw [covers_small]
    simp only [pgSize] at *
    omega
  | large n =>
    obtain ⟨rfl, -, hsize⟩ := h
    simp only [Covers, Kind.pages, pgSize, arenaSize] at *
    omega

namespace Blocks

variable {A : Set (ℕ × Kind)} {free : ℕ → List ℕ} {out : List (ℕ × ℕ)} {a i k n p size : ℕ}

variable (h : Blocks A free out)

include h

/-- A pointer in the page of a small arena is one of its blocks. -/
theorem block_of_out (hx : (a, Kind.small i) ∈ A) (hm : (p, size) ∈ out)
    (hp : p / pgSize = a) : ∃ k < perArena i, p = block a i k ∧ size ≤ blockSize i := by
  obtain ⟨x, hxA, hs⟩ := h.serves p size hm
  have he := h.arenas.apart x hxA _ hx a
    (by rw [← hp, hs.page]; exact h.arenas.covers_first hxA) (covers_small.2 rfl)
  subst he
  exact hs

/-- A page that belongs to no arena has no pointer in it. -/
theorem not_out (hnew : ∀ x ∈ A, ¬ Covers x (p / pgSize)) : p ∉ out.map Prod.fst := by
  intro hm
  obtain ⟨⟨q, size⟩, hout, rfl⟩ := List.mem_map.1 hm
  obtain ⟨x, hx, hs⟩ := h.serves q size hout
  exact hnew x hx (hs.page ▸ h.arenas.covers_first hx)

/-- What is on a free list is no pointer that is out. -/
theorem free_not_out (hi : i < descCnt) {b : ℕ} (hb : b ∈ free i) : b ∉ out.map Prod.fst := by
  obtain ⟨-, -, -, -, -, hb⟩ := (h.mem_free i hi b).1 hb
  exact hb

theorem arena_unique {a' i' k' : ℕ} (hx : (a, Kind.small i) ∈ A)
    (hk : k < perArena i) (hx' : (a', Kind.small i') ∈ A) (hk' : k' < perArena i')
    (he : block a i k = block a' i' k') : a = a' ∧ i = i' ∧ k = k' := by
  have ha : a = a' := by rw [← block_div (a := a) hk, he, block_div hk']
  subst ha
  have hx := h.arenas.apart _ hx _ hx' a (covers_small.2 rfl) (covers_small.2 rfl)
  obtain rfl := Kind.small.inj (Prod.mk.inj hx).2
  exact ⟨rfl, rfl, block_inj he⟩

/-- **A new arena.** -/
theorem grow (hi : i < descCnt) (hnew : ∀ x ∈ A, ¬ Covers x a) :
    Blocks (insert (a, .small i) A) (Function.update free i (free i ++ blocksOf a i)) out where
  arenas := by
    refine ⟨fun a' i' hx => ?_, fun a' n hx => ?_, fun x hx y hy p hp hp' => ?_⟩
    · rcases hx with he | hx
      · cases he
        exact hi
      · exact h.arenas.small a' i' hx
    · rcases hx with he | hx
      · cases he
      · exact h.arenas.large a' n hx
    · rcases hx with rfl | hx <;> rcases hy with rfl | hy
      · rfl
      · exact absurd (covers_small.1 hp ▸ hp') (hnew y hy)
      · exact absurd (covers_small.1 hp' ▸ hp) (hnew x hx)
      · exact h.arenas.apart x hx y hy p hp hp'
  nodup j hj := by
    by_cases hji : j = i
    · subst hji
      rw [Function.update_self, List.nodup_append]
      refine ⟨h.nodup j hj, nodup_blocksOf a j, ?_⟩
      rintro b hb _ hb' rfl
      obtain ⟨a', k', hx, hk', rfl, -⟩ := (h.mem_free j hj b).1 hb
      obtain ⟨k, hk, he⟩ := mem_blocksOf.1 hb'
      have ha : a' = a := by rw [← block_div (a := a') hk', he, block_div hk]
      exact hnew _ hx (covers_small.2 ha.symm)
    · rw [Function.update_of_ne hji]
      exact h.nodup j hj
  mem_free j hj b := by
    by_cases hji : j = i
    · subst hji
      rw [Function.update_self, List.mem_append, h.mem_free j hj, mem_blocksOf]
      constructor
      · rintro (⟨a', k, hx, hk, rfl, hout⟩ | ⟨k, hk, rfl⟩)
        · exact ⟨a', k, .inr hx, hk, rfl, hout⟩
        · refine ⟨a, k, .inl rfl, hk, rfl, h.not_out ?_⟩
          rw [block_div hk]
          exact hnew
      · rintro ⟨a', k, he | hx, hk, rfl, hout⟩
        · cases he
          exact .inr ⟨k, hk, rfl⟩
        · exact .inl ⟨a', k, hx, hk, rfl, hout⟩
    · rw [Function.update_of_ne hji, h.mem_free j hj]
      constructor
      · rintro ⟨a', k, hx, hrest⟩
        exact ⟨a', k, .inr hx, hrest⟩
      · rintro ⟨a', k, he | hx, hrest⟩
        · cases he
          exact absurd rfl hji
        · exact ⟨a', k, hx, hrest⟩
  serves p size hm := by
    obtain ⟨x, hx, hs⟩ := h.serves p size hm
    exact ⟨x, .inr hx, hs⟩
  outNodup := h.outNodup

/-- **A block is taken.** -/
theorem take (hi : i < descCnt) {b : ℕ} {rest : List ℕ}
    (hfree : free i = b :: rest) (hsize : size ≤ blockSize i) :
    Blocks A (Function.update free i rest) ((b, size) :: out) := by
  have hb : b ∈ free i := by rw [hfree]; exact List.mem_cons_self
  obtain ⟨a, k, hx, hk, rfl, hout⟩ := (h.mem_free i hi b).1 hb
  have hnodup := h.nodup i hi
  rw [hfree, List.nodup_cons] at hnodup
  refine ⟨h.arenas, fun j hj => ?_, fun j hj c => ?_, fun p sz hm => ?_, ?_⟩
  · by_cases hji : j = i
    · subst hji
      rw [Function.update_self]
      exact hnodup.2
    · rw [Function.update_of_ne hji]
      exact h.nodup j hj
  · simp only [List.map_cons, List.mem_cons, not_or]
    by_cases hji : j = i
    · subst hji
      have hmem := h.mem_free j hj c
      rw [hfree, List.mem_cons] at hmem
      rw [Function.update_self]
      constructor
      · intro hc
        obtain ⟨a', k', hx', hk', rfl, hout'⟩ := hmem.1 (.inr hc)
        exact ⟨a', k', hx', hk', rfl, fun he => hnodup.1 (he ▸ hc), hout'⟩
      · rintro ⟨a', k', hx', hk', rfl, hne, hout'⟩
        exact (hmem.2 ⟨a', k', hx', hk', rfl, hout'⟩).resolve_left hne
    · rw [Function.update_of_ne hji, h.mem_free j hj]
      constructor
      · rintro ⟨a', k', hx', hk', rfl, hout'⟩
        exact ⟨a', k', hx', hk', rfl,
          fun he => hji (h.arena_unique hx' hk' hx hk he).2.1, hout'⟩
      · rintro ⟨a', k', hx', hk', rfl, -, hout'⟩
        exact ⟨a', k', hx', hk', rfl, hout'⟩
  · rcases List.mem_cons.1 hm with he | hm
    · cases he
      exact ⟨_, hx, k, hk, rfl, hsize⟩
    · exact h.serves p sz hm
  · exact List.nodup_cons.2 ⟨hout, h.outNodup⟩

omit h

/-- The pointers that are out after one has come back. -/
def without (out : List (ℕ × ℕ)) (p : ℕ) : List (ℕ × ℕ) := out.filter fun x => x.1 ≠ p

theorem mem_without {q : ℕ} : (q, size) ∈ without out p ↔ (q, size) ∈ out ∧ q ≠ p := by
  simp [without]

theorem mem_map_without {q : ℕ} :
    q ∈ (without out p).map Prod.fst ↔ q ∈ out.map Prod.fst ∧ q ≠ p := by
  simp only [List.mem_map, Prod.exists, mem_without]
  constructor
  · rintro ⟨q', sz, ⟨hm, hne⟩, rfl⟩
    exact ⟨⟨q', sz, hm, rfl⟩, hne⟩
  · rintro ⟨⟨q', sz, hm, rfl⟩, hne⟩
    exact ⟨q', sz, ⟨hm, hne⟩, rfl⟩

theorem nodup_without (h : (out.map Prod.fst).Nodup) : ((without out p).map Prod.fst).Nodup :=
  h.sublist (List.filter_sublist.map Prod.fst)

/-- **A block is put back.** -/
theorem put (h : Blocks A free out) (hx : (a, Kind.small i) ∈ A) (hk : k < perArena i)
    (hm : block a i k ∈ out.map Prod.fst) :
    Blocks A (Function.update free i (free i ++ [block a i k])) (without out (block a i k)) := by
  have hi := h.arenas.small a i hx
  refine ⟨h.arenas, fun j hj => ?_, fun j hj c => ?_, fun p sz hm => ?_, nodup_without h.outNodup⟩
  · by_cases hji : j = i
    · subst hji
      rw [Function.update_self, List.nodup_append]
      refine ⟨h.nodup j hj, List.nodup_singleton _, ?_⟩
      rintro b hb _ hb' rfl
      rw [List.mem_singleton.1 hb'] at hb
      exact h.free_not_out hj hb hm
    · rw [Function.update_of_ne hji]
      exact h.nodup j hj
  · rw [mem_map_without]
    by_cases hji : j = i
    · subst hji
      rw [Function.update_self, List.mem_append, h.mem_free j hj, List.mem_singleton]
      constructor
      · rintro (⟨a', k', hx', hk', rfl, hout⟩ | rfl)
        · exact ⟨a', k', hx', hk', rfl, fun hc => hout hc.1⟩
        · exact ⟨a, k, hx, hk, rfl, fun hc => hc.2 rfl⟩
      · rintro ⟨a', k', hx', hk', rfl, hout⟩
        by_cases he : block a' j k' = block a j k
        · exact .inr he
        · exact .inl ⟨a', k', hx', hk', rfl, fun hc => hout ⟨hc, he⟩⟩
    · rw [Function.update_of_ne hji, h.mem_free j hj]
      constructor
      · rintro ⟨a', k', hx', hk', rfl, hout⟩
        exact ⟨a', k', hx', hk', rfl, fun hc => hout hc.1⟩
      · rintro ⟨a', k', hx', hk', rfl, hout⟩
        exact ⟨a', k', hx', hk', rfl, fun hc => hout ⟨hc, fun he =>
          hji (h.arena_unique hx' hk' hx hk he).2.1⟩⟩
  · exact h.serves p sz (mem_without.1 hm).1

/-- **An arena is given up** when none of its blocks is out. -/
theorem drop (h : Blocks A free out) (hx : (a, Kind.small i) ∈ A)
    (hall : ∀ k < perArena i, block a i k ∉ out.map Prod.fst) :
    Blocks (A \ {(a, .small i)})
      (Function.update free i ((free i).filter fun b => b ∉ blocksOf a i)) out := by
  have hi := h.arenas.small a i hx
  have hpage : ∀ {a' k'}, (a', Kind.small i) ∈ A → k' < perArena i →
      (block a' i k' ∈ blocksOf a i ↔ a' = a) := by
    intro a' k' hx' hk'
    rw [mem_blocksOf]
    constructor
    · rintro ⟨k, hk, he⟩
      exact (h.arena_unique hx' hk' hx hk he).1
    · rintro rfl
      exact ⟨k', hk', rfl⟩
  refine ⟨h.arenas.sub Set.sdiff_subset, fun j hj => ?_, fun j hj c => ?_, fun p sz hm => ?_,
    h.outNodup⟩
  · by_cases hji : j = i
    · subst hji
      rw [Function.update_self]
      exact (h.nodup j hj).filter _
    · rw [Function.update_of_ne hji]
      exact h.nodup j hj
  · by_cases hji : j = i
    · subst hji
      rw [Function.update_self, List.mem_filter, h.mem_free j hj]
      constructor
      · rintro ⟨⟨a', k', hx', hk', rfl, hout⟩, hne⟩
        refine ⟨a', k', ⟨hx', fun he => ?_⟩, hk', rfl, hout⟩
        cases he
        simp [hpage hx' hk'] at hne
      · rintro ⟨a', k', ⟨hx', hne⟩, hk', rfl, hout⟩
        refine ⟨⟨a', k', hx', hk', rfl, hout⟩, ?_⟩
        rw [decide_eq_true_eq, hpage hx' hk']
        rintro rfl
        exact hne rfl
    · rw [Function.update_of_ne hji, h.mem_free j hj]
      constructor
      · rintro ⟨a', k', hx', hrest⟩
        refine ⟨a', k', ⟨hx', fun he => ?_⟩, hrest⟩
        cases he
        exact hji rfl
      · rintro ⟨a', k', ⟨hx', -⟩, hrest⟩
        exact ⟨a', k', hx', hrest⟩
  · obtain ⟨x, hx', hs⟩ := h.serves p sz hm
    refine ⟨x, ⟨hx', ?_⟩, hs⟩
    rintro rfl
    obtain ⟨k, hk, rfl, -⟩ := hs
    exact hall k hk (List.mem_map.2 ⟨_, hm, rfl⟩)

/-- **A large arena.** -/
theorem large (h : Blocks A free out) (hn : 0 < n)
    (hnew : ∀ x ∈ A, ∀ p, Covers (a, .large n) p → ¬ Covers x p)
    (hbig : 1024 < size) (hsize : size + arenaSize ≤ n * pgSize) :
    Blocks (insert (a, .large n) A) free ((a * pgSize + arenaSize, size) :: out) := by
  have hs : Serves (a, .large n) (a * pgSize + arenaSize) size := ⟨rfl, hbig, hsize⟩
  have hfirst : Covers (a, Kind.large n) a := ⟨Nat.le_refl _, Nat.lt_add_of_pos_right hn⟩
  have hout : a * pgSize + arenaSize ∉ out.map Prod.fst :=
    h.not_out fun x hx => hs.page ▸ hnew x hx a hfirst
  refine ⟨⟨fun a' i hx => ?_, fun a' m hx => ?_, fun x hx y hy p hp hp' => ?_⟩, h.nodup,
    fun j hj c => ?_, fun p sz hm => ?_, List.nodup_cons.2 ⟨hout, h.outNodup⟩⟩
  · rcases hx with he | hx
    · cases he
    · exact h.arenas.small a' i hx
  · rcases hx with he | hx
    · cases he
      exact hn
    · exact h.arenas.large a' m hx
  · rcases hx with rfl | hx <;> rcases hy with rfl | hy
    · rfl
    · exact absurd hp' (hnew y hy p hp)
    · exact absurd hp (hnew x hx p hp')
    · exact h.arenas.apart x hx y hy p hp hp'
  · rw [h.mem_free j hj, List.map_cons]
    constructor
    · rintro ⟨a', k, hx, hk, rfl, hout'⟩
      refine ⟨a', k, .inr hx, hk, rfl, ?_⟩
      rw [List.mem_cons, not_or]
      refine ⟨fun he => ?_, hout'⟩
      have ha : a' = a := by rw [← block_div (a := a') hk, he, hs.page]
      exact hnew _ hx a hfirst (covers_small.2 ha.symm)
    · rintro ⟨a', k, he | hx, hk, rfl, hout'⟩
      · cases he
      · exact ⟨a', k, hx, hk, rfl, fun hc => hout' (List.mem_cons_of_mem _ hc)⟩
  · rcases List.mem_cons.1 hm with he | hm
    · cases he
      exact ⟨_, .inl rfl, hs⟩
    · obtain ⟨x, hx, hs'⟩ := h.serves p sz hm
      exact ⟨x, .inr hx, hs'⟩

/-- **A large arena is given up** with its pointer. -/
theorem dropLarge (h : Blocks A free out) (hx : (a, Kind.large n) ∈ A) :
    Blocks (A \ {(a, .large n)}) free (without out (a * pgSize + arenaSize)) := by
  refine ⟨h.arenas.sub Set.sdiff_subset, h.nodup, fun j hj c => ?_, fun p sz hm => ?_,
    nodup_without h.outNodup⟩
  · rw [h.mem_free j hj, mem_map_without]
    constructor
    · rintro ⟨a', k, hx', hk, rfl, hout⟩
      exact ⟨a', k, ⟨hx', fun he => by cases he⟩, hk, rfl, fun hc => hout hc.1⟩
    · rintro ⟨a', k, ⟨hx', -⟩, hk, rfl, hout⟩
      refine ⟨a', k, hx', hk, rfl, fun hc => hout ⟨hc, fun he => ?_⟩⟩
      have ha : a' = a := by
        have hdiv : (a * pgSize + arenaSize) / pgSize = a := by simp only [pgSize, arenaSize]; omega
        rw [← block_div (a := a') hk, he, hdiv]
      have := h.arenas.apart _ hx' _ hx a (covers_small.2 ha.symm) (h.arenas.covers_first hx)
      cases this
  · obtain ⟨hm, hne⟩ := mem_without.1 hm
    obtain ⟨x, hx', hs⟩ := h.serves p sz hm
    refine ⟨x, ⟨hx', ?_⟩, hs⟩
    rintro rfl
    exact hne hs.1

/-! ### Counts -/

theorem mem_slots : k ∈ slots free a i ↔ k < perArena i ∧ block a i k ∈ free i := by
  rw [slots, Finset.mem_filter, Finset.mem_range]

/-- All blocks are on the list exactly when none is out. -/
theorem slots_full (h : Blocks A free out) (hx : (a, Kind.small i) ∈ A) :
    (slots free a i).card = perArena i ↔ ∀ k < perArena i, block a i k ∉ out.map Prod.fst := by
  have hi := h.arenas.small a i hx
  have hcard := Finset.card_filter_eq_iff (s := Finset.range (perArena i))
    (p := fun k => block a i k ∈ free i)
  rw [Finset.card_range] at hcard
  rw [slots, hcard]
  simp only [Finset.mem_range]
  refine forall_congr' fun k => forall_congr' fun hk => ?_
  rw [h.mem_free i hi]
  constructor
  · rintro ⟨-, -, -, -, -, hout⟩
    exact hout
  · exact fun hout => ⟨a, k, hx, hk, rfl, hout⟩

theorem slots_congr {free' : ℕ → List ℕ}
    (h : ∀ k < perArena i, block a i k ∈ free' i ↔ block a i k ∈ free i) :
    slots free' a i = slots free a i :=
  Finset.filter_congr fun k hk => h k (Finset.mem_range.1 hk)

theorem slots_update_ne {j : ℕ} (hji : j ≠ i) (l : List ℕ) :
    slots (Function.update free i l) a j = slots free a j :=
  slots_congr fun k _ => by rw [Function.update_of_ne hji]

theorem slots_grow (free : ℕ → List ℕ) (a i : ℕ) :
    (slots (Function.update free i (free i ++ blocksOf a i)) a i).card = perArena i := by
  have hall : slots (Function.update free i (free i ++ blocksOf a i)) a i =
      Finset.range (perArena i) := by
    refine Finset.filter_true_of_mem fun k hk => ?_
    rw [Function.update_self]
    exact List.mem_append_right _ (mem_blocksOf.2 ⟨k, Finset.mem_range.1 hk, rfl⟩)
  rw [hall, Finset.card_range]

/-- A new arena does not count for another. -/
theorem slots_grow_ne {a' : ℕ} (ha : a' ≠ a) :
    slots (Function.update free i (free i ++ blocksOf a i)) a' i = slots free a' i := by
  refine slots_congr fun k hk => ?_
  rw [Function.update_self, List.mem_append, or_iff_left]
  intro hc
  obtain ⟨k', hk', he⟩ := mem_blocksOf.1 hc
  exact ha (by rw [← block_div (a := a') hk, he, block_div hk'])

theorem slots_take {rest : List ℕ} (hfree : free i = block a i k :: rest) (hk : k < perArena i)
    (hnodup : (free i).Nodup) :
    (slots (Function.update free i rest) a i).card + 1 = (slots free a i).card := by
  rw [hfree, List.nodup_cons] at hnodup
  have herase : slots (Function.update free i rest) a i = (slots free a i).erase k := by
    ext k'
    rw [Finset.mem_erase, mem_slots, mem_slots, Function.update_self, hfree, List.mem_cons]
    constructor
    · rintro ⟨hk', hm⟩
      exact ⟨fun he => hnodup.1 (he ▸ hm), hk', .inr hm⟩
    · rintro ⟨hne, hk', he | hm⟩
      · exact absurd (block_inj he) hne
      · exact ⟨hk', hm⟩
  rw [herase, Finset.card_erase_add_one]
  rw [mem_slots, hfree]
  exact ⟨hk, List.mem_cons_self⟩

theorem slots_take_ne {rest : List ℕ} {a' : ℕ} (ha : a' ≠ a) (hk : k < perArena i)
    (hfree : free i = block a i k :: rest) :
    slots (Function.update free i rest) a' i = slots free a' i := by
  refine slots_congr fun k' hk' => ?_
  rw [Function.update_self, hfree, List.mem_cons, or_iff_right]
  intro he
  exact ha (by rw [← block_div (a := a') hk', he, block_div hk])

theorem slots_put (hk : k < perArena i) (hm : block a i k ∉ free i) :
    (slots (Function.update free i (free i ++ [block a i k])) a i).card =
      (slots free a i).card + 1 := by
  have hinsert : slots (Function.update free i (free i ++ [block a i k])) a i =
      insert k (slots free a i) := by
    ext k'
    rw [Finset.mem_insert, mem_slots, mem_slots, Function.update_self, List.mem_append,
      List.mem_singleton]
    constructor
    · rintro ⟨hk', hm | he⟩
      · exact .inr ⟨hk', hm⟩
      · exact .inl (block_inj he)
    · rintro (rfl | ⟨hk', hm⟩)
      · exact ⟨hk, .inr rfl⟩
      · exact ⟨hk', .inl hm⟩
  rw [hinsert, Finset.card_insert_of_notMem]
  rw [mem_slots]
  exact fun hc => hm hc.2

theorem slots_put_ne {a' : ℕ} (ha : a' ≠ a) (hk : k < perArena i) :
    slots (Function.update free i (free i ++ [block a i k])) a' i = slots free a' i := by
  refine slots_congr fun k' hk' => ?_
  rw [Function.update_self, List.mem_append, List.mem_singleton, or_iff_left]
  intro he
  exact ha (by rw [← block_div (a := a') hk', he, block_div hk])

theorem slots_drop_ne {a' : ℕ} (ha : a' ≠ a) :
    slots (Function.update free i ((free i).filter fun b => b ∉ blocksOf a i)) a' i =
      slots free a' i := by
  refine slots_congr fun k' hk' => ?_
  rw [Function.update_self, List.mem_filter, and_iff_left]
  rw [decide_eq_true_eq, mem_blocksOf]
  rintro ⟨k, hk, he⟩
  exact ha (by rw [← block_div (a := a') hk', he, block_div hk])

/-! ### No overlap -/

/-- Two blocks of an arena do not overlap. -/
theorem block_apart (a i : ℕ) {k' : ℕ} (hne : k ≠ k') :
    block a i k + blockSize i ≤ block a i k' ∨ block a i k' + blockSize i ≤ block a i k := by
  rw [block_eq, block_eq]
  rcases Nat.lt_or_gt_of_ne hne with hlt | hlt
  · left
    have := Nat.mul_le_mul_right (blockSize i) (Nat.succ_le_of_lt hlt)
    rw [Nat.succ_mul] at this
    omega
  · right
    have := Nat.mul_le_mul_right (blockSize i) (Nat.succ_le_of_lt hlt)
    rw [Nat.succ_mul] at this
    omega

/-- What two different arenas give away does not overlap. -/
theorem apart_of_ne (h : Blocks A free out) {x y : ℕ × Kind} {q sz : ℕ} (hx : x ∈ A) (hy : y ∈ A)
    (hne : x ≠ y) (hp : Serves x p size) (hq : Serves y q sz) (hs : 0 < size) (hz : 0 < sz) :
    p + size ≤ q ∨ q + sz ≤ p := by
  by_contra hc
  rw [not_or, Nat.not_le, Nat.not_le] at hc
  -- the larger start is a byte of both
  rcases Nat.le_total p q with hle | hle
  · exact hne (h.arenas.apart x hx y hy (q / pgSize) (hp.covers hle hc.1)
      (hq.covers (Nat.le_refl q) (by omega)))
  · exact hne (h.arenas.apart x hx y hy (p / pgSize) (hp.covers (Nat.le_refl p) (by omega))
      (hq.covers hle hc.2))

/-- **What belongs to somebody does not overlap.** -/
theorem disjoint (h : Blocks A free out) {q sz : ℕ} (hp : (p, size) ∈ out) (hq : (q, sz) ∈ out)
    (hne : p ≠ q) (hs : 0 < size) (hz : 0 < sz) : p + size ≤ q ∨ q + sz ≤ p := by
  obtain ⟨x, hx, hsp⟩ := h.serves p size hp
  obtain ⟨y, hy, hsq⟩ := h.serves q sz hq
  by_cases hxy : x = y
  · subst hxy
    obtain ⟨a, κ⟩ := x
    cases κ with
    | small i =>
      obtain ⟨k, hk, rfl, hsize⟩ : ∃ k < perArena i, p = block a i k ∧ size ≤ blockSize i := hsp
      obtain ⟨k', hk', rfl, hsz⟩ : ∃ k < perArena i, q = block a i k ∧ sz ≤ blockSize i := hsq
      have := block_apart a i fun he : k = k' => hne (by rw [he])
      omega
    | large n => exact absurd (hsp.1.trans hsq.1.symm) hne
  · exact h.apart_of_ne hx hy hxy hsp hsq hs hz

/-- It does not overlap with what is on the free lists. -/
theorem disjoint_free (h : Blocks A free out) {b : ℕ} (hp : (p, size) ∈ out) (hi : i < descCnt)
    (hb : b ∈ free i) (hs : 0 < size) : p + size ≤ b ∨ b + blockSize i ≤ p := by
  obtain ⟨x, hx, hsp⟩ := h.serves p size hp
  obtain ⟨a, k, hy, hk, rfl, hout⟩ := (h.mem_free i hi b).1 hb
  by_cases hxy : x = (a, .small i)
  · subst hxy
    obtain ⟨k', hk', rfl, hsize⟩ : ∃ k < perArena i, p = block a i k ∧ size ≤ blockSize i := hsp
    have := block_apart a i fun he : k' = k =>
      hout (List.mem_map.2 ⟨_, hp, by rw [he]⟩)
    omega
  · exact h.apart_of_ne hx hy hxy hsp ⟨k, hk, rfl, Nat.le_refl _⟩ hs (blockSize_pos i)

end Blocks

end X86Os.Mem
