import Mathlib.Data.List.TakeWhile
import X86Os.Fs.Syscall
import X86Os.Fs.View

/-!
# Paths and lookups

Two things a lookup is made of: the components of a path, and the entry that a name has in a
directory.

`path_parse` is called over and over on what it left, so the components are what is between runs of
slashes. The searched path that `search_file` keeps is the components joined with slashes, and
taking it apart again gives the components back.

`search_dir_entry` goes through the blocks of a directory in order. It either finds what
`dirLookup` says, or gets no memory and reports the name as absent. Everything that can stop it is
a request for memory that fails or a block address beyond the end of the disk, and the statements
here say so, whatever is done about it.
-/

namespace X86Os

open X86Os.Comp FsState

/-! ### Paths -/

/-- A component of a path. -/
structure IsName (name : List Byte) : Prop where
  ne_nil : name ≠ []
  no_slash : ∀ c ∈ name, c ≠ slash

/-- Components joined, with a slash before each. -/
def joinPath (l : List (List Byte)) : List Byte := l.flatMap (slash :: ·)

/-- How `path_parse` takes a path apart: slashes, a component, and a rest that is empty or starts
with a slash. -/
theorem pathParse_split (p : List Byte) : ∃ sl n rest, p = sl ++ (n ++ rest) ∧
    (∀ c ∈ sl, c = slash) ∧ (∀ c ∈ n, c ≠ slash) ∧ (rest = [] ∨ ∃ t, rest = slash :: t) ∧
    (n = [] → rest = []) ∧ pathParse p = (n, if rest.isEmpty then none else some rest) := by
  have hhead : ∀ {q : Byte → Bool} {l : List Byte} {c : Byte} {t : List Byte},
      l.dropWhile q = c :: t → q c = false := fun {q l c t} h => by
    have := List.head?_dropWhile_not q l
    rw [h] at this
    simpa using this
  refine ⟨p.takeWhile (· == slash), (p.dropWhile (· == slash)).takeWhile (· != slash),
    (p.dropWhile (· == slash)).dropWhile (· != slash), ?_, fun c hc => ?_, fun c hc => ?_, ?_,
    fun hn => ?_, rfl⟩
  · rw [List.takeWhile_append_dropWhile, List.takeWhile_append_dropWhile]
  · simpa using List.mem_takeWhile_imp hc
  · simpa using List.mem_takeWhile_imp hc
  · cases hr : (p.dropWhile (· == slash)).dropWhile (· != slash) with
    | nil => exact .inl rfl
    | cons c t =>
      have := hhead hr
      simp only [bne_eq_false_iff_eq] at this
      exact .inr ⟨t, by rw [this]⟩
  · -- without a component there is nothing after the slashes
    cases hp : p.dropWhile (· == slash) with
    | nil => rfl
    | cons c t =>
      have hc := hhead hp
      simp only [beq_eq_false_iff_ne] at hc
      rw [hp, List.takeWhile_cons_of_pos (by simpa using hc)] at hn
      cases hn

theorem mem_pathNames {name : List Byte} (fuel : ℕ) : ∀ {p : List Byte}, name ∈ pathNames fuel p →
    IsName name ∧ ∀ c ∈ name, c ∈ p := by
  induction fuel with
  | zero => exact fun h => absurd h List.not_mem_nil
  | succ fuel ih =>
    intro p hm
    obtain ⟨sl, n, rest, rfl, -, hn, -, -, hparse⟩ := pathParse_split p
    rw [pathNames, hparse] at hm
    have hself : n ≠ [] → IsName n ∧ ∀ c ∈ n, c ∈ sl ++ (n ++ rest) := fun h0 =>
      ⟨⟨h0, hn⟩, fun c hc => List.mem_append_right _ (List.mem_append_left _ hc)⟩
    cases n with
    | nil => exact absurd hm List.not_mem_nil
    | cons c n =>
      cases rest with
      | nil =>
        obtain rfl := List.mem_singleton.1 hm
        exact hself (by simp)
      | cons c' rest =>
        rcases List.mem_cons.1 hm with rfl | hm
        · exact hself (by simp)
        · obtain ⟨h1, h2⟩ := ih hm
          exact ⟨h1, fun x hx => List.mem_append_right _ (List.mem_append_right _ (h2 x hx))⟩

theorem isName_of_mem_names {name p : List Byte} (h : name ∈ names p) : IsName name :=
  (mem_pathNames _ h).1

/-- A component of a string that is short enough fits into an entry. -/
theorem mem_of_mem_names {name p : List Byte} (h : name ∈ names p) {c : Byte} (hc : c ∈ name) :
    c ∈ p := (mem_pathNames _ h).2 c hc

theorem joinPath_cons (n : List Byte) (l : List (List Byte)) :
    joinPath (n :: l) = slash :: (n ++ joinPath l) := rfl

theorem joinPath_append (l l' : List (List Byte)) :
    joinPath (l ++ l') = joinPath l ++ joinPath l' :=
  List.flatMap_append

theorem joinPath_singleton (n : List Byte) : joinPath [n] = slash :: n := by
  rw [joinPath_cons, joinPath, List.flatMap_nil, List.append_nil]

theorem pathParse_joinPath {n : List Byte} (hn : IsName n) (l : List (List Byte)) :
    pathParse (joinPath (n :: l)) =
      (n, if l.isEmpty then none else some (joinPath l)) := by
  have hne : ∀ c ∈ n, (c != slash) = true := fun c hc => by simpa using hn.no_slash c hc
  have hdrop : (joinPath (n :: l)).dropWhile (· == slash) = n ++ joinPath l := by
    rw [joinPath_cons, List.dropWhile_cons_of_pos (by simp)]
    cases n with
    | nil => exact absurd rfl hn.ne_nil
    | cons c n =>
      rw [List.cons_append, List.dropWhile_cons_of_neg]
      simpa using hn.no_slash c List.mem_cons_self
  simp only [pathParse, hdrop]
  rw [List.takeWhile_append_of_pos hne, List.dropWhile_append_of_pos hne]
  cases l with
  | nil => simp [joinPath]
  | cons m l => simp [joinPath_cons]

/-- **Joined components are taken apart again.** -/
theorem pathNames_joinPath {l : List (List Byte)} (hl : ∀ n ∈ l, IsName n) :
    ∀ {fuel : ℕ}, l.length ≤ fuel → pathNames fuel (joinPath l) = l := by
  induction l with
  | nil =>
    intro fuel _
    cases fuel <;> rfl
  | cons n l ih =>
    intro fuel hfuel
    obtain ⟨fuel, rfl⟩ : ∃ k, fuel = k + 1 := ⟨fuel - 1, by rw [List.length_cons] at hfuel; omega⟩
    have hn := hl n List.mem_cons_self
    obtain ⟨c, n', rfl⟩ := List.exists_cons_of_ne_nil hn.ne_nil
    rw [pathNames, pathParse_joinPath hn]
    cases l with
    | nil => rfl
    | cons m l =>
      simp only [List.isEmpty_cons, Bool.false_eq_true, if_false]
      rw [ih (fun x hx => hl x (List.mem_cons_of_mem _ hx))]
      simpa using hfuel

theorem length_le_joinPath (l : List (List Byte)) : l.length ≤ (joinPath l).length := by
  induction l with
  | nil => exact Nat.zero_le _
  | cons n l ih =>
    rw [joinPath_cons, List.length_cons, List.length_cons, List.length_append]
    omega

theorem names_joinPath {l : List (List Byte)} (hl : ∀ n ∈ l, IsName n) : names (joinPath l) = l :=
  pathNames_joinPath hl (length_le_joinPath l)

/-- The searched path is no longer than the path. -/
theorem length_joinPath_pathNames (fuel : ℕ) : ∀ {p : List Byte}, p = [] ∨ p.headD 0 = slash →
    (joinPath (pathNames fuel p)).length ≤ p.length := by
  induction fuel with
  | zero => exact fun _ => Nat.zero_le _
  | succ fuel ih =>
    intro p hp
    obtain ⟨sl, n, rest, rfl, -, hn, hrest, -, hparse⟩ := pathParse_split p
    rw [pathNames, hparse]
    cases n with
    | nil => exact Nat.zero_le _
    | cons c n =>
      have hsl : 0 < sl.length := by
        refine List.length_pos_iff.2 ?_
        rintro rfl
        rcases hp with hp | hp
        · simp at hp
        · exact hn c List.mem_cons_self (by simpa using hp)
      rcases hrest with rfl | ⟨t, rfl⟩
      · simp only [List.isEmpty_nil, if_true, joinPath_singleton, List.length_cons, List.append_nil,
          List.length_append]
        omega
      · have := ih (p := slash :: t) (.inr rfl)
        simp only [List.isEmpty_cons, Bool.false_eq_true, if_false, joinPath_cons, List.length_cons,
          List.length_append] at this ⊢
        omega

theorem baseName_of_no_slash {n : List Byte} (hn : ∀ c ∈ n, c ≠ slash) (p : List Byte) :
    baseName (p ++ slash :: n) = n := by
  have hne : ∀ c ∈ n.reverse, (c != slash) = true := fun c hc => by
    simpa using hn c (List.mem_reverse.1 hc)
  rw [baseName, List.reverse_append, List.reverse_cons, List.append_assoc,
    List.takeWhile_append_of_pos hne]
  simp

/-- `strrchr(path, '/') - path`. -/
def slashPtr (path : List Byte) : ℕ := path.length - (baseName path).length - 1

theorem slashPtr_append {n p : List Byte} (hn : IsName n) :
    slashPtr (p ++ slash :: n) = p.length := by
  rw [slashPtr, baseName_of_no_slash hn.no_slash, List.length_append, List.length_cons]
  omega

/-- The last component of a path that does not end in a slash is what follows its last slash. -/
theorem baseName_eq_of_pathNames (fuel : ℕ) : ∀ {p q : List Byte}, p.length ≤ fuel →
    (∃ t, p = slash :: t) → p.getLastD 0 ≠ slash →
    ∃ done name, pathNames fuel p = done ++ [name] ∧ baseName (q ++ p) = name := by
  induction fuel with
  | zero =>
    rintro p q hp ⟨t, rfl⟩ -
    simp at hp
  | succ fuel ih =>
    intro p q hlen hp hlast
    obtain ⟨sl, n, rest, rfl, hsl, hn, hrest, hempty, hparse⟩ := pathParse_split p
    have hsl0 : sl ≠ [] ∨ n = [] := by
      obtain ⟨t, ht⟩ := hp
      by_contra hcon
      rw [not_or, not_not] at hcon
      obtain ⟨rfl, h0⟩ := hcon
      obtain ⟨c, n', rfl⟩ := List.exists_cons_of_ne_nil h0
      simp only [List.nil_append, List.cons_append, List.cons.injEq] at ht
      exact hn c List.mem_cons_self ht.1
    -- a path of slashes ends in one
    have hall : ∀ l : List Byte, l ≠ [] → (∀ c ∈ l, c = slash) → l.getLastD 0 = slash := by
      intro l hl hc
      rw [List.getLastD_eq_getLast?, List.getLast?_eq_some_getLast hl]
      exact hc _ (List.getLast_mem hl)
    cases n with
    | nil =>
      obtain rfl := hempty rfl
      simp only [List.append_nil] at hp hlast
      obtain ⟨t, rfl⟩ := hp
      exact absurd (hall _ (by simp) hsl) hlast
    | cons c n =>
      have hsl1 : sl ≠ [] := hsl0.resolve_right (by simp)
      rw [pathNames, hparse]
      rcases hrest with rfl | ⟨t, rfl⟩
      · refine ⟨[], c :: n, rfl, ?_⟩
        obtain ⟨sl', x, rfl⟩ : ∃ sl' x, sl = sl' ++ [x] :=
          ⟨sl.dropLast, sl.getLast hsl1, (List.dropLast_append_getLast hsl1).symm⟩
        obtain rfl := hsl x (by simp)
        rw [List.append_nil, List.append_assoc, List.singleton_append, ← List.append_assoc]
        exact baseName_of_no_slash hn _
      · have hlen' : (slash :: t).length ≤ fuel := by
          simp only [List.length_append, List.length_cons] at hlen ⊢
          omega
        have hlast' : (slash :: t).getLastD 0 ≠ slash := by
          rw [List.getLastD_eq_getLast?] at hlast ⊢
          rw [List.getLast?_append, List.getLast?_append, List.getLast?_eq_some_getLast
            (List.cons_ne_nil slash t), Option.some_or, Option.some_or] at hlast
          rwa [List.getLast?_eq_some_getLast (List.cons_ne_nil slash t)]
        obtain ⟨done, name, hd, hb⟩ := ih (q := q ++ (sl ++ (c :: n))) hlen' ⟨t, rfl⟩ hlast'
        refine ⟨(c :: n) :: done, name, ?_, ?_⟩
        · simp only [List.isEmpty_cons, Bool.false_eq_true, if_false, hd, List.cons_append]
        · rw [← hb]
          simp only [List.append_assoc]

theorem baseName_eq {p : List Byte} (hp : ∃ t, p = slash :: t) (hlast : p.getLastD 0 ≠ slash) :
    ∃ done name, names p = done ++ [name] ∧ baseName p = name :=
  baseName_eq_of_pathNames p.length (q := []) (Nat.le_refl _) hp hlast

/-! ### Names in a directory -/

/-- The entry that a name has in the directory with the given inode. -/
def dirLookup (part : Partition) (d : Disk) (inode : Inode) (name : List Byte) : Option DirEntry :=
  (List.range 140).findSome? fun k =>
    if slotAddr inode d.sector k = 0 then none
    else findEntry part (d.sector (slotAddr inode d.sector k).toNat) name

theorem findSome?_congr {α β : Type} {f g : α → Option β} {l : List α} (h : ∀ a ∈ l, f a = g a) :
    l.findSome? f = l.findSome? g := by
  induction l with
  | nil => rfl
  | cons a l ih =>
    rw [List.findSome?_cons, List.findSome?_cons, h a List.mem_cons_self,
      ih fun b hb => h b (List.mem_cons_of_mem _ hb)]

section

variable {part : Partition} {s : FsState} {E : Fault → Prop}

theorem toWords_sector {d : Disk} {a j : ℕ} (hj : j < 128) :
    (d.sector a).toWords j = (d a).toWords j :=
  Buf.toWords_congr fun i _ hi => Disk.sector_of_lt (by omega)

/-- Collecting the block addresses of an inode. -/
theorem allBlocks_wp {inode : Inode} {Q : (ℕ → Word) → FsState → Prop}
    (hE : inode.iSectors 12 ≠ 0 → maxLba < (inode.iSectors 12).toNat → E (.panic .ideRead))
    (hQ : ∀ b : ℕ → Word, (∀ k < 140, b k = slotAddr inode s.disk.sector k) → Q b s) :
    wp (allBlocks inode) Q E s := by
  rw [allBlocks]
  split
  · rename_i h0
    simp only [readTable, wp_bind, wp_onDisk, wp_readSector, wp_pure]
    refine ⟨fun _ => hQ _ fun k hk => ?_, hE h0⟩
    rw [slotAddr]
    by_cases h1 : k < 12
    · rw [if_neg (by omega), if_pos h1, directBlocks, if_pos h1]
    · rw [if_pos (by omega), if_neg h1, if_neg (by omega), if_neg h0]
  · rename_i h0
    rw [ne_eq, not_not] at h0
    refine hQ _ fun k hk => ?_
    rw [slotAddr, directBlocks]
    by_cases h1 : k < 12
    · rw [if_pos h1, if_pos h1]
    · rw [if_neg h1, if_neg h1, if_neg (by omega), if_pos h0]

theorem searchBlocks_wp {blocks : ℕ → Word} {name : List Byte}
    {Q : Option DirEntry → FsState → Prop}
    (left : ℕ) : ∀ {i : ℕ},
    (∀ k, i ≤ k → k < i + left → blocks k ≠ 0 → maxLba < (blocks k).toNat → E (.panic .ideRead)) →
    Q ((List.range' i left).findSome? fun k =>
      if blocks k = 0 then none else findEntry part (s.disk.sector (blocks k).toNat) name) s →
    wp (searchBlocks part blocks name left i) Q E s := by
  induction left with
  | zero => exact fun _ hQ => hQ
  | succ left ih =>
    intro i hE hQ
    rw [List.range'_succ, List.findSome?_cons] at hQ
    have hE' : ∀ k, i + 1 ≤ k → k < i + 1 + left → blocks k ≠ 0 → maxLba < (blocks k).toNat →
        E (.panic .ideRead) := fun k h1 h2 => hE k (by omega) (by omega)
    rw [searchBlocks]
    split
    · rename_i h0
      rw [if_pos h0] at hQ
      exact ih hE' hQ
    · rename_i h0
      rw [if_neg h0] at hQ
      simp only [wp_bind, wp_onDisk, wp_readSector]
      refine ⟨fun _ => ?_, hE i (Nat.le_refl _) (by omega) h0⟩
      cases hf : findEntry part (s.disk.sector (blocks i).toNat) name with
      | some e =>
        rw [hf] at hQ
        exact hQ
      | none =>
        rw [hf] at hQ
        exact ih hE' hQ

/-- The state after some requests for memory. -/
def FsState.afterMallocs (s : FsState) (j : ℕ) : FsState :=
  { s with mallocs := fun k => s.mallocs (k + j) }

/-- **`search_dir_entry`** finds what is there, unless it gets no memory. -/
theorem searchDirEntry_wp {h : ℕ} {name : List Byte} {Q : Option DirEntry → FsState → Prop}
    (hwild : ∀ k, s.mallocs k = false → E .wild)
    (hread : ∀ k ≤ 140, slotAddr (s.inode h) s.disk.sector k ≠ 0 →
      maxLba < (slotAddr (s.inode h) s.disk.sector k).toNat → E (.panic .ideRead))
    (hQ : ∀ j r, (r = dirLookup part s.disk (s.inode h) name ∨
      r = none ∧ ∃ k, s.mallocs k = false) → Q r (s.afterMallocs j)) :
    wp (searchDirEntry part h name) Q E s := by
  have htable : slotAddr (s.inode h) s.disk.sector 140 = (s.inode h).iSectors 12 := by
    rw [slotAddr, if_neg (by omega), if_pos rfl]
  rw [searchDirEntry, wp_bind, wp_sysMalloc]
  split
  · rw [wp_bind, wp_get, wp_bind]
    refine allBlocks_wp ?_ fun b hb => ?_
    · rw [← htable]
      exact hread 140 (Nat.le_refl _)
    · simp only [wp_bind, wp_sysMalloc, wp_check]
      refine ⟨fun _ => ?_, hwild 1⟩
      refine searchBlocks_wp 140 (fun k _ hk h0 hlt => ?_) (hQ 2 _ (Or.inl ?_))
      · rw [hb k (by omega)] at h0 hlt
        exact hread k (by omega) h0 hlt
      · rw [dirLookup, List.range_eq_range']
        refine findSome?_congr fun k hk => ?_
        rw [List.mem_range'_1] at hk
        rw [hb k (by omega)]
  · rename_i hm
    exact hQ 1 none (Or.inr ⟨rfl, 0, by simpa using hm⟩)

end

end X86Os
