import X86Os.Fs.Dir
import X86Os.Fs.View

/-!
# The tree of directories

Releasing an inode is safe only if no directory entry refers to it afterwards, so ownership of
blocks depends on what is in the directories. `Tree` is the abstract tree: which inode numbers are
live, whether each is a file or a directory, and which directory it is in. `DirOk` ties a directory
on disk to it.

Entries are told apart by position, not by name. The first two entries of the first block are `.`
and `..`; every other entry in use belongs to a child. Names would not do: when `search_dir_entry`
gets no memory it reports a name as absent, and the caller may then create it a second time, `.`
included. For the same reason a directory may have fewer entries than children: past the twelfth
block `sync_dir_entry` starts a new indirect table each time and drops the old one. Only the size of
the directory counts every child, and that is what `sys_rmdir` looks at.
-/

namespace X86Os

/-! ### Entries -/

namespace DirEntry

/-- The entry with nothing after its sixteen bytes of name. -/
def trunc (e : DirEntry) : DirEntry :=
  { e with filename := fun k => if k < 16 then e.filename k else 0 }

/-- A cleared entry. -/
def blank : DirEntry := ⟨fun _ => 0, 0, 0⟩

end DirEntry

/-- Entry `i` of a sector, as far as its own bytes. -/
def cell (b : Buf) (i : ℕ) : DirEntry := (entryAt b i).trunc

theorem Buf.toWords_of_bytes {b : Buf} {j : ℕ} {w : Word}
    (h : ∀ r < 4, b (4 * j + r) = Buf.wordByte w r) : b.toWords j = w := by
  rw [Buf.toWords, show b (4 * j) = Buf.wordByte w 0 from h 0 (by omega), h 1 (by omega),
    h 2 (by omega), h 3 (by omega), Buf.word_wordByte]

/-- An entry is made of its own 24 bytes. -/
theorem cell_congr {b b' : Buf} {i : ℕ} (h : ∀ k < 24, b (24 * i + k) = b' (24 * i + k)) :
    cell b i = cell b' i := by
  have hw : ∀ j, 4 ≤ j → j < 6 → b.toWords (6 * i + j) = b'.toWords (6 * i + j) := by
    intro j h1 h2
    refine Buf.toWords_congr fun k h3 h4 => ?_
    rw [show k = 24 * i + (k - 24 * i) by omega]
    exact h _ (by omega)
  simp only [cell, entryAt, DirEntry.trunc, dirEntrySize, hw 4 (by omega) (by omega),
    hw 5 (by omega) (by omega), DirEntry.mk.injEq, and_true]
  funext k
  split
  · exact h k (by omega)
  · rfl

theorem cell_of_toBytes {b : Buf} {i : ℕ} {e : DirEntry}
    (h : ∀ k < 24, b (24 * i + k) = e.toBytes k) : cell b i = e.trunc := by
  have hw : ∀ j, 4 ≤ j → j < 6 → b.toWords (6 * i + j) = if j = 4 then e.iNo else e.fType := by
    intro j h1 h2
    refine Buf.toWords_of_bytes fun r hr => ?_
    rw [show 4 * (6 * i + j) + r = 24 * i + (4 * j + r) by omega, h _ (by omega),
      DirEntry.toBytes, if_neg (by omega), Buf.ofWords, show (4 * j + r) / 4 = j by omega,
      show (4 * j + r) % 4 = r by omega]
  have h4 := hw 4 (by omega) (by omega)
  have h5 := hw 5 (by omega) (by omega)
  rw [if_pos rfl] at h4
  rw [if_neg (by omega)] at h5
  simp only [cell, entryAt, DirEntry.trunc, dirEntrySize, h4, h5, DirEntry.mk.injEq, and_true]
  funext k
  split
  · rename_i hk
    rw [h k (by omega), DirEntry.toBytes, if_pos hk]
  · rfl

theorem cell_zero (i : ℕ) : cell (fun _ => 0) i = .blank := by
  have hw : ∀ j, Buf.toWords (fun _ => 0) j = 0 := fun _ => by rw [Buf.toWords]; decide
  simp only [cell, entryAt, DirEntry.trunc, hw, DirEntry.blank, ite_self]

/-- **A sector with one entry written.** -/
theorem cell_splice (b : Buf) (e : DirEntry) (i j : ℕ) :
    cell (b.splice (24 * i) e.toBytes 24) j = if j = i then e.trunc else cell b j := by
  split
  · rename_i hj
    subst hj
    exact cell_of_toBytes fun k hk => Buf.splice_add hk
  · exact cell_congr fun k hk => Buf.splice_of_not_mem (by omega)

/-- **A sector with one entry cleared.** -/
theorem cell_splice_zero (b : Buf) (i j : ℕ) :
    cell (b.splice (24 * i) (fun _ => 0) 24) j = if j = i then .blank else cell b j := by
  split
  · rename_i hj
    subst hj
    rw [← cell_zero j]
    exact cell_congr fun k hk => Buf.splice_add hk
  · exact cell_congr fun k hk => Buf.splice_of_not_mem (by omega)

/-! ### Names -/

/-- A component of a path that fits into an entry. -/
structure PlainName (name : List Byte) : Prop where
  ne_nil : name ≠ []
  ne_zero : ∀ c ∈ name, c ≠ 0
  length_lt : name.length < 16

theorem strEq_congr {name : List Byte} : ∀ {b b' : Buf}, (∀ k ≤ name.length, b k = b' k) →
    strEq b name = strEq b' name := by
  induction name with
  | nil => intro b b' h; rw [strEq, strEq, h 0 (Nat.le_refl _)]
  | cons c cs ih =>
    intro b b' h
    rw [strEq, strEq, h 0 (Nat.zero_le _),
      ih fun k hk => h (k + 1) (by rw [List.length_cons]; omega)]

/-- A buffer is equal to at most one string. -/
theorem strEq_inj {x : List Byte} : ∀ {y : List Byte} {b : Buf}, (∀ c ∈ x, c ≠ 0) →
    (∀ c ∈ y, c ≠ 0) → strEq b x = true → strEq b y = true → x = y := by
  induction x with
  | nil =>
    intro y b _ hy hx hby
    cases y with
    | nil => rfl
    | cons c cs =>
      simp only [strEq, beq_iff_eq, Bool.and_eq_true] at hx hby
      exact absurd (hby.1.symm.trans hx) (hy c List.mem_cons_self)
  | cons c cs ih =>
    intro y b hx hy hbx hby
    cases y with
    | nil =>
      simp only [strEq, beq_iff_eq, Bool.and_eq_true] at hbx hby
      exact absurd (hbx.1.symm.trans hby) (hx c List.mem_cons_self)
    | cons c' cs' =>
      simp only [strEq, beq_iff_eq, Bool.and_eq_true] at hbx hby
      rw [← hbx.1, ← hby.1, ih (fun a ha => hx a (List.mem_cons_of_mem _ ha))
        (fun a ha => hy a (List.mem_cons_of_mem _ ha)) hbx.2 hby.2]

theorem strEq_trunc {e : DirEntry} {name : List Byte} (h : name.length < 16) :
    strEq e.trunc.filename name = strEq e.filename name :=
  strEq_congr fun k hk => if_pos (by omega)

theorem strEq_nonempty {b : Buf} {name : List Byte} (hn : PlainName name) (h : b 0 = 0) :
    strEq b name = false := by
  cases name with
  | nil => exact absurd rfl hn.ne_nil
  | cons c cs =>
    rw [strEq, h, beq_false_of_ne (hn.ne_zero c List.mem_cons_self).symm, Bool.false_and]

theorem plainName_dot : PlainName dot := ⟨by decide, by decide, by decide⟩

theorem plainName_dotDot : PlainName dotDot := ⟨by decide, by decide, by decide⟩

/-! ### The tree -/

/-- Which inode numbers are live, what they are, and which directory they are in. -/
structure Tree where
  live : Finset ℕ
  kind : ℕ → FileType
  home : ℕ → ℕ

namespace Tree

/-- The inodes in a directory. The root is in none. -/
def children (G : Tree) (d : ℕ) : Finset ℕ := G.live.filter fun m => m ≠ 0 ∧ G.home m = d

variable {G : Tree} {d : ℕ}

theorem mem_children {m : ℕ} : m ∈ G.children d ↔ m ∈ G.live ∧ m ≠ 0 ∧ G.home m = d :=
  Finset.mem_filter

end Tree

/-- Every live inode but the root is in another live directory. -/
structure TreeOk (G : Tree) : Prop where
  root : 0 ∈ G.live
  kind_root : G.kind 0 = .directory
  home_root : G.home 0 = 0
  home : ∀ n ∈ G.live, G.home n ∈ G.live ∧ G.kind (G.home n) = .directory
  home_ne : ∀ n ∈ G.live, n ≠ 0 → G.home n ≠ n
  known : ∀ n ∈ G.live, G.kind n ≠ .unknown

/-! ### Directories and files on disk -/

theorem dirEntrysPerSec_eq (part : Partition) : dirEntrysPerSec part = 21 := by
  rw [dirEntrysPerSec, part.dirEntrySize_eq]

namespace View

/-- Entry `i` of block `k` of directory `d`. -/
def cell (v : View) (d k i : ℕ) : DirEntry := X86Os.cell (v.data (v.slot d k).toNat) i

/-- Entry `i` of block `k` is in use, and neither of the first two. -/
structure IsChild (v : View) (d k i : ℕ) : Prop where
  block : k < 140
  entry : i < 21
  later : k = 0 → 2 ≤ i
  slot : v.slot d k ≠ 0
  fType : (v.cell d k i).fType ≠ 0

end View

/-- The entry is the name for the directory `n`. -/
structure DirEntry.IsDir (e : DirEntry) (name : List Byte) (n : ℕ) : Prop where
  name : strEq e.filename name = true
  iNo : e.iNo = BitVec.ofNat 32 n
  fType : e.fType = FileType.directory.code

/-- What is in directory `d` is what the tree says, apart from children without an entry. -/
structure DirOk (G : Tree) (v : View) (d : ℕ) : Prop where
  first : v.slot d 0 ≠ 0
  dot : (v.cell d 0 0).IsDir dot d
  dotDot : (v.cell d 0 1).IsDir dotDot (G.home d)
  free : ∀ k < 140, v.slot d k ≠ 0 → ∀ i < 21, (v.cell d k i).fType = 0 →
    (v.cell d k i).filename 0 = 0
  child : ∀ k i, v.IsChild d k i → ∃ m ∈ G.children d,
    (v.cell d k i).iNo = BitVec.ofNat 32 m ∧ (v.cell d k i).fType = (G.kind m).code
  uniq : ∀ k i k' i', v.IsChild d k i → v.IsChild d k' i' →
    (v.cell d k i).iNo = (v.cell d k' i').iNo → k = k' ∧ i = i'
  size : (v.node d).iSize = BitVec.ofNat 32 (24 * (2 + (G.children d).card))

/-- A file has as many blocks as its size takes, and one for what comes next. -/
def FileOk (v : View) (n : ℕ) : Prop :=
  ∃ m ≤ 140, (∀ k < 140, v.slot n k ≠ 0 ↔ k < m) ∧ (v.slot n 140 ≠ 0 ↔ 12 < m) ∧
    (m = (v.node n).iSize.toNat / 512 + 1 ∨ m = 0 ∧ (v.node n).iSize = 0)

section

variable {n : ℕ}

theorem eq_of_ofNat {m : ℕ} (hn : n < 4096) (hm : m < 4096)
    (h : BitVec.ofNat 32 n = BitVec.ofNat 32 m) : n = m := by
  have := congrArg BitVec.toNat h
  rw [BitVec.toNat_ofNat, BitVec.toNat_ofNat] at this
  omega

theorem FileType.code_inj {t t' : FileType} (h : t.code = t'.code) : t = t' := by
  cases t <;> cases t' <;> first | rfl | cases h

end

/-! ### The invariant -/

/-- **The invariant of the file system.** `L` are the inodes on the partition and `G` is the tree;
between calls the live inodes of the tree are those in `L`. -/
structure FsInv (part : Partition) (L : Finset ℕ) (G : Tree) (v : View) : Prop where
  own : Own part L v
  no : ∀ n ∈ L, (v.node n).iNo = BitVec.ofNat 32 n
  lt : ∀ n ∈ L, n < 4096
  dirs : ∀ d ∈ L, G.kind d = .directory → DirOk G v d
  files : ∀ n ∈ L, G.kind n = .regular → FileOk v n
  tree : TreeOk G

/-! ### Looking names up -/

namespace View

variable (part : Partition) (v : View)

/-- The entry that a name has in directory `d`. -/
def lookup (d : ℕ) (name : List Byte) : Option DirEntry :=
  (List.range 140).findSome? fun k =>
    if v.slot d k = 0 then none else findEntry part (v.data (v.slot d k).toNat) name

/-- The directory that a path from directory `d` leads to. -/
def resolve : List (List Byte) → ℕ → Option ℕ
  | [], d => some d
  | name :: ns, d =>
    match v.lookup part d name with
    | none => none
    | some e => if e.fType = FileType.directory.code then resolve ns e.iNo.toNat else none

end View

section

variable {part : Partition} {v : View} {G : Tree} {d : ℕ} {name : List Byte} {e : DirEntry}

/-- The first component of a path that leads somewhere is a directory. -/
theorem View.resolve_cons {ns : List (List Byte)} {d' : ℕ}
    (h : v.resolve part (name :: ns) d = some d') : ∃ e, v.lookup part d name = some e ∧
      e.fType = FileType.directory.code ∧ v.resolve part ns e.iNo.toNat = some d' := by
  rw [resolve] at h
  cases hl : v.lookup part d name with
  | none =>
    rw [hl] at h
    cases h
  | some e =>
    rw [hl] at h
    simp only at h
    split at h
    · rename_i ht
      exact ⟨e, rfl, ht, h⟩
    · cases h

/-- What a sector has under a name is the first entry with that name. -/
theorem findEntry_eq_some {b : Buf} (h : findEntry part b name = some e) :
    ∃ i < 21, e = entryAt b i ∧ strEq (entryAt b i).filename name = true ∧
      ∀ j < i, strEq (entryAt b j).filename name = false := by
  rw [findEntry, dirEntrysPerSec_eq, Option.map_eq_some_iff] at h
  obtain ⟨i, hi, rfl⟩ := h
  rw [List.find?_range_eq_some] at hi
  obtain ⟨h1, h2, h3⟩ := hi
  exact ⟨i, List.mem_range.1 h2, rfl, h1, fun j hj => by simpa using h3 j hj⟩

theorem findEntry_eq_none {b : Buf} (h : findEntry part b name = none) :
    ∀ i < 21, strEq (entryAt b i).filename name = false := by
  rw [findEntry, dirEntrysPerSec_eq, Option.map_eq_none_iff, List.find?_eq_none] at h
  exact fun i hi => by simpa using h i (List.mem_range.2 hi)

/-- A name is found at some entry, and not before the first block was searched for it. -/
theorem lookup_eq_some (h : v.lookup part d name = some e) (h0 : v.slot d 0 ≠ 0) :
    ∃ k < 140, ∃ i < 21, v.slot d k ≠ 0 ∧ e = entryAt (v.data (v.slot d k).toNat) i ∧
      strEq e.filename name = true ∧
      ∀ j < 21, k = 0 ∧ i ≤ j ∨
        strEq (entryAt (v.data (v.slot d 0).toNat) j).filename name = false := by
  rw [View.lookup, show List.range 140 = 0 :: (List.range 139).map Nat.succ from
    List.range_succ_eq_map, List.findSome?_cons, if_neg h0] at h
  cases hf : findEntry part (v.data (v.slot d 0).toNat) name with
  | some e' =>
    rw [hf] at h
    obtain rfl := Option.some.inj h
    obtain ⟨i, hi, rfl, hname, hbefore⟩ := findEntry_eq_some hf
    refine ⟨0, by omega, i, hi, h0, rfl, hname, fun j _ => ?_⟩
    rcases Nat.lt_or_ge j i with hj | hj
    · exact Or.inr (hbefore j hj)
    · exact Or.inl ⟨rfl, hj⟩
  | none =>
    rw [hf] at h
    obtain ⟨k, hk, hek⟩ := List.exists_of_findSome?_eq_some h
    have hk' : k < 140 := by
      obtain ⟨j, hj, rfl⟩ := List.mem_map.1 hk
      have := List.mem_range.1 hj
      omega
    split at hek
    · cases hek
    · rename_i hs
      obtain ⟨i, hi, rfl, hname, -⟩ := findEntry_eq_some hek
      exact ⟨k, hk', i, hi, hs, rfl, hname, fun j hj => Or.inr (findEntry_eq_none hf j hj)⟩

/-- **What a lookup finds**: the directory itself under `.`, the directory it is in under `..`, and
an entry of a child under any other name. -/
theorem DirOk.lookup (h : DirOk G v d) (hn : PlainName name)
    (hl : v.lookup part d name = some e) :
    (name = X86Os.dot ∧ e.iNo = BitVec.ofNat 32 d ∧ e.fType = FileType.directory.code) ∨
    (name = X86Os.dotDot ∧ e.iNo = BitVec.ofNat 32 (G.home d) ∧
      e.fType = FileType.directory.code) ∨
    name ≠ X86Os.dot ∧ name ≠ X86Os.dotDot ∧ ∃ k i, v.IsChild d k i ∧
      e.iNo = (v.cell d k i).iNo ∧ e.fType = (v.cell d k i).fType ∧
      (v.cell d k i).counts = true ∧ strEq (v.cell d k i).filename name = true := by
  obtain ⟨k, hk, i, hi, hs, rfl, hname, hfirst⟩ := lookup_eq_some hl h.first
  have hcell : ∀ {x : List Byte}, x.length < 16 →
      strEq (v.cell d k i).filename x = strEq (entryAt (v.data (v.slot d k).toNat) i).filename x :=
    fun hx => strEq_trunc hx
  have hdots : ∀ {x : List Byte} {j : ℕ}, j < 21 → PlainName x → strEq (v.cell d 0 j).filename x →
      name = x → k = 0 ∧ i ≤ j := by
    rintro x j hj hx hxj rfl
    refine (hfirst j hj).resolve_right fun hf => ?_
    rw [View.cell, cell, strEq_trunc hx.length_lt, hf] at hxj
    cases hxj
  -- the first two entries have no other names
  have hother : ∀ {x : List Byte}, PlainName x → strEq (v.cell d k i).filename x → name = x := by
    intro x hx hxk
    rw [hcell hx.length_lt] at hxk
    exact strEq_inj hn.ne_zero hx.ne_zero hname hxk
  by_cases h1 : name = X86Os.dot
  · obtain ⟨rfl, hi0⟩ := hdots (by omega) plainName_dot h.dot.name h1
    obtain rfl : i = 0 := by omega
    exact Or.inl ⟨h1, h.dot.iNo, h.dot.fType⟩
  by_cases h2 : name = X86Os.dotDot
  · obtain ⟨rfl, hi1⟩ := hdots (by omega) plainName_dotDot h.dotDot.name h2
    obtain rfl : i = 1 := by
      rcases Nat.lt_or_ge i 1 with hi0 | hi0
      · obtain rfl : i = 0 := by omega
        exact absurd (hother plainName_dot h.dot.name) h1
      · omega
    exact Or.inr (Or.inl ⟨h2, h.dotDot.iNo, h.dotDot.fType⟩)
  · have hf : (v.cell d k i).fType ≠ 0 := by
      intro hf
      have hz := strEq_nonempty hn (h.free k hk hs i hi hf)
      rw [hcell hn.length_lt, hname] at hz
      cases hz
    have hdot : strEq (v.cell d k i).filename X86Os.dot = false := by
      rw [Bool.eq_false_iff]
      exact fun hx => h1 (hother plainName_dot hx)
    have hdotDot : strEq (v.cell d k i).filename X86Os.dotDot = false := by
      rw [Bool.eq_false_iff]
      exact fun hx => h2 (hother plainName_dotDot hx)
    refine Or.inr (Or.inr ⟨h1, h2, k, i, ⟨hk, hi, ?_, hs, hf⟩, rfl, rfl, ?_,
      (hcell hn.length_lt).trans hname⟩)
    · rintro rfl
      by_contra hlt
      obtain rfl | rfl : i = 0 ∨ i = 1 := by omega
      · rw [h.dot.name] at hdot
        cases hdot
      · rw [h.dotDot.name] at hdotDot
        cases hdotDot
    · rw [DirEntry.counts, hdot, hdotDot, bne_iff_ne.2 hf]
      rfl

end

end X86Os
