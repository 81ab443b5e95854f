import X86Os.Fs.DirAdd

/-!
# Whether a name is found again

The name of a directory entry has sixteen bytes, and `create_dir_entry` accepts a name of sixteen
bytes, which leaves none for the terminator. Behind the name comes the inode number, and `strcmp`
reads on there: the entry of such a name is found under it only if the lowest byte of the number is
0. Otherwise it is found under a longer name, which is the name followed by bytes of the number.

`search_dir_entry` takes the first entry with the name, in use or not, and `sync_dir_entry` the
first place that is not in use, as long as there is one in the direct blocks. So an older entry with
the same name hides the new one if it is among the entries in front of that place.
-/

namespace X86Os

open X86Os.Comp FsState

/-! ### What a search finds -/

namespace View

variable (v : View) (d : ℕ)

/-- The entries of block `k`, in use or not. -/
def placesOf (k : ℕ) : List DirEntry :=
  if v.slot d k = 0 then [] else (List.range 21).map (v.cell d k)

/-- The entries of a directory, in use or not, in the order of a search. -/
def listed : List DirEntry := (List.range 140).flatMap (v.placesOf d)

/-- The entries in front of the first place in a direct block that is not in use. -/
def front : List DirEntry :=
  ((List.range 12).flatMap fun k => if v.slot d k = 0 then [DirEntry.blank]
    else (List.range 21).map (v.cell d k)).takeWhile fun e => e.fType != 0

end View

section

variable {part : Partition} {v v' : View} {d k0 i0 : ℕ} {name : List Byte} {e : DirEntry}

/-- **A search takes the first entry with the name.** -/
theorem View.lookup_named (hn : name.length ≤ 16) : (v.lookup part d name).map DirEntry.trunc =
    (v.listed d).find? fun x => x.named name := by
  rw [lookup, listed, List.map_findSome?, List.find?_flatMap]
  refine findSome?_congr fun k _ => ?_
  rw [Function.comp_apply, placesOf]
  by_cases h0 : v.slot d k = 0
  · rw [if_pos h0, if_pos h0]
    rfl
  · rw [if_neg h0, if_neg h0, findEntry, dirEntrysPerSec_eq, List.find?_map, Option.map_map]
    simp only [Function.comp_def, View.cell, named_cell hn]
    rfl

theorem range_split {k n : ℕ} (h : k < n) :
    List.range n = List.range k ++ k :: List.range' (k + 1) (n - k - 1) := by
  rw [List.range_eq_range', List.range_eq_range', ← List.range'_succ]
  have := List.range'_append_1 (s := 0) (m := k) (n := n - k - 1 + 1)
  rw [Nat.zero_add] at this
  rw [this]
  congr 1
  omega

theorem map_range_split {α : Type*} (f : ℕ → α) {k n : ℕ} (h : k < n) : (List.range n).map f =
    (List.range k).map f ++ f k :: (List.range' (k + 1) (n - k - 1)).map f := by
  rw [range_split h, List.map_append, List.map_cons]

/-- The places in front of entry `i0` of block `k0`, which are in use. -/
theorem Gains.front_eq (hg : Gains v v' d e k0 i0) : v.front d =
    ((List.range k0).flatMap fun k => (List.range 21).map (v.cell d k)) ++
      (List.range i0).map (v.cell d k0) := by
  have hfull : ((List.range k0).flatMap fun k => if v.slot d k = 0 then [DirEntry.blank]
      else (List.range 21).map (v.cell d k)) =
      (List.range k0).flatMap fun k => (List.range 21).map (v.cell d k) := by
    refine List.flatMap_congr fun k hk => if_neg ?_
    exact (hg.first k (List.mem_range.1 hk).le 0 (by omega) (.inl (List.mem_range.1 hk))).2.1
  have hused : ∀ x ∈ ((List.range k0).flatMap fun k => (List.range 21).map (v.cell d k)) ++
      (List.range i0).map (v.cell d k0), (x.fType != 0) = true := by
    intro x hx
    rw [bne_iff_ne]
    rcases List.mem_append.1 hx with hx | hx
    · obtain ⟨k, hk, hx⟩ := List.mem_flatMap.1 hx
      obtain ⟨i, hi, rfl⟩ := List.mem_map.1 hx
      have hk := List.mem_range.1 hk
      exact (hg.first k hk.le i (List.mem_range.1 hi) (.inl hk)).2.2
    · obtain ⟨i, hi, rfl⟩ := List.mem_map.1 hx
      have hi := List.mem_range.1 hi
      exact (hg.first k0 (Nat.le_refl _) i (hi.trans hg.entry) (.inr hi)).2.2
  rw [View.front]
  rcases Nat.lt_or_eq_of_le hg.block with hk0 | rfl
  · -- the next place is not in use
    rw [range_split hk0, List.flatMap_append, hfull, List.flatMap_cons]
    by_cases h0 : v.slot d k0 = 0
    · have hi0 : i0 = 0 := Nat.eq_zero_of_not_pos fun hpos =>
        (hg.first k0 (Nat.le_refl _) 0 (by omega) (.inr hpos)).2.1 h0
      subst hi0
      rw [List.range_zero, List.map_nil, List.append_nil] at hused ⊢
      rw [if_pos h0, List.takeWhile_append_of_pos hused, List.singleton_append,
        List.takeWhile_cons_of_neg (by decide), List.append_nil]
    · have hfree := hg.free hk0 h0
      rw [if_neg h0, map_range_split (v.cell d k0) hg.entry, List.append_assoc,
        ← List.append_assoc, List.takeWhile_append_of_pos hused, List.cons_append,
        List.takeWhile_cons_of_neg (by simp [hfree]), List.append_nil]
  · -- all direct blocks are in use
    have hi0 : i0 = 0 := Nat.eq_zero_of_not_pos fun hpos =>
      Nat.lt_irrefl 12 (hg.first 12 (Nat.le_refl _) 0 (by omega) (.inr hpos)).1
    subst hi0
    rw [List.range_zero, List.map_nil, List.append_nil] at hused ⊢
    rw [hfull, List.takeWhile_eq_self_iff.2 hused]

/-- **Where the new entry is**: behind the entries in front of the first free place. -/
theorem Gains.listed (hg : Gains v v' d e k0 i0) :
    ∃ more, v'.listed d = v.front d ++ e.trunc :: more := by
  have hk0 : k0 < 140 := Nat.lt_of_le_of_lt hg.block (by omega)
  have hbefore : (List.range k0).flatMap (v'.placesOf d) =
      (List.range k0).flatMap fun k => (List.range 21).map (v.cell d k) := by
    refine List.flatMap_congr fun k hk => ?_
    have hk := List.mem_range.1 hk
    obtain ⟨hk12, h0, -⟩ := hg.first k hk.le 0 (by omega) (.inl hk)
    obtain ⟨hs, hc⟩ := hg.kept k (by omega) (.inl hk12) h0
    rw [View.placesOf, hs, if_neg h0]
    exact List.map_congr_left fun i hi => hc i (List.mem_range.1 hi) (by omega)
  have hblock : (List.range i0).map (v'.cell d k0) = (List.range i0).map (v.cell d k0) := by
    refine List.map_congr_left fun i hi => ?_
    have hi := List.mem_range.1 hi
    obtain ⟨hk12, h0, -⟩ := hg.first k0 (Nat.le_refl _) i (hi.trans hg.entry) (.inr hi)
    exact (hg.kept k0 hk0 (.inl hk12) h0).2 i (hi.trans hg.entry) (by omega)
  rw [hg.front_eq, View.listed, range_split hk0, List.flatMap_append, hbefore, List.flatMap_cons,
    View.placesOf, if_neg hg.slot, map_range_split (v'.cell d k0) hg.entry, hblock, hg.cell,
    List.append_assoc, ← List.append_assoc, List.cons_append]
  exact ⟨_, rfl⟩

/-- **What is found afterwards**: an entry in front of the new one, or else the new one if it has
the name. -/
theorem Gains.lookup_named (hg : Gains v v' d e k0 i0) (part : Partition)
    (hn : name.length ≤ 16) : ∃ more, (v'.lookup part d name).map DirEntry.trunc =
      ((v.front d).find? fun x => x.named name).or
        (if e.named name then some e.trunc else more) := by
  obtain ⟨more, hlist⟩ := hg.listed
  refine ⟨more.find? fun x => x.named name, ?_⟩
  rw [View.lookup_named hn, hlist, List.find?_append, List.find?_cons, DirEntry.named_trunc]
  congr 1
  cases e.named name <;> rfl

end

/-! ### What the code finds -/

/-- The entries of the directory with the inode at `h` in front of the first place of a direct block
that is not in use. -/
def frontEntries (s : FsState) (h : ℕ) : List DirEntry :=
  ((List.range 12).flatMap fun k => if (s.inode h).iSectors k = 0 then [DirEntry.blank]
    else (List.range 21).map (cell (s.disk.sector ((s.inode h).iSectors k).toNat))).takeWhile
      fun e => e.fType != 0

/-- The name is found with the number and the type, and no other name leads to the entry `e`. -/
def FoundAgain (part : Partition) (s : FsState) (h : ℕ) (name : List Byte) (e : DirEntry) : Prop :=
  (∃ x, FindsEntry part s h name x ∧ x.iNo = e.iNo ∧ x.fType = e.fType) ∧
  ∀ name', (∀ c ∈ name', c ≠ 0) → name' ≠ name →
    ∀ x, FindsEntry part s h name' x → x.trunc ≠ e.trunc

section

variable {part : Partition} {G : Tree} {L : Finset ℕ} {s s' : FsState} {h d : ℕ}
  {name : List Byte} {inodeNo : Word} {t : FileType}

theorem Working.front_eq (hw : Working part L s h d) :
    frontEntries s h = (s.view part).front d := by
  rw [frontEntries, View.front]
  congr 1
  refine List.flatMap_congr fun k hk => ?_
  have hk := List.mem_range.1 hk
  rw [hw.slot_lt hk]
  by_cases h0 : (s.inode h).iSectors k = 0
  · rw [if_pos h0, if_pos h0]
  · rw [if_neg h0, if_neg h0, funext (hw.cell_lt hk h0)]

/-- What a run that adds an entry for a name has done. -/
theorem createDirEntry_ok {r : Bool}
    (hrun : (createDirEntry name inodeNo t >>= syncDirEntry part h) s = .ok (r, s')) :
    name.length ≤ 16 ∧ syncDirEntry part h (newEntry name inodeNo t) s = .ok (r, s') := by
  obtain ⟨e, s1, hcreate, hsync⟩ := bind_eq_ok.1 hrun
  have hpost : wp (createDirEntry name inodeNo t)
      (fun e s1 => name.length ≤ 16 ∧ e = newEntry name inodeNo t ∧ s1 = s) (fun _ => True) s := by
    simp [createDirEntry, newEntry]
  obtain ⟨hn, rfl, rfl⟩ := hpost.ok hcreate
  exact ⟨hn, hsync⟩

/-- **When a name is found again.** After `create_dir_entry` and a `sync_dir_entry` that succeeds,
the name is found with the new number and type, and no other name is taken for it, exactly if the
name leaves room for its terminator or the lowest byte of the number is one, and no entry in front
of the new one has the name with another number or type. -/
theorem found_again_iff (hs : Sound part G s) (hdisk : BlocksOnDisk part G s)
    (hfree : FreeOnDisk part s.blockBitmap) (ho : ObjectOf G s h d) (hz : ∀ c ∈ name, c ≠ 0)
    (hrun : (createDirEntry name inodeNo t >>= syncDirEntry part h) s = .ok (true, s')) :
    FoundAgain part s' h name (newEntry name inodeNo t) ↔
      (name.length < 16 ∨ inodeNo.toNat % 256 = 0) ∧
      ∀ x, (frontEntries s h).find? (fun x => x.named name) = some x →
        x.iNo = inodeNo ∧ x.fType = t.code := by
  obtain ⟨hn, hrun⟩ := createDirEntry_ok hrun
  have hw := hs.working ho
  obtain ⟨-, hr, -, ⟨-, -, k0, i0, ha⟩⟩ := (syncDirEntry_post hw hs.blockLen).ok hrun
  have hfind' : ∀ {n x}, FindsEntry part s' h n x ↔ (s'.view part).lookup part d n = some x :=
    (ha.edits.working hs ho hr).finds_iff (ha.edits.onDisk hdisk hfree ho)
  obtain ⟨more, hlookup⟩ := ha.lookup_named part hn
  rw [← hw.front_eq] at hlookup
  constructor
  · rintro ⟨⟨x, hx, hno, ht⟩, -⟩
    have hx := hfind'.1 hx
    refine ⟨lowest_byte_of_lookup hn hx hno, fun y hy => ?_⟩
    rw [hx, hy, Option.some_or] at hlookup
    cases hlookup
    exact ⟨hno, ht⟩
  · rintro ⟨hlen, hfront⟩
    have he : (newEntry name inodeNo t).named name = true := (named_newEntry hn).2 hlen
    rw [if_pos he] at hlookup
    refine ⟨?_, fun name' hz' hne x hx htrunc => hne ?_⟩
    · cases hy : (frontEntries s h).find? fun x => x.named name with
      | none =>
        rw [hy, Option.none_or] at hlookup
        obtain ⟨x, hx, htrunc⟩ := Option.map_eq_some_iff.1 hlookup
        exact ⟨x, hfind'.2 hx, same_entry htrunc⟩
      | some y =>
        rw [hy, Option.some_or] at hlookup
        obtain ⟨x, hx, rfl⟩ := Option.map_eq_some_iff.1 hlookup
        exact ⟨x, hfind'.2 hx, hfront x.trunc hy⟩
    · -- an entry with these bytes has the name, and no other
      obtain ⟨b, i, rfl, hname'⟩ := View.of_lookup (hfind'.1 hx)
      have hname : (cell b i).named name = true := by
        rw [cell, htrunc, DirEntry.named_trunc, he]
      rw [named_cell hn] at hname
      exact strEq_inj hz' hz hname' hname

end

/-- The name `f` in the root of a new file system. -/
theorem found_again_small : ∃ s', (createDirEntry [0x66] 253 .regular >>=
      syncDirEntry smallPart smallFs.rootInode) smallFs = .ok (true, s') ∧
    FoundAgain smallPart s' smallFs.rootInode [0x66] (newEntry [0x66] 253 .regular) := by
  obtain ⟨hs, -⟩ := sound_smallFs
  have hrun : (createDirEntry [0x66] 253 .regular >>= syncDirEntry smallPart smallFs.rootInode)
      smallFs = .ok (true, _) := eq_ok_of_value? (by decide +kernel)
  have hnone : (frontEntries smallFs smallFs.rootInode).find? (fun x => x.named [0x66]) = none :=
    Option.isNone_iff_eq_none.1 (by decide +kernel)
  refine ⟨_, hrun, (found_again_iff hs blocksOnDisk_smallFs (freeOnDisk_smallPart _) hs.root
    (by decide) hrun).2 ⟨.inl (by decide), fun x hx => ?_⟩⟩
  rw [hnone] at hx
  cases hx

/-- A name of sixteen bytes. -/
def longName : List Byte := List.replicate 16 0x61

/-- **A name that is not found again.** The entry is found under the name followed by the lowest
byte of its inode number. -/
theorem sixteen_bytes_lost : ∃ s', (createDirEntry longName 1 .regular >>=
      syncDirEntry smallPart smallFs.rootInode) smallFs = .ok (true, s') ∧
    (∀ x, ¬ FindsEntry smallPart s' smallFs.rootInode longName x) ∧
    ∃ x, FindsEntry smallPart s' smallFs.rootInode (longName ++ [1]) x ∧
      (x.iNo == 1 && x.fType == FileType.regular.code) = true := by
  have hrun : (createDirEntry longName 1 .regular >>= syncDirEntry smallPart smallFs.rootInode)
      smallFs = .ok (true, _) := eq_ok_of_value? (by decide +kernel)
  exact ⟨_, hrun, not_finds_of_isNone (by decide +kernel), finds_of_any (by decide +kernel)⟩

end X86Os
