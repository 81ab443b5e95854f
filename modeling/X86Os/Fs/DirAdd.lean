import Mathlib.Data.List.Find
import Mathlib.Data.List.GetD
import X86Os.Fs.DirEdit
import X86Os.Fs.Resolved

/-!
# Names after an entry was added

`search_dir_entry` collects the addresses of all blocks of a directory, the indirect ones included.
`sync_dir_entry` only ever looks at the direct ones. When these are full it takes the first indirect
block for absent, allocates a new table, and writes its address over that of the old one: every name
in the old table's blocks is lost.

For names it matters what is found first. A block finds a name at its first entry with that name, in
use or not, and `findIn` says this for an entry's own bytes. Adding an entry changes no block's
answer for another name, as long as the block survives: the free place that is overwritten has an
empty name, and so have the other places of a new block.

So nothing is lost exactly if there is room in the direct blocks, or every name that the directory
has is found in a direct block.

The name of an entry has sixteen bytes, and `create_dir_entry` accepts a name of sixteen bytes,
which leaves none for the terminator. Behind the name comes the inode number, and `strcmp` reads on
there (`DirEntry.named`): the new name is found only if it is shorter or the lowest byte of the
number is 0.
-/

namespace X86Os

open X86Os.Comp FsState

/-! ### Names of sixteen bytes -/

theorem strEq_iff {name : List Byte} : ∀ {b : Buf}, strEq b name = true ↔
    (∀ k < name.length, b k = name.getD k 0) ∧ b name.length = 0 := by
  induction name with
  | nil =>
    intro b
    rw [strEq, beq_iff_eq]
    exact ⟨fun h => ⟨by simp, h⟩, fun h => h.2⟩
  | cons c cs ih =>
    intro b
    rw [strEq, Bool.and_eq_true, beq_iff_eq, ih]
    constructor
    · rintro ⟨h0, hall, hend⟩
      refine ⟨fun k hk => ?_, hend⟩
      cases k with
      | zero => exact h0
      | succ k => exact hall k (Nat.lt_of_succ_lt_succ hk)
    · rintro ⟨hall, hend⟩
      exact ⟨hall 0 (Nat.succ_pos _), fun k hk => hall (k + 1) (Nat.succ_lt_succ hk), hend⟩

namespace DirEntry

variable {e : DirEntry} {name : List Byte}

/-- Whether `strcmp` takes the name for that of the entry, from the entry's own bytes. -/
def named (e : DirEntry) (name : List Byte) : Bool :=
  strEq (fun k => if k < 16 then e.filename k else Buf.wordByte e.iNo (k - 16)) name

theorem named_trunc (e : DirEntry) (name : List Byte) : e.trunc.named name = e.named name := by
  refine strEq_congr fun k _ => ?_
  dsimp only [trunc]
  split <;> rfl

end DirEntry

theorem wordByte_zero_iff (w : Word) : Buf.wordByte w 0 = 0 ↔ w.toNat % 256 = 0 := by
  rw [← BitVec.toNat_inj, Buf.wordByte, BitVec.extractLsb'_toNat]
  rfl

/-- Behind the name of an entry comes its inode number. -/
theorem entryAt_filename (b : Buf) (i : ℕ) {k : ℕ} (h1 : 16 ≤ k) (h2 : k < 20) :
    (entryAt b i).filename k = Buf.wordByte (entryAt b i).iNo (k - 16) := by
  have hb : b (24 * i + k) = Buf.ofWords b.toWords (24 * i + k) := by rw [Buf.ofWords_toWords]
  rw [Buf.ofWords, show (24 * i + k) / 4 = 6 * i + 4 by omega,
    show (24 * i + k) % 4 = k - 16 by omega] at hb
  exact hb

/-- A name of sixteen bytes or less is compared with the entry's own bytes. -/
theorem named_cell {b : Buf} {i : ℕ} {name : List Byte} (hn : name.length ≤ 16) :
    (cell b i).named name = strEq (entryAt b i).filename name := by
  rw [cell, DirEntry.named_trunc]
  refine strEq_congr fun k hk => ?_
  split
  · rfl
  · exact (entryAt_filename b i (by omega) (by omega)).symm

/-- What `create_dir_entry` makes of a cleared entry. -/
def newEntry (name : List Byte) (inodeNo : Word) (t : FileType) : DirEntry :=
  ⟨fun k => name.getD k 0, inodeNo, t.code⟩

/-- **A new entry has its name**, unless the name has sixteen bytes and runs on into the number. -/
theorem named_newEntry {name : List Byte} {inodeNo : Word} {t : FileType}
    (hn : name.length ≤ 16) : (newEntry name inodeNo t).named name = true ↔
      name.length < 16 ∨ inodeNo.toNat % 256 = 0 := by
  rw [DirEntry.named, strEq_iff]
  have hall : ∀ k < name.length, (if k < 16 then name.getD k 0
      else Buf.wordByte inodeNo (k - 16)) = name.getD k 0 := fun k hk => if_pos (by omega)
  rw [newEntry, and_iff_right hall]
  rcases Nat.lt_or_eq_of_le hn with hlt | heq
  · simp [hlt]
  · rw [heq, if_neg (Nat.lt_irrefl 16), Nat.sub_self, wordByte_zero_iff]
    exact (or_iff_right (Nat.lt_irrefl 16)).symm

/-- A name that `create_dir_entry` accepts. -/
structure FitsName (name : List Byte) : Prop where
  ne_nil : name ≠ []
  ne_zero : ∀ c ∈ name, c ≠ 0
  length_le : name.length ≤ 16

theorem named_of_empty {e : DirEntry} {name : List Byte} (hn : FitsName name)
    (h0 : e.filename 0 = 0) : e.named name = false := by
  cases name with
  | nil => exact absurd rfl hn.ne_nil
  | cons c cs =>
    rw [DirEntry.named, strEq, if_pos (by decide), h0,
      beq_false_of_ne (hn.ne_zero c List.mem_cons_self).symm, Bool.false_and]

/-- No other name is taken for that of a new entry. -/
theorem eq_of_named_newEntry {name n : List Byte} {inodeNo : Word} {t : FileType}
    (hname : FitsName name) (hn : FitsName n) (he : (newEntry name inodeNo t).named n = true) :
    n = name := by
  obtain ⟨hall, hend⟩ := strEq_iff.1 he
  have hget : ∀ {l : List Byte} {k}, (∀ c ∈ l, c ≠ 0) → k < l.length → l.getD k 0 ≠ 0 := by
    intro l k hz hk
    rw [List.getD_eq_getElem _ _ hk]
    exact hz _ (List.getElem_mem hk)
  have h1 := hname.length_le
  have h2 := hn.length_le
  -- where one of them ended first, the other would have a zero byte
  have hlen : n.length = name.length := by
    rcases Nat.lt_trichotomy n.length name.length with hlt | heq | hgt
    · rw [if_pos (by omega)] at hend
      exact absurd hend (hget hname.ne_zero hlt)
    · exact heq
    · have := hall name.length hgt
      rw [if_pos (by omega)] at this
      exact absurd (this.symm.trans (List.getD_eq_default _ _ (Nat.le_refl _)))
        (hget hn.ne_zero hgt)
  refine List.ext_getElem hlen fun k hk hk' => ?_
  have hbyte : name.getD k 0 = n.getD k 0 := (if_pos (by omega)).symm.trans (hall k hk)
  rw [List.getD_eq_getElem _ _ hk', List.getD_eq_getElem _ _ hk] at hbyte
  exact hbyte.symm

/-! ### What a block has under a name -/

namespace View

variable (v : View) (d k : ℕ) (name : List Byte)

/-- The first entry of block `k` with the name, as far as its own bytes. -/
def findIn : Option DirEntry :=
  if v.slot d k = 0 then none
  else ((List.range 21).find? fun i => (v.cell d k i).named name).map (v.cell d k)

end View

section

variable {part : Partition} {v v' : View} {d k k0 i0 : ℕ} {name : List Byte} {e : DirEntry}

theorem findEntry_trunc {b : Buf} (hn : name.length ≤ 16) :
    (findEntry part b name).map DirEntry.trunc =
      ((List.range 21).find? fun i => (cell b i).named name).map (cell b) := by
  rw [findEntry, dirEntrysPerSec_eq, Option.map_map]
  simp only [named_cell hn]
  rfl

/-- **A lookup asks the blocks in turn.** -/
theorem View.lookup_trunc (hn : name.length ≤ 16) : (v.lookup part d name).map DirEntry.trunc =
    (List.range 140).findSome? fun k => v.findIn d k name := by
  rw [lookup, List.map_findSome?]
  refine findSome?_congr fun k _ => ?_
  rw [Function.comp_apply, findIn]
  by_cases h0 : v.slot d k = 0
  · rw [if_pos h0, if_pos h0]
    rfl
  · rw [if_neg h0, if_neg h0, findEntry_trunc hn]
    rfl

theorem View.findIn_eq_none : v.findIn d k name = none ↔
    v.slot d k ≠ 0 → ∀ i < 21, (v.cell d k i).named name = false := by
  rw [findIn]
  by_cases h0 : v.slot d k = 0
  · simp [h0]
  · simp

theorem View.findIn_eq_some (h : v.findIn d k name = some e) :
    v.slot d k ≠ 0 ∧ ∃ i < 21, e = v.cell d k i ∧ (v.cell d k i).named name = true := by
  rw [findIn] at h
  split at h
  · cases h
  · rename_i h0
    obtain ⟨i, hi, rfl⟩ := Option.map_eq_some_iff.1 h
    exact ⟨h0, i, List.mem_range.1 (List.mem_of_find?_eq_some hi), rfl,
      List.find?_some (p := fun i => (v.cell d k i).named name) hi⟩

/-- A block answers as before if its entries do. -/
theorem View.findIn_congr (hs : v'.slot d k = v.slot d k)
    (hc : ∀ i < 21, v'.cell d k i = v.cell d k i ∨
      (v'.cell d k i).named name = false ∧ (v.cell d k i).named name = false) :
    v'.findIn d k name = v.findIn d k name := by
  rw [findIn, findIn, hs]
  split
  · rfl
  have hfind : ((List.range 21).find? fun i => (v'.cell d k i).named name) =
      (List.range 21).find? fun i => (v.cell d k i).named name := by
    refine List.find?_congr fun i hi => ?_
    rcases hc i (List.mem_range.1 hi) with he | ⟨h1, h2⟩
    · rw [he]
    · rw [h1, h2]
  rw [hfind]
  cases hf : (List.range 21).find? fun i => (v.cell d k i).named name with
  | none => rfl
  | some i =>
    have hi := List.mem_range.1 (List.mem_of_find?_eq_some hf)
    have hname := List.find?_some (p := fun i => (v.cell d k i).named name) hf
    rcases hc i hi with he | ⟨-, h2⟩
    · rw [Option.map_some, Option.map_some, he]
    · rw [h2] at hname
      cases hname

/-! ### One entry more -/

theorem named_blank (hn : FitsName name) : DirEntry.blank.named name = false :=
  named_of_empty hn rfl

section

variable (hg : Gains v v' d e k0 i0)
  (hfree : ∀ k < 140, v.slot d k ≠ 0 → ∀ i < 21, (v.cell d k i).fType = 0 →
    (v.cell d k i).filename 0 = 0)

include hg hfree

/-- Under another name, a block that survives has what it had. -/
theorem Gains.findIn_kept (hn : FitsName name) (he : e.named name = false) (hk : k < 140)
    (hor : k < 12 ∨ k0 < 12) : v'.findIn d k name = v.findIn d k name := by
  have hnew : (v'.cell d k0 i0).named name = false := by
    rw [hg.cell, DirEntry.named_trunc, he]
  by_cases h0 : v.slot d k = 0
  · -- a new block has the new entry and empty names
    have hnone : v.findIn d k name = none := View.findIn_eq_none.2 fun h => absurd h0 h
    rw [hnone, View.findIn_eq_none]
    intro hs i hi
    by_cases hki : k = k0 ∧ i = i0
    · rw [hki.1, hki.2]
      exact hnew
    · rcases hg.others k hk hs i hi hki with ⟨h, -⟩ | h
      · exact absurd h0 h
      · rw [h]
        exact named_blank hn
  · obtain ⟨hs, hc⟩ := hg.kept k hk hor h0
    refine View.findIn_congr hs fun i hi => ?_
    by_cases hki : k = k0 ∧ i = i0
    · obtain ⟨rfl, rfl⟩ := hki
      have hlt : k < 12 := hor.elim id id
      exact .inr ⟨hnew, named_of_empty hn (hfree k hk h0 i hi (hg.free hlt h0))⟩
    · exact .inl (hc i hi hki)

omit hfree in
/-- Where the table was replaced, the indirect blocks have the new name only. -/
theorem Gains.findIn_lost (hn : FitsName name) (he : e.named name = false) (hk0 : k0 = 12)
    (h1 : 12 ≤ k) (h2 : k < 140) : v'.findIn d k name = none := by
  refine View.findIn_eq_none.2 fun hs i hi => ?_
  by_cases hki : k = k0 ∧ i = i0
  · rw [hki.1, hki.2, hg.cell, DirEntry.named_trunc, he]
  · rw [hg.lost hk0 k h1 h2 hs i hi hki]
    exact named_blank hn

omit hfree in
/-- **The new name is found**, with the new entry. -/
theorem Gains.lookup_new (hn : FitsName name) (he : e.named name = true)
    (hno : v.lookup part d name = none) :
    (v'.lookup part d name).map DirEntry.trunc = some e.trunc := by
  have hold : ∀ k < 140, v.findIn d k name = none := by
    have hnone : (v.lookup part d name).map DirEntry.trunc = none := by rw [hno, Option.map_none]
    rw [View.lookup_trunc hn.length_le] at hnone
    exact fun k hk => List.findSome?_eq_none_iff.1 hnone k (List.mem_range.2 hk)
  have hat : ∀ {k x}, k < 140 → v'.findIn d k name = some x → x = e.trunc := by
    intro k x hk hx
    obtain ⟨hs, i, hi, rfl, hname⟩ := View.findIn_eq_some hx
    by_cases hki : k = k0 ∧ i = i0
    · rw [hki.1, hki.2, hg.cell]
    · rcases hg.others k hk hs i hi hki with ⟨h0, hc⟩ | hc
      · rw [hc, View.findIn_eq_none.1 (hold k hk) h0 i hi] at hname
        cases hname
      · rw [hc, named_blank hn] at hname
        cases hname
  rw [View.lookup_trunc hn.length_le]
  have hk0 : k0 < 140 := by
    have := hg.block
    omega
  cases hf : (List.range 140).findSome? fun k => v'.findIn d k name with
  | none =>
    -- the entry itself would have been found
    have hnone := List.findSome?_eq_none_iff.1 hf k0 (List.mem_range.2 hk0)
    have := View.findIn_eq_none.1 hnone hg.slot i0 hg.entry
    rw [hg.cell, DirEntry.named_trunc, he] at this
    cases this
  | some x =>
    obtain ⟨k, hk, hx⟩ := List.exists_of_findSome?_eq_some hf
    rw [hat (List.mem_range.1 hk) hx]

/-- **With room in a direct block**, every other name has what it had. -/
theorem Gains.lookup_kept (hn : FitsName name) (he : e.named name = false) (hk0 : k0 < 12) :
    (v'.lookup part d name).map DirEntry.trunc = (v.lookup part d name).map DirEntry.trunc := by
  rw [View.lookup_trunc hn.length_le, View.lookup_trunc hn.length_le]
  exact findSome?_congr fun k hk =>
    hg.findIn_kept hfree hn he (List.mem_range.1 hk) (.inr hk0)

/-- Without, the names of the direct blocks are left. -/
theorem Gains.lookup_direct (hn : FitsName name) (he : e.named name = false)
    (hk0 : k0 = 12) : (v'.lookup part d name).map DirEntry.trunc =
      (List.range 12).findSome? fun k => v.findIn d k name := by
  have hsplit : List.range 140 = List.range 12 ++ List.range' 12 128 := by decide
  have hlost : (List.range' 12 128).findSome? (fun k => v'.findIn d k name) = none := by
    refine List.findSome?_eq_none_iff.2 fun k hk => ?_
    rw [List.mem_range'_1] at hk
    exact hg.findIn_lost hn he hk0 hk.1 (by omega)
  rw [View.lookup_trunc hn.length_le, hsplit, List.findSome?_append, hlost, Option.or_none]
  refine findSome?_congr fun k hk => ?_
  have hk := List.mem_range.1 hk
  exact hg.findIn_kept hfree hn he (by omega) (.inl hk)

end

end

/-! ### What the code finds -/

/-- `search_dir_entry` finds the entry under the name, where there is memory for the search. -/
def FindsEntry (part : Partition) (s : FsState) (h : ℕ) (name : List Byte) (e : DirEntry) : Prop :=
  (searchDirEntry part h name).value? { s with mallocs := fun _ => true } = some (some e)

/-- A direct block of the directory is absent or has a place that is not in use. -/
def DirectRoom (s : FsState) (h : ℕ) : Prop :=
  ∃ k < 12, (s.inode h).iSectors k = 0 ∨
    ∃ i < 21, (cell (s.disk.sector ((s.inode h).iSectors k).toNat) i).fType = 0

/-- A direct block of the directory has an entry with the name. -/
def InDirect (part : Partition) (s : FsState) (h : ℕ) (name : List Byte) : Prop :=
  ∃ k < 12, (s.inode h).iSectors k ≠ 0 ∧
    findEntry part (s.disk.sector ((s.inode h).iSectors k).toNat) name ≠ none

section

variable {part : Partition} {G : Tree} {L : Finset ℕ} {s s' : FsState} {h d : ℕ}
  {name : List Byte} {e : DirEntry} {inodeNo : Word} {t : FileType}

/-- **A search finds what the view has.** -/
theorem Working.finds_iff (hw : Working part L s h d)
    (hdisk : ∀ k ≤ 140, ((s.view part).slot d k).toNat ≤ maxLba) :
    FindsEntry part s h name e ↔ (s.view part).lookup part d name = some e := by
  have hrun : wp (searchDirEntry part h name)
      (fun r _ => r = (s.view part).lookup part d name) (fun _ => False)
      { s with mallocs := fun _ => true } := by
    refine searchDirEntry_wp (fun k hk => by cases hk) (fun k hk _ hlt => ?_) fun j r hr => ?_
    · have := hdisk k hk
      rw [hw.slot_object hk] at this
      exact absurd this (Nat.not_le.2 hlt)
    · rw [← hw.lookup_eq]
      exact hr.resolve_right fun ⟨_, k, hk⟩ => by cases hk
  obtain ⟨_, s1, hx, rfl⟩ := hrun.returns
  rw [FindsEntry, value?, hx]
  exact Option.some_inj

theorem Working.directRoom_iff (hw : Working part L s h d) : DirectRoom s h ↔
    ∃ k < 12, (s.view part).slot d k = 0 ∨ ∃ i < 21, ((s.view part).cell d k i).fType = 0 := by
  refine exists_congr fun k => and_congr_right fun hk => ?_
  rw [hw.slot_lt hk]
  by_cases h0 : (s.inode h).iSectors k = 0
  · simp only [h0, true_or]
  · simp only [hw.cell_lt hk h0, h0, false_or]

theorem Working.inDirect_iff (hw : Working part L s h d) (hn : name.length ≤ 16) :
    InDirect part s h name ↔
      (List.range 12).findSome? (fun k => (s.view part).findIn d k name) ≠ none := by
  have hfind : ∀ k < 12, (s.inode h).iSectors k ≠ 0 → (s.view part).findIn d k name =
      (findEntry part (s.disk.sector ((s.inode h).iSectors k).toNat) name).map DirEntry.trunc := by
    intro k hk h0
    rw [findEntry_trunc hn, View.findIn, hw.slot_lt hk, if_neg h0, funext (hw.cell_lt hk h0)]
  rw [Ne, List.findSome?_eq_none_iff]
  constructor
  · rintro ⟨k, hk, h0, hf⟩ hall
    have := hall k (List.mem_range.2 hk)
    rw [hfind k hk h0, Option.map_eq_none_iff] at this
    exact hf this
  · intro hall
    by_contra hno
    refine hall fun k hk => ?_
    have hk := List.mem_range.1 hk
    by_cases h0 : (s.inode h).iSectors k = 0
    · exact View.findIn_eq_none.2 fun hs => absurd ((hw.slot_lt hk).trans h0) hs
    · by_contra hf
      rw [hfind k hk h0, Option.map_eq_none_iff] at hf
      exact hno ⟨k, hk, h0, hf⟩

/-- What the entries of two lookups have in common, if they agree on an entry's own bytes. -/
theorem same_entry {x y : DirEntry} (hxy : x.trunc = y.trunc) : x.iNo = y.iNo ∧ x.fType = y.fType :=
  ⟨(congrArg DirEntry.iNo hxy :), (congrArg DirEntry.fType hxy :)⟩

theorem Edits.working (hed : Edits part (s.view part) (s'.view part) d) (hs : Sound part G s)
    (ho : ObjectOf G s h d) (hr : rest h s' = rest h s) : Working part G.live s' h d :=
  ⟨hed.own hs.inv.own ho.live, cacheOk_edit hs.cache hr, rest_openInodes hr ▸ ho.mem, ho.live,
    hs.lt ho.live, (rest_iNo hr h).trans ho.no⟩

/-- The blocks of an edited directory are on the disk: they were its own or are new. -/
theorem Edits.onDisk (hed : Edits part (s.view part) (s'.view part) d)
    (hdisk : BlocksOnDisk part G s) (hfree : FreeOnDisk part s.blockBitmap)
    (ho : ObjectOf G s h d) :
    ∀ k ≤ 140, ((s'.view part).slot d k).toNat ≤ maxLba := by
  intro k hk
  by_cases h0 : (s'.view part).slot d k = 0
  · rw [h0]
    exact Nat.zero_le _
  · rcases hed.slot k hk h0 with hold | ⟨i, hi, hw, hbit⟩
    · rw [hold]
      exact hdisk d ho.live k hk
    · rw [hw]
      exact hfree i hi hbit

/-- An entry that a lookup finds is one of a sector, and has the name. -/
theorem View.of_lookup {v : View} {x : DirEntry} (hx : v.lookup part d name = some x) :
    ∃ b i, x = entryAt b i ∧ strEq x.filename name = true := by
  rw [lookup] at hx
  obtain ⟨k, -, hx⟩ := List.exists_of_findSome?_eq_some hx
  split at hx
  · cases hx
  · rw [findEntry] at hx
    obtain ⟨i, hi, rfl⟩ := Option.map_eq_some_iff.1 hx
    exact ⟨_, i, rfl, (List.find?_some hi :)⟩

/-- A name of sixteen bytes is found only at an entry whose number ends it. -/
theorem lowest_byte_of_lookup {v : View} {x : DirEntry} (hn : name.length ≤ 16)
    (hx : v.lookup part d name = some x) (hno : x.iNo = inodeNo) :
    name.length < 16 ∨ inodeNo.toNat % 256 = 0 := by
  refine or_iff_not_imp_left.2 fun hlen => ?_
  obtain ⟨b, i, rfl, hname⟩ := View.of_lookup hx
  have hlen : name.length = 16 := by omega
  have hend := (strEq_iff.1 hname).2
  rw [hlen, entryAt_filename b i (Nat.le_refl _) (by omega), wordByte_zero_iff, hno] at hend
  exact hend

/-- **Adding an entry loses none** and the new name is found, if there is room in a direct block of
the directory or all its names are in direct blocks, and if the new name leaves room for its
terminator or runs on into a byte 0 of the number; and only then. -/
theorem added_entry_iff (hs : Sound part G s) (hdisk : BlocksOnDisk part G s)
    (hfree : FreeOnDisk part s.blockBitmap) (ho : ObjectOf G s h d)
    (hk : G.kind d = .directory) (hn : FitsName name) (hnew : ∀ x, ¬ FindsEntry part s h name x)
    (hrun : syncDirEntry part h (newEntry name inodeNo t) s = .ok (true, s')) :
    ((∀ n x, FitsName n → FindsEntry part s h n x →
        ∃ x', FindsEntry part s' h n x' ∧ x'.iNo = x.iNo ∧ x'.fType = x.fType) ∧
      ∃ x', FindsEntry part s' h name x' ∧ x'.iNo = inodeNo ∧ x'.fType = t.code) ↔
    (name.length < 16 ∨ inodeNo.toNat % 256 = 0) ∧
      (DirectRoom s h ∨ ∀ n x, FitsName n → FindsEntry part s h n x → InDirect part s h n) := by
  have hw := hs.working ho
  obtain ⟨-, hr, -, ⟨-, -, k0, i0, ha⟩⟩ := (syncDirEntry_post hw hs.blockLen).ok hrun
  have hdir := (hs.inv.dirs d ho.live hk).free
  have hfind : ∀ {n x}, FindsEntry part s h n x ↔ (s.view part).lookup part d n = some x :=
    hw.finds_iff (hdisk d ho.live)
  have hfind' : ∀ {n x}, FindsEntry part s' h n x ↔ (s'.view part).lookup part d n = some x :=
    (ha.edits.working hs ho hr).finds_iff (ha.edits.onDisk hdisk hfree ho)
  have hnone : (s.view part).lookup part d name = none :=
    Option.eq_none_iff_forall_ne_some.2 fun x hx => hnew x (hfind.2 hx)
  -- a name that was there is not the new one
  have hother : ∀ {n x}, FitsName n → (s.view part).lookup part d n = some x →
      (newEntry name inodeNo t).named n = false := by
    intro n x hpn hx
    refine Bool.eq_false_iff.2 fun hen => ?_
    obtain rfl := eq_of_named_newEntry hn hpn hen
    rw [hnone] at hx
    cases hx
  have hsame : ∀ {n x}, (s.view part).lookup part d n = some x →
      ((s'.view part).lookup part d n).map DirEntry.trunc =
        ((s.view part).lookup part d n).map DirEntry.trunc →
      ∃ x', FindsEntry part s' h n x' ∧ x'.iNo = x.iNo ∧ x'.fType = x.fType := by
    intro n x hx heq
    rw [hx] at heq
    obtain ⟨x', hx', ht⟩ := Option.map_eq_some_iff.1 heq
    exact ⟨x', hfind'.2 hx', same_entry ht⟩
  have hfound : (∃ x', FindsEntry part s' h name x' ∧ x'.iNo = inodeNo ∧ x'.fType = t.code) ↔
      (name.length < 16 ∨ inodeNo.toNat % 256 = 0) := by
    refine ⟨fun ⟨x', hx', hno, _⟩ => lowest_byte_of_lookup hn.length_le (hfind'.1 hx') hno,
      fun hlen => ?_⟩
    obtain ⟨x', hx', ht⟩ := Option.map_eq_some_iff.1
      (ha.lookup_new hn ((named_newEntry hn.length_le).2 hlen) hnone)
    exact ⟨x', hfind'.2 hx', same_entry ht⟩
  rw [and_comm, hfound, and_congr_right_iff, hw.directRoom_iff]
  intro _
  rcases Nat.lt_or_ge k0 12 with hk0 | hk0
  · -- the entry went to a direct block, so there was room
    have hroom : ∃ k < 12, (s.view part).slot d k = 0 ∨
        ∃ i < 21, ((s.view part).cell d k i).fType = 0 := by
      refine ⟨k0, hk0, or_iff_not_imp_left.2 fun h0 => ⟨i0, ha.entry, ha.free hk0 h0⟩⟩
    refine ⟨fun _ => .inl hroom, fun _ n x hpn hx => ?_⟩
    exact hsame (hfind.1 hx) (ha.lookup_kept hdir hpn (hother hpn (hfind.1 hx)) hk0)
  · obtain rfl : k0 = 12 := Nat.le_antisymm ha.block hk0
    have hfull : ¬ ∃ k < 12, (s.view part).slot d k = 0 ∨
        ∃ i < 21, ((s.view part).cell d k i).fType = 0 := fun hroom =>
      absurd (ha.direct hroom) (Nat.lt_irrefl _)
    constructor
    · intro hall
      refine .inr fun n x hpn hx => (hw.inDirect_iff hpn.length_le).2 ?_
      obtain ⟨x', hx', -⟩ := hall n x hpn hx
      have hdirect : (some x').map DirEntry.trunc = _ :=
        hfind'.1 hx' ▸ ha.lookup_direct hdir hpn (hother hpn (hfind.1 hx)) rfl
      rw [← hdirect]
      exact Option.some_ne_none _
    · intro hroom n x hpn hx
      have hin := (hw.inDirect_iff hpn.length_le).1 ((hroom.resolve_left hfull) n x hpn hx)
      refine hsame (hfind.1 hx) ?_
      -- the direct blocks come first
      rw [ha.lookup_direct hdir hpn (hother hpn (hfind.1 hx)) rfl, View.lookup_trunc hpn.length_le,
        show List.range 140 = List.range 12 ++ List.range' 12 128 by decide, List.findSome?_append]
      obtain ⟨y, hy⟩ := Option.ne_none_iff_exists'.1 hin
      rw [hy]
      rfl

end

/-! ### A directory with an indirect block -/

/-- The names of a large directory. -/
def bigName (j : ℕ) : List Byte :=
  if j = 0 then dot else if j = 1 then dotDot
  else [BitVec.ofNat 8 (0x61 + j / 26), BitVec.ofNat 8 (0x61 + j % 26)]

/-- Its entries: `.` and `..`, and files with the numbers that follow. -/
def bigEntry (j : ℕ) : DirEntry :=
  ⟨fun k => (bigName j).getD k 0, if j < 2 then 0 else BitVec.ofNat 32 j,
    if j < 2 then FileType.directory.code else FileType.regular.code⟩

/-- Block `b` of it, with `cnt` entries. -/
def bigSector (b cnt : ℕ) : Buf := fun k =>
  if k < 24 * cnt then (bigEntry (21 * b + k / 24)).toBytes (k % 24) else 0

def bigInode : Inode :=
  ⟨0, BitVec.ofNat 32 (24 * 253), 1, false, fun k => BitVec.ofNat 32 (613 + k)⟩

/-- A root directory of 253 entries: twelve full blocks, and one entry in the first block of the
indirect table. -/
def bigDir : FsState where
  disk := fun lba =>
    if lba = 625 then Buf.ofWords fun j => if j = 0 then 626 else 0
    else if lba = 626 then bigSector 12 1
    else if 613 ≤ lba ∧ lba < 625 then bigSector (lba - 613) 21
    else if lba = 5 then bigInode.toRecord
    else fun _ => 0
  blockBitmap := (List.range 14).foldl (fun b i => bitmapSet b i true) (bitmapInit 512)
  inodeBitmap := (List.range 253).foldl (fun b i => bitmapSet b i true) (bitmapInit 512)
  inode := fun _ => bigInode
  inodeTop := 1
  openInodes := [0]
  rootInode := 0
  fileTable := fun _ => ⟨0, 0, none⟩
  fdTable := fun _ fd => if fd < 3 then fd else -1
  cur := 0
  mallocs := fun _ => true
  junk := fun _ => 0

/-- The entry `f` for inode 253. -/
def entryF : DirEntry := newEntry [0x66] 253 .regular

theorem not_finds_of_isNone {part : Partition} {s : FsState} {h : ℕ} {name : List Byte}
    (hnone : ((searchDirEntry part h name).value? { s with mallocs := fun _ => true }).all
      Option.isNone = true) (x : DirEntry) : ¬ FindsEntry part s h name x := by
  intro hx
  rw [FindsEntry] at hx
  rw [hx] at hnone
  cases hnone

theorem finds_of_any {part : Partition} {s : FsState} {h : ℕ} {name : List Byte}
    {p : DirEntry → Bool}
    (hany : ((searchDirEntry part h name).value? { s with mallocs := fun _ => true }).any
      (fun r => r.any p) = true) : ∃ x, FindsEntry part s h name x ∧ p x = true := by
  obtain ⟨r, hr, hx⟩ := Option.any_eq_true _ _ |>.1 hany
  obtain ⟨x, rfl, hp⟩ := Option.any_eq_true _ _ |>.1 hx
  exact ⟨x, hr, hp⟩

/-- An entry in the root of a new file system. -/
theorem added_entry_iff_small : ∃ s', syncDirEntry smallPart smallFs.rootInode entryF smallFs =
      .ok (true, s') ∧
    (∀ n x, FitsName n → FindsEntry smallPart smallFs smallFs.rootInode n x →
        ∃ x', FindsEntry smallPart s' smallFs.rootInode n x' ∧ x'.iNo = x.iNo ∧
          x'.fType = x.fType) ∧
      ∃ x', FindsEntry smallPart s' smallFs.rootInode [0x66] x' ∧ x'.iNo = 253 ∧
        x'.fType = FileType.regular.code := by
  obtain ⟨hs, -⟩ := sound_smallFs
  have hroom : DirectRoom smallFs smallFs.rootInode := ⟨1, by decide, .inl (by decide +kernel)⟩
  have hrun : syncDirEntry smallPart smallFs.rootInode entryF smallFs = .ok (true, _) :=
    eq_ok_of_value? (by decide +kernel)
  exact ⟨_, hrun, (added_entry_iff hs blocksOnDisk_smallFs (freeOnDisk_smallPart _) hs.root rfl
    ⟨by decide, by decide, by decide⟩ (not_finds_of_isNone (by decide +kernel))
    hrun).2 ⟨.inl (by decide), .inl hroom⟩⟩

/-- **The entry of the indirect block is lost.** -/
theorem added_entry_lost : ∃ s', syncDirEntry smallPart 0 entryF bigDir = .ok (true, s') ∧
    (∃ x, FindsEntry smallPart bigDir 0 (bigName 252) x) ∧
    (∀ x, ¬ FindsEntry smallPart bigDir 0 [0x66] x) ∧
    ∀ x, ¬ FindsEntry smallPart s' 0 (bigName 252) x := by
  have hrun : syncDirEntry smallPart 0 entryF bigDir = .ok (true, _) :=
    eq_ok_of_value? (by decide +kernel)
  obtain ⟨x, hx, -⟩ : ∃ x, FindsEntry smallPart bigDir 0 (bigName 252) x ∧ true = true :=
    finds_of_any (by decide +kernel)
  exact ⟨_, hrun, ⟨x, hx⟩, not_finds_of_isNone (by decide +kernel),
    not_finds_of_isNone (by decide +kernel)⟩

end X86Os
