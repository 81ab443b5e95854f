import X86Os.Fs.Unlink

/-!
# Acting on the whole path

`search_file` stops at the first regular file it meets, whatever components come after it, and
leaves it to its callers to notice. `sys_open` compares depths and does; `sys_unlink` and `sys_stat`
do not. With a file `/f` in the tree, `unlink("/f/x")` deletes `/f` and `stat("/f/x")` reports it.
Besides, `sys_unlink` asserts that the number found is not that of the root, so that it stops the
machine on `/.` or `/d/..` instead of refusing them. Even on the right file it may do harm: it hangs
if the entry is the last one of an indirect block, and it loses the record of another inode if the
directory has a number from 256 on.

These are the only ways to go wrong. `Followed` excludes the first two: no component but the last is
a file, and the path does not lead to the root. `Deletable` excludes the others. Together they say
exactly when both calls act on what the whole path leads to (`ActsOnWhole`), where a call may stop
only for want of memory.
-/

namespace X86Os

open X86Os.Comp FsState

/-! ### What the calls should do -/

/-- Nothing changed: neither what is on the disk and in the tables, nor what the inodes are, nor how
often each is open. -/
structure Unchanged (part : Partition) (s s' : FsState) : Prop where
  same : tables s' = tables s
  view : s'.view part = s.view part
  balance : Balance s [] s'

/-- Every component followed in turn from the root, the path leads to file `m`, whose entry is in
directory `d`. -/
def FileAt (part : Partition) (v : View) (p : List Byte) (d m : ℕ) : Prop :=
  ∃ done name e, PathTo part v p done name d ∧ v.lookup part d name = some e ∧
    e.iNo = BitVec.ofNat 32 m ∧ e.fType = FileType.regular.code

/-- `sys_unlink` returns 0 for a path to a file, which it removes; otherwise it returns -1 and
changes nothing. -/
def UnlinkResult (part : Partition) (s : FsState) (p : List Byte) (r : Int) (s' : FsState) : Prop :=
  (r = 0 ∧ ∃ d m, FileAt part (s.view part) p d m ∧ Removed part s s' d m) ∨
    r = -1 ∧ Unchanged part s s'

/-- `sys_stat` changes nothing, and what it reports is what the path leads to. -/
def StatResult (part : Partition) (s : FsState) (p : List Byte) (r : Option Stat) (s' : FsState) :
    Prop :=
  Unchanged part s s' ∧ ∀ st, r = some st → ∃ m t, Resolves part (s.view part) p m t ∧
    st = ⟨BitVec.ofNat 32 m, ((s.view part).node m).iSize, t⟩

/-- **Both calls act on what the whole path leads to.** They return, unless a request for memory
fails. -/
structure ActsOnWhole (part : Partition) (s : FsState) (p : CString) : Prop where
  unlink : wp (sysUnlink part p) (UnlinkResult part s p.1) (fun _ => NoMemory s) s
  stat : wp (sysStat part p) (StatResult part s p.1) (fun _ => NoMemory s) s

/-! ### When they do -/

/-- A file system in order, with what its calls make sure of: its blocks are on the disk, the root
has the first of them, `.` and `..` are where they belong, and open files have inode objects. -/
structure InOrder (part : Partition) (G : Tree) (s : FsState) : Prop where
  sound : Sound part G s
  counts : CountsOk s
  disk : BlocksOnDisk part G s
  tidy : Tidy part G (s.view part)
  files : ∀ g h, (s.fileTable g).fdInode = some h → h < s.inodeTop

/-- No component but the last is a file, and the path does not lead to the root. -/
structure Followed (part : Partition) (v : View) (p : List Byte) : Prop where
  inner : ∀ done name rest d e, names p = done ++ name :: rest → v.resolve part done 0 = some d →
    v.lookup part d name = some e → e.fType = FileType.regular.code → rest = []
  root : v.resolve part (names p) 0 ≠ some 0

/-- No entry of directory `d` with the number `n` is the last one of an indirect block. -/
def View.NotLast (part : Partition) (v : View) (d : ℕ) (n : Word) : Prop :=
  ∀ k i, v.IsChild d k i → (v.cell d k i).iNo = n → 12 ≤ k →
    dirEntryCnt part (v.data (v.slot d k).toNat) ≠ 1

/-- If the path leads to a file that is not in use, the number of its directory is below 256, and
its entry is not the last one of an indirect block. -/
def Deletable (part : Partition) (s : FsState) (p : List Byte) : Prop :=
  ∀ d m, FileAt part (s.view part) p d m → inUse s (BitVec.ofNat 32 m) = false →
    d < 256 ∧ (s.view part).NotLast part d (BitVec.ofNat 32 m)

section

variable {part : Partition} {G : Tree} {s s' s0 : FsState} {v : View} {p : List Byte}
  {done rest : List (List Byte)} {name : List Byte} {d m : ℕ} {e : DirEntry} {dir : Dir}

theorem Session.unchanged (hs : Session part G s [] s') : Unchanged part s s' :=
  ⟨hs.same, hs.view, hs.balance⟩

/-- A path that goes on after a component that is no directory leads nowhere. -/
theorem not_resolves (hp : names p = done ++ name :: rest) (hd : v.resolve part done 0 = some d)
    (hs : v.Stops part d name) (hrest : rest ≠ []) (t : FileType) : ¬ Resolves part v p m t := by
  rintro ⟨done', name', d', e, hpath, -⟩
  obtain ⟨e', hl, ht⟩ := hpath.inner hp hrest hd
  exact hs e' hl ht

/-- The entry of a file is not one of the first two of its directory. -/
theorem FsInv.child_of_lookup (hi : FsInv part G.live G v) (hd : d ∈ G.live)
    (hk : G.kind d = .directory) (hn : PlainName name) (hl : v.lookup part d name = some e)
    (ht : e.fType = FileType.regular.code) :
    ∃ k i, v.IsChild d k i ∧ (v.cell d k i).iNo = e.iNo := by
  rcases (hi.dirs d hd hk).lookup hn hl with ⟨-, -, hc⟩ | ⟨-, -, hc⟩ | ⟨-, -, k, i, hc, hno, -⟩
  · cases ht.symm.trans hc
  · cases ht.symm.trans hc
  · exact ⟨k, i, hc, hno.symm⟩

/-- An entry has the type of its inode. -/
theorem Sound.fType_eq (hs : Sound part G s) (hd : d ∈ G.live) (hk : G.kind d = .directory)
    (hn : PlainName name) (hl : (s.view part).lookup part d name = some e) (hm : m ∈ G.live)
    (hno : e.iNo = BitVec.ofNat 32 m) : e.fType = (G.kind m).code := by
  obtain ⟨m', hm', hno', ht⟩ := hs.inv.lookup rfl hd hk hn hl
  rwa [← hs.inj hm hm' (hno.symm.trans hno')] at ht

/-- A lookup does not change which files are in use. -/
theorem Session.inUse_eq {held : List ℕ} (hs : Session part G s0 held s)
    (hf : ∀ g h, (s0.fileTable g).fdInode = some h → h < s0.inodeTop) (n : Word) :
    inUse s n = inUse s0 n := by
  rw [inUse, inUse, fileTable_of_tables hs.same]
  congr 1
  funext g
  cases hg : (s0.fileTable g).fdInode with
  | none => rfl
  | some h => simp only [(hs.balance.fixed h (hf g h hg)).1]

/-- The block of an entry, as the code and the view have it. -/
theorem HoldsDir.block_eq {k : ℕ} (hs : HoldsDir part G s0 [] s dir d) (hk : k < 140)
    (h0 : (s0.view part).slot d k ≠ 0) :
    s.block dir.inode k = (s0.view part).data ((s0.view part).slot d k).toNat := by
  rw [← hs.view] at h0 ⊢
  exact (hs.sound.working hs.obj).block_eq (Nat.le_of_lt hk) h0

section

variable {p : CString} (hs : InOrder part G s) (hp : AbsolutePath p.1)

include hs hp

theorem unlink_of_followed (hf : Followed part (s.view part) p.1) (hdel : Deletable part s p.1) :
    wp (sysUnlink part p) (UnlinkResult part s p.1) (fun _ => NoMemory s) s := by
  refine sysUnlink_cases hs.sound hs.counts hp.component (hp.faults hs.disk fun _ h => h)
    (fun h => absurd hp.length (Nat.not_lt.2 h)) (fun h => absurd h hf.root)
    (fun s' hs' _ => .inr ⟨rfl, hs'.unchanged⟩) ?_
  intro done name rest d e m dir s' hnames hplain hres hl hno hm hk hs'
  refine ⟨fun _ s'' hs'' => .inr ⟨rfl, hs''.unchanged⟩, fun hu path => ?_⟩
  have ht := hs.sound.fType_eq hs'.obj.live hs'.dir hplain hl hm hno
  rw [hk] at ht
  obtain rfl := hf.inner done name rest d e hnames hres hl ht
  have hfile : FileAt part (s.view part) p.1 d m :=
    ⟨done, name, e, ⟨hnames, hplain, hres⟩, hl, hno, ht⟩
  rw [hs'.inUse_eq hs.files] at hu
  obtain ⟨hd2, hlast⟩ := hdel d m hfile hu
  obtain ⟨k0, i0, hc, hcno⟩ := hs.sound.inv.child_of_lookup hs'.obj.live hs'.dir hplain hl ht
  rw [hno] at hcno
  refine (unlinkFile_removes hs' hs.disk hs.tidy hm hk hc hcno hd2 fun h12 => ?_).mono ?_
    fun _ h => h
  · rw [hs'.block_eq hc.block hc.slot]
    exact hlast k0 i0 hc hcno h12
  · rintro r s'' (⟨hr, hrem⟩ | ⟨hr, hs''⟩)
    · exact .inl ⟨hr, d, m, hfile, hrem⟩
    · exact .inr ⟨hr, hs''.unchanged⟩

theorem stat_of_followed (hf : Followed part (s.view part) p.1) :
    wp (sysStat part p) (StatResult part s p.1) (fun _ => NoMemory s) s := by
  refine sysStat_cases hs.sound hs.counts hp.component (hp.faults hs.disk fun _ h => h) ?_ ?_ ?_
  · intro _ _ _ _ s' _ _ _ hs'
    exact ⟨hs'.unchanged, fun _ h => by cases h⟩
  · intro done name rest d e m s' hnames hres hl hno hm hk hs'
    have hplain := hp.plain name (by rw [hnames]; simp)
    have ht : e.fType = FileType.regular.code := by
      obtain ⟨hd0, hk0⟩ := hs.sound.inv.resolve rfl done
        (fun n hn => hp.plain n (by rw [hnames]; simp [hn]))
        hs.sound.inv.tree.root hs.sound.inv.tree.kind_root hres
      rw [hs.sound.fType_eq hd0 hk0 hplain hl hm hno, hk]
    obtain rfl := hf.inner done name rest d e hnames hres hl ht
    refine ⟨hs'.unchanged, fun st h => ⟨m, .regular, ⟨done, name, d, e, ⟨hnames, hplain, hres⟩, hl,
      hno, ht⟩, ?_⟩⟩
    rw [← Option.some.inj h, statOf, hk]
  · intro m s' hres hm hk hs'
    refine ⟨hs'.unchanged, fun st h =>
      ⟨m, .directory, resolves_of_resolve hp.component hp.plain hres, ?_⟩⟩
    rw [← Option.some.inj h, statOf, hk]

/-- `sys_stat` always finds something on a path with a file on the way. -/
theorem followed_of_stat (hmem : ¬ NoMemory s)
    (h : wp (sysStat part p) (StatResult part s p.1) (fun _ => NoMemory s) s) :
    ∀ done name rest d e, names p.1 = done ++ name :: rest →
      (s.view part).resolve part done 0 = some d → (s.view part).lookup part d name = some e →
      e.fType = FileType.regular.code → rest = [] := by
  intro done name rest d e hnames hres hl ht
  have hstop := View.stops_regular hl ht
  have hsome : wp (sysStat part p) (fun r _ => r ≠ none) (fun _ => NoMemory s) s := by
    refine sysStat_cases hs.sound hs.counts hp.component (hp.faults hs.disk fun _ h => h) ?_ ?_ ?_
    · intro done' name' rest' d' s' hnames' hres' hl' _
      have hl' := hl'.resolve_right hmem
      obtain ⟨rfl, rfl, -⟩ := stops_unique (hnames.symm.trans hnames') hres hstop hres'
        (View.stops_none hl')
      rw [hl] at hl'
      cases hl'
    · intros
      simp
    · intros
      simp
  by_contra hrest
  cases hrun : sysStat part p s with
  | error f => exact hmem (h.error hrun)
  | ok r =>
    obtain ⟨r, s'⟩ := r
    obtain ⟨st, rfl⟩ := Option.ne_none_iff_exists'.1 (hsome.ok hrun)
    obtain ⟨m, t, hm, -⟩ := (h.ok hrun).2 st rfl
    exact not_resolves hnames hres hstop hrest t hm

/-- `sys_unlink` never returns on a path to the root. -/
theorem followed_of_unlink (hmem : ¬ NoMemory s)
    (h : wp (sysUnlink part p) (UnlinkResult part s p.1) (fun _ => NoMemory s) s) :
    (s.view part).resolve part (names p.1) 0 ≠ some 0 := by
  intro hroot
  have hstuck : wp (sysUnlink part p) (fun _ _ => False) (fun _ => True) s := by
    refine sysUnlink_cases hs.sound hs.counts hp.component (hp.faults hs.disk fun _ _ => trivial)
      (fun _ => trivial) (fun _ => trivial) (fun _ _ hne => (hne hmem).1 hroot) ?_
    intro done name rest d e m _ s' hnames hplain hres hl hno hm hk hs'
    have ht := hs.sound.fType_eq hs'.obj.live hs'.dir hplain hl hm hno
    rw [hk] at ht
    rw [hnames, View.resolve_stuck hres (View.stops_regular hl ht)] at hroot
    cases hroot
  obtain ⟨r, s', hrun, -⟩ := (h.mono (fun _ _ h => h) fun _ hno => hmem hno :).returns
  exact hstuck.ok hrun

omit hp in
/-- The record of an inode says what the inode is. -/
theorem InOrder.record_eq (hd : d ∈ G.live) :
    (Inode.ofRecord (inodeRecord part s.disk d)).stored = (s.view part).node d := by
  have hlt := hs.sound.lt hd
  by_cases hun : Uncached s d
  · rw [node_uncached hun hlt]
  · simp only [Uncached, not_forall, not_not] at hun
    obtain ⟨h, hh, hno⟩ := hun
    rw [node_cached hs.sound.cache hh hno hlt, ← hs.sound.clean h hh, hno, toNat_ofNat hlt]

/-- **A deletion that acts on the whole path**: the file could be deleted. -/
theorem deletable_of_unlink (hmem : ¬ NoMemory s)
    (h : wp (sysUnlink part p) (UnlinkResult part s p.1) (fun _ => NoMemory s) s) :
    Deletable part s p.1 := by
  rintro d m ⟨done, name, e, hpath, hl, hno, ht⟩ hu
  have hstop := View.stops_regular hl ht
  obtain ⟨r, s', hrun, hres⟩ := (h.mono (fun _ _ h => h) fun _ hno => hmem hno :).returns
  have hpost : post (sysUnlink part p) (fun r s' => r = 0 ∧ d ∈ G.live ∧
      (s.view part).NotLast part d (BitVec.ofNat 32 m) ∧
      (256 ≤ d → Inode.ofRecord (inodeRecord part s'.disk d) =
        Inode.ofRecord (inodeRecord part s.disk d))) s := by
    refine sysUnlink_cases hs.sound hs.counts hp.component (hp.faults hs.disk fun _ _ => trivial)
      (fun _ => trivial) (fun _ => trivial)
      (fun _ _ hne => absurd ht ((hne hmem).2 done name [] d e hpath.names hpath.resolve hl)) ?_
    intro done' name' rest' d' e' m' dir s1 hnames hplain hres' hl' hno' hm' hk' hs1
    have ht' := hs.sound.fType_eq hs1.obj.live hs1.dir hplain hl' hm' hno'
    rw [hk'] at ht'
    obtain ⟨rfl, rfl, -⟩ := stops_unique (hpath.names.symm.trans hnames) hpath.resolve hstop hres'
      (View.stops_regular hl' ht')
    obtain rfl := Option.some.inj (hl.symm.trans hl')
    rw [hno'] at hno
    rw [hs1.inUse_eq hs.files, hno, hu]
    refine ⟨fun hc => absurd hc (by simp), fun _ path => ?_⟩
    obtain ⟨k0, i0, hc, hcno⟩ := hs.sound.inv.child_of_lookup hs1.obj.live hs1.dir hplain hl ht
    rw [hno'] at hcno
    rw [← hno]
    refine (unlinkFile_returns hs1 hs.disk hs.tidy hm' hk' hc hcno hmem).mono ?_ fun _ h => h
    rintro r s'' ⟨hr, hlast, hrec⟩
    refine ⟨hr, hs1.obj.live, fun k i hc' hno' h12 => ?_, hrec⟩
    obtain ⟨rfl, rfl⟩ := (hs.sound.inv.dirs d hs1.obj.live hs1.dir).uniq k i k0 i0 hc' hc
      (hno'.trans hcno.symm)
    rw [← hs1.block_eq hc.block hc.slot]
    exact hlast h12
  obtain ⟨rfl, hlive, hlast, hrec⟩ := hpost.ok hrun
  refine ⟨?_, hlast⟩
  by_contra hd2
  rcases hres with ⟨-, d', m', ⟨done', name', e', hpath', -⟩, hrem⟩ | ⟨hr, -⟩
  · -- the record on the disk is the old one
    obtain ⟨-, -, rfl⟩ := hpath.eq hpath'
    have hsize := hrem.size
    rw [← hrem.record, hrec (Nat.not_lt.1 hd2), hs.record_eq hlive] at hsize
    generalize ((s.view part).node d).iSize = size at hsize
    bv_omega
  · cases hr

/-- **When `sys_unlink` and `sys_stat` act on the whole path.** -/
theorem actsOnWhole_iff :
    (Followed part (s.view part) p.1 ∧ Deletable part s p.1 → ActsOnWhole part s p) ∧
    (¬ NoMemory s → ActsOnWhole part s p → Followed part (s.view part) p.1 ∧
      Deletable part s p.1) :=
  ⟨fun ⟨hf, hdel⟩ => ⟨unlink_of_followed hs hp hf hdel, stat_of_followed hs hp hf⟩,
    fun hmem h => ⟨⟨followed_of_stat hs hp hmem h.stat, followed_of_unlink hs hp hmem h.unlink⟩,
      deletable_of_unlink hs hp hmem h.unlink⟩⟩

end

end

/-- A deletion that returned 0. -/
theorem ActsOnWhole.removed {part : Partition} {s s' : FsState} {p : CString}
    (h : ActsOnWhole part s p) (hrun : sysUnlink part p s = .ok (0, s')) :
    ∃ d m, FileAt part (s.view part) p.1 d m ∧ Removed part s s' d m := by
  rcases h.unlink.ok hrun with ⟨-, hfile⟩ | ⟨h0, -⟩
  · exact hfile
  · cases h0

/-- The directories of the sample tree have one block each. -/
theorem child_treeFs {d k i : ℕ} (hd : d ∈ smallTree.live)
    (hc : (treeFs.view smallPart).IsChild d k i) : k = 0 := by
  by_contra hk0
  have := treeFs_slot d hd k (Nat.le_of_lt hc.block)
  rw [if_neg hk0] at this
  exact hc.slot this

theorem inOrder_treeFs : InOrder smallPart smallTree treeFs where
  sound := sound_treeFs
  counts := countsOk_treeFs
  disk := blocksOnDisk_treeFs
  tidy := by
    have hcounts : ∀ d < 3, ∀ i < 21, 2 ≤ i → ((treeFs.view smallPart).cell d 0 i).fType ≠ 0 →
        ((treeFs.view smallPart).cell d 0 i).counts = true := by decide +kernel
    refine ⟨by decide +kernel, fun d hd hk k i hc => ?_⟩
    have hd3 : ∀ d ∈ smallTree.live, smallTree.kind d = .directory → d < 3 := by decide
    obtain rfl := child_treeFs hd hc
    exact hcounts d (hd3 d hd hk) i hc.entry (hc.later rfl) hc.fType
  files g h hg := by cases hg

/-- `/f/y`. -/
def pathFY : CString := ⟨[0x2f, 0x66, 0x2f, 0x79], by decide⟩

/-- `sys_unlink` of `/f/y` removes the file. -/
theorem actsOnWhole_file : ∃ s' d m, sysUnlink smallPart pathFY treeFs = .ok (0, s') ∧
    FileAt smallPart (treeFs.view smallPart) pathFY.1 d m ∧ Removed smallPart treeFs s' d m := by
  have hnames : names pathFY.1 = [[0x66], [0x79]] := by decide
  have hpath : AbsolutePath pathFY.1 := ⟨by decide, by decide, by decide, by decide⟩
  have hres : (treeFs.view smallPart).resolve smallPart [[0x66]] 0 = some 1 := by decide +kernel
  have hdir : ((treeFs.view smallPart).lookup smallPart 0 [0x66]).all
      (fun e => e.fType != FileType.regular.code) = true := by decide +kernel
  have hacts : ActsOnWhole smallPart treeFs pathFY := by
    refine (actsOnWhole_iff inOrder_treeFs hpath).1 ⟨⟨?_, by decide +kernel⟩, ?_⟩
    · intro done name rest d e hp hd hl ht
      rw [hnames] at hp
      cases done with
      | nil =>
        obtain ⟨rfl, -⟩ := List.cons.inj hp
        obtain rfl := Option.some.inj hd
        rw [hl, Option.all_some, ht] at hdir
        exact absurd hdir (by decide)
      | cons x done =>
        cases done with
        | nil => exact (List.cons.inj (List.cons.inj hp).2).2.symm
        | cons y done => exact absurd (List.cons.inj (List.cons.inj hp).2).2 (by simp)
    · rintro d m ⟨done, name, e, hto, -⟩ -
      have hsplit : names pathFY.1 = [[0x66]] ++ [[0x79]] := hnames
      obtain ⟨rfl, -⟩ := List.append_inj' (hto.names.symm.trans hsplit) rfl
      obtain rfl := Option.some.inj (hres.symm.trans hto.resolve)
      refine ⟨by decide, fun k i hc _ h12 => ?_⟩
      rw [child_treeFs (by decide) hc] at h12
      omega
  have hrun : sysUnlink smallPart pathFY treeFs =
      .ok (0, (sysUnlink smallPart pathFY).final treeFs) := eq_ok_of_value? (by decide +kernel)
  obtain ⟨d, m, hfile, hrem⟩ := hacts.removed hrun
  exact ⟨_, d, m, hrun, hfile, hrem⟩

/-- A deletion by a path whose parent is no directory. -/
theorem not_actsOnWhole {part : Partition} {s s' : FsState} {p : CString}
    {done : List (List Byte)} {name : List Byte} (hnames : names p.1 = done ++ [name])
    (hrun : sysUnlink part p s = .ok (0, s'))
    (hstuck : (s.view part).resolve part done 0 = none) : ¬ ActsOnWhole part s p := by
  intro h
  obtain ⟨d, m, ⟨done', name', e, hpath, -⟩, -⟩ := h.removed hrun
  obtain ⟨rfl, -⟩ := List.append_inj' (hpath.names.symm.trans hnames) rfl
  rw [hpath.resolve] at hstuck
  cases hstuck

/-- **A path through a file deletes the file.** After the creation of `/f`, `sys_unlink` of `/f/x`
returns 0 and gives the number of `/f` back. -/
theorem unlink_below_file : ∃ s1 s2 s3, sysOpen smallPart pathF 4 smallFs = .ok (3, s1) ∧
    sysClose 3 s1 = .ok (0, s2) ∧ sysUnlink smallPart pathFX s2 = .ok (0, s3) ∧
    s2.inodeBitmap.bit 1 = true ∧ s3.inodeBitmap.bit 1 = false ∧
    ¬ ActsOnWhole smallPart s2 pathFX := by
  have hrun : sysUnlink smallPart pathFX ((sysClose 3).final ((sysOpen smallPart pathF 4).final
      smallFs)) = .ok (0, (sysUnlink smallPart pathFX).final ((sysClose 3).final
        ((sysOpen smallPart pathF 4).final smallFs))) := eq_ok_of_value? (by decide +kernel)
  have hnames : names pathFX.1 = [[0x66]] ++ [[0x78]] := by decide
  exact ⟨_, _, _, eq_ok_of_value? (by decide +kernel), eq_ok_of_value? (by decide +kernel), hrun,
    by decide +kernel, by decide +kernel, not_actsOnWhole hnames hrun (by decide +kernel)⟩

end X86Os
