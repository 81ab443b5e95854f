import X86Os.Fs.Resolved

/-!
# The way up

A process keeps its working directory as an inode number. `sys_chdir` goes down a path by name to
find it; `sys_getcwd` has to come back up by number. From a directory it reads the number of the
parent in the second entry of the first block, goes through the raw entries of the parent for the
number of the child, and appends a slash and the name next to it. The names come out last one first,
so in the end the string is turned round component by component.

Only the number of an entry is compared, not its type. That finds the right entry because an entry
that is not in use has been cleared (`Cleared`), because `.` and `..` of the parent name directories
further up, and because a live inode has one entry. That the loop ends is not for want of cycles in
general, but because a directory that a path of names leads to has that path to go back.

Strings are lists of bytes without their terminator. The array for the names has `MAX_PATH_LEN`
bytes and the caller's buffer `size`; a string that does not fit is a wild access.
-/

namespace X86Os

open X86Os.Comp FsState

/-! ### The code -/

/-- The string that starts in a buffer with `left` bytes to go, `none` if it does not end there. -/
def strOf : (left : ℕ) → Buf → Option (List Byte)
  | 0, _ => none
  | left + 1, b => if b 0 = 0 then some [] else (strOf left fun k => b (k + 1)).map (b 0 :: ·)

section

variable (part : Partition)

/-- `get_parent_dir_inode_nr`. -/
def getParentDirInodeNr (childInodeNr : Word) : Kern FsState Word := do
  let h ← inodeOpen part childInodeNr
  let s ← get
  let blockLba := (s.inode h).iSectors 0
  ASSERT .getParentDirInodeNr (decide (part.sb.dataStartLba ≤ blockLba.toNat))
  inodeClose h
  let b ← onDisk (ideRead blockLba.toNat (fun _ => 0) 1)
  ASSERT .getParentDirInodeNr (decide ((entryAt b 1).iNo.toNat < 4096 ∧
    (entryAt b 1).fType = FileType.directory.code))
  pure (entryAt b 1).iNo

/-- `strcat(path, "/")` and `strcat(path, filename)` for entry `i` of a sector. -/
def appendName (path : List Byte) (b : Buf) (i : ℕ) : Kern FsState (List Byte) :=
  match strOf (512 - dirEntrySize * i) (entryAt b i).filename with
  | none => stop .wild
  | some name => do
    check (decide (path.length + name.length + 1 < maxPathLen)) .wild
    pure (path ++ slash :: name)

/-- The loop of `get_child_dir_name` over the blocks, with `left` of them to go. -/
def nameBlocks (blocks : ℕ → Word) (cInodeNr : Word) (path : List Byte) :
    (left : ℕ) → (blockIdx : ℕ) → Kern FsState (Option (List Byte))
  | 0, _ => pure none
  | left + 1, blockIdx =>
    if blocks blockIdx = 0 then nameBlocks blocks cInodeNr path left (blockIdx + 1)
    else do
      let b ← onDisk (ideRead (blocks blockIdx).toNat (fun _ => 0) 1)
      match (List.range (dirEntrysPerSec part)).find? fun i => (entryAt b i).iNo == cInodeNr with
      | some i => do
        let path ← appendName path b i
        pure (some path)
      | none => nameBlocks blocks cInodeNr path left (blockIdx + 1)

/-- `get_child_dir_name`: what is in `path` when it returns 0, and `none` when it returns -1. -/
def getChildDirName (pInodeNr cInodeNr : Word) (path : List Byte) :
    Kern FsState (Option (List Byte)) := do
  let h ← inodeOpen part pInodeNr
  let s ← get
  let blocks ← allBlocks (s.inode h)
  inodeClose h
  nameBlocks part blocks cInodeNr path (if (s.inode h).iSectors 12 ≠ 0 then 140 else 12) 0

/-- The first loop of `sys_getcwd`. A round makes the path longer by a slash at least, so that it
does not fit into its array any more before the rounds are used up. -/
def climb : (rounds : ℕ) → (childInodeNr : Word) → (path : List Byte) →
    Kern FsState (Option (List Byte))
  | 0, _, _ => stop .hang
  | rounds + 1, childInodeNr, path =>
    if childInodeNr = 0 then pure (some path)
    else do
      let parentInodeNr ← getParentDirInodeNr part childInodeNr
      match ← getChildDirName part parentInodeNr childInodeNr path with
      | none => pure none
      | some path => climb rounds parentInodeNr path

/-- The second loop of `sys_getcwd`. A round makes the path shorter. -/
def unreverse {σ : Type} (size : ℕ) : (rounds : ℕ) → (fullPathReverse buf : List Byte) →
    Kern σ (List Byte)
  | 0, _, _ => stop .hang
  | rounds + 1, fullPathReverse, buf =>
    if slash ∈ fullPathReverse then do
      let lastSlash := slash :: baseName fullPathReverse
      check (decide (buf.length + lastSlash.length < size)) .wild
      unreverse size rounds (fullPathReverse.take (slashPtr fullPathReverse)) (buf ++ lastSlash)
    else pure buf

/-- `sys_getcwd` for a directory other than the root. -/
def cwdPath (size : Word) (cwdInodeNr : Word) : Kern FsState (Option (List Byte)) := do
  match ← climb part (maxPathLen + 1) cwdInodeNr [] with
  | none => pure none
  | some fullPathReverse => do
    ASSERT .sysGetcwd (decide (fullPathReverse.length ≤ size.toNat))
    let buf ← unreverse size.toNat (fullPathReverse.length + 1) fullPathReverse []
    pure (some buf)

/-- `sys_getcwd`: the string in `buf`, or `none` for a null pointer. `buf` says whether the caller's
pointer is one. -/
def sysGetcwd (buf : Bool) (size : Word) : Kern CwdState (Option (List Byte)) := do
  ASSERT .sysGetcwd buf
  let got ← onFs sysMalloc
  if got then do
    let s ← get
    let childInodeNr := s.cwdInodeNr s.fs.cur
    ASSERT .sysGetcwd (decide (childInodeNr.toNat < 4096))
    if childInodeNr = 0 then do
      check (decide (1 < size.toNat)) .wild
      pure (some [slash])
    else onFs (cwdPath part size childInodeNr)
  else pure none

end

/-! ### Strings -/

/-- A buffer that is equal to a string holds it. -/
theorem strOf_of_strEq {name : List Byte} (hz : ∀ c ∈ name, c ≠ 0) : ∀ {left : ℕ} {b : Buf},
    name.length < left → strEq b name = true → strOf left b = some name := by
  induction name with
  | nil =>
    intro left b hlt h
    obtain ⟨left, rfl⟩ := Nat.exists_eq_add_of_lt hlt
    rw [strOf, if_pos (by simpa [strEq] using h)]
  | cons c cs ih =>
    intro left b hlt h
    obtain ⟨left, rfl⟩ := Nat.exists_eq_add_of_lt hlt
    obtain ⟨rfl, hcs⟩ : b 0 = c ∧ strEq (fun k => b (k + 1)) cs = true := by simpa [strEq] using h
    rw [strOf, if_neg (hz _ List.mem_cons_self),
      ih (fun x hx => hz x (List.mem_cons_of_mem _ hx)) (by rw [List.length_cons]; omega) hcs]
    rfl

section

variable {σ : Type} {s : σ} {E : Fault → Prop} {Q : List Byte → σ → Prop} {size : ℕ}

/-- **The names are put back in order.** -/
theorem unreverse_wp (ns : List (List Byte)) (hns : ∀ n ∈ ns, IsName n) :
    ∀ {rounds : ℕ} {buf : List Byte}, ns.length < rounds →
    buf.length + (joinPath ns).length < size → Q (buf ++ joinPath ns.reverse) s →
    wp (unreverse size rounds (joinPath ns) buf) Q E s := by
  induction ns using List.reverseRecOn with
  | nil =>
    intro rounds buf hr hsize hQ
    obtain ⟨rounds, rfl⟩ := Nat.exists_eq_add_of_lt hr
    rw [unreverse, if_neg (by simp [joinPath])]
    simpa [joinPath] using hQ
  | append_singleton ns n ih =>
    intro rounds buf hr hsize hQ
    obtain ⟨rounds, rfl⟩ := Nat.exists_eq_add_of_lt hr
    have hn := hns n (by simp)
    rw [joinPath_append, joinPath_singleton, List.length_append, List.length_cons] at hsize
    rw [joinPath_append, joinPath_singleton, unreverse, if_pos (by simp), slashPtr_append hn,
      List.take_left, baseName_of_no_slash hn.no_slash, wp_bind, wp_check]
    refine ⟨fun _ => ih (fun x hx => hns x (by simp [hx])) ?_ ?_ ?_, fun hlong => ?_⟩
    · rw [List.length_append, List.length_singleton]
      omega
    · rw [List.length_append, List.length_cons]
      omega
    · rw [List.append_assoc, List.cons_append]
      rwa [List.reverse_append, List.reverse_singleton, List.singleton_append, joinPath_cons] at hQ
    · rw [decide_eq_false_iff_not, List.length_cons] at hlong
      omega

end

/-! ### One level up -/

/-- Entries that are not in use have no inode number. -/
def Cleared (G : Tree) (v : View) : Prop :=
  ∀ d ∈ G.live, G.kind d = .directory → ∀ k < 140, v.slot d k ≠ 0 → ∀ i < 21,
    (v.cell d k i).fType = 0 → (v.cell d k i).iNo = 0

section

variable {part : Partition} {G : Tree} {s s0 : FsState} {v : View} {stack : List (List Byte)}
  {name path : List Byte} {d k i : ℕ} {E : Fault → Prop}

/-- An entry with the number of a child is the entry of the child. -/
theorem Cleared.eq_child (hc : Cleared G v) (hi : FsInv part G.live G v) {p : ℕ} (hp : p ∈ G.live)
    (hk : G.kind p = .directory) (hchild : v.IsChild p k i)
    (hno : (v.cell p k i).iNo = BitVec.ofNat 32 d) (hd : d ∈ G.live) (h0 : d ≠ 0) (hdp : d ≠ p)
    (hgp : d ≠ G.home p) {k' i' : ℕ} (hk' : k' < 140) (hi' : i' < 21) (hs : v.slot p k' ≠ 0)
    (hno' : (v.cell p k' i').iNo = BitVec.ofNat 32 d) : k' = k ∧ i' = i := by
  have hdir := hi.dirs p hp hk
  have hlt := hi.lt d hd
  refine hdir.uniq k' i' k i ⟨hk', hi', fun h => ?_, hs, fun ht => ?_⟩ hchild (hno'.trans hno.symm)
  · subst h
    by_contra hlt2
    obtain rfl | rfl : i' = 0 ∨ i' = 1 := by omega
    · exact hdp (eq_of_ofNat hlt (hi.lt p hp) (hno'.symm.trans hdir.dot.iNo))
    · exact hgp (eq_of_ofNat hlt (hi.lt _ (hi.tree.home p hp).1) (hno'.symm.trans hdir.dotDot.iNo))
  · have hzero := hc p hp hk k' hk' hs i' hi' ht
    exact h0 (eq_of_ofNat hlt (by omega) (hno'.symm.trans hzero))

/-- A block of a live inode is read as the view has it. -/
theorem Session.sector_eq {held : List ℕ} (hs : Session part G s0 held s) (hd : d ∈ G.live)
    (hk : k ≤ 140) (h0 : (s0.view part).slot d k ≠ 0) :
    s.disk.sector ((s0.view part).slot d k).toNat =
      (s0.view part).data ((s0.view part).slot d k).toNat := by
  rw [← hs.view] at h0 ⊢
  exact (view_data (hs.sound.inv.own.used hd hk h0).le_toNat).symm

section

variable (hE : NoMemory s0 → E .wild) (hdisk : BlocksOnDisk part G s0)

include hE hdisk

/-- **`get_parent_dir_inode_nr`.** -/
theorem getParentDirInodeNr_wp {Q : Word → FsState → Prop} (hs : Session part G s0 [] s)
    (hd : d ∈ G.live) (hk : G.kind d = .directory)
    (hQ : ∀ s', Session part G s0 [] s' → Q (BitVec.ofNat 32 (G.home d)) s') :
    wp (getParentDirInodeNr part (BitVec.ofNat 32 d)) Q E s := by
  have hdir : DirOk G (s0.view part) d := hs.view ▸ hs.sound.inv.dirs d hd hk
  have hhome : G.home d < 4096 := hs.sound.lt (hs.sound.inv.tree.home d hd).1
  rw [getParentDirInodeNr, wp_bind]
  refine (inodeOpen_session hE hs (by decide) hd).mono ?_ fun _ h => h
  rintro h s1 ⟨hs1, ho, -⟩
  have hslot : (s1.inode h).iSectors 0 = (s0.view part).slot d 0 := by
    rw [← hs1.view, (hs1.sound.working ho).slot_lt (by decide)]
  have hused := hs1.sound.inv.own.used hd (Nat.zero_le 140) (by rw [hs1.view]; exact hdir.first)
  rw [hs1.view] at hused
  simp only [wp_bind, wp_get, wp_ASSERT, decide_eq_true_eq, decide_eq_false_iff_not, hslot]
  refine ⟨fun _ => ?_, fun hlt => absurd hused.le_toNat hlt⟩
  refine (inodeClose_session hs1).mono (fun _ s2 hs2 => ?_) fun _ h => h
  simp only [wp_onDisk, wp_readSector, wp_pure]
  refine ⟨fun _ => ?_, fun hlt => absurd (hdisk d hd 0 (Nat.zero_le _)) (Nat.not_le.2 hlt)⟩
  rw [hs2.sector_eq hd (Nat.zero_le _) hdir.first]
  have hno : (entryAt ((s0.view part).data ((s0.view part).slot d 0).toNat) 1).iNo =
      BitVec.ofNat 32 (G.home d) := hdir.dotDot.iNo
  rw [hno, toNat_ofNat hhome]
  exact ⟨fun _ => hQ s2 hs2, fun hne => absurd ⟨hhome, hdir.dotDot.fType⟩ hne⟩

end

/-- **The raw entries are searched for a number** that one of them has. -/
theorem nameBlocks_wp {blocks : ℕ → Word} {c : Word} {Q : Option (List Byte) → FsState → Prop}
    (hk0 : blocks k ≠ 0) (hi : i < 21)
    (hno : (entryAt (s.disk.sector (blocks k).toNat) i).iNo = c)
    (hname : strOf (512 - dirEntrySize * i)
      (entryAt (s.disk.sector (blocks k).toNat) i).filename = some name)
    (hlen : path.length + name.length + 1 < maxPathLen)
    (hQ : Q (some (path ++ slash :: name)) s) (left : ℕ) : ∀ {j : ℕ}, j ≤ k → k < j + left →
    (∀ k' i', k' < j + left → i' < 21 → blocks k' ≠ 0 →
      (entryAt (s.disk.sector (blocks k').toNat) i').iNo = c → k' = k ∧ i' = i) →
    (∀ k' < j + left, blocks k' ≠ 0 → (blocks k').toNat ≤ maxLba) →
    wp (nameBlocks part blocks c path left j) Q E s := by
  induction left with
  | zero =>
    intro j hj hlt
    omega
  | succ left ih =>
    intro j hj hlt huniq hdisk
    have hnext : j ≠ k → wp (nameBlocks part blocks c path left (j + 1)) Q E s := fun hjk =>
      ih (by omega) (by omega) (fun k' i' h => huniq k' i' (by omega))
        fun k' h => hdisk k' (by omega)
    rw [nameBlocks]
    split
    · rename_i h0
      exact hnext (by rintro rfl; exact hk0 h0)
    · rename_i h0
      simp only [wp_bind, wp_onDisk, wp_readSector]
      refine ⟨fun _ => ?_, fun hlt => absurd (hdisk j (by omega) h0) (Nat.not_le.2 hlt)⟩
      rw [dirEntrysPerSec_eq]
      cases hf : (List.range 21).find? fun i' =>
          (entryAt (s.disk.sector (blocks j).toNat) i').iNo == c with
      | some i' =>
        have hi' := List.mem_range.1 (List.mem_of_find?_eq_some hf)
        obtain ⟨rfl, rfl⟩ := huniq j i' (by omega) hi' h0 (by simpa using List.find?_some hf)
        simp only [appendName, hname, wp_bind, wp_check, wp_pure, decide_eq_true_eq,
          decide_eq_false_iff_not]
        exact ⟨fun _ => hQ, fun hlong => absurd hlen hlong⟩
      | none =>
        refine hnext ?_
        rintro rfl
        simpa [hno] using List.find?_eq_none.1 hf i (List.mem_range.2 hi)

/-- A directory that a path of names leads to is not in one of its own children. -/
theorem Tracks.home_ne (hi : FsInv part G.live G v) : ∀ {p d : ℕ}, Tracks part v stack p →
    d ≠ 0 → G.home d = p → d ≠ G.home p := by
  induction stack using List.reverseRecOn with
  | nil =>
    rintro p d h h0 - rfl
    obtain rfl : 0 = p := Option.some.inj h.resolve
    exact h0 hi.tree.home_root
  | append_singleton stack n ih =>
    rintro p d h h0 hp rfl
    obtain ⟨hstack, hp0, -⟩ := h.last hi
    exact ih hstack hp0 rfl hp.symm

section

variable (hE : NoMemory s0 → E .wild) (hdisk : BlocksOnDisk part G s0)
  (hclear : Cleared G (s0.view part))

include hE hdisk hclear

/-- **`get_child_dir_name`** for the directory that a path leads to. -/
theorem getChildDirName_wp {Q : Option (List Byte) → FsState → Prop}
    (hs : Session part G s0 [] s) (ht : Tracks part (s0.view part) (stack ++ [name]) d)
    (hlen : path.length + name.length + 1 < maxPathLen)
    (hQ : ∀ s', Session part G s0 [] s' → Q (some (path ++ slash :: name)) s') :
    wp (getChildDirName part (BitVec.ofNat 32 (G.home d)) (BitVec.ofNat 32 d) path) Q E s := by
  have hinv : FsInv part G.live G (s0.view part) := hs.view ▸ hs.sound.inv
  obtain ⟨hparent, h0, k, i, hchild, hno, hname⟩ := ht.last hinv
  obtain ⟨hlive, -⟩ := ht.dir hinv
  obtain ⟨hp, hkind⟩ := hparent.dir hinv
  have hplain := ht.plain name (by simp)
  rw [getChildDirName, wp_bind]
  refine (inodeOpen_session hE hs (by decide) hp).mono ?_ fun _ h => h
  rintro h s1 ⟨hs1, ho, -⟩
  have hw := hs1.sound.working ho
  have hslot : ∀ j ≤ 140, slotAddr (s1.inode h) s1.disk.sector j =
      (s0.view part).slot (G.home d) j := fun j hj => by rw [← hw.slot_object hj, hs1.view]
  simp only [wp_bind, wp_get]
  refine allBlocks_wp (fun _ hlt => ?_) fun blocks hblocks => ?_
  · rw [← hw.slot_table, hs1.view] at hlt
    exact absurd (hdisk _ hp 140 (Nat.le_refl _)) (Nat.not_le.2 hlt)
  have hblk : ∀ j < 140, blocks j = (s0.view part).slot (G.home d) j := fun j hj =>
    (hblocks j hj).trans (hslot j (by omega))
  refine (inodeClose_session hs1).mono (fun _ s2 hs2 => ?_) fun _ h => h
  have hcell : ∀ j < 140, (s0.view part).slot (G.home d) j ≠ 0 → ∀ i,
      (entryAt (s2.disk.sector (blocks j).toNat) i).trunc = (s0.view part).cell (G.home d) j i := by
    intro j hj hj0 i
    rw [hblk j hj, hs2.sector_eq hp (by omega) hj0]
    rfl
  -- a name ends before its entry does
  have hstr : strOf (512 - dirEntrySize * i)
      (entryAt (s2.disk.sector (blocks k).toNat) i).filename = some name := by
    have hi := hchild.entry
    have hlen := hplain.length_lt
    refine strOf_of_strEq hplain.ne_zero (by rw [dirEntrySize]; omega) ?_
    rw [← strEq_trunc hlen, hcell k hchild.block hchild.slot]
    exact hname
  have hiNo : ∀ j < 140, (s0.view part).slot (G.home d) j ≠ 0 → ∀ i,
      (entryAt (s2.disk.sector (blocks j).toNat) i).iNo =
        ((s0.view part).cell (G.home d) j i).iNo := by
    intro j hj hj0 i
    rw [← hcell j hj hj0 i]
    rfl
  have hcount : ∀ n, n = (if (s1.inode h).iSectors 12 ≠ 0 then 140 else 12) → k < n ∧ n ≤ 140 := by
    rintro n rfl
    have hk := hchild.block
    split
    · exact ⟨hk, Nat.le_refl _⟩
    · rename_i htable
      refine ⟨?_, by decide⟩
      by_contra hge
      refine hchild.slot ?_
      rw [← hslot k (by omega), slotAddr, if_neg hge, if_neg (by omega), if_pos (not_not.1 htable)]
  generalize hn : (if (s1.inode h).iSectors 12 ≠ 0 then 140 else 12) = n
  obtain ⟨hkn, hn140⟩ := hcount n hn.symm
  refine nameBlocks_wp (k := k) (i := i) ?_ hchild.entry ?_ hstr hlen (hQ s2 hs2) n (Nat.zero_le _)
    (by omega) ?_ ?_
  · rw [hblk k hchild.block]
    exact hchild.slot
  · rw [hiNo k hchild.block hchild.slot, hno]
  · intro k' i' hk' hi' hs' hno'
    rw [hblk k' (by omega)] at hs'
    rw [hiNo k' (by omega) hs'] at hno'
    exact hclear.eq_child hinv hp hkind hchild hno hlive h0
      (hinv.tree.home_ne d hlive h0).symm (hparent.home_ne hinv h0 rfl) (by omega) hi' hs' hno'
  · intro k' hk' _
    rw [hblk k' (by omega)]
    exact hdisk _ hp k' (by omega)

/-- **The first loop**: the names of the path come out in reverse. -/
theorem climb_wp {Q : Option (List Byte) → FsState → Prop} (stack : List (List Byte)) :
    ∀ {s : FsState} {d rounds : ℕ} {path : List Byte}, Session part G s0 [] s →
    Tracks part (s0.view part) stack d → stack.length < rounds →
    path.length + (joinPath stack).length < maxPathLen →
    (∀ s', Session part G s0 [] s' → Q (some (path ++ joinPath stack.reverse)) s') →
    wp (climb part rounds (BitVec.ofNat 32 d) path) Q E s := by
  induction stack using List.reverseRecOn with
  | nil =>
    intro s d rounds path hs ht hr _ hQ
    obtain ⟨rounds, rfl⟩ := Nat.exists_eq_add_of_lt hr
    obtain rfl : 0 = d := Option.some.inj ht.resolve
    rw [climb, if_pos (show BitVec.ofNat 32 0 = 0 from rfl)]
    simpa [joinPath] using hQ s hs
  | append_singleton stack n ih =>
    intro s d rounds path hs ht hr hlen hQ
    obtain ⟨rounds, rfl⟩ := Nat.exists_eq_add_of_lt hr
    have hinv : FsInv part G.live G (s0.view part) := hs.view ▸ hs.sound.inv
    obtain ⟨hparent, h0, -⟩ := ht.last hinv
    obtain ⟨hlive, hkind⟩ := ht.dir hinv
    rw [joinPath_append, joinPath_singleton, List.length_append, List.length_cons] at hlen
    have hne : BitVec.ofNat 32 d ≠ 0 := fun h => h0 (eq_of_ofNat (hinv.lt d hlive) (by decide) h)
    rw [climb, if_neg hne, wp_bind]
    refine getParentDirInodeNr_wp hE hdisk hs hlive hkind fun s1 hs1 => ?_
    rw [wp_bind]
    refine getChildDirName_wp hE hdisk hclear hs1 ht (by omega) fun s2 hs2 => ?_
    refine ih hs2 hparent ?_ ?_ fun s' hs' => ?_
    · rw [List.length_append, List.length_singleton]
      omega
    · rw [List.length_append, List.length_cons]
      omega
    · have := hQ s' hs'
      rwa [List.reverse_append, List.reverse_singleton, List.singleton_append, joinPath_cons,
        ← List.cons_append, ← List.append_assoc] at this

end

/-! ### Down and up again -/

@[simp] theorem wp_onFs {α : Type} {x : Kern FsState α} {Q : α → CwdState → Prop} {s : CwdState} :
    wp (onFs x) Q E s ↔ wp x (fun a fs => Q a { s with fs := fs }) E s.fs := wp_zoom

/-- `search_file` on the path of a directory. -/
theorem searchFile_tracks {p : CString} (hs : Sound part G s) (hr : CountsOk s)
    (hd : BlocksOnDisk part G s) (hmem : ¬ NoMemory s) (ht : Tracks part (s.view part) stack d)
    (hn : ∀ n ∈ stack, IsName n) (hp : p.1 = spell stack) (hlen : p.1.length < maxPathLen) :
    wp (searchFile part p) (fun r s' => r.1 = BitVec.ofNat 32 d ∧ r.2.fileType = .directory ∧
      Session part G s (r.2.parentDir.held ++ []) s') E s := by
  by_cases hst : stack = []
  · subst hst
    obtain rfl : 0 = d := Option.some.inj ht.resolve
    rw [searchFile, wp_bind, wp_get, if_pos (.inl hp)]
    exact ⟨rfl, rfl, (Session.refl hs hr).holdsRoot.toSession⟩
  · rw [spell, if_neg hst] at hp
    have habs : AbsolutePath p.1 := by
      rw [hp] at hlen ⊢
      exact absolutePath_joinPath hst hn (fun n h => (ht.plain n h).length_lt) hlen
    have hnames : names p.1 = stack := by rw [hp, names_joinPath hn]
    have hres : Resolves part (s.view part) p.1 d .directory :=
      resolves_of_resolve habs.component habs.plain (by rw [hnames]; exact ht.resolve)
    refine (searchFile_wp (habs.faults hd fun _ h => (hmem h).elim) (.refl hs hr)).mono ?_
      fun _ h => h
    rintro r s' ⟨-, d', hf, hs'⟩
    obtain ⟨hno, hty⟩ := hf.of_resolves hs.inv hmem hres
    exact ⟨hno, hty, hs'.toSession⟩

section

variable {s0 : FsState} {s : CwdState} {p : CString} (hn : ∀ n ∈ stack, IsName n)
  (hp : p.1 = spell stack) (hlen : p.1.length < maxPathLen)

include hn hp hlen

/-- **`sys_chdir`** to the path of a directory. -/
theorem sysChdir_tracks (hs : Sound part G s.fs) (hr : CountsOk s.fs)
    (hd : BlocksOnDisk part G s.fs) (hmem : ¬ NoMemory s.fs)
    (ht : Tracks part (s.fs.view part) stack d) :
    wp (sysChdir part p) (fun ret s' => ret = 0 ∧
      s'.cwdInodeNr s'.fs.cur = BitVec.ofNat 32 d ∧ Session part G s.fs [] s'.fs) E s := by
  have hlive := (ht.dir hs.inv).1
  rw [sysChdir, wp_bind, wp_onFs]
  refine (searchFile_tracks hs hr hd hmem ht hn hp hlen).mono ?_ fun _ h => h
  rintro ⟨n, r⟩ s1 ⟨hno, hty, hs1⟩
  obtain rfl : n = BitVec.ofNat 32 d := hno
  simp only [chdirFound, if_pos (And.intro (iNo_ne_neg_one hs hlive) hty), wp_bind, wp_modify,
    wp_pure, wp_onFs]
  refine (dirClose_wp hs1).mono (fun _ s2 hs2 => ⟨trivial, ?_, hs2⟩) fun _ h => h
  rw [if_pos ((cur_of_tables hs2.same).trans (cur_of_tables hs1.same).symm)]

/-- **`sys_getcwd`** in the directory of a path. -/
theorem sysGetcwd_tracks (hs : Session part G s0 [] s.fs) (hd : BlocksOnDisk part G s0)
    (hclear : Cleared G (s0.view part)) (hmem : ¬ NoMemory s0)
    (ht : Tracks part (s0.view part) stack d)
    (hcwd : s.cwdInodeNr s.fs.cur = BitVec.ofNat 32 d) :
    wp (sysGetcwd part true (BitVec.ofNat 32 maxPathLen)) (fun r _ => r = some p.1) E s := by
  have hinv : FsInv part G.live G (s0.view part) := hs.view ▸ hs.sound.inv
  have hlt := hinv.lt d (ht.dir hinv).1
  have hgot : s.fs.mallocs 0 = true := by
    by_contra h
    exact hmem (hs.noMemory (Bool.eq_false_iff.2 h))
  have hsize : (BitVec.ofNat 32 maxPathLen).toNat = maxPathLen := by decide
  simp only [sysGetcwd, wp_bind, wp_ASSERT, wp_onFs, wp_sysMalloc, hgot, if_true, wp_get, hcwd,
    toNat_ofNat hlt, hsize, decide_eq_true_eq, decide_eq_false_iff_not]
  refine ⟨fun _ => ⟨fun _ => ?_, fun h => absurd hlt h⟩, fun h => absurd h (by decide)⟩
  rcases List.eq_nil_or_concat stack with rfl | ⟨st, n, hst⟩
  · obtain rfl : 0 = d := Option.some.inj ht.resolve
    rw [if_pos (show BitVec.ofNat 32 0 = 0 from rfl)]
    simp only [wp_bind, wp_check, wp_pure]
    exact ⟨fun _ => by rw [hp]; rfl, fun h => absurd h (by decide)⟩
  · rw [List.concat_eq_append] at hst
    have hd0 : d ≠ 0 := ((hst ▸ ht).last hinv).2.1
    have hne : BitVec.ofNat 32 d ≠ 0 := fun h => hd0 (eq_of_ofNat hlt (by decide) h)
    have hspell : p.1 = joinPath stack := by rw [hp, spell, if_neg (by simp [hst])]
    rw [hspell] at hlen ⊢
    have hrev : (joinPath stack.reverse).length = (joinPath stack).length := by
      simp [joinPath, List.length_flatMap, List.sum_reverse]
    have hround := length_le_joinPath stack
    rw [if_neg hne, wp_onFs, cwdPath, wp_bind]
    refine climb_wp (fun h => (hmem h).elim) hd hclear stack (hs.afterMallocs 1) ht (by omega)
      (by rw [List.length_nil]; omega) fun s1 _ => ?_
    simp only [List.nil_append, wp_bind, wp_ASSERT, hsize, hrev, decide_eq_true_eq,
      decide_eq_false_iff_not]
    refine ⟨fun _ => ?_, fun h => absurd (Nat.le_of_lt hlen) h⟩
    refine unreverse_wp stack.reverse (fun n h => hn n (List.mem_reverse.1 h)) ?_ ?_ ?_
    · rw [List.length_reverse]
      omega
    · rw [hrev, List.length_nil]
      omega
    · rw [List.reverse_reverse]
      rfl

/-- **`sys_getcwd` is the inverse of `sys_chdir`.** The tree is in order, with blocks on the disk,
and there is memory. `p` is the path of directory `d` in the tree: a slash and a name for each step
down, or a slash alone. Then `sys_chdir` succeeds, and `sys_getcwd` returns `p`. -/
theorem getcwd_inverts_chdir (hs : Sound part G s.fs) (hr : CountsOk s.fs)
    (hd : BlocksOnDisk part G s.fs) (hclear : Cleared G (s.fs.view part)) (hmem : ¬ NoMemory s.fs)
    (ht : Tracks part (s.fs.view part) stack d) :
    ∃ s1 s2, sysChdir part p s = .ok (0, s1) ∧
      sysGetcwd part true (BitVec.ofNat 32 maxPathLen) s1 = .ok (some p.1, s2) := by
  obtain ⟨ret, s1, hchdir, rfl, hcwd, hs1⟩ :=
    (sysChdir_tracks (E := fun _ => False) hn hp hlen hs hr hd hmem ht).returns
  obtain ⟨r, s2, hgetcwd, rfl⟩ :=
    (sysGetcwd_tracks (E := fun _ => False) hn hp hlen hs1 hd hclear hmem ht hcwd).returns
  exact ⟨s1, s2, hchdir, hgetcwd⟩

end

end

theorem cleared_treeFs : Cleared smallTree (treeFs.view smallPart) := by
  rw [Cleared]
  decide +kernel

/-- `/f/x`, two levels down. -/
theorem getcwd_inverts_chdir_nested :
    ∃ s1 s2, sysChdir smallPart pathFX ⟨treeFs, fun _ => 0⟩ = .ok (0, s1) ∧
      sysGetcwd smallPart true (BitVec.ofNat 32 maxPathLen) s1 = .ok (some pathFX.1, s2) := by
  have hn : ∀ n ∈ [[0x66], [0x78]], IsName n :=
    List.forall_mem_cons.2 ⟨⟨by decide, by decide⟩,
      List.forall_mem_cons.2 ⟨⟨by decide, by decide⟩, List.forall_mem_nil _⟩⟩
  exact getcwd_inverts_chdir (s := ⟨treeFs, fun _ => 0⟩) hn rfl (by decide) sound_treeFs
    countsOk_treeFs blocksOnDisk_treeFs cleared_treeFs memory_treeFs tracks_pathFX

end X86Os
