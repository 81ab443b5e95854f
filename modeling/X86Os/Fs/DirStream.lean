import X86Os.Fs.DirRead
import X86Os.Fs.Resolved
import X86Os.Lib.RefCount
import X86Os.Lib.TransSys

/-!
# Directory streams

A program lists a directory with `sys_opendir`, calls of `sys_readdir` until a null pointer comes
back, and `sys_closedir`. What it should see are the entries of the directory in order, each once,
whatever other streams are open and were open before.

`dir_open` allocates a `struct dir` for each stream, with a position of its own. But `sys_opendir`
of `/` returns the address of `root_dir`, which there is once, and it does not set the position to
zero; `dir_close` leaves `root_dir` alone, its position included. So a second listing of `/` begins
where the first one ended, and two listings at a time share their position.

The system below has all four calls, on any number of streams. A stream carries what it has returned
since it was opened or rewound, which the code does not record. The guard `StreamOk` lets `/` be
opened when the position of `root_dir` is zero and no stream on `root_dir` is open; under it, every
stream has returned the entries of its directory in order, and then nothing.

An inode must stay in the list of open inodes as long as a stream is on it, so the invariant counts
the streams on each inode against `i_open_cnts`.
-/

namespace X86Os

open X86Os.Comp FsState

/-! ### The system -/

/-- A stream: the path it was opened with, its `struct dir`, and what `sys_readdir` returned since
it was opened or rewound. -/
structure Stream where
  path : CString
  dir : Dir
  dirPos : Word
  given : List (Option DirEntry)

/-- The file system, the position of `root_dir`, and the open streams under the numbers that they
were given. -/
structure StreamState where
  fs : FsState
  rootPos : Word
  streams : ℕ → Option Stream
  next : ℕ

namespace StreamState

variable (s : StreamState)

/-- The position of a stream, which is that of its `struct dir`. -/
def pos (st : Stream) : Word := if st.dir.isRoot then s.rootPos else st.dirPos

def setStream (i : ℕ) (st : Option Stream) : StreamState :=
  { s with streams := fun j => if j = i then st else s.streams j }

/-- A new stream. -/
def add (st : Stream) : StreamState :=
  { s with streams := fun j => if j = s.next then some st else s.streams j, next := s.next + 1 }

/-- Stream `i`, which is `st`, gets another position. -/
def seek (i : ℕ) (st : Stream) (pos : Word) (given : List (Option DirEntry)) : StreamState :=
  if st.dir.isRoot then { s.setStream i (some { st with given := given }) with rootPos := pos }
  else s.setStream i (some { st with dirPos := pos, given := given })

end StreamState

/-- A call on the file system. -/
def onStreams {α : Type} (x : Kern FsState α) : Kern StreamState α :=
  zoom StreamState.fs (fun s fs => { s with fs := fs }) x

inductive StreamAct where
  | opendir (name : CString)
  | readdir (i : ℕ)
  | rewinddir (i : ℕ)
  | closedir (i : ℕ)

section

variable (part : Partition)

/-- `sys_opendir`: a stream of its own, but for `/`. -/
def openStream (name : CString) : Kern StreamState Unit := do
  match ← onStreams (sysOpendir part name) with
  | none => pure ()
  | some dir => modify fun s => s.add ⟨name, dir, 0, []⟩

/-- `sys_readdir` of stream `i`, which is `st`. -/
def sysReaddir (i : ℕ) (st : Stream) : Kern StreamState (Option DirEntry) := do
  let s ← get
  let (e, pos) ← onStreams (dirRead part st.dir.inode (s.pos st))
  modify fun s => s.seek i st pos (st.given ++ [e])
  pure e

/-- `sys_rewinddir` of stream `i`, which is `st`. -/
def sysRewinddir (i : ℕ) (st : Stream) : Kern StreamState Unit :=
  modify fun s => s.seek i st 0 []

/-- `sys_closedir` of stream `i`, which is `st`. -/
def closeStream (i : ℕ) (st : Stream) : Kern StreamState Unit := do
  let _ ← onStreams (sysClosedir st.dir)
  modify fun s => s.setStream i none

/-- The state after a call. There is no call on a stream that is not open. -/
def streamNext (s : StreamState) : StreamAct → Option StreamState
  | .opendir name => (openStream part name).state? s
  | .readdir i => (s.streams i).bind fun st => (sysReaddir part i st).state? s
  | .rewinddir i => (s.streams i).bind fun st => (sysRewinddir i st).state? s
  | .closedir i => (s.streams i).bind fun st => (closeStream i st).state? s

/-- Runs begin with a mounted file system, whose blocks are on the disk, and no streams. -/
def streamSys : TransSys StreamState StreamAct :=
  .ofNext (fun s => (∃ G, Sound part G s.fs ∧ BlocksOnDisk part G s.fs) ∧ CountsOk s.fs ∧
    s.rootPos = 0 ∧ ∀ i, s.streams i = none) (streamNext part)

end

/-- A directory is opened while the counts of open inodes have room, and with a path that has a
component or is `/`. At `/`, `root_dir` is at its start, and no stream is on it. -/
def StreamOk (s : StreamState) : StreamAct → Prop
  | .opendir name =>
    (∀ h ∈ s.fs.openInodes, (s.fs.inode h).iOpenCnts.toNat + 8 < 2 ^ 32) ∧
    (names name.1 ≠ [] ∨ name.1 = [slash] ∧ s.rootPos = 0 ∧
      ∀ i st, s.streams i = some st → st.dir.isRoot = false)
  | _ => True

/-! ### What a stream has returned -/

/-- Stream `st` is on directory `d`, to which its path leads, and it has returned the first entries
of the directory, or all of them and then nothing. -/
structure Lists (part : Partition) (G : Tree) (s : StreamState) (st : Stream) (d : ℕ) : Prop where
  obj : ObjectOf G s.fs st.dir.inode d
  dir : G.kind d = .directory
  path : (s.fs.view part).resolve part (names st.path.1) 0 = some d
  root : st.dir.isRoot = true → st.dir.inode = s.fs.rootInode
  given : st.given =
    (List.range st.given.length).map fun k => ((s.fs.view part).entries d)[k]?
  pos : s.pos st =
    BitVec.ofNat 32 (24 * min st.given.length ((s.fs.view part).entries d).length)

namespace StreamState

variable (s : StreamState)

/-- The inode that a stream has open for itself. -/
def handle (i : ℕ) : Option ℕ := (s.streams i).bind fun st => st.dir.held.head?

/-- The references to the inode at `h` that have to be there: those of the streams, and the one from
mounting for the root. -/
def owed (h : ℕ) : ℕ :=
  rowRefs (Finset.range s.next) s.handle (some h) + if h = s.fs.rootInode then 1 else 0

end StreamState

/-- What holds in every state of a guarded run. -/
structure StreamInv (part : Partition) (G : Tree) (s : StreamState) : Prop where
  sound : Sound part G s.fs
  disk : BlocksOnDisk part G s.fs
  counts : ∀ h ∈ s.fs.openInodes, (s.fs.inode h).iOpenCnts ≠ 0
  owed : ∀ h ∈ s.fs.openInodes, s.owed h ≤ (s.fs.inode h).iOpenCnts.toNat
  lt : ∀ i st, s.streams i = some st → i < s.next
  lists : ∀ i st, s.streams i = some st → ∃ d, Lists part G s st d
  root : ∀ i j st st', s.streams i = some st → s.streams j = some st' → st.dir.isRoot = true →
    st'.dir.isRoot = true → i = j

section

variable {part : Partition} {G : Tree} {s : StreamState} {fs : FsState} {st : Stream} {i d h : ℕ}

theorem Lists.entry (hl : Lists part G s st d) : ∀ k < st.given.length,
    st.given[k]? = some ((s.fs.view part).entries d)[k]? := by
  intro k hk
  rw [hl.given, List.getElem?_map, List.getElem?_range (by simpa using hk), Option.map_some]

/-! ### `sys_readdir` and `sys_rewinddir` -/

theorem StreamState.fs_seek (pos : Word) (given : List (Option DirEntry)) :
    (s.seek i st pos given).fs = s.fs := by
  rw [seek]
  split <;> rfl

theorem StreamState.next_seek (pos : Word) (given : List (Option DirEntry)) :
    (s.seek i st pos given).next = s.next := by
  rw [seek]
  split <;> rfl

/-- The streams after a change of position. -/
theorem StreamState.streams_seek (pos : Word) (given : List (Option DirEntry)) (j : ℕ) :
    (s.seek i st pos given).streams j = if j = i then
      some { st with dirPos := if st.dir.isRoot then st.dirPos else pos, given := given }
      else s.streams j := by
  rw [seek]
  split <;> rfl

/-- **A change of position** leaves the other streams alone. -/
theorem StreamInv.seek (hs : StreamInv part G s) (hst : s.streams i = some st)
    {pos : Word} {given : List (Option DirEntry)}
    (hpos : ∀ d, Lists part G s st d →
      given = ((List.range given.length).map fun k => ((s.fs.view part).entries d)[k]?) ∧
      pos = BitVec.ofNat 32 (24 * min given.length ((s.fs.view part).entries d).length)) :
    StreamInv part G (s.seek i st pos given) := by
  have hfs : (s.seek i st pos given).fs = s.fs := StreamState.fs_seek pos given
  have hstreams := @StreamState.streams_seek s st i pos given
  -- a stream after the change is one before it, on the same `struct dir`
  have hback : ∀ j st', (s.seek i st pos given).streams j = some st' →
      ∃ st0, s.streams j = some st0 ∧ st0.dir = st'.dir := by
    intro j st' hj
    rw [hstreams] at hj
    split at hj
    · rename_i hji
      obtain rfl := Option.some.inj hj
      exact ⟨st, hji ▸ hst, rfl⟩
    · exact ⟨st', hj, rfl⟩
  have hhandle : (s.seek i st pos given).handle = s.handle := by
    funext j
    rw [StreamState.handle, StreamState.handle, hstreams]
    split
    · rename_i hji
      rw [hji, hst]
      rfl
    · rfl
  have howed : ∀ h, (s.seek i st pos given).owed h = s.owed h := fun h => by
    rw [StreamState.owed, StreamState.owed, hhandle, hfs, StreamState.next_seek]
  refine ⟨hfs ▸ hs.sound, hfs ▸ hs.disk, hfs ▸ hs.counts, fun h hh => ?_, fun j st' hj => ?_,
    fun j st' hj => ?_, fun j k st1 st2 hj hk h1 h2 => ?_⟩
  · rw [howed, hfs]
    rw [hfs] at hh
    exact hs.owed h hh
  · obtain ⟨st0, hj0, -⟩ := hback j st' hj
    rw [StreamState.next_seek]
    exact hs.lt j st0 hj0
  · rw [hstreams] at hj
    split at hj
    · obtain rfl := Option.some.inj hj
      obtain ⟨d, hl⟩ := hs.lists i st hst
      obtain ⟨hg, hp⟩ := hpos d hl
      refine ⟨d, hfs ▸ hl.obj, hl.dir, hfs ▸ hl.path, hfs ▸ hl.root, hfs ▸ hg, ?_⟩
      rw [hfs, ← hp, StreamState.pos, StreamState.seek]
      cases hr : st.dir.isRoot <;> rfl
    · -- two streams on `root_dir` would be one
      rename_i hji
      obtain ⟨d, hl⟩ := hs.lists j st' hj
      refine ⟨d, hfs ▸ hl.obj, hl.dir, hfs ▸ hl.path, hfs ▸ hl.root, hfs ▸ hl.given, ?_⟩
      rw [hfs, ← hl.pos, StreamState.pos, StreamState.pos, StreamState.seek]
      cases hr : st.dir.isRoot
      · rfl
      · cases hr' : st'.dir.isRoot
        · rfl
        · exact absurd (hs.root j i st' st hj hst hr' hr) hji
  · obtain ⟨st1', hj1, hd1⟩ := hback j st1 hj
    obtain ⟨st2', hk2, hd2⟩ := hback k st2 hk
    exact hs.root j k st1' st2' hj1 hk2 (hd1 ▸ h1) (hd2 ▸ h2)

/-- **`sys_readdir`** returns the next entry, and does not fail. -/
theorem sysReaddir_wp (hs : StreamInv part G s) (hst : s.streams i = some st)
    (hl : Lists part G s st d) : wp (sysReaddir part i st) (fun e s' =>
      e = ((s.fs.view part).entries d)[st.given.length]? ∧ StreamInv part G s')
      (fun _ => False) s := by
  have hentries := hs.sound.entries_eq hl.obj
  have hsize : 24 * ((s.fs.view part).entries d).length ≤
      (s.fs.inode st.dir.inode).iSize.toNat := by
    rw [hs.sound.iSize_object hl.obj]
    exact hs.sound.inv.entries_le hl.obj.live hl.dir
  have hread : ∀ k ≤ 140, slotAddr (s.fs.inode st.dir.inode) s.fs.disk.sector k ≠ 0 →
      maxLba < (slotAddr (s.fs.inode st.dir.inode) s.fs.disk.sector k).toNat → False := by
    intro k hk _ hlt
    rw [← (hs.sound.working hl.obj).slot_object hk] at hlt
    exact absurd (hs.disk d hl.obj.live k hk) (Nat.not_le.2 hlt)
  rw [sysReaddir, wp_bind, wp_get, wp_bind, onStreams, wp_zoom, hl.pos]
  generalize hE : ((s.fs.view part).entries d).length = len at *
  refine dirRead_wp (by rw [hentries, hE]; exact hsize) hread (by rw [hentries]; omega) ?_
  rw [hentries, hE, wp_bind, wp_modify, wp_pure]
  -- past the end, the position is that of the end and nothing is returned
  have hnext : ((s.fs.view part).entries d)[min st.given.length len]? =
      ((s.fs.view part).entries d)[st.given.length]? := by
    rcases Nat.le_total st.given.length len with hle | hle
    · rw [Nat.min_eq_left hle]
    · rw [Nat.min_eq_right hle, List.getElem?_eq_none (by omega), List.getElem?_eq_none (by omega)]
  refine ⟨hnext, hs.seek hst fun d' hl' => ?_⟩
  obtain rfl := hl.obj.eq hs.sound hl'.obj
  rw [List.length_append, List.length_singleton, hE]
  refine ⟨?_, by congr 2; omega⟩
  rw [List.range_succ, List.map_append, ← hl.given, List.map_singleton, hnext]

/-- **`sys_rewinddir`.** -/
theorem sysRewinddir_post (hs : StreamInv part G s) (hst : s.streams i = some st) :
    post (sysRewinddir i st) (fun _ s' => StreamInv part G s') s :=
  hs.seek hst fun _ _ => ⟨rfl, by simp⟩

/-! ### References -/

theorem Dir.count_held (p : Dir) (h : ℕ) :
    p.held.count h = if p.held.head? = some h then 1 else 0 := by
  rw [held]
  split
  · rfl
  · rw [List.count_singleton, List.head?_cons]
    simp

/-- An inode that is not open has no streams. -/
theorem StreamInv.owed_eq_zero (hs : StreamInv part G s) (hh : h ∉ s.fs.openInodes) :
    s.owed h = 0 := by
  have hroot : h ≠ s.fs.rootInode := fun he => hh (he ▸ hs.sound.root.mem)
  have hrow : rowRefs (Finset.range s.next) s.handle (some h) = 0 := by
    refine Nat.eq_zero_of_not_pos fun hpos => hh ?_
    obtain ⟨i, -, hi⟩ := rowRefs_pos_iff.1 hpos
    obtain ⟨st, hst, hd⟩ := Option.bind_eq_some_iff.1 hi
    obtain ⟨d, hl⟩ := hs.lists i st hst
    have hmem := List.mem_of_mem_head? hd
    rw [Dir.held] at hmem
    split at hmem
    · cases hmem
    · rw [List.mem_singleton.1 hmem]
      exact hl.obj.mem
  rw [StreamState.owed, hrow, if_neg hroot]

theorem StreamState.owed_add (s : StreamState) (st : Stream) (h : ℕ) :
    (s.add st).owed h = s.owed h + st.dir.held.count h := by
  have hnew : (s.add st).handle s.next = st.dir.held.head? := by
    simp [handle, add]
  have hold : rowRefs (Finset.range s.next) (s.add st).handle (some h) =
      rowRefs (Finset.range s.next) s.handle (some h) := by
    refine rowRefs_congr fun k hk => ?_
    simp only [handle, add, if_neg (Nat.ne_of_lt (Finset.mem_range.1 hk))]
  have hrow : rowRefs (Finset.range (s.next + 1)) (s.add st).handle (some h) =
      rowRefs (Finset.range s.next) (s.add st).handle (some h) +
        if (s.add st).handle s.next = some h then 1 else 0 := Finset.sum_range_succ _ _
  rw [hold, hnew, ← Dir.count_held] at hrow
  rw [owed, owed, show (s.add st).next = s.next + 1 from rfl, hrow,
    show (s.add st).fs = s.fs from rfl]
  omega

theorem StreamState.owed_close (hi : i < s.next) (hst : s.streams i = some st) (h : ℕ) :
    (s.setStream i none).owed h + st.dir.held.count h = s.owed h := by
  have hhandle : (s.setStream i none).handle = fun j => if j = i then none else s.handle j := by
    funext j
    simp only [handle, setStream]
    split <;> rfl
  have hcur : s.handle i = st.dir.held.head? := by rw [handle, hst, Option.bind_some]
  have hrow := rowRefs_update s.handle none (some h) (Finset.mem_range.2 hi)
  rw [← hhandle, hcur, ← Dir.count_held, if_neg nofun] at hrow
  rw [owed, owed, show (s.setStream i none).next = s.next from rfl,
    show (s.setStream i none).fs = s.fs from rfl]
  omega

/-! ### `sys_opendir` -/

/-- What `sys_opendir` returns: a `struct dir` for the directory that the path leads to. -/
structure OpenedDir (part : Partition) (G : Tree) (s0 : FsState) (name : CString) (dir : Dir)
    (d : ℕ) (s : FsState) : Prop extends Session part G s0 dir.held s where
  obj : ObjectOf G s dir.inode d
  kind : G.kind d = .directory
  path : (s0.view part).resolve part (names name.1) 0 = some d
  isRoot : dir.isRoot = true → name.1 = [slash] ∧ dir.inode = s0.rootInode

theorem iNo_inodeClose (h : ℕ) : Keeps (fun s : FsState => fun k => (s.inode k).iNo)
    (inodeClose h) := by
  have hcnt : ∀ (s : FsState) (g : Inode → Word), (fun k =>
      ((s.updInode h fun i => { i with iOpenCnts := g i }).inode k).iNo) =
        fun k => (s.inode k).iNo := by
    intro s g
    funext k
    rw [updInode]
    dsimp only
    split <;> rfl
  exact .bind (.modify fun s => hcnt s _) fun _ => .bind .get fun _ =>
    .ite (.modify fun _ => rfl) (.pure _)

theorem opendirFound_wp {E : Fault → Prop} {s0 s : FsState} {m : ℕ} {r : PathSearchRecord}
    {name : CString} (hE : NoMemory s0 → E .wild)
    (hs : Session part G s0 (r.parentDir.held ++ []) s) (hm : m ∈ G.live)
    (ht : G.kind m = .directory) (hr : r.fileType = .directory)
    (hp : (s0.view part).resolve part (names name.1) 0 = some m) :
    wp (opendirFound part (BitVec.ofNat 32 m) r >>= fun ret => dirClose r.parentDir >>= fun _ =>
      pure ret) (fun ret s' => ∃ dir d, ret = some dir ∧
        OpenedDir part G s0 name dir d s') E s := by
  rw [opendirFound, if_pos ⟨iNo_ne_neg_one hs.sound hm, hr⟩, wp_bind, wp_bind]
  refine (dirOpen_wp hE hs (held_lt _) hm ht).mono ?_ fun _ h => h
  rintro dir s1 ⟨hnr, hs1⟩
  have hperm : (dir.held ++ (r.parentDir.held ++ [])).Perm (r.parentDir.held ++ dir.held) := by
    rw [List.append_nil]
    exact List.perm_append_comm
  have hs2 : Session part G s0 (r.parentDir.held ++ dir.held) s1 :=
    { hs1.toSession with balance := hs1.balance.perm hperm }
  rw [wp_pure, wp_bind]
  have hno : Keeps (fun s : FsState => fun k => (s.inode k).iNo) (dirClose r.parentDir) :=
    .ite (.pure _) (iNo_inodeClose _)
  refine ((dirClose_wp hs2).and (hno s1)).mono ?_ fun _ h => h
  rintro - s3 ⟨hs3, hkept⟩
  have hmem : dir.inode ∈ dir.held := by
    rw [Dir.held, hnr]
    exact List.mem_singleton_self _
  have hobj : ObjectOf G s3 dir.inode m :=
    ⟨hs3.mem hmem, hm, (congrFun hkept dir.inode).trans hs1.obj.no⟩
  exact ⟨dir, m, rfl, { hs3 with
    obj := hobj
    kind := ht
    path := hp
    isRoot := fun h => Bool.noConfusion (hnr.symm.trans h) }⟩

/-- How `sys_opendir` ends. -/
def OpendirEnds (part : Partition) (G : Tree) (fs : FsState) (name : CString) :
    Option Dir → FsState → Prop
  | none, s' => Session part G fs [] s'
  | some dir, s' => ∃ d, OpenedDir part G fs name dir d s'

/-- **`sys_opendir`** of `/` or of a path with a component. -/
theorem sysOpendir_post {name : CString} (hs : Sound part G fs) (hc : CountsOk fs)
    (hname : names name.1 ≠ [] ∨ name.1 = [slash]) :
    post (sysOpendir part name) (OpendirEnds part G fs name) fs := by
  have hinv := hs.inv
  rw [post, sysOpendir, wp_bind, wp_ASSERT]
  refine ⟨fun _ => ?_, fun _ => trivial⟩
  rw [wp_bind, wp_get]
  split
  · rename_i hroot
    have hroot := (opendir_root_iff name).1 hroot
    refine ⟨0, { Session.refl hs hc with
      obj := hs.root
      kind := hinv.tree.kind_root
      path := ?_
      isRoot := fun _ => ⟨hroot, rfl⟩ }⟩
    rw [hroot]
    rfl
  · rename_i hroot
    have hp : names name.1 ≠ [] :=
      hname.resolve_right fun h => hroot ((opendir_root_iff name).2 h)
    refine searchFile_bind (.trivial _) (.refl hs hc) fun n r d s2 _ hf hs2 => ?_
    dsimp only
    have hfound : ∀ m, n = BitVec.ofNat 32 m → m ∈ G.live → G.kind m = .directory →
        r.fileType = .directory → (fs.view part).resolve part (names name.1) 0 = some m →
        wp (opendirFound part n r >>= fun ret => dirClose r.parentDir >>= fun _ => pure ret)
          (OpendirEnds part G fs name) (fun _ => True) s2 := by
      rintro m rfl hm hk ht hres
      refine (opendirFound_wp (fun _ => trivial) hs2.toSession hm hk ht hres).mono ?_ fun _ h => h
      rintro - s' ⟨dir, d, rfl, h⟩
      exact ⟨d, h⟩
    have hlost : ¬ (n ≠ -1 ∧ r.fileType = .directory) →
        wp (opendirFound part n r >>= fun ret => dirClose r.parentDir >>= fun _ => pure ret)
          (OpendirEnds part G fs name) (fun _ => True) s2 := by
      intro hno
      rw [opendirFound, if_neg hno, wp_bind, wp_pure]
      exact hs2.toSession.fail fun s' hs' => hs'
    cases hf with
    | root h hp' hno =>
      obtain ⟨x, e, hpath, hl, ht, hno'⟩ := root_spelling hinv hp' hp
      have hres := View.resolve_snoc hpath.resolve hl ht
      rw [← hpath.names, hno'] at hres
      exact hfound 0 hno hinv.tree.root hinv.tree.kind_root rfl hres
    | empty h he => exact absurd he hp
    | absent done rest x dir d hp' hplain hd hl hno => exact hlost fun h => h.1 hno
    | regular done rest x dir d e hp' hplain hd hl ht hne => exact hlost fun h => by cases h.2
    | directory done x h d e hp' hplain hd hl ht hne =>
      obtain ⟨m, hm, hno, hkind⟩ := hs2.found hplain hl ht
      have hres := View.resolve_snoc hd hl ht
      rw [← hp', hno, hs.toNat hm] at hres
      exact hfound m (hne.trans hno) hm hkind rfl hres

/-- The invariant after a call that only opened and closed inodes: the references `held` are new. -/
theorem StreamInv.session {held : List ℕ} (hs : StreamInv part G s)
    (hsession : Session part G s.fs held fs) :
    StreamInv part G { s with fs := fs } ∧ ∀ h ∈ fs.openInodes,
      s.owed h + held.count h ≤ (fs.inode h).iOpenCnts.toNat := by
  have hb := hsession.balance
  have hview := hsession.view
  have hfew := hb.few
  have hcount : ∀ h, held.count h ≤ 8 := fun h => List.count_le_length.trans hfew
  -- a count does not wrap around
  have hcnt : ∀ h ∈ fs.openInodes, s.owed h + held.count h ≤ (fs.inode h).iOpenCnts.toNat := by
    intro h hh
    have hch := hcount h
    by_cases hold : h ∈ s.fs.openInodes
    · have hroom := (hsession.start h hold).room
      have := hs.owed h hold
      rw [hb.kept h hh hold, BitVec.toNat_add, BitVec.toNat_ofNat,
        Nat.mod_eq_of_lt (by omega : held.count h < 2 ^ 32), Nat.mod_eq_of_lt (by omega)]
      omega
    · rw [(hb.new h hh hold).2, BitVec.toNat_ofNat, hs.owed_eq_zero hold,
        Nat.mod_eq_of_lt (by omega)]
      omega
  have hobj : ∀ {h n}, ObjectOf G s.fs h n → ObjectOf G fs h n := fun ho =>
    ⟨hb.stay _ ho.mem (hsession.start _ ho.mem), ho.live,
      ((hb.fixed _ (hb.old _ ho.mem)).1).trans ho.no⟩
  refine ⟨⟨hsession.sound, fun n hn k hk => ?_, fun h hh => ?_, fun h hh => ?_, hs.lt,
    fun i st hst => ?_, hs.root⟩, hcnt⟩
  · rw [hview]
    exact hs.disk n hn k hk
  · by_cases hold : h ∈ s.fs.openInodes
    · intro hz
      have hroom := hsession.start h hold
      have hne : (s.fs.inode h).iOpenCnts.toNat ≠ 0 := fun he =>
        hroom.ne_zero (BitVec.eq_of_toNat_eq he)
      have hch := hcount h
      have := hroom.room
      have hz' := congrArg BitVec.toNat (hb.kept h hh hold ▸ hz)
      rw [BitVec.toNat_add, BitVec.toNat_ofNat,
        Nat.mod_eq_of_lt (by omega : held.count h < 2 ^ 32), Nat.mod_eq_of_lt (by omega)] at hz'
      simp at hz'
      omega
    · obtain ⟨hmem, hc⟩ := hb.new h hh hold
      have hpos := List.count_pos_iff.2 hmem
      have hch := hcount h
      intro hz
      have hz' := congrArg BitVec.toNat (hc ▸ hz)
      rw [BitVec.toNat_ofNat, Nat.mod_eq_of_lt (by omega)] at hz'
      simp at hz'
      omega
  · have := hcnt h hh
    rw [show ({ s with fs := fs } : StreamState).owed h = s.owed h by
      rw [StreamState.owed, StreamState.owed, hsession.rootInode]
      rfl]
    exact (Nat.le_add_right _ _).trans this
  · obtain ⟨d, hl⟩ := hs.lists i st hst
    refine ⟨d, hobj hl.obj, hl.dir, ?_, ?_, ?_, ?_⟩
    · rw [hview]
      exact hl.path
    · rw [hsession.rootInode]
      exact hl.root
    · rw [hview]
      exact hl.given
    · rw [hview]
      exact hl.pos

/-- **`sys_opendir`** in a run. -/
theorem openStream_post {name : CString} (hs : StreamInv part G s)
    (hok : StreamOk s (.opendir name)) :
    post (openStream part name) (fun _ s' => StreamInv part G s') s := by
  have hc : CountsOk s.fs := fun h hh => ⟨hs.counts h hh, hok.1 h hh⟩
  have hname : names name.1 ≠ [] ∨ name.1 = [slash] := hok.2.imp_right fun h => h.1
  rw [post, openStream, wp_bind, onStreams, wp_zoom]
  refine (sysOpendir_post hs.sound hc hname).mono (fun ret fs' h => ?_) fun _ h => h
  cases ret with
  | none => exact (hs.session h).1
  | some dir =>
    obtain ⟨d, h⟩ := h
    obtain ⟨hs', howed⟩ := hs.session h.toSession
    -- a stream on `root_dir` is the only one
    have honly : dir.isRoot = true → s.rootPos = 0 ∧
        ∀ i st, s.streams i = some st → st.dir.isRoot = false := by
      intro hr
      refine hok.2.elim (fun hne => absurd ?_ hne) fun h => h.2
      rw [(h.isRoot hr).1]
      decide
    have hlook : ∀ i st, (({ s with fs := fs' } : StreamState).add ⟨name, dir, 0, []⟩).streams i =
        some st → (i = s.next ∧ st = ⟨name, dir, 0, []⟩) ∨ i ≠ s.next ∧ s.streams i = some st := by
      intro i st hi
      simp only [StreamState.add] at hi
      split at hi
      · exact .inl ⟨by assumption, (Option.some.inj hi).symm⟩
      · exact .inr ⟨by assumption, hi⟩
    refine ⟨h.sound, hs'.disk, hs'.counts, fun k hk => ?_, fun i st hi => ?_, fun i st hi => ?_,
      fun i j st st' hi hj h1 h2 => ?_⟩
    · rw [StreamState.owed_add, StreamState.owed, h.rootInode]
      exact howed k hk
    · rcases hlook i st hi with ⟨rfl, -⟩ | ⟨-, hi⟩
      · exact Nat.lt_succ_self _
      · exact Nat.lt_succ_of_lt (hs.lt i st hi)
    · rcases hlook i st hi with ⟨rfl, rfl⟩ | ⟨-, hi⟩
      · refine ⟨d, h.obj, h.kind, ?_, fun hr => ?_, rfl, ?_⟩
        · exact (congrArg (fun v => v.resolve part (names name.1) 0) h.view).trans h.path
        · exact (h.isRoot hr).2.trans h.rootInode.symm
        · rw [StreamState.pos, List.length_nil, Nat.zero_min]
          split
          · rename_i hr
            exact (honly hr).1
          · rfl
      · obtain ⟨d', hl⟩ := hs'.lists i st hi
        exact ⟨d', hl.obj, hl.dir, hl.path, hl.root, hl.given, hl.pos⟩
    · rcases hlook i st hi with ⟨rfl, rfl⟩ | ⟨hi0, hi⟩ <;>
        rcases hlook j st' hj with ⟨rfl, rfl⟩ | ⟨hj0, hj⟩
      · rfl
      · exact Bool.noConfusion (((honly h1).2 j st' hj).symm.trans h2)
      · exact Bool.noConfusion (((honly h2).2 i st hi).symm.trans h1)
      · exact hs.root i j st st' hi hj h1 h2

/-! ### `sys_closedir` -/

/-- An inode with a stream has a reference. -/
theorem StreamState.owed_pos (hi : i < s.next) (hst : s.streams i = some st)
    (hroot : st.dir.isRoot = true → st.dir.inode = s.fs.rootInode) : 0 < s.owed st.dir.inode := by
  rw [owed]
  cases hr : st.dir.isRoot with
  | true =>
    rw [if_pos (hroot hr)]
    exact Nat.succ_pos _
  | false =>
    have hhandle : s.handle i = some st.dir.inode := by
      rw [handle, hst, Option.bind_some, Dir.held, hr]
      rfl
    exact Nat.add_pos_left (rowRefs_pos_iff.2 ⟨i, Finset.mem_range.2 hi, hhandle⟩) _

/-- The invariant after a stream was closed, whose inode lost its reference. -/
theorem StreamInv.close (hs : StreamInv part G s) (hst : s.streams i = some st)
    (hsound : s.fs.rootInode ∈ fs.openInodes → Sound part G fs)
    (hview : fs.view part = s.fs.view part) (hroot : fs.rootInode = s.fs.rootInode)
    (hsub : ∀ k ∈ fs.openInodes, k ∈ s.fs.openInodes)
    (hno : ∀ k, (fs.inode k).iNo = (s.fs.inode k).iNo)
    (hcnt : ∀ k ∈ fs.openInodes, (fs.inode k).iOpenCnts ≠ 0 ∧
      (fs.inode k).iOpenCnts.toNat + st.dir.held.count k = (s.fs.inode k).iOpenCnts.toNat)
    (hstay : ∀ k ∈ s.fs.openInodes,
      st.dir.held.count k < (s.fs.inode k).iOpenCnts.toNat → k ∈ fs.openInodes) :
    StreamInv part G ({ s with fs := fs }.setStream i none) := by
  have howed : ∀ k, ({ s with fs := fs }.setStream i none).owed k + st.dir.held.count k =
      s.owed k := by
    intro k
    rw [← StreamState.owed_close (hs.lt i st hst) hst k, StreamState.owed, StreamState.owed]
    simp only [StreamState.setStream, hroot]
    rfl
  have hopen : ∀ k ∈ s.fs.openInodes, 0 < ({ s with fs := fs }.setStream i none).owed k →
      k ∈ fs.openInodes := by
    intro k hk hpos
    have h1 := howed k
    have h2 := hs.owed k hk
    exact hstay k hk (by omega)
  have hlook : ∀ j st', ({ s with fs := fs }.setStream i none).streams j = some st' →
      s.streams j = some st' := by
    intro j st' hj
    simp only [StreamState.setStream] at hj
    split at hj
    · cases hj
    · exact hj
  refine ⟨hsound (hopen _ hs.sound.root.mem ?_), fun n hn k hk => ?_, fun k hk => (hcnt k hk).1,
    fun k hk => ?_, fun j st' hj => hs.lt j st' (hlook j st' hj), fun j st' hj => ?_,
    fun j k st1 st2 hj hk => hs.root j k st1 st2 (hlook j st1 hj) (hlook k st2 hk)⟩
  · rw [StreamState.owed, if_pos]
    · exact Nat.succ_pos _
    · exact hroot.symm
  · exact (congrArg (fun v => (v.slot n k).toNat) hview).trans_le (hs.disk n hn k hk)
  · have h1 := howed k
    have h2 := hs.owed k (hsub k hk)
    have h3 := (hcnt k hk).2
    show _ ≤ (fs.inode k).iOpenCnts.toNat
    omega
  · obtain ⟨d, hl⟩ := hs.lists j st' (hlook j st' hj)
    have hmem : st'.dir.inode ∈ fs.openInodes := by
      refine hopen _ hl.obj.mem (StreamState.owed_pos (hs.lt j st' (hlook j st' hj)) hj ?_)
      exact fun hr => (hl.root hr).trans hroot.symm
    refine ⟨d, ⟨hmem, hl.obj.live, (hno _).trans hl.obj.no⟩, hl.dir, ?_, ?_, ?_, ?_⟩
    · exact (congrArg (fun v => v.resolve part (names st'.path.1) 0) hview).trans hl.path
    · exact fun hr => (hl.root hr).trans hroot.symm
    · simp only [StreamState.setStream, hview]
      exact hl.given
    · simp only [StreamState.setStream, hview]
      exact hl.pos

/-- **`sys_closedir`** in a run. -/
theorem closeStream_post (hs : StreamInv part G s) (hst : s.streams i = some st) :
    post (closeStream i st) (fun _ s' => StreamInv part G s') s := by
  obtain ⟨d, hl⟩ := hs.lists i st hst
  have hpos := StreamState.owed_pos (hs.lt i st hst) hst hl.root
  have howed := hs.owed _ hl.obj.mem
  simp only [post, closeStream, onStreams, sysClosedir, wp_bind, wp_zoom, wp_pure, wp_modify]
  rw [dirClose]
  cases hr : st.dir.isRoot with
  | true =>
    have hheld : ∀ k, st.dir.held.count k = 0 := fun k => by
      rw [Dir.held, if_pos hr]
      rfl
    refine hs.close hst (fun _ => hs.sound) rfl rfl (fun _ hk => hk) (fun _ => rfl)
      (fun k hk => ⟨hs.counts k hk, by rw [hheld]; rfl⟩) fun _ hk _ => hk
  | false =>
    have hheld : ∀ k, st.dir.held.count k = if st.dir.inode = k then 1 else 0 := fun k => by
      rw [Dir.held, hr, if_neg Bool.false_ne_true, List.count_singleton]
      simp
    refine (inodeClose_wp part hs.sound.cache hl.obj.mem).mono (fun _ fs hc => ?_) fun _ h => h
    have hone : ((s.fs.inode st.dir.inode).iOpenCnts - 1).toNat + 1 =
        (s.fs.inode st.dir.inode).iOpenCnts.toNat := by
      have := (s.fs.inode st.dir.inode).iOpenCnts.isLt
      rw [BitVec.toNat_sub, show BitVec.toNat (1 : Word) = 1 from rfl]
      omega
    refine hs.close hst (hs.sound.closed hl.obj.mem hc) (hc.view (hs.sound.clean _ hl.obj.mem))
      (rootInode_of_tables hc.same) (fun k hk => hc.sub hk)
      (fun k => iNo_of_stored (hc.inode_stored k)) (fun k hk => ?_) fun k hk hlt => ?_
    · by_cases hkh : st.dir.inode = k
      · subst hkh
        rw [hc.cnt, hheld, if_pos rfl]
        refine ⟨fun hz => ?_, hone⟩
        rw [hc.openInodes, if_pos hz] at hk
        exact (List.Nodup.mem_erase_iff hs.sound.cache.nodup).1 hk |>.1 rfl
      · rw [hc.inode k fun h => hkh h.symm, hheld, if_neg hkh]
        exact ⟨hs.counts k (hc.sub hk), rfl⟩
    · by_cases hkh : st.dir.inode = k
      · subst hkh
        rw [hheld, if_pos rfl] at hlt
        rw [hc.openInodes, if_neg]
        · exact hk
        · intro hz
          rw [hz] at hone
          simp at hone
          omega
      · exact hc.mem hk fun h => hkh h.symm

/-! ### Runs -/

theorem StreamInv.step {a : StreamAct} {s' : StreamState} (hs : StreamInv part G s)
    (hok : StreamOk s a) (hstep : streamNext part s a = some s') : StreamInv part G s' := by
  cases a with
  | opendir name =>
    obtain ⟨_, hrun⟩ := ok_of_state? hstep
    exact (openStream_post hs hok).ok hrun
  | readdir i =>
    obtain ⟨st, hst, hstep⟩ := Option.bind_eq_some_iff.1 hstep
    obtain ⟨_, hrun⟩ := ok_of_state? hstep
    obtain ⟨d, hl⟩ := hs.lists i st hst
    exact ((sysReaddir_wp hs hst hl).ok hrun).2
  | rewinddir i =>
    obtain ⟨st, hst, hstep⟩ := Option.bind_eq_some_iff.1 hstep
    obtain ⟨_, hrun⟩ := ok_of_state? hstep
    exact (sysRewinddir_post hs hst).ok hrun
  | closedir i =>
    obtain ⟨st, hst, hstep⟩ := Option.bind_eq_some_iff.1 hstep
    obtain ⟨_, hrun⟩ := ok_of_state? hstep
    exact (closeStream_post hs hst).ok hrun

theorem StreamInv.init (hs : (streamSys part).init s) : ∃ G, StreamInv part G s := by
  obtain ⟨⟨G, hsound, hdisk⟩, hc, -, hnone⟩ := hs
  have hno : ∀ {i st}, s.streams i ≠ some st := fun {i st} h => by
    rw [hnone] at h
    cases h
  refine ⟨G, hsound, hdisk, fun h hh => (hc h hh).ne_zero, fun h hh => ?_,
    fun i st hi => absurd hi hno, fun i st hi => absurd hi hno,
    fun i _ st _ hi => absurd hi hno⟩
  have hrow : rowRefs (Finset.range s.next) s.handle (some h) = 0 := by
    refine Nat.eq_zero_of_not_pos fun hpos => ?_
    obtain ⟨i, -, hi⟩ := rowRefs_pos_iff.1 hpos
    rw [StreamState.handle, hnone] at hi
    cases hi
  have hne : (s.fs.inode h).iOpenCnts.toNat ≠ 0 := fun he =>
    (hc h hh).ne_zero (BitVec.eq_of_toNat_eq he)
  rw [StreamState.owed, hrow]
  split <;> omega

/-- **Every directory stream is complete.** In every state of a run whose calls are all as
`StreamOk` has them, an open stream has returned, one after the other, the entries of the directory
that its path leads to, and then nothing; and the next `sys_readdir` of it returns, and returns the
next one. -/
theorem streams_complete (hr : (streamSys part).Reach StreamOk s) (hst : s.streams i = some st) :
    ∃ d, (s.fs.view part).resolve part (names st.path.1) 0 = some d ∧
      (∀ k < st.given.length, st.given[k]? = some ((s.fs.view part).entries d)[k]?) ∧
      (sysReaddir part i st).value? s = some ((s.fs.view part).entries d)[st.given.length]? := by
  obtain ⟨G, hs⟩ : ∃ G, StreamInv part G s := by
    refine TransSys.Reach.invariant (I := fun s => ∃ G, StreamInv part G s)
      (fun s hs => StreamInv.init hs) ?_ hr
    rintro s a s' ⟨G, hs⟩ hok hstep
    exact ⟨G, hs.step hok hstep⟩
  obtain ⟨d, hl⟩ := hs.lists i st hst
  refine ⟨d, hl.path, hl.entry, ?_⟩
  obtain ⟨e, s', hrun, he, -⟩ := (sysReaddir_wp hs hst hl).returns
  rw [value?, hrun, ← he]

end

/-! ### Listing the root twice -/

def rootPath : CString := ⟨[slash], by decide⟩

/-- A new file system, and no streams. -/
def noStreams : StreamState := ⟨smallFs, 0, fun _ => none, 0⟩

theorem noStreams_init : (streamSys smallPart).init noStreams := by
  obtain ⟨hs, hc, -⟩ := sound_smallFs
  exact ⟨⟨rootTree, hs, blocksOnDisk_smallFs⟩, hc, rfl, fun _ => rfl⟩

/-- The first listing of `/` is complete. -/
theorem streams_complete_root : ∃ s st, (streamSys smallPart).Reach StreamOk s ∧
    s.streams 0 = some st ∧
      ∃ d, (s.fs.view smallPart).resolve smallPart (names st.path.1) 0 = some d ∧
      (∀ k < st.given.length, st.given[k]? = some ((s.fs.view smallPart).entries d)[k]?) ∧
      (sysReaddir smallPart 0 st).value? s =
        some ((s.fs.view smallPart).entries d)[st.given.length]? := by
  have hrun : (openStream smallPart rootPath).state? noStreams = some _ :=
    state?_of_value? (a := ()) (by decide +kernel)
  have hok : StreamOk noStreams (.opendir rootPath) :=
    ⟨by decide +kernel, .inr ⟨rfl, rfl, fun _ _ h => nomatch h⟩⟩
  have hreach : (streamSys smallPart).Reach StreamOk _ :=
    .step (l := .opendir rootPath) (.init noStreams_init) hok hrun
  have hst : (final (openStream smallPart rootPath) noStreams).streams 0 =
      some ⟨rootPath, smallFs.rootDir, 0, []⟩ := rfl
  exact ⟨_, _, hreach, hst, streams_complete hreach hst⟩

/-- **The second listing of `/` is empty.** The root has the entries `.` and `..`; a stream is
opened, read to its end and closed, and the next one has nothing to return. -/
theorem root_listed_once : ∃ s st, (streamSys smallPart).Reachable s ∧ s.streams 1 = some st ∧
    st.path = rootPath ∧ st.given = [] ∧ ((s.fs.view smallPart).entries 0).length = 2 ∧
    (sysReaddir smallPart 1 st).value? s = some none := by
  obtain ⟨s, hs, hP⟩ : ∃ s, (streamSys smallPart).Reachable s ∧
      ((s.streams 1).any fun st => decide (st.path = rootPath) && st.given.isEmpty &&
        decide (((s.fs.view smallPart).entries 0).length = 2) &&
        ((sysReaddir smallPart 1 st).value? s).any Option.isNone) = true :=
    TransSys.exists_reachable noStreams_init [StreamAct.opendir rootPath, StreamAct.readdir 0,
      StreamAct.readdir 0, StreamAct.closedir 0, StreamAct.opendir rootPath] (by decide +kernel)
  simp only [Option.any_eq_true, Bool.and_eq_true, decide_eq_true_eq, List.isEmpty_iff,
    Option.isNone_iff_eq_none, and_assoc] at hP
  obtain ⟨st, hst, hpath, hgiven, hlen, e, hread, rfl⟩ := hP
  exact ⟨s, st, hs, hst, hpath, hgiven, hlen, hread⟩

end X86Os
