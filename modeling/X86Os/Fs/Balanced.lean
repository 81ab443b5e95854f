import X86Os.Fs.Format

/-!
# Calls on paths give back what they take

The calls on paths, and whether each leaves the counts of the open inodes as they were. Everything
but `sys_open` does, on any disk and with any list of open inodes: `Balance` goes through the code
exit by exit. The one exception is `/` itself, for which `sys_opendir` hands out the static
`root_dir` and takes no reference.

`sys_open` takes three references that nobody gives back. When it opens a file that exists, it
returns without closing the directory of the lookup; only if that is `root_dir`, which needs no
closing, nothing is lost. A file that is refused to a second writer stays open, with the entry of
`file_table` that was meant for it. The same happens to a file, old or new, for which the process
has no descriptor left. `Releases` says on which calls none of this happens.
-/

namespace X86Os

open X86Os.Comp FsState

/-! ### The calls -/

/-- The object that a descriptor of the running process refers to. -/
def fdObject (s : FsState) (fd : Int) : Option ℕ :=
  if fd = -1 then none else (s.fileTable (s.fdTable s.cur fd.toNat).toNat).fdInode

/-- A call on a path. -/
inductive PathCall
  | open (pathname : CString) (flags : Word)
  | unlink (pathname : CString)
  | mkdir (pathname : CString)
  | rmdir (pathname : CString)
  | opendir (name : CString)
  | chdir (path : CString)
  | stat (path : CString)

/-- Make the call. The result is the inode object of the descriptor or stream that it returned. -/
def PathCall.run (part : Partition) : PathCall → Kern CwdState (Option ℕ)
  | .open p flags => do
    let fd ← onFs (sysOpen part p flags)
    let s ← get
    pure (fdObject s.fs fd)
  | .unlink p => do
    let _ ← onFs (sysUnlink part p)
    pure none
  | .mkdir p => do
    let _ ← onFs (sysMkdir part p)
    pure none
  | .rmdir p => do
    let _ ← onFs (sysRmdir part p)
    pure none
  | .opendir p => do
    let dir ← onFs (sysOpendir part p)
    pure (dir.map Dir.inode)
  | .chdir p => do
    let _ ← sysChdir part p
    pure none
  | .stat p => do
    let _ ← onFs (sysStat part p)
    pure none

/-- **Balance.** From `s` to `s'`, every inode that is still open has as many references as before,
but for one more to `extra`; no other inode is newly open. -/
structure Balanced (s s' : FsState) (extra : Option ℕ) : Prop where
  kept : ∀ h ∈ s'.openInodes, h ∈ s.openInodes →
    (s'.inode h).iOpenCnts = (s.inode h).iOpenCnts + if extra = some h then 1 else 0
  new : ∀ h ∈ s'.openInodes, h ∉ s.openInodes → extra = some h ∧ (s'.inode h).iOpenCnts = 1

section

variable {part : Partition} {G : Tree} {s s' s0 s1 : FsState} {held : List ℕ} {h d : ℕ}
  {extra : Option ℕ}

/-! ### From references held to counts -/

theorem count_toList (extra : Option ℕ) (h : ℕ) :
    extra.toList.count h = if extra = some h then 1 else 0 := by
  cases extra with
  | none => rfl
  | some k =>
    rw [Option.toList_some, List.count_singleton]
    simp

theorem Balance.balanced (extra : Option ℕ) (hb : Balance s extra.toList s') :
    Balanced s s' extra := by
  refine ⟨fun h hh hh0 => ?_, fun h hh hh0 => ?_⟩
  · rw [hb.kept h hh hh0, count_toList]
    split <;> rfl
  · obtain ⟨hm, hc⟩ := hb.new h hh hh0
    have he : extra = some h := by
      cases extra with
      | none => exact absurd hm List.not_mem_nil
      | some k => rw [List.mem_singleton.1 hm]
    rw [count_toList, if_pos he] at hc
    exact ⟨he, hc⟩

theorem Balance.not_balanced (hb : Balance s held s') (hh : h ∈ s'.openInodes)
    (hne : held.count h ≠ extra.toList.count h) : ¬ Balanced s s' extra := by
  intro hbal
  have hle : held.count h ≤ 8 := Nat.le_trans List.count_le_length hb.few
  have hle' : extra.toList.count h ≤ 1 := by
    rw [count_toList]
    split <;> omega
  by_cases hh0 : h ∈ s.openInodes
  · have hc := hbal.kept h hh hh0
    rw [hb.kept h hh hh0, show (if extra = some h then (1 : Word) else 0) =
      BitVec.ofNat 32 (extra.toList.count h) by rw [count_toList]; split <;> rfl,
      BitVec.add_right_inj] at hc
    have := congrArg BitVec.toNat hc
    rw [BitVec.toNat_ofNat, BitVec.toNat_ofNat] at this
    omega
  · obtain ⟨he, hc⟩ := hbal.new h hh hh0
    rw [(hb.new h hh hh0).2] at hc
    have := congrArg BitVec.toNat hc
    rw [BitVec.toNat_ofNat, show BitVec.toNat (1 : Word) = 1 from rfl] at this
    rw [count_toList, if_pos he] at hne
    omega

theorem Balanced.congr (hb : Balanced s s' extra) (s'' : FsState)
    (ho : s''.openInodes = s'.openInodes)
    (hc : ∀ k, (s''.inode k).iOpenCnts = (s'.inode k).iOpenCnts) : Balanced s s'' extra :=
  ⟨fun k hk => hc k ▸ hb.kept k (ho ▸ hk), fun k hk => hc k ▸ hb.new k (ho ▸ hk)⟩

/-! ### Calls other than `sys_open` -/

theorem unlinkFile_balance (n : Word) (r : PathSearchRecord) :
    Triple (Balance s0 (r.parentDir.held ++ [])) (unlinkFile part n r) fun _ => Balance s0 [] := by
  refine .bind (blind_counts 0).sysMalloc.balance fun _ => .ite (fun _ => ?_)
    fun _ => dirClose_pure_balance _ _
  exact .bind ((blind_counts _).deleteDirEntry n).balance fun _ =>
    .bind (inodeRelease_balance (held_lt _) n) fun _ => dirClose_pure_balance _ _

theorem sysUnlink_balance (p : CString) :
    Triple (Balance s0 []) (sysUnlink part p) fun _ => Balance s0 [] := by
  refine .bind (Keeps.check _ _).balance fun _ => .bind (searchFile_balance (by decide) p) ?_
  rintro ⟨n, r⟩
  exact .bind (Keeps.check _ _).balance fun _ => .bind Keeps.get.balance fun _ =>
    .ite (fun _ => dirClose_pure_balance _ _) fun _ => unlinkFile_balance n r

theorem madeDir_balance (dir : Dir) (n : Word) (i : Inode) :
    Triple (Balance s0 (dir.held ++ [])) (madeDir part dir n i) fun _ => Balance s0 [] :=
  .bind Keeps.get.balance fun _ => .bind ((blind_counts 0).onDisk _).balance fun _ =>
    .bind ((blind_counts 0).onDisk _).balance fun _ =>
      .bind ((blind_counts 0).bitmapSync _ _).balance fun _ => dirClose_pure_balance _ _

theorem makeDir_balance (dir : Dir) (name : List Byte) :
    Triple (Balance s0 (dir.held ++ [])) (makeDir part dir name) fun _ => Balance s0 [] := by
  refine .bind counts_inodeBitmapAlloc.balance fun n => .ite
    (fun _ => dirClose_pure_balance _ _) fun _ => .bind (blind_counts 0).blockBitmapAlloc.balance
      fun w => .ite (fun _ => .bind (counts_undoInodeNo n).balance fun _ =>
        dirClose_pure_balance _ _) fun _ => ?_
  refine .bind (Keeps.check _ _).balance fun _ =>
    .bind ((blind_counts 0).bitmapSync _ _).balance fun _ => .bind Keeps.get.balance fun _ =>
      .bind ((blind_counts 0).onDisk _).balance fun _ =>
        .bind (counts_createDirEntry _ _ _).balance fun _ =>
          .bind ((blind_counts _).syncDirEntry _).balance fun _ =>
            .ite (fun _ => madeDir_balance _ _ _) fun _ => ?_
  exact .bind (counts_undoInodeNo n).balance fun _ => dirClose_pure_balance _ _

theorem sysMkdir_balance (p : CString) :
    Triple (Balance s0 []) (sysMkdir part p) fun _ => Balance s0 [] := by
  refine .bind (blind_counts 0).sysMalloc.balance fun _ => .ite (fun _ => ?_)
    fun _ => .pure fun _ hb => hb
  refine .bind (searchFile_balance (by decide) p) ?_
  rintro ⟨n, r⟩
  refine .ite (fun _ => dirClose_pure_balance _ _) fun _ => .bind (counts_pathDepthCnt _).balance
    fun _ => .bind (counts_pathDepthCnt _).balance fun _ => .ite
      (fun _ => dirClose_pure_balance _ _) fun _ => ?_
  exact .bind (Keeps.check _ _).balance fun _ => makeDir_balance _ _

theorem dirRemove_balance (hlen : held.length < 8) (p c : Dir) :
    Triple (Balance s0 held) (dirRemove part p c) fun _ => Balance s0 held := by
  refine .bind Keeps.get.balance fun _ => .bind (Keeps.check _ _).balance fun _ =>
    .bind (blind_counts 0).sysMalloc.balance fun _ => .ite (fun _ => ?_)
      fun _ => .pure fun _ hb => hb
  exact .bind ((blind_counts _).deleteDirEntry _).balance fun _ =>
    .bind (inodeRelease_balance hlen _) fun _ => .pure fun _ hb => hb

theorem rmdirFound_balance (n : Word) (p : Dir) :
    Triple (Balance s0 (p.held ++ [])) (rmdirFound part n p)
      fun _ => Balance s0 (p.held ++ []) := by
  refine .bind (dirOpen_balance (held_lt p) n) fun c => .bind (.bind Keeps.get.balance fun _ =>
    .pure fun _ hb => hb) fun _ => .ite (fun _ => ?_) fun _ => dirClose_pure_balance _ _
  refine .bind (dirRemove_balance ?_ p c) fun _ => dirClose_pure_balance _ _
  have h1 := c.length_held
  have h2 := held_lt p
  have h3 := p.length_held
  rw [List.append_nil] at h2 ⊢
  rw [List.length_append]
  omega

theorem sysRmdir_balance (p : CString) :
    Triple (Balance s0 []) (sysRmdir part p) fun _ => Balance s0 [] := by
  refine .bind (searchFile_balance (by decide) p) ?_
  rintro ⟨n, r⟩
  exact .bind (Keeps.check _ _).balance fun _ => .ite (fun _ => dirClose_pure_balance _ _)
    fun _ => .bind (rmdirFound_balance n _) fun _ => dirClose_pure_balance _ _

theorem sysStat_balance (p : CString) :
    Triple (Balance s0 []) (sysStat part p) fun _ => Balance s0 [] := by
  refine .bind Keeps.get.balance fun _ => .ite (fun _ => .pure fun _ hb => hb) fun _ =>
    .bind (searchFile_balance (by decide) p) ?_
  rintro ⟨n, r⟩
  refine .bind (.ite (fun _ => ?_) fun _ => .pure fun _ hb => hb) fun _ => dirClose_pure_balance _ _
  exact .bind (inodeOpen_balance (held_lt _) n) fun h => .bind Keeps.get.balance fun _ =>
    .bind inodeClose_balance fun _ => .pure fun _ hb => hb

/-- A stream holds its directory, unless the path is `/`. -/
theorem sysOpendir_balance (p : CString) (hp : p.1 ≠ [slash]) :
    Triple (Balance s0 []) (sysOpendir part p)
      fun dir => Balance s0 (dir.map Dir.inode).toList := by
  refine .bind (Keeps.check _ _).balance fun _ => .bind Keeps.get.balance fun _ =>
    .ite (fun h => absurd ((opendir_root_iff p).1 h) hp) fun _ =>
      .bind (searchFile_balance (by decide) p) ?_
  rintro ⟨n, r⟩
  refine .bind (Q := fun dir => Balance s0 (r.parentDir.held ++ (dir.map Dir.inode).toList))
    (.ite (fun _ => ?_) fun _ => .pure fun _ hb => hb) fun dir =>
      .bind (dirClose_balance _) fun _ => .pure fun _ hb => hb
  -- the new stream is not `root_dir`
  refine .bind (Q := fun dir => Balance s0 (r.parentDir.held ++ [dir.inode]))
    (.bind (blind_counts 0).sysMalloc.balance fun _ => .bind (inodeOpen_balance (held_lt _) n)
      fun h => .bind (Keeps.check _ _).balance fun _ => .pure fun s hb => hb.perm ?_)
    fun _ => .pure fun _ hb => hb
  rw [List.append_nil]
  exact (List.perm_append_singleton h r.parentDir.held).symm

/-- A call of the file system inside one that also knows the working directories. -/
theorem onFs_triple {α : Type} {x : Kern FsState α} {P : FsState → Prop} {Q : α → FsState → Prop}
    (hx : Triple P x Q) :
    Triple (fun s : CwdState => P s.fs) (onFs x) fun a s => Q a s.fs := by
  intro s hs
  rw [post, onFs, wp_zoom]
  exact (hx s.fs hs).mono (fun _ _ h => h) fun _ h => h

theorem sysChdir_balance (p : CString) : Triple (fun s : CwdState => Balance s0 [] s.fs)
    (sysChdir part p) fun _ s => Balance s0 [] s.fs := by
  refine .bind (onFs_triple (searchFile_balance (by decide) p)) ?_
  rintro ⟨n, r⟩
  refine .bind (Q := fun _ s => Balance s0 (r.parentDir.held ++ []) s.fs)
    (.ite (fun _ => .bind (.modify fun _ hb => hb) fun _ => .pure fun _ hb => hb)
      fun _ => .pure fun _ hb => hb) fun _ => ?_
  exact .bind (onFs_triple (dirClose_balance _)) fun _ => .pure fun _ hb => hb

/-- A call that opens a file by its path, or the root directory as `/`. -/
def PathCall.special : PathCall → Prop
  | .open _ _ => True
  | .opendir p => p.1 = [slash]
  | _ => False

/-- **All other calls give back what they take**, whatever is on the disk. -/
theorem pathCall_balance (c : PathCall) (hc : ¬ c.special) :
    Triple (fun s : CwdState => Balance s0 [] s.fs) (c.run part)
      fun extra s => Balance s0 extra.toList s.fs := by
  cases c with
  | «open» p flags => exact absurd trivial hc
  | unlink p => exact .bind (onFs_triple (sysUnlink_balance p)) fun _ => .pure fun _ hb => hb
  | mkdir p => exact .bind (onFs_triple (sysMkdir_balance p)) fun _ => .pure fun _ hb => hb
  | rmdir p => exact .bind (onFs_triple (sysRmdir_balance p)) fun _ => .pure fun _ hb => hb
  | opendir p => exact .bind (onFs_triple (sysOpendir_balance p hc)) fun _ => .pure fun _ hb => hb
  | chdir p => exact .bind (sysChdir_balance p) fun _ => .pure fun _ hb => hb
  | stat p => exact .bind (onFs_triple (sysStat_balance p)) fun _ => .pure fun _ hb => hb

/-! ### Creating a file -/

/-- The counts and the file tables. -/
def ledger (s : FsState) := (counts s, files s)

theorem blind_ledger (h : ℕ) : Blind ledger h := by
  have h1 := blind_counts h
  have h2 := blind_files h
  exact ⟨⟨fun s d => Prod.ext (h1.disk s d) (h2.disk s d),
    fun s i b => Prod.ext (h1.bitmap s i b) (h2.bitmap s i b),
    fun s m => Prod.ext (h1.mallocs s m) (h2.mallocs s m),
    fun s g => Prod.ext (h1.iSectors s g) (h2.iSectors s g)⟩,
    fun s g => Prod.ext (h1.iSize s g) (h2.iSize s g)⟩

/-- What a file that was created leaves: the reference to it is held, and the descriptor is that of
the file if there was one to be had. -/
structure Created (s0 s : FsState) (held : List ℕ) (fd : Int) (s' : FsState) (h : ℕ) : Prop where
  slot : FreeSlot s
  balance : Balance s0 (h :: held) s'
  mem : h ∈ s'.openInodes
  notHeld : h ∉ held
  fd : fd = -1 ∧ ¬ FreeFd s ∨ FreeFd s ∧ fdObject s' fd = some h

theorem createdFile_balance {dir : Dir} {f : ℕ} {n : Word} (hlen : held.length < 8)
    (hsp : Spare s0 held h s1) (hf : (s1.fileTable f).fdInode = some h) (hslot : FreeSlot s)
    (hfd : s1.fdTable = s.fdTable) (hcur : s1.cur = s.cur) :
    post (createdFile part dir h f n) (fun fd s' => Created s0 s held fd s' h) s1 := by
  have hl := blind_ledger 0
  rw [createdFile, post, wp_bind, wp_get, wp_bind]
  refine (hl.onDisk _ s1).mono (fun _ s2 h2 => ?_) fun _ h => h
  rw [wp_bind, wp_get, wp_bind]
  refine (hl.onDisk _ s2).mono (fun _ s3 h3 => ?_) fun _ h => h
  rw [wp_bind]
  refine (hl.bitmapSync _ _ s3).mono (fun _ s4 h4 => ?_) fun _ h => h
  rw [wp_bind, wp_modify]
  have he : ledger s4 = ledger s1 := h4.trans (h3.trans h2)
  have hsp4 : Spare s0 held h s4 := hsp.congr (congrArg (·.1) he)
  have ht : s4.fileTable = s1.fileTable := congrArg (·.2.1) he
  have hd : s4.fdTable = s.fdTable := (congrArg (·.2.2.1) he).trans hfd
  have hc : s4.cur = s.cur := (congrArg (·.2.2.2) he).trans hcur
  have hb := (hsp4.fill fun i => { i with iOpenCnts := 1 }).push hlen (by simp [updInode])
  refine pcbFdInstall_cases (fun hn => ?_) fun fd h3 h8 hfree => ?_
  · refine ⟨hslot, hb, List.mem_cons_self, hsp.notHeld, .inl ⟨rfl, fun hfree => hn ?_⟩⟩
    exact hfree.congr hd hc
  · refine ⟨hslot, hb.congr rfl, List.mem_cons_self, hsp.notHeld, .inr ⟨⟨fd, h3, h8, ?_⟩, ?_⟩⟩
    · rw [← hd, ← hc]
      exact hfree
    · rw [fdObject, if_neg (by omega)]
      simp only [setFd, Int.toNat_natCast, and_self, if_true]
      exact ht ▸ hf

/-- **`file_create`** takes no reference, or one to the new file. -/
theorem fileCreate_balance {dir : Dir} {name : List Byte} {flag : Word} (hb : Balance s0 held s)
    (hlen : held.length < 8) (hilen : s.inodeBitmap.btmpBytesLen = 512) (hblen : BlockLen part s) :
    post (fileCreate part dir name flag) (fun fd s' =>
      fd = -1 ∧ Balance s0 held s' ∧ (FreeSlot s → NoMemory s) ∨
        ∃ h, Created s0 s held fd s' h) s := by
  simp only [fileCreate, post, wp_bind, wp_sysMalloc]
  split
  swap
  · rename_i hm
    exact .inl ⟨rfl, hb.congr rfl, fun _ => ⟨0, Bool.eq_false_iff.2 hm⟩⟩
  rw [wp_bind]
  refine inodeBitmapAlloc_post fun i hi _ _ => ?_
  have hi : i < 4096 := by
    rw [hilen] at hi
    exact hi
  have hne : BitVec.ofNat 32 i ≠ -1 := by
    intro he
    have := congrArg BitVec.toNat he
    rw [toNat_ofNat hi, show BitVec.toNat (-1 : Word) = 2 ^ 32 - 1 from rfl] at this
    omega
  rw [if_neg hne]
  simp only [createFile, wp_bind, wp_sysMalloc]
  split
  swap
  · rename_i hm
    exact .inl ⟨rfl, hb.congr rfl, fun _ => ⟨1, Bool.eq_false_iff.2 hm⟩⟩
  rw [wp_bind]
  generalize hs1 : (FsState.mk _ _ _ _ _ _ _ _ _ _ _ _ : FsState) = s1
  have hb1 : Balance s0 held s1 := hs1 ▸ hb.congr rfl
  have hlen1 : BlockLen part s1 := hs1 ▸ hblen
  have ht1 : s1.fileTable = s.fileTable := by rw [← hs1]
  have hd1 : s1.fdTable = s.fdTable := by rw [← hs1]
  have hc1 : s1.cur = s.cur := by rw [← hs1]
  have hsp := mallocInode_spare s1 hb1
  rw [post, wp_mallocInode] at hsp
  rw [wp_mallocInode, wp_bind, wp_modify, wp_bind]
  replace hsp := hsp.fill fun _ => inodeInit (BitVec.ofNat 32 i)
  generalize s1.inodeTop = h at hsp ⊢
  refine getFreeSlotInGlobal_cases (fun hn => ?_) fun f h3 h32 hfree => ?_
  · refine .inl ⟨rfl, hsp.toBalance.congr rfl, fun hslot => absurd ?_ hn⟩
    exact hslot.congr ht1
  · have hslot : FreeSlot s := ⟨f, h3, h32, ht1 ▸ hfree⟩
    simp only [createIn, wp_bind, wp_modify, createDirEntry, wp_ASSERT, wp_pure, implies_true,
      and_true]
    intro _
    generalize hs3 : (updFile (updInode _ _ _) _ _ : FsState) = s3
    have hsp3 : Spare s0 held h s3 := hs3 ▸ hsp.congr rfl
    have hlen3 : BlockLen part s3 := hs3 ▸ hlen1
    have hf3 : (s3.fileTable f).fdInode = some h := by rw [← hs3]; simp [updFile]
    have hd3 : s3.fdTable = s.fdTable := by rw [← hs3]; exact hd1
    have hc3 : s3.cur = s.cur := by rw [← hs3]; exact hc1
    refine (((blind_ledger dir.inode).syncDirEntry _ s3).and (syncDirEntry_written hlen3)).mono
      ?_ fun _ h => h
    rintro ok s4 ⟨h4, rfl, -⟩
    rw [if_pos rfl]
    refine (createdFile_balance hlen (hsp3.congr (congrArg (·.1) h4)) ?_ hslot ?_ ?_).mono
      (fun _ _ h => .inr ⟨_, h⟩) fun _ h => h
    · rw [show s4.fileTable = s3.fileTable from congrArg (·.2.1) h4, hf3]
    · exact (congrArg (·.2.2.1) h4).trans hd3
    · exact (congrArg (·.2.2.2) h4).trans hc3

/-! ### `sys_open` -/

/-- A call of `sys_open` that leaves no reference behind. A file that is created needs a descriptor
if it gets an entry of `file_table`. A file that is there has to be in the root directory, spelled
with one component; if it gets an entry, it needs a descriptor, and nobody writing to it if it is
opened for writing. -/
def OpenReleases (part : Partition) (s : FsState) (p : List Byte) (flags : Word) : Prop :=
  if hasCreat flags then
    CanOpen part (s.view part) p flags ∨ NoMemory s → FreeSlot s → FreeFd s
  else ∀ done name d e, p.getLastD 0 ≠ slash → PathTo part (s.view part) p done name d →
    (s.view part).lookup part d name = some e → e.fType = FileType.regular.code →
    done = [] ∧ (FreeSlot s → FreeFd s ∧
      (mayWrite flags = true → (yields part s e.iNo.toNat).writeDeny = false))

/-- What is claimed of a call that returned. -/
def OpenBalance (part : Partition) (s : FsState) (p : List Byte) (flags : Word) (fd : Int)
    (s' : FsState) : Prop :=
  (OpenReleases part s p flags → Balanced s s' (fdObject s' fd)) ∧
    (¬ NoMemory s → Balanced s s' (fdObject s' fd) → OpenReleases part s p flags)

theorem fdObject_neg_one (s : FsState) : fdObject s (-1) = none := if_pos rfl

theorem fdObject_congr {fd : Int} (h : files s' = files s) : fdObject s' fd = fdObject s fd := by
  simp only [files, Prod.mk.injEq] at h
  rw [fdObject, fdObject, h.1, h.2.1, h.2.2]

theorem openBalance_fail {p : List Byte} {flags : Word} (hb : Balance s [] s')
    (hc : ¬ NoMemory s → ¬ CanOpen part (s.view part) p flags) :
    OpenBalance part s p flags (-1) s' := by
  refine ⟨fun _ => ?_, fun hmem _ => ?_⟩
  · rw [fdObject_neg_one]
    exact hb.balanced none
  · rw [OpenReleases]
    split
    · rintro (h | h)
      · exact absurd h (hc hmem)
      · exact absurd h hmem
    · rename_i hcr
      intro done name d e hslash hpath hl ht
      refine absurd ⟨hslash, done, name, d, hpath, ?_⟩ (hc hmem)
      rw [if_neg hcr]
      exact ⟨e, hl, ht⟩

theorem openBalance_create {p : CString} {flags : Word} {done : List (List Byte)}
    {name : List Byte} {dir : Dir} (hr : CountsOk s) (hcr : hasCreat flags = true)
    (hslash : p.1.getLastD 0 ≠ slash) (hpath : PathTo part (s.view part) p.1 done name d)
    (hl : (s.view part).lookup part d name = none ∨ NoMemory s)
    (hs : HoldsDir part G s [] s' dir d) :
    post (fileCreate part dir name flags >>= fun fd => dirClose dir >>= fun _ => pure fd)
      (OpenBalance part s p.1 flags) s' := by
  have hcan : CanOpen part (s.view part) p.1 flags ∨ NoMemory s := by
    refine hl.imp_left fun hl => ⟨hslash, done, name, d, hpath, ?_⟩
    rw [if_pos hcr]
    exact hl
  have hslot : FreeSlot s' ↔ FreeSlot s := by rw [FreeSlot, FreeSlot, fileTable_of_tables hs.same]
  have hfree : FreeFd s' ↔ FreeFd s := by
    rw [FreeFd, FreeFd, fdTable_of_tables hs.same, cur_of_tables hs.same]
  rw [post, wp_bind]
  refine (fileCreate_balance hs.balance (held_lt dir) hs.sound.inodeLen hs.sound.blockLen).mono ?_
    fun _ h => h
  rintro fd s1 (⟨rfl, hb, hfail⟩ | ⟨h, hcreated⟩) <;> rw [wp_bind]
  · refine (dirClose_balance dir s1 hb).mono (fun _ s2 hb2 => ?_) fun _ h => h
    refine ⟨fun _ => fdObject_neg_one s2 ▸ hb2.balanced none, fun hmem _ => ?_⟩
    rw [OpenReleases, if_pos hcr]
    intro _ hf
    obtain ⟨k, hk⟩ := hfail (hslot.2 hf)
    exact absurd (hs.noMemory hk) hmem
  · have hperm : (h :: (dir.held ++ [])).Perm (dir.held ++ [h]) := by
      rw [List.append_nil]
      exact (List.perm_append_singleton h dir.held).symm
    have hb := hcreated.balance.perm hperm
    refine ((dirClose_balance dir s1 hb).and (keeps_dirClose dir s1)).mono ?_ fun _ h => h
    rintro - s2 ⟨hb2, hfiles⟩
    have hmem : h ∈ s2.openInodes := hb2.present h (List.mem_singleton_self h) fun hm => hr h hm
    rw [wp_pure, OpenBalance, fdObject_congr hfiles, OpenReleases, if_pos hcr]
    rcases hcreated.fd with ⟨rfl, hn⟩ | ⟨hf, hobj⟩
    · -- the file stays open without a descriptor
      rw [fdObject_neg_one]
      refine ⟨fun hrel => absurd (hfree.2 (hrel hcan (hslot.1 hcreated.slot))) hn, fun _ hbal => ?_⟩
      exact absurd hbal (hb2.not_balanced hmem (by simp))
    · rw [hobj]
      exact ⟨fun _ => hb2.balanced (some h), fun _ _ _ _ => hfree.1 hf⟩

theorem openBalance_open {p : CString} {flags : Word} {done : List (List Byte)} {name : List Byte}
    {dir : Dir} {e : DirEntry} (hs0 : Sound part G s) (hcr : hasCreat flags = false)
    (hslash : p.1.getLastD 0 ≠ slash)
    (hpath : PathTo part (s.view part) p.1 done name d)
    (hl : (s.view part).lookup part d name = some e) (ht : e.fType = FileType.regular.code)
    (hroot : dir.isRoot = true ↔ done = []) (hs : HoldsDir part G s [] s' dir d) :
    post (fileOpen part e.iNo flags) (OpenBalance part s p.1 flags) s' := by
  obtain ⟨m, hm, hno, hkind⟩ := hs.found hpath.plain hl ht
  -- the condition, for the one file that the path names
  have hrel : OpenReleases part s p.1 flags ↔ done = [] ∧ (FreeSlot s → FreeFd s ∧
      (mayWrite flags = true → (yields part s m).writeDeny = false)) := by
    rw [OpenReleases, if_neg (by simp [hcr])]
    have htoNat : e.iNo.toNat = m := by rw [hno, hs0.toNat hm]
    refine ⟨fun h => htoNat ▸ h done name d e hslash hpath hl ht, ?_⟩
    intro h done' name' d' e' _ hpath' hl' _
    obtain ⟨rfl, rfl, rfl⟩ := hpath.eq hpath'
    obtain rfl := Option.some.inj (hl.symm.trans hl')
    rw [htoNat]
    exact h
  have hheld : done = [] → dir.held = [] := fun hd => if_pos (hroot.2 hd)
  have hheld' : done ≠ [] → dir.held = [dir.inode] := fun hd => if_neg fun h => hd (hroot.1 h)
  have hdir : done ≠ [] → dir.inode ∈ s'.openInodes := fun hd => hs.toSession.mem (by
    rw [hheld' hd]
    simp)
  have hopen : ∀ {f h s1}, Opening part G s dir m f h s1 → FreeSlot s := fun hop =>
    ⟨_, hop.lower, hop.upper, hop.free⟩
  have hmine : ∀ {f h s1}, Opening part G s dir m f h s1 → ¬ Balanced s s1 none := fun hop =>
    hop.balance.not_balanced hop.obj.mem (by simp)
  have hclaimed : ∀ s1 f h k, ((claimed s1 f h flags).inode k).iOpenCnts =
      (s1.inode k).iOpenCnts := fun s1 f h k => by
    simp only [claimed, updInode, updFile]
    split <;> rfl
  rw [hno]
  refine fileOpen_cases hs hm hkind (fun hn => ?_) (fun f h s1 hop hw hd => ?_)
    (fun f h s1 hop hw hn => ?_) fun f h s1 hop hw fd h3 h8 hfree => ?_
  · -- no entry: only the directory may be left open
    rw [OpenBalance, hrel, fdObject_neg_one]
    have hb := hs.balance
    by_cases hd : done = []
    · rw [hheld hd] at hb
      exact ⟨fun _ => hb.balanced none, fun _ _ => ⟨hd, fun hf => absurd hf hn⟩⟩
    · rw [hheld' hd] at hb
      refine ⟨fun h => absurd h.1 hd, fun _ hbal => absurd hbal (hb.not_balanced (hdir hd) ?_)⟩
      simp
  · rw [OpenBalance, hrel, fdObject_neg_one]
    refine ⟨fun h => ?_, fun _ hbal => ?_⟩
    · exact absurd ((h.2 (hopen hop)).2 hw) (by simp [hd])
    · exact absurd (hbal.congr s1 rfl fun _ => rfl) (hmine hop)
  · rw [OpenBalance, hrel, fdObject_neg_one]
    refine ⟨fun h => absurd (h.2 (hopen hop)).1 hn, fun _ hbal => ?_⟩
    exact absurd (hbal.congr s1 rfl fun k => (hclaimed s1 f h k).symm) (hmine hop)
  · have hobj : fdObject ((claimed s1 f h flags).setFd fd f) fd = some h := by
      rw [fdObject, if_neg (by omega)]
      simp [setFd, claimed, updFile, updInode]
    rw [OpenBalance, hrel, hobj]
    have hb := hop.balance
    by_cases hd : done = []
    · rw [hheld hd] at hb
      refine ⟨fun _ => ?_, fun _ _ => ⟨hd, fun _ => ⟨⟨fd, h3, h8, hfree⟩, hw⟩⟩⟩
      exact (hb.balanced (some h)).congr _ rfl (hclaimed s1 f h)
    · rw [hheld' hd] at hb
      refine ⟨fun h => absurd h.1 hd, fun _ hbal => ?_⟩
      refine absurd (hbal.congr s1 rfl fun k => (hclaimed s1 f h k).symm)
        (hb.not_balanced (h := dir.inode) (hop.toSession.mem ?_) ?_)
      · rw [hheld' hd]
        simp
      · rw [List.singleton_append, List.count_cons, List.count_cons_self, List.count_nil,
          count_toList]
        by_cases he : h = dir.inode <;> simp [he]

theorem sysOpen_balance (p : CString) (flags : Word) (hs : Sound part G s) (hr : CountsOk s) :
    post (sysOpen part p flags) (OpenBalance part s p.1 flags) s := by
  refine sysOpen_cases hs hr (.trivial p.1 flags)
    (fun s' hs' hc => openBalance_fail hs'.balance hc) ?_ ?_
  · intro done name d dir s' hcr hslash hpath hl _ hs'
    exact openBalance_create hr hcr hslash hpath hl hs'
  · intro done name d e dir s' hcr hslash hpath hl ht hroot hs'
    exact openBalance_open hs hcr hslash hpath hl ht hroot hs'

/-! ### All calls -/

/-- **When a call leaves no reference behind.** -/
def PathCall.Releases (part : Partition) (s : FsState) : PathCall → Prop
  | .open p flags => OpenReleases part s p.1 flags
  | .opendir p => p.1 ≠ [slash]
  | _ => True

/-- **When a call gives back what it takes.** For `sys_open`, and for `sys_opendir` of `/`, the file
system has to be in order; the other calls are balanced on any disk. A call for which memory runs
out on the way may be balanced for that reason. -/
theorem pathCall_balanced_iff {c : PathCall} {s s' : CwdState} {extra : Option ℕ}
    (hlist : ListOk s.fs) (hs : c.special → Sound part G s.fs ∧ CountsOk s.fs)
    (hrun : c.run part s = .ok (extra, s')) :
    (c.Releases part s.fs → Balanced s.fs s'.fs extra) ∧
      (¬ NoMemory s.fs → Balanced s.fs s'.fs extra → c.Releases part s.fs) := by
  -- a call that is balanced by its structure
  have hother : ¬ c.special → Balanced s.fs s'.fs extra := fun hc =>
    Balance.balanced extra ((pathCall_balance c hc s (.start hlist)).ok hrun)
  cases c with
  | «open» p flags =>
    obtain ⟨hsound, hr⟩ := hs trivial
    have hpost : post (PathCall.run part (.open p flags)) (fun extra s' =>
        (OpenReleases part s.fs p.1 flags → Balanced s.fs s'.fs extra) ∧
          (¬ NoMemory s.fs → Balanced s.fs s'.fs extra → OpenReleases part s.fs p.1 flags)) s := by
      simp only [PathCall.run, post, wp_bind, onFs, wp_zoom, wp_get, wp_pure]
      exact sysOpen_balance p flags hsound hr
    exact hpost.ok hrun
  | opendir p =>
    by_cases hp : p.1 = [slash]
    · refine ⟨fun h => absurd hp h, fun _ hbal => ?_⟩
      obtain ⟨hsound, -⟩ := hs hp
      -- `root_dir` as it is
      have hpost : post (PathCall.run part (.opendir p)) (fun extra s' =>
          extra = some s.fs.rootInode ∧ s' = s) s := by
        simp [PathCall.run, sysOpendir, post, onFs, wp_zoom, hp, rootDir]
      obtain ⟨rfl, rfl⟩ := hpost.ok hrun
      have hc := hbal.kept _ hsound.root.mem hsound.root.mem
      rw [if_pos rfl, BitVec.self_eq_add_right] at hc
      exact absurd hc (by decide)
    · exact ⟨fun _ => hother hp, fun _ _ => hp⟩
  | unlink p => exact ⟨fun _ => hother id, fun _ _ => trivial⟩
  | mkdir p => exact ⟨fun _ => hother id, fun _ _ => trivial⟩
  | rmdir p => exact ⟨fun _ => hother id, fun _ _ => trivial⟩
  | chdir p => exact ⟨fun _ => hother id, fun _ _ => trivial⟩
  | stat p => exact ⟨fun _ => hother id, fun _ _ => trivial⟩

end

/-- A file in the root directory is created with nothing left over. -/
theorem create_in_root_balanced : ∃ extra s', (PathCall.open pathF 4).run smallPart
    ⟨smallFs, fun _ => 0⟩ = .ok (extra, s') ∧ Balanced smallFs s'.fs extra := by
  have hrun : (PathCall.open pathF 4).run smallPart ⟨smallFs, fun _ => 0⟩ =
      .ok (some 1, ((PathCall.open pathF 4).run smallPart).final ⟨smallFs, fun _ => 0⟩) :=
    eq_ok_of_value? (by decide +kernel)
  obtain ⟨hs, hr, -, -⟩ := sound_smallFs
  refine ⟨_, _, hrun, (pathCall_balanced_iff hs.list (fun _ => ⟨hs, hr⟩) hrun).1 ?_⟩
  exact fun _ _ => ⟨3, by decide, by decide, by decide +kernel⟩

/-- **A directory stays open.** After `mkdir` of `/d` and the creation of `/d/f`, opening `/d/f`
leaves an inode in `open_inodes` that was not there before and is not that of the file. -/
theorem sysOpen_keeps_parent : ∃ s1 s2 s3 extra s4,
    sysMkdir smallPart pathD smallFs = .ok (0, s1) ∧
    sysOpen smallPart pathDF 4 s1 = .ok (3, s2) ∧ sysClose 3 s2 = .ok (0, s3) ∧
    (PathCall.open pathDF 0).run smallPart ⟨s3, fun _ => 0⟩ = .ok (extra, s4) ∧
    ¬ Balanced s3 s4.fs extra := by
  refine ⟨_, _, _, some 4, _, eq_ok_of_value? (by decide +kernel),
    eq_ok_of_value? (by decide +kernel),
    eq_ok_of_value? (by decide +kernel), eq_ok_of_value? (by decide +kernel), fun hb => ?_⟩
  have hnew : ∃ h ∈ ((PathCall.open pathDF 0).run smallPart |>.final ⟨(sysClose 3).final
      ((sysOpen smallPart pathDF 4).final ((sysMkdir smallPart pathD).final smallFs)),
      fun _ => 0⟩).fs.openInodes, h ∉ ((sysClose 3).final ((sysOpen smallPart pathDF 4).final
      ((sysMkdir smallPart pathD).final smallFs))).openInodes ∧ (some 4 : Option ℕ) ≠ some h := by
    decide +kernel
  obtain ⟨h, hh, hn, hne⟩ := hnew
  exact hne (hb.new h hh hn).1

end X86Os
