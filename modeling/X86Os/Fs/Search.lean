import X86Os.Fs.Balance
import X86Os.Fs.Cache
import X86Os.Fs.Lookup
import X86Os.Lib.RefCount

/-!
# Looking paths up

`search_file` walks down a path. It has one directory open at a time, besides the root, which is
always open; on the way it opens and closes inodes, so it changes the cache, but nothing that the
cache stands for.

`Sound` is what holds of a mounted file system between calls, and in the middle of a lookup: the
invariant over its view, a cache in order and clean, and an inode bitmap that agrees with the tree.
`Holding s0 held s` is a call that began in `s0` and is in `s`, with references `held` to give back;
in a `Session` the view is still the one of `s0`. `HoldsDir` is a session that holds a directory of
a known number.

What can stop a lookup is listed in `SearchFaults`. The statements leave open what a stopped lookup
amounts to, so that they serve both for what holds if a call returns and for calls that have to.
-/

namespace X86Os

open X86Os.Comp FsState

/-! ### The state between calls -/

/-- The object at `h` is in the cache, and is that of the live inode `n`. -/
structure ObjectOf (G : Tree) (s : FsState) (h n : ℕ) : Prop where
  mem : h ∈ s.openInodes
  live : n ∈ G.live
  no : (s.inode h).iNo = BitVec.ofNat 32 n

/-- What holds of a mounted file system. -/
structure Sound (part : Partition) (G : Tree) (s : FsState) : Prop where
  inv : FsInv part G.live G (s.view part)
  cache : CacheOk G.live s
  clean : ∀ h ∈ s.openInodes, Clean part s h
  root : ObjectOf G s s.rootInode 0
  bits : ∀ n < 4096, s.inodeBitmap.bit n = true ↔ n ∈ G.live
  inodeLen : s.inodeBitmap.btmpBytesLen = 512
  blockLen : s.blockBitmap.btmpBytesLen = 512 * part.sb.blockBitmapSects

section

variable {part : Partition} {G : Tree} {s s' s0 : FsState} {held : List ℕ} {h k n d : ℕ}
  {E : Fault → Prop}

theorem Sound.lt (hs : Sound part G s) (hn : n ∈ G.live) : n < 4096 := hs.inv.lt n hn

/-- The numbers of live inodes are told apart by their words. -/
theorem Sound.inj (hs : Sound part G s) {m : ℕ} (hn : n ∈ G.live) (hm : m ∈ G.live)
    (he : BitVec.ofNat 32 n = BitVec.ofNat 32 m) : n = m :=
  eq_of_ofNat (hs.lt hn) (hs.lt hm) he

theorem Sound.toNat (hs : Sound part G s) (hn : n ∈ G.live) : (BitVec.ofNat 32 n).toNat = n :=
  toNat_ofNat (hs.lt hn)

theorem ObjectOf.eq (ho : ObjectOf G s h n) (hs : Sound part G s) {m : ℕ} (ho' : ObjectOf G s h m) :
    n = m := hs.inj ho.live ho'.live (ho.no.symm.trans ho'.no)

theorem Sound.list (hs : Sound part G s) : ListOk s := ⟨hs.cache.nodup, hs.cache.lt⟩

theorem Sound.view_of_same (hs : Sound part G s) (ho : s'.openInodes = s.openInodes)
    (hi : ∀ k ∈ s.openInodes, (s'.inode k).stored = (s.inode k).stored)
    (htop : s.inodeTop ≤ s'.inodeTop) (hd : s'.disk = s.disk)
    (hb : s'.blockBitmap = s.blockBitmap) : s'.view part = s.view part :=
  (same_objects part hs.cache ho hi htop hd hb).2.1

/-- Nothing but the objects of the cache, the disk, the bitmaps and the root directory counts. -/
theorem Sound.of_same (hs : Sound part G s) (ho : s'.openInodes = s.openInodes)
    (hi : ∀ k ∈ s.openInodes, (s'.inode k).stored = (s.inode k).stored)
    (htop : s.inodeTop ≤ s'.inodeTop) (hd : s'.disk = s.disk)
    (hb : s'.blockBitmap = s.blockBitmap) (hm : s'.inodeBitmap = s.inodeBitmap)
    (hr : s'.rootInode = s.rootInode) : Sound part G s' := by
  obtain ⟨hc, hv, hcl⟩ := same_objects part hs.cache ho hi htop hd hb
  refine ⟨hv ▸ hs.inv, hc, fun k hk => hcl k (ho ▸ hk) (hs.clean k (ho ▸ hk)), ?_, hm ▸ hs.bits,
    hm ▸ hs.inodeLen, hb ▸ hs.blockLen⟩
  rw [hr]
  exact ⟨ho ▸ hs.root.mem, hs.root.live, (iNo_of_stored (hi _ hs.root.mem)).trans hs.root.no⟩

theorem Sound.opened (hs : Sound part G s) (ho : Opened part G.live s s' n h) :
    Sound part G s' := by
  refine ⟨ho.view ▸ hs.inv, ho.cache, ho.clean hs.clean, ?_, ?_, ?_, ?_⟩
  · rw [rootInode_of_tables ho.same]
    refine ⟨(ho.mem_iff _).2 (.inl hs.root.mem), hs.root.live, ?_⟩
    by_cases hr : s.rootInode = h
    · rcases ho.cnt with ⟨-, -, hst⟩ | ⟨htop, -⟩
      · rw [hr, iNo_of_stored hst, ← hr, hs.root.no]
      · have := hs.cache.lt _ hs.root.mem
        omega
    · rw [ho.inode _ hs.root.mem hr, hs.root.no]
  · rw [inodeBitmap_of_tables ho.same]
    exact hs.bits
  · rw [inodeBitmap_of_tables ho.same]
    exact hs.inodeLen
  · rw [blockBitmap_of_tables ho.same]
    exact hs.blockLen

/-- Closing an inode, with the root still open afterwards. -/
theorem Sound.closed (hs : Sound part G s) (hm : h ∈ s.openInodes) (hc : Closed part G.live s s' h)
    (hroot : s.rootInode ∈ s'.openInodes) : Sound part G s' := by
  refine ⟨hc.view (hs.clean h hm) ▸ hs.inv, hc.cache, hc.clean hs.clean, ?_, ?_, ?_, ?_⟩
  · rw [rootInode_of_tables hc.same]
    exact ⟨hroot, hs.root.live, by rw [iNo_of_stored (hc.inode_stored _)]; exact hs.root.no⟩
  · rw [inodeBitmap_of_tables hc.same]
    exact hs.bits
  · rw [inodeBitmap_of_tables hc.same]
    exact hs.inodeLen
  · rw [blockBitmap_of_tables hc.same]
    exact hs.blockLen

/-! ### Sessions -/

/-- A call that began in `s0` is in `s`. The file system is in order, with the tree `G`, and the
call has the references `held` to give back. -/
structure Holding (part : Partition) (G : Tree) (s0 : FsState) (held : List ℕ) (s : FsState) :
    Prop where
  sound : Sound part G s
  balance : Balance s0 held s
  start : CountsOk s0
  root : s0.rootInode ∈ s0.openInodes
  rootInode : s.rootInode = s0.rootInode

/-- A call that changed nothing so far but the cache. -/
structure Session (part : Partition) (G : Tree) (s0 : FsState) (held : List ℕ) (s : FsState) : Prop
    extends Holding part G s0 held s where
  view : s.view part = s0.view part
  same : tables s = tables s0
  mallocs : ∃ j, ∀ k, s.mallocs k = s0.mallocs (k + j)

/-- A session that holds directory `d` open as `p`. -/
structure HoldsDir (part : Partition) (G : Tree) (s0 : FsState) (held : List ℕ) (s : FsState)
    (p : Dir) (d : ℕ) : Prop extends Session part G s0 (p.held ++ held) s where
  obj : ObjectOf G s p.inode d
  dir : G.kind d = .directory

theorem Session.refl (hs : Sound part G s) (hc : CountsOk s) : Session part G s [] s where
  sound := hs
  balance := .start hs.list
  start := hc
  root := hs.root.mem
  rootInode := rfl
  view := rfl
  same := rfl
  mallocs := ⟨0, fun _ => rfl⟩

/-- Objects that are not in the cache do not show. -/
theorem Session.of_same (hs : Session part G s0 held s) (hb : Balance s0 held s')
    (ht : tables s' = tables s) (ho : s'.openInodes = s.openInodes)
    (hi : ∀ k ∈ s.openInodes, s'.inode k = s.inode k) (htop : s.inodeTop ≤ s'.inodeTop)
    (hm : ∃ j, ∀ k, s'.mallocs k = s.mallocs (k + j)) : Session part G s0 held s' := by
  have hst : ∀ k ∈ s.openInodes, (s'.inode k).stored = (s.inode k).stored := fun k hk => by
    rw [hi k hk]
  have hd := disk_of_tables ht
  have hbb := blockBitmap_of_tables ht
  refine ⟨⟨hs.sound.of_same ho hst htop hd hbb (inodeBitmap_of_tables ht) (rootInode_of_tables ht),
    hb, hs.start, hs.root, (rootInode_of_tables ht).trans hs.rootInode⟩,
    (hs.sound.view_of_same ho hst htop hd hbb).trans hs.view, ht.trans hs.same, ?_⟩
  obtain ⟨i, hi⟩ := hm
  obtain ⟨j, hj⟩ := hs.mallocs
  exact ⟨i + j, fun k => by rw [hi, hj, Nat.add_assoc]⟩

/-- Requests for memory and uninitialised variables do not show. -/
theorem Session.congr (hs : Session part G s0 held s) (ht : tables s' = tables s)
    (hi : s'.inode = s.inode) (ho : s'.openInodes = s.openInodes) (htop : s'.inodeTop = s.inodeTop)
    (hm : ∃ j, ∀ k, s'.mallocs k = s.mallocs (k + j)) : Session part G s0 held s' :=
  hs.of_same (hs.balance.congr (by rw [counts, counts, hi, ho, htop])) ht ho (fun _ _ => by rw [hi])
    (Nat.le_of_eq htop.symm) hm

theorem Session.afterMallocs (hs : Session part G s0 held s) (j : ℕ) :
    Session part G s0 held (s.afterMallocs j) :=
  hs.congr rfl rfl rfl rfl ⟨j, fun _ => rfl⟩

theorem HoldsDir.afterMallocs {p : Dir} (hs : HoldsDir part G s0 held s p d) (j : ℕ) :
    HoldsDir part G s0 held (s.afterMallocs j) p d :=
  { hs.toSession.afterMallocs j with obj := ⟨hs.obj.mem, hs.obj.live, hs.obj.no⟩, dir := hs.dir }

/-- The root directory needs no reference. -/
theorem Session.holdsRoot (hs : Session part G s0 held s) : HoldsDir part G s0 held s s.rootDir 0 :=
  { hs with
    obj := hs.sound.root
    dir := hs.sound.inv.tree.kind_root }

/-- A request for memory fails at some time. -/
def NoMemory (s : FsState) : Prop := ∃ k, s.mallocs k = false

theorem Session.noMemory (hs : Session part G s0 held s) (hm : s.mallocs k = false) :
    NoMemory s0 := by
  obtain ⟨j, hj⟩ := hs.mallocs
  exact ⟨k + j, hj k ▸ hm⟩

section

variable (hE : NoMemory s0 → E .wild)

include hE

theorem inodeOpen_session (hs : Session part G s0 held s) (hlen : held.length < 8)
    (hn : n ∈ G.live) : wp (inodeOpen part (BitVec.ofNat 32 n)) (fun h s' =>
      Session part G s0 (h :: held) s' ∧ ObjectOf G s' h n ∧ Opened part G.live s s' n h) E s := by
  have hlt := hs.sound.lt hn
  refine ((inodeOpen_wp hs.sound.cache hn hlt (hs.sound.inv.no n hn) fun k hk =>
    hE (hs.noMemory hk)).and (inodeOpen_balance hlen _ s hs.balance)).mono ?_ fun _ h => h
  rintro h s' ⟨ho, hb⟩
  obtain ⟨i, hi⟩ := ho.mallocs
  obtain ⟨j, hj⟩ := hs.mallocs
  exact ⟨⟨⟨hs.sound.opened ho, hb, hs.start, hs.root,
    (rootInode_of_tables ho.same).trans hs.rootInode⟩, ho.view.trans hs.view, ho.same.trans hs.same,
    i + j, fun k => by rw [hi, hj, Nat.add_assoc]⟩, ⟨ho.mem, hn, ho.no⟩, ho⟩

/-- **`dir_open`.** -/
theorem dirOpen_wp (hs : Session part G s0 held s) (hlen : held.length < 8) (hd : d ∈ G.live)
    (hk : G.kind d = .directory) : wp (dirOpen part (BitVec.ofNat 32 d)) (fun p s' =>
      p.isRoot = false ∧ HoldsDir part G s0 held s' p d) E s := by
  simp only [dirOpen, wp_bind, wp_sysMalloc, wp_check, wp_pure]
  refine (inodeOpen_session hE (hs.afterMallocs 1) hlen hd).mono ?_ fun _ h => h
  rintro h s' ⟨hs', ho, -⟩
  exact ⟨fun _ => ⟨trivial, { hs' with obj := ho, dir := hk }⟩, fun hm => hE (hs.noMemory hm)⟩

end

theorem Holding.mem (hs : Holding part G s0 held s) (hh : h ∈ held) : h ∈ s.openInodes :=
  hs.balance.present h hh fun hm => hs.start h hm

/-- **`inode_close`** of an inode that is held. -/
theorem inodeClose_holding (hs : Holding part G s0 (h :: held) s) :
    wp (inodeClose h) (fun _ s' => Holding part G s0 held s' ∧ s'.view part = s.view part ∧
      tables s' = tables s ∧ s'.mallocs = s.mallocs) E s := by
  have hm : h ∈ s.openInodes := hs.mem List.mem_cons_self
  refine ((inodeClose_wp part hs.sound.cache hm).and (inodeClose_balance s hs.balance)).mono ?_
    fun _ h => h
  rintro - s' ⟨hc, hb⟩
  have hroot : s.rootInode ∈ s'.openInodes := by
    rw [hs.rootInode]
    exact hb.stay _ hs.root (hs.start _ hs.root)
  exact ⟨⟨hs.sound.closed hm hc hroot, hb, hs.start, hs.root,
    (rootInode_of_tables hc.same).trans hs.rootInode⟩, hc.view (hs.sound.clean h hm), hc.same,
    hc.mallocs⟩

theorem dirClose_holding {p : Dir}
    (hs : Holding part G s0 (p.held ++ held) s) :
    wp (dirClose p) (fun _ s' => Holding part G s0 held s' ∧ s'.view part = s.view part ∧
      tables s' = tables s ∧ s'.mallocs = s.mallocs) E s := by
  rw [dirClose]
  rw [Dir.held] at hs
  split
  · rename_i hr
    rw [if_pos hr] at hs
    exact ⟨hs, rfl, rfl, rfl⟩
  · rename_i hr
    rw [if_neg hr] at hs
    exact inodeClose_holding hs

/-- A holding step that leaves the file system alone continues a session. -/
theorem Session.step {held' : List ℕ} (hs : Session part G s0 held s)
    (h : Holding part G s0 held' s' ∧ s'.view part = s.view part ∧ tables s' = tables s ∧
      s'.mallocs = s.mallocs) : Session part G s0 held' s' :=
  { h.1 with
    view := h.2.1.trans hs.view
    same := h.2.2.1.trans hs.same
    mallocs := h.2.2.2 ▸ hs.mallocs }

theorem inodeClose_session (hs : Session part G s0 (h :: held) s) :
    wp (inodeClose h) (fun _ s' => Session part G s0 held s') E s :=
  (inodeClose_holding hs.toHolding).mono (fun _ _ h => hs.step h) fun _ h => h

/-- **`dir_close`.** -/
theorem dirClose_wp {p : Dir} (hs : Session part G s0 (p.held ++ held) s) :
    wp (dirClose p) (fun _ s' => Session part G s0 held s') E s :=
  (dirClose_holding hs.toHolding).mono (fun _ _ h => hs.step h) fun _ h => h

/-! ### Names -/

/-- A live inode with an object can be worked on. -/
theorem Sound.working (hs : Sound part G s) (ho : ObjectOf G s h n) : Working part G.live s h n :=
  ⟨hs.inv.own, hs.cache, ho.mem, ho.live, hs.lt ho.live, ho.no⟩

/-- **The code looks names up in the view.** -/
theorem Working.lookup_eq {L : Finset ℕ} (hw : Working part L s h n) (name : List Byte) :
    dirLookup part s.disk (s.inode h) name = (s.view part).lookup part n name := by
  rw [dirLookup, View.lookup]
  refine findSome?_congr fun k hk => ?_
  have hk := List.mem_range.1 hk
  rw [← hw.slot_object (by omega)]
  by_cases h0 : (s.view part).slot n k = 0
  · rw [if_pos h0, if_pos h0]
  · rw [if_neg h0, if_neg h0, hw.data_slot (by omega) h0]

theorem Sound.lookup_eq (hs : Sound part G s) (ho : ObjectOf G s h n) (name : List Byte) :
    dirLookup part s.disk (s.inode h) name = (s.view part).lookup part n name :=
  (hs.working ho).lookup_eq name

/-- What a name refers to is live and has the type that its entry says. -/
theorem FsInv.lookup {L : Finset ℕ} {v : View} (hi : FsInv part L G v) (hL : L = G.live)
    (hd : d ∈ G.live) (hk : G.kind d = .directory) {name : List Byte} (hn : PlainName name)
    {e : DirEntry} (hl : v.lookup part d name = some e) :
    ∃ m ∈ G.live, e.iNo = BitVec.ofNat 32 m ∧ e.fType = (G.kind m).code := by
  subst hL
  have hdir := hi.dirs d hd hk
  rcases hdir.lookup hn hl with ⟨-, hno, ht⟩ | ⟨-, hno, ht⟩ | ⟨-, -, k, i, hc, hno, ht, -⟩
  · exact ⟨d, hd, hno, by rw [hk, ht]⟩
  · obtain ⟨hh, hkh⟩ := hi.tree.home d hd
    exact ⟨G.home d, hh, hno, by rw [hkh, ht]⟩
  · obtain ⟨m, hm, hmno, hmt⟩ := hdir.child k i hc
    exact ⟨m, (Tree.mem_children.1 hm).1, hno.trans hmno, ht.trans hmt⟩

/-- What is found in a directory that is held is a live inode of the type of the entry. -/
theorem HoldsDir.found {p : Dir} {name : List Byte} {e : DirEntry} {t : FileType}
    (hs : HoldsDir part G s0 held s p d) (hn : PlainName name)
    (hl : (s0.view part).lookup part d name = some e) (ht : e.fType = t.code) :
    ∃ m ∈ G.live, e.iNo = BitVec.ofNat 32 m ∧ G.kind m = t := by
  obtain ⟨m, hm, hno, hmt⟩ := (hs.view ▸ hs.sound.inv).lookup rfl hs.obj.live hs.dir hn hl
  exact ⟨m, hm, hno, FileType.code_inj (hmt.symm.trans ht)⟩

/-! ### The lookup of a path -/

/-- The lookup of a path comes to component `name`: those before it are directories. -/
def View.ComesTo (part : Partition) (v : View) (p name : List Byte) : Prop :=
  ∃ done rest d, names p = done ++ name :: rest ∧ v.resolve part done 0 = some d

theorem View.ComesTo.mem {v : View} {p name : List Byte} (h : v.ComesTo part p name) :
    name ∈ names p := by
  obtain ⟨done, rest, d, hp, -⟩ := h
  rw [hp]
  exact List.mem_append_right _ List.mem_cons_self

/-- What can stop a lookup: no memory, a block beyond the end of the disk, a component that is too
long, a path that is no path. -/
structure SearchFaults (part : Partition) (G : Tree) (s : FsState) (p : List Byte)
    (E : Fault → Prop) : Prop where
  memory : NoMemory s → E .wild
  disk : ∀ n ∈ G.live, ∀ k ≤ 140, (s.view part).slot n k ≠ 0 →
    maxLba < ((s.view part).slot n k).toNat → E (.panic .ideRead)
  parse : ∀ n ∈ names p, maxFileNameLen < n.length → E .wild
  name : ∀ n, (s.view part).ComesTo part p n → n.length = maxFileNameLen → E .wild
  path : ¬ (p.headD 0 = slash ∧ 1 < p.length ∧ p.length < maxPathLen) → E (.panic .searchFile)

theorem SearchFaults.trivial (p : List Byte) : SearchFaults part G s p fun _ => True :=
  ⟨fun _ => ⟨⟩, fun _ _ _ _ _ _ => ⟨⟩, fun _ _ _ => ⟨⟩, fun _ _ _ => ⟨⟩, fun _ => ⟨⟩⟩

/-- What `search_file` finds on a path: the number it returns, what it leaves in the record, and the
number of the directory that the record has open. -/
inductive Searched (part : Partition) (v : View) (nomem : Prop) (p : List Byte) (n : Word) :
    PathSearchRecord → ℕ → Prop
  /-- The root, recognised by its spelling. -/
  | root (h : ℕ) (hp : p = [slash] ∨ p = slash :: dot ∨ p = slash :: dotDot) (hno : n = 0) :
      Searched part v nomem p n ⟨[], ⟨true, h⟩, .directory⟩ 0
  /-- A path of slashes: the number is that of an uninitialised variable. -/
  | empty (h : ℕ) (hp : names p = []) : Searched part v nomem p n ⟨[], ⟨false, h⟩, .directory⟩ 0
  /-- A component is not there, or there was no memory to find it. -/
  | absent (done rest : List (List Byte)) (name : List Byte) (dir : Dir) (d : ℕ)
      (hp : names p = done ++ name :: rest) (hn : PlainName name)
      (hd : v.resolve part done 0 = some d) (hl : v.lookup part d name = none ∨ nomem)
      (hno : n = -1) (hr : dir.isRoot = true ↔ done = []) :
      Searched part v nomem p n ⟨joinPath (done ++ [name]), dir, .unknown⟩ d
  /-- A component is a file, whatever comes after it. -/
  | regular (done rest : List (List Byte)) (name : List Byte) (dir : Dir) (d : ℕ) (e : DirEntry)
      (hp : names p = done ++ name :: rest) (hn : PlainName name)
      (hd : v.resolve part done 0 = some d) (hl : v.lookup part d name = some e)
      (ht : e.fType = FileType.regular.code) (hno : n = e.iNo)
      (hr : dir.isRoot = true ↔ done = []) :
      Searched part v nomem p n ⟨joinPath (done ++ [name]), dir, .regular⟩ d
  /-- All components are directories. -/
  | directory (done : List (List Byte)) (name : List Byte) (h : ℕ) (d : ℕ) (e : DirEntry)
      (hp : names p = done ++ [name]) (hn : PlainName name) (hd : v.resolve part done 0 = some d)
      (hl : v.lookup part d name = some e) (ht : e.fType = FileType.directory.code)
      (hno : n = e.iNo) :
      Searched part v nomem p n ⟨joinPath (done ++ [name]), ⟨false, h⟩, .directory⟩ d

/-- The last step of a lookup that came as far as `done`: the last component was found in directory
`pd`, and `ino` is the number in its entry. -/
def LastStep (part : Partition) (v : View) (done : List (List Byte)) (pd : ℕ) (ino : Word) : Prop :=
  ∃ done' name e, done = done' ++ [name] ∧ PlainName name ∧ v.resolve part done' 0 = some pd ∧
    v.lookup part pd name = some e ∧ e.fType = FileType.directory.code ∧ ino = e.iNo

theorem View.resolve_append {v : View} (xs ys : List (List Byte)) : ∀ {d : ℕ},
    v.resolve part (xs ++ ys) d = (v.resolve part xs d).bind (v.resolve part ys) := by
  induction xs with
  | nil => exact rfl
  | cons x xs ih =>
    intro d
    rw [List.cons_append, resolve, resolve]
    cases v.lookup part d x with
    | none => rfl
    | some e =>
      simp only
      split
      · exact ih
      · rfl

theorem View.resolve_snoc {v : View} {done : List (List Byte)} {name : List Byte} {e : DirEntry}
    (hd : v.resolve part done 0 = some d) (hl : v.lookup part d name = some e)
    (ht : e.fType = FileType.directory.code) :
    v.resolve part (done ++ [name]) 0 = some e.iNo.toNat := by
  rw [resolve_append, hd, Option.bind_some, resolve, hl]
  simp only [if_pos ht]
  rfl

/-- Every directory that a path of short components leads to is live. -/
theorem FsInv.resolve {L : Finset ℕ} {v : View} (hi : FsInv part L G v) (hL : L = G.live)
    (ns : List (List Byte)) : (∀ n ∈ ns, PlainName n) → ∀ {d0}, d0 ∈ G.live →
    G.kind d0 = .directory → v.resolve part ns d0 = some d →
    d ∈ G.live ∧ G.kind d = .directory := by
  induction ns with
  | nil =>
    intro _ d0 hd0 hk hr
    cases hr
    exact ⟨hd0, hk⟩
  | cons n ns ih =>
    intro hn d0 hd0 hk hr
    obtain ⟨e, hl, ht, hr⟩ := View.resolve_cons hr
    obtain ⟨m, hm, hno, hmt⟩ := hi.lookup hL hd0 hk (hn n List.mem_cons_self) hl
    rw [hno, toNat_ofNat (hi.lt m (hL ▸ hm))] at hr
    exact ih (fun x hx => hn x (List.mem_cons_of_mem _ hx)) hm
      (FileType.code_inj (hmt.symm.trans ht)) hr

/-- **The loop of `search_file`.** `done` are the components behind it, which lead to directory `d`,
open as `parent`; `pd` is the directory that `d` was found in. -/
theorem searchLoop_wp {p : List Byte} (hE : SearchFaults part G s0 p E)
    (hz : ∀ c ∈ p, c ≠ 0) (hp : p.headD 0 = slash ∧ p.length < maxPathLen) (ns : List (List Byte)) :
    ∀ {s : FsState} {parent : Dir} {d pd : ℕ} {ino : Word} {done : List (List Byte)},
    HoldsDir part G s0 [] s parent d → names p = done ++ ns →
    (s0.view part).resolve part done 0 = some d → pd ∈ G.live → G.kind pd = .directory →
    (done = [] ∧ pd = 0 ∨ LastStep part (s0.view part) done pd ino) →
    (parent.isRoot = true ↔ done = []) →
    wp (searchLoop part ns parent (BitVec.ofNat 32 pd) ino (joinPath done)) (fun r s' =>
      ∃ d, Searched part (s0.view part) (NoMemory s0) p r.1 r.2 d ∧
        HoldsDir part G s0 [] s' r.2.parentDir d) E s := by
  induction ns with
  | nil =>
    intro s parent d pd ino done hs hnames hres hpd hkpd hlast hroot
    rw [List.append_nil] at hnames
    rw [searchLoop, searchEnd, wp_bind]
    refine (dirClose_wp hs.toSession).mono (fun _ s1 hs1 => ?_) fun _ h => h
    rw [wp_bind]
    refine (dirOpen_wp hE.memory hs1 (by decide) hpd hkpd).mono ?_ fun _ h => h
    rintro ⟨_, h⟩ s2 ⟨rfl, hs2⟩
    rcases hlast with ⟨rfl, rfl⟩ | ⟨done', name, e, rfl, hn, hd', hl, ht, rfl⟩
    · exact ⟨0, .empty h hnames, hs2⟩
    · exact ⟨pd, .directory done' name h pd e hnames hn hd' hl ht rfl, hs2⟩
  | cons name ns ih =>
    intro s parent d pd ino done hs hnames hres hpd hkpd hlast hroot
    have hmem : name ∈ names p := by rw [hnames]; simp
    have hsound := hs.sound
    have hpath : joinPath done ++ slash :: name = joinPath (done ++ [name]) := by
      rw [joinPath_append, joinPath_singleton]
    rw [searchLoop, wp_bind, wp_ASSERT]
    refine ⟨fun _ => ?_, fun hlen => ?_⟩
    swap
    · -- the searched path is a part of the path
      have hle := length_joinPath_pathNames p.length (.inr hp.1)
      rw [show pathNames p.length p = done ++ name :: ns from hnames, joinPath_append,
        List.length_append] at hle
      rw [decide_eq_false_iff_not] at hlen
      have := hp.2
      omega
    simp only [wp_bind, wp_check, decide_eq_true_eq, decide_eq_false_iff_not]
    refine ⟨fun hfit => ?_, fun hlong => ?_⟩
    swap
    · rcases Nat.eq_or_lt_of_le (Nat.not_lt.1 hlong) with hfull | hover
      · exact hE.name name ⟨done, ns, d, hnames, hres⟩ hfull.symm
      · exact hE.parse name hmem hover
    have hplain : PlainName name := ⟨(isName_of_mem_names hmem).ne_nil,
      fun c hc => hz c (mem_of_mem_names hmem hc), hfit⟩
    refine searchDirEntry_wp (fun k hk => hE.memory (hs.noMemory hk)) (fun k hk h0 hlt => ?_)
      fun j r hr => ?_
    · rw [← (hsound.working hs.obj).slot_object hk, hs.view] at h0 hlt
      exact hE.disk d hs.obj.live k hk h0 hlt
    have hs1 := hs.afterMallocs j
    rw [hsound.lookup_eq hs.obj, hs.view] at hr
    cases r with
    | none =>
      rw [hpath]
      refine ⟨d, .absent done ns name parent d hnames hplain hres ?_ rfl hroot, hs1⟩
      rcases hr with hr | ⟨-, k, hk⟩
      · exact .inl hr.symm
      · exact .inr (hs.noMemory hk)
    | some e =>
      have hl : (s0.view part).lookup part d name = some e :=
        (hr.resolve_right fun hc => by cases hc.1).symm
      obtain ⟨m, hm, hno, hmt⟩ := (hs.view ▸ hsound.inv).lookup rfl hs.obj.live hs.dir hplain hl
      simp only [nameFits, wp_bind, wp_check, decide_eq_true_eq, decide_eq_false_iff_not]
      refine ⟨fun _ => ?_, fun hlong => ?_⟩
      swap
      · cases ns with
        | nil => exact absurd (by decide) hlong
        | cons n ns => exact hE.parse n (by rw [hnames]; simp) (Nat.not_le.1 hlong)
      rw [hpath]
      split
      · rename_i ht
        simp only [wp_bind, wp_get]
        refine (dirClose_wp hs1.toSession).mono (fun _ s2 hs2 => ?_) fun _ h => h
        rw [hno]
        refine (dirOpen_wp hE.memory hs2 (by decide) hm
          (FileType.code_inj (hmt.symm.trans ht))).mono ?_ fun _ h => h
        rintro dir s3 ⟨hnr, hs3⟩
        rw [show ((s.afterMallocs j).inode parent.inode).iNo = BitVec.ofNat 32 d from hs.obj.no]
        refine ih hs3 (by rw [hnames]; simp) ?_ hs.obj.live hs.dir
          (.inr ⟨done, name, e, rfl, hplain, hres, hl, ht, hno.symm⟩) ?_
        · rw [View.resolve_snoc hres hl ht, hno, hsound.toNat hm]
        · simp [hnr]
      · rename_i hnd
        split
        · rename_i ht
          exact ⟨d, .regular done ns name parent d e hnames hplain hres hl ht rfl hroot, hs1⟩
        · -- an entry of a live inode has one of the two types
          rename_i hnr
          rw [hmt] at hnd hnr
          cases hkm : G.kind m with
          | unknown => exact absurd hkm (hsound.inv.tree.known m hm)
          | regular => exact absurd (by rw [hkm]) hnr
          | directory => exact absurd (by rw [hkm]) hnd

/-- **`search_file`.** -/
theorem searchFile_wp {p : CString} (hE : SearchFaults part G s0 p.1 E)
    (hs : Session part G s0 [] s) :
    wp (searchFile part p) (fun r s' => (p.1.headD 0 = slash ∧ p.1.length < maxPathLen) ∧ ∃ d,
      Searched part (s0.view part) (NoMemory s0) p.1 r.1 r.2 d ∧
        HoldsDir part G s0 [] s' r.2.parentDir d) E s := by
  rw [searchFile, wp_bind, wp_get]
  split
  · rename_i hp
    refine ⟨?_, 0, .root _ hp rfl, hs.holdsRoot⟩
    rcases hp with hp | hp | hp <;> rw [hp] <;> decide
  · simp only [wp_bind, wp_ASSERT, wp_uninit, nameFits, wp_check, decide_eq_true_eq,
      decide_eq_false_iff_not]
    refine ⟨fun hp => ⟨fun _ => ?_, fun hlong => ?_⟩, hE.path⟩
    · have hs1 : Session part G s0 [] { s with junk := fun k => s.junk (k + 1) } :=
        hs.congr rfl rfl rfl rfl ⟨0, fun _ => rfl⟩
      exact (searchLoop_wp hE p.2 ⟨hp.1, hp.2.2⟩ _ hs1.holdsRoot rfl rfl hs1.sound.root.live
        hs1.sound.inv.tree.kind_root (.inl ⟨rfl, rfl⟩) (by simp [rootDir])).mono
        (fun _ _ h => ⟨⟨hp.1, hp.2.2⟩, h⟩) fun _ h => h
    · cases hn : names p.1 with
      | nil =>
        rw [hn] at hlong
        exact absurd (by decide) hlong
      | cons n ns =>
        rw [hn] at hlong
        exact hE.parse n (by rw [hn]; simp) (Nat.not_le.1 hlong)

theorem searchFile_bind {α : Type} {p : CString} {Q : α → FsState → Prop}
    {k : Word × PathSearchRecord → Kern FsState α} (hE : SearchFaults part G s0 p.1 E)
    (hs : Session part G s0 [] s)
    (hk : ∀ n r d s', p.1.headD 0 = slash →
      Searched part (s0.view part) (NoMemory s0) p.1 n r d →
      HoldsDir part G s0 [] s' r.parentDir d →
      wp (k (n, r)) Q E s') :
    wp (searchFile part p >>= k) Q E s := by
  rw [wp_bind]
  refine (searchFile_wp hE hs).mono ?_ fun _ h => h
  rintro ⟨n, r⟩ s' ⟨⟨hslash, -⟩, d, hf, hs'⟩
  exact hk n r d s' hslash hf hs'

/-! ### The components that were looked up -/

end

end X86Os
