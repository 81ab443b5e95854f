import X86Os.Fs.Dir
import X86Os.Fs.File

/-!
# What work on one inode does not touch

The routines that read and write a directory or a file work on one open inode: they change its size
and its block addresses, the block bitmap and the disk, and nothing else. `Blind f h` says that the
part `f` of the state does not show those changes for the inode at `h`; every such part is left
alone by every such routine, which is what this module says one routine at a time. A part that does
show the size is left alone by those that only look for blocks (`BlindBlocks`).

Two parts are of interest: the file tables, and everything else but those changes (`rest`).
-/

namespace X86Os

open X86Os.Comp FsState

/-- The part `f` of the state shows neither the disk nor the allocator, and not the block addresses
of the inode at `h`. -/
structure BlindBlocks {τ : Type} (f : FsState → τ) (h : ℕ) : Prop where
  disk : ∀ s d, f { s with disk := d } = f s
  bitmap : ∀ s i b, f { s with blockBitmap := bitmapSet s.blockBitmap i b } = f s
  mallocs : ∀ s m, f { s with mallocs := m } = f s
  iSectors : ∀ s (g : Inode → ℕ → Word),
    f (s.updInode h fun i => { i with iSectors := g i }) = f s

/-- The part `f` of the state shows neither the disk nor the allocator, and of the inode at `h`
neither the size nor the block addresses. -/
structure Blind {τ : Type} (f : FsState → τ) (h : ℕ) : Prop extends BlindBlocks f h where
  iSize : ∀ s (g : Inode → Word), f (s.updInode h fun i => { i with iSize := g i }) = f s

section

variable {part : Partition} {τ : Type} {f : FsState → τ} {h : ℕ}

namespace BlindBlocks

variable (hf : BlindBlocks f h)

include hf

theorem onDisk {α : Type} (x : Kern Disk α) : Keeps f (X86Os.onDisk x) := .zoom _ hf.disk

theorem sysMalloc : Keeps f X86Os.sysMalloc :=
  .bind .get fun _ => .bind (.modify fun s => hf.mallocs s _) fun _ => .pure _

theorem bitmapSync (i : ℕ) (t : BitmapType) : Keeps f (X86Os.bitmapSync part i t) := by
  refine .bind .get fun s => ?_
  cases t <;> exact hf.onDisk _

theorem blockBitmapAlloc : Keeps f (X86Os.blockBitmapAlloc part) :=
  .bind .get fun _ => .bind (.lift _) fun _ => .ite (.pure _)
    (.bind (.modify fun s => hf.bitmap s _ _) fun _ => .pure _)

theorem readTable (t : Word) (b : ℕ → Word) : Keeps f (X86Os.readTable t b) :=
  .bind (hf.onDisk _) fun _ => .pure _

theorem writeTable (t : Word) (b : ℕ → Word) : Keeps f (X86Os.writeTable t b) := hf.onDisk _

theorem allBlocks (inode : Inode) : Keeps f (X86Os.allBlocks inode) :=
  .ite (hf.readTable _ _) (.pure _)

/-! ### Directories -/

theorem searchBlocks (blocks : ℕ → Word) (name : List Byte) (left : ℕ) :
    ∀ i, Keeps f (X86Os.searchBlocks part blocks name left i) := by
  induction left with
  | zero => exact fun _ => .pure _
  | succ left ih =>
    intro i
    refine .ite (ih _) (.bind (hf.onDisk _) fun b => ?_)
    split
    · exact .pure _
    · exact ih _

theorem searchDirEntry (k : ℕ) (name : List Byte) :
    Keeps f (X86Os.searchDirEntry part k name) :=
  .bind hf.sysMalloc fun _ => .ite (.bind .get fun _ => .bind (hf.allBlocks _) fun _ =>
    .bind hf.sysMalloc fun _ => .bind (.check _ _) fun _ => hf.searchBlocks _ _ _ _) (.pure _)

theorem setSector (k : ℕ) (w : Word) : Keeps f (X86Os.setSector h k w) :=
  .modify fun s => hf.iSectors s _

theorem syncBlock (w : Word) : Keeps f (X86Os.syncBlock part w) :=
  .bind (.check _ _) fun _ => hf.bitmapSync _ _

theorem removeEntry (k : ℕ) (w : Word) (b : Buf) (i : ℕ) :
    Keeps f (X86Os.removeEntry part h k w b i) :=
  .bind (.check _ _) fun _ => .ite
    (.bind (.modify fun s => hf.bitmap s _ _) fun _ => .bind (hf.bitmapSync _ _) fun _ =>
      .ite (hf.setSector _ _) (.stop _)) (hf.onDisk _)

/-! ### Giving blocks back -/

theorem freeBlock (w : Word) : Keeps f (X86Os.freeBlock part w) :=
  .bind (.check _ _) fun _ => .bind (.modify fun s => hf.bitmap s _ _) fun _ => hf.bitmapSync _ _

theorem freeBlocks (all : ℕ → Word) (left : ℕ) :
    ∀ i, Keeps f (X86Os.freeBlocks part all left i) := by
  induction left with
  | zero => exact fun _ => .pure _
  | succ left ih => exact fun i => .bind (.ite (hf.freeBlock _) (.pure _)) fun _ => ih _

theorem releaseBlocks (inode : Inode) : Keeps f (X86Os.releaseBlocks part inode) :=
  .ite (.bind (hf.readTable _ _) fun _ => .bind (hf.freeBlock _) fun _ => hf.freeBlocks _ _ _)
    (hf.freeBlocks _ _ _)

/-! ### Files -/

theorem storeBlock (direct : Bool) (i : ℕ) (w : Word) : Keeps f (X86Os.storeBlock h direct i w) :=
  .ite (.bind .get fun _ => .bind (.check _ _) fun _ => .modify fun s => hf.iSectors s _) (.pure _)

theorem allocBlocks (direct : ℕ → Bool) (left : ℕ) :
    ∀ i all, Keeps f (X86Os.allocBlocks part h direct left i all) := by
  induction left with
  | zero => exact fun _ _ => .pure _
  | succ left ih =>
    exact fun i all => .bind hf.blockBitmapAlloc fun _ => .ite (.pure _)
      (.bind (hf.storeBlock _ _ _) fun _ => .bind (hf.bitmapSync _ _) fun _ => ih _ _)

theorem firstBlock : Keeps f (X86Os.firstBlock part h) :=
  .bind .get fun _ => .ite (.bind hf.blockBitmapAlloc fun _ => .ite (.pure _)
    (.bind (.modify fun s => hf.iSectors s _) fun _ => .bind (.check _ _) fun _ =>
      .bind (hf.bitmapSync _ _) fun _ => .pure _)) (.pure _)

omit hf in
theorem lastUsed (inode : Inode) (n : ℕ) : Keeps f (X86Os.lastUsed inode n) :=
  .bind (.check _ _) fun _ => .pure _

theorem collectSame (n : ℕ) : Keeps f (X86Os.collectSame h n) :=
  .bind .get fun _ => .ite (.bind (lastUsed _ _) fun _ => .pure _)
    (.bind (.check _ _) fun _ => .bind (hf.readTable _ _) fun _ => .pure _)

theorem collectDirect (n m : ℕ) : Keeps f (X86Os.collectDirect part h n m) :=
  .bind .get fun _ => .bind (lastUsed _ _) fun _ => .bind (.check _ _) fun _ =>
    hf.allocBlocks _ _ _ _

/-- Allocating blocks and writing the table that records them. -/
theorem allocTable (direct : ℕ → Bool) (left i : ℕ) (all : ℕ → Word) (w : Word) :
    Keeps f (do
      match ← X86Os.allocBlocks part h direct left i all with
      | none => pure none
      | some all => do
        X86Os.writeTable w all
        pure (some all)) := by
  refine .bind (hf.allocBlocks _ _ _ _) fun r => ?_
  cases r with
  | none => exact .pure _
  | some all => exact .bind (hf.writeTable _ _) fun _ => .pure _

theorem collectBoth (n m : ℕ) : Keeps f (X86Os.collectBoth part h n m) :=
  .bind .get fun _ => .bind (lastUsed _ _) fun _ => .bind hf.blockBitmapAlloc fun _ =>
    .ite (.pure _) (.bind .get fun _ => .bind (.check _ _) fun _ =>
      .bind (.modify fun s => hf.iSectors s _) fun _ => hf.allocTable _ _ _ _ _)

theorem collectIndirect (n m : ℕ) : Keeps f (X86Os.collectIndirect part h n m) :=
  .bind .get fun _ => .bind (.check _ _) fun _ => .bind (hf.readTable _ _) fun _ =>
    hf.allocTable _ _ _ _ _

theorem collectBlocks (n m : ℕ) : Keeps f (X86Os.collectBlocks part h n m) :=
  .ite (hf.collectSame _) (.ite (hf.collectDirect _ _) (.ite (hf.collectBoth _ _)
    (hf.collectIndirect _ _)))

theorem writeSector (lba off n : ℕ) (src : Buf) (first : Bool) :
    Keeps f (X86Os.writeSector lba off n src first) := by
  cases first with
  | false => exact .bind (.pure _) fun _ => .bind (hf.onDisk _) fun _ => .pure _
  | true => exact .bind (hf.onDisk _) fun _ => .bind (hf.onDisk _) fun _ => .pure _

/-! ### Entries of directories -/

section

variable {P Q : FsState → Prop} (hP : ∀ s s', f s' = f s → P s → P s') (hPQ : ∀ s, P s → Q s)
  (hgrow : Triple P (growDir part h) fun _ => Q)

include hP hgrow

theorem syncNewBlock (e : DirEntry) (w : Word) :
    Triple P (X86Os.syncNewBlock part h e w) fun _ => Q :=
  .bind ((hf.onDisk _).triple hP) fun _ => .bind hgrow fun _ => .pure fun _ h => h

include hPQ

theorem syncTable (e : DirEntry) (blocks : ℕ → Word) (w : Word) :
    Triple P (X86Os.syncTable part h e blocks w) fun _ => Q :=
  .bind ((hf.setSector _ _).triple hP) fun _ => .bind (hf.blockBitmapAlloc.triple hP) fun _ =>
    .ite (fun _ => .bind ((Keeps.modify fun s => hf.bitmap s _ _).triple hP) fun _ =>
      .bind ((hf.setSector _ _).triple hP) fun _ => .pure hPQ)
      fun _ => .bind ((hf.syncBlock _).triple hP) fun _ =>
        .bind ((hf.writeTable _ _).triple hP) fun _ => hf.syncNewBlock hP hgrow _ _

theorem syncAbsent (e : DirEntry) (blocks : ℕ → Word) (i : ℕ) (w : Word) :
    Triple P (X86Os.syncAbsent part h e blocks i w) fun _ => Q :=
  .bind ((hf.syncBlock _).triple hP) fun _ =>
    .ite (fun _ => .bind ((hf.setSector _ _).triple hP) fun _ => hf.syncNewBlock hP hgrow _ _)
      fun _ => .ite (fun _ => hf.syncTable hP hPQ hgrow _ _ _) fun _ =>
        .bind (Keeps.get.triple hP) fun _ => .bind ((hf.writeTable _ _).triple hP) fun _ =>
          hf.syncNewBlock hP hgrow _ _

theorem syncLoop (e : DirEntry) (blocks : ℕ → Word) (left : ℕ) :
    ∀ i, Triple P (X86Os.syncLoop part h e blocks left i) fun _ => Q := by
  induction left with
  | zero => exact fun _ => .pure hPQ
  | succ left ih =>
    intro i
    refine .ite (fun _ => .bind (hf.blockBitmapAlloc.triple hP) fun _ => .ite (fun _ => .pure hPQ)
      fun _ => hf.syncAbsent hP hPQ hgrow _ _ _ _) fun _ =>
      .bind ((hf.onDisk _).triple hP) fun b => ?_
    split
    · exact .bind ((hf.onDisk _).triple hP) fun _ => .bind hgrow fun _ => .pure fun _ h => h
    · exact ih _

/-- The size grows at most once, at the end. -/
theorem syncDirEntry (e : DirEntry) : Triple P (X86Os.syncDirEntry part h e) fun _ => Q :=
  .bind (Keeps.get.triple hP) fun _ => .bind ((Keeps.check _ _).triple hP) fun _ =>
    hf.syncLoop hP hPQ hgrow _ _ _ _

end

end BlindBlocks

namespace Blind

variable (hf : Blind f h)

include hf

theorem growDir : Keeps f (X86Os.growDir part h) := .modify fun s => hf.iSize s _

theorem syncDirEntry (e : DirEntry) : Keeps f (X86Os.syncDirEntry part h e) := fun s =>
  hf.toBlindBlocks.syncDirEntry (P := (f · = f s)) (fun _ _ => Eq.trans) (fun _ => id)
    (hf.growDir.triple fun _ _ => Eq.trans) e s rfl

theorem shrinkDir : Keeps f (X86Os.shrinkDir part h) :=
  .bind .get fun _ => .bind (.check _ _) fun _ => .bind (.modify fun s => hf.iSize s _) fun _ =>
    .bind .get fun _ => hf.onDisk _

theorem deleteLoop (n : Word) (blocks : ℕ → Word) (left : ℕ) :
    ∀ i, Keeps f (X86Os.deleteLoop part h n blocks left i) := by
  induction left with
  | zero => exact fun _ => .pure _
  | succ left ih =>
    intro i
    refine .ite (ih _) (.bind (hf.onDisk _) fun b => ?_)
    split
    · exact ih _
    · exact .bind (.check _ _) fun _ => .bind (hf.removeEntry _ _ _ _) fun _ =>
        .bind hf.shrinkDir fun _ => .pure _

theorem deleteDirEntry (n : Word) : Keeps f (X86Os.deleteDirEntry part h n) :=
  .bind .get fun _ => .bind (hf.allBlocks _) fun _ => hf.deleteLoop _ _ _ _

end Blind

/-! ### Everything else -/

/-- Everything but the disk, the bits of the block bitmap, the positions in `file_table`, and the
size and the block addresses of the inode at `h`. -/
def rest (h : ℕ) (s : FsState) : FsState :=
  { s with
    disk := fun _ _ => 0
    blockBitmap := bitmapInit s.blockBitmap.btmpBytesLen
    mallocs := fun _ => true
    inode := fun k => if k = h then { s.inode k with iSize := 0, iSectors := fun _ => 0 }
      else s.inode k
    fileTable := fun g => { s.fileTable g with fdPos := 0 } }

theorem blind_rest (h : ℕ) : Blind (rest h) h := by
  refine ⟨⟨fun _ _ => rfl, fun s i b => ?_, fun _ _ => rfl, fun s g => ?_⟩, fun s g => ?_⟩
  · simp only [rest, btmpBytesLen_bitmapSet]
  · simp only [rest, updInode]
    congr 1
    funext k
    split <;> rfl
  · simp only [rest, updInode]
    congr 1
    funext k
    split <;> rfl

variable {s s' : FsState} (hr : rest h s' = rest h s)

include hr

theorem rest_inode {k : ℕ} (hk : k ≠ h) : s'.inode k = s.inode k := by
  have := congrFun (congrArg FsState.inode hr) k
  simpa only [rest, if_neg hk] using this

theorem rest_self : (s'.inode h).iNo = (s.inode h).iNo ∧
    (s'.inode h).iOpenCnts = (s.inode h).iOpenCnts := by
  have := congrFun (congrArg FsState.inode hr) h
  simp only [rest, if_true, Inode.mk.injEq] at this
  exact ⟨this.1, this.2.2.1⟩

theorem rest_iNo (k : ℕ) : (s'.inode k).iNo = (s.inode k).iNo := by
  by_cases hk : k = h
  · rw [hk]
    exact (rest_self hr).1
  · rw [rest_inode hr hk]

theorem rest_openInodes : s'.openInodes = s.openInodes := (congrArg FsState.openInodes hr :)

theorem rest_inodeTop : s'.inodeTop = s.inodeTop := (congrArg FsState.inodeTop hr :)

theorem rest_blockLen : s'.blockBitmap.btmpBytesLen = s.blockBitmap.btmpBytesLen :=
  (congrArg (fun s => s.blockBitmap.btmpBytesLen) hr :)

end

end X86Os
