import X86Os.Fs.Balanced
import X86Os.Fs.Resolved
import X86Os.Shell.Pipe

/-!
# Calls that cannot deliver a descriptor

`sys_open` and `sys_pipe` collect what a descriptor needs one after the other: an inode number, an
entry in a directory, an inode object, an entry of `file_table`, a slot of `fd_table`. When one of
these is not to be had, what was taken before it should be given back.

`sys_open` does this as long as it has not reached `file_open` or the end of `file_create`. From
there on it does not:

* a file for which the process has no descriptor stays open, and if it was to be created, it was;
* a file that is refused to a second writer stays open, with its entry of `file_table`;
* when `file_table` is full, the directory that the file was found in stays open, unless it is
  `root_dir` itself.

A path that is not absolute or too long, and flags above 7, fail assertions; a component of sixteen
characters does harm if the lookup comes to it. `sys_pipe` notices
nothing: it writes before the start of a full `file_table`, returns 0 when the process has fewer
than two descriptors left, and never returns -1.
-/

namespace X86Os

open X86Os.Comp FsState

/-! ### What is claimed -/

/-- The tables, the counts and flags of the open inodes, the bitmaps, and what inodes and
directories hold are as before. -/
structure NoTrace (part : Partition) (s s' : FsState) : Prop where
  fileTable : s'.fileTable = s.fileTable
  fdTable : s'.fdTable = s.fdTable
  blockBitmap : s'.blockBitmap = s.blockBitmap
  inodeBitmap : s'.inodeBitmap = s.inodeBitmap
  disk : s'.disk = s.disk
  openInodes : ∀ h, h ∈ s'.openInodes ↔ h ∈ s.openInodes
  counts : ∀ h ∈ s.openInodes, (s'.inode h).iOpenCnts = (s.inode h).iOpenCnts ∧
    (s'.inode h).writeDeny = (s.inode h).writeDeny
  view : s'.view part = s.view part

/-- The calls that create descriptors. There is memory for the ring buffer of a pipe. -/
inductive DescCall
  | open (pathname : CString) (flags : Word)
  | pipe (page : ℕ)

/-- The value that a call returns. -/
def DescCall.run (part : Partition) : DescCall → Kern FsState Int
  | .open p flags => sysOpen part p flags
  | .pipe page => do
    let _ ← sysPipe (some page)
    pure 0

/-- A path that `sys_open` can look up: it is absolute and not too long, no component is longer than
the array it is copied to, and those that the lookup comes to leave room for a terminator. -/
structure Lookable (part : Partition) (v : View) (p : List Byte) : Prop where
  slash : p.headD 0 = X86Os.slash
  length : p.length < maxPathLen
  fits : ∀ n ∈ names p, n.length ≤ maxFileNameLen
  short : ∀ n, v.ComesTo part p n → n.length < maxFileNameLen

section

variable {part : Partition} {G : Tree} {s s' s0 : FsState} {d : ℕ} {p : CString} {flags : Word}

theorem NoTrace.balanced (h : NoTrace part s s') : Balanced s s' none := by
  refine ⟨fun k _ hk => ?_, fun k hk hn => absurd ((h.openInodes k).1 hk) hn⟩
  rw [(h.counts k hk).1, if_neg nofun]
  exact (BitVec.add_zero _).symm

/-! ### Undoing -/

/-- An absolute path that does not end in a slash has a component. -/
theorem component_of_slash {q : List Byte} (h0 : q.headD 0 = slash) (h1 : q.getLastD 0 ≠ slash) :
    names q ≠ [] := by
  obtain ⟨done, name, hq, -⟩ := baseName_eq (exists_of_headD h0) h1
  rw [hq]
  simp

theorem Lookable.faults {E : Fault → Prop} {q : List Byte} (hp : Lookable part (s.view part) q)
    (hlast : q.getLastD 0 ≠ X86Os.slash) (hd : BlocksOnDisk part G s) (hmem : ¬ NoMemory s) :
    SearchFaults part G s q E where
  memory h := absurd h hmem
  disk n hn k hk _ hlt := absurd (hd n hn k hk) (Nat.not_le.2 hlt)
  parse n hn hlen := absurd (hp.fits n hn) (Nat.not_le.2 hlen)
  name n hn hlen := absurd (hp.short n hn) (Nat.not_lt.2 hlen.ge)
  path h := absurd ⟨hp.slash, one_lt_length hp.slash (component_of_slash hp.slash hlast),
    hp.length⟩ h

section

variable (hs : Sound part G s) (hr : CountsOk s) (hd : BlocksOnDisk part G s) (hmem : ¬ NoMemory s)

include hs hr hmem

end

end

end X86Os
