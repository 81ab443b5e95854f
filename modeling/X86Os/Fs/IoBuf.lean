import X86Os.Fs.Inode

/-!
# The buffer of a write-back

`inode_sync` moves one sector, or two when the record straddles a sector boundary, through a buffer
that its caller has allocated: a block that `sys_malloc` returned, of a certain size. A transfer
past the end of it is a wild access.

The number of sectors depends on the slot that `inode_sync` writes to, and that slot is the number
of the inode modulo 256. Four of the five callers allocate two sectors. `file_write` allocates one,
which is what its data loop needs, and hands the same buffer to `inode_sync`.
-/

namespace X86Os

open X86Os.Comp

/-- The functions that call `inode_sync`: the last two do so through `delete_dir_entry`, for which
they allocate the buffer. -/
inductive SyncCaller
  | fileWrite | fileCreate | sysMkdir | sysUnlink | dirRemove
  deriving DecidableEq, Repr

/-- `BLOCK_SIZE` and `SECTOR_SIZE`. -/
def sectorSize : ℕ := 512

/-- What the caller asks `sys_malloc` for. -/
def SyncCaller.ioBufSize : SyncCaller → ℕ
  | .fileWrite => sectorSize
  | .fileCreate => 1024
  | .sysMkdir => sectorSize * 2
  | .sysUnlink => sectorSize + sectorSize
  | .dirRemove => sectorSize * 2

/-- The record of slot `n` lies in two sectors. -/
def Straddles (n : ℕ) : Prop := 512 < n * inodeSize % 512 + inodeSize

instance (n : ℕ) : Decidable (Straddles n) := inferInstanceAs (Decidable (_ < _))

/-- The write-back of an inode by the caller returns: it fails no assertion, and touches no byte
outside the caller's buffer, whatever is in it. -/
def SyncFits (part : Partition) (caller : SyncCaller) (inode : Inode) (d : Disk) : Prop :=
  ∀ bytes, ∃ d', inodeSyncIn part inode ⟨caller.ioBufSize, bytes⟩ d = .ok ((), d')

section

variable {part : Partition} {inode : Inode} {d : Disk}

theorem secs_eq_of_straddles {n : ℕ} :
    (inodePosition part n).secs = if Straddles n then 2 else 1 := by
  have hiff : 512 - n * 76 % 512 < 76 ↔ Straddles n := by
    rw [Straddles, inodeSize]
    omega
  rw [secs_inodePosition]
  exact if_congr hiff rfl rfl

/-- One sector is too short for a record that lies in two. -/
theorem straddles_iff {n : ℕ} : 512 < 512 * (inodePosition part n).secs ↔ Straddles n := by
  rw [secs_eq_of_straddles]
  split <;> simp_all

variable (part inode d) in
/-- **Which write-backs stay inside their buffer**: all but those that `file_write` makes of a
record that straddles a sector boundary. -/
theorem syncFits_iff (caller : SyncCaller) :
    SyncFits part caller inode d ↔
      caller = .fileWrite → ¬ Straddles (inode.iNo.toNat % 256) := by
  have hsecs : (inodePosition part (inode.iNo.toNat % 256)).secs = _ := secs_eq_of_straddles
  constructor
  · rintro h rfl hs
    obtain ⟨d', hd'⟩ := h fun _ => 0
    rw [if_pos hs] at hsecs
    have hshort : SyncCaller.fileWrite.ioBufSize <
        512 * (inodePosition part (inode.iNo.toNat % 256)).secs := by
      rw [hsecs]
      decide
    rw [inodeSyncIn_of_short hshort] at hd'
    cases hd'
  · intro h bytes
    have hfits : 512 * (inodePosition part (inode.iNo.toNat % 256)).secs ≤ caller.ioBufSize := by
      rw [hsecs]
      cases caller with
      | fileWrite => rw [if_neg (h rfl)]; decide
      | fileCreate | sysMkdir | sysUnlink | dirRemove => split <;> decide
    obtain ⟨d', hd', -⟩ := inodeSyncIn_spec part d inode ⟨caller.ioBufSize, bytes⟩ hfits
    exact ⟨d', hd'⟩

end

/-- The record of inode 6 does not fit the buffer of `file_write`. -/
theorem fileWrite_buffer_short :
    ¬ SyncFits smallPart .fileWrite ⟨6, 1, 1, false, fun _ => 0⟩ fun _ _ => 0 := by
  intro h
  exact (syncFits_iff smallPart _ _ .fileWrite).mp h rfl (by decide)

end X86Os
