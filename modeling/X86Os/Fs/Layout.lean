import X86Os.Device.Ide

/-!
# Where things are on a partition

A partition holds, in this order, a boot sector, the super block, the block bitmap, the inode
bitmap, the inode table and the data area. The super block says where each region starts; the rest
of the file system never looks anywhere else for it.

`Partition` is a mounted partition: what the driver found in the partition table and the super
block, together with what `partition_format` makes true of the two. The regions follow one another,
the table has room for 4096 records of 76 bytes, and the bitmap covers the data area up to the rest
of its last sector, which is the slack of 4096 in `bitmap_le`.
-/

namespace X86Os

/-- `struct super_block`, without its padding. -/
structure SuperBlock where
  magic : ℕ
  secCnt : ℕ
  inodeCnt : ℕ
  partLbaBase : ℕ
  blockBitmapLba : ℕ
  blockBitmapSects : ℕ
  inodeBitmapLba : ℕ
  inodeBitmapSects : ℕ
  inodeTableLba : ℕ
  inodeTableSects : ℕ
  dataStartLba : ℕ
  rootInodeNo : ℕ
  dirEntrySize : ℕ
  deriving DecidableEq, Repr

/-- `struct partition` once it is mounted, in the layout of `partition_format` and on the disk the
driver supports. -/
structure Partition where
  startLba : ℕ
  secCnt : ℕ
  sb : SuperBlock
  blockBitmapLba_eq : sb.blockBitmapLba = startLba + 2
  blockBitmapSects_pos : 0 < sb.blockBitmapSects
  inodeBitmapLba_eq : sb.inodeBitmapLba = sb.blockBitmapLba + sb.blockBitmapSects
  inodeBitmapSects_eq : sb.inodeBitmapSects = 1
  inodeTableLba_eq : sb.inodeTableLba = sb.inodeBitmapLba + 1
  inodeTableSects_eq : sb.inodeTableSects = 608
  dataStartLba_eq : sb.dataStartLba = sb.inodeTableLba + 608
  rootInodeNo_eq : sb.rootInodeNo = 0
  dirEntrySize_eq : sb.dirEntrySize = 24
  dataStartLba_le : sb.dataStartLba ≤ startLba + secCnt
  bitmap_le : sb.dataStartLba + 4096 * sb.blockBitmapSects ≤ startLba + secCnt + 4096
  end_le : startLba + secCnt ≤ maxLba + 1

namespace Partition

variable (part : Partition)

/-- A block address that the bitmap can hand out fits in a signed word. -/
theorem data_lt {i : ℕ} (h : i < 4096 * part.sb.blockBitmapSects) :
    part.sb.dataStartLba + i < 2 ^ 31 := by
  have h1 := part.bitmap_le
  have h2 := part.end_le
  rw [maxLba] at h2
  omega

theorem dataStartLba_pos : 611 < part.sb.dataStartLba := by
  have h1 := part.dataStartLba_eq
  have h2 := part.inodeTableLba_eq
  have h3 := part.inodeBitmapLba_eq
  have h4 := part.blockBitmapLba_eq
  have h5 := part.blockBitmapSects_pos
  omega

theorem table_le : part.sb.inodeTableLba + 608 ≤ maxLba + 1 := by
  have h1 := part.dataStartLba_le
  have h2 := part.end_le
  have h3 := part.dataStartLba_eq
  omega

end Partition

/-- The bytes from sector `base` on, after `n` sectors from `base + k` on were overwritten. -/
theorem Disk.read_write (d : Disk) (base k n : ℕ) (buf : Buf) (o : ℕ) :
    (d.write (base + k) buf n).read base o =
      if 512 * k ≤ o ∧ o < 512 * (k + n) then buf (o - 512 * k) else d.read base o := by
  rw [Disk.read, Disk.read]
  split_ifs with h
  · rw [Disk.write_of_mem (by omega) (by omega)]
    exact congrArg buf (by omega)
  · rw [Disk.write_of_not_mem (by omega)]

end X86Os
