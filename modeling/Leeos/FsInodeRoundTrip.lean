import Leeos.FsInodeRuns
import Leeos.FsInodeSync

/-!
# An inode that is written and read again

`inode_sync` writes whole sectors, but all it changes on the disk is the slot. `inode_open` finds the
inode there as it was in memory, without its lock and with one opener.
-/
namespace FsInodeRoundTrip

open ExecRules KernelBitmap FsDisk FsInodes FsInodeRuns LibStdint
open FsInodeSync (Partition pureInode)

/-! ## `inode_sync` -/

def iSize (m : Bytes) (inode : ℕ) : ℕ := loadWord m (inode + 4)
def iSectors (m : Bytes) (inode i : ℕ) : ℕ := loadWord m (inode + 16 + 4 * i)

def slot (inodeTableLba no : ℕ) : ℕ :=
  512 * (inodePosition inodeTableLba no).secLba + (inodePosition inodeTableLba no).offSize

variable {s t : InodeState} {part : Partition} {inode ioBuff p q no i a : ℕ} {bufs : OpenBuffers}
  {pos : InodePosition} {m : Bytes}

/-! ## Writing the slot -/

end FsInodeRoundTrip
