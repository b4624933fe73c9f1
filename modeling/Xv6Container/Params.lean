/-!
# Kernel constants

The constants of `param.h`, `fs.h` and `file.h` that the model uses, and the ways
in which the kernel fails to come back from a call.
-/

namespace Xv6Container

abbrev NPROC : Nat := 64
abbrev NOFILE : Nat := 100
abbrev NFILE : Nat := 100
abbrev NINODE : Nat := 50
abbrev NDEV : Nat := 10
abbrev MAXOPBLOCKS : Nat := 10
abbrev LOGSIZE : Nat := MAXOPBLOCKS * 3
abbrev NBUF : Nat := MAXOPBLOCKS * 3
abbrev BSIZE : Nat := 512
abbrev ROOTINO : Nat := 1
abbrev NDIRECT : Nat := 12
abbrev NINDIRECT : Nat := BSIZE / 4
abbrev MAXFILE : Nat := NDIRECT + NINDIRECT
/-- Inodes per block: a `struct dinode` has 64 bytes. -/
abbrev IPB : Nat := BSIZE / 64
abbrev BPB : Nat := BSIZE * 8
abbrev DIRSIZ : Nat := 14
abbrev PGSIZE : Nat := 4096
/-- Flags of `open`. -/
abbrev O_RDONLY : UInt32 := 0x000
abbrev O_WRONLY : UInt32 := 0x001
abbrev O_RDWR : UInt32 := 0x002
abbrev O_CREATE : UInt32 := 0x200
/-- Slots of the container table, and of every array in a container. -/
abbrev NCONT : Nat := 100
/-- Major number of the console, the only device with a driver. -/
abbrev CONSOLE : Int16 := 1

theorem nproc_pos : 0 < NPROC := by decide

theorem ncont_pos : 0 < NCONT := by decide

theorem ninode_pos : 0 < NINODE := by decide

/-- Why the kernel does not come back from a call. -/
inductive Stop
  | panic (msg : String)
  /-- a store through a null pointer or outside an array -/
  | wild
  /-- the caller waits for a lock that it holds itself -/
  | blocked
  deriving DecidableEq, Repr

end Xv6Container
