import Xv6Container.Lib.Fields
import Xv6Container.Fs.Image

/-!
# The bytes of a disk

How the kernel finds its tables in the blocks of a disk: the superblock is in block 1,
an inode is one of the records of an inode block, and a block is in use if its bit in
the bitmap is set.
-/

namespace Xv6Container.Fs

/-- `struct superblock` as it is stored. -/
structure DiskSuper where
  size : ℕ
  nblocks : ℕ
  ninodes : ℕ
  nlog : ℕ
  logstart : ℕ
  inodestart : ℕ
  bmapstart : ℕ
  deriving DecidableEq

def readsb (disk : ℕ → Block BSIZE) : DiskSuper :=
  let b := disk 1
  ⟨b.word 0, b.word 1, b.word 2, b.word 3, b.word 4, b.word 5, b.word 6⟩

/-- `IBLOCK(i, sb)`. -/
def DiskSuper.iblock (sb : DiskSuper) (i : ℕ) : ℕ := i / IPB + sb.inodestart

/-- `BBLOCK(b, sb)`. -/
def DiskSuper.bblock (sb : DiskSuper) (b : ℕ) : ℕ := b / BPB + sb.bmapstart

/-- The types that are stored: `T_DIR`, `T_FILE`, `T_DEV`, and 0. -/
def FType.ofShort : ℕ → FType
  | 1 => .dir
  | 2 => .file
  | 3 => .dev
  | _ => .free

/-- `struct dinode`: four shorts, the size, and the addresses. -/
def Dinode.decode (b : Block 64) : Dinode where
  type := FType.ofShort (b.half 0)
  major := Int16.ofNat (b.half 1)
  minor := Int16.ofNat (b.half 2)
  nlink := Int16.ofNat (b.half 3)
  size := b.word 2
  addrs := fun k => if k ≤ NDIRECT then b.word (3 + k) else 0

/-- `(struct dinode*)bp->data + inum%IPB`, in the inode's block. -/
def diskInode (disk : ℕ → Block BSIZE) (i : ℕ) : Dinode :=
  .decode ((disk ((readsb disk).iblock i)).part (64 * (i % IPB)) 64)

def diskBit (disk : ℕ → Block BSIZE) (b : ℕ) : Bool :=
  (disk ((readsb disk).bblock b)).bit (b % BPB)

/-- The file system on the disk. Numbers from `ninodes` on are no inodes. -/
def State.ofDisk (disk : ℕ → Block BSIZE) : State where
  dinode := fun i => if i < (readsb disk).ninodes then diskInode disk i else .fresh .free
  bitmap := diskBit disk
  block := disk
  inode := fun _ => ⟨0, 0, false, false, .fresh .free⟩
  input := []

/-- Read from a file that nobody has open: its type, its size, and `n` bytes from `off` on. -/
def readFile (sb : Superblock) (inum off n : ℕ) : M (FType × ℕ × Option (List UInt8)) := do
  let ip ← iget inum
  ilock ip
  let d ← Prog.read fun s => (s.inode ip).din
  let bytes ← readi sb ip off n
  pure (d.type, d.size, bytes)

@[simp] theorem decode_zero : Dinode.decode Block.zero = .fresh .free := by
  rw [Dinode.decode,Dinode.fresh]
  simp only [Block.half_zero,Block.word_zero,ite_self]
  rfl

theorem decode_setAddr (d : Block 64) {k v : ℕ} (hk : k ≤ NDIRECT) (hv : v < 2 ^ 32) :
    Dinode.decode (d.setWord (3+k) v) =
      { Dinode.decode d with addrs := Function.update (Dinode.decode d).addrs k v } := by
  have hk' : k ≤ 12 := hk
  have hhalf : ∀ l, l < 4 → (d.setWord (3+k) v).half l = d.half l := fun l hl =>
    d.half_setWord_of_ne (by omega) (by omega)
  have haddrs : (fun l => if l ≤ NDIRECT then (d.setWord (3+k) v).word (3+l) else 0) =
      Function.update (fun l => if l ≤ NDIRECT then d.word (3+l) else 0) k v := by
    funext l
    by_cases hl : l = k
    · subst hl
      rw [Function.update_self,if_pos hk,d.word_setWord_self (by omega) hv]
    · rw [Function.update_of_ne hl]
      by_cases hln : l ≤ NDIRECT
      · have hl12 : l ≤ 12 := hln
        rw [if_pos hln,if_pos hln,d.word_setWord_of_ne (by omega) (by omega)]
      · rw [if_neg hln,if_neg hln]
  simp only [Dinode.decode,hhalf 0 (by omega),hhalf 1 (by omega),hhalf 2 (by omega),
    hhalf 3 (by omega),d.word_setWord_of_ne (j := 3+k) (k := 2) (by omega) (by omega),haddrs]

theorem decode_setSize (d : Block 64) {v : ℕ} (hv : v < 2 ^ 32) :
    Dinode.decode (d.setWord 2 v) = { Dinode.decode d with size := v } := by
  have hhalf : ∀ l, l < 4 → (d.setWord 2 v).half l = d.half l := fun l hl =>
    d.half_setWord_of_ne (by omega) (by omega)
  have haddrs : (fun l => if l ≤ NDIRECT then (d.setWord 2 v).word (3+l) else 0) =
      fun l => if l ≤ NDIRECT then d.word (3+l) else 0 := by
    funext l
    by_cases hln : l ≤ NDIRECT
    · have hl12 : l ≤ 12 := hln
      rw [if_pos hln,if_pos hln,d.word_setWord_of_ne (by omega) (by omega)]
    · rw [if_neg hln,if_neg hln]
  simp only [Dinode.decode,hhalf 0 (by omega),hhalf 1 (by omega),hhalf 2 (by omega),
    hhalf 3 (by omega),d.word_setWord_self (j := 2) (by omega) hv,haddrs]

end Xv6Container.Fs
