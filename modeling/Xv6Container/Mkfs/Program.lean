import Xv6Container.Fs.Format

/-!
# mkfs

Inodes and blocks are handed out in the order of their numbers, and the bitmap is written at the
end. A `struct dinode` is the 64 bytes that are copied to and from the image.
-/

namespace Xv6Container.Mkfs

open Prog Fs

/-- A file of the host. `reads` are the results of the calls of `read` on it, before the one that
returns 0. -/
structure HostFile where
  name : List UInt8
  reads : List (List UInt8)
  reads_ok : ∀ r ∈ reads, r ≠ [] ∧ r.length ≤ BSIZE

def HostFile.content (f : HostFile) : List UInt8 := f.reads.flatten

/-- How the program ends before its time. -/
inductive Exit
  | perror (msg : String)
  | assertion (text : String)

/-- The image, a file of `size` blocks, and the variables of the program. -/
structure State where
  image : ℕ → Block BSIZE
  size : ℕ
  freeinode : ℕ
  freeblock : ℕ

abbrev M := Prog State Exit

abbrev ninodeblocks : ℕ := NINODES / IPB + 1

def sb : DiskSuper where
  size := FSSIZE
  nblocks := FSSIZE - nmeta
  ninodes := NINODES
  nlog := LOGSIZE
  logstart := 2
  inodestart := 2 + LOGSIZE
  bmapstart := 2 + LOGSIZE + ninodeblocks

/-- `memset(buf, 0, sizeof(buf)); memmove(buf, &sb, sizeof(sb))`. -/
def sbBlock : Block BSIZE :=
  ((((((Block.zero.setWord 0 sb.size).setWord 1 sb.nblocks).setWord 2 sb.ninodes).setWord 3
    sb.nlog).setWord 4 sb.logstart).setWord 5 sb.inodestart).setWord 6 sb.bmapstart

/-- `rsect`: there is nothing to read past the end of the image. -/
def rsect (sec : ℕ) : M (Block BSIZE) := do
  let size ← read fun m => m.size
  if sec < size then read fun m => m.image sec else stop (.perror "read")

def wsect (sec : ℕ) (buf : Block BSIZE) : M Unit :=
  modify fun m => { m with
    image := Function.update m.image sec buf
    size := max m.size (sec + 1) }

def winode (inum : ℕ) (din : Block 64) : M Unit := do
  let buf ← rsect (sb.iblock inum)
  wsect (sb.iblock inum) (buf.overlay (64 * (inum % IPB)) din)

def rinode (inum : ℕ) : M (Block 64) := do
  let buf ← rsect (sb.iblock inum)
  pure (buf.part (64 * (inum % IPB)) 64)

/-- The inode that `ialloc` writes: one link, no size. -/
def newInode (type : ℕ) : Block 64 := ((Block.zero.setHalf 0 type).setHalf 3 1).setWord 2 0

def ialloc (type : ℕ) : M ℕ := do
  let inum ← read fun m => m.freeinode
  modify fun m => { m with freeinode := m.freeinode + 1 }
  winode inum (newInode type)
  pure inum

/-- `xint(freeblock++)`. -/
def takeBlock : M ℕ := do
  let b ← read fun m => m.freeblock
  modify fun m => { m with freeblock := m.freeblock + 1 }
  pure b

/-- `if(xint(din.addrs[k]) == 0) din.addrs[k] = xint(freeblock++)`. -/
def mapAddr (din : Block 64) (k : ℕ) : M (Block 64) :=
  if din.word (3 + k) = 0 then do
    let b ← takeBlock
    pure (din.setWord (3 + k) b)
  else pure din

/-- `indirect[j]` of the block `a`, filled on demand. -/
def mapEntry (a j : ℕ) : M ℕ := do
  let indirect ← rsect a
  if indirect.word j = 0 then do
    let b ← takeBlock
    wsect a (indirect.setWord j b)
    pure ((indirect.setWord j b).word j)
  else pure (indirect.word j)

/-- The block of `fbn`, and the inode with it. -/
def mapBlock (din : Block 64) (fbn : ℕ) : M (Block 64 × ℕ) :=
  if fbn < NDIRECT then do
    let din ← mapAddr din fbn
    pure (din, din.word (3 + fbn))
  else do
    let din ← mapAddr din NDIRECT
    let x ← mapEntry (din.word (3 + NDIRECT)) (fbn - NDIRECT)
    pure (din, x)

/-- The loop of `iappend`, from offset `off`; it goes through at most `fuel` blocks. -/
def iappendLoop : ℕ → Block 64 → ℕ → List UInt8 → M (Block 64 × ℕ)
  | 0, din, off, _ => pure (din, off)
  | fuel + 1, din, off, p =>
    if p = [] then pure (din, off)
    else do
      let fbn := off / BSIZE
      if fbn < MAXFILE then do
        let r ← mapBlock din fbn
        let n1 := min p.length ((fbn + 1) * BSIZE - off)
        let buf ← rsect r.2
        wsect r.2 (buf.patch (off - fbn * BSIZE) (p.take n1))
        iappendLoop fuel r.1 (off + n1) (p.drop n1)
      else stop (.assertion "fbn < MAXFILE")

def iappend (inum : ℕ) (p : List UInt8) : M Unit := do
  let din ← rinode inum
  let r ← iappendLoop p.length din (din.word 2) p
  winode inum (r.1.setWord 2 r.2)

def balloc (used : ℕ) : M Unit :=
  if used < BSIZE * 8 then wsect sb.bmapstart (Block.zero.marks used)
  else stop (.assertion "used < BSIZE*8")

/-- The name without a leading `'_'`. -/
def dirName : List UInt8 → List UInt8
  | 95 :: name => name
  | name => name

/-- `T_DIR` and `T_FILE`. -/
abbrev T_DIR : ℕ := 1
abbrev T_FILE : ℕ := 2

/-- The loop of `main` for one file. -/
def addFile (rootino : ℕ) (f : HostFile) : M Unit :=
  if slash ∈ f.name then stop (.assertion "index(argv[i], '/') == 0")
  else do
    let inum ← ialloc T_FILE
    iappend rootino (Dirent.encode ⟨inum, Name.ofBytes (dirName f.name)⟩)
    f.reads.forM (iappend inum)

/-- `// fix size of root inode dir`. -/
def fixRoot (rootino : ℕ) : M Unit := do
  let din ← rinode rootino
  winode rootino (din.setWord 2 ((din.word 2 / BSIZE + 1) * BSIZE))

/-- Zero the image, and write the superblock and the root directory with its entries for itself. -/
def makeRoot : M ℕ := do
  (List.range FSSIZE).forM fun i => wsect i Block.zero
  wsect 1 sbBlock
  let rootino ← ialloc T_DIR
  if rootino = ROOTINO then do
    iappend rootino (Dirent.encode ⟨rootino, Name.dot⟩)
    iappend rootino (Dirent.encode ⟨rootino, Name.dotdot⟩)
    pure rootino
  else stop (.assertion "rootino == ROOTINO")

def main (files : List HostFile) : M Unit := do
  let rootino ← makeRoot
  files.forM (addFile rootino)
  fixRoot rootino
  let used ← read fun m => m.freeblock
  balloc used

def start : State := ⟨fun _ => Block.zero, 0, 1, nmeta⟩

end Xv6Container.Mkfs
