import Xv6Container.Params
import Xv6Container.Lib.Block
import Xv6Container.Lib.Prog

/-!
# Blocks, inodes and their content

The lower half of `fs.c`. The disk is kept as three tables: the inodes, the bits of the free
bitmap, and the bytes of all blocks. A `log_write` is the store itself, and so are the buffer
cache calls. There is one device, so device numbers are left out.
-/

namespace Xv6Container.Fs

/-- The `type` of an inode; 0 is a free inode. -/
inductive FType
  | free | dir | file | dev
  deriving DecidableEq, Repr

/-- `struct dinode`. `addrs[NDIRECT]` is the indirect block. -/
structure Dinode where
  type : FType
  major : Int16
  minor : Int16
  nlink : Int16
  size : ℕ
  addrs : ℕ → ℕ

/-- `memset(dip, 0, sizeof(*dip)); dip->type = type`. -/
def Dinode.fresh (type : FType) : Dinode := ⟨type, 0, 0, 0, 0, fun _ => 0⟩

abbrev ISlot := Fin NINODE

/-- `struct inode`; `din` is the copy of the disk inode. -/
structure Inode where
  inum : ℕ
  ref : ℕ
  locked : Bool
  valid : Bool
  din : Dinode

/-- `struct superblock`. Boot block, log, inodes and bitmap come first, then `nblocks` data
blocks. -/
structure Superblock where
  size : ℕ
  nblocks : ℕ
  ninodes : ℕ
  nblocks_lt : nblocks < size
  size_lt : size < 2 ^ 32
  root_lt : ROOTINO < ninodes
  ninodes_le : ninodes ≤ 2 ^ 16

def Superblock.dataStart (sb : Superblock) : ℕ := sb.size - sb.nblocks

/-- The disk and the inode cache, and what the console still has to offer to its readers: -1 or some
bytes. -/
structure State where
  dinode : ℕ → Dinode
  bitmap : ℕ → Bool
  block : ℕ → Block BSIZE
  inode : ISlot → Inode
  input : List (Option (List UInt8))

abbrev M := Prog State Stop

open Prog Function

variable (sb : Superblock)

/-- `balloc`: the first block whose bit is clear, zeroed. -/
def balloc : M ℕ := do
  let free ← read fun s => (List.range sb.size).find? fun b => !s.bitmap b
  match free with
  | some b =>
    modify fun s => { s with
      bitmap := update s.bitmap b true
      block := update s.block b Block.zero }
    pure b
  | none => stop (.panic "balloc: out of blocks")

def bfree (b : ℕ) : M Unit := do
  let used ← read fun s => s.bitmap b
  if used then modify fun s => { s with bitmap := update s.bitmap b false }
  else stop (.panic "freeing free block")

def setInode (c : ISlot) (f : Inode → Inode) : M Unit :=
  modify fun s => { s with inode := update s.inode c (f (s.inode c)) }

def setDin (c : ISlot) (f : Dinode → Dinode) : M Unit :=
  setInode c fun ip => { ip with din := f ip.din }

def iupdate (c : ISlot) : M Unit :=
  modify fun s => { s with
    dinode := update s.dinode (s.inode c).inum (s.inode c).din }

/-- `iget`: the slot that has the inode, or the first empty one. -/
def iget (inum : ℕ) : M ISlot := do
  let cached ← read fun s => (List.finRange NINODE).find? fun c =>
    0 < (s.inode c).ref && (s.inode c).inum = inum
  match cached with
  | some c =>
    setInode c fun ip => { ip with ref := ip.ref + 1 }
    pure c
  | none =>
    let empty ← read fun s => (List.finRange NINODE).find? fun c => (s.inode c).ref = 0
    match empty with
    | some c =>
      setInode c fun ip => { ip with inum := inum, ref := 1, valid := false }
      pure c
    | none => stop (.panic "iget: no inodes")

/-- `ialloc`: the first inode that is free on the disk. -/
def ialloc (type : FType) : M ISlot := do
  let found ← read fun s => (List.range sb.ninodes).find? fun i =>
    1 ≤ i && (s.dinode i).type = .free
  match found with
  | some i =>
    modify fun s => { s with dinode := update s.dinode i (Dinode.fresh type) }
    iget i
  | none => stop (.panic "ialloc: no inodes")

def idup (c : ISlot) : M ISlot := do
  setInode c fun ip => { ip with ref := ip.ref + 1 }
  pure c

/-- `acquiresleep`: operations run one at a time, so a lock that is held is held by the caller. -/
def acquiresleep (c : ISlot) : M Unit := do
  let locked ← read fun s => (s.inode c).locked
  if locked then stop .blocked else setInode c fun ip => { ip with locked := true }

def releasesleep (c : ISlot) : M Unit := setInode c fun ip => { ip with locked := false }

/-- The part of `ilock` that reads the inode from the disk. -/
def iread (c : ISlot) : M Unit := do
  let d ← read fun s => s.dinode (s.inode c).inum
  setInode c fun ip => { ip with din := d, valid := true }
  if d.type = .free then stop (.panic "ilock: no type") else pure ()

def ilock (c : ISlot) : M Unit := do
  let ref ← read fun s => (s.inode c).ref
  if ref < 1 then stop (.panic "ilock")
  else do
    acquiresleep c
    let valid ← read fun s => (s.inode c).valid
    if valid then pure () else iread c

def iunlock (c : ISlot) : M Unit := do
  let ip ← read fun s => s.inode c
  if !ip.locked || ip.ref < 1 then stop (.panic "iunlock") else releasesleep c

/-- Free `addrs[i]`, for a direct block or the indirect block itself. -/
def itruncAddr (c : ISlot) (i : ℕ) : M Unit := do
  let b ← read fun s => (s.inode c).din.addrs i
  if b = 0 then pure ()
  else do
    bfree b
    setDin c fun d => { d with addrs := update d.addrs i 0 }

/-- Free the blocks that the indirect block lists. -/
def itruncIndirect (c : ISlot) : M Unit := do
  let b ← read fun s => (s.inode c).din.addrs NDIRECT
  if b = 0 then pure ()
  else do
    let a ← read fun s => s.block b
    (List.range NINDIRECT).forM fun j => if a.word j = 0 then pure () else bfree (a.word j)

def itrunc (c : ISlot) : M Unit := do
  (List.range NDIRECT).forM (itruncAddr c)
  itruncIndirect c
  itruncAddr c NDIRECT
  setDin c fun d => { d with size := 0 }
  iupdate c

/-- The part of `iput` that frees an inode without links and other references. -/
def ifree (c : ISlot) : M Unit := do
  let ip ← read fun s => s.inode c
  if ip.valid ∧ ip.din.nlink = 0 ∧ ip.ref = 1 then do
    itrunc c
    setDin c fun d => { d with type := .free }
    iupdate c
    setInode c fun ip => { ip with valid := false }
  else pure ()

def iput (c : ISlot) : M Unit := do
  acquiresleep c
  ifree c
  releasesleep c
  setInode c fun ip => { ip with ref := ip.ref - 1 }

def iunlockput (c : ISlot) : M Unit := do
  iunlock c
  iput c

/-- A direct block, or the indirect block, allocated on demand. -/
def bmapAddr (c : ISlot) (i : ℕ) : M ℕ := do
  let addr ← read fun s => (s.inode c).din.addrs i
  if addr = 0 then do
    let b ← balloc sb
    setDin c fun d => { d with addrs := update d.addrs i b }
    pure b
  else pure addr

/-- Entry `j` of the indirect block `a`, allocated on demand. -/
def bmapEntry (a j : ℕ) : M ℕ := do
  let addr ← read fun s => (s.block a).word j
  if addr = 0 then do
    let b ← balloc sb
    modify fun s => { s with block := update s.block a ((s.block a).setWord j b) }
    pure b
  else pure addr

def bmap (c : ISlot) (bn : ℕ) : M ℕ :=
  if bn < NDIRECT then bmapAddr sb c bn
  else if bn - NDIRECT < NINDIRECT then do
    let a ← bmapAddr sb c NDIRECT
    bmapEntry sb a (bn - NDIRECT)
  else stop (.panic "bmap: out of range")

/-- The loop of `readi`, from offset `off` for `n` more bytes; it goes through at most `fuel`
blocks. -/
def readiLoop (c : ISlot) : ℕ → ℕ → ℕ → M (List UInt8)
  | 0, _, _ => pure []
  | fuel + 1, off, n =>
    if n = 0 then pure []
    else do
      let b ← bmap sb c (off / BSIZE)
      let m := min n (BSIZE - off % BSIZE)
      let piece ← read fun s => (s.block b).slice (off % BSIZE) m
      let rest ← readiLoop c fuel (off + m) (n - m)
      pure (piece ++ rest)

/-- The console driver's `read`: the next thing on offer. -/
def consoleread (n : ℕ) : M (Option (List UInt8)) := do
  let input ← read fun s => s.input
  match input with
  | [] => pure (some [])
  | x :: rest => do
    modify fun s => { s with input := rest }
    pure (x.map (List.take n))

/-- `readi`; `none` is the return value -1. -/
def readi (c : ISlot) (off n : ℕ) : M (Option (List UInt8)) := do
  let d ← read fun s => (s.inode c).din
  if d.type = .dev then
    if d.major = CONSOLE then consoleread n else pure none
  else if off > d.size ∨ (off + n) % 2 ^ 32 < off then pure none
  else do
    let n := if (off + n) % 2 ^ 32 > d.size then d.size - off else n
    let bytes ← readiLoop sb c n off n
    pure (some bytes)

/-- The loop of `writei`, from offset `off`; it goes through at most `fuel` blocks. -/
def writeiLoop (c : ISlot) : ℕ → ℕ → List UInt8 → M Unit
  | 0, _, _ => pure ()
  | fuel + 1, off, src =>
    if src = [] then pure ()
    else do
      let b ← bmap sb c (off / BSIZE)
      let m := min src.length (BSIZE - off % BSIZE)
      modify fun s => { s with
        block := update s.block b ((s.block b).patch (off % BSIZE) (src.take m)) }
      writeiLoop c fuel (off + m) (src.drop m)

/-- The end of `writei`, after `n` bytes up to offset `off`. -/
def growTo (c : ISlot) (n off : ℕ) : M Unit := do
  let size ← read fun s => (s.inode c).din.size
  if n > 0 ∧ off > size then do
    setDin c fun d => { d with size := off }
    iupdate c
  else pure ()

/-- `writei`; `none` is the return value -1. -/
def writei (c : ISlot) (src : List UInt8) (off : ℕ) : M (Option ℕ) := do
  let d ← read fun s => (s.inode c).din
  let n := src.length
  if d.type = .dev then
    if d.major = CONSOLE then pure (some n) else pure none
  else if off > d.size ∨ (off + n) % 2 ^ 32 < off then pure none
  else if (off + n) % 2 ^ 32 > MAXFILE * BSIZE then pure none
  else do
    writeiLoop sb c n off src
    growTo c n (off + n)
    pure (some n)

end Xv6Container.Fs
