import Mathlib.Data.List.TakeWhile
import Xv6Container.Fs.Inode

/-!
# Directories and paths

The upper half of `fs.c`: `dirlookup`, `dirlink` and the resolution of path names. A path is a
C string without its NUL; the current directory is missing for a process that has none.
-/

namespace Xv6Container.Fs

open Prog

/-- A file name as directories store it, up to its NUL if it has one. -/
structure Name where
  bytes : List UInt8
  length_le : bytes.length ≤ DIRSIZ
  no_nul : 0 ∉ bytes
  deriving DecidableEq

/-- The name that `skipelem` and `namecmp` see in some bytes. -/
def Name.ofBytes (l : List UInt8) : Name where
  bytes := (l.take DIRSIZ).takeWhile (· ≠ 0)
  length_le := (List.takeWhile_sublist _).length_le.trans (by simp)
  no_nul := fun h => by simpa using List.mem_takeWhile_imp h

def Name.empty : Name := Name.ofBytes []

/-- `"."`. -/
def Name.dot : Name := Name.ofBytes [46]

/-- `".."`. -/
def Name.dotdot : Name := Name.ofBytes [46, 46]

/-- `struct dirent`, 16 bytes on the disk. Entry number 0 is free. -/
@[ext] structure Dirent where
  inum : ℕ
  name : Name

namespace Dirent

/-- The bytes of an entry: a `ushort`, and the name as `strncpy` pads it. -/
def encode (e : Dirent) : List UInt8 :=
  [UInt8.ofNat e.inum, UInt8.ofNat (e.inum / 256)] ++ e.name.bytes ++
    List.replicate (DIRSIZ - e.name.bytes.length) 0

def decode (l : List UInt8) : Dirent :=
  ⟨(l.getD 0 0).toNat + 256 * (l.getD 1 0).toNat, Name.ofBytes (l.drop 2)⟩

/-- `memset(&de, 0, sizeof(de))`. -/
def zero : Dirent := ⟨0, Name.empty⟩

end Dirent

variable (sb : Superblock)

/-- The offsets of the entries of a directory from entry `first` on: `for(off = 16*first; off <
size; off += 16)`. -/
def dirOffsets (first size : ℕ) : List ℕ :=
  (List.range' first ((size + 15) / 16 - first)).map (16 * ·)

/-- Read the entry at `off`; a short read is the caller's panic. -/
def readDirent (msg : String) (dp : ISlot) (off : ℕ) : M Dirent := do
  let r ← readi sb dp off 16
  match r with
  | some bytes => if bytes.length = 16 then pure (Dirent.decode bytes) else stop (.panic msg)
  | none => stop (.panic msg)

/-- The loops over a directory: the first entry with property `p`. -/
def dirScan (msg : String) (dp : ISlot) (p : Dirent → Bool) : List ℕ → M (Option (ℕ × Dirent))
  | [] => pure none
  | off :: offs => do
    let e ← readDirent sb msg dp off
    if p e then pure (some (off, e)) else dirScan msg dp p offs

/-- `dirlookup`, with the offset it stores through `poff`. -/
def dirlookup (dp : ISlot) (name : Name) : M (Option (ISlot × ℕ)) := do
  let d ← read fun s => (s.inode dp).din
  if d.type ≠ .dir then stop (.panic "dirlookup not DIR")
  else do
    let found ← dirScan sb "dirlookup read" dp (fun e => e.inum ≠ 0 && e.name = name)
      (dirOffsets 0 d.size)
    match found with
    | some (off, e) => do
      let ip ← iget e.inum
      pure (some (ip, off))
    | none => pure none

/-- `dirlink`; `false` is the return value -1. -/
def dirlink (dp : ISlot) (name : Name) (inum : ℕ) : M Bool := do
  let present ← dirlookup sb dp name
  match present with
  | some (ip, _) => do
    iput ip
    pure false
  | none => do
    let size ← read fun s => (s.inode dp).din.size
    let empty ← dirScan sb "dirlink read" dp (fun e => e.inum = 0) (dirOffsets 0 size)
    let off := (empty.map Prod.fst).getD (16 * ((size + 15) / 16))
    let r ← writei sb dp (Dirent.encode ⟨inum, name⟩) off
    if r = some 16 then pure true else stop (.panic "dirlink")

abbrev Path := List UInt8

/-- The byte of `'/'`. -/
def slash : UInt8 := 47

/-- The byte of `'$'`. -/
def dollar : UInt8 := 36

/-- `skipelem`: the next element, and the path after it. -/
def skipelem (path : Path) : Option (Name × Path) :=
  let p := path.dropWhile (· = slash)
  if p = [] then none
  else some (Name.ofBytes (p.takeWhile (· ≠ slash)),
    (p.dropWhile (· ≠ slash)).dropWhile (· = slash))

/-- The elements that repeated `skipelem` finds, at most `fuel` of them. -/
def elementsFrom : ℕ → Path → List Name
  | 0, _ => []
  | fuel + 1, path =>
    match skipelem path with
    | some (name, rest) => name :: elementsFrom fuel rest
    | none => []

/-- The elements of a path; each takes at least one byte of it. -/
def elements (path : Path) : List Name := elementsFrom path.length path

/-- Where `namex` starts. -/
def namexStart (cwd : Option ISlot) (path : Path) : M ISlot :=
  if path.head? = some slash then iget ROOTINO
  else
    match cwd with
    | some c => idup c
    | none => stop .wild

/-- The loop of `namex`; `name` is the buffer with the last element taken. -/
def namexLoop (parent : Bool) : ISlot → Name → List Name → M (Option (ISlot × Name))
  | ip, name, [] =>
    if parent then do
      iput ip
      pure none
    else pure (some (ip, name))
  | ip, _, name :: rest => do
    ilock ip
    let type ← read fun s => (s.inode ip).din.type
    if type ≠ .dir then do
      iunlockput ip
      pure none
    else if parent ∧ rest = [] then do
      iunlock ip
      pure (some (ip, name))
    else do
      let next ← dirlookup sb ip name
      iunlockput ip
      match next with
      | some (next, _) => namexLoop parent next name rest
      | none => pure none

def namex (cwd : Option ISlot) (path : Path) (parent : Bool) : M (Option (ISlot × Name)) := do
  let ip ← namexStart cwd path
  namexLoop sb parent ip Name.empty (elements path)

def namei (cwd : Option ISlot) (path : Path) : M (Option ISlot) := do
  let r ← namex sb cwd path false
  pure (r.map Prod.fst)

def nameiparent (cwd : Option ISlot) (path : Path) : M (Option (ISlot × Name)) :=
  namex sb cwd path true

end Xv6Container.Fs
