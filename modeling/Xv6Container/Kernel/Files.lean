import Xv6Container.Fs.Calls
import Xv6Container.Proc.Table

/-!
# Open files and the file system calls

`file.c`, and the calls of `sysfile.c` on open files. Pipes are left out. `kalloc` does not fail;
a string that does not fit into its page is a store outside the page. What nothing reads is left
out too: `path` of an open file, and the type, number, size and copy flag of a registered one.
-/

namespace Xv6Container

open Prog Fs

/-- `FD_NONE` and `FD_INODE`. -/
inductive FdType
  | none | inode
  deriving DecidableEq, Repr

structure File where
  type : FdType
  ref : ℕ
  readable : Bool
  writable : Bool
  ip : ISlot
  off : ℕ
  cid : ℤ

abbrev FSlot := Fin NFILE

abbrev Fd := Fin NOFILE

structure Kernel where
  fs : Fs.State
  tables : Tables
  file : FSlot → File
  ofile : PSlot × Fd → Option FSlot
  cwd : PSlot → Option ISlot
  /-- `container_files[0 .. number_of_files - 1]` of each container -/
  files : CSlot → List Path
  /-- `all_files` with `corresponding_cid` -/
  allFiles : List (Path × ℤ)
  createContainerCalled : Bool
  /-- `*ls_called == 1`. The pointer is null: this is the first word of the
      memory of the process that runs. -/
  lsCalled : PSlot → Bool
  /-- `digit[-n]` of `my_itoa`: what happens to lie in front of its table on the stack -/
  stack : ℕ → UInt8

abbrev KM := Prog Kernel Stop

namespace Kernel

variable (sb : Superblock)

/-- A program of the file system. -/
def onFs {α : Type} (m : Fs.M α) : KM α := zoom Kernel.fs (fun k s => { k with fs := s }) m

def setFile (f : FSlot) (g : File → File) : KM Unit :=
  modify fun k => { k with file := Function.update k.file f (g (k.file f)) }

def setOfile (p : PSlot) (fd : Fd) (f : Option FSlot) : KM Unit :=
  modify fun k => { k with ofile := Function.update k.ofile (p, fd) f }

def filealloc : KM (Option FSlot) := do
  let free ← read fun k => (List.finRange NFILE).find? fun f => (k.file f).ref = 0
  match free with
  | some f => do
    setFile f fun ff => { ff with ref := 1 }
    pure (some f)
  | none => pure none

def filedup (f : FSlot) : KM Unit := do
  let ref ← read fun k => (k.file f).ref
  if ref < 1 then stop (.panic "filedup") else setFile f fun ff => { ff with ref := ff.ref + 1 }

def fileclose (f : FSlot) : KM Unit := do
  let ff ← read fun k => k.file f
  if ff.ref < 1 then stop (.panic "fileclose")
  else if 1 < ff.ref then setFile f fun ff => { ff with ref := ff.ref - 1 }
  else do
    setFile f fun ff => { ff with ref := 0, type := .none }
    match ff.type with
    | .inode => onFs (iput ff.ip)
    | .none => pure ()

/-- `f->off += n`. -/
def advance (f : FSlot) (n : ℕ) : KM Unit :=
  setFile f fun ff => { ff with off := (ff.off + n) % 2 ^ 32 }

/-- `fileread`; `none` is the return value -1. -/
def fileread (f : FSlot) (n : ℕ) : KM (Option (List UInt8)) := do
  let ff ← read fun k => k.file f
  if !ff.readable then pure none
  else
    match ff.type with
    | .none => stop (.panic "fileread")
    | .inode => do
      onFs (ilock ff.ip)
      let r ← onFs (readi sb ff.ip ff.off n)
      advance f (r.getD []).length
      onFs (iunlock ff.ip)
      pure r

/-- The most bytes that `filewrite` gives to one transaction. -/
def maxWrite : ℕ := (MAXOPBLOCKS - 1 - 1 - 2) / 2 * 512

/-- One transaction of `filewrite`. -/
def filewritePiece (f : FSlot) (src : List UInt8) : KM (Option ℕ) := do
  let ff ← read fun k => k.file f
  onFs (ilock ff.ip)
  let r ← onFs (writei sb ff.ip src ff.off)
  advance f (r.getD 0)
  onFs (iunlock ff.ip)
  pure r

/-- The loop of `filewrite`, at most `fuel` transactions; it tells whether all has been written. -/
def filewriteLoop (f : FSlot) : ℕ → List UInt8 → KM Bool
  | 0, _ => pure true
  | fuel + 1, src =>
    if src = [] then pure true
    else do
      let r ← filewritePiece sb f (src.take maxWrite)
      match r with
      | none => pure false
      | some n =>
        if n = (src.take maxWrite).length then filewriteLoop f fuel (src.drop maxWrite)
        else stop (.panic "short filewrite")

/-- `filewrite`; `none` is the return value -1. -/
def filewrite (f : FSlot) (src : List UInt8) : KM (Option ℕ) := do
  let ff ← read fun k => k.file f
  if !ff.writable then pure none
  else
    match ff.type with
    | .none => stop (.panic "filewrite")
    | .inode => do
      let all ← filewriteLoop sb f src.length src
      pure (if all then some src.length else none)

/-- `argfd`: what the process has under a number. A negative `int` is as bad as one that is too
large. -/
def argfd (k : Kernel) (p : PSlot) (fd : ℕ) : Option (Fd × FSlot) :=
  if h : fd < NOFILE then (k.ofile (p, ⟨fd, h⟩)).map fun f => (⟨fd, h⟩, f) else none

def fdalloc (p : PSlot) (f : FSlot) : KM (Option Fd) := do
  let free ← read fun k => (List.finRange NOFILE).find? fun fd => (k.ofile (p, fd)).isNone
  match free with
  | some fd => do
    setOfile p fd (some f)
    pure (some fd)
  | none => pure none

def sysDup (p : PSlot) (fd : ℕ) : KM (Option Fd) := do
  let arg ← read fun k => k.argfd p fd
  match arg with
  | none => pure none
  | some (_, f) => do
    let fd ← fdalloc p f
    match fd with
    | none => pure none
    | some fd => do
      filedup f
      pure (some fd)

/-- `sys_read`. A length that is no `int` is negative to `argptr`. -/
def sysRead (p : PSlot) (fd n : ℕ) : KM (Option (List UInt8)) := do
  let arg ← read fun k => k.argfd p fd
  match arg with
  | none => pure none
  | some (_, f) => if n < 2 ^ 31 then fileread sb f n else pure none

def sysWrite (p : PSlot) (fd : ℕ) (src : List UInt8) : KM (Option ℕ) := do
  let arg ← read fun k => k.argfd p fd
  match arg with
  | none => pure none
  | some (_, f) => if src.length < 2 ^ 31 then filewrite sb f src else pure none

def sysClose (p : PSlot) (fd : ℕ) : KM ℤ := do
  let arg ← read fun k => k.argfd p fd
  match arg with
  | none => pure (-1)
  | some (fd, f) => do
    setOfile p fd none
    fileclose f
    pure 0

end Kernel

end Xv6Container
