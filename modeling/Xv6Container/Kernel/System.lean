import Xv6Container.Kernel.Open
import Xv6Container.Lib.Run

/-!
# The system calls as steps

Calls run one at a time: a call that sleeps in the file system would wait for a lock that its
caller holds itself.
-/

namespace Xv6Container

open Prog Fs

namespace Kernel

variable (sb : Superblock)

/-- A call on names, made in the caller's current directory. -/
def inCwd {α : Type} (p : PSlot) (m : Option ISlot → Fs.M α) : KM α := do
  let cwd ← read fun k => k.cwd p
  onFs (m cwd)

/-- The part of `sys_chdir` in the file system: the new directory, unlocked. -/
def chdirInode (cwd : Option ISlot) (path : Path) : Fs.M (Option ISlot) := do
  let ip ← namei sb cwd path
  match ip with
  | none => pure none
  | some ip => do
    ilock ip
    let type ← read fun s => (s.inode ip).din.type
    if type ≠ .dir then do
      iunlockput ip
      pure none
    else do
      iunlock ip
      pure (some ip)

/-- `iput(curproc->cwd)`. -/
def putCwd (p : PSlot) : KM Unit := do
  let cwd ← read fun k => k.cwd p
  match cwd with
  | some c => onFs (iput c)
  | none => stop .wild

def setCwd (p : PSlot) (c : Option ISlot) : KM Unit :=
  modify fun k => { k with cwd := Function.update k.cwd p c }

def sysChdir (p : PSlot) (path : Path) : KM ℤ := do
  let ip ← inCwd p fun cwd => chdirInode sb cwd path
  match ip with
  | none => pure (-1)
  | some ip => do
    putCwd p
    setCwd p (some ip)
    pure 0

/-- `if(curproc->ofile[i]) np->ofile[i] = filedup(curproc->ofile[i])`. -/
def dupFd (p q : PSlot) (fd : Fd) : KM Unit := do
  let f ← read fun k => k.ofile (p, fd)
  match f with
  | some f => do
    filedup f
    setOfile q fd (some f)
  | none => pure ()

/-- `np->cwd = idup(curproc->cwd)`. -/
def dupCwd (p q : PSlot) : KM Unit := do
  let cwd ← read fun k => k.cwd p
  match cwd with
  | some c => do
    let c ← onFs (idup c)
    setCwd q (some c)
  | none => stop .wild

/-- `fork`, with the files of the child, whose memory is a copy. -/
def sysFork (p : PSlot) (mem : Tables.ForkMemory) : KM Unit := do
  let child ← read fun k => k.tables.firstUnused
  match child with
  | some q =>
    if mem = .enough then do
      (List.finRange NOFILE).forM (dupFd p q)
      dupCwd p q
      modify fun k => { k with
        tables := (k.tables.fork p mem).1
        lsCalled := Function.update k.lsCalled q (k.lsCalled p) }
    else modify fun k => { k with tables := (k.tables.fork p mem).1 }
  | none => pure ()

/-- `if(curproc->ofile[fd]) { fileclose(curproc->ofile[fd]); curproc->ofile[fd] = 0; }`. -/
def exitFd (p : PSlot) (fd : Fd) : KM Unit := do
  let f ← read fun k => k.ofile (p, fd)
  match f with
  | some f => do
    fileclose f
    setOfile p fd none
  | none => pure ()

def sysExit (p : PSlot) : KM Unit := do
  let left ← read fun k => k.tables.exit p
  match left with
  | none => stop (.panic "init exiting")
  | some tables => do
    (List.finRange NOFILE).forM (exitFd p)
    putCwd p
    setCwd p none
    modify fun k => { k with tables := tables }

def sysCreateContainer (c : ℤ) : KM Unit :=
  modify fun k => { k with
    createContainerCalled := true
    tables := (k.tables.createContainer c).1
    files := fun i =>
      if k.tables.findLive c = none ∧ k.tables.freeSlot = some i then [] else k.files i }

inductive Call
  | open (p : PSlot) (path : Path) (omode : UInt32)
  | read (p : PSlot) (fd n : ℕ)
  | write (p : PSlot) (fd : ℕ) (src : List UInt8)
  | close (p : PSlot) (fd : ℕ)
  | dup (p : PSlot) (fd : ℕ)
  | mkdir (p : PSlot) (path : Path)
  | mknod (p : PSlot) (path : Path) (major minor : Int16)
  | link (p : PSlot) (old new : Path)
  | unlink (p : PSlot) (path : Path)
  | chdir (p : PSlot) (path : Path)
  | fork (p : PSlot) (mem : Tables.ForkMemory)
  | exit (p : PSlot)
  | createContainer (p : PSlot) (c : ℤ)
  -- a store of the process to the first word of its memory
  | store (p : PSlot) (one : Bool)
  -- other bytes come to lie on the stack
  | stack (bytes : ℕ → UInt8)
  -- the calls and events that change the process and container tables only
  | table (a : Tables.Act)

/-- The tables alone are not enough for these. -/
def needsFiles : Tables.Act → Bool
  | .fork _ _ | .exit _ | .create _ _ | .open _ => true
  | _ => false

/-- An event of the tables. -/
def sysTable (a : Tables.Act) : KM Unit := do
  let next ← read fun k => if needsFiles a then none else k.tables.effect a
  match next with
  | some tables => modify fun k => { k with tables := tables }
  | none => stop .wild

/-- The process that makes the call. -/
def Call.caller : Call → Option PSlot
  | .open p _ _ | .read p _ _ | .write p _ _ | .close p _ | .dup p _ | .mkdir p _
  | .mknod p _ _ _ | .link p _ _ | .unlink p _ | .chdir p _ | .fork p _ | .exit p
  | .createContainer p _ | .store p _ => some p
  | .stack _ => none
  | .table a => a.caller

/-- What the call does; its return value is dropped. -/
def Call.run : Call → KM Unit
  | .open p path omode => do let _ ← sysOpen sb p path omode
  | .read p fd n => do let _ ← sysRead sb p fd n
  | .write p fd src => do let _ ← sysWrite sb p fd src
  | .close p fd => do let _ ← sysClose p fd
  | .dup p fd => do let _ ← sysDup p fd
  | .mkdir p path => do let _ ← inCwd p fun cwd => sysMkdir sb cwd path
  | .mknod p path major minor => do let _ ← inCwd p fun cwd => sysMknod sb cwd path major minor
  | .link p old new => do let _ ← inCwd p fun cwd => sysLink sb cwd old new
  | .unlink p path => do let _ ← inCwd p fun cwd => sysUnlink sb cwd path
  | .chdir p path => do let _ ← sysChdir sb p path
  | .fork p mem => sysFork p mem
  | .exit p => sysExit p
  | .createContainer _ c => sysCreateContainer c
  | .store p one => modify fun k => { k with lsCalled := Function.update k.lsCalled p one }
  | .stack bytes => modify fun k => { k with stack := bytes }
  | .table a => sysTable a

/-- A call can be made by a process that runs. -/
def Enabled (k : Kernel) (a : Call) : Prop :=
  ∀ p, a.caller = some p → (k.tables.proc p).state = .RUNNING

instance (k : Kernel) (a : Call) : Decidable (k.Enabled a) :=
  match h : a.caller with
  | none => isTrue fun p hp => by rw [h] at hp; exact absurd hp (by simp)
  | some p => decidable_of_iff ((k.tables.proc p).state = .RUNNING)
      ⟨fun hr q hq => by rw [h] at hq; exact Option.some.inj hq ▸ hr, fun hk => hk p h⟩

/-- One call, from its start to its return. A call that stops the kernel has no next state. -/
def step (k : Kernel) (a : Call) : Option Kernel :=
  if k.Enabled a then
    match Call.run sb a k with
    | .ok (_, k') => some k'
    | .error _ => none
  else none

end Kernel

end Xv6Container
