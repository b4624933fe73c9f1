import Xv6Container.Proc.Slot

/-!
# The process table and the container table

`ptable` and `container_array` with the system calls that change them. A call is one step: each
runs under `ptable.lock` or touches only the caller's slot, and a call that has to sleep leaves
its caller `SLEEPING`. Memory, files and trap frames of processes are left out, and so are the
write-only arrays of `struct container`.
-/

namespace Xv6Container

open Function

/-- The numbers of two processes or CPUs in runs. -/
instance neZeroTwo : NeZero 2 := ⟨by decide⟩

abbrev CSlot := Fin NCONT

/-- `struct proc`; a channel is an address. -/
structure Proc extends Slot NPROC ℕ where
  cid : ℤ

/-- `struct container`: `mypid` is the whole array, `numberOfProcess` may leave its range. -/
structure Container where
  cid : ℤ
  numberOfProcess : ℤ
  mypid : ℤ → ℤ

/-- The pids stored in a container: `mypid[0 .. number_of_process - 1]`. -/
def Container.pids (k : Container) : List ℤ :=
  (List.range k.numberOfProcess.toNat).map fun i : ℕ => k.mypid i

/-- The two tables and the globals of the container calls. -/
structure Tables where
  proc : PSlot → Proc
  nextpid : ℤ
  /-- `cid_to_ptable`: the sweep that sets every `cid` to -1 has been made -/
  cidToPtable : Bool
  /-- `container_location[i] == 1` -/
  location : CSlot → Bool
  container : CSlot → Container

namespace Tables

def Used (s : Tables) (p : PSlot) : Prop := (s.proc p).state ≠ .UNUSED

instance (s : Tables) (p : PSlot) : Decidable (s.Used p) := by unfold Used; infer_instance

def setProc (s : Tables) (p : PSlot) (x : Proc) : Tables :=
  { s with proc := update s.proc p x }

def setState (s : Tables) (p : PSlot) (st : ProcState) : Tables :=
  s.setProc p { s.proc p with state := st }

def setContainer (s : Tables) (i : CSlot) (c : Container) : Tables :=
  { s with container := update s.container i c }

def slots (s : Tables) : PSlot → Slot NPROC ℕ := fun q => (s.proc q).toSlot

def setSlots (s : Tables) (f : PSlot → Slot NPROC ℕ) : Tables :=
  { s with proc := fun q => { s.proc q with toSlot := f q } }

def kin (s : Tables) : PSlot → Kin NPROC := fun q => (s.proc q).toKin

def wakeup1 (s : Tables) (chan : ℕ) : Tables := s.setSlots fun q => (s.slots q).wake1 chan

def firstUnused (s : Tables) : Option PSlot := Slot.firstUnused s.kin

/-- How the allocations inside `fork` go: all succeed, `kalloc` of the kernel stack fails, or
`copyuvm` fails. -/
inductive ForkMemory
  | enough | noStack | noSpace
  deriving DecidableEq, Repr

/-- The slot `allocproc` hands out. The pid is new; `cid` and `killed` keep what the slot's last
process left. -/
def embryo (s : Tables) (q : PSlot) : Tables :=
  { s.setProc q { s.proc q with state := .EMBRYO, pid := s.nextpid } with
    nextpid := wrapInt (s.nextpid + 1) }

/-- `fork` by process `p`; the second component is its return value. -/
def fork (s : Tables) (p : PSlot) (mem : ForkMemory) : Tables × ℤ :=
  match s.firstUnused with
  | none => (s, -1)
  | some q =>
    let s' := s.embryo q
    match mem with
    | .noStack => (s'.setState q .UNUSED, -1)
    | .noSpace => (s'.setState q .UNUSED, -1)
    | .enough =>
      (s'.setProc q { s'.proc q with parent := some p, state := .RUNNABLE }, s.nextpid)

/-- `exit` by process `p`, after its files are closed; init must not exit. -/
def exit (s : Tables) (p : PSlot) : Option Tables :=
  if p = initproc then none
  else some (s.setSlots (Slot.exitSlots procChan initproc s.slots p))

def zombieChild (s : Tables) (p : PSlot) : Option PSlot := Slot.zombieChild s.kin p

/-- One pass of `wait` by process `p`: reap a zombie, fail, or go to sleep (`none` as value) and
look again when woken. -/
def wait (s : Tables) (p : PSlot) : Tables × Option ℤ :=
  match s.zombieChild p with
  | some q => (s.setProc q { s.proc q with toSlot := (s.slots q).reap }, some (s.proc q).pid)
  | none =>
    if !Slot.haveKids s.kin p || (s.proc p).killed then (s, some (-1))
    else (s.setProc p { s.proc p with chan := some (procChan p), state := .SLEEPING }, none)

def kill (s : Tables) (pid : ℤ) : Tables × ℤ :=
  (s.setSlots (Slot.kill s.slots pid).1, (Slot.kill s.slots pid).2)

/-- The loop that looks for the live container with number `c`. -/
def findLive (s : Tables) (c : ℤ) : Option CSlot :=
  (List.finRange NCONT).find? fun i => s.location i && (s.container i).cid = c

/-- The one-time sweep of `running_procs` and `join_cont`. -/
def sweep (s : Tables) : Tables :=
  if s.cidToPtable then s
  else { s with proc := fun q => { s.proc q with cid := -1 }, cidToPtable := true }

/-- The loop that looks for a free slot of the container table. -/
def freeSlot (s : Tables) : Option CSlot :=
  (List.finRange NCONT).find? fun i => !s.location i

/-- `sys_create_container`. The new record is an uninitialised local except for its number and its
counters; its array is left as it was. With no slot free the call still returns `c`. -/
def createContainer (s : Tables) (c : ℤ) : Tables × ℤ :=
  match s.findLive c with
  | some _ => (s, -1)
  | none =>
    match s.freeSlot with
    | none => (s, c)
    | some i =>
      ({ s.setContainer i { s.container i with cid := c, numberOfProcess := 0 } with
        location := update s.location i true }, c)

def destroyContainer (s : Tables) (c : ℤ) : Tables × ℤ :=
  match s.findLive c with
  | none => (s, -1)
  | some i => ({ s with location := update s.location i false }, 1)

/-- An index into an array of `struct container`. -/
def InArray (i : ℤ) : Prop := 0 ≤ i ∧ i < NCONT

instance (i : ℤ) : Decidable (InArray i) := by unfold InArray; infer_instance

/-- `join_cont` by process `p`; `none` is a store outside `mypid`. -/
def joinCont (s : Tables) (p : PSlot) (c : ℤ) : Option (Tables × ℤ) :=
  let s := s.sweep
  match s.findLive c with
  | none => some (s, -1)
  | some i =>
    let k := s.container i
    if InArray k.numberOfProcess then
      some ((s.setContainer i { k with
          mypid := update k.mypid k.numberOfProcess (s.proc p).pid
          numberOfProcess := k.numberOfProcess + 1 }).setProc p
        { s.proc p with cid := c }, 1)
    else none

/-- `sys_leave_container` by process `p`; `none` is a store outside `mypid`. -/
def leaveContainer (s : Tables) (p : PSlot) : Option (Tables × ℤ) :=
  match s.findLive (s.proc p).cid with
  | none => some (s, -1)
  | some i =>
    let k := s.container i
    if InArray k.numberOfProcess then
      some ((s.setContainer i { k with
          mypid := update k.mypid k.numberOfProcess (-1)
          numberOfProcess := k.numberOfProcess - 1 }).setProc p
        { s.proc p with cid := 0 }, 1)
    else none

/-- `running_procs` by process `p`, with the pids it prints. A caller whose container is gone is
served from slot 0. -/
def runningProcs (s : Tables) (p : PSlot) : Tables × List ℤ :=
  let s := s.sweep
  let used := (List.finRange NPROC).filter fun q => (s.proc q).state ≠ .UNUSED
  if (s.proc p).cid = -1 then (s, used.map fun q => (s.proc q).pid)
  else
    let i := (s.findLive (s.proc p).cid).getD ⟨0, ncont_pos⟩
    (s, (s.container i).pids.flatMap fun x =>
      (used.filter fun q => (s.proc q).pid = x).map fun q => (s.proc q).pid)

/-- The tables when the first process is about to run. Everything is zero except init's slot. -/
def boot : Tables where
  proc := fun q =>
    if q = initproc then ⟨⟨⟨.RUNNABLE, none⟩, 1, none, false⟩, 0⟩
    else ⟨⟨⟨.UNUSED, none⟩, 0, none, false⟩, 0⟩
  nextpid := 2
  cidToPtable := false
  location := fun _ => false
  container := fun _ => ⟨0, 0, fun _ => 0⟩

/-- What happens: system calls of running processes, and the scheduler. -/
inductive Act
  | create (p : PSlot) (c : ℤ)
  | destroy (p : PSlot) (c : ℤ)
  | join (p : PSlot) (c : ℤ)
  | leave (p : PSlot)
  | fork (p : PSlot) (mem : ForkMemory)
  | exit (p : PSlot)
  | wait (p : PSlot)
  | kill (p : PSlot) (pid : ℤ)
  | ps (p : PSlot)
  -- sys_open reads the caller's cid and leaves these tables alone
  | open (p : PSlot)
  | schedule (p : PSlot)
  | yield (p : PSlot)
  | sleep (p : PSlot) (chan : ℕ)
  | wakeup (chan : ℕ)

/-- The process that makes the call. -/
def Act.caller : Act → Option PSlot
  | create p _ | destroy p _ | join p _ | leave p | fork p _ | exit p | wait p | kill p _
  | ps p | .open p | yield p | sleep p _ => some p
  | schedule _ | wakeup _ => none

/-- What the call does when its caller is running. -/
def effect (s : Tables) : Act → Option Tables
  | .create _ c => some (s.createContainer c).1
  | .destroy _ c => some (s.destroyContainer c).1
  | .join p c => (s.joinCont p c).map Prod.fst
  | .leave p => (s.leaveContainer p).map Prod.fst
  | .fork p mem => some (s.fork p mem).1
  | .exit p => s.exit p
  | .wait p => some (s.wait p).1
  | .kill _ pid => some (s.kill pid).1
  | .ps p => some (s.runningProcs p).1
  | .open _ => some s
  | .schedule p => if (s.proc p).state = .RUNNABLE then some (s.setState p .RUNNING) else none
  | .yield p => some (s.setState p .RUNNABLE)
  | .sleep p chan => some (s.setProc p { s.proc p with chan := some chan, state := .SLEEPING })
  | .wakeup chan => some (s.wakeup1 chan)

/-- One action; a call is made by a `RUNNING` process. -/
def step (s : Tables) (a : Act) : Option Tables :=
  match a.caller with
  | some p => if (s.proc p).state = .RUNNING then s.effect a else none
  | none => s.effect a

end Tables

end Xv6Container
