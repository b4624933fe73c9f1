import Xv6Container.Ipc.Rings
import Xv6Container.Proc.Table

/-!
# Messages

`sys_send` and `sys_recv` of `proc.c` with the queues and buffers of `syscall.c`. Memory is a
function from offsets to bytes. The `TransferMessage` path and the free list of buffers are not
used by the calls and are left out.
-/

namespace Xv6Container.Ipc

open Function

abbrev NumberOfMessageBuffers : ℕ := 500

abbrev QPid := Fin 64

abbrev Mem := ℕ → UInt8

/-- The loop of `safestrcpy` at offset `i`, with room for `n` more bytes. The closing store comes
after a copied NUL too. -/
def safestrcpyLoop (s t : Mem) (i : ℕ) : ℕ → Mem
  | 0 => update s i 0
  | n + 1 =>
    let s := update s i (t i)
    if t i = 0 then update s (i + 1) 0 else safestrcpyLoop s t (i + 1) n

/-- `safestrcpy(s, t, n)`. -/
def safestrcpy (s t : Mem) : ℕ → Mem
  | 0 => s
  | n + 1 => safestrcpyLoop s t 0 n

/-- The string at offset `i`: the bytes up to the NUL, at most `n`. -/
def cstr (t : Mem) (i : ℕ) : ℕ → List UInt8
  | 0 => []
  | n + 1 => if t i = 0 then [] else t i :: cstr t (i + 1) n

inductive Table
  | messageBuffers | intMessageQueue | waitQueue | ptable | mypid
  deriving DecidableEq

/-- Why a call does not come back. -/
inductive Fault
  | index (table : Table) (i : ℤ)
  /-- an access behind the page of a queue's array -/
  | page
  | panic (msg : String)
  deriving DecidableEq

/-- What the message calls read and write. -/
structure Post where
  tables : Tables
  lastBufferUsed : Int32
  /-- the page behind `messageBuffers[i]`, if the pointer is not null. What lies before and behind
  the array is none of the variables here. -/
  messageBuffers : ℤ → Option Mem
  intMessageQueue : QPid → Queue Int32
  waitQueue : QPid → Queue WaitQueueItem

/-- A table of 64 entries at index `i`. -/
def slot (table : Table) (i : ℤ) : Except Fault QPid :=
  if h : 0 ≤ i ∧ i < 64 then .ok ⟨i.toNat, by omega⟩ else .error (.index table i)

def inPage {α : Type} : Option α → Except Fault α
  | some a => .ok a
  | none => .error .page

/-- `getMessageBuffer`: the counter goes up before the number is taken and after it. -/
def getMessageBuffer (k : Post) : Post × Int32 :=
  let k := { k with lastBufferUsed := k.lastBufferUsed + 1 }
  let m := k.lastBufferUsed
  ({ k with lastBufferUsed := k.lastBufferUsed + 1 }, m)

/-- The part of `sys_send` that makes a waiting receiver runnable. It takes the receiver's pid for
its slot of the process table. -/
def wakeReceiver (tables : Tables) (waitQueue : QPid → Queue WaitQueueItem) (recPid : ℤ) :
    Except Fault (Tables × (QPid → Queue WaitQueueItem)) := do
  let q ← slot .waitQueue recPid
  if isWaitEmpty (waitQueue q) then pure (tables, waitQueue)
  else
    let (wq, item) ← inPage (waitdequeue (waitQueue q))
    let p ← slot .ptable item.pid.toInt
    pure (tables.setState p .RUNNABLE, update waitQueue q wq)

/-- `sys_send` once its arguments are there; it returns 1. The number is not checked, and
`EndOfFreeList` is only reported on the console. If `kalloc` returns null, the text goes to
address 0 of the sender. -/
def send (k : Post) (recPid : ℤ) (text : Mem) (page : Option Mem) : Except Fault Post := do
  let (k, msgNo) := getMessageBuffer k
  let k := { k with
    messageBuffers := update k.messageBuffers msgNo.toInt
      (page.map fun page => safestrcpy page text 8) }
  let (tables, waitQueue) ← wakeReceiver k.tables k.waitQueue recPid
  let q ← slot .intMessageQueue recPid
  let mq ← inPage (enqueue (k.intMessageQueue q) msgNo)
  pure { k with
    tables := tables
    waitQueue := waitQueue
    intMessageQueue := update k.intMessageQueue q mq }

/-- `sys_recv` by process `p` into the buffer at `str`, up to the copy of the message: the result
has the page that is copied. `sched` finds that `ptable.lock` is not held. -/
def recv (k : Post) (p : PSlot) (str : UInt32) : Except Fault (Post × Option Mem) := do
  let pid := (k.tables.proc p).pid
  let q ← slot .intMessageQueue pid
  if isEmpty (k.intMessageQueue q) then
    let k := { k with tables := k.tables.setState p .SLEEPING }
    let q ← slot .waitQueue pid
    let wq ← inPage (waitenqueue (k.waitQueue q) ⟨Int32.ofInt pid, str⟩)
    let _k := { k with waitQueue := update k.waitQueue q wq }
    .error (.panic "sched ptable.lock")
  else
    let (mq, msgNo) ← inPage (dequeue (k.intMessageQueue q))
    pure ({ k with intMessageQueue := update k.intMessageQueue q mq },
      k.messageBuffers msgNo.toInt)

/-- After `init_queues`; `pages` and `waiting` are what the pages of the arrays hold. -/
def initQueues (tables : Tables) (pages : QPid → ℕ → Int32) (waiting : QPid → ℕ → WaitQueueItem) :
    Post where
  tables := tables
  lastBufferUsed := 0
  messageBuffers := fun _ => none
  intMessageQueue := fun q => createIntQueue 50 (pages q)
  waitQueue := fun q => createWaitQueue 50 (waiting q)

/-- A message call by the process in slot `p`. `recv` has what is in the buffer at `str` and at
address 0 of its caller, where a null page is read. -/
inductive Call
  | send (p : PSlot) (recPid : ℤ) (text : Mem) (page : Option Mem)
  | recv (p : PSlot) (str : UInt32) (buffer low : Mem)

def inBuffers (msgNo : Int32) : Except Fault Unit :=
  if 0 ≤ msgNo.toInt ∧ msgNo.toInt < NumberOfMessageBuffers then .ok ()
  else .error (.index .messageBuffers msgNo.toInt)

/-- The index into `messageBuffers` that a call is about to use. -/
def checkNumber (k : Post) : Call → Except Fault Unit
  | .send _ _ _ _ => inBuffers (getMessageBuffer k).2
  | .recv p _ _ _ => do
    let q ← slot .intMessageQueue (k.tables.proc p).pid
    if isEmpty (k.intMessageQueue q) then pure ()
    else
      let (_, msgNo) ← inPage (dequeue (k.intMessageQueue q))
      inBuffers msgNo

/-- A call that is given up at an index outside `messageBuffers`; with the string that a `recv` has
put into its buffer. -/
def run (k : Post) (c : Call) : Except Fault (Post × Option (List UInt8)) := do
  checkNumber k c
  match c with
  | .send _ recPid text page => do
    let k ← send k recPid text page
    pure (k, none)
  | .recv p str buffer low => do
    let (k, page) ← recv k p str
    pure (k, some (cstr (safestrcpy buffer (page.getD low) 8) 0 8))

end Xv6Container.Ipc
