import Xv6Container.Lib.Linked
import Xv6Container.Log.Model

/-!
# The buffer cache

`bio.c`: buffers on a doubly linked list in the order of their last use, each with a sleep
lock and a reference count; the steps of different processes come in any order. The history
records the data that `bread` returns and the data that callers store.
-/

namespace Xv6Container.Bio

abbrev Pid := Fin NPROC

/-- A buffer of `bcache.buf`. -/
abbrev BufId := Fin NBUF

/-- A block of a disk: `dev` and `blockno`. -/
structure Key where
  dev : ℕ
  blockno : ℕ
  deriving DecidableEq

/-- `&bcache.head` or `&bcache.buf[b]`. -/
inductive Node
  | head
  | buf (b : BufId)
  deriving DecidableEq

/-- `struct buf` without its links. -/
structure Buf where
  /-- `dev` and `blockno` -/
  key : Key
  -- flags & B_VALID, flags & B_DIRTY
  valid : Bool
  dirty : Bool
  /-- the process that holds the sleep lock -/
  lock : Option Pid
  refcnt : ℕ
  data : Block BSIZE

/-- Where a process stands in the calls of `bio.c`. -/
inductive Phase
  | user
  /-- in `bread(k)`, waiting for the lock of the buffer that `bget` took -/
  | acquiring (k : Key) (b : BufId)
  /-- in `bread(k)`, with the lock, before the test of `B_VALID` -/
  | checking (k : Key) (b : BufId)
  /-- in `brelse`, after `releasesleep` -/
  | releasing (b : BufId)
  deriving DecidableEq

/-- The variables of `log.c` that `log_write` reads. -/
structure LogVars where
  /-- `log.lh.block[0 .. log.lh.n - 1]` -/
  lh : List ℕ
  outstanding : ℕ
  size : ℕ

/-- What happens to a block. -/
inductive Event
  /-- `bread` returns a buffer with this data -/
  | returned (k : Key) (d : Block BSIZE)
  /-- the caller stores this data in the buffer it holds -/
  | modified (k : Key) (d : Block BSIZE)

/-- The cache, the disk and the processes. -/
structure State where
  buf : BufId → Buf
  links : Links Node
  disk : Key → Block BSIZE
  log : LogVars
  phase : Pid → Phase
  /-- the data was changed, and neither `log_write` nor `bwrite` followed yet -/
  unsaved : BufId → Bool
  /-- the history, latest event first -/
  trace : List Event

variable (s : State) (p : Pid) (b : BufId) (k : Key)

def State.setBuf (x : Buf) : State := { s with buf := Function.update s.buf b x }

def State.setPhase (x : Phase) : State := { s with phase := Function.update s.phase p x }

def State.setUnsaved (x : Bool) : State := { s with unsaved := Function.update s.unsaved b x }

def State.record (e : Event) : State := { s with trace := e :: s.trace }

/-- The test of a buffer in one of the loops of `bget`; the head ends the loop. -/
def Node.test (test : Buf → Bool) : Node → Bool
  | .head => false
  | .buf b => test (s.buf b)

def Node.toBuf? : Node → Option BufId
  | .head => none
  | .buf b => some b

/-- A loop of `bget`, along `next` or `prev`. -/
def scan (dir : Node → Node) (test : Buf → Bool) : Option BufId :=
  (Links.find dir .head (Node.test s test) (NBUF + 1) (dir .head)).bind Node.toBuf?

/-- `bget` up to `acquiresleep`; `none` is its panic. -/
def bget : Option (State × BufId) :=
  match scan s s.links.next fun x => x.key = k with
  | some b => some (s.setBuf b { s.buf b with refcnt := (s.buf b).refcnt + 1 }, b)
  | none =>
    -- even if refcnt == 0, B_DIRTY says that log.c has modified it but not yet committed
    match scan s s.links.prev fun x => x.refcnt = 0 ∧ x.dirty = false with
    | some b =>
      some (s.setBuf b { s.buf b with key := k, valid := false, dirty := false, refcnt := 1 }, b)
    | none => none

/-- `iderw`, with the buffer locked by the caller. -/
def iderw : Option State :=
  let x := s.buf b
  if x.lock ≠ some p then none
  else if x.valid = true ∧ x.dirty = false then none
  else if x.dirty then
    some { s.setBuf b { x with valid := true, dirty := false } with
      disk := Function.update s.disk x.key x.data }
  else some (s.setBuf b { x with valid := true, data := s.disk x.key })

/-- `bread`, up to the wait for the lock. -/
def bread : Option State :=
  if s.phase p ≠ .user then none
  else (bget s k).map fun r => r.1.setPhase p (.acquiring k r.2)

/-- `acquiresleep(&b->lock)` gets the lock. -/
def acquiresleep : Option State :=
  match s.phase p with
  | .acquiring k b =>
    if (s.buf b).lock ≠ none then none
    else some ((s.setBuf b { s.buf b with lock := some p }).setPhase p (.checking k b))
  | _ => none

/-- The rest of `bread`. -/
def fill : Option State :=
  match s.phase p with
  | .checking k b =>
    (if (s.buf b).valid then some s else iderw s p b).map fun s =>
      (s.setPhase p .user).record (.returned k (s.buf b).data)
  | _ => none

def modify (d : Block BSIZE) : Option State :=
  if s.phase p ≠ .user then none
  else some (((s.setBuf b { s.buf b with data := d }).setUnsaved b true).record
    (.modified (s.buf b).key d))

/-- `log_write`; `none` is one of its two panics. -/
def logWrite : Option State :=
  if s.phase p ≠ .user then none
  else if s.log.lh.length ≥ LOGSIZE ∨ s.log.lh.length ≥ s.log.size - 1 then none
  else if s.log.outstanding < 1 then none
  else some { (s.setBuf b { s.buf b with dirty := true }).setUnsaved b false with
    log := { s.log with lh := Log.absorb s.log.lh (s.buf b).key.blockno } }

def bwrite : Option State :=
  if s.phase p ≠ .user then none
  else if (s.buf b).lock ≠ some p then none
  else (iderw (s.setBuf b { s.buf b with dirty := true }) p b).map fun s => s.setUnsaved b false

/-- `brelse` up to the end of `releasesleep`. -/
def brelse : Option State :=
  if s.phase p ≠ .user then none
  else if (s.buf b).lock ≠ some p then none
  else some ((s.setBuf b { s.buf b with lock := none }).setPhase p (.releasing b))

/-- The rest of `brelse`, under `bcache.lock`. -/
def unref : Option State :=
  match s.phase p with
  | .releasing b =>
    let n := (s.buf b).refcnt - 1
    let s := (s.setBuf b { s.buf b with refcnt := n }).setPhase p .user
    if n = 0 then some { s with links := (s.links.unlink (.buf b)).pushFront .head (.buf b) }
    else some s
  | _ => none

inductive Action
  | bread (p : Pid) (k : Key)
  | acquiresleep (p : Pid)
  | fill (p : Pid)
  | modify (p : Pid) (b : BufId) (d : Block BSIZE)
  | logWrite (p : Pid) (b : BufId)
  | bwrite (p : Pid) (b : BufId)
  | brelse (p : Pid) (b : BufId)
  | unref (p : Pid)
  /-- the other functions of `log.c` change its variables -/
  | setLog (v : LogVars)

def step (s : State) : Action → Option State
  | .bread p k => bread s p k
  | .acquiresleep p => acquiresleep s p
  | .fill p => fill s p
  | .modify p b d => modify s p b d
  | .logWrite p b => logWrite s p b
  | .bwrite p b => bwrite s p b
  | .brelse p b => brelse s p b
  | .unref p => unref s p
  | .setLog v => some { s with log := v }

/-- Callers ask for blocks of a device other than 0, use only buffers they hold, and do not release
one whose new data they gave to neither `log_write` nor `bwrite`. -/
def Proper (s : State) : Action → Prop
  | .bread _ k => k.dev ≠ 0
  | .modify p b _ => (s.buf b).lock = some p
  | .logWrite p b => (s.buf b).lock = some p
  | .brelse _ b => s.unsaved b = false
  | _ => True

instance : ∀ a, Decidable (Proper s a)
  | .bread _ k => inferInstanceAs (Decidable (k.dev ≠ 0))
  | .modify p b _ => inferInstanceAs (Decidable ((s.buf b).lock = some p))
  | .logWrite p b => inferInstanceAs (Decidable ((s.buf b).lock = some p))
  | .brelse _ b => inferInstanceAs (Decidable (s.unsaved b = false))
  | .acquiresleep _ | .fill _ | .bwrite _ _ | .unref _ | .setLog _ => isTrue trivial

/-- The links `binit` makes: every buffer goes to the front. -/
def binit : List BufId → Links Node → Links Node
  | [], L => L
  | b :: bs, L => binit bs (L.pushFront .head (.buf b))

def boot (disk : Key → Block BSIZE) : State where
  buf _ := ⟨⟨0, 0⟩, false, false, none, 0, Block.zero⟩
  links := binit (List.finRange NBUF) ⟨fun _ => .head, fun _ => .head⟩
  disk := disk
  log := ⟨[], 0, 0⟩
  phase _ := .user
  unsaved _ := false
  trace := []

/-- The data last stored in block `k`, or the disk's. -/
def latest (disk : Key → Block BSIZE) : List Event → Key → Block BSIZE
  | [], k => disk k
  | .returned _ _ :: es, k => latest disk es k
  | .modified k' d :: es, k => if k = k' then d else latest disk es k

/-- Every `bread` of the history returned the data last stored in the block. -/
def Legal (disk : Key → Block BSIZE) : List Event → Prop
  | [] => True
  | .returned k d :: es => d = latest disk es k ∧ Legal disk es
  | .modified _ _ :: es => Legal disk es

end Xv6Container.Bio
