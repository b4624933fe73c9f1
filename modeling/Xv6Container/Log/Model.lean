import Xv6Container.Params
import Xv6Container.Lib.Block
import Xv6Container.Lib.Run

/-!
# The redo log

`log.c` as a transition system. A `tick` is the next action of the committing process, or of the
recovery at boot, and writes at most one block; `crash` may come between any two actions. `buf`
is the data `bread` returns: the cached copy if there is one, else the disk's.
-/

namespace Xv6Container.Log

open Run Function

abbrev Blocks := ℕ → Block BSIZE

/-- Where `log` lies on the disk: `sb.logstart` and `sb.nlog`. There is at least the header
block. -/
structure Area where
  start : ℕ
  size : ℕ
  size_pos : 0 < size

def Area.Mem (L : Area) (b : ℕ) : Prop := L.start ≤ b ∧ b < L.start + L.size

instance (L : Area) (b : ℕ) : Decidable (L.Mem b) := by unfold Area.Mem; infer_instance

/-- Next action of the thread that runs `commit` or `recover_from_log`. -/
inductive Pc
  | idle
  -- commit(): write_log, write_head, install_trans, write_head, committing = 0
  | writeLog (tail : ℕ)
  | writeHead
  | installTrans (tail : ℕ)
  | eraseHead
  | endCommit
  -- recover_from_log(): read_head, install_trans, write_head
  | readHead
  | recoverTrans (tail : ℕ)
  | recoverErase
  deriving DecidableEq

/-- One `log_write`: the operation that made it, the block and its new data. -/
structure Write where
  op : ℕ
  blockno : ℕ
  data : Block BSIZE

/-- The machine, with the history of operations that the statements speak of. -/
structure State where
  disk : Blocks
  buf : Blocks
  /-- `log.lh.block[0 .. log.lh.n - 1]` -/
  lh : List ℕ
  outstanding : ℕ
  committing : Bool
  pc : Pc
  /-- processes between `begin_op` and `end_op`, with the operation's number -/
  active : List (ℕ × ℕ)
  -- history: operations begun so far, all log_writes in order, the operations
  -- of the transaction in progress, and the committed transactions
  opCount : ℕ
  writes : List Write
  current : List ℕ
  txns : List (List ℕ)

/-- The loop of `log_write` over `log.lh.block`, with log absorption. -/
def absorb : List ℕ → ℕ → List ℕ
  | [], b => [b]
  | x :: xs, b => if x = b then x :: xs else x :: absorb xs b

/-- The block numbers of `write_head`'s loop, from entry `i` on. -/
def writeEntries (hb : Block BSIZE) : ℕ → List ℕ → Block BSIZE
  | _, [] => hb
  | i, b :: bs => writeEntries (hb.setWord (i + 1) b) (i + 1) bs

/-- The header block `write_head` leaves in the buffer `hb`. -/
def headBlock (hb : Block BSIZE) (lh : List ℕ) : Block BSIZE :=
  writeEntries (hb.setWord 0 lh.length) 0 lh

/-- `read_head`: the in-memory header as the block `hb` gives it. -/
def readHead (hb : Block BSIZE) : List ℕ :=
  (List.range (hb.word 0)).map fun i => hb.word (i + 1)

/-- Give block `b` the data `d` in the cache and write it: `bwrite`. -/
def bwrite (s : State) (b : ℕ) (d : Block BSIZE) : State :=
  { s with buf := update s.buf b d, disk := update s.disk b d }

/-- One iteration of `install_trans`: copy log block `tail` to its home. -/
def installOne (L : Area) (s : State) (tail : ℕ) : State :=
  bwrite s (s.lh.getD tail 0) (s.buf (L.start + tail + 1))

/-- The transaction in progress has become durable. -/
def sealTxn (s : State) : State := { s with txns := s.txns ++ [s.current], current := [] }

/-- `recover_from_log` runs at boot, before any process makes a system call. -/
def Pc.recovering : Pc → Bool
  | readHead | recoverTrans _ | recoverErase => true
  | _ => false

/-- `begin_op`; a process that has to sleep does not take the step. -/
def beginOp (s : State) (p : ℕ) : Option State :=
  if s.pc.recovering ∨ p ∈ s.active.map Prod.fst then none
  else if s.committing then none
  else if s.lh.length + (s.outstanding + 1) * MAXOPBLOCKS > LOGSIZE then none
  else some { s with
    outstanding := s.outstanding + 1
    active := (p, s.opCount) :: s.active
    opCount := s.opCount + 1
    current := s.opCount :: s.current }

/-- The caller stores `d` in the buffer of block `b` and calls `log_write`; `none` is one of its two
panics. -/
def logWrite (L : Area) (s : State) (p b : ℕ) (d : Block BSIZE) : Option State :=
  match s.active.lookup p with
  | none => none
  | some op =>
    if L.Mem b ∨ 2 ^ 32 ≤ b then none
    else if s.lh.length ≥ LOGSIZE ∨ s.lh.length ≥ L.size - 1 then none
    else if s.outstanding < 1 then none
    else some { s with
      buf := update s.buf b d
      lh := absorb s.lh b
      writes := s.writes ++ [⟨op, b, d⟩] }

/-- `end_op`, up to the call of `commit`. -/
def endOp (s : State) (p : ℕ) : Option State :=
  match s.active.lookup p with
  | none => none
  | some op =>
    if s.committing then none
    else
      let s := { s with
        outstanding := s.outstanding - 1
        active := s.active.erase (p, op) }
      if s.outstanding = 0 then
        if s.lh.length > 0 then some { s with committing := true, pc := .writeLog 0 }
        else some (sealTxn { s with committing := true, pc := .endCommit })
      else some s

/-- The next action of the committing or recovering thread. -/
def tick (L : Area) (s : State) : Option State :=
  match s.pc with
  | .idle => none
  | .writeLog t =>
    if t < s.lh.length then
      some { bwrite s (L.start + t + 1) (s.buf (s.lh.getD t 0)) with pc := .writeLog (t + 1) }
    else some { s with pc := .writeHead }
  | .writeHead =>
    some (sealTxn { bwrite s L.start (headBlock (s.buf L.start) s.lh) with
      pc := .installTrans 0 })
  | .installTrans t =>
    if t < s.lh.length then some { installOne L s t with pc := .installTrans (t + 1) }
    else some { s with lh := [], pc := .eraseHead }
  | .eraseHead =>
    some { bwrite s L.start (headBlock (s.buf L.start) s.lh) with pc := .endCommit }
  | .endCommit => some { s with committing := false, pc := .idle }
  | .readHead => some { s with lh := readHead (s.buf L.start), pc := .recoverTrans 0 }
  | .recoverTrans t =>
    if t < s.lh.length then some { installOne L s t with pc := .recoverTrans (t + 1) }
    else some { s with lh := [], pc := .recoverErase }
  | .recoverErase =>
    some { bwrite s L.start (headBlock (s.buf L.start) s.lh) with pc := .idle }

/-- Memory is lost; the machine boots again and recovers from its disk. -/
def crash (s : State) : State :=
  { s with buf := s.disk, lh := [], outstanding := 0, committing := false,
           pc := .readHead, active := [], current := [] }

/-- What can happen. -/
inductive Act
  | beginOp (p : ℕ)
  | logWrite (p b : ℕ) (d : Block BSIZE)
  | endOp (p : ℕ)
  | tick
  | crash

def step (L : Area) (s : State) : Act → Option State
  | .beginOp p => beginOp s p
  | .logWrite p b d => logWrite L s p b d
  | .endOp p => endOp s p
  | .tick => tick L s
  | .crash => some (crash s)

def boot (d : Blocks) : State where
  disk := d
  buf := d
  lh := []
  outstanding := 0
  committing := false
  pc := .readHead
  active := []
  opCount := 0
  writes := []
  current := []
  txns := []

def replay (d : Blocks) (ws : List Write) : Blocks :=
  ws.foldl (fun d w => update d w.blockno w.data) d

/-- The log_writes of the given operations, in the order they were made. -/
def State.writesOf (s : State) (ops : List ℕ) : List Write :=
  s.writes.filter fun w => w.op ∈ ops

def State.committedOps (s : State) : List ℕ := s.txns.flatten

end Xv6Container.Log
