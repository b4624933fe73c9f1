import Xv6Container.Console.Model
import Xv6Container.Proc.Monitor

/-!
# The calls that sleep and test killed

`piperead`, `pipewrite`, `pipeclose`, `sys_sleep`, `consoleread` and `wait` as programs, with what
wakes them. A process runs any list of these calls; interrupts are taken between two calls.
Everything between two lock operations is one step, and a copied byte is one.

Output to the screen, the inode sleep-lock that `consoleread` gives back while it waits, and the
closing of files in `exit` are left out.
-/

namespace Xv6Container.Threads.Calls

open Function Run Slot
open Console (Input INPUT_BUF)

abbrev PIPESIZE : ℕ := 512

structure Pipe where
  data : ℕ → UInt8
  nread : UInt32
  nwrite : UInt32
  readopen : Bool
  writeopen : Bool

/-- The data of the calls. -/
structure Data where
  pipe : Pipe
  /-- all bytes ever stored into the pipe, in this order -/
  stored : List UInt8
  /-- all bytes ever handed to readers, in this order -/
  handed : List UInt8
  ticks : UInt32
  input : Input

/-- `p->lock` of the pipe, `tickslock` and `cons.lock`. -/
inductive Lock
  | pipe | ticks | cons
  deriving DecidableEq

/-- A process slot, `&p->nread`, `&p->nwrite`, `&ticks`, `&input.r`. -/
inductive Channel (n : ℕ)
  | proc (p : Fin n)
  | nread | nwrite | ticks | input
  deriving DecidableEq

/-- Calls and interrupts. -/
inductive Job
  | pipewrite (src : List UInt8)
  | piperead (n : ℤ)
  | pipeclose (writable : Bool)
  /-- the argument as it is compared with a difference of ticks -/
  | sleep (n : UInt32)
  | consoleread (n : ℤ)
  | wait
  | timer
  | consoleintr (cs : List UInt8)
  | yield
  | exit

/-- Where a process is inside its call. -/
inductive Point
  -- at `forkret`, and in user space
  | start | user
  -- pipewrite of `n` bytes, `src` still to store; `fresh` says that some were stored
  -- since the last wakeup
  | writeLoop (n : ℕ) (src : List UInt8) (fresh : Bool)
  | writeFail (fresh : Bool)
  | writeWake (n : ℕ) (src : List UInt8)
  | writeSleep (n : ℕ) (src : List UInt8)
  | writeDone (n : ℕ)
  | writeReturn (n : ℕ)
  | readTest (n : ℤ)
  | readFail
  | readSleep (n : ℤ)
  | readCopy (n : ℤ) (got : List UInt8)
  | readDone (got : List UInt8)
  | readReturn (got : List UInt8)
  | closeSet (writable : Bool)
  | closeWake (writable : Bool)
  | closeReturn
  | sleepBegin (n : UInt32)
  | sleepTest (n ticks0 : UInt32)
  | sleepFail
  | sleepSleep (n ticks0 : UInt32)
  | sleepReturn
  | consLoop (n target : ℤ) (dst : List UInt8)
  | consFail
  | consSleep (n target : ℤ) (dst : List UInt8)
  | consReturn (n target : ℤ) (dst : List UInt8)
  | waitScan
  | waitReturn (r : ℤ)
  | waitSleep
  | timerTick | timerWake | timerReturn
  | intrLoop (cs : List UInt8)
  | intrWake (cs : List UInt8)
  | intrReturn
  | yieldSet | yieldSched | yieldReturn
  | exitSet | exitSched | dead

/-- A process: its point, the calls it has still to make, and what the last one returned. -/
structure Frame where
  point : Point
  jobs : List Job
  ret : ℤ

def Frame.goto (x : Frame) (pt : Point) : Frame := { x with point := pt }

def Frame.back (x : Frame) (v : ℤ) : Frame := { x with point := .user, ret := v }

/-- `p->nwrite == p->nread + PIPESIZE`. -/
def Pipe.full (d : Pipe) : Bool := d.nwrite == d.nread + 512

/-- `p->nread == p->nwrite`. -/
def Pipe.empty (d : Pipe) : Bool := d.nread == d.nwrite

/-- `p->data[p->nwrite++ % PIPESIZE] = addr[i]`. -/
def Data.store (d : Data) (b : UInt8) : Data :=
  { d with
    pipe := { d.pipe with
      data := update d.pipe.data (d.pipe.nwrite.toNat % PIPESIZE) b
      nwrite := d.pipe.nwrite + 1 }
    stored := d.stored ++ [b] }

/-- The byte `p->data[p->nread % PIPESIZE]`. -/
def Pipe.front (d : Pipe) : UInt8 := d.data (d.nread.toNat % PIPESIZE)

/-- `addr[i] = p->data[p->nread++ % PIPESIZE]`. -/
def Data.hand (d : Data) : Data :=
  { d with
    pipe := { d.pipe with nread := d.pipe.nread + 1 }
    handed := d.handed ++ [d.pipe.front] }

def Data.closeEnd (d : Data) (writable : Bool) : Data :=
  if writable then { d with pipe := { d.pipe with writeopen := false } }
  else { d with pipe := { d.pipe with readopen := false } }

variable {n : ℕ}

abbrev Slots (n : ℕ) := Fin n → Slot n (Channel n)

def kin (slot : Slots n) : Fin n → Kin n := fun q => (slot q).toKin

def Job.lock : Job → Lk Lock
  | pipewrite _ | piperead _ | pipeclose _ => .other .pipe
  | sleep _ | timer => .other .ticks
  | consoleread _ | consoleintr _ => .other .cons
  | wait | yield | exit => .ptable

def Job.entry : Job → Point
  | pipewrite src => .writeLoop src.length src false
  | piperead n => .readTest n
  | pipeclose w => .closeSet w
  | sleep n => .sleepBegin n
  | consoleread n => .consLoop n n []
  | wait => .waitScan
  | timer => .timerTick
  | consoleintr cs => .intrLoop cs
  | yield => .yieldSet
  | exit => .exitSet

/-- What process `p` does next; init must not exit. -/
def next (init p : Fin n) (x : Frame) : Op n Lock (Channel n) Data Frame :=
  match x.point with
  | .start => .release .ptable (x.goto .user)
  | .user =>
    match x.jobs with
    | [] => .stop
    | job :: jobs => .acquire job.lock { x with point := job.entry, jobs := jobs }
  -- pipewrite
  | .writeLoop k [] _ => .act fun slot d => (slot, d, x.goto (.writeDone k))
  | .writeLoop k (b :: src) fresh => .act fun slot d =>
      if d.pipe.full then
        if !d.pipe.readopen || (slot p).killed then (slot, d, x.goto (.writeFail fresh))
        else (slot, d, x.goto (.writeWake k (b :: src)))
      else (slot, d.store b, x.goto (.writeLoop k src true))
  | .writeFail _ => .release (.other .pipe) (x.back (-1))
  | .writeWake k src => .wakeup .nread (x.goto (.writeSleep k src))
  | .writeSleep k src => .sleep .nwrite (.other .pipe) (x.goto (.writeLoop k src false))
  | .writeDone k => .wakeup .nread (x.goto (.writeReturn k))
  | .writeReturn k => .release (.other .pipe) (x.back k)
  -- piperead
  | .readTest k => .act fun slot d =>
      if d.pipe.empty && d.pipe.writeopen then
        if (slot p).killed then (slot, d, x.goto .readFail) else (slot, d, x.goto (.readSleep k))
      else (slot, d, x.goto (.readCopy k []))
  | .readFail => .release (.other .pipe) (x.back (-1))
  | .readSleep k => .sleep .nread (.other .pipe) (x.goto (.readTest k))
  | .readCopy k got => .act fun slot d =>
      if (got.length : ℤ) < k ∧ d.pipe.empty = false then
        (slot, d.hand, x.goto (.readCopy k (got ++ [d.pipe.front])))
      else (slot, d, x.goto (.readDone got))
  | .readDone got => .wakeup .nwrite (x.goto (.readReturn got))
  | .readReturn got => .release (.other .pipe) (x.back got.length)
  -- pipeclose
  | .closeSet w => .act fun slot d => (slot, d.closeEnd w, x.goto (.closeWake w))
  | .closeWake w => .wakeup (if w then .nread else .nwrite) (x.goto .closeReturn)
  | .closeReturn => .release (.other .pipe) (x.back 0)
  -- sys_sleep
  | .sleepBegin k => .act fun slot d => (slot, d, x.goto (.sleepTest k d.ticks))
  | .sleepTest k ticks0 => .act fun slot d =>
      if d.ticks - ticks0 < k then
        if (slot p).killed then (slot, d, x.goto .sleepFail)
        else (slot, d, x.goto (.sleepSleep k ticks0))
      else (slot, d, x.goto .sleepReturn)
  | .sleepFail => .release (.other .ticks) (x.back (-1))
  | .sleepSleep k ticks0 => .sleep .ticks (.other .ticks) (x.goto (.sleepTest k ticks0))
  | .sleepReturn => .release (.other .ticks) (x.back 0)
  -- consoleread
  | .consLoop k target dst => .act fun slot d =>
      if 0 < k then
        if d.input.r = d.input.w then
          if (slot p).killed then (slot, d, x.goto .consFail)
          else (slot, d, x.goto (.consSleep k target dst))
        else
          let c := d.input.buf (d.input.r.toNat % INPUT_BUF)
          let d' := { d with input := { d.input with r := d.input.r + 1 } }
          if c = 4 then
            -- control-D is left for the next call unless nothing was read
            (slot, if k < target then d else d', x.goto (.consReturn k target dst))
          else if c = 10 then (slot, d', x.goto (.consReturn (k - 1) target (dst ++ [c])))
          else (slot, d', x.goto (.consLoop (k - 1) target (dst ++ [c])))
      else (slot, d, x.goto (.consReturn k target dst))
  | .consFail => .release (.other .cons) (x.back (-1))
  | .consSleep k target dst => .sleep .input (.other .cons) (x.goto (.consLoop k target dst))
  | .consReturn k target _ => .release (.other .cons) (x.back (target - k))
  -- wait
  | .waitScan => .act fun slot d =>
      match zombieChild (kin slot) p with
      | some q => (update slot q (reap (slot q)), d, x.goto (.waitReturn (slot q).pid))
      | none =>
        if !haveKids (kin slot) p || (slot p).killed then (slot, d, x.goto (.waitReturn (-1)))
        else (slot, d, x.goto .waitSleep)
  | .waitReturn r => .release .ptable (x.back r)
  | .waitSleep => .sleep (.proc p) .ptable (x.goto .waitScan)
  -- the timer interrupt
  | .timerTick => .act fun slot d => (slot, { d with ticks := d.ticks + 1 }, x.goto .timerWake)
  | .timerWake => .wakeup .ticks (x.goto .timerReturn)
  | .timerReturn => .release (.other .ticks) (x.back x.ret)
  -- consoleintr
  | .intrLoop [] => .act fun slot d => (slot, d, x.goto .intrReturn)
  | .intrLoop (c :: cs) => .act fun slot d =>
      (slot, { d with input := Console.consolekey d.input c },
        x.goto (if Console.wakes d.input c then .intrWake cs else .intrLoop cs))
  | .intrWake cs => .wakeup .input (x.goto (.intrLoop cs))
  | .intrReturn => .release (.other .cons) (x.back x.ret)
  -- yield
  | .yieldSet => .act fun slot d =>
      (update slot p { slot p with state := .RUNNABLE }, d, x.goto .yieldSched)
  | .yieldSched => .sched (x.goto .yieldReturn)
  | .yieldReturn => .release .ptable (x.back x.ret)
  -- exit
  | .exitSet =>
    if p = init then .stop
    else .act fun slot d => (exitSlots .proc init slot p, d, x.goto .exitSched)
  | .exitSched => .sched (x.goto .dead)
  | .dead => .stop

def Point.held : Point → Option (Lk Lock)
  | user => none
  | writeLoop _ _ _ | writeFail _ | writeWake _ _ | writeSleep _ _ | writeDone _ | writeReturn _
  | readTest _ | readFail | readSleep _ | readCopy _ _ | readDone _ | readReturn _
  | closeSet _ | closeWake _ | closeReturn => some (.other .pipe)
  | sleepBegin _ | sleepTest _ _ | sleepFail | sleepSleep _ _ | sleepReturn
  | timerTick | timerWake | timerReturn => some (.other .ticks)
  | consLoop _ _ _ | consFail | consSleep _ _ _ | consReturn _ _ _
  | intrLoop _ | intrWake _ | intrReturn => some (.other .cons)
  | start | waitScan | waitReturn _ | waitSleep | yieldSet | yieldSched | yieldReturn
  | exitSet | exitSched | dead => some .ptable

def held (x : Frame) : Option (Lk Lock) := x.point.held

@[simp] theorem held_goto (x : Frame) (pt : Point) : held (x.goto pt) = pt.held := rfl

@[simp] theorem held_back (x : Frame) (v : ℤ) : held (x.back v) = none := rfl

theorem Job.held_entry (j : Job) : j.entry.held = some j.lock := by cases j <;> rfl

/-- `slot'` differs from `slot` by nobody put to sleep and nobody killed. -/
structure Milder (slot slot' : Slots n) : Prop where
  chan : ∀ q, (slot' q).chan = (slot q).chan
  state : ∀ q, (slot' q).state = .SLEEPING → (slot q).state = .SLEEPING
  killed : ∀ q, (slot' q).killed = true → (slot q).killed = true

theorem Milder.refl (slot : Slots n) : Milder slot slot := ⟨fun _ => rfl,fun _ => id,fun _ => id⟩

theorem Milder.update (slot : Slots n) {p : Fin n} {x : Slot n (Channel n)}
    (hchan : x.chan = (slot p).chan) (hstate : x.state ≠ .SLEEPING)
    (hkilled : x.killed = true → (slot p).killed = true) : Milder slot (update slot p x) := by
  refine ⟨fun q => ?_,fun q hq => ?_,fun q hq => ?_⟩
  all_goals by_cases hqp : q = p
  · subst hqp; rw [update_self,hchan]
  · rw [update_of_ne hqp]
  · subst hqp; rw [update_self] at hq; exact absurd hq hstate
  · rwa [update_of_ne hqp] at hq
  · subst hqp; rw [update_self] at hq; exact hkilled hq
  · rwa [update_of_ne hqp] at hq

theorem milder_reap (slot : Slots n) (q : Fin n) : Milder slot (update slot q (reap (slot q))) :=
  .update slot rfl (by simp [reap]) (by simp [reap])

theorem milder_exitSlots (init : Fin n) (slot : Slots n) (p : Fin n) :
    Milder slot (exitSlots .proc init slot p) := by
  have hw := fun q => (woken_exit .proc init slot p q).same
  refine ⟨fun q => (hw q).2.2.1,fun q hq => ?_,fun q hq => (hw q).2.2.2.1.symm.trans hq⟩
  simp only [exitSlots] at hq
  split at hq
  · cases hq
  · obtain ⟨-,-,-,-,he | ⟨he,-⟩⟩ := hw q
    · exact he.symm.trans hq
    · exact he

theorem locked_of_milder {x : Frame} {f : Slots n → Data → Slots n × Data × Frame}
    (h : ∀ slot d, Milder slot (f slot d).1 ∧ held (f slot d).2.2 = held x) :
    (Op.act f : Op n Lock (Channel n) Data Frame).Locked held x := fun slot d =>
  ⟨(h slot d).2,fun q => ⟨(h slot d).1.chan q,(h slot d).1.state q⟩⟩

theorem locking (init : Fin n) : Locking (next init) held := by
  rintro p ⟨point,jobs,ret⟩
  cases point with
  | user =>
    cases jobs with
    | nil => trivial
    | cons j jobs => exact ⟨rfl,j.held_entry⟩
  | writeLoop k src fresh =>
    cases src with
    | nil => exact locked_of_milder fun slot d => ⟨.refl slot,rfl⟩
    | cons b src =>
      refine locked_of_milder fun slot d => ?_
      split_ifs <;> exact ⟨.refl slot,rfl⟩
  | readTest k | readCopy k got | sleepTest k t =>
    refine locked_of_milder fun slot d => ?_
    split_ifs <;> exact ⟨.refl slot,rfl⟩
  | closeSet w | sleepBegin k | timerTick =>
    exact locked_of_milder fun slot d => ⟨.refl slot,rfl⟩
  | consLoop k target dst =>
    refine locked_of_milder fun slot d => ?_
    dsimp only
    split_ifs <;> exact ⟨.refl slot,rfl⟩
  | waitScan =>
    refine locked_of_milder fun slot d => ?_
    split
    · exact ⟨milder_reap slot _,rfl⟩
    · split_ifs <;> exact ⟨.refl slot,rfl⟩
  | intrLoop cs =>
    cases cs with
    | nil => exact locked_of_milder fun slot d => ⟨.refl slot,rfl⟩
    | cons c cs =>
      refine locked_of_milder fun slot d => ⟨.refl slot,?_⟩
      dsimp only
      split_ifs <;> rfl
  | yieldSet => exact locked_of_milder fun slot d => ⟨.update slot rfl (by simp) id,rfl⟩
  | exitSet =>
    rw [next.eq_def]
    dsimp only
    split_ifs
    · trivial
    · exact locked_of_milder fun slot d => ⟨milder_exitSlots init slot p,rfl⟩
  | writeWake | writeDone | readDone | closeWake | timerWake | intrWake =>
    exact ⟨by simp [held,Point.held],rfl⟩
  | dead => trivial
  | _ => exact ⟨rfl,rfl⟩

end Xv6Container.Threads.Calls
