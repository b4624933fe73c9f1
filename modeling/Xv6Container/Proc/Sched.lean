import Xv6Container.Lib.Run
import Xv6Container.Lib.Slots
import Xv6Container.Proc.Table

/-!
# The scheduler

The process half of `proc.c` on any number of CPUs. Every critical section of `ptable.lock` is
one step, except where a process leaves the lock to the scheduler of its CPU, which hands it to
the process it picks. The steps of `fork` outside the lock are steps of their own.

The history says how many processes were created, which pids `fork` and `wait` returned to whom,
and who exited.
-/

set_option linter.unusedSectionVars false

namespace Xv6Container.Sched

open Function Run Option

/-- `struct proc`; `kstack` and `pgdir` say whether the pointers are not null. -/
structure SProc extends Slot NPROC ℕ where
  kstack : Bool
  pgdir : Bool
  deriving DecidableEq

/-- Where the control of a CPU is. -/
inductive Mode
  -- in `scheduler` without the lock, or in its loop at slot `i` with the lock
  | idle | scan (i : ℕ)
  -- `swtch` has gone to the process, which has the lock
  | resumed
  -- `swtch` has come back to the scheduler, which has the lock
  | back
  -- in the process, without the lock
  | run
  deriving DecidableEq

/-- How far a process is in `fork`, and with which slot. -/
inductive Doing
  | plain | embryo (q : PSlot) | stacked (q : PSlot) | filled (q : PSlot)
  deriving DecidableEq

/-- Where a process that is switched out goes on. -/
inductive Susp
  | yield | sleep | wait | forkret
  deriving DecidableEq

/-- The process table, the CPUs and the history. -/
structure Sys (K : Type) where
  proc : PSlot → SProc
  nextpid : ℤ
  /-- `c->proc` -/
  cpu : K → Option PSlot
  mode : K → Mode
  /-- the CPU that holds `ptable.lock` -/
  lock : Option K
  doing : PSlot → Doing
  susp : PSlot → Susp
  /-- processes created so far -/
  created : ℕ
  /-- pids returned by `fork`, with the pid of its caller -/
  forked : List (ℤ × ℤ)
  /-- pids returned by `wait`, with the pid of its caller -/
  waited : List (ℤ × ℤ)
  exited : List ℤ

variable {K : Type} [DecidableEq K]

def slots (proc : PSlot → SProc) : PSlot → Slot NPROC ℕ := fun q => (proc q).toSlot

def setSlots (proc : PSlot → SProc) (f : PSlot → Slot NPROC ℕ) : PSlot → SProc :=
  fun q => { proc q with toSlot := f q }

def kin (proc : PSlot → SProc) : PSlot → Kin NPROC := fun q => (proc q).toKin

def wakeup1 (proc : PSlot → SProc) (chan : ℕ) : PSlot → SProc :=
  setSlots proc fun q => (slots proc q).wake1 chan

def firstUnused (proc : PSlot → SProc) : Option PSlot := Slot.firstUnused (kin proc)

def zombieChild (proc : PSlot → SProc) (p : PSlot) : Option PSlot := Slot.zombieChild (kin proc) p

def findPid (proc : PSlot → SProc) (pid : ℤ) : Option PSlot := Slot.findPid (slots proc) pid

def kill (proc : PSlot → SProc) (pid : ℤ) : (PSlot → SProc) × ℤ :=
  (setSlots proc (Slot.kill (slots proc) pid).1, (Slot.kill (slots proc) pid).2)

/-- The critical section of `exit` up to `sched`. -/
def exitProc (proc : PSlot → SProc) (p : PSlot) : PSlot → SProc :=
  setSlots proc (Slot.exitSlots procChan initproc (slots proc) p)

/-- What `exit` of process `p` does under the lock. -/
def exitAt (s : Sys K) (p : PSlot) : Sys K :=
  { s with proc := exitProc s.proc p, exited := (s.proc p).pid :: s.exited }

/-- Process `p` on CPU `c` has changed its slot to `x` and calls `sched`, which it will leave at
`k`. -/
def leave (s : Sys K) (c : K) (p : PSlot) (x : SProc) (k : Susp) : Sys K :=
  { s with
    proc := update s.proc p x
    susp := update s.susp p k
    lock := some c
    mode := update s.mode c .back }

/-- Process `p` on CPU `c` releases the lock. -/
def letGo (s : Sys K) (c : K) : Sys K :=
  { s with lock := none, mode := update s.mode c .run }

/-- What `wait` leaves of a child it has found. -/
def reap (x : SProc) : SProc :=
  { x with toSlot := x.toSlot.reap, kstack := false }

/-- Process `p`, in `wait`, frees the slot `q` of a child. -/
def collect (s : Sys K) (p q : PSlot) : Sys K :=
  { s with
    proc := update s.proc q (reap (s.proc q))
    waited := ((s.proc q).pid, (s.proc p).pid) :: s.waited }

/-- The channel of process `p` is cleared when `sleep` goes on. -/
def clearChan (s : Sys K) (p : PSlot) : Sys K :=
  { s with proc := update s.proc p { s.proc p with chan := none } }

/-- One pass of `wait` by process `p` on CPU `c`, under the lock: reap a zombie, fail, or sleep
(`none` as value). -/
def waitPass (s : Sys K) (c : K) (p : PSlot) : Sys K × Option ℤ :=
  match zombieChild s.proc p with
  | some q => (letGo (collect s p q) c, some (s.proc q).pid)
  | none =>
    if !Slot.haveKids (kin s.proc) p || (s.proc p).killed then (letGo s c, some (-1))
    else (leave s c p { s.proc p with chan := some (procChan p), state := .SLEEPING } .wait, none)

/-- What happens. -/
inductive Act (K : Type)
  -- the scheduler of CPU `c`
  | acquire (c : K) | scan (c : K) | release (c : K) | back (c : K)
  -- the process it switched to goes on
  | resume (c : K)
  -- critical sections of the process on CPU `c`
  | yield (c : K) | sleep (c : K) (chan : ℕ) | exit (c : K) | wait (c : K)
  -- of some process or interrupt handler
  | wakeup (chan : ℕ) | kill (pid : ℤ)
  -- `fork`: `allocproc`, the kernel stack, `copyuvm`, the last critical section
  | fork (c : K) | stack (c : K) (ok : Bool) | space (c : K) (ok : Bool) | ready (c : K)

/-- The process that CPU `c` is running, if it does not hold the lock. -/
def onCpu (s : Sys K) (c : K) : Option PSlot :=
  if s.mode c = .run then s.cpu c else none

/-- The scheduler of `c` switches to process `p`. -/
def switchTo (s : Sys K) (c : K) (p : PSlot) : Sys K :=
  { s with
    proc := update s.proc p { s.proc p with state := .RUNNING }
    cpu := update s.cpu c (some p)
    mode := update s.mode c .resumed }

/-- The scheduler of `c` at slot `i`. -/
def scanAt (s : Sys K) (c : K) (i : ℕ) : Option (Sys K) :=
  if h : i < NPROC then
    if (s.proc ⟨i, h⟩).state = .RUNNABLE then some (switchTo s c ⟨i, h⟩)
    else some { s with mode := update s.mode c (.scan (i + 1)) }
  else none

/-- Process `p` goes on after its `sched`, with the lock from the scheduler. -/
def resumeAt (s : Sys K) (c : K) (p : PSlot) : Sys K :=
  match s.susp p with
  | .yield | .forkret => letGo s c
  | .sleep => letGo (clearChan s p) c
  | .wait => (waitPass (clearChan s p) c p).1

/-- Process `p`, in `fork`, changes the slot `q` of the child to `x` and is at `d` then. -/
def build (s : Sys K) (p q : PSlot) (x : SProc) (d : Doing) : Sys K :=
  { s with proc := update s.proc q x, doing := update s.doing p d }

/-- `allocproc` takes slot `q`. -/
def allocAt (s : Sys K) (p q : PSlot) : Sys K :=
  { build s p q { s.proc q with state := .EMBRYO, pid := s.nextpid } (.embryo q) with
    nextpid := wrapInt (s.nextpid + 1)
    created := s.created + 1 }

/-- The last critical section of `fork`. -/
def readyAt (s : Sys K) (p q : PSlot) : Sys K :=
  { build s p q { s.proc q with state := .RUNNABLE } .plain with
    forked := ((s.proc q).pid, (s.proc p).pid) :: s.forked }

/-- The first critical section of `fork`; with no slot free it returns -1. -/
def forkAt (s : Sys K) (p : PSlot) : Sys K :=
  match firstUnused s.proc with
  | none => s
  | some q => allocAt s p q

def step (s : Sys K) : Act K → Option (Sys K)
  | .acquire c =>
    if s.mode c = .idle ∧ s.lock = none then
      some { s with lock := some c, mode := update s.mode c (.scan 0) }
    else none
  | .scan c =>
    match s.mode c with
    | .scan i => scanAt s c i
    | _ => none
  | .release c =>
    match s.mode c with
    | .scan i =>
      if i < NPROC then none
      else some { s with lock := none, mode := update s.mode c .idle }
    | _ => none
  | .back c =>
    if s.mode c = .back then
      (s.cpu c).map fun p =>
        { s with
          cpu := update s.cpu c none
          mode := update s.mode c (.scan (p.val + 1)) }
    else none
  | .resume c => if s.mode c = .resumed then (s.cpu c).map (resumeAt s c) else none
  | .yield c =>
    if s.lock = none then
      (onCpu s c).map fun p => leave s c p { s.proc p with state := .RUNNABLE } .yield
    else none
  | .sleep c chan =>
    if s.lock = none then
      (onCpu s c).bind fun p =>
        if s.doing p = .plain then
          some (leave s c p { s.proc p with chan := some chan, state := .SLEEPING } .sleep)
        else none
    else none
  | .exit c =>
    if s.lock = none then
      (onCpu s c).bind fun p =>
        if s.doing p = .plain ∧ p ≠ initproc then
          some (leave (exitAt s p) c p (exitProc s.proc p p) .yield)
        else none
    else none
  | .wait c =>
    if s.lock = none then
      (onCpu s c).bind fun p => if s.doing p = .plain then some (waitPass s c p).1 else none
    else none
  | .wakeup chan => if s.lock = none then some { s with proc := wakeup1 s.proc chan } else none
  | .kill pid => if s.lock = none then some { s with proc := (kill s.proc pid).1 } else none
  | .fork c =>
    if s.lock = none then
      (onCpu s c).bind fun p => if s.doing p = .plain then some (forkAt s p) else none
    else none
  | .stack c ok =>
    (onCpu s c).bind fun p =>
      match s.doing p with
      | .embryo q =>
        if ok then
          some { build s p q { s.proc q with kstack := true } (.stacked q) with
            susp := update s.susp q .forkret }
        else some (build s p q { s.proc q with kstack := false, state := .UNUSED } .plain)
      | _ => none
  | .space c ok =>
    (onCpu s c).bind fun p =>
      match s.doing p with
      | .stacked q =>
        if ok then
          some (build s p q { s.proc q with pgdir := true, parent := some p } (.filled q))
        else
          some (build s p q { s.proc q with pgdir := false, kstack := false, state := .UNUSED }
            .plain)
      | _ => none
  | .ready c =>
    if s.lock = none then
      (onCpu s c).bind fun p =>
        match s.doing p with
        | .filled q => some (readyAt s p q)
        | _ => none
    else none

/-- After `userinit`: init is about to run, and every CPU is in its scheduler. -/
def boot : Sys K where
  proc := fun q =>
    if q = initproc then ⟨⟨⟨.RUNNABLE, none⟩, 1, none, false⟩, true, true⟩
    else ⟨⟨⟨.UNUSED, none⟩, 0, none, false⟩, false, false⟩
  nextpid := 2
  cpu := fun _ => none
  mode := fun _ => .idle
  lock := none
  doing := fun _ => .plain
  susp := fun _ => .forkret
  created := 1
  forked := []
  waited := []
  exited := []

/-- One pass of `wait` under the lock. -/
inductive WaitPass (s : Sys K) (c : K) (p : PSlot) : Sys K → Prop
  | reap {q} (hq : zombieChild s.proc p = some q) : WaitPass s c p (letGo (collect s p q) c)
  | fail (hq : zombieChild s.proc p = none) : WaitPass s c p (letGo s c)
  | sleep (hq : zombieChild s.proc p = none) : WaitPass s c p
      (leave s c p { s.proc p with chan := some (procChan p), state := .SLEEPING } .wait)

/-- One step, by what happens. -/
inductive Trans (s : Sys K) : Act K → Sys K → Prop
  | acquire {c} (hm : s.mode c = .idle) (hl : s.lock = none) :
      Trans s (.acquire c) { s with lock := some c, mode := update s.mode c (.scan 0) }
  | dispatch {c i} (hm : s.mode c = .scan i) (h : i < NPROC)
      (hr : (s.proc ⟨i, h⟩).state = .RUNNABLE) :
      Trans s (.scan c) (switchTo s c ⟨i, h⟩)
  | skip {c i} (hm : s.mode c = .scan i) :
      Trans s (.scan c) { s with mode := update s.mode c (.scan (i + 1)) }
  | release {c i} (hm : s.mode c = .scan i) :
      Trans s (.release c) { s with lock := none, mode := update s.mode c .idle }
  | back {c p} (hm : s.mode c = .back) (hc : s.cpu c = some p) :
      Trans s (.back c) { s with
        cpu := update s.cpu c none
        mode := update s.mode c (.scan (p.val + 1)) }
  | resume {c p} (hm : s.mode c = .resumed) (hc : s.cpu c = some p) (hk : s.susp p ≠ .wait)
      (hs : s.susp p ≠ .sleep) : Trans s (.resume c) (letGo s c)
  | wake {c p} (hm : s.mode c = .resumed) (hc : s.cpu c = some p) (hk : s.susp p = .sleep) :
      Trans s (.resume c) (letGo (clearChan s p) c)
  | rewait {c p t} (hm : s.mode c = .resumed) (hc : s.cpu c = some p) (hk : s.susp p = .wait)
      (ht : WaitPass (clearChan s p) c p t) : Trans s (.resume c) t
  | yield {c p} (hl : s.lock = none) (hm : s.mode c = .run) (hc : s.cpu c = some p) :
      Trans s (.yield c) (leave s c p { s.proc p with state := .RUNNABLE } .yield)
  | sleep {c p chan} (hl : s.lock = none) (hm : s.mode c = .run) (hc : s.cpu c = some p)
      (hd : s.doing p = .plain) :
      Trans s (.sleep c chan) (leave s c p { s.proc p with chan := some chan, state := .SLEEPING } .sleep)
  | exit {c p} (hl : s.lock = none) (hm : s.mode c = .run) (hc : s.cpu c = some p)
      (hd : s.doing p = .plain) (hi : p ≠ initproc) :
      Trans s (.exit c) (leave (exitAt s p) c p (exitProc s.proc p p) .yield)
  | wait {c p t} (hl : s.lock = none) (hm : s.mode c = .run) (hc : s.cpu c = some p)
      (hd : s.doing p = .plain) (ht : WaitPass s c p t) : Trans s (.wait c) t
  | wakeup {chan} (hl : s.lock = none) :
      Trans s (.wakeup chan) { s with proc := wakeup1 s.proc chan }
  | kill {pid} (hl : s.lock = none) : Trans s (.kill pid) { s with proc := (kill s.proc pid).1 }
  | noSlot {c p} (hc : s.cpu c = some p) : Trans s (.fork c) s
  | fork {c p q} (hl : s.lock = none) (hm : s.mode c = .run) (hc : s.cpu c = some p)
      (hd : s.doing p = .plain) (hq : firstUnused s.proc = some q) :
      Trans s (.fork c) (allocAt s p q)
  | stack {c p q} (hm : s.mode c = .run) (hc : s.cpu c = some p) (hd : s.doing p = .embryo q) :
      Trans s (.stack c true) { build s p q { s.proc q with kstack := true } (.stacked q) with
        susp := update s.susp q .forkret }
  | noStack {c p q} (hm : s.mode c = .run) (hc : s.cpu c = some p) (hd : s.doing p = .embryo q) :
      Trans s (.stack c false)
        (build s p q { s.proc q with kstack := false, state := .UNUSED } .plain)
  | space {c p q} (hm : s.mode c = .run) (hc : s.cpu c = some p) (hd : s.doing p = .stacked q) :
      Trans s (.space c true)
        (build s p q { s.proc q with pgdir := true, parent := some p } (.filled q))
  | noSpace {c p q} (hm : s.mode c = .run) (hc : s.cpu c = some p) (hd : s.doing p = .stacked q) :
      Trans s (.space c false)
        (build s p q { s.proc q with pgdir := false, kstack := false, state := .UNUSED } .plain)
  | ready {c p q} (hl : s.lock = none) (hm : s.mode c = .run) (hc : s.cpu c = some p)
      (hd : s.doing p = .filled q) : Trans s (.ready c) (readyAt s p q)

section Steps

variable {s t : Sys K} {c : K} {p q : PSlot}

theorem onCpu_eq_some : onCpu s c = some p ↔ s.mode c = .run ∧ s.cpu c = some p := by
  rw [onCpu]
  split
  · next h => simp [h]
  · next h => simp [h]

theorem waitPass_cases (s : Sys K) (c : K) (p : PSlot) : WaitPass s c p (waitPass s c p).1 := by
  rw [waitPass]
  split
  · next q hq => exact .reap hq
  · next hq =>
    split
    · exact .fail hq
    · exact .sleep hq

theorem Trans.of_resumeAt (hm : s.mode c = .resumed) (hc : s.cpu c = some p) :
    Trans s (.resume c) (resumeAt s c p) := by
  rw [resumeAt]
  split
  · next hk => exact .resume hm hc (by simp [hk]) (by simp [hk])
  · next hk => exact .resume hm hc (by simp [hk]) (by simp [hk])
  · next hk => exact .wake hm hc hk
  · next hk => exact .rewait hm hc hk (waitPass_cases _ c p)

theorem Trans.of_scanAt {i : ℕ} (hm : s.mode c = .scan i) (h : scanAt s c i = some t) :
    Trans s (.scan c) t := by
  rw [scanAt] at h
  split at h
  · next hi =>
    split at h
    · next hr => cases h; exact .dispatch hm hi hr
    · cases h; exact .skip hm
  · cases h

theorem onCpu_bind {f : PSlot → Option (Sys K)} (h : (onCpu s c).bind f = some t) :
    ∃ p, s.mode c = .run ∧ s.cpu c = some p ∧ f p = some t := by
  obtain ⟨p,hp,hf⟩ := bind_eq_some_iff.mp h
  obtain ⟨hm,hc⟩ := onCpu_eq_some.mp hp
  exact ⟨p,hm,hc,hf⟩

theorem locked_bind {f : PSlot → Option (Sys K)}
    (h : (if s.lock = none then (onCpu s c).bind f else none) = some t) :
    s.lock = none ∧ ∃ p, s.mode c = .run ∧ s.cpu c = some p ∧ f p = some t := by
  split at h
  · next hl => exact ⟨hl,onCpu_bind h⟩
  · cases h

theorem Trans.of_step {a : Act K} (h : step s a = some t) : Trans s a t := by
  cases a with
  | acquire c =>
    rw [step] at h
    split at h
    · next hc => cases h; exact .acquire hc.1 hc.2
    · cases h
  | scan c =>
    rw [step] at h
    split at h
    · next i hm => exact .of_scanAt hm h
    · cases h
  | release c =>
    rw [step] at h
    split at h
    · next i hm =>
      split at h
      · cases h
      · cases h; exact .release hm
    · cases h
  | back c =>
    rw [step] at h
    split at h
    · next hm =>
      obtain ⟨p,hc,rfl⟩ := map_eq_some_iff.mp h
      exact .back hm hc
    · cases h
  | resume c =>
    rw [step] at h
    split at h
    · next hm =>
      obtain ⟨p,hc,rfl⟩ := map_eq_some_iff.mp h
      exact .of_resumeAt hm hc
    · cases h
  | yield c =>
    rw [step] at h
    split at h
    · next hl =>
      obtain ⟨p,hp,rfl⟩ := map_eq_some_iff.mp h
      obtain ⟨hm,hc⟩ := onCpu_eq_some.mp hp
      exact .yield hl hm hc
    · cases h
  | sleep c chan =>
    obtain ⟨hl,p,hm,hc,h⟩ := locked_bind h
    split at h
    · next hd => cases h; exact .sleep hl hm hc hd
    · cases h
  | exit c =>
    obtain ⟨hl,p,hm,hc,h⟩ := locked_bind h
    split at h
    · next hd => cases h; exact .exit hl hm hc hd.1 hd.2
    · cases h
  | wait c =>
    obtain ⟨hl,p,hm,hc,h⟩ := locked_bind h
    split at h
    · next hd => cases h; exact .wait hl hm hc hd (waitPass_cases s c p)
    · cases h
  | wakeup chan =>
    rw [step] at h
    split at h
    · next hl => cases h; exact .wakeup hl
    · cases h
  | kill pid =>
    rw [step] at h
    split at h
    · next hl => cases h; exact .kill hl
    · cases h
  | fork c =>
    obtain ⟨hl,p,hm,hc,h⟩ := locked_bind h
    split at h
    · next hd =>
      cases h
      rw [forkAt]
      split
      · exact .noSlot hc
      · next q hq => exact .fork hl hm hc hd hq
    · cases h
  | stack c ok =>
    obtain ⟨p,hm,hc,h⟩ := onCpu_bind h
    split at h
    · next q hd =>
      cases ok with
      | true => cases h; exact .stack hm hc hd
      | false => cases h; exact .noStack hm hc hd
    · cases h
  | space c ok =>
    obtain ⟨p,hm,hc,h⟩ := onCpu_bind h
    split at h
    · next q hd =>
      cases ok with
      | true => cases h; exact .space hm hc hd
      | false => cases h; exact .noSpace hm hc hd
    · cases h
  | ready c =>
    obtain ⟨hl,p,hm,hc,h⟩ := locked_bind h
    split at h
    · next q hd => cases h; exact .ready hl hm hc hd
    · cases h

end Steps

/-- The CPU holds `ptable.lock` in this mode. -/
def Mode.holds : Mode → Bool
  | scan _ | resumed | back => true
  | idle | run => false

/-- What `c->proc` is in a mode; `R` are the processes that are `RUNNING`. -/
def Mode.Fits (R : PSlot → Prop) : Mode → Option PSlot → Prop
  | idle, o | scan _, o => o = none
  | run, o | resumed, o => ∃ p, o = some p ∧ R p
  | back, o => ∃ p, o = some p ∧ ¬R p

def Running (s : Sys K) (p : PSlot) : Prop := (s.proc p).state = .RUNNING

/-- The CPUs agree with the process table, up to a switch in flight. -/
structure CpuInv (s : Sys K) : Prop where
  locked : ∀ c, s.lock = some c ↔ (s.mode c).holds = true
  fits : ∀ c, (s.mode c).Fits (Running s) (s.cpu c)
  running : ∀ p, Running s p → ∃ c, s.cpu c = some p
  inj : ∀ c c' p, s.cpu c = some p → s.cpu c' = some p → c = c'

section CpuInv

variable {s t : Sys K} {c : K} {p q : PSlot}

theorem Mode.Fits.congr {R R' : PSlot → Prop} {m : Mode} {o : Option PSlot} (h : m.Fits R o)
    (hR : ∀ p, o = some p → (R' p ↔ R p)) : m.Fits R' o := by
  cases m with
  | idle => exact h
  | scan i => exact h
  | run | resumed =>
    obtain ⟨p,rfl,hp⟩ := h
    exact ⟨p,rfl,(hR p rfl).mpr hp⟩
  | back =>
    obtain ⟨p,rfl,hp⟩ := h
    exact ⟨p,rfl,fun hn => hp ((hR p rfl).mp hn)⟩

theorem CpuInv.same (h : CpuInv s) (hR : ∀ p, Running t p ↔ Running s p) (hcpu : t.cpu = s.cpu)
    (hmode : t.mode = s.mode) (hlock : t.lock = s.lock) : CpuInv t := by
  refine ⟨fun c => ?_,fun c => ?_,fun p hp => ?_,?_⟩
  · rw [hlock,hmode]
    exact h.locked c
  · rw [hmode,hcpu]
    exact (h.fits c).congr fun p _ => hR p
  · rw [hcpu]
    exact h.running p ((hR p).mp hp)
  · rw [hcpu]
    exact h.inj

theorem CpuInv.change (h : CpuInv s) {m : Mode} {o : Option PSlot}
    (hcpu : t.cpu = update s.cpu c o) (hmode : t.mode = update s.mode c m)
    (hlock : t.lock = if m.holds then some c else none)
    (hfree : s.lock = none ∨ s.lock = some c) (hfit : m.Fits (Running t) o)
    (hother : ∀ p, s.cpu c ≠ some p → o ≠ some p → (Running t p ↔ Running s p))
    (hold : ∀ p, s.cpu c = some p → o ≠ some p → ¬Running t p)
    (hnew : ∀ p, o = some p → ∀ c', c' ≠ c → s.cpu c' ≠ some p) : CpuInv t := by
  have hne : ∀ c', c' ≠ c → t.cpu c' = s.cpu c' ∧ t.mode c' = s.mode c' := fun c' hc' => by
    rw [hcpu,hmode,update_of_ne hc',update_of_ne hc']
    exact ⟨rfl,rfl⟩
  have hself : t.cpu c = o ∧ t.mode c = m := by
    rw [hcpu,hmode,update_self,update_self]
    exact ⟨rfl,rfl⟩
  refine ⟨fun c' => ?_,fun c' => ?_,fun p hp => ?_,fun c1 c2 p h1 h2 => ?_⟩
  · rw [hlock]
    by_cases hc' : c' = c
    · subst hc'
      rw [hself.2]
      cases m.holds <;> simp
    rw [(hne c' hc').2,← h.locked c']
    have hnot : s.lock ≠ some c' := by
      rcases hfree with hl | hl
      · simp [hl]
      · rw [hl]
        exact fun e => hc' (some.inj e).symm
    refine iff_of_false ?_ hnot
    split
    · exact fun e => hc' (some.inj e).symm
    · simp
  · by_cases hc' : c' = c
    · subst hc'
      rw [hself.1,hself.2]
      exact hfit
    · rw [(hne c' hc').1,(hne c' hc').2]
      refine (h.fits c').congr fun p hp => hother p ?_ ?_
      · exact fun e => hc' (h.inj c' c p hp e)
      · exact fun e => hnew p e c' hc' hp
  · by_cases hop : o = some p
    · exact ⟨c,hself.1.trans hop⟩
    · by_cases hcp : s.cpu c = some p
      · exact absurd hp (hold p hcp hop)
      · obtain ⟨c',hc'⟩ := h.running p ((hother p hcp hop).mp hp)
        have hcc : c' ≠ c := by
          rintro rfl
          exact hcp hc'
        exact ⟨c',(hne c' hcc).1.trans hc'⟩
  refine Slots.unique_change (P := (· = some p)) (k := fun _ => ())
    (fun c1 c2 h1 h2 _ => h.inj c1 c2 p h1 h2) (fun c' hc' => (hne c' hc').1) ?_ c1 c2 h1 h2 rfl
  rw [hself.1]
  exact fun ho c' hc' hp => absurd hp (hnew p ho c' hc')

theorem CpuInv.remode (h : CpuInv s) {m : Mode} (hR : ∀ p, Running t p ↔ Running s p)
    (hcpu : t.cpu = s.cpu) (hmode : t.mode = update s.mode c m)
    (hlock : t.lock = if m.holds then some c else none)
    (hfree : s.lock = none ∨ s.lock = some c) (hfit : m.Fits (Running s) (s.cpu c)) :
    CpuInv t := by
  refine h.change (o := s.cpu c) ?_ hmode hlock hfree (hfit.congr fun p _ => hR p)
    (fun p _ _ => hR p) (fun p hp hn => absurd hp hn) fun p hp c' hc' hp' => hc' (h.inj c' c p hp' hp)
  rw [hcpu,update_eq_self]

theorem CpuInv.lock_of_holds (h : CpuInv s) {m : Mode} (hm : s.mode c = m) (hh : m.holds = true) :
    s.lock = some c :=
  (h.locked c).mpr (by rw [hm,hh])

theorem CpuInv.fits_of (h : CpuInv s) {m : Mode} (hm : s.mode c = m) :
    m.Fits (Running s) (s.cpu c) :=
  hm ▸ h.fits c

theorem CpuInv.running_of_run (h : CpuInv s) (hm : s.mode c = .run ∨ s.mode c = .resumed)
    (hc : s.cpu c = some p) : Running s p := by
  have hf := h.fits c
  rcases hm with hm | hm
  all_goals
    rw [hm,hc] at hf
    obtain ⟨q,hq,hr⟩ := hf
    cases hq
    exact hr

theorem CpuInv.leave (h : CpuInv s) {x : SProc} {k : Susp} (hc : s.cpu c = some p)
    (hfree : s.lock = none ∨ s.lock = some c) (hx : x.state ≠ .RUNNING) :
    CpuInv (leave s c p x k) := by
  have hself : ¬Running (Sched.leave s c p x k) p := by
    simpa [Running,Sched.leave] using hx
  have hother : ∀ q, q ≠ p → (Running (Sched.leave s c p x k) q ↔ Running s q) := fun q hq => by
    simp [Running,Sched.leave,update_of_ne hq]
  refine h.change (o := some p) ?_ rfl rfl hfree ⟨p,rfl,hself⟩ (fun q _ hq => ?_) (fun q hq hn => ?_)
    fun q hq c' hc' hp' => ?_
  · show s.cpu = _
    rw [← hc,update_eq_self]
  · exact hother q fun e => hq (by rw [e])
  · rw [hc] at hq
    exact absurd hq hn
  · cases hq
    exact hc' (h.inj c' c p hp' hc)

theorem CpuInv.letGo (h : CpuInv s) (hm : s.mode c = .run ∨ s.mode c = .resumed)
    (hfree : s.lock = none ∨ s.lock = some c) : CpuInv (letGo s c) := by
  refine h.remode (m := .run) (fun _ => Iff.rfl) rfl rfl rfl hfree ?_
  have hf := h.fits c
  rcases hm with hm | hm
  all_goals
    rw [hm] at hf
    exact hf

theorem running_update {x : SProc} (hx : x.state ≠ .RUNNING) (hp : (s.proc p).state ≠ .RUNNING)
    (q : PSlot) : (update s.proc p x q).state = .RUNNING ↔ (s.proc q).state = .RUNNING := by
  by_cases hq : q = p
  · subst hq
    rw [update_self]
    exact iff_of_false hx hp
  · rw [update_of_ne hq]

theorem state_update {x : SProc} (hx : x.state = (s.proc p).state) (q : PSlot) :
    (update s.proc p x q).state = (s.proc q).state := by
  by_cases hq : q = p
  · subst hq
    rw [update_self,hx]
  · rw [update_of_ne hq]

theorem running_update_of_eq {x : SProc} (hx : x.state = (s.proc p).state) (q : PSlot) :
    (update s.proc p x q).state = .RUNNING ↔ (s.proc q).state = .RUNNING := by
  rw [state_update hx]

theorem firstUnused_some {proc : PSlot → SProc} (h : firstUnused proc = some q) :
    (proc q).state = .UNUSED :=
  Slot.firstUnused_some h

theorem zombieChild_some {proc : PSlot → SProc} (h : zombieChild proc p = some q) :
    (proc q).parent = some p ∧ (proc q).state = .ZOMBIE :=
  Slot.zombieChild_some h

theorem woken_running {x y : Slot NPROC ℕ} (h : x.Woken y) :
    y.state = .RUNNING ↔ x.state = .RUNNING := by
  rcases h with rfl | ⟨hx,rfl⟩
  · rfl
  · simp [hx]

theorem kill_running {proc : PSlot → SProc} (pid : ℤ) (q : PSlot) :
    ((kill proc pid).1 q).state = .RUNNING ↔ (proc q).state = .RUNNING := by
  show ((Slot.kill (slots proc) pid).1 q).state = .RUNNING ↔ _
  rcases Slot.kill_slot (slots proc) pid q with he | ⟨-,h⟩
  · rw [he]
    rfl
  · have hr := woken_running h
    exact hr

end CpuInv

/-- The process can run, runs or sleeps. -/
def Alive : ProcState → Prop
  | .RUNNABLE | .RUNNING | .SLEEPING => True
  | _ => False

/-- The slot a `fork` is about. -/
def Doing.slot : Doing → Option PSlot
  | plain => none
  | embryo q | stacked q | filled q => some q

/-- What holds of the slot while process `p` is in `fork`. -/
def Stage (s : Sys K) (p : PSlot) : Doing → Prop
  | .plain => True
  | .embryo q => (s.proc q).state = .EMBRYO
  | .stacked q => (s.proc q).state = .EMBRYO ∧ (s.proc q).kstack = true
  | .filled q => (s.proc q).state = .EMBRYO ∧ (s.proc q).kstack = true ∧
      (s.proc q).pgdir = true ∧ (s.proc q).parent = some p

/-- Who is alive has memory, and every `fork` in progress has a slot to itself. -/
structure MemInv (s : Sys K) : Prop where
  mem : ∀ p, Alive (s.proc p).state → (s.proc p).kstack = true ∧ (s.proc p).pgdir = true
  stage : ∀ p, Stage s p (s.doing p)
  alive : ∀ p, s.doing p ≠ .plain → Alive (s.proc p).state
  inj : ∀ p p' q, (s.doing p).slot = some q → (s.doing p').slot = some q → p = p'

/-- Nothing but scheduling happened to a slot: who was alive still is. -/
structure CalmAt (x y : SProc) : Prop where
  state : y.state = x.state ∨ Alive x.state ∧ Alive y.state
  pid : y.pid = x.pid
  parent : y.parent = x.parent
  kstack : y.kstack = x.kstack
  pgdir : y.pgdir = x.pgdir

/-- Nothing but scheduling happened. -/
structure Calm (s t : Sys K) : Prop where
  slot : ∀ q, CalmAt (s.proc q) (t.proc q)
  nextpid : t.nextpid = s.nextpid
  doing : t.doing = s.doing
  created : t.created = s.created
  forked : t.forked = s.forked
  waited : t.waited = s.waited
  exited : t.exited = s.exited

section Calm

variable {s t : Sys K} {c : K} {p q : PSlot} {x y z : SProc}

theorem CalmAt.refl (x : SProc) : CalmAt x x := ⟨.inl rfl,rfl,rfl,rfl,rfl⟩

theorem CalmAt.trans (h : CalmAt x y) (h' : CalmAt y z) : CalmAt x z := by
  refine ⟨?_,h'.pid.trans h.pid,h'.parent.trans h.parent,h'.kstack.trans h.kstack,
    h'.pgdir.trans h.pgdir⟩
  rcases h.state with h1 | h1 <;> rcases h'.state with h2 | h2
  · exact .inl (h2.trans h1)
  · exact .inr ⟨h1 ▸ h2.1,h2.2⟩
  · exact .inr ⟨h1.1,h2 ▸ h1.2⟩
  · exact .inr ⟨h1.1,h2.2⟩

theorem CalmAt.alive_iff (h : CalmAt x y) : Alive y.state ↔ Alive x.state := by
  rcases h.state with e | ⟨h1,h2⟩
  · rw [e]
  · exact iff_of_true h2 h1

theorem CalmAt.state_iff (h : CalmAt x y) {st : ProcState} (hst : ¬Alive st) :
    y.state = st ↔ x.state = st := by
  rcases h.state with e | ⟨h1,h2⟩
  · rw [e]
  · refine iff_of_false ?_ ?_
    · rintro rfl
      exact hst h2
    · rintro rfl
      exact hst h1

theorem Calm.refl (s : Sys K) : Calm s s := ⟨fun _ => .refl _,rfl,rfl,rfl,rfl,rfl,rfl⟩

theorem calmAt_update {proc : PSlot → SProc} (hx : CalmAt (proc p) x) (q : PSlot) :
    CalmAt (proc q) (update proc p x q) := by
  by_cases hq : q = p
  · subst hq
    rwa [update_self]
  · rw [update_of_ne hq]
    exact .refl _

theorem calmAt_woken {x : SProc} {y : Slot NPROC ℕ} (h : x.Woken y) :
    CalmAt x { x with toSlot := y } := by
  obtain ⟨hpid,hpar,-,-,hst⟩ := h.same
  refine ⟨hst.imp_right fun hs => ?_,hpid,hpar,rfl,rfl⟩
  rw [hs.1,hs.2]
  exact ⟨trivial,trivial⟩

theorem calmAt_kill (proc : PSlot → SProc) (pid : ℤ) (q : PSlot) :
    CalmAt (proc q) ((kill proc pid).1 q) := by
  show CalmAt _ { proc q with toSlot := (Slot.kill (slots proc) pid).1 q }
  rcases Slot.kill_slot (slots proc) pid q with he | ⟨-,h⟩
  · rw [he]
    exact .refl _
  · obtain ⟨hst,hpid,hpar,hk,hg⟩ := calmAt_woken (x := { proc q with killed := true }) h
    exact ⟨hst,hpid,hpar,hk,hg⟩

theorem calm_letGo (s : Sys K) (c : K) : Calm s (letGo s c) :=
  ⟨fun _ => .refl _,rfl,rfl,rfl,rfl,rfl,rfl⟩

theorem calm_leave {k : Susp} (hx : CalmAt (s.proc p) x) : Calm s (leave s c p x k) :=
  ⟨calmAt_update hx,rfl,rfl,rfl,rfl,rfl,rfl⟩

theorem calmAt_of_alive (hp : Alive x.state) {st : ProcState} (hst : Alive st) (chan : Option ℕ) :
    CalmAt x { x with chan := chan, state := st } := ⟨.inr ⟨hp,hst⟩,rfl,rfl,rfl,rfl⟩

theorem Stage.of_slot {d : Doing} (h : Stage s p d)
    (hq : ∀ q, d.slot = some q → (s.proc q).state = .EMBRYO → (t.proc q).state = .EMBRYO ∧
      (t.proc q).kstack = (s.proc q).kstack ∧ (t.proc q).pgdir = (s.proc q).pgdir ∧
      ((s.proc q).parent = some p → (t.proc q).parent = some p)) : Stage t p d := by
  cases d with
  | plain => trivial
  | embryo q => exact (hq q rfl h).1
  | stacked q =>
    obtain ⟨hst,hk,-,-⟩ := hq q rfl h.1
    exact ⟨hst,hk.trans h.2⟩
  | filled q =>
    obtain ⟨hst,hk,hg,hp⟩ := hq q rfl h.1
    exact ⟨hst,hk.trans h.2.1,hg.trans h.2.2.1,hp h.2.2.2⟩

theorem Stage.embryo {d : Doing} (h : Stage s p d) (hq : d.slot = some q) :
    (s.proc q).state = .EMBRYO := by
  cases d with
  | plain => cases hq
  | embryo r => cases hq; exact h
  | stacked r | filled r => cases hq; exact h.1

theorem MemInv.calm (h : MemInv s) (hc : Calm s t) : MemInv t := by
  refine ⟨fun p hp => ?_,fun p => ?_,fun p hp => ?_,?_⟩
  · rw [(hc.slot p).kstack,(hc.slot p).pgdir]
    exact h.mem p ((hc.slot p).alive_iff.mp hp)
  · rw [hc.doing]
    exact (h.stage p).of_slot fun q _ hq => ⟨((hc.slot q).state_iff id).mpr hq,(hc.slot q).kstack,
      (hc.slot q).pgdir,(hc.slot q).parent.trans⟩
  · rw [hc.doing] at hp
    exact (hc.slot p).alive_iff.mpr (h.alive p hp)
  · rw [hc.doing]
    exact h.inj

/-- The slots with the children of `p` passed to init. -/
def reparent (proc : PSlot → SProc) (p q : PSlot) : SProc :=
  { proc q with toKin := Slot.reparent initproc p (proc q).toKin }

theorem calmAt_exitProc (proc : PSlot → SProc) (hq : q ≠ p) :
    CalmAt (reparent proc p q) (exitProc proc p q) := by
  obtain ⟨hst,hpid,hpar,-,-⟩ :=
    calmAt_woken (Slot.woken_exit procChan initproc (slots proc) p q)
  refine ⟨?_,hpid,?_,rfl,rfl⟩
  · simp only [exitProc,setSlots,Slot.exitSlots,if_neg hq]
    exact hst
  · simp only [reparent,Slot.reparent,exitProc,setSlots,Slot.exitSlots]
    dsimp only at hpar
    rw [hpar]

theorem exitProc_self (proc : PSlot → SProc) (p : PSlot) : (exitProc proc p p).state = .ZOMBIE := by
  simp [exitProc,setSlots,Slot.exitSlots]

theorem exitProc_running (proc : PSlot → SProc) (hq : q ≠ p) :
    (exitProc proc p q).state = .RUNNING ↔ (proc q).state = .RUNNING := by
  simp only [exitProc,setSlots,Slot.exitSlots,if_neg hq]
  exact woken_running (Slot.woken_exit procChan initproc (slots proc) p q)

theorem MemInv.exit (h : MemInv s) (hp : Alive (s.proc p).state) (hd : s.doing p = .plain)
    (hdoing : t.doing = s.doing) (hproc : t.proc = exitProc s.proc p) : MemInv t := by
  have hne : ∀ q, q ≠ p → CalmAt (reparent s.proc p q) (t.proc q) := fun q hq => by
    rw [hproc]
    exact calmAt_exitProc s.proc hq
  have hbusy : ∀ r, s.doing r ≠ .plain → r ≠ p := by
    rintro r hr rfl
    exact hr hd
  refine ⟨fun q hq => ?_,fun r => ?_,fun r hr => ?_,?_⟩
  · have hqp : q ≠ p := by
      rintro rfl
      rw [hproc,exitProc_self] at hq
      exact hq
    have hc := hne q hqp
    rw [hc.kstack,hc.pgdir]
    exact h.mem q (hc.alive_iff.mp hq)
  · rw [hdoing]
    refine (h.stage r).of_slot fun q hslot hq => ?_
    have hqp : q ≠ p := by
      rintro rfl
      rw [hq] at hp
      exact hp
    have hrp : r ≠ p := hbusy r fun e => by
      rw [e] at hslot
      cases hslot
    have hc := hne q hqp
    refine ⟨(hc.state_iff id).mpr hq,hc.kstack,hc.pgdir,fun hpar => ?_⟩
    simp [hc.parent,reparent,Slot.reparent,hpar,hrp]
  · rw [hdoing] at hr
    exact (hne r (hbusy r hr)).alive_iff.mpr (h.alive r hr)
  · rw [hdoing]
    exact h.inj

/-- One slot `q` changes, of a process that does not live and that no `fork` but that of `p` is
about. -/
theorem MemInv.fork (h : MemInv s) {d : Doing} (hp : d ≠ .plain → Alive (s.proc p).state)
    (hq : ¬Alive (s.proc q).state) (hown : ∀ r, r ≠ p → (s.doing r).slot ≠ some q)
    (hproc : t.proc = update s.proc q x) (hdoing : t.doing = update s.doing p d)
    (hslot : ∀ r, d.slot = some r → r = q) (hx : Alive x.state → x.kstack = true ∧ x.pgdir = true)
    (hst : Stage t p d) : MemInv t := by
  have hne : ∀ r, r ≠ q → t.proc r = s.proc r := fun r hr => by
    rw [hproc,update_of_ne hr]
  have hdne : ∀ r, r ≠ p → t.doing r = s.doing r := fun r hr => by
    rw [hdoing,update_of_ne hr]
  have hdself : t.doing p = d := by rw [hdoing,update_self]
  have halive : ∀ r, Alive (s.proc r).state → t.proc r = s.proc r := fun r hr => by
    refine hne r ?_
    rintro rfl
    exact hq hr
  refine ⟨fun r hr => ?_,fun r => ?_,fun r hr => ?_,fun r r' q' hr hr' => ?_⟩
  · by_cases hrq : r = q
    · subst hrq
      rw [hproc,update_self] at hr ⊢
      exact hx hr
    · rw [hne r hrq] at hr ⊢
      exact h.mem r hr
  · by_cases hrp : r = p
    · subst hrp
      rw [hdself]
      exact hst
    · rw [hdne r hrp]
      refine (h.stage r).of_slot fun q' hs hq' => ?_
      have : q' ≠ q := by
        rintro rfl
        exact hown r hrp hs
      rw [hne q' this]
      exact ⟨hq',rfl,rfl,id⟩
  · by_cases hrp : r = p
    · subst hrp
      rw [hdself] at hr
      rw [halive r (hp hr)]
      exact hp hr
    · rw [hdne r hrp] at hr
      have hr := h.alive r hr
      rw [halive r hr]
      exact hr
  refine Slots.unique_change (P := fun d : Doing => d.slot = some q') (k := fun _ => ())
    (fun r r' hr hr' _ => h.inj r r' q' hr hr') hdne ?_ r r' hr hr' rfl
  rw [hdself]
  exact fun hd r hr hs => absurd (hslot q' hd ▸ hs) (hown r hr)

theorem MemInv.embryo (h : MemInv s) {d : Doing} (hd : s.doing p = d) (hslot : d.slot = some q) :
    (s.proc q).state = .EMBRYO :=
  (h.stage p).embryo (by rw [hd,hslot])

/-- A step of `fork` on the slot that it has taken. -/
theorem MemInv.forkOn (h : MemInv s) {d : Doing} (hp : Alive (s.proc p).state)
    (hd : (s.doing p).slot = some q) (hproc : t.proc = update s.proc q x)
    (hdoing : t.doing = update s.doing p d) (hslot : ∀ r, d.slot = some r → r = q)
    (hx : Alive x.state → x.kstack = true ∧ x.pgdir = true) (hst : Stage t p d) : MemInv t := by
  refine h.fork (fun _ => hp) ?_ (fun r hr hs => hr (h.inj r p q hs hd)) hproc hdoing hslot hx hst
  rw [(h.stage p).embryo hd]
  exact id

theorem MemInv.reap (h : MemInv s) (hq : (s.proc q).state = .ZOMBIE) (p : PSlot) :
    MemInv (collect s p q) := by
  have hna : ¬Alive (s.proc q).state := by rw [hq]; exact id
  have hd : s.doing q = .plain := by
    by_contra hne
    exact hna (h.alive q hne)
  refine h.fork (p := q) (d := .plain) (fun hne => absurd rfl hne) hna (fun r _ hs => ?_) rfl ?_
    (fun r hr => by cases hr) False.elim trivial
  · have := (h.stage r).embryo hs
    rw [hq] at this
    cases this
  · rw [← hd]
    exact (update_eq_self q s.doing).symm

end Calm

/-- What holds between any two steps. -/
structure SchedInv (s : Sys K) : Prop where
  cpus : CpuInv s
  mems : MemInv s

section Runs

variable {s t : Sys K} {c : K} {p q : PSlot}

theorem schedInv_boot : SchedInv (boot : Sys K) := by
  have hst : ∀ q, ((boot : Sys K).proc q).state ≠ .RUNNING := fun q => by
    simp only [boot]
    split <;> simp
  refine ⟨⟨fun c => ?_,fun c => rfl,fun p hp => absurd hp (hst p),fun c c' p h => by cases h⟩,
    ⟨fun p hp => ?_,fun p => trivial,fun p hp => absurd rfl hp,fun p p' q h => by cases h⟩⟩
  · simp [boot,Mode.holds]
  · by_cases hpi : p = initproc
    · simp [boot,hpi]
    · simp [boot,hpi,Alive] at hp

theorem alive_of_running (h : Running s p) : Alive (s.proc p).state := by
  rw [Running] at h
  rw [h]
  trivial

theorem CpuInv.alive (h : CpuInv s) (hm : s.mode c = .run ∨ s.mode c = .resumed)
    (hc : s.cpu c = some p) : Alive (s.proc p).state :=
  alive_of_running (h.running_of_run hm hc)

theorem CpuInv.waitPass (h : CpuInv s) (hm : s.mode c = .run ∨ s.mode c = .resumed)
    (hc : s.cpu c = some p) (hfree : s.lock = none ∨ s.lock = some c) (ht : WaitPass s c p t) :
    CpuInv t := by
  cases ht with
  | @reap q hq =>
    obtain ⟨-,hz⟩ := zombieChild_some hq
    have hcpu : CpuInv (collect s p q) :=
      h.same (running_update (by simp [Sched.reap,Slot.reap]) (by simp [hz])) rfl rfl rfl
    exact hcpu.letGo hm hfree
  | fail => exact h.letGo hm hfree
  | sleep => exact h.leave hc hfree (by simp)

theorem CpuInv.dispatch (h : CpuInv s) {i : ℕ} (hm : s.mode c = .scan i)
    (hr : (s.proc q).state = .RUNNABLE) : CpuInv (switchTo s c q) := by
  have hl := h.lock_of_holds hm rfl
  have hf : s.cpu c = none := h.fits_of hm
  refine h.change (m := .resumed) rfl rfl hl (.inr hl) ⟨q,rfl,?_⟩ (fun r _ hr => ?_)
    (fun r hr => ?_) fun r hr c' hc' hp' => ?_
  · simp [Running,switchTo]
  · have hrq : r ≠ q := fun e => hr (by rw [e])
    simp [Running,switchTo,update_of_ne hrq]
  · rw [hf] at hr
    cases hr
  -- a process on another CPU would be running, or that CPU would hold the lock
  cases hr
  have hf' := h.fits c'
  rw [hp'] at hf'
  cases hm' : s.mode c' with
  | idle | scan j => rw [hm'] at hf'; cases hf'
  | back =>
    have := h.lock_of_holds hm' rfl
    rw [hl] at this
    exact hc' (some.inj this).symm
  | run | resumed =>
    rw [hm'] at hf'
    obtain ⟨r,hr',hrun⟩ := hf'
    cases hr'
    rw [Running,hr] at hrun
    cases hrun

theorem CpuInv.back (h : CpuInv s) (hm : s.mode c = .back) (hc : s.cpu c = some p) :
    CpuInv { s with cpu := update s.cpu c none, mode := update s.mode c (.scan (p.val + 1)) } := by
  have hl := h.lock_of_holds hm rfl
  have hf := h.fits_of hm
  rw [hc] at hf
  obtain ⟨p',hp',hnr⟩ := hf
  cases hp'
  refine h.change (m := .scan (p.val + 1)) rfl rfl hl (.inr hl) rfl
    (fun _ _ _ => Iff.rfl) (fun q hq _ => ?_) (fun q hq => by cases hq)
  rw [hc] at hq
  cases hq
  exact hnr

theorem CpuInv.exit (h : CpuInv s) (hl : s.lock = none) (hc : s.cpu c = some p) :
    CpuInv (Sched.leave (exitAt s p) c p (exitProc s.proc p p) .yield) := by
  -- the slots as `exit` leaves them, its own still running
  have hcpu : CpuInv { s with proc := update (exitProc s.proc p) p (s.proc p) } := by
    refine h.same (fun q => ?_) rfl rfl rfl
    by_cases hq : q = p
    · subst hq
      simp [Running]
    · simpa [Running,update_of_ne hq] using exitProc_running s.proc hq
  have hleave := hcpu.leave (x := exitProc s.proc p p) (k := .yield) hc (.inl hl)
    (by rw [exitProc_self]; simp)
  rw [Sched.leave] at hleave
  simp only [update_idem] at hleave
  exact hleave.same (fun _ => Iff.rfl) rfl rfl rfl

theorem CpuInv.trans (h : CpuInv s) (hmem : MemInv s) {a : Act K} (ht : Trans s a t) : CpuInv t := by
  cases ht with
  | acquire hm hl =>
    have hf := h.fits_of hm
    exact h.remode (m := .scan 0) (fun _ => Iff.rfl) rfl rfl rfl (.inl hl) hf
  | dispatch hm hi hr => exact h.dispatch hm hr
  | @skip c i hm =>
    have hl := h.lock_of_holds hm rfl
    have hf := h.fits_of hm
    exact h.remode (m := .scan (i + 1)) (fun _ => Iff.rfl) rfl rfl hl (.inr hl) hf
  | release hm =>
    have hl := h.lock_of_holds hm rfl
    have hf := h.fits_of hm
    exact h.remode (m := .idle) (fun _ => Iff.rfl) rfl rfl rfl (.inr hl) hf
  | back hm hc => exact h.back hm hc
  | resume hm hc hk hs => exact h.letGo (.inr hm) (.inr (h.lock_of_holds hm rfl))
  | @wake c p hm hc hk =>
    have hcpu : CpuInv (clearChan s p) := h.same (running_update_of_eq rfl) rfl rfl rfl
    exact hcpu.letGo (.inr hm) (.inr (h.lock_of_holds hm rfl))
  | @rewait c p t hm hc hk ht =>
    have hcpu : CpuInv (clearChan s p) := h.same (running_update_of_eq rfl) rfl rfl rfl
    exact hcpu.waitPass (.inr hm) hc (.inr (h.lock_of_holds hm rfl)) ht
  | yield hl hm hc | sleep hl hm hc hd => exact h.leave hc (.inl hl) (by simp)
  | exit hl hm hc hd hi => exact h.exit hl hc
  | wait hl hm hc hd ht => exact h.waitPass (.inl hm) hc (.inl hl) ht
  | wakeup hl => exact h.same (fun q => woken_running (Slot.woken_wake1 _ _)) rfl rfl rfl
  | kill hl => exact h.same (kill_running _) rfl rfl rfl
  | noSlot => exact h
  | fork hl hm hc hd hq =>
    exact h.same (running_update (by simp) (by simp [firstUnused_some hq])) rfl rfl rfl
  | stack hm hc hd | space hm hc hd => exact h.same (running_update_of_eq rfl) rfl rfl rfl
  | noStack hm hc hd | noSpace hm hc hd | ready hl hm hc hd =>
    exact h.same (running_update (by simp) (by simp [hmem.embryo hd rfl])) rfl rfl rfl

end Runs

/-- Step `a` is a pass of `wait`, a first one or one after a sleep, that finds the zombie `q`. -/
def Reaps (s : Sys K) (a : Act K) (q : PSlot) : Prop :=
  ∃ c p, (a = .wait c ∨ a = .resume c ∧ s.susp p = .wait) ∧ s.cpu c = some p ∧
    zombieChild s.proc p = some q

/-- A step as the process table sees it: scheduling, preceded by at most one step in the life of a
process. -/
inductive Event (s : Sys K) : Act K → Sys K → Prop
  | calm {a t} (h : Calm s t) : Event s a t
  | exit {c p t} (hp : Alive (s.proc p).state) (hd : s.doing p = .plain) (hi : p ≠ initproc)
      (h : Calm (exitAt s p) t) : Event s (.exit c) t
  | reap {a p q t} (ha : Reaps s a q) (hp : Alive (s.proc p).state)
      (hq : zombieChild s.proc p = some q) (h : Calm (collect s p q) t) : Event s a t
  | alloc {c p q} (hp : Alive (s.proc p).state) (hq : firstUnused s.proc = some q) :
      Event s (.fork c) (allocAt s p q)
  | grow {a k p q x d} (hp : Alive (s.proc p).state) (hd : (s.doing p).slot = some q)
      (hq : (s.proc q).state = .EMBRYO) (hx : x.state = .EMBRYO ∨ x.state = .UNUSED)
      (hpid : x.pid = (s.proc q).pid) (hslot : ∀ r, d.slot = some r → r = q)
      (hst : Stage (build s p q x d) p d) : Event s a { build s p q x d with susp := k }
  | ready {c p q} (hp : Alive (s.proc p).state) (hd : s.doing p = .filled q)
      (hst : Stage s p (.filled q)) : Event s (.ready c) (readyAt s p q)

section Events

variable {s t : Sys K} {c : K} {p q : PSlot}

theorem MemInv.event {a : Act K} (h : MemInv s) (he : Event s a t) : MemInv t := by
  cases he with
  | calm hc => exact h.calm hc
  | @exit c p _ hp hd hi hc => exact (h.exit (t := exitAt s p) hp hd rfl rfl).calm hc
  | reap ha hp hq hc => exact (h.reap (zombieChild_some hq).2 _).calm hc
  | alloc hp hq =>
    have hun := firstUnused_some hq
    refine h.fork (fun _ => hp) (by rw [hun]; exact id) (fun r _ hs => ?_) rfl rfl
      (fun r hr => (some.inj hr).symm) False.elim ?_
    · have := (h.stage r).embryo hs
      rw [hun] at this
      cases this
    · simp [Stage,allocAt,build]
  | grow hp hd hq hx hpid hslot hst =>
    refine h.forkOn hp hd rfl rfl hslot (fun ha => ?_) hst
    rcases hx with e | e <;> rw [e] at ha <;> exact ha.elim
  | ready hp hd hst =>
    exact h.forkOn hp (by rw [hd]; rfl) rfl rfl (fun r hr => by cases hr)
      (fun _ => ⟨hst.2.1,hst.2.2.1⟩) trivial

theorem zombieChild_clear (proc : PSlot → SProc) (p r : PSlot) :
    zombieChild (update proc p { proc p with chan := none }) r = zombieChild proc r := by
  have hkin : kin (update proc p { proc p with chan := none }) = kin proc := by
    funext q
    by_cases hq : q = p
    · subst hq
      rw [kin,update_self]
      rfl
    · rw [kin,update_of_ne hq]
      rfl
  rw [zombieChild,hkin]
  rfl

theorem Event.of_wait {a : Act K} (hrun : Running s p) (hc : s.cpu c = some p)
    (ha : a = .wait c ∨ a = .resume c ∧ s.susp p = .wait) (ht : WaitPass s c p t) :
    Event s a t := by
  cases ht with
  | reap hq =>
    exact .reap ⟨c,p,ha,hc,hq⟩ (alive_of_running hrun) hq (calm_letGo _ c)
  | fail => exact .calm (calm_letGo s c)
  | sleep =>
    exact .calm (calm_leave
      (calmAt_of_alive (alive_of_running hrun) (show Alive .SLEEPING from trivial) _))

theorem Event.of_rewait (hrun : Running s p) (hc : s.cpu c = some p) (hk : s.susp p = .wait)
    (ht : WaitPass (clearChan s p) c p t) : Event s (.resume c) t := by
  have hclear : CalmAt (s.proc p) { s.proc p with chan := none } := ⟨.inl rfl,rfl,rfl,rfl,rfl⟩
  cases ht with
  | @reap q hq =>
    rw [clearChan,zombieChild_clear] at hq
    have hqp : q ≠ p := by
      rintro rfl
      have hz := (zombieChild_some hq).2
      rw [Running,hz] at hrun
      cases hrun
    refine .reap ⟨c,p,.inr ⟨rfl,hk⟩,hc,hq⟩ (alive_of_running hrun) hq
      ⟨fun r => ?_,rfl,rfl,rfl,rfl,?_,rfl⟩
    · simp only [letGo,collect,clearChan,update_of_ne hqp]
      rw [update_comm hqp.symm]
      exact calmAt_update (by rwa [update_of_ne hqp.symm]) r
    · simp [letGo,collect,clearChan,update_of_ne hqp]
  | fail => exact .calm ⟨calmAt_update hclear,rfl,rfl,rfl,rfl,rfl,rfl⟩
  | sleep =>
    refine .calm ⟨fun r => ?_,rfl,rfl,rfl,rfl,rfl,rfl⟩
    simp only [leave,clearChan,update_self,update_idem]
    exact calmAt_update (calmAt_of_alive (alive_of_running hrun)
      (show Alive .SLEEPING from trivial) _) r

theorem Event.of_trans {a : Act K} (h : SchedInv s) (ht : Trans s a t) : Event s a t := by
  cases ht with
  | acquire | skip | release | back | resume =>
    exact .calm ⟨fun _ => .refl _,rfl,rfl,rfl,rfl,rfl,rfl⟩
  | dispatch hm hi hr =>
    exact .calm ⟨calmAt_update ⟨.inr ⟨by rw [hr]; trivial,trivial⟩,rfl,rfl,rfl,rfl⟩,
      rfl,rfl,rfl,rfl,rfl,rfl⟩
  | wake hm hc hk =>
    exact .calm ⟨calmAt_update ⟨.inl rfl,rfl,rfl,rfl,rfl⟩,rfl,rfl,rfl,rfl,rfl,rfl⟩
  | rewait hm hc hk ht => exact .of_rewait (h.cpus.running_of_run (.inr hm) hc) hc hk ht
  | yield hl hm hc | sleep hl hm hc hd =>
    exact .calm (calm_leave ⟨.inr ⟨h.cpus.alive (.inl hm) hc,trivial⟩,rfl,rfl,rfl,rfl⟩)
  | exit hl hm hc hd hi =>
    exact .exit (h.cpus.alive (.inl hm) hc) hd hi
      ⟨calmAt_update (.refl _),rfl,rfl,rfl,rfl,rfl,rfl⟩
  | wait hl hm hc hd ht =>
    exact .of_wait (h.cpus.running_of_run (.inl hm) hc) hc (.inl rfl) ht
  | wakeup => exact .calm ⟨fun q => calmAt_woken (Slot.woken_wake1 _ _),rfl,rfl,rfl,rfl,rfl,rfl⟩
  | kill => exact .calm ⟨calmAt_kill s.proc _,rfl,rfl,rfl,rfl,rfl,rfl⟩
  | noSlot => exact .calm (.refl s)
  | fork hl hm hc hd hq => exact .alloc (h.cpus.alive (.inl hm) hc) hq
  | @stack c p q hm hc hd =>
    have hemb := h.mems.embryo hd rfl
    refine .grow (h.cpus.alive (.inl hm) hc) (by rw [hd]; rfl) hemb (.inl hemb) rfl
      (fun r hr => (some.inj hr).symm) ?_
    simp [Stage,build,hemb]
  | @space c p q hm hc hd =>
    have hst := h.mems.stage p
    rw [hd] at hst
    refine .grow (k := s.susp) (h.cpus.alive (.inl hm) hc) (by rw [hd]; rfl) hst.1 (.inl hst.1) rfl
      (fun r hr => (some.inj hr).symm) ?_
    simp [Stage,build,hst.1,hst.2]
  | noStack hm hc hd | noSpace hm hc hd =>
    exact .grow (k := s.susp) (h.cpus.alive (.inl hm) hc) (by rw [hd]; rfl) (h.mems.embryo hd rfl)
      (.inr rfl) rfl (fun r hr => by cases hr) trivial
  | @ready c p q hl hm hc hd =>
    have hst := h.mems.stage p
    rw [hd] at hst
    exact .ready (h.cpus.alive (.inl hm) hc) hd hst

theorem SchedInv.trans (h : SchedInv s) {a : Act K} (ht : Trans s a t) : SchedInv t :=
  ⟨h.cpus.trans h.mems ht,h.mems.event (.of_trans h ht)⟩

theorem schedInv_of_exec {as : List (Act K)} (hrun : exec step boot as = some s) : SchedInv s :=
  exec_invariant (fun _ _ _ h hst => SchedInv.trans h (.of_step hst)) schedInv_boot hrun

/-- How a slot changes: it is taken by `fork`, given back by `wait`, or belongs to a process that
lives or is being made. -/
theorem Event.slot {a : Act K} (he : Event s a t) (q : PSlot) :
    (t.proc q).state = (s.proc q).state ∨ Alive (s.proc q).state ∨ (s.proc q).state = .EMBRYO ∨
      (s.proc q).state = .UNUSED ∧ (∃ c, a = .fork c) ∧ firstUnused s.proc = some q ∨
      (s.proc q).state = .ZOMBIE ∧ Reaps s a q := by
  have calm : ∀ {x : SProc}, CalmAt x (t.proc q) → x.state = (s.proc q).state →
      (t.proc q).state = (s.proc q).state ∨ Alive (s.proc q).state := fun hc hx => by
    rw [← hx]
    exact hc.state.imp_right And.left
  cases he with
  | calm h => exact (calm (h.slot q) rfl).imp_right .inl
  | @exit c p _ hp hd hi h =>
    by_cases hq : q = p
    · subst hq
      exact .inr (.inl hp)
    · rcases (calmAt_exitProc s.proc hq).trans (h.slot q) |>.state with e | ⟨e,-⟩
      · exact .inl e
      · exact .inr (.inl e)
  | @reap _ p r _ ha hp hr h =>
    by_cases hq : q = r
    · subst hq
      exact .inr (.inr (.inr (.inr ⟨(zombieChild_some hr).2,ha⟩)))
    · refine (calm (h.slot q) ?_).imp_right .inl
      simp [collect,update_of_ne hq]
  | @alloc c p r hp hr =>
    by_cases hq : q = r
    · subst hq
      exact .inr (.inr (.inr (.inl ⟨firstUnused_some hr,⟨c,rfl⟩,hr⟩)))
    · exact .inl (by simp [allocAt,build,update_of_ne hq])
  | @grow _ k p r x d hp hd hr hx hpid hslot hst =>
    by_cases hq : q = r
    · subst hq
      exact .inr (.inr (.inl hr))
    · exact .inl (by simp [build,update_of_ne hq])
  | @ready c p r hp hd hst =>
    by_cases hq : q = r
    · subst hq
      exact .inr (.inr (.inl hst.1))
    · exact .inl (by simp [readyAt,build,update_of_ne hq])

theorem CpuInv.running_of_cpu (h : CpuInv s) (hc : s.cpu c = some p) (hback : s.mode c ≠ .back) :
    Running s p := by
  have hf := h.fits c
  rw [hc] at hf
  cases hm : s.mode c with
  | idle | scan => rw [hm] at hf; cases hf
  | back => exact absurd hm hback
  | run => exact h.running_of_run (.inl hm) hc
  | resumed => exact h.running_of_run (.inr hm) hc

theorem CpuInv.not_back (h : CpuInv s) (hl : s.lock = none) (c : K) : s.mode c ≠ .back := fun hm => by
  have := h.lock_of_holds hm rfl
  rw [hl] at this
  cases this

theorem CpuInv.zombie_off (h : CpuInv s) {a : Act K} (ha : Reaps s a q)
    (ht : step s a = some t) (c : K) : s.cpu c ≠ some q := by
  obtain ⟨c',p,ha,-,hq⟩ := ha
  intro hc
  have hback : s.mode c ≠ .back := by
    rcases ha with rfl | ⟨rfl,-⟩
    · cases Trans.of_step ht with
      | wait hl => exact h.not_back hl c
    -- the process that goes on has the lock, so no other CPU has it
    have hm' : s.mode c' = .resumed := by
      cases Trans.of_step ht with
      | resume hm | wake hm | rewait hm => exact hm
    intro hm
    have h1 := h.lock_of_holds hm rfl
    have h2 := h.lock_of_holds hm' rfl
    obtain rfl : c = c' := some.inj (h1.symm.trans h2)
    rw [hm] at hm'
    cases hm'
  have hr := h.running_of_cpu hc hback
  rw [Running,(zombieChild_some hq).2] at hr
  cases hr

/-- In every reachable state: while the lock is free the running processes are those that exactly
one CPU has; who can run or sleeps has a kernel stack and a page table; a slot is taken by
`allocproc` alone, a zombie goes by `wait` alone, and not while a CPU still has it. -/
theorem scheduling_invariant {as : List (Act K)} (hrun : exec step boot as = some s) :
    (s.lock = none → ∀ p, (s.proc p).state = .RUNNING ↔ ∃! c, s.cpu c = some p) ∧
      (∀ p, (s.proc p).state = .RUNNABLE ∨ (s.proc p).state = .RUNNING ∨
        (s.proc p).state = .SLEEPING → (s.proc p).kstack = true ∧ (s.proc p).pgdir = true) ∧
      ∀ a t, step s a = some t → ∀ q,
        ((s.proc q).state = .UNUSED → (t.proc q).state ≠ .UNUSED →
          (∃ c, a = .fork c) ∧ firstUnused s.proc = some q) ∧
        ((s.proc q).state = .ZOMBIE → (t.proc q).state ≠ .ZOMBIE → Reaps s a q) ∧
        (Reaps s a q → ∀ c, s.cpu c ≠ some q) := by
  have h := schedInv_of_exec hrun
  refine ⟨fun hl p => ⟨fun hp => ?_,fun ⟨c,hc,_⟩ => ?_⟩,fun p hp => h.mems.mem p ?_,
    fun a t ht q => ?_⟩
  · obtain ⟨c,hc⟩ := h.cpus.running p hp
    exact ⟨c,hc,fun c' hc' => h.cpus.inj _ _ p hc' hc⟩
  · exact h.cpus.running_of_cpu hc (h.cpus.not_back hl c)
  · rcases hp with hp | hp | hp <;> rw [hp] <;> trivial
  have hslot := (Event.of_trans h (.of_step ht)).slot q
  refine ⟨fun hs hne => ?_,fun hs hne => ?_,fun ha => h.cpus.zombie_off ha ht⟩
  · rcases hslot with e | e | e | ⟨-,hf⟩ | ⟨e,-⟩
    · exact absurd (e.trans hs) hne
    · rw [hs] at e
      exact e.elim
    · rw [hs] at e
      cases e
    · exact hf
    · rw [hs] at e
      cases e
  · rcases hslot with e | e | e | ⟨e,-⟩ | ⟨-,hr⟩
    · exact absurd (e.trans hs) hne
    · rw [hs] at e
      exact e.elim
    · rw [hs] at e
      cases e
    · rw [hs] at e
      cases e
    · exact hr

/-- Init forks on the first CPU, the second one picks up the child. -/
def forkRun : List (Act (Fin 2)) :=
  [.acquire 0, .scan 0, .resume 0, .fork 0, .stack 0 true, .space 0 true, .ready 0,
    .acquire 1, .scan 1, .scan 1, .resume 1]

theorem scheduling_invariant_forkRun :
    ∃ s, exec step boot forkRun = some s ∧ s.lock = none ∧
      (∃! c, s.cpu c = some initproc) ∧ ∃! c, s.cpu c = some ⟨1, by decide⟩ := by
  have hrun : (exec step boot forkRun).map (fun s =>
      (s.lock, (s.proc initproc).state, (s.proc ⟨1,by decide⟩).state)) =
      some (none, .RUNNING, .RUNNING) := by decide +kernel
  obtain ⟨s,hs,he⟩ := map_eq_some_iff.mp hrun
  simp only [Prod.mk.injEq] at he
  obtain ⟨hl,h0,h1⟩ := he
  have h := (scheduling_invariant hs).1 hl
  exact ⟨s,hs,hl,(h _).mp h0,(h _).mp h1⟩

end Events

section Agrees

variable {s : Sys K} {u v : Tables} {c : K} {p q : PSlot}

/-- The process table is that of `u`. -/
structure Agrees (s : Sys K) (u : Tables) : Prop where
  slots : slots s.proc = u.slots
  nextpid : s.nextpid = u.nextpid

theorem Agrees.kin (h : Agrees s u) : Sched.kin s.proc = u.kin :=
  congrArg (fun f q => Slot.toKin (f q)) h.slots

theorem Agrees.slot (h : Agrees s u) (q : PSlot) : (s.proc q).toSlot = (u.proc q).toSlot :=
  congrFun h.slots q

theorem Agrees.update (h : Agrees s u) {x : SProc} {y : Proc} (hx : x.toSlot = y.toSlot) :
    Sched.slots (Function.update s.proc p x) = (u.setProc p y).slots := by
  funext q
  by_cases hq : q = p
  · subst hq
    simp [Sched.slots,Tables.slots,Tables.setProc,hx]
  · simp [Sched.slots,Tables.slots,Tables.setProc,update_of_ne hq,h.slot]

theorem Agrees.kill (h : Agrees s u) (pid : ℤ) :
    Agrees { s with proc := (Sched.kill s.proc pid).1 } (u.kill pid).1 := by
  refine ⟨?_,h.nextpid⟩
  show (Slot.kill (Sched.slots s.proc) pid).1 = (Slot.kill u.slots pid).1
  rw [h.slots]

theorem Agrees.exit (h : Agrees s u) (hv : u.exit p = some v) : Agrees (exitAt s p) v := by
  rw [Tables.exit] at hv
  split at hv
  · cases hv
  cases hv
  refine ⟨?_,h.nextpid⟩
  show Slot.exitSlots procChan initproc (Sched.slots s.proc) p = _
  rw [h.slots]
  rfl

/-- A pass of `wait` does the same in both, and returns the same. -/
theorem Agrees.wait (h : Agrees s u) (c : K) (p : PSlot) :
    Agrees (waitPass s c p).1 (u.wait p).1 ∧ (waitPass s c p).2 = (u.wait p).2 := by
  have hkilled : (s.proc p).killed = (u.proc p).killed := by rw [h.slot]
  rw [waitPass,zombieChild,h.kin,hkilled,Tables.wait,Tables.zombieChild]
  cases Slot.zombieChild u.kin p with
  | some q =>
    refine ⟨⟨h.update (congrArg Slot.reap (h.slot q)),h.nextpid⟩,?_⟩
    simp only [h.slot]
  | none =>
    dsimp only
    split
    · exact ⟨⟨h.slots,h.nextpid⟩,rfl⟩
    · refine ⟨⟨h.update ?_,h.nextpid⟩,rfl⟩
      simp only [h.slot]

/-- So does a `fork` whose steps nobody interrupts. -/
theorem Agrees.fork (h : Agrees s u) (hl : s.lock = none) (hm : s.mode c = .run)
    (hc : s.cpu c = some p) (hd : s.doing p = .plain) (hq : u.firstUnused = some q) :
    ∃ t, exec step s [.fork c, .stack c true, .space c true, .ready c] = some t ∧
      Agrees t (u.fork p .enough).1 := by
  have hq' : firstUnused s.proc = some q := by
    rw [firstUnused,h.kin]
    exact hq
  have hrun : ∃ x, exec step s [.fork c, .stack c true, .space c true, .ready c] =
      some (readyAt x p q) ∧ x.nextpid = wrapInt (s.nextpid + 1) ∧ x.proc = Function.update s.proc q
        ⟨⟨⟨.EMBRYO,some p⟩,s.nextpid,(s.proc q).chan,(s.proc q).killed⟩,true,true⟩ := by
    simp only [exec,step,onCpu,forkAt,allocAt,build,hl,hm,hc,hd,hq',Option.bind_some,if_true,
      update_self,update_idem]
    exact ⟨_,rfl,rfl,rfl⟩
  obtain ⟨x,hrun,hnext,hproc⟩ := hrun
  refine ⟨_,hrun,?_⟩
  rw [Tables.fork,hq]
  refine ⟨?_,by simp [Tables.setProc,Tables.embryo,readyAt,build,hnext,h.nextpid]⟩
  simp only [readyAt,build,hproc,update_self,update_idem]
  refine (h.update (p := q) (y := { u.proc q with
    state := .RUNNABLE, pid := u.nextpid, parent := some p }) ?_).trans ?_
  · simp [h.slot,h.nextpid]
  · simp only [Tables.embryo,Tables.setProc,update_self,update_idem]
    rfl

end Agrees

end Xv6Container.Sched
