import Xv6Container.Lib.Run
import Xv6Container.Proc.Table

/-!
# Kernel threads, sleep and wakeup

What a process does outside `proc.c` is a program: a point `x` of it says by `next` which
operation comes next. `sleep` and `wakeup` have a step for each lock they take or release and for
each store to the process table. The scheduler hands `ptable.lock` on to the process it picks.
-/

set_option linter.unusedSectionVars false

namespace Xv6Container.Threads

open Function Run
open Slot (wake1 killSlot findPid)

/-- A spinlock: `ptable.lock`, or one of those the programs use. -/
inductive Lk (L : Type)
  | ptable
  | other (l : L)
  deriving DecidableEq

/-- Who holds a spinlock. -/
inductive Holder (n : ℕ)
  | proc (p : Fin n)
  | scheduler
  deriving DecidableEq

/-- What a program does next, and the point where it goes on. -/
inductive Op (n : ℕ) (L C D X : Type)
  | acquire (l : Lk L) (k : X)
  | release (l : Lk L) (k : X)
  /-- stores and tests under the locks held -/
  | act (f : (Fin n → Slot n C) → D → (Fin n → Slot n C) × D × X)
  | sleep (chan : C) (lk : Lk L) (k : X)
  | wakeup (chan : C) (k : X)
  | sched (k : X)
  | stop

/-- Where a process is inside `sleep(chan, lk)`. -/
inductive SleepAt
  -- acquire(&ptable.lock), release(lk)
  | acquire | release
  -- p->chan = chan, p->state = SLEEPING, sched()
  | chan | state | sched
  -- not running
  | off
  -- p->chan = 0, release(&ptable.lock), acquire(lk)
  | tidy | unlock | reacquire
  deriving DecidableEq

/-- Where a process is inside `wakeup(chan)`: before the lock, or in the loop of `wakeup1` at slot
`i`. -/
inductive WakeAt
  | acquire
  | scan (i : ℕ)
  deriving DecidableEq

/-- Where a process is, and where its program goes on. -/
inductive Pc (L C X : Type)
  | caller (x : X)
  | sleep (ph : SleepAt) (chan : C) (lk : Lk L) (k : X)
  | wakeup (ph : WakeAt) (chan : C) (k : X)
  /-- in `sched`, called by the program -/
  | switched (k : X)

/-- The process table with its lock, the other locks and the data of the programs. -/
structure Machine (n : ℕ) (L C D X : Type) where
  slot : Fin n → Slot n C
  lock : Lk L → Option (Holder n)
  data : D
  pc : Fin n → Pc L C X

variable {n : ℕ} {L C D X : Type} [DecidableEq L] [DecidableEq C]

namespace Machine

def setPc (s : Machine n L C D X) (p : Fin n) (c : Pc L C X) : Machine n L C D X :=
  { s with pc := update s.pc p c }

def setLock (s : Machine n L C D X) (l : Lk L) (h : Option (Holder n)) : Machine n L C D X :=
  { s with lock := update s.lock l h }

def setSlot (s : Machine n L C D X) (p : Fin n) (x : Slot n C) : Machine n L C D X :=
  { s with slot := update s.slot p x }

variable (s : Machine n L C D X) (p : Fin n) (c : Pc L C X) (l : Lk L) (h : Option (Holder n))
  (x : Slot n C)

@[simp] theorem setPc_slot : (s.setPc p c).slot = s.slot := rfl
@[simp] theorem setPc_lock : (s.setPc p c).lock = s.lock := rfl
@[simp] theorem setPc_data : (s.setPc p c).data = s.data := rfl
@[simp] theorem setPc_pc : (s.setPc p c).pc = update s.pc p c := rfl
@[simp] theorem setLock_slot : (s.setLock l h).slot = s.slot := rfl
@[simp] theorem setLock_lock : (s.setLock l h).lock = update s.lock l h := rfl
@[simp] theorem setLock_data : (s.setLock l h).data = s.data := rfl
@[simp] theorem setLock_pc : (s.setLock l h).pc = s.pc := rfl
@[simp] theorem setSlot_slot : (s.setSlot p x).slot = update s.slot p x := rfl
@[simp] theorem setSlot_lock : (s.setSlot p x).lock = s.lock := rfl
@[simp] theorem setSlot_data : (s.setSlot p x).data = s.data := rfl
@[simp] theorem setSlot_pc : (s.setSlot p x).pc = s.pc := rfl

end Machine

/-- The next step of process `p`; `none` when it has to wait or is not running. -/
def run (next : Fin n → X → Op n L C D X) (s : Machine n L C D X) (p : Fin n) :
    Option (Machine n L C D X) :=
  match s.pc p with
  | .caller x =>
    match next p x with
    | .acquire l k =>
      if s.lock l = none then some ((s.setLock l (some (.proc p))).setPc p (.caller k)) else none
    | .release l k => some ((s.setLock l none).setPc p (.caller k))
    | .act f =>
      some { s with
        slot := (f s.slot s.data).1
        data := (f s.slot s.data).2.1
        pc := update s.pc p (.caller (f s.slot s.data).2.2) }
    | .sleep chan lk k =>
      some (s.setPc p (.sleep (if lk = .ptable then .chan else .acquire) chan lk k))
    | .wakeup chan k => some (s.setPc p (.wakeup .acquire chan k))
    | .sched k => some ((s.setLock .ptable (some .scheduler)).setPc p (.switched k))
    | .stop => none
  | .sleep .acquire chan lk k =>
    if s.lock .ptable = none then
      some ((s.setLock .ptable (some (.proc p))).setPc p (.sleep .release chan lk k))
    else none
  | .sleep .release chan lk k => some ((s.setLock lk none).setPc p (.sleep .chan chan lk k))
  | .sleep .chan chan lk k =>
    some ((s.setSlot p { s.slot p with chan := some chan }).setPc p (.sleep .state chan lk k))
  | .sleep .state chan lk k =>
    some ((s.setSlot p { s.slot p with state := .SLEEPING }).setPc p (.sleep .sched chan lk k))
  | .sleep .sched chan lk k =>
    some ((s.setLock .ptable (some .scheduler)).setPc p (.sleep .off chan lk k))
  | .sleep .off _ _ _ => none
  | .sleep .tidy chan lk k =>
    some ((s.setSlot p { s.slot p with chan := none }).setPc p
      (if lk = .ptable then .caller k else .sleep .unlock chan lk k))
  | .sleep .unlock chan lk k =>
    some ((s.setLock .ptable none).setPc p (.sleep .reacquire chan lk k))
  | .sleep .reacquire _ lk k =>
    if s.lock lk = none then some ((s.setLock lk (some (.proc p))).setPc p (.caller k)) else none
  | .wakeup .acquire chan k =>
    if s.lock .ptable = none then
      some ((s.setLock .ptable (some (.proc p))).setPc p (.wakeup (.scan 0) chan k))
    else none
  | .wakeup (.scan i) chan k =>
    if h : i < n then
      some ((s.setSlot ⟨i, h⟩ (wake1 chan (s.slot ⟨i, h⟩))).setPc p
        (.wakeup (.scan (i + 1)) chan k))
    else some ((s.setLock .ptable none).setPc p (.caller k))
  | .switched _ => none

/-- Where a process goes on when the scheduler switches to it. -/
def resume : Pc L C X → Option (Pc L C X)
  | .sleep .off chan lk k => some (.sleep .tidy chan lk k)
  | .switched k => some (.caller k)
  | _ => none

/-- The scheduler, holding `ptable.lock`, switches to the `RUNNABLE` process `p`. -/
def dispatch (s : Machine n L C D X) (p : Fin n) : Option (Machine n L C D X) :=
  if s.lock .ptable = some .scheduler ∧ (s.slot p).state = .RUNNABLE then
    (resume (s.pc p)).map fun c =>
      ((s.setSlot p { s.slot p with state := .RUNNING }).setLock .ptable
        (some (.proc p))).setPc p c
  else none

/-- What happens. A `kill` is one critical section of `ptable.lock`. -/
inductive Act (n : ℕ)
  | run (p : Fin n)
  | schedAcquire
  | dispatch (p : Fin n)
  | schedRelease
  | kill (pid : ℤ)

def step (next : Fin n → X → Op n L C D X) (s : Machine n L C D X) :
    Act n → Option (Machine n L C D X)
  | .run p => run next s p
  | .schedAcquire =>
    if s.lock .ptable = none then some (s.setLock .ptable (some .scheduler)) else none
  | .dispatch p => dispatch s p
  | .schedRelease =>
    if s.lock .ptable = some .scheduler then some (s.setLock .ptable none) else none
  | .kill pid =>
    if s.lock .ptable = none then some { s with slot := (Slot.kill s.slot pid).1 } else none

/-- Every process is `RUNNABLE` and about to start its program, for the first time at `forkret`,
with `ptable.lock` from the scheduler; no lock is held. -/
structure Start (s : Machine n L C D X) (x : Fin n → X) : Prop where
  runnable : ∀ p, (s.slot p).state = .RUNNABLE
  free : ∀ l, s.lock l = none
  pc : ∀ p, s.pc p = .switched (x p)

section Steps

variable {next : Fin n → X → Op n L C D X} {s t : Machine n L C D X} {p q : Fin n}

/-- One step of process `p`, by where it is. -/
inductive Move (next : Fin n → X → Op n L C D X) (s : Machine n L C D X) (p : Fin n) :
    Machine n L C D X → Prop
  | acquire {x k l} (hpc : s.pc p = .caller x) (hop : next p x = .acquire l k)
      (hfree : s.lock l = none) :
      Move next s p ((s.setLock l (some (.proc p))).setPc p (.caller k))
  | release {x k l} (hpc : s.pc p = .caller x) (hop : next p x = .release l k) :
      Move next s p ((s.setLock l none).setPc p (.caller k))
  | act {x f} (hpc : s.pc p = .caller x) (hop : next p x = .act f) :
      Move next s p { s with
        slot := (f s.slot s.data).1
        data := (f s.slot s.data).2.1
        pc := update s.pc p (.caller (f s.slot s.data).2.2) }
  | sleep {x k chan lk} (hpc : s.pc p = .caller x) (hop : next p x = .sleep chan lk k) :
      Move next s p (s.setPc p (.sleep (if lk = .ptable then .chan else .acquire) chan lk k))
  | wakeup {x k chan} (hpc : s.pc p = .caller x) (hop : next p x = .wakeup chan k) :
      Move next s p (s.setPc p (.wakeup .acquire chan k))
  | sched {x k} (hpc : s.pc p = .caller x) (hop : next p x = .sched k) :
      Move next s p ((s.setLock .ptable (some .scheduler)).setPc p (.switched k))
  | sleepAcquire {chan lk k} (hpc : s.pc p = .sleep .acquire chan lk k)
      (hfree : s.lock .ptable = none) :
      Move next s p ((s.setLock .ptable (some (.proc p))).setPc p (.sleep .release chan lk k))
  | sleepRelease {chan lk k} (hpc : s.pc p = .sleep .release chan lk k) :
      Move next s p ((s.setLock lk none).setPc p (.sleep .chan chan lk k))
  | sleepChan {chan lk k} (hpc : s.pc p = .sleep .chan chan lk k) :
      Move next s p ((s.setSlot p { s.slot p with chan := some chan }).setPc p
        (.sleep .state chan lk k))
  | sleepState {chan lk k} (hpc : s.pc p = .sleep .state chan lk k) :
      Move next s p ((s.setSlot p { s.slot p with state := .SLEEPING }).setPc p
        (.sleep .sched chan lk k))
  | sleepSched {chan lk k} (hpc : s.pc p = .sleep .sched chan lk k) :
      Move next s p ((s.setLock .ptable (some .scheduler)).setPc p (.sleep .off chan lk k))
  | sleepTidy {chan lk k} (hpc : s.pc p = .sleep .tidy chan lk k) :
      Move next s p ((s.setSlot p { s.slot p with chan := none }).setPc p
        (if lk = .ptable then .caller k else .sleep .unlock chan lk k))
  | sleepUnlock {chan lk k} (hpc : s.pc p = .sleep .unlock chan lk k) :
      Move next s p ((s.setLock .ptable none).setPc p (.sleep .reacquire chan lk k))
  | sleepReacquire {chan lk k} (hpc : s.pc p = .sleep .reacquire chan lk k)
      (hfree : s.lock lk = none) :
      Move next s p ((s.setLock lk (some (.proc p))).setPc p (.caller k))
  | wakeAcquire {chan k} (hpc : s.pc p = .wakeup .acquire chan k)
      (hfree : s.lock .ptable = none) :
      Move next s p ((s.setLock .ptable (some (.proc p))).setPc p (.wakeup (.scan 0) chan k))
  | wakeScan {i chan k} (hpc : s.pc p = .wakeup (.scan i) chan k) (h : i < n) :
      Move next s p ((s.setSlot ⟨i, h⟩ (wake1 chan (s.slot ⟨i, h⟩))).setPc p
        (.wakeup (.scan (i + 1)) chan k))
  | wakeRelease {i chan k} (hpc : s.pc p = .wakeup (.scan i) chan k) (h : ¬i < n) :
      Move next s p ((s.setLock .ptable none).setPc p (.caller k))

theorem Move.of_run (h : run next s p = some t) : Move next s p t := by
  rw [run.eq_def] at h
  split at h
  · next x hpc =>
    split at h
    · next l k hop =>
      split at h
      · next hfree => cases h; exact .acquire hpc hop hfree
      · cases h
    · next l k hop => cases h; exact .release hpc hop
    · next f hop => cases h; exact .act hpc hop
    · next chan lk k hop => cases h; exact .sleep hpc hop
    · next chan k hop => cases h; exact .wakeup hpc hop
    · next k hop => cases h; exact .sched hpc hop
    · cases h
  · next hpc =>
    split at h
    · next hfree => cases h; exact .sleepAcquire hpc hfree
    · cases h
  · next hpc => cases h; exact .sleepRelease hpc
  · next hpc => cases h; exact .sleepChan hpc
  · next hpc => cases h; exact .sleepState hpc
  · next hpc => cases h; exact .sleepSched hpc
  · cases h
  · next hpc => cases h; exact .sleepTidy hpc
  · next hpc => cases h; exact .sleepUnlock hpc
  · next hpc =>
    split at h
    · next hfree => cases h; exact .sleepReacquire hpc hfree
    · cases h
  · next hpc =>
    split at h
    · next hfree => cases h; exact .wakeAcquire hpc hfree
    · cases h
  · next hpc =>
    split at h
    · next hi => cases h; exact .wakeScan hpc hi
    · next hi => cases h; exact .wakeRelease hpc hi
  · cases h

theorem dispatch_cases (h : dispatch s p = some t) :
    s.lock .ptable = some .scheduler ∧ (s.slot p).state = .RUNNABLE ∧
      ∃ c, resume (s.pc p) = some c ∧
        t = ((s.setSlot p { s.slot p with state := .RUNNING }).setLock .ptable
          (some (.proc p))).setPc p c := by
  rw [dispatch] at h
  split at h
  · next hc =>
    obtain ⟨c,hr,rfl⟩ := Option.map_eq_some_iff.mp h
    exact ⟨hc.1,hc.2,c,hr,rfl⟩
  · cases h

theorem resume_cases {c c' : Pc L C X} (h : resume c = some c') :
    (∃ chan lk k, c = .sleep .off chan lk k ∧ c' = .sleep .tidy chan lk k) ∨
      ∃ k, c = .switched k ∧ c' = .caller k := by
  rw [resume.eq_def] at h
  split at h
  · cases h; exact .inl ⟨_,_,_,rfl,rfl⟩
  · cases h; exact .inr ⟨_,rfl,rfl⟩
  · cases h

theorem step_cases {a : Act n} (h : step next s a = some t) :
    (∃ p, a = .run p ∧ Move next s p t) ∨
    (a = .schedAcquire ∧ s.lock .ptable = none ∧ t = s.setLock .ptable (some .scheduler)) ∨
    (∃ p, a = .dispatch p ∧ s.lock .ptable = some .scheduler ∧ (s.slot p).state = .RUNNABLE ∧
      ∃ c, resume (s.pc p) = some c ∧
        t = ((s.setSlot p { s.slot p with state := .RUNNING }).setLock .ptable
          (some (.proc p))).setPc p c) ∨
    (a = .schedRelease ∧ s.lock .ptable = some .scheduler ∧ t = s.setLock .ptable none) ∨
    ∃ pid, a = .kill pid ∧ s.lock .ptable = none ∧
      ((findPid s.slot pid = none ∧ t = s) ∨
        ∃ q, findPid s.slot pid = some q ∧ t = s.setSlot q (killSlot (s.slot q))) := by
  cases a with
  | run p => exact .inl ⟨p,rfl,.of_run h⟩
  | schedAcquire =>
    rw [step] at h
    split at h
    · next hl => cases h; exact .inr (.inl ⟨rfl,hl,rfl⟩)
    · cases h
  | dispatch p => exact .inr (.inr (.inl ⟨p,rfl,dispatch_cases h⟩))
  | schedRelease =>
    rw [step] at h
    split at h
    · next hl => cases h; exact .inr (.inr (.inr (.inl ⟨rfl,hl,rfl⟩)))
    · cases h
  | kill pid =>
    refine .inr (.inr (.inr (.inr ⟨pid,rfl,?_⟩)))
    rw [step] at h
    split at h
    · next hl =>
      refine ⟨hl,?_⟩
      cases h
      rw [Slot.kill]
      split
      · next q hq => exact .inr ⟨q,hq,rfl⟩
      · next hn => exact .inl ⟨hn,rfl⟩
    · cases h

theorem data_invariant {P : D → Prop}
    (hact : ∀ p x f, next p x = .act f → ∀ slot d, P d → P (f slot d).2.1)
    (hs : P s.data) {acts : List (Act n)} (hrun : exec (step next) s acts = some t) : P t.data := by
  refine exec_invariant (I := fun u => P u.data) (fun u a u' hu h => ?_) hs hrun
  obtain ⟨p,-,hm⟩ | ⟨-,-,rfl⟩ | ⟨p,-,-,-,c,-,rfl⟩ | ⟨-,-,rfl⟩ | ⟨pid,-,-,hk⟩ :=
    step_cases h
  · cases hm with
    | act hpc hop => exact hact _ _ _ hop _ _ hu
    | _ => exact hu
  · exact hu
  · exact hu
  · exact hu
  · obtain ⟨-,rfl⟩ | ⟨q,-,rfl⟩ := hk
    · exact hu
    · exact hu

end Steps

/-- What an operation at point `x` does with the one lock that `held` says the program has: it takes
one when it has none, passes it to `sleep`, and keeps it over everything else. An `act` puts nobody
to sleep. -/
def Op.Locked (held : X → Option (Lk L)) (x : X) : Op n L C D X → Prop
  | .acquire l k => held x = none ∧ held k = some l
  | .release l k => held x = some l ∧ held k = none
  | .act f => ∀ slot d, held (f slot d).2.2 = held x ∧
      ∀ q, ((f slot d).1 q).chan = (slot q).chan ∧
        (((f slot d).1 q).state = .SLEEPING → (slot q).state = .SLEEPING)
  | .sleep _ lk k => held x = some lk ∧ held k = some lk
  | .wakeup _ k => held x ≠ some .ptable ∧ held k = held x
  | .sched k => held x = some .ptable ∧ held k = some .ptable
  | .stop => True

/-- The program takes and releases its locks in order. -/
def Locking (next : Fin n → X → Op n L C D X) (held : X → Option (Lk L)) : Prop :=
  ∀ p x, (next p x).Locked held x

theorem Locking.op {next : Fin n → X → Op n L C D X} {held : X → Option (Lk L)}
    (hd : Locking next held) {p : Fin n} {x : X} {o : Op n L C D X} (hop : next p x = o) :
    o.Locked held x := hop ▸ hd p x

/-- The locks a process holds, by where it is. -/
def Pc.Holds (held : X → Option (Lk L)) : Pc L C X → Lk L → Prop
  | .caller x, l => held x = some l
  | .sleep .acquire _ lk _, l => l = lk
  | .sleep .release _ lk _, l => l = lk ∨ l = .ptable
  | .sleep .chan _ _ _, l | .sleep .state _ _ _, l | .sleep .sched _ _ _, l
  | .sleep .tidy _ _ _, l | .sleep .unlock _ _ _, l => l = .ptable
  | .sleep .off _ _ _, _ | .sleep .reacquire _ _ _, _ => False
  | .wakeup .acquire _ k, l => held k = some l
  | .wakeup (.scan _) _ k, l => held k = some l ∨ l = .ptable
  | .switched _, _ => False

/-- The phases of `sleep` that deal with a lock other than `ptable.lock`. -/
def SleepAt.juggles : SleepAt → Bool
  | acquire | release | unlock | reacquire => true
  | _ => false

/-- What a program counter says about its continuation. -/
def Pc.Wf (held : X → Option (Lk L)) : Pc L C X → Prop
  | .caller _ => True
  | .sleep ph _ lk k => held k = some lk ∧ (ph.juggles = true → lk ≠ .ptable)
  | .wakeup _ _ k => held k ≠ some .ptable
  | .switched k => held k = some .ptable

/-- Who holds which lock is what the program counters say. -/
structure LockInv (held : X → Option (Lk L)) (s : Machine n L C D X) : Prop where
  holds : ∀ p l, s.lock l = some (.proc p) ↔ (s.pc p).Holds held l
  wf : ∀ p, (s.pc p).Wf held

section LockInv

variable {next : Fin n → X → Op n L C D X} {held : X → Option (Lk L)}
  {s t : Machine n L C D X} {p q : Fin n} {c : Pc L C X} {l : Lk L}

theorem LockInv.mutex (h : LockInv held s) (hp : (s.pc p).Holds held l)
    (hq : (s.pc q).Holds held l) : p = q := by
  have hp := (h.holds p l).mpr hp
  have hq := (h.holds q l).mpr hq
  rw [hp] at hq
  cases hq
  rfl

theorem LockInv.not_holds (h : LockInv held s) (hl : ∀ p, s.lock l ≠ some (.proc p)) :
    ¬(s.pc p).Holds held l := fun hp => hl p ((h.holds p l).mpr hp)

theorem forall_pc {P : Fin n → Pc L C X → Prop} (hpc : t.pc = update s.pc p c)
    (hs : ∀ q, P q (s.pc q)) (hc : P p c) (q : Fin n) : P q (t.pc q) := by
  rw [hpc]
  exact (forall_update_iff s.pc P).mpr ⟨hc,fun q _ => hs q⟩ q

theorem LockInv.stay (h : LockInv held s) (hl : t.lock = s.lock)
    (hpc : t.pc = update s.pc p c) (hwf : c.Wf held)
    (hc : ∀ l, c.Holds held l ↔ (s.pc p).Holds held l) : LockInv held t := by
  refine ⟨fun q l => ?_,forall_pc hpc h.wf hwf⟩
  rw [hl]
  exact forall_pc (P := fun q c => s.lock l = some (.proc q) ↔ c.Holds held l) hpc
    (fun q => h.holds q l) ((h.holds p l).trans (hc l).symm) q

theorem LockInv.take (h : LockInv held s) (hl : t.lock = update s.lock l (some (.proc p)))
    (hpc : t.pc = update s.pc p c) (hwf : c.Wf held) (hfree : ∀ q, s.lock l ≠ some (.proc q))
    (hc : ∀ l', c.Holds held l' ↔ (s.pc p).Holds held l' ∨ l' = l) : LockInv held t := by
  refine ⟨fun q l' => ?_,forall_pc hpc h.wf hwf⟩
  rw [hl,hpc]
  by_cases hq : q = p
  · subst hq
    rw [update_self,hc,← h.holds q l']
    by_cases hl' : l' = l
    · subst hl'
      simp
    · simp [hl']
  rw [update_of_ne hq]
  by_cases hl' : l' = l
  · subst hl'
    rw [update_self]
    refine iff_of_false (fun e => hq ?_) (h.not_holds hfree)
    cases e
    rfl
  · rw [update_of_ne hl',h.holds q l']

theorem LockInv.drop (h : LockInv held s) {o : Option (Holder n)} (hl : t.lock = update s.lock l o)
    (hpc : t.pc = update s.pc p c) (hwf : c.Wf held) (ho : ∀ q, o ≠ some (.proc q))
    (hhad : (s.pc p).Holds held l)
    (hc : ∀ l', c.Holds held l' ↔ (s.pc p).Holds held l' ∧ l' ≠ l) : LockInv held t := by
  refine ⟨fun q l' => ?_,forall_pc hpc h.wf hwf⟩
  rw [hl,hpc]
  by_cases hl' : l' = l
  · subst hl'
    rw [update_self]
    refine iff_of_false (ho q) ?_
    by_cases hq : q = p
    · subst hq
      rw [update_self,hc]
      exact fun h => h.2 rfl
    · rw [update_of_ne hq]
      exact fun hh => hq (h.mutex hh hhad)
  · rw [update_of_ne hl']
    by_cases hq : q = p
    · subst hq
      rw [update_self,hc,h.holds q l']
      simp [hl']
    · rw [update_of_ne hq,h.holds q l']

theorem LockInv.move (h : LockInv held s) (hd : Locking next held) (hm : Move next s p t) :
    LockInv held t := by
  have hwf := h.wf p
  have hfree : ∀ {l : Lk L}, s.lock l = none → ∀ q, s.lock l ≠ some (.proc q) := by
    intro l hl q
    rw [hl]
    simp
  cases hm with
  | acquire hpc hop hl =>
    obtain ⟨hx,hk⟩ := hd.op hop
    refine h.take rfl rfl trivial (hfree hl) fun l' => ?_
    simp only [hpc,Pc.Holds,hx,hk]
    simp [eq_comm]
  | release hpc hop =>
    obtain ⟨hx,hk⟩ := hd.op hop
    refine h.drop rfl rfl trivial (by simp) ?_ fun l' => ?_
    · simp only [hpc,Pc.Holds,hx]
    · simp only [hpc,Pc.Holds,hx,hk]
      simp [eq_comm]
  | act hpc hop =>
    refine h.stay rfl rfl trivial fun l' => ?_
    simp only [hpc,Pc.Holds,(hd.op hop s.slot s.data).1]
  | sleep hpc hop =>
    obtain ⟨hx,hk⟩ := hd.op hop
    refine h.stay rfl rfl ?_ fun l' => ?_
    · refine ⟨hk,fun hj e => ?_⟩
      rw [if_pos e] at hj
      cases hj
    · split
      · next e =>
        simp only [hpc,Pc.Holds,hx,e,Option.some.injEq,eq_comm]
      · simp only [hpc,Pc.Holds,hx,Option.some.injEq,eq_comm]
  | wakeup hpc hop =>
    obtain ⟨hx,hk⟩ := hd.op hop
    refine h.stay rfl rfl ?_ fun l' => ?_
    · simp only [Pc.Wf,hk]
      exact hx
    · simp only [hpc,Pc.Holds,hk]
  | sched hpc hop =>
    obtain ⟨hx,hk⟩ := hd.op hop
    refine h.drop rfl rfl hk (by simp) ?_ fun l' => ?_
    · simp only [hpc,Pc.Holds,hx]
    · simp only [hpc,Pc.Holds,hx]
      simp [eq_comm]
  | sleepAcquire hpc hl =>
    rw [hpc] at hwf
    refine h.take rfl rfl ⟨hwf.1,fun _ => hwf.2 rfl⟩ (hfree hl) fun l' => ?_
    simp only [hpc,Pc.Holds]
  | sleepRelease hpc =>
    rw [hpc] at hwf
    have hne := hwf.2 rfl
    refine h.drop rfl rfl ⟨hwf.1,fun hj => by cases hj⟩ (by simp) ?_ fun l' => ?_
    · simp only [hpc,Pc.Holds,true_or]
    · simp only [hpc,Pc.Holds]
      constructor
      · rintro rfl
        exact ⟨.inr rfl,fun e => hne e.symm⟩
      · rintro ⟨rfl | rfl,he⟩
        · exact absurd rfl he
        · rfl
  | sleepChan hpc | sleepState hpc =>
    rw [hpc] at hwf
    refine h.stay rfl rfl ⟨hwf.1,fun hj => by cases hj⟩ fun l' => ?_
    simp only [hpc,Pc.Holds]
  | sleepSched hpc =>
    rw [hpc] at hwf
    refine h.drop rfl rfl ⟨hwf.1,fun hj => by cases hj⟩ (by simp) ?_ fun l' => ?_
    · simp only [hpc,Pc.Holds]
    · simp only [hpc,Pc.Holds]
      simp
  | sleepTidy hpc =>
    rw [hpc] at hwf
    refine h.stay rfl rfl ?_ fun l' => ?_
    · split
      · trivial
      · next hne => exact ⟨hwf.1,fun _ => hne⟩
    · split
      · next e =>
        simp only [hpc,Pc.Holds,hwf.1,e,Option.some.injEq,eq_comm]
      · simp only [hpc,Pc.Holds]
  | sleepUnlock hpc =>
    rw [hpc] at hwf
    refine h.drop rfl rfl ⟨hwf.1,fun _ => hwf.2 rfl⟩ (by simp) ?_ fun l' => ?_
    · simp only [hpc,Pc.Holds]
    · simp only [hpc,Pc.Holds]
      simp
  | sleepReacquire hpc hl =>
    rw [hpc] at hwf
    refine h.take rfl rfl trivial (hfree hl) fun l' => ?_
    simp only [hpc,Pc.Holds,hwf.1]
    simp [eq_comm]
  | wakeAcquire hpc hl =>
    rw [hpc] at hwf
    refine h.take rfl rfl hwf (hfree hl) fun l' => ?_
    simp only [hpc,Pc.Holds]
  | wakeScan hpc hi =>
    rw [hpc] at hwf
    refine h.stay rfl rfl hwf fun l' => ?_
    simp only [hpc,Pc.Holds]
  | wakeRelease hpc hi =>
    rw [hpc] at hwf
    refine h.drop rfl rfl trivial (by simp) ?_ fun l' => ?_
    · simp only [hpc,Pc.Holds,or_true]
    simp only [hpc,Pc.Holds]
    constructor
    · intro hk
      refine ⟨.inl hk,?_⟩
      rintro rfl
      exact hwf hk
    · rintro ⟨hk | rfl,he⟩
      · exact hk
      · exact absurd rfl he

theorem LockInv.scheduler (h : LockInv held s) {o : Option (Holder n)}
    (hs : ∀ q, s.lock .ptable ≠ some (.proc q)) (ho : ∀ q, o ≠ some (.proc q)) :
    LockInv held (s.setLock .ptable o) := by
  refine ⟨fun q l => ?_,h.wf⟩
  by_cases hl : l = .ptable
  · subst hl
    simp only [Machine.setLock_lock,update_self,Machine.setLock_pc]
    exact iff_of_false (ho q) (h.not_holds hs)
  · simp only [Machine.setLock_lock,update_of_ne hl,Machine.setLock_pc]
    exact h.holds q l

theorem LockInv.step (h : LockInv held s) (hd : Locking next held) {a : Act n}
    (hs : step next s a = some t) : LockInv held t := by
  obtain ⟨p,-,hm⟩ | ⟨-,hl,rfl⟩ | ⟨p,-,hl,-,c,hr,rfl⟩ | ⟨-,hl,rfl⟩ | ⟨pid,-,-,hk⟩ :=
    step_cases hs
  · exact h.move hd hm
  · exact h.scheduler (by simp [hl]) (by simp)
  · have hwf := h.wf p
    have hfree : ∀ q, s.lock .ptable ≠ some (.proc q) := by simp [hl]
    obtain ⟨chan,lk,k,hpc,rfl⟩ | ⟨k,hpc,rfl⟩ := resume_cases hr
    · rw [hpc] at hwf
      refine h.take rfl rfl ⟨hwf.1,fun hj => by cases hj⟩ hfree fun l' => ?_
      simp only [hpc,Pc.Holds,false_or]
    · rw [hpc] at hwf
      refine h.take rfl rfl trivial hfree fun l' => ?_
      simp only [hpc,Pc.Holds,false_or]
      rw [show held k = some .ptable from hwf]
      simp [eq_comm]
  · exact h.scheduler (by simp [hl]) (by simp)
  · obtain ⟨-,rfl⟩ | ⟨q,-,rfl⟩ := hk
    · exact h
    · exact ⟨h.holds,h.wf⟩

theorem Start.lockInv {x : Fin n → X} (h : Start s x) (hx : ∀ p, held (x p) = some .ptable) :
    LockInv held s := by
  refine ⟨fun p l => ?_,fun p => ?_⟩
  · rw [h.free l,h.pc p]
    simp [Pc.Holds]
  · rw [h.pc p]
    exact hx p

end LockInv

/-- Not between the store of `SLEEPING` and the return of `sched` in `sleep`. -/
def Pc.awake : Pc L C X → Bool
  | .sleep .sched _ _ _ | .sleep .off _ _ _ => false
  | _ => true

/-- A `SLEEPING` process is inside `sleep`, past its store to `p->state`, and `p->chan` is the
channel it sleeps on. -/
structure SleepInv (s : Machine n L C D X) : Prop where
  chan : ∀ {p chan lk k}, s.pc p = .sleep .state chan lk k → (s.slot p).chan = some chan
  asleep : ∀ {p}, (s.slot p).state = .SLEEPING → ∃ ph chan lk k,
    s.pc p = .sleep ph chan lk k ∧ (ph = .sched ∨ ph = .off) ∧ (s.slot p).chan = some chan

section SleepInv

variable {next : Fin n → X → Op n L C D X} {held : X → Option (Lk L)}
  {s t : Machine n L C D X} {p q : Fin n} {c : Pc L C X}

@[simp] theorem wake1_chan (chan : C) (x : Slot n C) : (wake1 chan x).chan = x.chan := by
  rw [wake1]
  split <;> rfl

@[simp] theorem wake1_killed (chan : C) (x : Slot n C) : (wake1 chan x).killed = x.killed := by
  rw [wake1]
  split <;> rfl

theorem wake1_sleeping {chan : C} {x : Slot n C} (h : (wake1 chan x).state = .SLEEPING) :
    x.state = .SLEEPING ∧ x.chan ≠ some chan := by
  rw [wake1] at h
  split at h
  · cases h
  · next hne => exact ⟨h,fun e => hne ⟨h,e⟩⟩

theorem killSlot_not_sleeping (x : Slot n C) : (killSlot x).state ≠ .SLEEPING := by
  simp only [killSlot]
  split
  · simp
  · assumption

theorem SleepInv.not_sleeping (h : SleepInv s) (hpc : (s.pc p).awake = true) :
    (s.slot p).state ≠ .SLEEPING := by
  intro hs
  obtain ⟨ph,chan,lk,k,hp,rfl | rfl,-⟩ := h.asleep hs
  · rw [hp] at hpc
    cases hpc
  · rw [hp] at hpc
    cases hpc

/-- What a step of `p` does to the process table: nobody else gets another channel, and who sleeps
afterwards has slept on the same channel, or is `p` at its store to `p->state`. -/
structure Shift (p : Fin n) (s t : Machine n L C D X) : Prop where
  chan : ∀ q, q ≠ p → (t.slot q).chan = (s.slot q).chan
  sleeping : ∀ q, (t.slot q).state = .SLEEPING → (t.slot q).chan = (s.slot q).chan ∧
    ((s.slot q).state = .SLEEPING ∨ q = p ∧ ∃ chan lk k, s.pc p = .sleep .state chan lk k)

theorem Shift.of_slot (h : t.slot = s.slot) : Shift p s t :=
  ⟨fun q _ => by rw [h],fun q hq => ⟨by rw [h],.inl (h ▸ hq)⟩⟩

/-- A store to the slot of `p` itself, which does not sleep and is not put to sleep. -/
theorem Shift.of_own {x : Slot n C} (h : t.slot = update s.slot p x) (hx : x.state ≠ .SLEEPING) :
    Shift p s t := by
  have hne : ∀ q, q ≠ p → t.slot q = s.slot q := fun q hq => by rw [h,update_of_ne hq]
  refine ⟨fun q hq => by rw [hne q hq],fun q hq => ?_⟩
  have hqp : q ≠ p := by
    rintro rfl
    rw [h,update_self] at hq
    exact hx hq
  rw [hne q hqp] at hq ⊢
  exact ⟨rfl,.inl hq⟩

theorem Move.shift (hm : Move next s p t) (h : SleepInv s) (hd : Locking next held) :
    Shift p s t := by
  cases hm with
  | act hpc hop =>
    have hslot := (hd.op hop s.slot s.data).2
    exact ⟨fun q _ => (hslot q).1,fun q hq => ⟨(hslot q).1,.inl ((hslot q).2 hq)⟩⟩
  | sleepChan hpc | sleepTidy hpc =>
    have hn := h.not_sleeping (p := p) (by rw [hpc]; rfl)
    exact .of_own rfl hn
  | sleepState hpc =>
    refine ⟨fun q hq => by simp [update_of_ne hq],fun q hq => ?_⟩
    by_cases hqp : q = p
    · subst hqp
      exact ⟨by simp,.inr ⟨rfl,_,_,_,hpc⟩⟩
    · simp only [Machine.setPc_slot,Machine.setSlot_slot,update_of_ne hqp] at hq ⊢
      exact ⟨trivial,.inl hq⟩
  | @wakeScan i chan k hpc hi =>
    have hwake := (forall_update_iff s.slot fun q x => x.chan = (s.slot q).chan ∧
      (x.state = .SLEEPING → (s.slot q).state = .SLEEPING)).mpr
        ⟨⟨wake1_chan chan (s.slot ⟨i,hi⟩),fun hq => (wake1_sleeping hq).1⟩,fun _ _ => ⟨rfl,id⟩⟩
    exact ⟨fun q _ => (hwake q).1,fun q hq => ⟨(hwake q).1,.inl ((hwake q).2 hq)⟩⟩
  | _ => exact .of_slot rfl

theorem SleepInv.shift (h : SleepInv s) (hs : Shift p s t) (hpc : t.pc = update s.pc p c)
    (hc : ∀ chan lk k, c = .sleep .state chan lk k → (t.slot p).chan = some chan)
    (hp : (t.slot p).state = .SLEEPING → ∃ ph chan lk k, c = .sleep ph chan lk k ∧
      (ph = .sched ∨ ph = .off) ∧ (t.slot p).chan = some chan) : SleepInv t := by
  have hself : t.pc p = c := by rw [hpc,update_self]
  have hne : ∀ q, q ≠ p → t.pc q = s.pc q := fun q hq => by rw [hpc,update_of_ne hq]
  refine ⟨fun {q chan lk k} hq => ?_,fun {q} hq => ?_⟩
  · by_cases hqp : q = p
    · subst hqp
      exact hc _ _ _ (hself.symm.trans hq)
    · rw [hs.chan q hqp]
      exact h.chan ((hne q hqp).symm.trans hq)
  · by_cases hqp : q = p
    · subst hqp
      rw [hself]
      exact hp hq
    · obtain ⟨hchan,hq⟩ := hs.sleeping q hq
      rw [hne q hqp,hchan]
      exact h.asleep (hq.resolve_right fun e => hqp e.1)

theorem SleepInv.move (h : SleepInv s) (hd : Locking next held) (hm : Move next s p t) :
    SleepInv t := by
  have hs := hm.shift h hd
  -- who is awake and not at the store to `p->state` does not fall asleep
  have hwake : (s.pc p).awake = true → (∀ chan lk k, s.pc p ≠ .sleep .state chan lk k) →
      (t.slot p).state ≠ .SLEEPING := by
    intro ha hn hq
    obtain ⟨-,hq | ⟨-,chan,lk,k,hpc⟩⟩ := hs.sleeping p hq
    · exact h.not_sleeping ha hq
    · exact hn _ _ _ hpc
  cases hm with
  | sleepChan hpc =>
    refine h.shift hs rfl (fun chan lk k e => ?_)
      fun hq => absurd hq (hwake (by rw [hpc]; rfl) (by simp [hpc]))
    cases e
    simp
  | sleepState hpc =>
    exact h.shift hs rfl (by simp) fun _ => ⟨_,_,_,_,rfl,.inl rfl,by simpa using h.chan hpc⟩
  | sleepSched hpc =>
    refine h.shift hs rfl (by simp) fun hq => ?_
    obtain ⟨ph,chan,lk,k,hp,-,hch⟩ := h.asleep hq
    rw [hpc] at hp
    cases hp
    exact ⟨_,_,_,_,rfl,.inr rfl,hch⟩
  | sleep hpc _ | sleepTidy hpc =>
    refine h.shift hs rfl (fun _ _ _ e => ?_)
      fun hq => absurd hq (hwake (by rw [hpc]; rfl) (by simp [hpc]))
    split at e <;> cases e
  | acquire hpc _ _ | release hpc _ | act hpc _ | wakeup hpc _ | sched hpc _ | sleepAcquire hpc _
  | sleepRelease hpc | sleepUnlock hpc | sleepReacquire hpc _ | wakeAcquire hpc _
  | wakeScan hpc _ | wakeRelease hpc _ =>
    exact h.shift hs rfl (by simp)
      fun hq => absurd hq (hwake (by rw [hpc]; rfl) (by simp [hpc]))

theorem SleepInv.step (h : SleepInv s) (hd : Locking next held) {a : Act n}
    (hs : step next s a = some t) : SleepInv t := by
  obtain ⟨p,-,hm⟩ | ⟨-,hl,rfl⟩ | ⟨p,-,hl,hrun,c,hr,rfl⟩ | ⟨-,hl,rfl⟩ | ⟨pid,-,-,hk⟩ :=
    step_cases hs
  · exact h.move hd hm
  · exact ⟨h.chan,h.asleep⟩
  · refine h.shift (p := p) (.of_own rfl (by simp)) rfl (fun chan lk k e => ?_) (by simp)
    obtain ⟨_,_,_,-,rfl⟩ | ⟨_,-,rfl⟩ := resume_cases hr <;> cases e
  · exact ⟨h.chan,h.asleep⟩
  obtain ⟨-,rfl⟩ | ⟨q,-,rfl⟩ := hk
  · exact h
  have hchan : ∀ r, ((s.setSlot q (killSlot (s.slot q))).slot r).chan = (s.slot r).chan :=
    (forall_update_iff s.slot fun r x => x.chan = (s.slot r).chan).mpr ⟨rfl,fun _ _ => rfl⟩
  refine ⟨fun {r chan lk k} hr => (hchan r).trans (h.chan hr),fun {r} hr => ?_⟩
  have hrq : r ≠ q := by
    rintro rfl
    simp only [Machine.setSlot_slot,update_self] at hr
    exact killSlot_not_sleeping _ hr
  rw [hchan r]
  simp only [Machine.setSlot_slot,update_of_ne hrq] at hr
  exact h.asleep hr

theorem Start.sleepInv {x : Fin n → X} (h : Start s x) : SleepInv s := by
  refine ⟨fun {p chan lk k} hp => ?_,fun {p} hp => ?_⟩
  · rw [h.pc p] at hp
    cases hp
  · rw [h.runnable p] at hp
    cases hp

end SleepInv

end Xv6Container.Threads
