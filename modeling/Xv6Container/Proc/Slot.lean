import Mathlib.Tactic
import Xv6Container.Params

/-!
# The loops over the process table

The fields of `struct proc` that `proc.c` itself reads, and what `allocproc`, `wakeup1`, `kill`,
`exit` and `wait` do to them. The models of the process table add the fields that they need.
-/

namespace Xv6Container

inductive ProcState
  | UNUSED | EMBRYO | SLEEPING | RUNNABLE | RUNNING | ZOMBIE
  deriving DecidableEq, Repr

abbrev PSlot := Fin NPROC

def initproc : PSlot := ⟨0, nproc_pos⟩

/-- The address of a process slot, as a sleep channel. -/
def procChan (p : PSlot) : ℕ := p.val + 1

/-- What `wait` looks for in a slot. -/
structure Kin (n : ℕ) where
  state : ProcState
  parent : Option (Fin n)
  deriving DecidableEq

/-- What `sleep`, `wakeup` and `kill` use besides. -/
structure Slot (n : ℕ) (C : Type) extends Kin n where
  pid : ℤ
  /-- channel slept on, `none` for 0 -/
  chan : Option C
  killed : Bool
  deriving DecidableEq

/-- The value of an `int` variable that is counted up to `x`. -/
def wrapInt (x : ℤ) : ℤ := (x + 2 ^ 31) % 2 ^ 32 - 2 ^ 31

namespace Slot

open Function

variable {n : ℕ} {C : Type}

/-- The loop of `allocproc`. -/
def firstUnused (kin : Fin n → Kin n) : Option (Fin n) :=
  (List.finRange n).find? fun q => (kin q).state = .UNUSED

/-- The scan of `wait` for a child that has exited. -/
def zombieChild (kin : Fin n → Kin n) (p : Fin n) : Option (Fin n) :=
  (List.finRange n).find? fun q => (kin q).parent = some p && (kin q).state = .ZOMBIE

def haveKids (kin : Fin n → Kin n) (p : Fin n) : Bool :=
  (List.finRange n).any fun q => (kin q).parent = some p

/-- The body of the loop of `exit` that passes abandoned children to init. -/
def reparent (init p : Fin n) (x : Kin n) : Kin n :=
  { x with parent := if x.parent = some p then some init else x.parent }

/-- The body of the loop of `wakeup1`. -/
def wake1 [DecidableEq C] (chan : C) (x : Slot n C) : Slot n C :=
  if x.state = .SLEEPING ∧ x.chan = some chan then { x with state := .RUNNABLE } else x

/-- What `kill` does to the slot it finds. -/
def killSlot (x : Slot n C) : Slot n C :=
  { x with killed := true, state := if x.state = .SLEEPING then .RUNNABLE else x.state }

/-- What `wait` leaves of a child it has found. -/
def reap (x : Slot n C) : Slot n C :=
  { x with pid := 0, parent := none, killed := false, state := .UNUSED }

/-- The loop of `kill`: the first slot with the pid, whatever its state. -/
def findPid (slot : Fin n → Slot n C) (pid : ℤ) : Option (Fin n) :=
  (List.finRange n).find? fun q => (slot q).pid = pid

/-- The critical section of `kill`, and what it returns. -/
def kill (slot : Fin n → Slot n C) (pid : ℤ) : (Fin n → Slot n C) × ℤ :=
  match findPid slot pid with
  | some q => (update slot q (killSlot (slot q)), 0)
  | none => (slot, -1)

section Exit

-- the channel of a slot, and the slot of init
variable [DecidableEq C] (procChan : Fin n → C) (init : Fin n)

/-- The parent of an exiting process might be sleeping in `wait`. -/
def wakeParent (slot : Fin n → Slot n C) (p q : Fin n) : Slot n C :=
  match (slot p).parent with
  | some r => wake1 (procChan r) (slot q)
  | none => slot q

/-- Init is woken if it inherits a zombie. -/
def wakeInit (slot : Fin n → Slot n C) (p q : Fin n) : Slot n C :=
  if (zombieChild (fun r => (slot r).toKin) p).isSome then wake1 (procChan init) (slot q)
  else slot q

/-- The critical section of `exit` up to `sched`. -/
def exitSlots (slot : Fin n → Slot n C) (p q : Fin n) : Slot n C :=
  let x := wakeInit procChan init (wakeParent procChan slot p) p q
  { x with
    parent := (reparent init p x.toKin).parent
    state := if q = p then .ZOMBIE else x.state }

end Exit

variable {slot : Fin n → Slot n C} {x y z : Slot n C} {p q : Fin n}

theorem firstUnused_some {kin : Fin n → Kin n} (h : firstUnused kin = some q) :
    (kin q).state = .UNUSED := by
  simpa using List.find?_some h

theorem zombieChild_some {kin : Fin n → Kin n} (h : zombieChild kin p = some q) :
    (kin q).parent = some p ∧ (kin q).state = .ZOMBIE := by
  simpa using List.find?_some h

theorem haveKids_false {kin : Fin n → Kin n} (h : haveKids kin p = false) (q : Fin n) :
    (kin q).parent ≠ some p := by
  simpa using List.any_eq_false.mp h q (List.mem_finRange q)

theorem findPid_some {pid : ℤ} (h : findPid slot pid = some q) : (slot q).pid = pid := by
  simpa using List.find?_some h

theorem findPid_none {pid : ℤ} (h : findPid slot pid = none) (q : Fin n) : (slot q).pid ≠ pid := by
  simpa using List.find?_eq_none.mp h q (List.mem_finRange q)

/-- Nothing, or a wakeup, happened to the slot. -/
def Woken (x y : Slot n C) : Prop :=
  y = x ∨ x.state = .SLEEPING ∧ y = { x with state := .RUNNABLE }

theorem Woken.trans (h : Woken x y) (h' : Woken y z) : Woken x z := by
  rcases h with rfl | ⟨hx,rfl⟩
  · exact h'
  · rcases h' with rfl | ⟨hy,-⟩
    · exact .inr ⟨hx,rfl⟩
    · cases hy

theorem woken_wake1 [DecidableEq C] (chan : C) (x : Slot n C) : Woken x (wake1 chan x) := by
  rw [wake1]
  split
  · next h => exact .inr ⟨h.1,rfl⟩
  · exact .inl rfl

/-- What `exit` of process `p` wakes. -/
theorem woken_exit [DecidableEq C] (procChan : Fin n → C) (init : Fin n) (slot : Fin n → Slot n C)
    (p q : Fin n) :
    Woken (slot q) (wakeInit procChan init (wakeParent procChan slot p) p q) := by
  have hparent : Woken (slot q) (wakeParent procChan slot p q) := by
    rw [wakeParent]
    split
    · exact woken_wake1 _ _
    · exact .inl rfl
  refine hparent.trans ?_
  rw [wakeInit]
  split
  · exact woken_wake1 _ _
  · exact .inl rfl

/-- A process that is woken is in the same place of the table. -/
theorem Woken.same (h : Woken x y) :
    y.pid = x.pid ∧ y.parent = x.parent ∧ y.chan = x.chan ∧ y.killed = x.killed ∧
      (y.state = x.state ∨ x.state = .SLEEPING ∧ y.state = .RUNNABLE) := by
  rcases h with rfl | ⟨hx,rfl⟩
  · exact ⟨rfl,rfl,rfl,rfl,.inl rfl⟩
  · exact ⟨rfl,rfl,rfl,rfl,.inr ⟨hx,rfl⟩⟩

/-- `kill` changes `killed` of one slot, and wakes it. -/
theorem kill_slot (slot : Fin n → Slot n C) (pid : ℤ) (q : Fin n) :
    (kill slot pid).1 q = slot q ∨
      (slot q).pid = pid ∧ Woken { slot q with killed := true } ((kill slot pid).1 q) := by
  rw [kill]
  split
  · next r hr =>
    by_cases hq : q = r
    · subst hq
      refine .inr ⟨findPid_some hr,?_⟩
      show Woken _ (update slot q (killSlot (slot q)) q)
      rw [update_self,killSlot]
      split
      · next hs => exact .inr ⟨hs,rfl⟩
      · exact .inl rfl
    · exact .inl (update_of_ne hq _ _)
  · exact .inl rfl

end Slot

end Xv6Container
