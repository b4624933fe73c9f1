import Xv6Container.Proc.Pipe

/-!
# Killed processes and sleep

`kill` takes only `ptable.lock`, and all calls except `wait` test `killed` under another lock.
Between the test and the `acquire` in `sleep` a `kill` goes unnoticed.
-/

set_option linter.unusedSectionVars false

namespace Xv6Container.Threads

open Function Run
open Slot (killSlot findPid)

variable {n : ℕ} {L C D X : Type} [DecidableEq L] [DecidableEq C]

/-- What an operation of process `p` at point `x` has to do with a test of `killed` that holds at
the points `tested`: every sleep comes after a test, and nobody is marked as killed by the way. -/
def Op.Guarded (tested : X → Prop) (p : Fin n) (x : X) : Op n L C D X → Prop
  | .acquire _ k | .release _ k | .sched k => ¬tested k
  | .act f => ∀ slot d, (tested (f slot d).2.2 → (slot p).killed = false) ∧
      ∀ q, ((f slot d).1 q).killed = true → (slot q).killed = true
  | .sleep _ _ k => tested x ∧ ¬tested k
  | .wakeup _ k => tested k → tested x
  | .stop => True

/-- Past the test of `killed` and not yet asleep, by where a process is. -/
def Pc.Past (tested : X → Prop) : Pc L C X → Prop
  | .caller x => tested x
  | .wakeup _ _ k => tested k
  | .sleep .acquire _ _ _ | .sleep .release _ _ _ | .sleep .chan _ _ _
  | .sleep .state _ _ _ => True
  | _ => False

/-- After a sleep or a switch the test is made again. -/
def Pc.Again (tested : X → Prop) : Pc L C X → Prop
  | .sleep _ _ _ k | .switched k => ¬tested k
  | _ => True

/-- Past the test of `killed`, with `ptable.lock` still to be taken in `sleep`. -/
def Pc.Window (tested : X → Prop) : Pc L C X → Prop
  | .caller x => tested x
  | .wakeup _ _ k => tested k
  | .sleep .acquire _ _ _ => True
  | _ => False

instance (tested : X → Prop) [DecidablePred tested] (pc : Pc L C X) :
    Decidable (pc.Window tested) :=
  match pc with
  | .caller x => inferInstanceAs (Decidable (tested x))
  | .wakeup _ _ k => inferInstanceAs (Decidable (tested k))
  | .sleep .acquire _ _ _ => isTrue trivial
  | .sleep .release _ _ _ | .sleep .chan _ _ _ | .sleep .state _ _ _ | .sleep .sched _ _ _
  | .sleep .off _ _ _ | .sleep .tidy _ _ _ | .sleep .unlock _ _ _ | .sleep .reacquire _ _ _
  | .switched _ => isFalse id

/-- A `kill` does not fall into the window of its target. -/
def OutsideWindow (tested : X → Prop) (s : Machine n L C D X) : Act n → Prop
  | .kill pid => ∀ q, findPid s.slot pid = some q → ¬(s.pc q).Window tested
  | _ => True

instance (tested : X → Prop) [DecidablePred tested] (s : Machine n L C D X) :
    DecidablePred (OutsideWindow tested s)
  | .kill pid => inferInstanceAs (Decidable (∀ q, findPid s.slot pid = some q →
      ¬(s.pc q).Window tested))
  | .run _ | .schedAcquire | .dispatch _ | .schedRelease => isTrue trivial

/-- Who has passed the test or sleeps is not killed. -/
structure KilledInv (held : X → Option (Lk L)) (tested : X → Prop) (s : Machine n L C D X) :
    Prop where
  locks : LockInv held s
  sleepers : SleepInv s
  past : ∀ p, (s.pc p).Past tested → (s.slot p).killed = false
  asleep : ∀ p, (s.slot p).state = .SLEEPING → (s.slot p).killed = false
  again : ∀ p, (s.pc p).Again tested

section Rule

variable {next : Fin n → X → Op n L C D X} {held : X → Option (Lk L)} {tested : X → Prop}
  {s t : Machine n L C D X} {p q : Fin n} {c₀ c₁ : Pc L C X}

theorem KilledInv.goes (h : KilledInv held tested s) (hlocks : LockInv held t)
    (hsleep : SleepInv t) (hs : Shift p s t)
    (hkilled : ∀ q, (t.slot q).killed = true → (s.slot q).killed = true)
    (hp : s.pc p = c₀) (hpc : t.pc = update s.pc p c₁)
    (hpast : c₁.Past tested → c₀.Past tested ∨ (s.slot p).killed = false)
    (hagain : c₀.Again tested → c₁.Again tested) : KilledInv held tested t := by
  have hfalse : ∀ q, (s.slot q).killed = false → (t.slot q).killed = false := by
    intro q hq
    by_contra hk
    rw [hkilled q (by simpa using hk)] at hq
    cases hq
  refine ⟨hlocks,hsleep,forall_pc (P := fun q c => c.Past tested → (t.slot q).killed = false) hpc
    (fun q hq => hfalse q (h.past q hq)) fun hq => ?_,fun q hq => hfalse q ?_,
    forall_pc hpc h.again (hagain (hp ▸ h.again p))⟩
  · exact hfalse p ((hpast hq).elim (fun hq => h.past p (hp ▸ hq)) id)
  · obtain ⟨-,hq | ⟨rfl,chan,l,k,hat⟩⟩ := hs.sleeping q hq
    · exact h.asleep q hq
    · refine h.past q ?_
      rw [hat]
      trivial

theorem killed_of_update {slot : Fin n → Slot n C} {x : Slot n C} (hx : x.killed = (slot p).killed) :
    ∀ q, (update slot p x q).killed = true → (slot q).killed = true :=
  (forall_update_iff slot fun q x => x.killed = true → (slot q).killed = true).mpr
    ⟨hx.symm.trans,fun _ _ => id⟩

theorem Move.killed (hm : Move next s p t) (hg : ∀ p x, (next p x).Guarded tested p x) :
    ∀ q, (t.slot q).killed = true → (s.slot q).killed = true := by
  cases hm with
  | @act x f hpc hop =>
    have hop' : (Op.act f).Guarded tested p x := hop ▸ hg p x
    exact (hop' s.slot s.data).2
  | sleepChan _ | sleepState _ | sleepTidy _ => exact killed_of_update rfl
  | wakeScan _ _ => exact killed_of_update (wake1_killed _ _)
  | _ => exact fun _ => id

theorem KilledInv.move (h : KilledInv held tested s) (hd : Locking next held)
    (hg : ∀ p x, (next p x).Guarded tested p x) (hm : Move next s p t) :
    KilledInv held tested t := by
  have hlocks := h.locks.move hd hm
  have hsleep := h.sleepers.move hd hm
  have hs := hm.shift h.sleepers hd
  have hkilled := hm.killed hg
  have hop' : ∀ {x : X} {o : Op n L C D X}, next p x = o → o.Guarded tested p x := fun e =>
    e ▸ hg p _
  cases hm with
  | acquire hpc hop hfree | release hpc hop =>
    exact h.goes hlocks hsleep hs hkilled hpc rfl (fun hk => absurd hk (hop' hop))
      fun _ => trivial
  | act hpc hop =>
    exact h.goes hlocks hsleep hs hkilled hpc rfl (fun ht => .inr ((hop' hop _ _).1 ht))
      fun _ => trivial
  | sleep hpc hop =>
    obtain ⟨hx,hk⟩ := hop' hop
    exact h.goes hlocks hsleep hs hkilled hpc rfl (fun _ => .inl hx) fun _ => hk
  | wakeup hpc hop =>
    exact h.goes hlocks hsleep hs hkilled hpc rfl (fun hk => .inl (hop' hop hk))
      fun _ => trivial
  | sched hpc hop =>
    exact h.goes hlocks hsleep hs hkilled hpc rfl False.elim fun _ => hop' hop
  | sleepAcquire hpc _ | sleepRelease hpc | sleepChan hpc =>
    exact h.goes hlocks hsleep hs hkilled hpc rfl .inl id
  | sleepState hpc | sleepSched hpc | sleepUnlock hpc =>
    exact h.goes hlocks hsleep hs hkilled hpc rfl False.elim id
  | sleepTidy hpc =>
    have hagain := h.again p
    rw [hpc] at hagain
    refine h.goes hlocks hsleep hs hkilled hpc rfl (fun hp => ?_) fun _ => ?_
    · split at hp
      · exact absurd hp hagain
      · exact hp.elim
    · split
      · trivial
      · exact hagain
  | sleepReacquire hpc hfree =>
    have hagain := h.again p
    rw [hpc] at hagain
    exact h.goes hlocks hsleep hs hkilled hpc rfl (fun hp => absurd hp hagain) fun _ => trivial
  | wakeAcquire hpc _ | wakeScan hpc _ | wakeRelease hpc _ =>
    exact h.goes hlocks hsleep hs hkilled hpc rfl .inl fun _ => trivial

theorem Pc.Past.window_or_holds {pc : Pc L C X} (h : pc.Past tested) :
    pc.Window tested ∨ pc.Holds held .ptable := by
  cases pc with
  | caller x => exact .inl h
  | wakeup ph c k => exact .inl h
  | switched k => exact h.elim
  | sleep ph c l k =>
    cases ph with
    | acquire => exact .inl trivial
    | release => exact .inr (.inr rfl)
    | chan | state => exact .inr rfl
    | sched | off | tidy | unlock | reacquire => exact h.elim

theorem KilledInv.step (h : KilledInv held tested s) (hd : Locking next held)
    (hg : ∀ p x, (next p x).Guarded tested p x) {a : Act n} (hok : OutsideWindow tested s a)
    (hs : step next s a = some t) : KilledInv held tested t := by
  have hlocks := h.locks.step hd hs
  have hsleep := h.sleepers.step hd hs
  obtain ⟨p,rfl,hm⟩ | ⟨-,hl,rfl⟩ | ⟨p,-,hl,hrun,pc',hr,rfl⟩ | ⟨-,hl,rfl⟩ |
    ⟨pid,rfl,hl,hk⟩ := step_cases hs
  · exact h.move hd hg hm
  · exact ⟨hlocks,hsleep,h.past,h.asleep,h.again⟩
  · obtain ⟨chan,l,k,hpc,rfl⟩ | ⟨k,hpc,rfl⟩ := resume_cases hr
    · exact h.goes hlocks hsleep (.of_own rfl (by simp)) (killed_of_update rfl) hpc rfl False.elim id
    · have hagain := h.again p
      rw [hpc] at hagain
      exact h.goes hlocks hsleep (.of_own rfl (by simp)) (killed_of_update rfl) hpc rfl
        (fun hp => absurd hp hagain) fun _ => trivial
  · exact ⟨hlocks,hsleep,h.past,h.asleep,h.again⟩
  obtain ⟨-,rfl⟩ | ⟨r,hr,rfl⟩ := hk
  · exact h
  have hother : ∀ q, q ≠ r → (s.setSlot r (killSlot (s.slot r))).slot q = s.slot q := fun q hq =>
    update_of_ne hq ..
  refine ⟨hlocks,hsleep,fun q hq => ?_,fun q hq => ?_,h.again⟩
  · have hqr : q ≠ r := by
      rintro rfl
      -- the lock is free, so the target would be in its window
      obtain hw | (hh : (s.pc q).Holds held .ptable) := Pc.Past.window_or_holds hq
      · exact hok q hr hw
      · have := (h.locks.holds q .ptable).mpr hh
        rw [hl] at this
        cases this
    rw [hother q hqr]
    exact h.past q hq
  · have hqr : q ≠ r := by
      rintro rfl
      simp only [Machine.setSlot_slot,update_self] at hq
      exact killSlot_not_sleeping _ hq
    rw [hother q hqr] at hq ⊢
    exact h.asleep q hq

theorem Start.killedInv {x : Fin n → X} (h : Start s x) (hx : ∀ p, held (x p) = some .ptable)
    (ht : ∀ p, ¬tested (x p)) : KilledInv held tested s := by
  refine ⟨h.lockInv hx,h.sleepInv,fun p hp => ?_,fun p hp => ?_,fun p => ?_⟩
  · rw [h.pc p] at hp
    exact hp.elim
  · rw [h.runnable p] at hp
    cases hp
  · rw [h.pc p]
    exact ht p

end Rule

namespace Calls

/-- Between the test of `killed` and the call of `sleep`. -/
def Point.tested : Point → Bool
  | writeWake _ _ | writeSleep _ _ | readSleep _ | sleepSleep _ _ | consSleep _ _ _ | waitSleep =>
    true
  | _ => false

def tested (x : Frame) : Prop := x.point.tested = true

theorem Job.not_tested_entry (j : Job) : ¬j.entry.tested = true := by
  cases j <;> simp [entry,Point.tested]

theorem guarded_of_milder {p : Fin n} {x : Frame} {f : Slots n → Data → Slots n × Data × Frame}
    (h : ∀ slot d, Milder slot (f slot d).1 ∧ (tested (f slot d).2.2 → (slot p).killed = false)) :
    (Op.act f : Op n Lock (Channel n) Data Frame).Guarded tested p x := fun slot d =>
  ⟨(h slot d).2,(h slot d).1.killed⟩

theorem guarded (init p : Fin n) (x : Frame) : (next init p x).Guarded tested p x := by
  obtain ⟨point,jobs,ret⟩ := x
  have never : ∀ {pt : Point} {P : Prop}, pt.tested = false → pt.tested = true → P := by
    intro pt P h1 h2
    rw [h1] at h2
    cases h2
  cases point with
  | user =>
    cases jobs with
    | nil => trivial
    | cons j jobs => exact j.not_tested_entry
  | writeLoop k src fresh =>
    cases src with
    | nil => exact guarded_of_milder fun slot d => ⟨.refl slot,never rfl⟩
    | cons b src =>
      refine guarded_of_milder fun slot d => ?_
      split
      · split
        · exact ⟨.refl slot,never rfl⟩
        · next hk => exact ⟨.refl slot,fun _ => by simp at hk; exact hk.2⟩
      · exact ⟨.refl slot,never rfl⟩
  | readTest k | sleepTest k t =>
    refine guarded_of_milder fun slot d => ?_
    split
    · split
      · exact ⟨.refl slot,never rfl⟩
      · next hk => exact ⟨.refl slot,fun _ => by simpa using hk⟩
    · exact ⟨.refl slot,never rfl⟩
  | consLoop k target dst =>
    refine guarded_of_milder fun slot d => ?_
    dsimp only
    split
    · split
      · split
        · exact ⟨.refl slot,never rfl⟩
        · next hk => exact ⟨.refl slot,fun _ => by simpa using hk⟩
      · split_ifs <;> exact ⟨.refl slot,never rfl⟩
    · exact ⟨.refl slot,never rfl⟩
  | waitScan =>
    refine guarded_of_milder fun slot d => ?_
    split
    · exact ⟨milder_reap slot _,never rfl⟩
    · split
      · exact ⟨.refl slot,never rfl⟩
      · next hk => exact ⟨.refl slot,fun _ => by simp at hk; exact hk.2⟩
  | readCopy k got =>
    refine guarded_of_milder fun slot d => ?_
    split_ifs <;> exact ⟨.refl slot,never rfl⟩
  | closeSet | sleepBegin | timerTick =>
    exact guarded_of_milder fun slot d => ⟨.refl slot,never rfl⟩
  | intrLoop cs =>
    cases cs with
    | nil => exact guarded_of_milder fun slot d => ⟨.refl slot,never rfl⟩
    | cons c cs =>
      refine guarded_of_milder fun slot d => ⟨.refl slot,?_⟩
      dsimp only
      split <;> exact never rfl
  | yieldSet =>
    exact guarded_of_milder fun slot d => ⟨.update slot rfl (by simp) id,never rfl⟩
  | exitSet =>
    rw [next.eq_def]
    dsimp only
    split_ifs
    · trivial
    · exact guarded_of_milder fun slot d => ⟨milder_exitSlots init slot p,never rfl⟩
  | writeSleep | readSleep | sleepSleep | consSleep | waitSleep =>
    exact ⟨rfl,fun h => never rfl h⟩
  | writeWake => exact fun _ => rfl
  | dead => trivial
  | _ => exact fun h => never rfl h

instance : DecidablePred tested := fun x => inferInstanceAs (Decidable (x.point.tested = true))

/-- In every run in which no `kill` falls into the window of its target, no process is `SLEEPING`
and killed. -/
theorem killed_never_asleep {init : Fin n} {s t : Machine n Lock (Channel n) Data Frame}
    {jobs : Fin n → List Job} {acts : List (Act n)}
    (hstart : Start s fun p => ⟨.start, jobs p, 0⟩)
    (hok : Meets (step (next init)) (OutsideWindow tested) s acts)
    (hrun : exec (step (next init)) s acts = some t) (q : Fin n) :
    ¬((t.slot q).state = .SLEEPING ∧ (t.slot q).killed = true) := by
  rintro ⟨hst,hk⟩
  have hinv : KilledInv held tested t :=
    exec_invariant_of_meets
      (fun _ _ _ hu hok hs => hu.step (locking init) (guarded init) hok hs)
      (hstart.killedInv (fun _ => rfl) fun _ h => by cases h) hok hrun
  rw [hinv.asleep q hst] at hk
  cases hk

/-- A reader that sleeps on the pipe is killed. -/
theorem killed_never_asleep_reader :
    ∃ t, exec (step (next 1)) (pipeStart ![[.piperead 1], []])
      (readerSleeps ++ [.schedRelease, .kill 1]) = some t ∧ (t.slot 0).killed = true ∧
      ¬((t.slot 0).state = .SLEEPING ∧ (t.slot 0).killed = true) := by
  have hok : Meets (step (next 1)) (OutsideWindow tested) (pipeStart ![[.piperead 1],[]])
      (readerSleeps ++ [.schedRelease,.kill 1]) := by decide +kernel
  have hrun : (exec (step (next 1)) (pipeStart ![[.piperead 1],[]])
      (readerSleeps ++ [.schedRelease,.kill 1])).map (fun t => (t.slot 0).killed) =
      some true := by decide +kernel
  obtain ⟨t,ht,hk⟩ := Option.map_eq_some_iff.mp hrun
  exact ⟨t,ht,hk,killed_never_asleep (start_pipeStart _) hok ht 0⟩

/-- A reader is killed after its test of `killed` and before `sleep` has taken `ptable.lock`: it
goes to sleep all the same. -/
theorem killed_asleep :
    ¬ ∀ (s t : Machine 2 Lock (Channel 2) Data Frame) (jobs : Fin 2 → List Job) (acts : List (Act 2)),
      Start s (fun p => ⟨.start, jobs p, 0⟩) → Fresh s.data →
      exec (step (next 1)) s acts = some t → t.lock .ptable = none →
      ∀ q, ¬((t.slot q).state = .SLEEPING ∧ (t.slot q).killed = true) := by
  intro h
  have hrun : (exec (step (next 1)) (pipeStart ![[.piperead 1],[]])
      ([.schedAcquire,.dispatch 0,.run 0,.run 0,.run 0,.kill 1] ++
        List.replicate 6 (.run 0) ++ [.schedRelease])).map
      (fun t => (t.lock .ptable, (t.slot 0).state, (t.slot 0).killed)) =
      some (none, .SLEEPING, true) := by decide +kernel
  obtain ⟨t,ht,he⟩ := Option.map_eq_some_iff.mp hrun
  simp only [Prod.mk.injEq] at he
  obtain ⟨hptable,hst,hk⟩ := he
  exact h _ t _ _ (start_pipeStart _) (fresh_pipeStart _) ht hptable 0 ⟨hst,hk⟩

end Calls

end Xv6Container.Threads
