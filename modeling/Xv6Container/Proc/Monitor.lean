import Xv6Container.Proc.Threads

/-!
# Sleepers are justified

Who changes the data so that a condition no longer blocks owes a `wakeup` on its channel, and
pays before the lock is released. Then nobody sleeps on a channel whose condition does not block
while both locks are free.
-/

set_option linter.unusedSectionVars false

namespace Xv6Container.Threads

open Function Run
open Slot (wake1)

variable {n : ℕ} {L C D X : Type} [DecidableEq L] [DecidableEq C]

/-- What an operation at point `x` has to do with the conditions `blocked c` of the channels in `G`,
which are about data under the lock `lk`. -/
def Op.Monitored (held : X → Option (Lk L)) (lk : L) (G : C → Prop) (blocked : C → D → Prop)
    (owes tests : X → C → Prop) (x : X) : Op n L C D X → Prop
  | .acquire _ k => ∀ c, ¬tests k c
  | .act f => ∀ slot d c, (owes x c → owes (f slot d).2.2 c) ∧ (G c →
      (held x ≠ some (.other lk) → (blocked c (f slot d).2.1 ↔ blocked c d)) ∧
      -- a condition that ceases to block has to be signalled
      (blocked c d → ¬blocked c (f slot d).2.1 → owes (f slot d).2.2 c) ∧
      (tests (f slot d).2.2 c → blocked c (f slot d).2.1))
  | .sleep c l k => (G c → l = .other lk ∧ tests x c) ∧ ∀ c', ¬owes x c' ∧ ¬tests k c'
  | .wakeup c k => (G c → held x = some (.other lk)) ∧
      ∀ c', (owes x c' → c' ≠ c → owes k c') ∧ (tests k c' → tests x c')
  | .release _ _ | .sched _ | .stop => True

/-- Lock `lk` guards the data that the conditions `blocked c` of the channels in `G` are about. At a
point that `tests c` the condition has been seen to block under the lock; a point that `owes c` has
a `wakeup(c)` to come. -/
structure Monitor (next : Fin n → X → Op n L C D X) (held : X → Option (Lk L)) (lk : L)
    (G : C → Prop) (blocked : C → D → Prop) (owes tests : X → C → Prop) : Prop where
  owes_held : ∀ {x c}, owes x c → held x = some (.other lk)
  tests_held : ∀ {x c}, tests x c → held x = some (.other lk)
  monitored : ∀ p x, (next p x).Monitored held lk G blocked owes tests x

theorem Monitor.op {next : Fin n → X → Op n L C D X} {held : X → Option (Lk L)} {lk : L}
    {G : C → Prop} {blocked : C → D → Prop} {owes tests : X → C → Prop}
    (hm : Monitor next held lk G blocked owes tests) {p : Fin n} {x : X} {o : Op n L C D X}
    (hop : next p x = o) : o.Monitored held lk G blocked owes tests x := hop ▸ hm.monitored p x

/-- On the way to sleep on channel `c`, with the test behind it. -/
def Pc.Bound : Pc L C X → C → Prop
  | .sleep .acquire chan _ _, c | .sleep .release chan _ _, c | .sleep .chan chan _ _, c
  | .sleep .state chan _ _, c => chan = c
  | _, _ => False

/-- Process `q` sleeps on channel `c` or is on the way to. -/
def Machine.Bound (s : Machine n L C D X) (q : Fin n) (c : C) : Prop :=
  (s.pc q).Bound c ∨ (s.slot q).state = .SLEEPING ∧ (s.slot q).chan = some c

instance (pc : Pc L C X) (c : C) : Decidable (pc.Bound c) :=
  match pc with
  | .sleep .acquire chan _ _ | .sleep .release chan _ _ | .sleep .chan chan _ _
  | .sleep .state chan _ _ => inferInstanceAs (Decidable (chan = c))
  | .sleep .sched _ _ _ | .sleep .off _ _ _ | .sleep .tidy _ _ _ | .sleep .unlock _ _ _
  | .sleep .reacquire _ _ _ | .caller _ | .wakeup _ _ _ | .switched _ => isFalse id

instance (s : Machine n L C D X) (q : Fin n) (c : C) : Decidable (s.Bound q c) :=
  inferInstanceAs (Decidable (_ ∨ _ ∧ _))

/-- A process that has tested `c`, by where it is. -/
def Pc.Tests (tests : X → C → Prop) : Pc L C X → C → Prop
  | .caller x, c => tests x c
  | .wakeup _ _ k, c => tests k c
  | _, _ => False

/-- A process that will yet wake `q` if it sleeps on `c`: it owes a wakeup, or is in one and has not
come to slot `q`. -/
def Pc.Owes (owes : X → C → Prop) : Pc L C X → C → Fin n → Prop
  | .caller x, c, _ => owes x c
  | .wakeup ph chan k, c, q => owes k c ∨ chan = c ∧ ∀ i, ph = .scan i → i ≤ q
  | _, _, _ => False

/-- A release of the lock leaves no debt to a process bound for the channel. -/
def Settles (next : Fin n → X → Op n L C D X) (lk : L) (G : C → Prop) (owes : X → C → Prop)
    (s : Machine n L C D X) : Act n → Prop
  | .run p => ∀ x k c, s.pc p = .caller x → next p x = .release (.other lk) k → G c →
      owes x c → ∀ q, ¬s.Bound q c
  | _ => True

/-- What a place says about the channels of the monitor: they go with its lock. -/
def Pc.Tied (held : X → Option (Lk L)) (lk : L) (G : C → Prop) (tests : X → C → Prop) :
    Pc L C X → Prop
  | .sleep _ c l k => (G c → l = .other lk) ∧ ∀ c', ¬tests k c'
  | .wakeup _ c k => G c → held k = some (.other lk)
  | _ => True

/-- What the rule rests on. -/
structure MonitorInv (held : X → Option (Lk L)) (lk : L) (G : C → Prop)
    (blocked : C → D → Prop) (owes tests : X → C → Prop) (s : Machine n L C D X) : Prop where
  locks : LockInv held s
  sleepers : SleepInv s
  bound : ∀ q c, G c → s.Bound q c → blocked c s.data ∨ ∃ t, (s.pc t).Owes owes c q
  tested : ∀ p c, G c → (s.pc p).Tests tests c → blocked c s.data
  tied : ∀ p, (s.pc p).Tied held lk G tests

section Rule

variable {next : Fin n → X → Op n L C D X} {held : X → Option (Lk L)} {lk : L} {G : C → Prop}
  {blocked : C → D → Prop} {owes tests : X → C → Prop} {s t : Machine n L C D X} {p q : Fin n}
  {c : C} {c₀ c₁ : Pc L C X}

theorem MonitorInv.tied_of (h : MonitorInv held lk G blocked owes tests s) (hp : s.pc p = c₀) :
    c₀.Tied held lk G tests := hp ▸ h.tied p

theorem MonitorInv.holds_of_owes (h : MonitorInv held lk G blocked owes tests s)
    (hm : Monitor next held lk G blocked owes tests) (hc : G c)
    (ho : (s.pc p).Owes owes c q) : (s.pc p).Holds held (.other lk) := by
  cases hpc : s.pc p with
  | caller x =>
    rw [hpc] at ho
    exact hm.owes_held ho
  | wakeup ph chan k =>
    have hk : held k = some (.other lk) := by
      rw [hpc] at ho
      rcases ho with ho | ⟨rfl,-⟩
      · exact hm.owes_held ho
      · exact h.tied_of hpc hc
    cases ph with
    | acquire => exact hk
    | scan i => exact .inl hk
  | sleep ph chan l k | switched k =>
    rw [hpc] at ho
    exact ho.elim

theorem Monitor.holds_of_tests (hm : Monitor next held lk G blocked owes tests)
    (ht : (s.pc p).Tests tests c) : (s.pc p).Holds held (.other lk) := by
  cases hpc : s.pc p with
  | caller x =>
    rw [hpc] at ht
    exact hm.tests_held ht
  | wakeup ph chan k =>
    rw [hpc] at ht
    cases ph with
    | acquire => exact hm.tests_held ht
    | scan i => exact .inl (hm.tests_held ht)
  | sleep ph chan l k | switched k =>
    rw [hpc] at ht
    exact ht.elim

theorem MonitorInv.justified (h : MonitorInv held lk G blocked owes tests s)
    (hm : Monitor next held lk G blocked owes tests) (hc : G c)
    (hl : s.lock (.other lk) = none) (hq : (s.slot q).state = .SLEEPING)
    (hchan : (s.slot q).chan = some c) : blocked c s.data := by
  obtain hb | ⟨t,ht⟩ := h.bound q c hc (.inr ⟨hq,hchan⟩)
  · exact hb
  · have := (h.locks.holds t (.other lk)).mpr (h.holds_of_owes hm hc ht)
    rw [hl] at this
    cases this

/-- Who is bound for a channel after a step was so before, or has come there just now. -/
theorem MonitorInv.bound_before (h : MonitorInv held lk G blocked owes tests s) (hs : Shift p s t)
    (hp : s.pc p = c₀) (hpc : t.pc = update s.pc p c₁)
    (hb : c₁.Bound c → c₀.Bound c ∨ c₀.Tests tests c) (hq : t.Bound q c) :
    s.Bound q c ∨ (s.pc p).Tests tests c := by
  rcases hq with hq | ⟨hst,hch⟩
  · rw [hpc] at hq
    by_cases hqp : q = p
    · subst hqp
      rw [update_self] at hq
      rw [Machine.Bound,hp]
      exact (hb hq).imp_left .inl
    · rw [update_of_ne hqp] at hq
      exact .inl (.inl hq)
  · obtain ⟨hchan,hst | ⟨rfl,chan,l,k,hat⟩⟩ := hs.sleeping q hst
    · exact .inl (.inr ⟨hst,hchan.symm.trans hch⟩)
    · refine .inl (.inl ?_)
      rw [hat]
      exact Option.some.inj ((h.sleepers.chan hat).symm.trans (hchan.symm.trans hch))

/-- A step of `p` from `c₀` to `c₁` that leaves the data alone. -/
theorem MonitorInv.goes (h : MonitorInv held lk G blocked owes tests s)
    (hlocks : LockInv held t) (hsleep : SleepInv t) (hs : Shift p s t) (hdata : t.data = s.data)
    (hp : s.pc p = c₀) (hpc : t.pc = update s.pc p c₁)
    (hb : ∀ c, G c → c₁.Bound c → c₀.Bound c ∨ c₀.Tests tests c)
    (ho : ∀ q c, G c → s.Bound q c → t.Bound q c → c₀.Owes owes c q → c₁.Owes owes c q)
    (ht : ∀ c, G c → c₁.Tests tests c → c₀.Tests tests c)
    (htied : c₀.Tied held lk G tests → c₁.Tied held lk G tests) :
    MonitorInv held lk G blocked owes tests t := by
  refine ⟨hlocks,hsleep,fun q c hc hq => ?_,
    forall_pc (P := fun _ pc => ∀ c, G c → pc.Tests tests c → blocked c t.data) hpc ?_ ?_,
    forall_pc hpc h.tied (htied (h.tied_of hp))⟩
  · rw [hdata]
    rcases h.bound_before hs hp hpc (hb c hc) hq with hb | hb
    · obtain hb' | ⟨r,hr⟩ := h.bound q c hc hb
      · exact .inl hb'
      · refine .inr ⟨r,?_⟩
        by_cases hrp : r = p
        · subst hrp
          rw [hpc,update_self]
          exact ho q c hc hb hq (hp ▸ hr)
        · rw [hpc,update_of_ne hrp]
          exact hr
    · exact .inl (h.tested p c hc hb)
  · rw [hdata]
    exact h.tested
  · intro c hc hq
    rw [hdata]
    exact h.tested p c hc (hp ▸ ht c hc hq)

theorem MonitorInv.act (h : MonitorInv held lk G blocked owes tests s)
    (hd : Locking next held) (hm : Monitor next held lk G blocked owes tests) {x : X}
    {f : (Fin n → Slot n C) → D → (Fin n → Slot n C) × D × X} (hpc : s.pc p = .caller x)
    (hop : next p x = .act f) :
    MonitorInv held lk G blocked owes tests { s with
      slot := (f s.slot s.data).1
      data := (f s.slot s.data).2.1
      pc := update s.pc p (.caller (f s.slot s.data).2.2) } := by
  have hmove : Move next s p _ := .act hpc hop
  refine ⟨h.locks.move hd hmove,h.sleepers.move hd hmove,fun q c hc hq => ?_,
    fun r c hc ht => ?_,forall_pc (p := p) rfl h.tied trivial⟩
  · have hq := h.bound_before (hmove.shift h.sleepers hd) hpc rfl False.elim hq
    by_cases hafter : blocked c (f s.slot s.data).2.1
    · exact .inl hafter
    refine .inr ?_
    have hb : blocked c s.data ∨ ∃ r, (s.pc r).Owes owes c q :=
      hq.elim (h.bound q c hc) fun ht => .inl (h.tested p c hc ht)
    obtain hb | ⟨r,hr⟩ := hb
    · exact ⟨p,by
        simpa [Pc.Owes] using ((hm.op hop s.slot s.data c).2 hc).2.1 hb hafter⟩
    · by_cases hrp : r = p
      · subst hrp
        refine ⟨r,?_⟩
        rw [hpc] at hr
        simpa [Pc.Owes] using (hm.op hop s.slot s.data c).1 hr
      · exact ⟨r,by simpa [update_of_ne hrp] using hr⟩
  · by_cases hrp : r = p
    · subst hrp
      simp only [update_self] at ht
      exact ((hm.op hop s.slot s.data c).2 hc).2.2 ht
    · simp only [update_of_ne hrp] at ht
      have hx : held x ≠ some (.other lk) := by
        intro hx
        refine hrp (h.locks.mutex (hm.holds_of_tests ht) ?_)
        rw [hpc]
        exact hx
      exact (((hm.op hop s.slot s.data c).2 hc).1 hx).mpr (h.tested r c hc ht)

/-- Nobody is on the way to sleep while another process is in the loop of `wakeup1`: it has both
locks. -/
theorem MonitorInv.not_bound (h : MonitorInv held lk G blocked owes tests s) {i : ℕ} {k : X}
    (hpc : s.pc p = .wakeup (.scan i) c k) (hc : G c) (hqp : q ≠ p) : ¬(s.pc q).Bound c := by
  intro hb
  have hpt : (s.pc p).Holds held .ptable := by
    rw [hpc]
    exact .inr rfl
  have hlk : (s.pc p).Holds held (.other lk) := by
    rw [hpc]
    exact .inl (h.tied_of hpc hc)
  cases hq : s.pc q with
  | sleep ph c' l k' =>
    rw [hq] at hb
    cases ph with
    | acquire =>
      have hl := (h.tied_of hq).1
      cases hb
      refine hqp (h.locks.mutex ?_ hlk)
      rw [hq,hl hc]
      exact rfl
    | release =>
      refine hqp (h.locks.mutex ?_ hpt)
      rw [hq]
      exact .inr rfl
    | chan | state =>
      refine hqp (h.locks.mutex ?_ hpt)
      rw [hq]
      exact rfl
    | sched | off | tidy | unlock | reacquire => exact hb
  | caller x | wakeup ph c' k' | switched k' => rw [hq] at hb; exact hb

/-- The loop of `wakeup1` at slot `i`: whoever sleeps there on the channel is woken, and the
processes behind it are still to come. -/
theorem MonitorInv.scan (h : MonitorInv held lk G blocked owes tests s)
    (hd : Locking next held) {i : ℕ} {chan : C} {k : X}
    (hpc : s.pc p = .wakeup (.scan i) chan k) (hi : i < n) :
    MonitorInv held lk G blocked owes tests
      ((s.setSlot ⟨i, hi⟩ (wake1 chan (s.slot ⟨i, hi⟩))).setPc p
        (.wakeup (.scan (i + 1)) chan k)) := by
  have hmove : Move next s p _ := .wakeScan hpc hi
  refine h.goes (h.locks.move hd hmove) (h.sleepers.move hd hmove) (hmove.shift h.sleepers hd) rfl
    hpc rfl (fun _ _ => False.elim) (fun q c hc _ hb ho => ?_) (fun _ _ => id) id
  rcases ho with ho | ⟨rfl,hle⟩
  · exact .inl ho
  refine .inr ⟨rfl,fun j hj => ?_⟩
  cases hj
  have hiq := hle i rfl
  suffices hne : i ≠ q by omega
  -- slot `i` itself is awake now
  rintro rfl
  rcases hb with hb | ⟨hst,hch⟩
  · have hqp : q ≠ p := by
      rintro rfl
      simp [Pc.Bound] at hb
    simp only [Machine.setPc_pc,Machine.setSlot_pc,update_of_ne hqp] at hb
    exact h.not_bound hpc hc hqp hb
  · simp only [Machine.setPc_slot,Machine.setSlot_slot,Fin.eta,update_self,
      wake1_chan] at hst hch
    exact (wake1_sleeping hst).2 hch

theorem MonitorInv.move (h : MonitorInv held lk G blocked owes tests s)
    (hd : Locking next held) (hm : Monitor next held lk G blocked owes tests)
    (hset : Settles next lk G owes s (.run p)) (hmv : Move next s p t) :
    MonitorInv held lk G blocked owes tests t := by
  have hlocks := h.locks.move hd hmv
  have hsleep := h.sleepers.move hd hmv
  have hs := hmv.shift h.sleepers hd
  cases hmv with
  | acquire hpc hop hfree =>
    refine h.goes hlocks hsleep hs rfl hpc rfl (fun _ _ => False.elim) (fun q c _ _ _ ho => ?_)
      (fun c _ ht => absurd ht (hm.op hop c)) fun _ => trivial
    have := hm.owes_held ho
    rw [(hd.op hop).1] at this
    cases this
  | release hpc hop =>
    refine h.goes hlocks hsleep hs rfl hpc rfl (fun _ _ => False.elim) (fun q c hc hb _ ho => ?_)
      (fun c hc ht => ?_) fun _ => trivial
    · have hl := hm.owes_held ho
      rw [(hd.op hop).1] at hl
      cases hl
      exact absurd hb (hset _ _ c hpc hop hc ho q)
    · have := hm.tests_held ht
      rw [(hd.op hop).2] at this
      cases this
  | act hpc hop => exact h.act hd hm hpc hop
  | sleep hpc hop =>
    obtain ⟨htest,hset⟩ := hm.op hop
    refine h.goes hlocks hsleep hs rfl hpc rfl (fun c hc hb => .inr ?_)
      (fun q c _ _ _ ho => absurd ho (hset c).1) (fun _ _ => False.elim)
      fun _ => ⟨fun hc => (htest hc).1,fun c' => (hset c').2⟩
    split at hb <;> cases hb <;> exact (htest hc).2
  | @wakeup x k chan hpc hop =>
    refine h.goes hlocks hsleep hs rfl hpc rfl (fun _ _ => False.elim) (fun q c _ _ _ ho => ?_)
      (fun c _ => ((hm.op hop).2 c).2) fun _ hc => (hd.op hop).2.trans ((hm.op hop).1 hc)
    by_cases hcc : c = chan
    · exact .inr ⟨hcc.symm,by simp⟩
    · exact .inl (((hm.op hop).2 c).1 ho hcc)
  | sched hpc hop =>
    refine h.goes hlocks hsleep hs rfl hpc rfl (fun _ _ => False.elim) (fun q c _ _ _ ho => ?_)
      (fun _ _ => False.elim) fun _ => trivial
    have := hm.owes_held ho
    rw [(hd.op hop).1] at this
    cases this
  | sleepAcquire hpc _ | sleepRelease hpc | sleepChan hpc =>
    exact h.goes hlocks hsleep hs rfl hpc rfl (fun _ _ => .inl) (fun _ _ _ _ _ => False.elim)
      (fun _ _ => False.elim) id
  | sleepState hpc | sleepSched hpc | sleepUnlock hpc =>
    exact h.goes hlocks hsleep hs rfl hpc rfl (fun _ _ => False.elim) (fun _ _ _ _ _ => False.elim)
      (fun _ _ => False.elim) id
  | sleepTidy hpc =>
    refine h.goes hlocks hsleep hs rfl hpc rfl (fun c _ hb => ?_) (fun _ _ _ _ _ => False.elim)
      (fun c _ ht => ?_) fun htied => ?_
    · split at hb <;> exact hb.elim
    · split at ht
      · exact absurd ht ((h.tied_of hpc).2 c)
      · exact ht
    · split
      · trivial
      · exact htied
  | sleepReacquire hpc hfree =>
    exact h.goes hlocks hsleep hs rfl hpc rfl (fun _ _ => False.elim) (fun _ _ _ _ _ => False.elim)
      (fun c _ ht => absurd ht ((h.tied_of hpc).2 c)) fun _ => trivial
  | wakeAcquire hpc hfree =>
    refine h.goes hlocks hsleep hs rfl hpc rfl (fun _ _ => False.elim) (fun q c _ _ _ ho => ?_)
      (fun _ _ => id) id
    rcases ho with ho | ⟨rfl,-⟩
    · exact .inl ho
    · refine .inr ⟨rfl,fun i hi => ?_⟩
      cases hi
      exact Nat.zero_le _
  | wakeScan hpc hi => exact h.scan hd hpc hi
  | @wakeRelease i chan k hpc hi =>
    refine h.goes hlocks hsleep hs rfl hpc rfl (fun _ _ => False.elim) (fun q c _ _ _ ho => ?_)
      (fun _ _ => id) fun _ => trivial
    rcases ho with ho | ⟨-,hle⟩
    · exact ho
    · have := hle i rfl
      omega

theorem MonitorInv.step (h : MonitorInv held lk G blocked owes tests s)
    (hd : Locking next held) (hm : Monitor next held lk G blocked owes tests) {a : Act n}
    (hset : Settles next lk G owes s a) (hs : step next s a = some t) :
    MonitorInv held lk G blocked owes tests t := by
  have hlocks := h.locks.step hd hs
  have hsleep := h.sleepers.step hd hs
  obtain ⟨p,rfl,hmv⟩ | ⟨-,hl,rfl⟩ | ⟨p,-,hl,hrun,pc',hr,rfl⟩ | ⟨-,hl,rfl⟩ |
    ⟨pid,-,-,hk⟩ := step_cases hs
  · exact h.move hd hm hset hmv
  · exact ⟨hlocks,hsleep,h.bound,h.tested,h.tied⟩
  · obtain ⟨chan,l,k,hpc,rfl⟩ | ⟨k,hpc,rfl⟩ := resume_cases hr
    · exact h.goes hlocks hsleep (.of_own rfl (by simp)) rfl hpc rfl (fun _ _ => False.elim)
        (fun _ _ _ _ _ => False.elim) (fun _ _ => False.elim) id
    · refine h.goes hlocks hsleep (.of_own rfl (by simp)) rfl hpc rfl (fun _ _ => False.elim)
        (fun _ _ _ _ _ => False.elim) (fun c _ ht => ?_) fun _ => trivial
      have hwf := h.locks.wf p
      rw [hpc] at hwf
      have := hm.tests_held ht
      rw [show held k = some .ptable from hwf] at this
      cases this
  · exact ⟨hlocks,hsleep,h.bound,h.tested,h.tied⟩
  obtain ⟨-,rfl⟩ | ⟨r,-,rfl⟩ := hk
  · exact h
  refine ⟨hlocks,hsleep,fun q c hc hb => h.bound q c hc ?_,h.tested,h.tied⟩
  rcases hb with hb | ⟨hst,hch⟩
  · exact .inl hb
  · have hqr : q ≠ r := by
      rintro rfl
      simp only [Machine.setSlot_slot,update_self] at hst
      exact killSlot_not_sleeping _ hst
    simp only [Machine.setSlot_slot,update_of_ne hqr] at hst hch
    exact .inr ⟨hst,hch⟩

theorem Start.monitorInv {x : Fin n → X} (h : Start s x) (hx : ∀ p, held (x p) = some .ptable) :
    MonitorInv held lk G blocked owes tests s := by
  refine ⟨h.lockInv hx,h.sleepInv,fun q c _ hb => ?_,fun p c _ ht => ?_,fun p => ?_⟩
  · rcases hb with hb | ⟨hst,-⟩
    · rw [h.pc q] at hb
      exact hb.elim
    · rw [h.runnable q] at hst
      cases hst
  · rw [h.pc p] at ht
    exact ht.elim
  · rw [h.pc p]
    trivial

end Rule

namespace WaitSignal

/-- What a process does under the lock: wait for the condition and then go on with the data, or make
the condition true and signal it. -/
inductive Job (cond : D → Bool)
  | wait (take : D → D)
  | signal (make : D → D) (h : ∀ d, cond (make d) = true)

/-- Where a process is, with the jobs it still has. -/
inductive Point (cond : D → Bool)
  | start (jobs : List (Job cond))
  | idle (jobs : List (Job cond))
  | test (take : D → D) (jobs : List (Job cond))
  | doze (take : D → D) (jobs : List (Job cond))
  | make (f : D → D) (h : ∀ d, cond (f d) = true) (jobs : List (Job cond))
  | notify (jobs : List (Job cond))
  | leave (jobs : List (Job cond))

variable (cond : D → Bool) (lk : L) (chan : C)

/-- `acquire(lk); while(!cond) sleep(chan, lk); ..; release(lk)` and `acquire(lk); cond = 1;
wakeup(chan); release(lk)`. -/
def next (_ : Fin n) : Point cond → Op n L C D (Point cond)
  | .start jobs => .release .ptable (.idle jobs)
  | .idle [] => .stop
  | .idle (.wait take :: jobs) => .acquire (.other lk) (.test take jobs)
  | .idle (.signal make h :: jobs) => .acquire (.other lk) (.make make h jobs)
  | .test take jobs => .act fun slot d =>
      if cond d then (slot, take d, .leave jobs) else (slot, d, .doze take jobs)
  | .doze take jobs => .sleep chan (.other lk) (.test take jobs)
  | .make f _ jobs => .act fun slot d => (slot, f d, .notify jobs)
  | .notify jobs => .wakeup chan (.leave jobs)
  | .leave jobs => .release (.other lk) (.idle jobs)

def held : Point cond → Option (Lk L)
  | .start _ => some .ptable
  | .idle _ => none
  | _ => some (.other lk)

/-- Between making the condition true and the wakeup. -/
def owes : Point cond → C → Prop
  | .notify _, c => c = chan
  | _, _ => False

/-- About to call `sleep`. -/
def tests : Point cond → C → Prop
  | .doze _ _, c => c = chan
  | _, _ => False

theorem locking : Locking (next (n := n) cond lk chan) (held cond lk) := by
  intro p x
  cases x with
  | idle jobs => rcases jobs with _ | ⟨_ | _,_⟩ <;> simp [next,held,Op.Locked]
  | test take jobs =>
    intro slot d
    dsimp only
    split <;> simp [held]
  | _ => simp [next,held,Op.Locked]

theorem monitor : Monitor (next (n := n) cond lk chan) (held cond lk) lk (· = chan)
    (fun _ d => cond d = false) (owes cond chan) (tests cond chan) := by
  refine ⟨fun {x c} h => ?_,fun {x c} h => ?_,fun p x => ?_⟩
  · cases x <;> simp [owes] at h
    rfl
  · cases x <;> simp [tests] at h
    rfl
  cases x with
  | idle jobs => rcases jobs with _ | ⟨_ | _,_⟩ <;> simp [next,tests,Op.Monitored]
  | test take jobs =>
    intro slot d c
    refine ⟨fun h => h.elim,fun hc => ?_⟩
    dsimp only
    split
    · next hd =>
      refine ⟨fun h => absurd rfl h,fun hb => ?_,fun h => h.elim⟩
      rw [hd] at hb
      cases hb
    · next hd =>
      have hd : cond d = false := by simpa using hd
      exact ⟨fun _ => Iff.rfl,fun hb hn => absurd hb hn,fun _ => hd⟩
  | make f h jobs =>
    intro slot d c
    exact ⟨fun h => h.elim,fun hc => ⟨fun h => absurd rfl h,fun _ _ => hc,fun h => h.elim⟩⟩
  | _ => simp [next,owes,tests,held,Op.Monitored]

/-- A wakeup is never lost: while the lock is free and the condition holds, nobody is `SLEEPING` on
the channel, whoever holds `ptable.lock`. -/
theorem no_lost_wakeup {s t : Machine n L C D (Point cond)} {jobs : Fin n → List (Job cond)}
    (hstart : Start s fun p => .start (jobs p)) {acts : List (Act n)}
    (hrun : exec (step (next cond lk chan)) s acts = some t) (hlk : t.lock (.other lk) = none)
    (hcond : cond t.data = true) (q : Fin n) :
    ¬((t.slot q).state = .SLEEPING ∧ (t.slot q).chan = some chan) := by
  rintro ⟨hst,hch⟩
  have hinv : MonitorInv (held cond lk) lk (· = chan) (fun _ d => cond d = false)
      (owes cond chan) (tests cond chan) t := by
    refine exec_invariant (fun u a u' hu hs => ?_) (hstart.monitorInv fun _ => rfl) hrun
    refine hu.step (locking cond lk chan) (monitor cond lk chan) ?_ hs
    -- every release comes after the wakeup
    cases a with
    | run p =>
      intro x k c _ hop _ ho
      cases x <;> simp [owes] at ho
      simp [next] at hop
    | _ => trivial
  have hb := hinv.justified (monitor cond lk chan) rfl hlk hst hch
  rw [hcond] at hb
  cases hb

/-- One process waits for a flag and another sets it. -/
def flagStart : Machine 2 Unit Unit Bool (Point (D := Bool) id) where
  slot := fun _ => ⟨⟨.RUNNABLE, none⟩, 1, none, false⟩
  lock := fun _ => none
  data := false
  pc := fun p => .switched (.start
    (if p = 0 then [.wait fun _ => false] else [.signal (fun _ => true) fun _ => rfl]))

/-- The first process goes to sleep, the second sets the flag and wakes it. -/
def flagRun : List (Act 2) :=
  [.schedAcquire, .dispatch 0] ++ List.replicate 9 (.run 0) ++ [.dispatch 1] ++
    List.replicate 9 (.run 1)

theorem no_lost_wakeup_flag :
    ∃ t, exec (step (next id () ())) flagStart flagRun = some t ∧ t.lock (.other ()) = none ∧
      t.data = true ∧ (t.slot 0).state = .RUNNABLE ∧
      ¬((t.slot 0).state = .SLEEPING ∧ (t.slot 0).chan = some ()) := by
  have hstart : Start flagStart fun p => .start
      (if p = 0 then [.wait fun _ => false] else [.signal (fun _ => true) fun _ => rfl]) :=
    ⟨fun _ => rfl,fun _ => rfl,fun _ => rfl⟩
  have hrun : (exec (step (next id () ())) flagStart flagRun).map
      (fun t => (t.lock (.other ()), t.data, (t.slot 0).state)) = some (none, true, .RUNNABLE) := rfl
  obtain ⟨t,ht,he⟩ := Option.map_eq_some_iff.mp hrun
  simp only [Prod.mk.injEq] at he
  obtain ⟨hlk,hdata,hst⟩ := he
  exact ⟨t,ht,hlk,hdata,hst,no_lost_wakeup id () () hstart ht hlk hdata 0⟩

end WaitSignal

end Xv6Container.Threads
