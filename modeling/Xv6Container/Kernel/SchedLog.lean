import Xv6Container.Kernel.Boot
import Xv6Container.Kernel.Ledger
import Xv6Container.Kernel.Steady

/-! # The switches of the scheduler's log -/

namespace Xv6Container.Paged

open Function Prog Fs Run

variable {sb : Superblock} {s t : Whole}

/-- The selector and the switches have these values. -/
def Switches (n : ℕ) (f : ℕ → Bool) (s : Whole) : Prop := s.cidSchLog = n ∧ s.schLog = f

section Keeps

variable {n : ℕ} {f : ℕ → Bool} {α : Type}

theorem switches_onKernel (m : KM α) : Keeps (Switches n f) (onKernel m) fun _ => True := by
  apply Keeps.zoom
  intro s k hs
  exact hs

theorem switches_setLedger (g : Ledger → Ledger) :
    Keeps (Switches n f) (setLedger g) fun _ => True :=
  .modify fun _ h => h

theorem switches_kalloc : Keeps (Switches n f) kalloc fun _ => True := by
  refine Keeps.read.bind fun free _ => ?_
  cases free with
  | nil => exact .stop
  | cons a free => exact (switches_setLedger _).bind fun _ _ => .pure trivial

theorem switches_strcat (s1 s2 : Path) : Keeps (Switches n f) (strcat s1 s2) fun _ => True :=
  switches_kalloc.bind fun _ _ => (switches_onKernel _).bind fun _ _ => .pure trivial

theorem switches_paged : paged.Keeping (Switches n f) (fun _ => True) fun _ => True where
  lift _ := switches_onKernel _
  redirect _ _ := switches_kalloc.bind fun _ _ => Keeps.read.bind fun _ _ => switches_strcat _ _
  dotted _ := (switches_strcat _ _).bind fun _ _ => .pure trivial
  setPath _ _ _ := .modify fun _ h => h
  register _ _ _ _ := (switches_onKernel _).bind fun _ _ => .modify fun _ h => h

theorem switches_onMail (c : Ipc.Call) : Keeps (Switches n f) (onMail c) fun _ => True := by
  intro s a t hs ha
  rw [onMail] at ha
  split at ha
  · cases ha
    exact ⟨hs,trivial⟩
  · cases ha

theorem switches_schedule (q : PSlot) : Keeps (Switches n f) (schedule q) fun _ => True :=
  (switches_onKernel _).bind fun _ _ => Keeps.read.bind fun _ _ => .ite
    (fun _ => switches_kalloc.bind fun _ _ => switches_kalloc.bind fun _ _ =>
      switches_kalloc.bind fun _ _ => switches_kalloc.bind fun _ _ =>
      switches_kalloc.bind fun _ _ => switches_kalloc.bind fun _ _ => .pure trivial)
    fun _ => .pure trivial

theorem switches_runCall (c : Kernel.Call) : Keeps (Switches n f) (runCall sb c) fun _ => True := by
  rw [runCall.eq_def]
  split
  · exact (switches_paged.sysOpen (fun _ => trivial) trivial _).bind fun _ _ => .pure trivial
  · exact Keeps.read.bind fun _ _ => (switches_onKernel _).bind fun _ _ => switches_setLedger _
  · exact switches_schedule _
  · exact switches_onKernel _

theorem switches_run {a : Act} (ha : ∀ p, a ≠ .schedulerLog p) :
    Keeps (Switches n f) (a.run sb) fun _ => True := by
  cases a with
  | call c => exact switches_runCall c
  | send p recPid text page =>
    exact Keeps.read.bind fun _ _ => switches_kalloc.bind fun _ _ =>
      (switches_onMail _).bind fun _ _ => switches_setLedger _
  | recv p str buffer low => exact switches_onMail _
  | schedulerLog p => exact absurd rfl (ha p)
  | others free => exact Keeps.modify fun _ h => h

end Keeps

def cidOf (s : Whole) (p : PSlot) : ℤ := (s.k.tables.proc p).cid

/-- The system, and how often `scheduler_log` has been called in each container. -/
structure Watched where
  sys : Whole
  calls : ℤ → ℕ

/-- The counts after an action from state `s`. -/
def countCall (s : Whole) (calls : ℤ → ℕ) : Act → ℤ → ℕ
  | .schedulerLog p => update calls (cidOf s p) (calls (cidOf s p) + 1)
  | _ => calls

def watchedStep (sb : Superblock) (w : Watched) (a : Act) : Option Watched :=
  (step sb w.sys a).map fun t => ⟨t, countCall w.sys w.calls a⟩

def watchedBoot (s : Fs.State) (free : List ℕ) : Watched where
  sys := boot (Kernel.boot s) free
  calls := fun _ => 0

/-- The scheduler would report the choice of a process of container `c`. -/
def logsCid (s : Whole) (c : ℤ) : Bool := s.schLog s.cidSchLog && c = s.cidSchLog

/-- A container is logged exactly if it has made an odd number of calls. -/
def LogsOdd (w : Watched) : Prop :=
  ∀ c, 0 ≤ c → c < 100 → (logsCid w.sys c = true ↔ Odd (w.calls c))

/-- A container uses its switch while the switch of no other container is on. -/
def Alone (w : Watched) : Act → Prop
  | .schedulerLog p => ∀ c : ℕ, c < 100 → (c : ℤ) ≠ cidOf w.sys p → w.sys.schLog c = false
  | _ => True

/-- What every run keeps: a switch is on after an odd number of calls. -/
def SwitchesOdd (w : Watched) : Prop :=
  ∀ c : ℕ, w.sys.schLog c = true ↔ Odd (w.calls c)

theorem watchedStep_cases {w w' : Watched} {a : Act} (h : watchedStep sb w a = some w') :
    (∃ p, a = .schedulerLog p ∧ 0 ≤ cidOf w.sys p ∧ cidOf w.sys p < 100 ∧
      w'.sys.cidSchLog = (cidOf w.sys p).toNat ∧
      w'.sys.schLog = update w.sys.schLog (cidOf w.sys p).toNat
        (!w.sys.schLog (cidOf w.sys p).toNat) ∧
      w'.calls = update w.calls (cidOf w.sys p) (w.calls (cidOf w.sys p) + 1)) ∨
    ((∀ p, a ≠ .schedulerLog p) ∧ w'.sys.cidSchLog = w.sys.cidSchLog ∧
      w'.sys.schLog = w.sys.schLog ∧ w'.calls = w.calls) := by
  obtain ⟨t,ht,rfl⟩ := Option.map_eq_some_iff.mp h
  rw [step] at ht
  split at ht
  case isFalse => cases ht
  split at ht
  case h_2 => cases ht
  next u t' hrun =>
  obtain rfl := Option.some.inj ht
  by_cases ha : ∃ p, a = .schedulerLog p
  · obtain ⟨p,rfl⟩ := ha
    refine .inl ⟨p,rfl,?_⟩
    change sysSchedulerLog p w.sys = .ok (u, t') at hrun
    obtain ⟨cid,s₁,hr,hrun⟩ := ok_of_bind hrun
    obtain ⟨rfl,rfl⟩ := Prod.mk.inj (Except.ok.inj hr)
    by_cases hcid : 0 ≤ cidOf w.sys p ∧ cidOf w.sys p < 100
    · have hmod : (modify (fun s : Whole => { s with
          cidSchLog := (cidOf w.sys p).toNat
          schLog := update s.schLog (cidOf w.sys p).toNat
            (!s.schLog (cidOf w.sys p).toNat) }) : PM Unit) w.sys = .ok (u, t') := by
        rw [← hrun]
        exact (congrFun (if_pos hcid) w.sys).symm
      obtain ⟨-,rfl⟩ := Prod.mk.inj (Except.ok.inj hmod)
      exact ⟨hcid.1,hcid.2,rfl,rfl,rfl⟩
    · have hwild : (stop .wild : PM Unit) w.sys = .ok (u, t') := by
        rw [← hrun]
        exact (congrFun (if_neg hcid) w.sys).symm
      cases hwild
  · have hne : ∀ p, a ≠ .schedulerLog p := fun p hp => ha ⟨p,hp⟩
    have hkeep : Keeps (Switches w.sys.cidSchLog w.sys.schLog) (a.run sb) fun _ => True :=
      switches_run hne
    have hsw := (hkeep w.sys u t' ⟨rfl,rfl⟩ hrun).1
    refine .inr ⟨hne,hsw.1,hsw.2,?_⟩
    cases a with
    | schedulerLog p => exact absurd rfl (hne p)
    | _ => rfl

theorem SwitchesOdd.step {w w' : Watched} {a : Act} (hw : SwitchesOdd w)
    (h : watchedStep sb w a = some w') : SwitchesOdd w' := by
  rcases watchedStep_cases h with ⟨p,-,h0,-,-,hlog,hcalls⟩ | ⟨-,-,hlog,hcalls⟩
  · intro c
    rw [hlog,hcalls]
    by_cases hc : c = (cidOf w.sys p).toNat
    · have hc' : (c : ℤ) = cidOf w.sys p := by omega
      rw [hc',← hc,update_self,update_self,Bool.not_eq_true',
        Nat.odd_add_one,← hc',← hw c,Bool.not_eq_true]
    · have hc' : (c : ℤ) ≠ cidOf w.sys p := by omega
      rw [update_of_ne hc,update_of_ne hc']
      exact hw c
  · intro c
    rw [hlog,hcalls]
    exact hw c

theorem LogsOdd.step_iff {w w' : Watched} {a : Act} (hw : SwitchesOdd w) (hodd : LogsOdd w)
    (h : watchedStep sb w a = some w') : LogsOdd w' ↔ Alone w a := by
  have hw' : SwitchesOdd w' := hw.step h
  rcases watchedStep_cases h with ⟨p,rfl,h0,h100,hsel,hlog,hcalls⟩ | ⟨hne,hsel,hlog,hcalls⟩
  · constructor
    · -- after the call only the caller's container can be logged
      intro hall c hc hcp
      have hcount : w'.calls c = w.calls c := by rw [hcalls,update_of_ne hcp]
      have hlogs := hall c (by omega) (by omega)
      have hno : logsCid w'.sys c = false := by
        have hne : ¬ (c : ℤ) = ((cidOf w.sys p).toNat : ℕ) := by omega
        rw [logsCid,hsel,decide_eq_false hne,Bool.and_false]
      rw [hno,hcount,← hw c] at hlogs
      exact Bool.eq_false_iff.mpr fun ht => absurd (hlogs.mpr ht) (by decide)
    intro halone c hc0 hc100
    obtain ⟨m,rfl⟩ := Int.eq_ofNat_of_zero_le hc0
    rw [← hw' m,logsCid,hsel]
    by_cases hm : (m : ℤ) = cidOf w.sys p
    · have hm' : (cidOf w.sys p).toNat = m := by omega
      rw [hm']
      simp
    · have hoff : w'.sys.schLog m = false := by
        rw [hlog,update_of_ne (by omega)]
        exact halone m (by omega) hm
      have hne : ¬ (m : ℤ) = ((cidOf w.sys p).toNat : ℕ) := by omega
      rw [decide_eq_false hne,Bool.and_false,hoff]
  · refine iff_of_true (fun c h0 h100 => ?_) ?_
    · rw [logsCid,hsel,hlog,hcalls]
      exact hodd c h0 h100
    · cases a with
      | schedulerLog p => exact absurd rfl (hne p)
      | _ => trivial

theorem switchesOdd_boot (s : Fs.State) (free : List ℕ) : SwitchesOdd (watchedBoot s free) := by
  intro c
  exact iff_of_false (by simp [watchedBoot,boot]) (by simp [watchedBoot,boot])

theorem logsOdd_boot (s : Fs.State) (free : List ℕ) : LogsOdd (watchedBoot s free) := by
  intro c _ _
  exact iff_of_false (by simp [watchedBoot,boot,logsCid]) (by simp [watchedBoot,boot])

/-- In a run from the start every container is logged according to its own calls, in every state,
exactly if a container only calls while no other one has its switch on. -/
theorem logs_odd_iff_alone (sb : Superblock) (s : Fs.State) (free : List ℕ) {acts : List Act}
    {w : Watched} (hrun : exec (watchedStep sb) (watchedBoot s free) acts = some w) :
    Throughout (watchedStep sb) LogsOdd (watchedBoot s free) acts ↔
      Meets (watchedStep sb) Alone (watchedBoot s free) acts :=
  throughout_iff_meets (fun _ _ _ hw h => hw.step h) (fun _ _ _ hw hodd h => hodd.step_iff hw h)
    (switchesOdd_boot s free) (logsOdd_boot s free) hrun

/-- The first process makes two containers and calls in the first of them. -/
def oneContainer : List Act :=
  [.call (.table (.schedule initproc)), .call (.createContainer initproc 1),
    .call (.createContainer initproc 2), .call (.table (.join initproc 1)),
    .schedulerLog initproc]

theorem meets_oneContainer :
    Meets (watchedStep .mkfs) Alone (watchedBoot Fs.mkfs []) oneContainer := by
  have hquiet : ∀ {w w' : Watched} {c : Kernel.Call}, watchedStep .mkfs w (.call c) = some w' →
      w'.sys.schLog = w.sys.schLog := by
    intro w w' c h
    rcases watchedStep_cases h with ⟨p,hp,-⟩ | ⟨-,-,hlog,-⟩
    · cases hp
    · exact hlog
  refine ⟨trivial,fun w1 h1 => ⟨trivial,fun w2 h2 => ⟨trivial,fun w3 h3 => ⟨trivial,
    fun w4 h4 => ⟨fun c _ _ => ?_,fun _ _ => trivial⟩⟩⟩⟩⟩
  rw [hquiet h4,hquiet h3,hquiet h2,hquiet h1]
  rfl

theorem logs_odd_iff_alone_oneContainer :
    ∃ w, exec (watchedStep .mkfs) (watchedBoot Fs.mkfs []) oneContainer = some w ∧
      Throughout (watchedStep .mkfs) LogsOdd (watchedBoot Fs.mkfs []) oneContainer := by
  have hsome : (exec (watchedStep .mkfs) (watchedBoot Fs.mkfs []) oneContainer).isSome = true := by
    decide +kernel
  obtain ⟨w,hw⟩ := Option.isSome_iff_exists.mp hsome
  exact ⟨w,hw,(logs_odd_iff_alone .mkfs Fs.mkfs [] hw).mpr meets_oneContainer⟩

/-- The process goes on to the second container and calls there: now the first one, with one call,
is not logged any more. -/
theorem other_container_stops_log : ¬ ∀ (sb : Superblock) (s : Fs.State) (free : List ℕ)
    (acts : List Act) (w : Watched),
      exec (watchedStep sb) (watchedBoot s free) acts = some w → LogsOdd w := by
  intro hall
  have hval : (exec (watchedStep .mkfs) (watchedBoot Fs.mkfs []) (oneContainer ++
      [.call (.table (.join initproc 2)),.schedulerLog initproc])).map
        (fun w => (logsCid w.sys 1, w.calls 1)) = some (false, 1) := by decide +kernel
  obtain ⟨w,hw,hpair⟩ := Option.map_eq_some_iff.mp hval
  obtain ⟨hlogs,hcalls⟩ := Prod.mk.inj hpair
  have hodd := hall .mkfs Fs.mkfs [] _ w hw 1 (by decide) (by decide)
  rw [hlogs,hcalls] at hodd
  exact absurd (hodd.mpr (by decide)) (by decide)

end Xv6Container.Paged
