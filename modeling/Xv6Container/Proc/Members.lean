import Xv6Container.Lib.Run
import Xv6Container.Lib.Slots
import Xv6Container.Proc.Table

/-! # Container membership lists -/

namespace Xv6Container.Tables

open Function Run List

variable {s t : Tables} {p q r : PSlot} {i j : CSlot} {c : ℤ}

theorem findLive_some (h : s.findLive c = some i) :
    s.location i = true ∧ (s.container i).cid = c := by
  simpa using find?_some h

theorem findLive_none (h : s.findLive c = none) (hi : s.location i = true) :
    (s.container i).cid ≠ c := by
  have := List.find?_eq_none.mp h i (mem_finRange i)
  simpa [hi] using this

theorem freeSlot_some (h : s.freeSlot = some i) : s.location i = false := by
  simpa using find?_some h

/-- Every live container's list holds exactly the pids of the processes whose `cid` is the
container's, each once. -/
def Exact (s : Tables) : Prop :=
  ∀ i, s.location i = true → (s.container i).pids.Nodup ∧
    ∀ x, x ∈ (s.container i).pids ↔ ∃ q, s.Used q ∧ (s.proc q).cid = (s.container i).cid ∧
      (s.proc q).pid = x

/-- The sweep does not make anyone a member of a container numbered -1. -/
def SweepOk (s : Tables) : Prop :=
  s.cidToPtable = false → ∀ i, s.location i = true → (s.container i).cid ≠ -1

/-- No process has the pid that `allocproc` hands out next, as it may after 2^31 forks. -/
def NewPidFree (s : Tables) : Prop := ∀ q, s.Used q → (s.proc q).pid ≠ s.nextpid

/-- When a call keeps the membership lists exact. -/
def KeepsLists (s : Tables) : Act → Prop
  -- nobody carries the new container's number already
  | .create _ c => s.findLive c = none → s.freeSlot ≠ none →
      ∀ q, s.Used q → (s.proc q).cid ≠ c
  -- the caller is in no live container
  | .join p c => s.SweepOk ∧
      (s.sweep.findLive c ≠ none → s.sweep.findLive (s.sweep.proc p).cid = none)
  -- the caller joined last, and there is no container 0
  | .leave p => ∀ i, s.findLive (s.proc p).cid = some i →
      (s.container i).mypid ((s.container i).numberOfProcess - 1) = (s.proc p).pid ∧
        s.findLive 0 = none
  -- the new pid is free, and the slot's last process left no live container's number in it
  | .fork _ mem => mem = .enough → s.NewPidFree ∧
      ∀ q, s.firstUnused = some q → s.findLive (s.proc q).cid = none
  -- the zombie is in no live container
  | .wait p => ∀ q, s.zombieChild p = some q → s.findLive (s.proc q).cid = none
  | .ps _ => s.SweepOk
  | _ => True

instance : Decidable s.SweepOk := by unfold SweepOk; infer_instance

instance : Decidable s.NewPidFree := by unfold NewPidFree; infer_instance

instance (s : Tables) : DecidablePred s.KeepsLists
  | .create .. | .fork .. => inferInstanceAs (Decidable (_ → _))
  | .join .. => inferInstanceAs (Decidable (_ ∧ _))
  | .leave .. | .wait .. => inferInstanceAs (Decidable (∀ i, _ = some i → _))
  | .ps .. => inferInstanceAs (Decidable s.SweepOk)
  | .destroy _ _ | .exit _ | .kill _ _ | .open _ | .schedule _ | .yield _ | .sleep _ _
  | .wakeup _ => isTrue trivial

def UniquePids (s : Tables) : Prop :=
  ∀ q r, s.Used q → s.Used r → (s.proc q).pid = (s.proc r).pid → q = r

/-- What the exact lists rest on: container numbers and pids are unique, and there are no members
before the sweep. -/
structure MemberInv (s : Tables) : Prop where
  exact : s.Exact
  live_inj : ∀ i j, s.location i = true → s.location j = true →
    (s.container i).cid = (s.container j).cid → i = j
  count_nonneg : ∀ i, s.location i = true → 0 ≤ (s.container i).numberOfProcess
  pids : s.UniquePids
  unswept : s.cidToPtable = false → ∀ i, s.location i = true →
    (s.container i).numberOfProcess = 0

/-- The `cid` fields and the container table are the same. -/
structure SameCids (s t : Tables) : Prop where
  cid : ∀ q, (t.proc q).cid = (s.proc q).cid
  container : t.container = s.container
  location : t.location = s.location
  cidToPtable : t.cidToPtable = s.cidToPtable

theorem SameCids.refl (s : Tables) : SameCids s s := ⟨fun _ => rfl,rfl,rfl,rfl⟩

theorem sameCids_setProc {x : Proc} (hx : x.cid = (s.proc p).cid) : SameCids s (s.setProc p x) := by
  refine ⟨fun q => ?_,rfl,rfl,rfl⟩
  by_cases hq : q = p
  · subst hq; simp [Tables.setProc,hx]
  · simp [Tables.setProc,update_of_ne hq]

/-- So are the processes and their pids. -/
structure Same (s t : Tables) : Prop extends SameCids s t where
  used : ∀ q, t.Used q ↔ s.Used q
  pid : ∀ q, (t.proc q).pid = (s.proc q).pid

theorem same_setSlots {f : PSlot → Slot NPROC ℕ}
    (hf : ∀ q, (f q).pid = (s.proc q).pid ∧ ((f q).state ≠ .UNUSED ↔ s.Used q)) :
    Same s (s.setSlots f) :=
  ⟨⟨fun _ => rfl,rfl,rfl,rfl⟩,fun q => (hf q).2,fun q => (hf q).1⟩

theorem same_setProc {x : Proc} (hp : s.Used p) (hx : x.state ≠ .UNUSED)
    (hpid : x.pid = (s.proc p).pid) (hcid : x.cid = (s.proc p).cid) : Same s (s.setProc p x) := by
  refine ⟨sameCids_setProc hcid,fun q => ?_,fun q => ?_⟩
  all_goals by_cases hq : q = p
  · subst hq; simp only [Used,Tables.setProc,update_self]; exact iff_of_true hx hp
  · simp only [Used,Tables.setProc,update_of_ne hq]
  · subst hq; simp only [Tables.setProc,update_self]; exact hpid
  · simp only [Tables.setProc,update_of_ne hq]

theorem woken_used {x y : Slot NPROC ℕ} (h : x.Woken y) : y.state ≠ .UNUSED ↔ x.state ≠ .UNUSED := by
  rcases h with rfl | ⟨hx,rfl⟩
  · rfl
  · simp [hx]

theorem same_wakeup1 (chan : ℕ) : Same s (s.wakeup1 chan) :=
  same_setSlots fun q =>
    have h := Slot.woken_wake1 chan (s.slots q)
    ⟨h.same.1,woken_used h⟩

theorem same_kill (pid : ℤ) : Same s (s.kill pid).1 := by
  refine same_setSlots fun q => ?_
  rcases Slot.kill_slot s.slots pid q with he | ⟨-,h⟩
  · rw [he]
    exact ⟨rfl,Iff.rfl⟩
  · have hu := woken_used h
    exact ⟨h.same.1,hu⟩

theorem same_exit (hp : s.Used p) (hs : s.exit p = some t) : Same s t := by
  rw [Tables.exit] at hs
  split at hs
  · cases hs
  cases hs
  refine same_setSlots fun q => ?_
  have h := Slot.woken_exit procChan initproc s.slots p q
  refine ⟨h.same.1,?_⟩
  rw [Slot.exitSlots]
  dsimp only
  split
  · next hq =>
    subst hq
    exact iff_of_true (by simp) hp
  · exact woken_used h

/-- The calls that leave processes, pids and containers alone. -/
def Act.quiet : Act → Bool
  | .exit _ | .kill _ _ | .open _ | .schedule _ | .yield _ | .sleep _ _ | .wakeup _ => true
  | _ => false

theorem same_effect {a : Act} (ha : a.quiet = true) (hp : ∀ p, a.caller = some p → s.Used p)
    (hs : s.effect a = some t) : Same s t := by
  cases a with
  | create | destroy | join | leave | fork | wait | ps => cases ha
  | exit p => exact same_exit (hp p rfl) hs
  | kill p pid => cases hs; exact same_kill pid
  | «open» p => cases hs; exact ⟨.refl s,fun _ => Iff.rfl,fun _ => rfl⟩
  | schedule p =>
    rw [Tables.effect] at hs
    split at hs
    · next hst =>
      cases hs
      exact same_setProc (by rw [Used,hst]; simp) (by simp) rfl rfl
    · cases hs
  | yield p | sleep p chan => cases hs; exact same_setProc (hp p rfl) (by simp) rfl rfl
  | wakeup chan => cases hs; exact same_wakeup1 chan

/-- What `fork` can do: nothing, or take a slot and a pid, for good if there is memory enough. -/
theorem fork_cases (s : Tables) (p : PSlot) (mem : ForkMemory) :
    (s.fork p mem).1 = s ∨ ∃ q x, s.firstUnused = some q ∧ x.cid = (s.proc q).cid ∧
      (x.state = .UNUSED ∨ mem = .enough ∧ x.pid = s.nextpid) ∧
      (s.fork p mem).1 = { s.setProc q x with nextpid := wrapInt (s.nextpid + 1) } := by
  rw [Tables.fork.eq_def]
  cases hq : s.firstUnused with
  | none => exact .inl rfl
  | some q =>
    refine .inr ⟨q,?_⟩
    cases mem with
    | noStack | noSpace =>
      exact ⟨{ s.proc q with state := .UNUSED, pid := s.nextpid },rfl,rfl,.inl rfl,
        by simp [embryo,setState,Tables.setProc]⟩
    | enough =>
      exact ⟨{ s.proc q with state := .RUNNABLE, pid := s.nextpid, parent := some p },rfl,rfl,
        .inr ⟨rfl,rfl⟩,by simp [embryo,Tables.setProc]⟩

/-- What `wait` can do: free the slot of a zombie, or nothing or sleep. -/
theorem wait_cases (hp : s.Used p) :
    (∃ q x, s.zombieChild p = some q ∧ x.cid = (s.proc q).cid ∧ x.state = .UNUSED ∧
      (s.wait p).1 = s.setProc q x) ∨ Same s (s.wait p).1 := by
  rw [Tables.wait.eq_def]
  cases hz : s.zombieChild p with
  | some q => exact .inl ⟨q,{ s.proc q with toSlot := (s.slots q).reap },rfl,rfl,rfl,rfl⟩
  | none =>
    dsimp only
    split
    · exact .inr ⟨.refl s,fun _ => Iff.rfl,fun _ => rfl⟩
    · exact .inr (same_setProc hp (by simp) rfl rfl)

theorem UniquePids.of_sub (h : s.UniquePids)
    (hsub : ∀ q, t.Used q → s.Used q ∧ (t.proc q).pid = (s.proc q).pid) : t.UniquePids := by
  intro q r hq hr e
  obtain ⟨hq,hqp⟩ := hsub q hq
  obtain ⟨hr,hrp⟩ := hsub r hr
  rw [hqp,hrp] at e
  exact h q r hq hr e

theorem UniquePids.same (h : s.UniquePids) (hs : Same s t) : t.UniquePids :=
  h.of_sub fun q hq => ⟨(hs.used q).mp hq,hs.pid q⟩

theorem UniquePids.setProc (h : s.UniquePids) {x : Proc}
    (hx : x.state ≠ .UNUSED → ∀ q, s.Used q → (s.proc q).pid ≠ x.pid) :
    (s.setProc p x).UniquePids := by
  refine Slots.unique_change (f := s.proc) (P := fun x => x.state ≠ .UNUSED) (k := fun x => x.pid) h
    (fun q hq => update_of_ne hq _ _) ?_
  rw [show (s.setProc p x).proc p = x from update_self ..]
  exact fun hu q _ hq => hx hu q hq

theorem UniquePids.fork (h : s.UniquePids) {mem : ForkMemory} (hfree : mem = .enough → s.NewPidFree) :
    (s.fork p mem).1.UniquePids := by
  obtain he | ⟨q,x,-,-,hx,he⟩ := fork_cases s p mem
  · rw [he]
    exact h
  · rw [he]
    refine UniquePids.setProc h fun hu r hr => ?_
    rcases hx with hx | ⟨hmem,hpid⟩
    · exact absurd hx hu
    · rw [hpid]
      exact hfree hmem r hr

theorem UniquePids.wait (h : s.UniquePids) (hp : s.Used p) : (s.wait p).1.UniquePids := by
  obtain ⟨q,x,-,-,hx,he⟩ | hs := wait_cases hp
  · rw [he]
    exact h.setProc fun hu => absurd hx hu
  · exact h.same hs

theorem MemberInv.same (h : MemberInv s) (hs : Same s t) : MemberInv t := by
  refine ⟨?_,?_,?_,h.pids.same hs,?_⟩
  · intro i hi
    rw [hs.location] at hi
    simp only [hs.container,hs.used,hs.cid,hs.pid]
    exact h.exact i hi
  · rw [hs.location,hs.container]; exact h.live_inj
  · rw [hs.location,hs.container]; exact h.count_nonneg
  · rw [hs.cidToPtable,hs.location,hs.container]; exact h.unswept

theorem Exact.setProc (h : s.Exact) {x : Proc} (hold : s.Used p → s.findLive (s.proc p).cid = none)
    (hnew : x.state ≠ .UNUSED → s.findLive x.cid = none) : (s.setProc p x).Exact := by
  intro i hi
  change s.location i = true at hi
  obtain ⟨hnd,hmem⟩ := h i hi
  refine ⟨hnd,fun y => (hmem y).trans ?_⟩
  show _ ↔ ∃ q, (s.setProc p x).Used q ∧ ((s.setProc p x).proc q).cid = (s.container i).cid ∧ _
  constructor
  · rintro ⟨q,hq,hqc,hqx⟩
    have hne : q ≠ p := by
      rintro rfl
      exact findLive_none (hold hq) hi hqc.symm
    refine ⟨q,?_,?_,?_⟩
    · simpa only [Used,Tables.setProc,update_of_ne hne] using hq
    · simpa only [Tables.setProc,update_of_ne hne] using hqc
    · simpa only [Tables.setProc,update_of_ne hne] using hqx
  · rintro ⟨q,hq,hqc,hqx⟩
    have hne : q ≠ p := by
      rintro rfl
      simp only [Used,Tables.setProc,update_self] at hq hqc
      exact findLive_none (hnew hq) hi hqc.symm
    simp only [Used,Tables.setProc,update_of_ne hne] at hq hqc hqx
    exact ⟨q,hq,hqc,hqx⟩

theorem MemberInv.fork (h : MemberInv s) {mem : ForkMemory}
    (hok : s.KeepsLists (.fork p mem)) : MemberInv (s.fork p mem).1 := by
  have hpids := h.pids.fork (p := p) fun hmem => (hok hmem).1
  obtain he | ⟨q,x,hq,hcid,hx,he⟩ := fork_cases s p mem
  · rw [he]
    exact h
  · have hun : (s.proc q).state = .UNUSED := Slot.firstUnused_some hq
    have hexact : (s.setProc q x).Exact := by
      refine h.exact.setProc (fun hu => absurd hun hu) fun hu => ?_
      rw [hcid]
      exact (hok ((hx.resolve_left hu).1)).2 q hq
    rw [he] at hpids ⊢
    exact ⟨hexact,h.live_inj,h.count_nonneg,hpids,h.unswept⟩

theorem MemberInv.wait (h : MemberInv s) (hp : s.Used p) (hok : s.KeepsLists (.wait p)) :
    MemberInv (s.wait p).1 := by
  have hpids := h.pids.wait hp
  obtain ⟨q,x,hq,-,hx,he⟩ | hs := wait_cases hp
  · rw [he] at hpids ⊢
    exact ⟨h.exact.setProc (fun _ => hok q hq) fun hu => absurd hx hu,h.live_inj,h.count_nonneg,hpids,
      h.unswept⟩
  · exact h.same hs

theorem sweep_used : s.sweep.Used q ↔ s.Used q := by
  unfold sweep
  split <;> rfl

theorem sweep_of_swept (h : s.cidToPtable = true) : s.sweep = s := by simp [sweep,h]

theorem sweep_cidToPtable : s.sweep.cidToPtable = true := by
  unfold sweep
  split
  · assumption
  · rfl

theorem sweep_state : (s.sweep.proc q).state = (s.proc q).state := by
  unfold sweep
  split <;> rfl

theorem runningProcs_fst : (s.runningProcs p).1 = s.sweep := by
  unfold runningProcs
  dsimp only
  split <;> rfl

theorem MemberInv.sweep (h : MemberInv s) (hok : s.SweepOk) : MemberInv s.sweep := by
  cases hsw : s.cidToPtable with
  | true => rw [sweep_of_swept hsw]; exact h
  | false =>
    have hs : s.sweep =
        { s with proc := fun q => { s.proc q with cid := -1 }, cidToPtable := true } := by
      simp [Tables.sweep,hsw]
    rw [hs]
    refine ⟨?_,h.live_inj,h.count_nonneg,h.pids,fun hf => by cases hf⟩
    intro i hi
    change s.location i = true at hi
    have hm : (s.container i).pids = [] := by simp [Container.pids,h.unswept hsw i hi]
    refine ⟨(h.exact i hi).1,fun x => ?_⟩
    show x ∈ (s.container i).pids ↔ _
    rw [hm]
    refine iff_of_false (by simp) ?_
    rintro ⟨q,-,hq,-⟩
    exact hok hsw i hi hq.symm

theorem MemberInv.create (h : MemberInv s) (hok : s.KeepsLists (.create p c)) :
    MemberInv (s.createContainer c).1 := by
  unfold createContainer
  split
  · exact h
  next hc =>
  split
  · exact h
  next i hi =>
  have hnone : ∀ q, s.Used q → (s.proc q).cid ≠ c := hok hc (by rw [hi]; simp)
  have hfree := freeSlot_some hi
  -- a live slot is the new one, or was live before
  have hold : ∀ j, update s.location i true j = true → j ≠ i → s.location j = true := by
    intro j hj hne
    rwa [update_of_ne hne] at hj
  refine ⟨?_,?_,?_,h.pids,?_⟩
  · intro j hj
    by_cases hji : j = i
    · subst hji
      simp only [setContainer,update_self]
      refine ⟨by simp [Container.pids],fun x => iff_of_false (by simp [Container.pids]) ?_⟩
      rintro ⟨q,hq,hqc,-⟩
      exact hnone q hq hqc
    · have hj' := hold j hj hji
      simp only [setContainer,update_of_ne hji]
      exact h.exact j hj'
  · refine Slots.unique_change (f := fun j => (s.location j, s.container j)) (p := i)
      (P := fun x => x.1 = true) (k := fun x => x.2.cid) (g := fun j =>
        (update s.location i true j, (s.setContainer i _).container j)) h.live_inj
      (fun j hj => ?_) fun _ j hj hl => ?_
    · simp only [setContainer,update_of_ne hj]
    · simp only [setContainer,update_self]
      exact findLive_none hc hl
  · intro j hj
    by_cases hji : j = i
    · subst hji
      simp [setContainer]
    · simpa only [setContainer,update_of_ne hji] using h.count_nonneg j (hold j hj hji)
  · intro hsw j hj
    by_cases hji : j = i
    · subst hji
      simp [setContainer]
    · simpa only [setContainer,update_of_ne hji] using h.unswept hsw j (hold j hj hji)

theorem MemberInv.destroy (h : MemberInv s) : MemberInv (s.destroyContainer c).1 := by
  unfold destroyContainer
  split
  · exact h
  next i hi =>
  have hold : ∀ j, update s.location i false j = true → s.location j = true := by
    intro j hj
    by_cases hji : j = i
    · subst hji
      simp at hj
    · rwa [update_of_ne hji] at hj
  exact ⟨fun j hj => h.exact j (hold j hj),fun j k hj hk => h.live_inj j k (hold j hj) (hold k hk),
    fun j hj => h.count_nonneg j (hold j hj),h.pids,
    fun hsw j hj => h.unswept hsw j (hold j hj)⟩

/-- Process `p` gets container number `c` and slot `i` the list of `k`: what the stores of
`join_cont` and `sys_leave_container` come to. -/
def relocate (s : Tables) (p : PSlot) (c : ℤ) (i : CSlot) (k : Container) : Tables :=
  (s.setContainer i k).setProc p { s.proc p with cid := c }

theorem relocate_used {k : Container} : (s.relocate p c i k).Used q ↔ s.Used q := by
  by_cases hq : q = p
  · subst hq; simp [relocate,Used,Tables.setProc]
  · simp [relocate,Used,Tables.setProc,setContainer,update_of_ne hq]

theorem relocate_pid {k : Container} : ((s.relocate p c i k).proc q).pid = (s.proc q).pid := by
  by_cases hq : q = p
  · subst hq; simp [relocate,Tables.setProc]
  · simp [relocate,Tables.setProc,setContainer,update_of_ne hq]

theorem relocate_cid_self {k : Container} : ((s.relocate p c i k).proc p).cid = c := by
  simp [relocate,Tables.setProc]

theorem relocate_cid_of_ne {k : Container} (hq : q ≠ p) :
    ((s.relocate p c i k).proc q).cid = (s.proc q).cid := by
  simp [relocate,Tables.setProc,setContainer,update_of_ne hq]

theorem relocate_container_self {k : Container} : (s.relocate p c i k).container i = k := by
  simp [relocate,Tables.setProc,setContainer]

theorem relocate_container_of_ne {k : Container} (hj : j ≠ i) :
    (s.relocate p c i k).container j = s.container j := by
  simp [relocate,Tables.setProc,setContainer,update_of_ne hj]

/-- What `join_cont` can do after the sweep: find no such container, or move the caller and append
its pid. -/
theorem joinCont_cases {v : ℤ} (h : s.joinCont p c = some (t, v)) :
    (s.sweep.findLive c = none ∧ t = s.sweep ∧ v = -1) ∨
    ∃ i, s.sweep.findLive c = some i ∧ v = 1 ∧ t = s.sweep.relocate p c i
      { s.sweep.container i with
        mypid := update (s.sweep.container i).mypid
          (s.sweep.container i).numberOfProcess (s.sweep.proc p).pid
        numberOfProcess := (s.sweep.container i).numberOfProcess + 1 } := by
  unfold joinCont at h
  dsimp only at h
  split at h
  · next hn =>
    cases h
    exact .inl ⟨hn,rfl,rfl⟩
  · next i hi =>
    split at h
    · cases h
      exact .inr ⟨i,hi,rfl,rfl⟩
    · cases h

/-- What `sys_leave_container` can do: find no such container, or move the caller to number 0 and
drop the last pid. -/
theorem leaveContainer_cases {v : ℤ} (h : s.leaveContainer p = some (t, v)) :
    (s.findLive (s.proc p).cid = none ∧ t = s ∧ v = -1) ∨
    ∃ i, s.findLive (s.proc p).cid = some i ∧ v = 1 ∧ t = s.relocate p 0 i
      { s.container i with
        mypid := update (s.container i).mypid (s.container i).numberOfProcess (-1)
        numberOfProcess := (s.container i).numberOfProcess - 1 } := by
  unfold leaveContainer at h
  split at h
  · next hn =>
    cases h
    exact .inl ⟨hn,rfl,rfl⟩
  · next i hi =>
    dsimp only at h
    split at h
    · cases h
      exact .inr ⟨i,hi,rfl,rfl⟩
    · cases h

/-- Moving one process keeps the lists exact if the list of slot `i` follows the move and no other
list is concerned by it. -/
theorem MemberInv.relocate (h : MemberInv s) {k : Container} (hil : s.location i = true)
    (hk : k.cid = (s.container i).cid) (hn : 0 ≤ k.numberOfProcess)
    (hsw : s.cidToPtable = true) (hnd : k.pids.Nodup)
    (hlist : ∀ x, x ∈ k.pids ↔ ∃ q, s.Used q ∧
      (if q = p then c else (s.proc q).cid) = (s.container i).cid ∧ (s.proc q).pid = x)
    (hother : ∀ j, j ≠ i → s.location j = true →
      (s.container j).cid ≠ c ∧ (s.container j).cid ≠ (s.proc p).cid) :
    MemberInv (s.relocate p c i k) := by
  have hcid : ∀ q, ((s.relocate p c i k).proc q).cid = if q = p then c else (s.proc q).cid := by
    intro q
    by_cases hq : q = p
    · subst hq; rw [relocate_cid_self,if_pos rfl]
    · rw [relocate_cid_of_ne hq,if_neg hq]
  have hcc : ∀ j, ((s.relocate p c i k).container j).cid = (s.container j).cid := by
    intro j
    by_cases hj : j = i
    · subst hj; rw [relocate_container_self,hk]
    · rw [relocate_container_of_ne hj]
  refine ⟨?_,?_,?_,?_,?_⟩
  · intro j hj
    change s.location j = true at hj
    simp only [hcc,hcid,relocate_used,relocate_pid]
    by_cases hji : j = i
    · subst hji
      rw [relocate_container_self]
      exact ⟨hnd,hlist⟩
    rw [relocate_container_of_ne hji]
    obtain ⟨hnd',hmem⟩ := h.exact j hj
    obtain ⟨hc,hp⟩ := hother j hji hj
    refine ⟨hnd',fun x => (hmem x).trans ?_⟩
    refine exists_congr fun q => and_congr_right fun _ => and_congr_left fun _ => ?_
    split
    · next hq =>
      subst hq
      exact iff_of_false hp.symm hc.symm
    · rfl
  · intro j l hj hl
    rw [hcc,hcc]
    exact h.live_inj j l hj hl
  · intro j hj
    by_cases hji : j = i
    · subst hji
      rw [relocate_container_self]
      exact hn
    · rw [relocate_container_of_ne hji]
      exact h.count_nonneg j hj
  · exact h.pids.of_sub fun q hq => ⟨relocate_used.mp hq,relocate_pid⟩
  · intro hf
    rw [show (s.relocate p c i k).cidToPtable = s.cidToPtable from rfl,hsw] at hf
    cases hf

theorem map_range_update (f : ℤ → ℤ) {n m : ℕ} (h : n ≤ m) (x : ℤ) :
    (List.range n).map (fun k : ℕ => update f m x k) = (List.range n).map fun k : ℕ => f k := by
  apply map_congr_left
  intro k hk
  have hlt := List.mem_range.mp hk
  rw [update_of_ne (by omega)]

theorem pids_push (k : Container) (hn : 0 ≤ k.numberOfProcess) (x : ℤ) :
    Container.pids { k with
      mypid := update k.mypid k.numberOfProcess x
      numberOfProcess := k.numberOfProcess + 1 } = k.pids ++ [x] := by
  obtain ⟨n,hn⟩ := Int.eq_ofNat_of_zero_le hn
  have hnt : ((n : ℤ) + 1).toNat = n+1 := by omega
  simp only [Container.pids,hn,hnt,Int.toNat_natCast,range_succ,map_append,
    map_range_update k.mypid le_rfl,map_cons,map_nil,update_self]

theorem pids_pop (k : Container) {m : ℕ} (hn : k.numberOfProcess = m+1) :
    k.pids = Container.pids { k with
      mypid := update k.mypid k.numberOfProcess (-1)
      numberOfProcess := k.numberOfProcess - 1 } ++ [k.mypid (k.numberOfProcess-1)] := by
  have hnt : ((m : ℤ) + 1).toNat = m+1 := by omega
  have hm : (m : ℤ) + 1 - 1 = m := by omega
  have hmap := map_range_update k.mypid (n := m) (m := m+1) (Nat.le_succ m) (-1)
  push_cast at hmap
  simp only [Container.pids,hn,hnt,hm,Int.toNat_natCast,range_succ,map_append,map_cons,map_nil,hmap]

theorem MemberInv.join_swept (h : MemberInv s) (hp : s.Used p) (hi : s.findLive c = some i)
    (hsw : s.cidToPtable = true) (hout : s.findLive (s.proc p).cid = none) :
    MemberInv (s.relocate p c i { s.container i with
      mypid := update (s.container i).mypid (s.container i).numberOfProcess (s.proc p).pid
      numberOfProcess := (s.container i).numberOfProcess + 1 }) := by
  obtain ⟨hil,hic⟩ := findLive_some hi
  have hcount := h.count_nonneg i hil
  obtain ⟨hnd,hmem⟩ := h.exact i hil
  have hnot : ∀ j, s.location j = true → (s.container j).cid ≠ (s.proc p).cid := fun j hj =>
    findLive_none hout hj
  have hfresh : (s.proc p).pid ∉ (s.container i).pids := by
    rw [hmem]
    rintro ⟨q,hq,hqc,hqp⟩
    obtain rfl := h.pids q p hq hp hqp
    exact hnot i hil hqc.symm
  have hpush := pids_push (s.container i) hcount (s.proc p).pid
  refine h.relocate hil rfl (by show 0 ≤ _ + 1; omega) hsw ?_ ?_ ?_
  · rw [hpush,nodup_append]
    refine ⟨hnd,nodup_singleton _,fun a ha b hb => ?_⟩
    rw [List.mem_singleton.mp hb]
    rintro rfl
    exact hfresh ha
  · intro x
    rw [hpush,mem_append,hmem,mem_singleton]
    constructor
    · rintro (⟨q,hq,hqc,hqx⟩ | rfl)
      · have hne : q ≠ p := by
          rintro rfl
          exact hnot i hil hqc.symm
        exact ⟨q,hq,by rw [if_neg hne]; exact hqc,hqx⟩
      · exact ⟨p,hp,by rw [if_pos rfl,hic],rfl⟩
    · rintro ⟨q,hq,hqc,hqx⟩
      by_cases hqp : q = p
      · subst hqp
        exact .inr hqx.symm
      · rw [if_neg hqp] at hqc
        exact .inl ⟨q,hq,hqc,hqx⟩
  · intro j hji hj
    exact ⟨fun e => hji (h.live_inj j i hj hil (e.trans hic.symm)),hnot j hj⟩

theorem MemberInv.join (h : MemberInv s) (hp : s.Used p) (hok : s.KeepsLists (.join p c))
    {r : ℤ} (hs : s.joinCont p c = some (t, r)) : MemberInv t := by
  have hsw := h.sweep hok.1
  obtain ⟨-,rfl,-⟩ | ⟨i,hi,-,rfl⟩ := joinCont_cases hs
  · exact hsw
  · exact hsw.join_swept (sweep_used.mpr hp) hi sweep_cidToPtable (hok.2 (by rw [hi]; simp))

theorem MemberInv.leave (h : MemberInv s) (hp : s.Used p) (hok : s.KeepsLists (.leave p))
    {r : ℤ} (hs : s.leaveContainer p = some (t, r)) : MemberInv t := by
  obtain ⟨-,rfl,-⟩ | ⟨i,hi,-,rfl⟩ := leaveContainer_cases hs
  · exact h
  obtain ⟨hlast,hzero⟩ := hok i hi
  obtain ⟨hil,hic⟩ := findLive_some hi
  obtain ⟨hnd,hmem⟩ := h.exact i hil
  have hpm : (s.proc p).pid ∈ (s.container i).pids := (hmem _).mpr ⟨p,hp,hic.symm,rfl⟩
  -- the caller is in the list, so the list is not empty and the sweep is made
  obtain ⟨m,hm⟩ : ∃ m : ℕ, (s.container i).numberOfProcess = m + 1 := by
    obtain ⟨n,hn⟩ := Int.eq_ofNat_of_zero_le (h.count_nonneg i hil)
    cases n with
    | zero => simp [Container.pids,hn] at hpm
    | succ m => exact ⟨m,by rw [hn]; push_cast; rfl⟩
  have hsw : s.cidToPtable = true := by
    by_contra hf
    have := h.unswept (by simpa using hf) i hil
    omega
  have hpop := pids_pop (s.container i) hm
  rw [hlast] at hpop
  rw [hpop,nodup_append] at hnd
  obtain ⟨hnd,-,hdis⟩ := hnd
  refine h.relocate hil rfl (by show 0 ≤ (s.container i).numberOfProcess - 1; omega) hsw hnd ?_ ?_
  · intro x
    constructor
    · intro hx
      have hx' : x ∈ (s.container i).pids := by rw [hpop]; exact mem_append_left _ hx
      obtain ⟨q,hq,hqc,hqx⟩ := (hmem x).mp hx'
      have hne : q ≠ p := by
        rintro rfl
        exact hdis x hx _ (mem_singleton_self _) hqx.symm
      exact ⟨q,hq,by rw [if_neg hne]; exact hqc,hqx⟩
    rintro ⟨q,hq,hqc,hqx⟩
    have hne : q ≠ p := by
      rintro rfl
      rw [if_pos rfl] at hqc
      exact findLive_none hzero hil hqc.symm
    rw [if_neg hne] at hqc
    have hx' := (hmem x).mpr ⟨q,hq,hqc,hqx⟩
    rw [hpop,mem_append,mem_singleton] at hx'
    rcases hx' with hx' | rfl
    · exact hx'
    · exact absurd (h.pids q p hq hp hqx) hne
  · intro j hji hj
    refine ⟨findLive_none hzero hj,fun e => hji (h.live_inj j i hj hil ?_)⟩
    exact e.trans hic.symm

theorem memberInv_boot : MemberInv boot := by
  have hused : ∀ q, boot.Used q → q = initproc := by
    intro q hq
    by_contra hne
    simp [Used,boot,hne] at hq
  refine ⟨?_,?_,?_,fun q r hq hr _ => by rw [hused q hq,hused r hr],?_⟩
  · intro i hi
    simp [boot] at hi
  · intro i j hi
    simp [boot] at hi
  · intro i hi
    simp [boot] at hi
  · intro _ i hi
    simp [boot] at hi

theorem MemberInv.effect (h : MemberInv s) {a : Act}
    (hp : ∀ p, a.caller = some p → s.Used p) (hok : s.KeepsLists a)
    (hs : s.effect a = some t) : MemberInv t := by
  cases ha : a.quiet with
  | true => exact h.same (same_effect ha hp hs)
  | false =>
    cases a with
    | create p c => cases hs; exact h.create hok
    | destroy p c => cases hs; exact h.destroy
    | join p c =>
      obtain ⟨⟨u,r⟩,hj,rfl⟩ := Option.map_eq_some_iff.mp hs
      exact h.join (hp p rfl) hok hj
    | leave p =>
      obtain ⟨⟨u,r⟩,hl,rfl⟩ := Option.map_eq_some_iff.mp hs
      exact h.leave (hp p rfl) hok hl
    | fork p mem => cases hs; exact h.fork hok
    | wait p => cases hs; exact h.wait (hp p rfl) hok
    | ps p =>
      cases hs
      rw [runningProcs_fst]
      exact h.sweep hok
    | exit | kill | «open» | schedule | yield | sleep | wakeup => cases ha

theorem used_of_step {a : Act} (hs : s.step a = some t) :
    (∀ p, a.caller = some p → s.Used p) ∧ s.effect a = some t := by
  rw [Tables.step] at hs
  split at hs
  · next p hp =>
    split at hs
    · next hrun =>
      refine ⟨fun q hq => ?_,hs⟩
      cases hp.symm.trans hq
      rw [Used,hrun]
      simp
    · cases hs
  · next hn => exact ⟨fun q hq => (by cases hn.symm.trans hq),hs⟩

theorem MemberInv.step (h : MemberInv s) {a : Act} (hok : s.KeepsLists a)
    (hs : s.step a = some t) : MemberInv t :=
  h.effect (used_of_step hs).1 hok (used_of_step hs).2

/-- In every run from boot whose calls all meet `KeepsLists`, the membership list of every live
container is exact in the state reached. -/
theorem membership_exact {acts : List Act} (hok : Meets step KeepsLists boot acts)
    (hrun : exec step boot acts = some s) : s.Exact :=
  (exec_invariant_of_meets (fun _ _ _ h hok hs => MemberInv.step h hok hs) memberInv_boot hok
    hrun).exact

def firstChild : PSlot := ⟨1, by decide⟩

/-- Init and a child of it join container 5, and the child leaves again. -/
def twoMembersRun : List Act :=
  [.schedule initproc, .create initproc 5, .fork initproc .enough, .join initproc 5,
    .yield initproc, .schedule firstChild, .join firstChild 5, .leave firstChild]

theorem membership_exact_twoMembers :
    ∃ s, Meets step KeepsLists boot twoMembersRun ∧ exec step boot twoMembersRun = some s ∧
      s.Exact := by
  have hok : Meets step KeepsLists boot twoMembersRun := by decide +kernel
  exact ⟨_,hok,rfl,membership_exact hok rfl⟩

/-- Joining the same container twice puts the pid into its list twice. -/
theorem membership_not_exact :
    ¬ ∀ acts s, exec step boot acts = some s → s.Exact := by
  intro h
  have hdup := (h [.schedule initproc,.create initproc 5,.join initproc 5,.join initproc 5] _ rfl
    ⟨0,by decide⟩ rfl).1
  have hpids : [(1 : ℤ),1].Nodup := hdup
  simp at hpids

end Xv6Container.Tables
