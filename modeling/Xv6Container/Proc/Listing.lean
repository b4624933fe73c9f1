import Xv6Container.Proc.Whereabouts

/-! # What ps prints -/

namespace Xv6Container.Tables

open Run List

variable {s t : Tables} {p q : PSlot} {i : CSlot} {c : ℤ}

/-- The pids of used slots are distinct, and nobody has a number other than 0 before the sweep. -/
structure PidInv (s : Tables) : Prop where
  pids : s.UniquePids
  unswept : s.cidToPtable = false → ∀ q, (s.proc q).cid = 0

/-- A `fork` that succeeds hands out a pid that is free. -/
def FreshPids (s : Tables) : Act → Prop
  | .fork _ .enough => s.NewPidFree
  | _ => True

instance (s : Tables) : DecidablePred s.FreshPids := fun a => by
  unfold FreshPids
  split <;> infer_instance

theorem PidInv.sweep (h : PidInv s) : PidInv s.sweep := by
  refine ⟨h.pids.of_sub fun q hq => ⟨sweep_used.mp hq,?_⟩,fun hf => ?_⟩
  · rw [Tables.sweep]
    split <;> rfl
  · rw [sweep_cidToPtable] at hf
    cases hf

theorem PidInv.relocate (h : PidInv s) {k : Container} (hc : s.cidToPtable = true ∨ c = 0) :
    PidInv (s.relocate p c i k) := by
  refine ⟨h.pids.of_sub fun q hq => ⟨relocate_used.mp hq,relocate_pid⟩,fun hf q => ?_⟩
  change s.cidToPtable = false at hf
  by_cases hq : q = p
  · subst hq
    rw [relocate_cid_self]
    rcases hc with hc | hc
    · rw [hc] at hf
      cases hf
    · exact hc
  · rw [relocate_cid_of_ne hq]
    exact h.unswept hf q

theorem pidInv_boot : PidInv boot := by
  refine ⟨memberInv_boot.pids,fun _ q => ?_⟩
  simp only [boot]
  split <;> rfl

theorem UniquePids.effect (h : s.UniquePids) {a : Act} (hp : ∀ p, a.caller = some p → s.Used p)
    (hok : s.FreshPids a) (ha : a.keepsCids = true) (hs : s.effect a = some t) : t.UniquePids := by
  cases hq : a.quiet with
  | true => exact h.same (same_effect hq hp hs)
  | false =>
    cases a with
    | create | destroy | join | leave | ps => cases ha
    | fork p mem =>
      cases hs
      refine h.fork fun hmem => ?_
      subst hmem
      exact hok
    | wait p => cases hs; exact h.wait (hp p rfl)
    | exit | kill | «open» | schedule | yield | sleep | wakeup => cases hq

theorem PidInv.step (h : PidInv s) {a : Act} (hok : s.FreshPids a) (hs : s.step a = some t) :
    PidInv t := by
  obtain ⟨hp,hs⟩ := used_of_step hs
  cases ha : a.keepsCids with
  | true =>
    have hsame := sameCids_effect ha hp hs
    refine ⟨h.pids.effect hp hok ha hs,fun hf q => ?_⟩
    rw [hsame.cid]
    exact h.unswept (hsame.cidToPtable.symm.trans hf) q
  | false =>
    cases a with
    | create p c =>
      cases hs
      rw [createContainer.eq_def]
      split
      · exact h
      · split
        · exact h
        · exact ⟨h.pids,h.unswept⟩
    | destroy p c =>
      cases hs
      rw [destroyContainer.eq_def]
      split
      · exact h
      · exact ⟨h.pids,h.unswept⟩
    | join p c =>
      obtain ⟨⟨u,r⟩,hj,rfl⟩ := Option.map_eq_some_iff.mp hs
      obtain ⟨-,rfl,-⟩ | ⟨i,-,-,rfl⟩ := joinCont_cases hj
      · exact h.sweep
      · exact h.sweep.relocate (.inl sweep_cidToPtable)
    | leave p =>
      obtain ⟨⟨u,r⟩,hl,rfl⟩ := Option.map_eq_some_iff.mp hs
      obtain ⟨-,rfl,-⟩ | ⟨i,-,-,rfl⟩ := leaveContainer_cases hl
      · exact h
      · exact h.relocate (.inr rfl)
    | ps p =>
      cases hs
      rw [runningProcs_fst]
      exact h.sweep
    | fork | exit | wait | kill | «open» | schedule | yield | sleep | wakeup => cases ha

/-- The pids of the used slots, in table order. -/
def usedPids (s : Tables) : List ℤ :=
  ((List.finRange NPROC).filter fun q => (s.proc q).state ≠ .UNUSED).map fun q => (s.proc q).pid

/-- The container slot that `running_procs` reads for a caller inside one. -/
def servedBy (s : Tables) (p : PSlot) : CSlot := (s.findLive (s.proc p).cid).getD ⟨0, ncont_pos⟩

/-- The listing shows the used processes with the caller's number, each once, and no others. -/
def PsExact (s : Tables) (p : PSlot) : Prop :=
  (s.runningProcs p).2.Nodup ∧ ∀ x, x ∈ (s.runningProcs p).2 ↔
    ∃ q, s.Used q ∧ (s.proc q).cid = (s.proc p).cid ∧ (s.proc q).pid = x

/-- The list that serves `p` has the pid of a used process once if the process has the number of
`p`, and not at all otherwise. -/
def ListsMembers (s : Tables) (p : PSlot) : Prop :=
  ∀ q, s.Used q → (s.container (s.servedBy p)).pids.count (s.proc q).pid =
    if (s.proc q).cid = (s.proc p).cid then 1 else 0

instance (s : Tables) (p : PSlot) : Decidable (s.ListsMembers p) := by
  unfold ListsMembers; infer_instance

theorem mem_usedPids {x : ℤ} : x ∈ s.usedPids ↔ ∃ q, s.Used q ∧ (s.proc q).pid = x := by
  simp [usedPids,Used]

theorem PidInv.nodup_usedPids (h : PidInv s) : s.usedPids.Nodup := by
  refine (nodup_map_iff_inj_on ((nodup_finRange NPROC).filter _)).mpr ?_
  intro q hq r hr e
  exact h.pids q r (by simpa [Used] using hq) (by simpa [Used] using hr) e

theorem filter_used_map (h : PidInv s) (x : ℤ) :
    ((((List.finRange NPROC).filter fun q => (s.proc q).state ≠ .UNUSED).filter
      fun q => (s.proc q).pid = x).map fun q => (s.proc q).pid) =
      if x ∈ s.usedPids then [x] else [] := by
  have hfil : ((((List.finRange NPROC).filter fun q => (s.proc q).state ≠ .UNUSED).filter
      fun q => (s.proc q).pid = x).map fun q => (s.proc q).pid) =
      s.usedPids.filter (fun y => y = x) := by
    rw [usedPids,filter_map]
    rfl
  rw [hfil,filter_eq]
  split
  · next hx => rw [count_eq_one_of_mem h.nodup_usedPids hx,replicate_one]
  · next hx => rw [count_eq_zero_of_not_mem hx,replicate_zero]

theorem printed_eq (h : PidInv s) (hsw : s.cidToPtable = true) (hp : (s.proc p).cid ≠ -1) :
    (s.runningProcs p).2 = (s.container (s.servedBy p)).pids.filter fun x => x ∈ s.usedPids := by
  rw [runningProcs]
  simp only [sweep_of_swept hsw,if_neg hp,filter_used_map h]
  show (s.container (s.servedBy p)).pids.flatMap _ = _
  induction (s.container (s.servedBy p)).pids with
  | nil => rfl
  | cons x l ih =>
    rw [flatMap_cons,ih,filter_cons]
    by_cases hx : x ∈ s.usedPids <;> simp [hx]

theorem psExact_of_unswept (h : PidInv s) (hsw : s.cidToPtable = false) : s.PsExact p := by
  have hprint : (s.runningProcs p).2 = s.usedPids := by
    simp [runningProcs,Tables.sweep,hsw,usedPids]
  rw [PsExact,hprint]
  refine ⟨h.nodup_usedPids,fun x => mem_usedPids.trans ?_⟩
  simp only [h.unswept hsw,true_and]

theorem psExact_iff (h : PidInv s) (hsw : s.cidToPtable = true) (hp : (s.proc p).cid ≠ -1) :
    s.PsExact p ↔ s.ListsMembers p := by
  rw [PsExact,printed_eq h hsw hp]
  generalize hl : (s.container (s.servedBy p)).pids = l
  have hcount : ∀ q, s.Used q → (l.filter fun x => x ∈ s.usedPids).count (s.proc q).pid =
      l.count (s.proc q).pid := fun q hq => by
    refine count_filter (decide_eq_true ?_)
    exact mem_usedPids.mpr ⟨q,hq,rfl⟩
  constructor
  · rintro ⟨hnd,hmem⟩ q hq
    rw [hl,← hcount q hq]
    split
    · next hc => exact count_eq_one_of_mem hnd ((hmem _).mpr ⟨q,hq,hc,rfl⟩)
    · next hc =>
      refine count_eq_zero_of_not_mem fun hin => hc ?_
      obtain ⟨r,hr,hrc,hrq⟩ := (hmem _).mp hin
      obtain rfl := h.pids r q hr hq hrq
      exact hrc
  intro hlist
  refine ⟨List.nodup_iff_count_le_one.mpr fun x => ?_,fun x => ?_⟩
  · by_cases hx : x ∈ s.usedPids
    · obtain ⟨q,hq,rfl⟩ := mem_usedPids.mp hx
      have := hlist q hq
      rw [hl,← hcount q hq] at this
      rw [this]
      split <;> omega
    · rw [count_eq_zero_of_not_mem fun hin => hx (by simpa using (List.mem_filter.mp hin).2)]
      omega
  rw [mem_filter,decide_eq_true_iff,mem_usedPids]
  constructor
  · rintro ⟨hx,q,hq,rfl⟩
    refine ⟨q,hq,?_,rfl⟩
    by_contra hc
    have := hlist q hq
    rw [hl,if_neg hc] at this
    exact List.count_pos_iff.mpr hx |>.ne' this
  · rintro ⟨q,hq,hc,rfl⟩
    refine ⟨List.count_pos_iff.mp ?_,q,hq,rfl⟩
    have := hlist q hq
    rw [hl,if_pos hc] at this
    omega

theorem MemberInv.listsMembers (h : MemberInv s) (hl : s.findLive (s.proc p).cid ≠ none) :
    s.ListsMembers p := by
  obtain ⟨i,hi⟩ := Option.ne_none_iff_exists'.mp hl
  obtain ⟨hil,hic⟩ := findLive_some hi
  obtain ⟨hnd,hmem⟩ := h.exact i hil
  have hserved : s.servedBy p = i := by rw [servedBy,hi,Option.getD_some]
  intro q hq
  rw [hserved]
  split
  · next hc => exact count_eq_one_of_mem hnd ((hmem _).mpr ⟨q,hq,hc.trans hic.symm,rfl⟩)
  · next hc =>
    refine count_eq_zero_of_not_mem fun hin => hc ?_
    obtain ⟨r,hr,hrc,hrq⟩ := (hmem _).mp hin
    obtain rfl := h.pids r q hr hq hrq
    exact hrc.trans hic

/-- In every run in which `fork` hands out free pids, a process with a number other than -1 is shown
exactly the processes with its number if and only if the sweep has not been made or the list that
serves it counts as it should.
Along the runs that meet `KeepsLists` this is so for every caller whose container is live. -/
theorem ps_shows_members {acts : List Act} (hfresh : Meets step FreshPids boot acts)
    (hrun : exec step boot acts = some s) (hp : (s.proc p).cid ≠ -1) :
    (s.PsExact p ↔ s.cidToPtable = false ∨ s.ListsMembers p) ∧
      (Meets step KeepsLists boot acts → s.findLive (s.proc p).cid ≠ none → s.PsExact p) := by
  have h : PidInv s :=
    exec_invariant_of_meets (fun _ _ _ h hok hs => PidInv.step h hok hs) pidInv_boot hfresh hrun
  have hiff : s.PsExact p ↔ s.cidToPtable = false ∨ s.ListsMembers p := by
    cases hsw : s.cidToPtable with
    | false => exact iff_of_true (psExact_of_unswept h hsw) (.inl rfl)
    | true => simpa using psExact_iff h hsw hp
  refine ⟨hiff,fun hok hl => hiff.mpr (.inr ?_)⟩
  exact (exec_invariant_of_meets (fun _ _ _ h hok hs => MemberInv.step h hok hs) memberInv_boot
    hok hrun).listsMembers hl

theorem ps_shows_members_twoMembers :
    ∃ s, Meets step FreshPids boot twoMembersRun ∧ exec step boot twoMembersRun = some s ∧
      (s.proc initproc).cid ≠ -1 ∧ s.PsExact initproc := by
  have hfresh : Meets step FreshPids boot twoMembersRun := by decide +kernel
  have hok : Meets step KeepsLists boot twoMembersRun := by decide +kernel
  have key : ∀ s, exec step boot twoMembersRun = some s → (s.proc initproc).cid ≠ -1 →
      s.findLive (s.proc initproc).cid ≠ none → s.PsExact initproc :=
    fun _ hrun hp hl => (ps_shows_members hfresh hrun hp).2 hok hl
  exact ⟨_,hfresh,rfl,by decide,key _ rfl (by decide) (by decide)⟩

/-- Init is in container 5 when that container, which has slot 1, is destroyed. Init is then served
from slot 0 and shown its child, in container 4. -/
theorem ps_shows_other_container :
    ¬ ∀ acts s p, exec step boot acts = some s → (s.proc p).state = .RUNNING →
      (s.proc p).cid ≠ -1 → s.PsExact p := by
  intro h
  have hex := h [.schedule initproc,.create initproc 4,.create initproc 5,
    .fork initproc .enough,.join initproc 5,.yield initproc,.schedule firstChild,
    .join firstChild 4,.yield firstChild,.schedule initproc,.destroy initproc 5] _ initproc rfl
    rfl (by decide)
  obtain ⟨q,hq,hqc,hqp⟩ := (hex.2 2).mp (by decide)
  revert q
  decide

end Xv6Container.Tables
