import Xv6Container.Proc.Members

/-!
# Where a process is

`cid` is written by the one-time sweep, by a join and by a leave. A `Tracked` state keeps beside
the tables where each process really is and which of the three wrote its slot last.
-/

namespace Xv6Container.Tables

open Function Run Option

variable {s t : Tables} {p q : PSlot} {i j : CSlot} {c v : ℤ}

/-- The calls that neither sweep, join, leave, create nor destroy. -/
def Act.keepsCids : Act → Bool
  | .create _ _ | .destroy _ _ | .join _ _ | .leave _ | .ps _ => false
  | _ => true

theorem sameCids_effect {a : Act} (ha : a.keepsCids = true)
    (hp : ∀ p, a.caller = some p → s.Used p) (hs : s.effect a = some t) : SameCids s t := by
  cases hq : a.quiet with
  | true => exact (same_effect hq hp hs).toSameCids
  | false =>
    cases a with
    | create | destroy | join | leave | ps => cases ha
    | fork p mem =>
      cases hs
      obtain he | ⟨q,x,-,hx,-,he⟩ := fork_cases s p mem
      · rw [he]
        exact .refl s
      · obtain ⟨hcid,-,-,-⟩ := sameCids_setProc hx
        rw [he]
        exact ⟨hcid,rfl,rfl,rfl⟩
    | wait p =>
      cases hs
      obtain ⟨q,x,-,hx,-,he⟩ | hsame := wait_cases (hp p rfl)
      · rw [he]
        exact sameCids_setProc hx
      · exact hsame.toSameCids
    | exit | kill | «open» | schedule | yield | sleep | wakeup => cases hq

/-- Which store wrote a `cid` field last: none since boot, the sweep, a join of container `c`, or a
leave. -/
inductive CidWriter
  | image | sweep | join (c : ℤ) | leave
  deriving DecidableEq, Repr

/-- What the store left there. -/
def CidWriter.value : CidWriter → ℤ
  | image => 0
  | sweep => -1
  | join c => c
  | leave => 0

def Live (s : Tables) (c : ℤ) : Prop := ∃ i, s.location i = true ∧ (s.container i).cid = c

/-- The tables with what really happened to each process. -/
structure Tracked where
  tables : Tables
  /-- the container the process is in by its own last successful join, if it has
      not left since and the container has not been destroyed since -/
  standing : PSlot → Option ℤ
  writer : PSlot → CidWriter

namespace Tracked

variable {x y : Tracked} {a : Act}

/-- The writers after the sweep of `running_procs` and `join_cont`. -/
def sweepWriter (x : Tracked) : PSlot → CidWriter :=
  if x.tables.cidToPtable then x.writer else fun _ => .sweep

/-- Record a call that led to the tables `t`; joins, leaves and destroys count when they return
1. -/
def track (x : Tracked) (t : Tables) : Act → Tracked
  | .join p c =>
    if (x.tables.joinCont p c).map Prod.snd = some 1 then
      ⟨t, update x.standing p (some c),
        update x.sweepWriter p (.join c)⟩
    else ⟨t, x.standing, x.sweepWriter⟩
  | .leave p =>
    if (x.tables.leaveContainer p).map Prod.snd = some 1 then
      ⟨t, update x.standing p none, update x.writer p .leave⟩
    else ⟨t, x.standing, x.writer⟩
  | .destroy _ c =>
    if (x.tables.destroyContainer c).2 = 1 then
      ⟨t, fun q => if x.standing q = some c then none else x.standing q, x.writer⟩
    else ⟨t, x.standing, x.writer⟩
  -- a new process is on the host until it joins
  | .fork _ .enough =>
    match x.tables.firstUnused with
    | some q => ⟨t, update x.standing q none, x.writer⟩
    | none => ⟨t, x.standing, x.writer⟩
  | .ps _ => ⟨t, x.standing, x.sweepWriter⟩
  | _ => ⟨t, x.standing, x.writer⟩

def step (x : Tracked) (a : Act) : Option Tracked :=
  (x.tables.step a).map fun t => x.track t a

/-- Tracking starts when the first process is about to run. -/
def boot : Tracked := ⟨Tables.boot, fun _ => none, fun _ => .image⟩

/-- What a read of the `cid` of process `p` should give. -/
def Truth (x : Tracked) (p : PSlot) (v : ℤ) : Prop :=
  match x.standing p with
  | none => v = -1
  | some c => v = c ∧ x.tables.Live c

end Tracked

/-- The `cid` that `sys_open` and `running_procs` read, and whose it is. -/
def cidRead (s : Tables) : Act → Option (PSlot × ℤ)
  | .open p => some (p, (s.proc p).cid)
  | .ps p => some (p, (s.sweep.proc p).cid)
  | _ => none

namespace Tracked

variable {x y : Tracked} {a : Act}

/-- The `cid` of a slot is what its last writer left, and who is in a container joined it last. -/
structure WhereInv (x : Tracked) : Prop where
  written : ∀ q, (x.tables.proc q).cid = (x.writer q).value
  joined : ∀ q c, x.standing q = some c → x.writer q = .join c ∧ x.tables.Live c
  unswept : x.tables.cidToPtable = false →
    ∀ q, x.standing q = none ∧ (x.writer q = .image ∨ x.writer q = .leave)

theorem whereInv_boot : WhereInv boot := by
  refine ⟨fun q => ?_,fun q c h => (by cases h),fun _ q => ⟨rfl,.inl rfl⟩⟩
  simp only [boot,Tables.boot,CidWriter.value]
  split <;> rfl

theorem WhereInv.of_same (h : WhereInv x) (hs : SameCids x.tables t) {st : PSlot → Option ℤ}
    (hst : ∀ q c, st q = some c → x.standing q = some c) : WhereInv ⟨t, st, x.writer⟩ := by
  refine ⟨fun q => (hs.cid q).trans (h.written q),fun q c hq => ?_,fun hf q => ?_⟩
  · obtain ⟨hw,i,hi,hic⟩ := h.joined q c (hst q c hq)
    refine ⟨hw,i,?_,?_⟩
    · show t.location i = true
      rw [hs.location]
      exact hi
    · show (t.container i).cid = c
      rw [hs.container]
      exact hic
  · obtain ⟨hn,hw⟩ := h.unswept (hs.cidToPtable.symm.trans hf) q
    refine ⟨?_,hw⟩
    cases hq : st q with
    | none => exact hq
    | some c =>
      have := hst q c hq
      rw [hn] at this
      cases this

theorem track_keepsCids (ha : a.keepsCids = true) :
    ∃ st, x.track t a = ⟨t, st, x.writer⟩ ∧ ∀ q c, st q = some c → x.standing q = some c := by
  cases a with
  | create | destroy | join | leave | ps => cases ha
  | fork p mem =>
    cases mem with
    | noStack | noSpace => exact ⟨x.standing,rfl,fun _ _ h => h⟩
    | enough =>
      unfold track
      dsimp only
      split
      · next q hq =>
        refine ⟨_,rfl,fun r c hr => ?_⟩
        by_cases hrq : r = q
        · subst hrq; simp at hr
        · rwa [update_of_ne hrq] at hr
      · exact ⟨x.standing,rfl,fun _ _ h => h⟩
  | exit | wait | kill | «open» | schedule | yield | sleep | wakeup =>
    exact ⟨x.standing,rfl,fun _ _ h => h⟩

theorem WhereInv.sweep (h : WhereInv x) : WhereInv ⟨x.tables.sweep, x.standing, x.sweepWriter⟩ := by
  cases hsw : x.tables.cidToPtable with
  | true =>
    have hw : x.sweepWriter = x.writer := by simp [sweepWriter,hsw]
    rw [hw,sweep_of_swept hsw]
    exact h
  | false =>
    have hw : x.sweepWriter = fun _ => .sweep := by simp [sweepWriter,hsw]
    rw [hw]
    refine ⟨fun q => ?_,fun q c hq => ?_,fun hf => ?_⟩
    · simp [Tables.sweep,hsw,CidWriter.value]
    · change x.standing q = some c at hq
      rw [(h.unswept hsw q).1] at hq
      cases hq
    · change x.tables.sweep.cidToPtable = false at hf
      rw [sweep_cidToPtable] at hf
      cases hf

theorem live_relocate {k : Container} (hk : k.cid = (s.container i).cid) (hl : s.Live v) :
    (s.relocate p c i k).Live v := by
  obtain ⟨j,hj,hjv⟩ := hl
  refine ⟨j,hj,?_⟩
  by_cases hji : j = i
  · subst hji
    rw [relocate_container_self,hk,hjv]
  · rw [relocate_container_of_ne hji,hjv]

theorem WhereInv.relocate (h : WhereInv x) {k : Container} {w : CidWriter} {o : Option ℤ}
    (hk : k.cid = (x.tables.container i).cid) (hw : w.value = c)
    (ho : ∀ v, o = some v → w = .join v ∧ x.tables.Live v)
    (hsw : x.tables.cidToPtable = false → o = none ∧ (w = .image ∨ w = .leave)) :
    WhereInv ⟨x.tables.relocate p c i k, update x.standing p o, update x.writer p w⟩ := by
  refine ⟨fun q => ?_,fun q v hq => ?_,fun hf q => ?_⟩
  · by_cases hq : q = p
    · subst hq
      show ((x.tables.relocate q c i k).proc q).cid = _
      rw [relocate_cid_self]
      simp [hw]
    · show ((x.tables.relocate p c i k).proc q).cid = _
      rw [relocate_cid_of_ne hq]
      simpa [update_of_ne hq] using h.written q
  · by_cases hqp : q = p
    · subst hqp
      simp only [update_self] at hq ⊢
      exact ⟨(ho v hq).1,live_relocate hk (ho v hq).2⟩
    · simp only [update_of_ne hqp] at hq ⊢
      exact ⟨(h.joined q v hq).1,live_relocate hk (h.joined q v hq).2⟩
  · change x.tables.cidToPtable = false at hf
    by_cases hqp : q = p
    · subst hqp
      simpa using hsw hf
    · simpa [update_of_ne hqp] using h.unswept hf q

theorem WhereInv.join (h : WhereInv x) {r : ℤ} (hs : x.tables.joinCont p c = some (t, r)) :
    WhereInv (x.track t (.join p c)) := by
  have hsweep := h.sweep
  simp only [track,hs,map_some]
  obtain ⟨hn,rfl,rfl⟩ | ⟨i,hi,rfl,rfl⟩ := joinCont_cases hs
  · rw [if_neg (by decide)]
    exact hsweep
  obtain ⟨hil,hic⟩ := findLive_some hi
  rw [if_pos rfl]
  refine hsweep.relocate rfl rfl (fun v hv => ?_) fun hf => ?_
  · cases hv
    exact ⟨rfl,i,hil,hic⟩
  · change x.tables.sweep.cidToPtable = false at hf
    rw [sweep_cidToPtable] at hf
    cases hf

theorem WhereInv.leave (h : WhereInv x) {r : ℤ} (hs : x.tables.leaveContainer p = some (t, r)) :
    WhereInv (x.track t (.leave p)) := by
  simp only [track,hs,map_some]
  obtain ⟨hn,rfl,rfl⟩ | ⟨i,hi,rfl,rfl⟩ := leaveContainer_cases hs
  · rw [if_neg (by decide)]
    exact h
  · rw [if_pos rfl]
    exact h.relocate rfl rfl (fun v hv => by cases hv) fun _ => ⟨rfl,.inr rfl⟩

theorem WhereInv.create (h : WhereInv x) :
    WhereInv ⟨(x.tables.createContainer c).1, x.standing, x.writer⟩ := by
  unfold createContainer
  split
  · exact h
  split
  · exact h
  next i hi =>
  refine ⟨h.written,fun q v hq => ⟨(h.joined q v hq).1,?_⟩,h.unswept⟩
  obtain ⟨j,hj,hjv⟩ := (h.joined q v hq).2
  have hji : j ≠ i := by
    rintro rfl
    rw [freeSlot_some hi] at hj
    cases hj
  exact ⟨j,by simp [hj,update_of_ne hji],by simp [setContainer,hjv,update_of_ne hji]⟩

theorem WhereInv.destroy (h : WhereInv x) :
    WhereInv (x.track (x.tables.destroyContainer c).1 (.destroy p c)) := by
  cases hi : x.tables.findLive c with
  | none =>
    rw [destroyContainer,hi]
    simp only [track,destroyContainer,hi]
    exact h
  | some i =>
    obtain ⟨hil,hic⟩ := findLive_some hi
    rw [destroyContainer,hi]
    simp only [track,destroyContainer,hi,if_true]
    have hst : ∀ q v, (if x.standing q = some c then none else x.standing q) = some v →
        x.standing q = some v ∧ v ≠ c := by
      intro q v hq
      split at hq
      · cases hq
      · next hne =>
        exact ⟨hq,fun e => hne (by rw [hq,e])⟩
    refine ⟨h.written,fun q v hq => ?_,fun hf q => ?_⟩
    · obtain ⟨hq,hvc⟩ := hst q v hq
      obtain ⟨hw,j,hj,hjv⟩ := h.joined q v hq
      have hji : j ≠ i := by
        rintro rfl
        exact hvc (hjv.symm.trans hic)
      exact ⟨hw,j,by simpa [update_of_ne hji] using hj,hjv⟩
    · obtain ⟨hn,hw⟩ := h.unswept hf q
      exact ⟨by simp [hn],hw⟩

theorem WhereInv.step (h : WhereInv x) (hs : x.step a = some y) : WhereInv y := by
  obtain ⟨t,ht,rfl⟩ := map_eq_some_iff.mp hs
  obtain ⟨hp,he⟩ := used_of_step ht
  cases ha : a.keepsCids with
  | true =>
    obtain ⟨st,hst,hsub⟩ := track_keepsCids (x := x) (t := t) ha
    rw [hst]
    exact h.of_same (sameCids_effect ha hp he) hsub
  | false =>
    cases a with
    | create p c => cases he; exact h.create
    | destroy p c => cases he; exact h.destroy
    | join p c =>
      obtain ⟨⟨u,r⟩,hj,rfl⟩ := map_eq_some_iff.mp he
      exact h.join hj
    | leave p =>
      obtain ⟨⟨u,r⟩,hl,rfl⟩ := map_eq_some_iff.mp he
      exact h.leave hl
    | ps p =>
      cases he
      show WhereInv ⟨(x.tables.runningProcs p).1,_,_⟩
      rw [runningProcs_fst]
      exact h.sweep
    | fork | exit | wait | kill | «open» | schedule | yield | sleep | wakeup => cases ha

/-- The process is in a container, or nothing but the sweep (or a join of a container numbered -1)
has written its slot since: no process that had the slot has joined a container and left it, or died
or been destroyed in it. -/
def Fresh (x : Tracked) (p : PSlot) : Prop :=
  x.standing p ≠ none ∨ x.writer p = .sweep ∨ x.writer p = .join (-1)

/-- When a read of `cid` is right. `sys_open` does not make the sweep itself. -/
def ReadOk (x : Tracked) : Act → Prop
  | .open p => x.tables.cidToPtable = true ∧ x.Fresh p
  | .ps p => x.tables.cidToPtable = false ∨ x.Fresh p
  | _ => True

theorem WhereInv.truth_iff_fresh (h : WhereInv x) :
    x.Truth p (x.tables.proc p).cid ↔ x.Fresh p := by
  unfold Truth Fresh
  cases hst : x.standing p with
  | some c =>
    obtain ⟨hw,hl⟩ := h.joined p c hst
    refine iff_of_true ⟨?_,hl⟩ (.inl (by simp))
    rw [h.written,hw,CidWriter.value]
  | none =>
    rw [h.written]
    cases x.writer p <;> simp [CidWriter.value]

theorem WhereInv.truth_of_unswept (h : WhereInv x) (hsw : x.tables.cidToPtable = false) :
    x.Truth p v ↔ v = -1 := by
  simp [Truth,(h.unswept hsw p).1]

/-- In every run, a read of `cid` by `sys_open` or `ps` gives the container the process is in, or -1
for the host, exactly when `ReadOk` holds. -/
theorem cid_read_iff {acts : List Act} (hrun : exec step boot acts = some x)
    (hread : x.tables.cidRead a = some (p, v)) : x.Truth p v ↔ x.ReadOk a := by
  have h : WhereInv x := exec_invariant (fun _ _ _ h hs => h.step hs) whereInv_boot hrun
  cases a with
  | «open» q =>
    cases hread
    cases hsw : x.tables.cidToPtable with
    | true => simp only [h.truth_iff_fresh,ReadOk,hsw,true_and]
    | false =>
      rw [h.truth_of_unswept hsw,h.written]
      obtain ⟨-,hw | hw⟩ := h.unswept hsw p <;> simp [hw,CidWriter.value,ReadOk,hsw]
  | ps q =>
    cases hread
    cases hsw : x.tables.cidToPtable with
    | true =>
      rw [sweep_of_swept hsw,h.truth_iff_fresh]
      simp [ReadOk,hsw]
    | false =>
      rw [h.truth_of_unswept hsw]
      simp [Tables.sweep,ReadOk,hsw]
  | create | destroy | join | leave | fork | exit | wait | kill | schedule | yield | sleep
  | wakeup => cases hread

theorem cid_read_iff_member :
    ∃ x, exec step boot [.schedule 0, .create 0 5, .join 0 5] = some x ∧
      x.tables.cidRead (.open 0) = some (0, 5) ∧ x.ReadOk (.open 0) ∧
      (x.Truth 0 5 ↔ x.ReadOk (.open 0)) := by
  have key : ∀ x, exec step boot [.schedule 0,.create 0 5,.join 0 5] = some x →
      x.tables.cidRead (.open 0) = some (0, 5) → (x.Truth 0 5 ↔ x.ReadOk (.open 0)) :=
    fun _ hrun hread => cid_read_iff hrun hread
  exact ⟨_,rfl,rfl,⟨rfl,.inl (by decide)⟩,key _ rfl rfl⟩

/-- A process that has left its container is on the host, but `sys_open` reads the number 0 for
it. -/
theorem cid_read_wrong :
    ¬ ∀ acts x a y p v, exec step boot acts = some x → x.step a = some y →
      x.tables.cidRead a = some (p, v) → x.Truth p v := by
  intro h
  have hzero : (0 : ℤ) = -1 :=
    h [.schedule 0,.create 0 5,.join 0 5,.leave 0] _ (.open 0) _ 0 0 rfl rfl rfl
  omega

end Tracked

end Xv6Container.Tables
