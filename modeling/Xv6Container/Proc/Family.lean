import Xv6Container.Proc.Sched

/-!
# Process families

A forked pid belongs to a process in the table whose parent is the forking process, or init once
that process has exited, until a `wait` of that parent has returned it. Pids are unique as long
as fewer than `2^31` processes were created.
-/

set_option linter.unusedSectionVars false

namespace Xv6Container.Sched

open Function Run List
open Option (some.inj)

variable {K : Type} [DecidableEq K]

/-- A process that `fork` has finished. -/
def Grown (st : ProcState) : Prop := st ≠ .UNUSED ∧ st ≠ .EMBRYO

/-- Pid `x`, forked by pid `w`, is still to be collected, by the process that forked it or by init
after that one exited. -/
def InTable (s : Sys K) (x w : ℤ) : Prop :=
  (∀ e ∈ s.waited, e.1 ≠ x) ∧
    ∃ q r, Grown (s.proc q).state ∧ (s.proc q).pid = x ∧ (s.proc q).parent = some r ∧
      ((s.proc r).pid = w ∨ r = initproc ∧ w ∈ s.exited)

/-- Pid `x`, forked by pid `w`, has left the table and was returned by one `wait`, of the process
that forked it or of init (pid 1) after that one exited. -/
def Collected (s : Sys K) (x w : ℤ) : Prop :=
  (∀ q, (s.proc q).state ≠ .UNUSED → (s.proc q).pid ≠ x) ∧
    ∃ w', s.waited.filter (fun e => e.1 = x) = [(x, w')] ∧ (w' = w ∨ w' = 1 ∧ w ∈ s.exited)

/-- Pids, parents and history. -/
structure FamInv (s : Sys K) : Prop where
  nextpid : s.nextpid = wrapInt (s.created + 1)
  pid_le : ∀ q, (s.proc q).pid ≤ s.created
  pid_pos : ∀ q, (s.proc q).state ≠ .UNUSED → 0 < (s.proc q).pid
  uniq : ∀ q r, (s.proc q).state ≠ .UNUSED → (s.proc r).pid = (s.proc q).pid → r = q
  init : Alive (s.proc initproc).state ∧ (s.proc initproc).pid = 1
  child : ∀ q, Grown (s.proc q).state → q ≠ initproc → ∃ r, (s.proc q).parent = some r
  parent : ∀ q r, Grown (s.proc q).state → (s.proc q).parent = some r → Alive (s.proc r).state
  waited_le : ∀ e ∈ s.waited, e.1 ≤ s.created
  forked_le : ∀ e ∈ s.forked, e.1 ≤ s.created
  unborn : ∀ q, (s.proc q).state = .EMBRYO → ∀ e ∈ s.waited, e.1 ≠ (s.proc q).pid
  kin : ∀ e ∈ s.forked, InTable s e.1 e.2 ∨ Collected s e.1 e.2

section Family

variable {s t : Sys K} {p q : PSlot} {x y : SProc}

theorem not_alive_unused : ¬Alive .UNUSED := id

theorem not_alive_embryo : ¬Alive .EMBRYO := id

theorem not_alive_zombie : ¬Alive .ZOMBIE := id

theorem grown_of_alive {st : ProcState} (h : Alive st) : Grown st := by
  refine ⟨?_,?_⟩ <;> rintro rfl <;> exact h

theorem Grown.used {st : ProcState} (h : Grown st) : st ≠ .UNUSED := h.1

theorem CalmAt.unused_iff (h : CalmAt x y) : y.state ≠ .UNUSED ↔ x.state ≠ .UNUSED :=
  not_congr (h.state_iff not_alive_unused)

theorem CalmAt.grown_iff (h : CalmAt x y) : Grown y.state ↔ Grown x.state :=
  and_congr (not_congr (h.state_iff not_alive_unused)) (not_congr (h.state_iff not_alive_embryo))

theorem InTable.calm {x w : ℤ} (h : InTable s x w) (hc : Calm s t) : InTable t x w := by
  obtain ⟨hw,q,r,hq,hx,hr,hkin⟩ := h
  refine ⟨hc.waited ▸ hw,q,r,(hc.slot q).grown_iff.mpr hq,(hc.slot q).pid.trans hx,
    (hc.slot q).parent.trans hr,?_⟩
  rw [(hc.slot r).pid,hc.exited]
  exact hkin

theorem Collected.calm {x w : ℤ} (h : Collected s x w) (hc : Calm s t) : Collected t x w := by
  obtain ⟨hq,w',hw,hkin⟩ := h
  refine ⟨fun q hu => ?_,w',hc.waited ▸ hw,hc.exited ▸ hkin⟩
  rw [(hc.slot q).pid]
  exact hq q ((hc.slot q).unused_iff.mp hu)

theorem FamInv.calm (h : FamInv s) (hc : Calm s t) : FamInv t where
  nextpid := by rw [hc.nextpid,hc.created]; exact h.nextpid
  pid_le q := by rw [(hc.slot q).pid,hc.created]; exact h.pid_le q
  pid_pos q hq := by rw [(hc.slot q).pid]; exact h.pid_pos q ((hc.slot q).unused_iff.mp hq)
  uniq q r hq hr := by
    rw [(hc.slot q).pid,(hc.slot r).pid] at hr
    exact h.uniq q r ((hc.slot q).unused_iff.mp hq) hr
  init := ⟨(hc.slot _).alive_iff.mpr h.init.1,(hc.slot _).pid.trans h.init.2⟩
  child q hq hi := by
    rw [(hc.slot q).parent]
    exact h.child q ((hc.slot q).grown_iff.mp hq) hi
  parent q r hq hr := by
    rw [(hc.slot q).parent] at hr
    exact (hc.slot r).alive_iff.mpr (h.parent q r ((hc.slot q).grown_iff.mp hq) hr)
  waited_le := by rw [hc.waited,hc.created]; exact h.waited_le
  forked_le := by rw [hc.forked,hc.created]; exact h.forked_le
  unborn q hq := by
    rw [hc.waited,(hc.slot q).pid]
    exact h.unborn q (((hc.slot q).state_iff not_alive_embryo).mp hq)
  kin := by
    rw [hc.forked]
    exact fun e he => (h.kin e he).imp (·.calm hc) (·.calm hc)

theorem FamInv.update (h : FamInv s) (hq : ¬Alive (s.proc q).state)
    (hp : t.proc = Function.update s.proc q x)
    (hnext : t.nextpid = wrapInt (t.created+1)) (hcr : s.created ≤ t.created)
    (hle : x.pid ≤ t.created) (hpos : x.state ≠ .UNUSED → 0 < x.pid)
    (hfresh : ∀ r, r ≠ q → x.state ≠ .UNUSED ∨ (s.proc r).state ≠ .UNUSED → (s.proc r).pid ≠ x.pid)
    (hgrown : Grown x.state → ∃ r, x.parent = some r ∧ Alive (s.proc r).state)
    (hwaited : ∀ e ∈ t.waited, e.1 ≤ t.created) (hforked : ∀ e ∈ t.forked, e.1 ≤ t.created)
    (hnew : x.state = .EMBRYO → ∀ e ∈ t.waited, e.1 ≠ x.pid)
    (hold : ∀ r, r ≠ q → (s.proc r).state = .EMBRYO → ∀ e ∈ t.waited, e.1 ≠ (s.proc r).pid)
    (hkin : ∀ e ∈ t.forked, InTable t e.1 e.2 ∨ Collected t e.1 e.2) : FamInv t := by
  have hself : t.proc q = x := by rw [hp,update_self]
  have hother : ∀ r, r ≠ q → t.proc r = s.proc r := fun r hr => by
    rw [hp,update_of_ne hr]
  have halive : ∀ r, Alive (s.proc r).state → t.proc r = s.proc r := fun r hr =>
    hother r fun e => hq (e ▸ hr)
  refine ⟨hnext,fun r => ?_,fun r hr => ?_,fun r r' hr he => ?_,?_,fun r hr hi => ?_,
    fun r r' hr hr' => ?_,hwaited,hforked,fun r hr => ?_,hkin⟩
  · by_cases e : r = q
    · rw [e,hself]
      exact hle
    · rw [hother r e]
      exact (h.pid_le r).trans (by exact_mod_cast hcr)
  · by_cases e : r = q
    · rw [e,hself] at hr ⊢
      exact hpos hr
    · rw [hother r e] at hr ⊢
      exact h.pid_pos r hr
  · by_cases e : r = q <;> by_cases e' : r' = q
    · rw [e,e']
    · rw [e,hself] at hr he
      rw [hother r' e'] at he
      exact absurd he (hfresh r' e' (.inl hr))
    · rw [hother r e] at hr he
      rw [e',hself] at he
      exact absurd he.symm (hfresh r e (.inr hr))
    · rw [hother r e] at hr he
      rw [hother r' e'] at he
      exact h.uniq r r' hr he
  · rw [halive _ h.init.1]
    exact h.init
  · by_cases e : r = q
    · rw [e,hself] at hr ⊢
      obtain ⟨r',hr',-⟩ := hgrown hr
      exact ⟨r',hr'⟩
    · rw [hother r e] at hr ⊢
      exact h.child r hr hi
  · by_cases e : r = q
    · rw [e,hself] at hr hr'
      obtain ⟨r'',hr'',ha⟩ := hgrown hr
      obtain rfl : r'' = r' := some.inj (hr''.symm.trans hr')
      rw [halive _ ha]
      exact ha
    · rw [hother r e] at hr hr'
      have ha := h.parent r r' hr hr'
      rw [halive _ ha]
      exact ha
  · by_cases e : r = q
    · rw [e,hself] at hr ⊢
      exact hnew hr
    · rw [hother r e] at hr ⊢
      exact hold r e hr

theorem InTable.update {z w : ℤ} (hin : InTable s z w) (h : FamInv s)
    (hq : ¬Alive (s.proc q).state) (hp : t.proc = Function.update s.proc q x)
    (hne : ∀ r, Grown (s.proc r).state → (s.proc r).pid = z → r ≠ q)
    (hw : ∀ e ∈ t.waited, e.1 ≠ z) (he : t.exited = s.exited) : InTable t z w := by
  obtain ⟨-,r,r',hr,hz,hr',hkin⟩ := hin
  have ha := h.parent r r' hr hr'
  have hr'q : r' ≠ q := fun e => hq (e ▸ ha)
  refine ⟨hw,r,r',?_⟩
  rw [hp,update_of_ne (hne r hr hz),update_of_ne hr'q,he]
  exact ⟨hr,hz,hr',hkin⟩

theorem Collected.update {z w : ℤ} (hcol : Collected s z w)
    (hp : t.proc = Function.update s.proc q x) (hx : x.state ≠ .UNUSED → x.pid ≠ z)
    (hw : t.waited.filter (fun e => e.1 = z) = s.waited.filter (fun e => e.1 = z))
    (he : t.exited = s.exited) : Collected t z w := by
  obtain ⟨hne,w',hw',hkin⟩ := hcol
  refine ⟨fun r hr => ?_,w',hw.trans hw',he ▸ hkin⟩
  rw [hp] at hr ⊢
  by_cases e : r = q
  · rw [e,update_self] at hr ⊢
    exact hx hr
  · rw [update_of_ne e] at hr ⊢
    exact hne r hr

theorem FamInv.pid_ne (h : FamInv s) (hq : (s.proc q).state ≠ .UNUSED) (r : PSlot) (hr : r ≠ q) :
    (s.proc r).pid ≠ (s.proc q).pid := fun e => hr (h.uniq q r hq e)

theorem wrapInt_of_lt {n : ℕ} (hn : n < 2 ^ 31) : wrapInt n = n := by
  rw [wrapInt]
  omega

theorem FamInv.nextpid_eq (h : FamInv s) (hcr : s.created + 1 < 2 ^ 31) :
    s.nextpid = s.created+1 := by
  rw [h.nextpid]
  exact_mod_cast wrapInt_of_lt hcr

/-- The forked pids while slot `q`, which holds no finished process, changes. -/
theorem FamInv.kin_update (h : FamInv s) (hna : ¬Alive (s.proc q).state)
    (hq : ¬Grown (s.proc q).state) (hp : t.proc = Function.update s.proc q x)
    (hx : ∀ e ∈ s.forked, Collected s e.1 e.2 → x.pid ≠ e.1) (hw : t.waited = s.waited)
    (he : t.exited = s.exited) : ∀ e ∈ s.forked, InTable t e.1 e.2 ∨ Collected t e.1 e.2 := by
  refine fun e hmem => (h.kin e hmem).imp (fun hin => ?_) fun hcol => ?_
  · refine hin.update h hna hp (fun r hr _ => ?_) (by rw [hw]; exact hin.1) he
    rintro rfl
    exact hq hr
  · exact hcol.update hp (fun _ => hx e hmem hcol) (by rw [hw]) he

theorem FamInv.alloc (h : FamInv s) (hq : firstUnused s.proc = some q)
    (hcr : s.created + 1 < 2 ^ 31) (p : PSlot) : FamInv (allocAt s p q) := by
  have hun := firstUnused_some hq
  have hnp := h.nextpid_eq hcr
  have hna : ¬Alive (s.proc q).state := by rw [hun]; exact not_alive_unused
  refine h.update hna rfl ?_ (Nat.le_succ _) ?_ (fun _ => ?_) (fun r hr _ => ?_)
    (fun hg => absurd rfl hg.2) (fun e he => ?_) (fun e he => ?_) (fun _ e he => ?_)
    (fun r _ => h.unborn r)
    (h.kin_update hna (fun hg => hg.1 hun) rfl (fun e he _ => ?_) rfl rfl)
  · simp [allocAt,hnp]
  · simp [allocAt,hnp]
  · simp only [hnp]
    omega
  · have := h.pid_le r
    simp only [hnp]
    omega
  · have := h.waited_le e he
    simp only [allocAt]
    push_cast
    omega
  · have := h.forked_le e he
    simp only [allocAt]
    push_cast
    omega
  · have := h.waited_le e he
    simp only [hnp]
    omega
  · have := h.forked_le e he
    simp only [hnp]
    omega

theorem FamInv.grow (h : FamInv s) (hq : (s.proc q).state = .EMBRYO)
    (hx : x.state = .EMBRYO ∨ x.state = .UNUSED) (hpid : x.pid = (s.proc q).pid)
    {k : PSlot → Susp} {d : Doing} : FamInv { build s p q x d with susp := k } := by
  have hna : ¬Alive (s.proc q).state := by rw [hq]; exact not_alive_embryo
  have hused : (s.proc q).state ≠ .UNUSED := by simp [hq]
  have hnot : ¬Grown x.state := by rcases hx with e | e <;> simp [Grown,e]
  exact h.update hna rfl h.nextpid le_rfl (hpid ▸ h.pid_le q) (fun _ => hpid ▸ h.pid_pos q hused)
    (fun r hr _ => hpid ▸ h.pid_ne hused r hr) (fun hg => absurd hg hnot) h.waited_le h.forked_le
    (fun _ => hpid ▸ h.unborn q hq) (fun r _ => h.unborn r) (h.kin_update hna (fun hg => hg.2 hq) rfl
      (fun e _ hcol => hpid ▸ hcol.1 q hused) rfl rfl)

theorem FamInv.ready (h : FamInv s) (hp : Alive (s.proc p).state) (hq : (s.proc q).state = .EMBRYO)
    (hpar : (s.proc q).parent = some p) : FamInv (readyAt s p q) := by
  have hna : ¬Alive (s.proc q).state := by rw [hq]; exact not_alive_embryo
  have hused : (s.proc q).state ≠ .UNUSED := by simp [hq]
  have hpq : p ≠ q := fun e => hna (e ▸ hp)
  refine h.update hna rfl h.nextpid le_rfl (h.pid_le q) (fun _ => h.pid_pos q hused)
    (fun r hr _ => h.pid_ne hused r hr) (fun _ => ⟨p,hpar,hp⟩) h.waited_le (fun e he => ?_)
    (fun hr => by simp at hr) (fun r _ => h.unborn r) fun e he => ?_
  · rcases List.mem_cons.mp he with rfl | he
    · exact h.pid_le q
    · exact h.forked_le e he
  · rcases List.mem_cons.mp he with rfl | he
    · refine .inl ⟨h.unborn q hq,q,p,?_⟩
      simp only [readyAt,build,update_self,update_of_ne hpq]
      exact ⟨⟨by simp,by simp⟩,trivial,hpar,.inl trivial⟩
    · exact h.kin_update (t := readyAt s p q) hna (fun hg => hg.2 hq) rfl
        (fun e _ hcol => hcol.1 q hused) rfl rfl e he

theorem FamInv.reap (h : FamInv s) (hq : zombieChild s.proc p = some q) :
    FamInv (collect s p q) := by
  obtain ⟨hpar,hz⟩ := zombieChild_some hq
  have hna : ¬Alive (s.proc q).state := by rw [hz]; exact not_alive_zombie
  have hgrown : Grown (s.proc q).state := by simp [Grown,hz]
  refine h.update hna rfl h.nextpid le_rfl (Int.natCast_nonneg _) (fun hu => absurd rfl hu)
    (fun r _ hu => ?_) (fun hg => absurd rfl hg.1) (fun e he => ?_) h.forked_le
    (fun hr => by simp [Sched.reap,Slot.reap] at hr) (fun r hrq hr e he => ?_) fun e he => ?_
  · rcases hu with hu | hu
    · exact absurd rfl hu
    · exact (h.pid_pos r hu).ne'
  · rcases List.mem_cons.mp he with rfl | he
    · exact h.pid_le q
    · exact h.waited_le e he
  · rcases List.mem_cons.mp he with rfl | he
    · exact (h.pid_ne hgrown.used r hrq).symm
    · exact h.unborn r hr e he
  rcases h.kin e he with hin | hcol
  · by_cases hx : (s.proc q).pid = e.1
    · -- the pid that is returned here
      obtain ⟨hw,r,r',hr,hre,hr',hkin⟩ := hin
      obtain rfl : r = q := h.uniq q r hgrown.used (hre.trans hx.symm)
      obtain rfl : p = r' := some.inj (hpar.symm.trans hr')
      refine .inr ⟨fun r' hu he' => ?_,(s.proc p).pid,?_,?_⟩
      · by_cases hrr : r' = r
        · subst hrr
          simp [collect,Sched.reap,Slot.reap] at hu
        · simp only [collect,update_of_ne hrr] at he'
          exact h.pid_ne hgrown.used r' hrr (he'.trans hx.symm)
      · simp only [collect]
        rw [filter_cons_of_pos (by simpa using hx),
          List.filter_eq_nil_iff.mpr fun e' he' => by simpa using hw e' he',hx]
      · rcases hkin with hkin | ⟨rfl,hkin⟩
        · exact .inl hkin
        · exact .inr ⟨h.init.2,hkin⟩
    · refine .inl (hin.update h hna rfl (fun r _ hre => ?_) (fun e' he' => ?_) rfl)
      · rintro rfl
        exact hx hre
      · rcases List.mem_cons.mp he' with rfl | he'
        · exact hx
        · exact hin.1 e' he'
  · refine .inr (hcol.update rfl (fun hu => absurd rfl hu) ?_ rfl)
    exact filter_cons_of_neg (by simpa using hcol.1 q hgrown.used)

/-- What `exit` leaves of a slot: the pid, who is grown, and its parent unless that was the exiting
process. -/
theorem exitProc_slot (proc : PSlot → SProc) (hp : Alive (proc p).state) (r : PSlot) :
    (exitProc proc p r).pid = (proc r).pid ∧
      ((exitProc proc p r).state = .UNUSED ↔ (proc r).state = .UNUSED) ∧
      ((exitProc proc p r).state = .EMBRYO ↔ (proc r).state = .EMBRYO) ∧
      (exitProc proc p r).parent =
        if (proc r).parent = some p then some initproc else (proc r).parent := by
  have hw := (Slot.woken_exit procChan initproc (slots proc) p r).same
  have hpar : (exitProc proc p r).parent =
      if (proc r).parent = some p then some initproc else (proc r).parent := by
    simp only [exitProc,setSlots,Slot.exitSlots,Slot.reparent,hw.2.1]
    rfl
  by_cases hr : r = p
  · subst hr
    rw [exitProc_self]
    exact ⟨hw.1,iff_of_false (by simp) (grown_of_alive hp).1,
      iff_of_false (by simp) (grown_of_alive hp).2,hpar⟩
  · have hc := calmAt_exitProc proc hr
    exact ⟨hw.1,hc.state_iff not_alive_unused,hc.state_iff not_alive_embryo,hpar⟩

theorem FamInv.exit (h : FamInv s) (hp : Alive (s.proc p).state) (hi : p ≠ initproc) :
    FamInv (exitAt s p) := by
  have hslot := exitProc_slot s.proc hp
  change ∀ r, ((exitAt s p).proc r).pid = _ ∧ (((exitAt s p).proc r).state = _ ↔ _) ∧
    (((exitAt s p).proc r).state = _ ↔ _) ∧ ((exitAt s p).proc r).parent = _ at hslot
  have hpid := fun r => (hslot r).1
  have hused := fun r => not_congr (hslot r).2.1
  have hemb := fun r => (hslot r).2.2.1
  have hpar := fun r => (hslot r).2.2.2
  have hgrown : ∀ r, Grown ((exitAt s p).proc r).state ↔ Grown (s.proc r).state := fun r =>
    and_congr (hused r) (not_congr (hemb r))
  have halive : ∀ r, r ≠ p → Alive (s.proc r).state → Alive ((exitAt s p).proc r).state :=
    fun r hr ha => (calmAt_exitProc s.proc hr).alive_iff.mpr ha
  refine ⟨h.nextpid,fun r => ?_,fun r hr => ?_,fun r r' hr he => ?_,⟨?_,?_⟩,
    fun r hr hri => ?_,fun r r' hr hr' => ?_,h.waited_le,h.forked_le,fun r hr e he => ?_,
    fun e he => (h.kin e he).imp ?_ ?_⟩
  · rw [hpid]
    exact h.pid_le r
  · rw [hpid]
    exact h.pid_pos r ((hused r).mp hr)
  · rw [hpid,hpid] at he
    exact h.uniq r r' ((hused r).mp hr) he
  · exact halive _ hi.symm h.init.1
  · rw [hpid]
    exact h.init.2
  · obtain ⟨r',hr'⟩ := h.child r ((hgrown r).mp hr) hri
    rw [hpar]
    split
    · exact ⟨_,rfl⟩
    · exact ⟨r',hr'⟩
  · rw [hpar] at hr'
    split at hr'
    · cases hr'
      exact halive _ hi.symm h.init.1
    · next hne =>
      refine halive r' (fun e => hne (e ▸ hr')) ?_
      exact h.parent r r' ((hgrown r).mp hr) hr'
  · rw [hpid]
    exact h.unborn r ((hemb r).mp hr) e he
  · -- a child of the exiting process goes to init, and its parent has exited
    rintro ⟨hw,r,r',hr,hre,hr',hkin⟩
    by_cases hrp : r' = p
    · subst hrp
      refine ⟨hw,r,initproc,(hgrown r).mpr hr,(hpid r).trans hre,?_,.inr ⟨rfl,?_⟩⟩
      · rw [hpar,if_pos hr']
      · rcases hkin with hkin | ⟨hri,-⟩
        · rw [← hkin]
          exact mem_cons_self
        · exact absurd hri hi
    · refine ⟨hw,r,r',(hgrown r).mpr hr,(hpid r).trans hre,?_,?_⟩
      · rw [hpar,if_neg fun e => hrp (some.inj (hr'.symm.trans e)),hr']
      · rw [hpid]
        exact hkin.imp_right fun hk => ⟨hk.1,mem_cons_of_mem _ hk.2⟩
  · rintro ⟨hne,w',hw,hkin⟩
    refine ⟨fun r hr => ?_,w',hw,hkin.imp_right fun hk => ⟨hk.1,mem_cons_of_mem _ hk.2⟩⟩
    rw [hpid]
    exact hne r ((hused r).mp hr)

theorem famInv_boot : FamInv (boot : Sys K) := by
  have hstate : ∀ q, ((boot : Sys K).proc q).state ≠ .UNUSED → q = initproc := fun q hq => by
    by_contra hne
    simp [boot,hne] at hq
  have hpid : ∀ q, q ≠ initproc → ((boot : Sys K).proc q).pid = 0 := fun q hq => by
    simp [boot,hq]
  refine ⟨by simp only [boot]; decide,fun q => ?_,fun q hq => ?_,fun q r hq hr => ?_,
    by simp [boot,Alive],fun q hq hi => absurd (hstate q hq.1) hi,fun q r hq hr => ?_,
    by simp [boot],by simp [boot],by simp [boot],by simp [boot]⟩
  · by_cases hq : q = initproc
    · subst hq
      simp [boot]
    · rw [hpid q hq]
      simp
  · rw [hstate q hq]
    simp [boot]
  · obtain rfl := hstate q hq
    by_contra hne
    rw [hpid r hne] at hr
    simp [boot] at hr
  · rw [hstate q hq.1] at hr
    simp [boot] at hr

theorem Event.created_le {a : Act K} (he : Event s a t) : s.created ≤ t.created := by
  cases he with
  | calm h | exit _ _ _ h | reap _ _ _ h => exact h.created.ge
  | alloc => exact Nat.le_succ _
  | grow => exact le_rfl
  | ready => exact le_rfl

theorem FamInv.event {a : Act K} (h : FamInv s) (he : Event s a t) (hcr : t.created < 2 ^ 31) :
    FamInv t := by
  cases he with
  | calm hc => exact h.calm hc
  | exit hp _ hi hc => exact (h.exit hp hi).calm hc
  | reap _ _ hq hc => exact (h.reap hq).calm hc
  | alloc _ hq => exact h.alloc hq hcr _
  | grow _ _ hq hx hpid => exact h.grow hq hx hpid
  | ready hp _ hst => exact h.ready hp hst.1 hst.2.2.2

theorem famInv_of_exec {as : List (Act K)} (hrun : exec step boot as = some s)
    (hcr : s.created < 2 ^ 31) : FamInv s := by
  have hinv : SchedInv s ∧ (s.created < 2 ^ 31 → FamInv s) := by
    refine exec_invariant (I := fun s => SchedInv s ∧ (s.created < 2 ^ 31 → FamInv s))
      (fun u a v ⟨hu,hfam⟩ hst => ?_) ⟨schedInv_boot,fun _ => famInv_boot⟩ hrun
    have he := Event.of_trans hu (.of_step hst)
    exact ⟨hu.trans (.of_step hst),fun hv => (hfam (he.created_le.trans_lt hv)).event he hv⟩
  exact hinv.2 hcr

theorem FamInv.wait_fails (h : FamInv s) {c : K} (hret : (waitPass s c p).2 = some (-1)) :
    (s.proc p).killed = true ∨ ∀ q, (s.proc q).parent ≠ some p := by
  rw [waitPass] at hret
  split at hret
  · next q hq =>
    have hz := (zombieChild_some hq).2
    have hpos := h.pid_pos q (by simp [hz])
    have hneg : (s.proc q).pid = -1 := some.inj hret
    omega
  · split at hret
    · next hk =>
      rw [Bool.or_eq_true,Bool.not_eq_true'] at hk
      exact hk.symm.imp_right Slot.haveKids_false
    · cases hret

/-- The processes of every reachable state with fewer than `2^31` creations: pids are unique; a
process other than init has a parent that lives or is being made; a pid that `fork` returned is in
the table or was returned by one `wait` of its parent; and a pass of `wait`, first or after a sleep,
fails only without children or when killed. -/
theorem process_family_law {as : List (Act K)} (hrun : exec step boot as = some s)
    (hcr : s.created < 2 ^ 31) :
    (∀ q r, (s.proc q).state ≠ .UNUSED → (s.proc r).state ≠ .UNUSED →
      (s.proc q).pid = (s.proc r).pid → q = r) ∧
    (∀ q, (s.proc q).state = .RUNNABLE ∨ (s.proc q).state = .RUNNING ∨
        (s.proc q).state = .SLEEPING ∨ (s.proc q).state = .ZOMBIE → q ≠ initproc →
      ∃ r, (s.proc q).parent = some r ∧ (s.proc r).state ≠ .UNUSED ∧
        (s.proc r).state ≠ .ZOMBIE) ∧
    (s.proc initproc).pid = 1 ∧
    (∀ x w, (x, w) ∈ s.forked → InTable s x w ∨ Collected s x w) ∧
    ∀ c p u, u = s ∨ u = { s with proc := Function.update s.proc p { s.proc p with chan := none } } →
      (waitPass u c p).2 = some (-1) →
      (s.proc p).killed = true ∨
        ∀ q, (s.proc q).state ≠ .UNUSED → (s.proc q).parent ≠ some p := by
  have h := famInv_of_exec hrun hcr
  refine ⟨fun q r _ hr e => h.uniq r q hr e,fun q hq hi => ?_,h.init.2,
    fun x w he => h.kin (x, w) he,fun c p u hu hret => ?_⟩
  · have hg : Grown (s.proc q).state := by
      rcases hq with e | e | e | e <;> simp [Grown,e]
    obtain ⟨r,hr⟩ := h.child q hg hi
    have ha := h.parent q r hg hr
    refine ⟨r,hr,(grown_of_alive ha).1,fun e => ?_⟩
    rw [e] at ha
    exact ha
  rcases hu with rfl | rfl
  · exact (h.wait_fails hret).imp_right fun hk q _ => hk q
  · have hclear : Calm s { s with
        proc := update s.proc p { s.proc p with chan := none } } :=
      ⟨calmAt_update ⟨.inl rfl,rfl,rfl,rfl,rfl⟩,rfl,rfl,rfl,rfl,rfl,rfl⟩
    refine ((h.calm hclear).wait_fails hret).imp (fun hk => by simpa using hk) fun hk q _ => ?_
    rw [← (hclear.slot q).parent]
    exact hk q

/-- The child of `forkRun` exits, its CPU goes back to the scheduler, and init, on the other CPU,
waits. -/
def waitRun : List (Act (Fin 2)) :=
  forkRun ++ [.exit 1, .back 1] ++ List.replicate 62 (.scan 1) ++ [.release 1, .wait 0]

theorem process_family_law_waitRun :
    ∃ s, exec step boot waitRun = some s ∧ s.forked = [(2, 1)] ∧ Collected s 2 1 := by
  have hrun : (exec step boot waitRun).map (fun s => (s.created, s.forked, s.waited)) =
      some (2, [(2, 1)], [(2, 1)]) := by decide +kernel
  obtain ⟨s,hs,he⟩ := Option.map_eq_some_iff.mp hrun
  simp only [Prod.mk.injEq] at he
  obtain ⟨hcr,hf,hw⟩ := he
  refine ⟨s,hs,hf,?_⟩
  obtain ⟨-,-,-,hkin,-⟩ := process_family_law hs (by omega)
  rcases hkin 2 1 (by simp [hf]) with hin | hcol
  · exact absurd rfl (hin.1 (2, 1) (by simp [hw]))
  · exact hcol

/-- `kill` returns 0 exactly if some slot in use has the pid, and changes the slot of such a process
only. -/
def KillRight (proc : PSlot → SProc) (pid : ℤ) : Prop :=
  ((kill proc pid).2 = 0 ↔ ∃ q, (proc q).state ≠ .UNUSED ∧ (proc q).pid = pid) ∧
    ∀ r, (kill proc pid).1 r ≠ proc r → (proc r).state ≠ .UNUSED ∧ (proc r).pid = pid

/-- If step `a` is a `kill` that finds a slot, it is the slot of a process that `fork` has
finished. -/
def KillsGrown (s : Sys K) : Act K → Prop
  | .kill pid => ∀ q, findPid s.proc pid = some q → Grown (s.proc q).state
  | _ => True

instance (st : ProcState) : Decidable (Grown st) :=
  inferInstanceAs (Decidable (st ≠ .UNUSED ∧ st ≠ .EMBRYO))

instance (s : Sys K) (a : Act K) : Decidable (KillsGrown s a) :=
  match a with
  | .kill pid =>
    inferInstanceAs (Decidable (∀ q, findPid s.proc pid = some q → Grown (s.proc q).state))
  | .acquire _ | .scan _ | .release _ | .back _ | .resume _ | .yield _ | .sleep _ _ | .exit _
  | .wait _ | .wakeup _ | .fork _ | .stack _ _ | .space _ _ | .ready _ => isTrue trivial

theorem findPid_some {proc : PSlot → SProc} {pid : ℤ} (h : findPid proc pid = some q) :
    (proc q).pid = pid := Slot.findPid_some h

theorem findPid_none {proc : PSlot → SProc} {pid : ℤ} (h : findPid proc pid = none) (q : PSlot) :
    (proc q).pid ≠ pid := Slot.findPid_none h q

theorem kill_of_none {proc : PSlot → SProc} {pid : ℤ} (h : findPid proc pid = none) :
    kill proc pid = (proc, -1) := by
  rw [findPid] at h
  rw [kill,Slot.kill,h]
  rfl

theorem kill_of_some {proc : PSlot → SProc} {pid : ℤ} (h : findPid proc pid = some q) :
    kill proc pid = (update proc q { proc q with toSlot := (proc q).killSlot }, 0) := by
  rw [findPid] at h
  rw [kill,Slot.kill,h]
  refine Prod.ext (funext fun r => ?_) rfl
  by_cases hr : r = q
  · subst hr
    simp [setSlots,slots]
  · simp [setSlots,slots,update_of_ne hr]

/-- `kill` goes right unless it finds a free slot, and then only if that slot is marked already and
the pid is also in use elsewhere. -/
theorem killRight_iff (proc : PSlot → SProc) (pid : ℤ) :
    KillRight proc pid ↔ ∀ q, findPid proc pid = some q → (proc q).state ≠ .UNUSED ∨
      (proc q).killed = true ∧ ∃ r, (proc r).state ≠ .UNUSED ∧ (proc r).pid = pid := by
  cases hf : findPid proc pid with
  | none =>
    rw [KillRight,kill_of_none hf]
    refine iff_of_true ⟨iff_of_false (by simp) ?_,fun r hr => absurd rfl hr⟩ (by simp)
    rintro ⟨q,-,hq⟩
    exact findPid_none hf q hq
  | some q =>
    have hq := findPid_some hf
    rw [KillRight,kill_of_some hf]
    dsimp only
    constructor
    · rintro ⟨hret,hslot⟩ r hr
      cases hr
      by_cases hu : (proc q).state = .UNUSED
      · refine .inr ⟨?_,hret.mp rfl⟩
        have hsame : { proc q with toSlot := (proc q).killSlot } = proc q := by
          by_contra hne
          exact (hslot q (by rwa [update_self])).1 hu
        rw [← hsame]
        rfl
      · exact .inl hu
    intro h
    refine ⟨iff_of_true rfl ?_,fun r hr => ?_⟩
    · rcases h q rfl with hu | ⟨-,hr⟩
      · exact ⟨q,hu,hq⟩
      · exact hr
    obtain rfl : r = q := by
      by_contra hne
      exact hr (update_of_ne hne _ _)
    rw [update_self] at hr
    refine ⟨fun hu => ?_,hq⟩
    rcases h r rfl with hu' | ⟨hkilled,-⟩
    · exact hu' hu
    · refine hr ?_
      rw [Slot.killSlot,if_neg (by simp [hu]),← hkilled]

theorem killed_update {proc : PSlot → SProc} (hx : x.killed = (proc p).killed) (q : PSlot) :
    (Function.update proc p x q).killed = (proc q).killed := by
  by_cases hq : q = p
  · subst hq
    rw [update_self,hx]
  · rw [update_of_ne hq]

/-- How `killed` of a slot changes: `wait` clears it when it frees the slot, and `kill` sets it. -/
inductive KilledBy (s : Sys K) (a : Act K) (t : Sys K) (q : PSlot) : Prop
  | same (h : (t.proc q).killed = (s.proc q).killed)
  | freed (hs : (s.proc q).state = .ZOMBIE) (ht : (t.proc q).killed = false)
  | kill {pid} (ha : a = .kill pid) (hq : findPid s.proc pid = some q)
      (ht : (t.proc q).killed = true)

theorem WaitPass.killed {c : K} {a : Act K} (ht : WaitPass s c p t) (q : PSlot) :
    KilledBy s a t q := by
  cases ht with
  | @reap r hr =>
    by_cases hq : q = r
    · subst hq
      exact .freed (zombieChild_some hr).2 (by simp [letGo,collect,Sched.reap,Slot.reap])
    · exact .same (by simp [letGo,collect,update_of_ne hq])
  | fail => exact .same rfl
  | sleep => exact .same (killed_update (by rfl) q)

theorem Trans.killed {a : Act K} (ht : Trans s a t) (q : PSlot) : KilledBy s a t q := by
  cases ht with
  | acquire | skip | release | back | resume | noSlot => exact .same rfl
  | dispatch | wake | yield | sleep | fork | stack | noStack | space | noSpace | ready =>
    exact .same (killed_update (by rfl) q)
  | @rewait c p _ hm hc hk ht =>
    have hst := state_update (s := s) (p := p) (x := { s.proc p with chan := none }) rfl q
    cases ht.killed (a := .resume c) q with
    | same h => exact .same (h.trans (killed_update (by rfl) q))
    | freed hs ht => exact .freed (hst.symm.trans hs) ht
    | kill ha => cases ha
  | exit => exact .same ((killed_update (by rfl) q).trans
    (Slot.woken_exit procChan initproc (slots s.proc) _ q).same.2.2.2.1)
  | wait _ _ _ _ ht => exact ht.killed q
  | wakeup => exact .same (Slot.woken_wake1 _ _).same.2.2.2.1
  | @kill pid hl =>
    cases hf : findPid s.proc pid with
    | none => exact .same (by simp [kill_of_none hf])
    | some r =>
      by_cases hq : q = r
      · subst hq
        exact .kill rfl hf (by simp [kill_of_some hf,Slot.killSlot])
      · exact .same (by simp [kill_of_some hf,update_of_ne hq])

/-- Slots without a finished process are not marked. -/
def Unmarked (s : Sys K) : Prop :=
  ∀ q, (s.proc q).state = .UNUSED ∨ (s.proc q).state = .EMBRYO → (s.proc q).killed = false

theorem Event.not_grown {a : Act K} (he : Event s a t) (hq : ¬Grown (t.proc q).state) :
    ¬Grown (s.proc q).state ∨ (s.proc q).state = .ZOMBIE ∧ Reaps s a q := by
  cases he with
  | calm h => exact .inl fun hg => hq ((h.slot q).grown_iff.mpr hg)
  | @exit c p _ hp hd hi h =>
    obtain ⟨-,hun,hemb,-⟩ := exitProc_slot s.proc hp q
    refine .inl fun hg => hq ((h.slot q).grown_iff.mpr ⟨?_,?_⟩)
    · exact (not_congr hun).mpr hg.1
    · exact (not_congr hemb).mpr hg.2
  | @reap _ p r _ ha hp hr h =>
    by_cases hqr : q = r
    · subst hqr
      exact .inr ⟨(zombieChild_some hr).2,ha⟩
    · have hs := (h.slot q).grown_iff
      simp only [collect,update_of_ne hqr] at hs
      exact .inl fun hg => hq (hs.mpr hg)
  | @alloc c p r hp hr =>
    by_cases hqr : q = r
    · subst hqr
      exact .inl fun hg => hg.1 (firstUnused_some hr)
    · simp only [allocAt,build,update_of_ne hqr] at hq
      exact .inl hq
  | @grow _ k p r x d hp hd hr hx hpid hslot hst =>
    by_cases hqr : q = r
    · subst hqr
      exact .inl fun hg => hg.2 hr
    · simp only [build,update_of_ne hqr] at hq
      exact .inl hq
  | @ready c p r hp hd hst =>
    by_cases hqr : q = r
    · subst hqr
      exact .inl fun hg => hg.2 hst.1
    · simp only [readyAt,build,update_of_ne hqr] at hq
      exact .inl hq

theorem Reaps.killed {a : Act K} (ha : Reaps s a q) (ht : Trans s a t) :
    (t.proc q).killed = false := by
  obtain ⟨c,p,ha,hc,hq⟩ := ha
  have pass : ∀ {u : Sys K}, zombieChild u.proc p = some q → WaitPass u c p t →
      (t.proc q).killed = false := fun hu hw => by
    cases hw with
    | reap hq' =>
      obtain rfl := some.inj (hu.symm.trans hq')
      simp [letGo,collect,Sched.reap,Slot.reap]
    | fail hq' | sleep hq' => rw [hu] at hq'; cases hq'
  rcases ha with rfl | ⟨rfl,hk⟩
  · cases ht with
    | wait _ _ hc' _ hw =>
      obtain rfl := some.inj (hc.symm.trans hc')
      exact pass hq hw
  cases ht with
  | resume _ hc' hk' =>
    obtain rfl := some.inj (hc.symm.trans hc')
    exact absurd hk hk'
  | wake _ hc' hk' =>
    obtain rfl := some.inj (hc.symm.trans hc')
    rw [hk] at hk'
    cases hk'
  | rewait _ hc' _ hw =>
    obtain rfl := some.inj (hc.symm.trans hc')
    exact pass ((zombieChild_clear _ _ _).trans hq) hw

theorem Unmarked.step {a : Act K} (h : Unmarked s) (hinv : SchedInv s) (hok : KillsGrown s a)
    (hst : step s a = some t) : Unmarked t := by
  intro q hq
  have ht := Trans.of_step hst
  have hnot : ¬Grown (t.proc q).state := fun hg => hq.elim hg.1 hg.2
  rcases (Event.of_trans hinv ht).not_grown hnot with hs | ⟨-,hr⟩
  · have hsq : (s.proc q).killed = false := by
      refine h q ?_
      by_contra hne
      exact hs ⟨fun e => hne (.inl e),fun e => hne (.inr e)⟩
    cases ht.killed q with
    | same hk => exact hk.trans hsq
    | freed _ hk => exact hk
    | kill ha hf =>
      subst ha
      exact absurd (hok q hf) hs
  · exact hr.killed ht

/-- In every reachable state and for every pid, `kill` hits its target exactly if the first slot
with the pid is in use (or it is marked already and the pid is in use elsewhere). In every run whose
calls of `kill` find no free slot and no unfinished fork, a process that `fork` finishes starts
without `killed`; and a mark on such a slot is never taken away. -/
theorem kill_finds_target {as : List (Act K)} (hrun : exec step boot as = some s) :
    (∀ pid, KillRight s.proc pid ↔
      ∀ q, findPid s.proc pid = some q → (s.proc q).state ≠ .UNUSED ∨
        (s.proc q).killed = true ∧ ∃ r, (s.proc r).state ≠ .UNUSED ∧ (s.proc r).pid = pid) ∧
    (Meets step KillsGrown boot as → ∀ c t q, step s (.ready c) = some t →
      (s.proc q).state = .EMBRYO → (t.proc q).state = .RUNNABLE → (t.proc q).killed = false) ∧
    ∀ a t q, step s a = some t → (s.proc q).state = .UNUSED ∨ (s.proc q).state = .EMBRYO →
      (s.proc q).killed = true → (t.proc q).killed = true := by
  refine ⟨fun pid => killRight_iff s.proc pid,fun hok c t q hst hq _ => ?_,
    fun a t q hst hq hk => ?_⟩
  · have hinv : SchedInv s ∧ Unmarked s := by
      refine exec_invariant_of_meets (I := fun s => SchedInv s ∧ Unmarked s)
        (fun u a v ⟨hu,hun⟩ hok hst => ⟨hu.trans (.of_step hst),hun.step hu hok hst⟩)
        ⟨schedInv_boot,fun q _ => ?_⟩ hok hrun
      simp only [boot]
      split <;> rfl
    cases (Trans.of_step hst).killed q with
    | same hk => exact hk.trans (hinv.2 q (.inr hq))
    | freed hs => rw [hq] at hs; cases hs
    | kill ha => cases ha
  · cases (Trans.of_step hst).killed q with
    | same h => exact h.trans hk
    | freed hs => rcases hq with e | e <;> rw [hs] at e <;> cases e
    | kill _ _ h => exact h

def oneFork : List (Act (Fin 1)) :=
  [.acquire 0, .scan 0, .resume 0, .fork 0, .stack 0 true, .space 0 true]

theorem kill_finds_target_oneFork :
    ∃ s, exec step boot ([.kill 1] ++ oneFork) = some s ∧ KillRight s.proc 2 ∧
      ∀ t, step s (.ready 0) = some t → (t.proc ⟨1, by decide⟩).state = .RUNNABLE →
        (t.proc ⟨1, by decide⟩).killed = false := by
  have hrun : (exec step boot ([.kill 1] ++ oneFork)).map (fun s =>
      (findPid s.proc 2, (s.proc ⟨1,by decide⟩).state)) =
      some (some ⟨1,by decide⟩, .EMBRYO) := by decide +kernel
  obtain ⟨s,hs,he⟩ := Option.map_eq_some_iff.mp hrun
  simp only [Prod.mk.injEq] at he
  obtain ⟨hf,hq⟩ := he
  obtain ⟨hright,hstart,-⟩ := kill_finds_target hs
  refine ⟨s,hs,(hright 2).mpr fun q hq' => .inl ?_,fun t ht hr => ?_⟩
  · obtain rfl := some.inj (hf.symm.trans hq')
    rw [hq]
    decide
  · exact hstart (by decide +kernel) 0 t _ ht hq hr

/-- `kill(0)` finds the first free slot, returns 0 and marks it; the next process in the slot starts
killed. -/
theorem kill_marks_free_slot :
    (¬KillRight (boot : Sys (Fin 1)).proc 0 ∧ (kill (boot : Sys (Fin 1)).proc 0).2 = 0) ∧
      ∃ s, exec step boot ([.kill 0] ++ oneFork ++ [.ready 0]) = some s ∧
        s.forked = [(2, 1)] ∧ (s.proc ⟨1, by decide⟩).pid = 2 ∧
        (s.proc ⟨1, by decide⟩).killed = true := by
  have hrun : (exec step boot ([.kill 0] ++ oneFork ++ [.ready 0] : List (Act (Fin 1)))).map
      (fun s => (s.forked, (s.proc ⟨1,by decide⟩).pid, (s.proc ⟨1,by decide⟩).killed)) =
      some ([(2, 1)], 2, true) := by decide +kernel
  obtain ⟨s,hs,he⟩ := Option.map_eq_some_iff.mp hrun
  simp only [Prod.mk.injEq] at he
  refine ⟨⟨fun h => ?_,by decide +kernel⟩,s,hs,he⟩
  obtain ⟨q,hq,hpid⟩ := h.1.mp (by decide +kernel)
  by_cases hi : q = initproc
  · subst hi
    simp [boot] at hpid
  · simp [boot,hi] at hq

end Family

end Xv6Container.Sched
