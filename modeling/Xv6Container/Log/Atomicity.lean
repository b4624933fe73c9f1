import Xv6Container.Log.Recovery

/-! # Crash atomicity of the redo log -/

namespace Xv6Container.Log

open Function Run List

variable {L : Area} {d0 : Blocks} {s t : State}

theorem phase_idle (hpc : s.pc = .idle) : Phase L d0 s ↔ Quiet L d0 s := by rw [Phase,hpc]

theorem Inv.quiet (h : Inv L d0 s) (hpc : s.pc = .idle) : Quiet L d0 s :=
  (phase_idle hpc).mp h.phase

theorem Quiet.of_eq (h : Quiet L d0 s) (hdisk : t.disk = s.disk) (hbuf : t.buf = s.buf)
    (hlh : t.lh = s.lh) (hw : t.writes = s.writes) (hc : t.current = s.current)
    (ht : t.txns = s.txns) : Quiet L d0 t := by
  have hv : view d0 t = view d0 s := by
    cases s; cases t; cases hw; cases hc; cases ht; rfl
  refine ⟨?_,?_,?_,?_,?_,?_⟩
  · rw [hdisk]; exact h.head
  · rw [hbuf,hv]; exact h.cached
  · rw [State.writesOf,hw,hc,hlh]; exact h.named
  · rw [hlh]; exact h.lh_ok
  · rw [hlh]; exact h.lh_log
  · rw [hlh]; exact h.lh_fits

theorem quiet_of_erased (hcur : s.current = []) (hlh : s.lh = [])
    (hhead : readHead (s.disk L.start) = []) (hbuf : ∀ b, ¬L.Mem b → s.buf b = home d0 s b) :
    Quiet L d0 s := by
  refine ⟨hhead,?_,?_,?_,?_,?_⟩
  · rw [view_of_current_nil hcur]
    exact hbuf
  · intro w hw
    rw [hcur,State.writesOf] at hw
    simp at hw
  · simp [hlh]
  · simp [hlh]
  · rw [hlh]
    exact L.size_pos

theorem update_outside {f : Blocks} {a b : ℕ} {v : Block BSIZE} (hb : ¬L.Mem b) (ha : L.Mem a) :
    update f a v b = f b := by
  have hne : b ≠ a := fun e => hb (e ▸ ha)
  exact update_of_ne hne _ _

theorem inv_beginOp {p : ℕ} (h : Inv L d0 s) (hs : beginOp s p = some t) : Inv L d0 t := by
  have hist := h.hist.beginOp hs
  obtain ⟨hrec,hcom,-,rfl⟩ := beginOp_some hs
  have hpc : s.pc = .idle := h.hist.idle_of_free hcom hrec
  have hq := h.quiet hpc
  have hcur : s.writesOf (s.opCount :: s.current) = s.writesOf s.current :=
    h.hist.writesOf_cons s.current
  refine ⟨hist,h.recoverable,(phase_idle (by exact hpc)).mpr
    ⟨hq.head,?_,?_,hq.lh_ok,hq.lh_log,hq.lh_fits⟩⟩
  · intro b hb
    show s.buf b = replay (home d0 s) (s.writesOf (s.opCount :: s.current)) b
    rw [hcur]
    exact hq.cached b hb
  · show ∀ w ∈ s.writesOf (s.opCount :: s.current), w.blockno ∈ s.lh
    rw [hcur]
    exact hq.named

theorem inv_logWrite {p b : ℕ} {d : Block BSIZE} (h : Inv L d0 s)
    (hs : logWrite L s p b d = some t) : Inv L d0 t := by
  have hist := h.hist.logWrite hs
  obtain ⟨op,hact,hout,hlog,hroom,ht⟩ := logWrite_some hs
  rw [not_or,Nat.not_le] at hout
  have hpc : s.pc = .idle := h.hist.idle_of_active (ne_nil_of_mem hact)
  have hcur : op ∈ s.current := h.hist.active_current _ hact
  have hq := h.quiet hpc
  have hhome : home d0 t = home d0 s := h.hist.home_append (by rw [ht]) (by rw [ht]) hcur
  have hnew : t.writesOf t.current = s.writesOf s.current ++ [⟨op,b,d⟩] :=
    Hist.writesOf_append (by rw [ht]) (by rw [ht]) hcur
  have hlen := length_absorb_le s.lh b
  refine ⟨hist,?_,(phase_idle (by rw [ht]; exact hpc)).mpr ⟨by rw [ht]; exact hq.head,?_,?_,?_,?_,?_⟩⟩
  · rw [hhome,ht]
    exact h.recoverable
  · intro x hx
    rw [view,hhome,hnew,replay_append,ht]
    show update s.buf b d x = update (view d0 s) b d x
    by_cases hxb : x = b
    · subst hxb; rw [update_self,update_self]
    · rw [update_of_ne hxb,update_of_ne hxb]
      exact hq.cached x hx
  · intro w hw
    rw [hnew] at hw
    rw [ht]
    refine mem_absorb.mpr ?_
    rcases List.mem_append.mp hw with hw | hw
    · exact .inl (hq.named w hw)
    · rw [List.mem_singleton.mp hw]
      exact .inr rfl
  · rw [ht]
    intro x hx
    rcases mem_absorb.mp hx with hx | rfl
    · exact hq.lh_ok x hx
    · exact hout
  · rw [ht]
    exact hlen.trans hlog
  · rw [ht]
    show (absorb s.lh b).length < L.size
    omega

theorem inv_endOp {p : ℕ} (h : Inv L d0 s) (hs : endOp s p = some t) : Inv L d0 t := by
  have hist := h.hist.endOp hs
  obtain ⟨op,hact,hcases⟩ := endOp_some hs
  have hpc : s.pc = .idle := h.hist.idle_of_active (ne_nil_of_mem hact)
  have hq := h.quiet hpc
  obtain ⟨-,rfl⟩ | ⟨-,-,rfl⟩ | ⟨hz,hlh,rfl⟩ := hcases
  · exact ⟨hist,h.recoverable,(phase_idle (by exact hpc)).mpr (hq.of_eq rfl rfl rfl rfl rfl rfl)⟩
  · -- the last operation out starts the commit
    exact ⟨hist,h.recoverable,hq.of_eq rfl rfl rfl rfl rfl rfl,
      fun i hi => absurd hi (Nat.not_lt_zero i)⟩
  -- nothing was written: there is nothing to commit
  have hnone : s.writesOf s.current = [] := by
    rw [eq_nil_iff_forall_not_mem]
    intro w hw
    have hm := hq.named w hw
    rw [hlh] at hm
    simp at hm
  have hview : view d0 s = home d0 s := by
    rw [view,hnone]
    rfl
  have hhome : home d0 (sealTxn { s with
      outstanding := s.outstanding - 1
      active := s.active.erase (p,op)
      committing := true
      pc := .endCommit }) = home d0 s := by
    refine (home_sealTxn ?_).trans hview
    exact h.hist.leave hact (absurd hz) fun hf => by cases hf
  refine ⟨hist,?_,hlh,rfl,quiet_of_erased rfl hlh hq.head ?_⟩
  · rw [hhome]
    exact h.recoverable
  · rw [hhome,← hview]
    exact hq.cached

theorem getD_mem_lh {i : ℕ} (hi : i < s.lh.length) : s.lh.getD i 0 ∈ s.lh := by
  rw [getD_eq_getElem _ _ hi]
  exact getElem_mem hi

theorem writeLog_block {i : ℕ} {pc : Pc} (hclean : Clean L (home d0 s) s.disk) (hq : Quiet L d0 s)
    (hlw : LogWritten L s i) (hi : i < s.lh.length) (ht : t =
      { bwrite s (L.start + i + 1) (s.buf (s.lh.getD i 0)) with pc := pc }) :
    Recoverable L (home d0 t) t.disk ∧ Quiet L d0 t ∧ LogWritten L t (i+1) := by
  subst ht
  have hfit := hq.lh_fits
  have hmem : L.Mem (L.start + i + 1) := L.mem_logBlock (by omega)
  have hhead : readHead (update s.disk (L.start + i + 1) (s.buf (s.lh.getD i 0)) L.start) = [] := by
    rw [update_of_ne (by omega)]
    exact hq.head
  refine ⟨.of_clean hhead (hclean.update_log hmem _),
    ⟨hhead,fun b hb => ?_,hq.named,hq.lh_ok,hq.lh_log,hq.lh_fits⟩,?_⟩
  · exact (update_outside hb hmem).trans (hq.cached b hb)
  intro j hj hjl
  show update s.disk _ _ _ = update s.buf _ _ (s.lh.getD j 0) ∧
    update s.buf _ _ _ = update s.buf _ _ (s.lh.getD j 0)
  rw [update_outside (hq.lh_ok _ (getD_mem_lh hjl)).1 hmem]
  by_cases hji : j = i
  · subst hji
    rw [update_self,update_self]
    exact ⟨rfl,rfl⟩
  · rw [update_of_ne (by omega),update_of_ne (by omega)]
    exact hlw j (by omega) hjl

theorem writeHead_block {pc : Pc} (h : Hist s) (hclean : Clean L (home d0 s) s.disk)
    (hq : Quiet L d0 s) (hlw : LogWritten L s s.lh.length) (ht : t =
      sealTxn { bwrite s L.start (headBlock (s.buf L.start) s.lh) with pc := pc }) :
    Recoverable L (home d0 t) t.disk ∧ readHead (t.disk L.start) = s.lh ∧
      (∀ b, ¬L.Mem b → t.buf b = home d0 t b) ∧
      ∀ i, i < s.lh.length → t.buf (L.start + i + 1) = home d0 t (s.lh.getD i 0) := by
  have hhome : home d0 t = view d0 s := by
    rw [ht,← home_sealTxn h]
    rfl
  have hdisk : t.disk = update s.disk L.start (headBlock (s.buf L.start) s.lh) := by rw [ht]; rfl
  have hbuf : t.buf = update s.buf L.start (headBlock (s.buf L.start) s.lh) := by rw [ht]; rfl
  rw [hhome,hdisk,hbuf]
  have hlogged : ∀ i, i < s.lh.length →
      s.disk (L.start + i + 1) = view d0 s (s.lh.getD i 0) ∧
      s.buf (L.start + i + 1) = view d0 s (s.lh.getD i 0) := by
    intro i hi
    rw [← hq.cached _ (hq.lh_ok _ (getD_mem_lh hi)).1]
    exact hlw i hi hi
  have hrest : ∀ b, ¬L.Mem b → b ∉ s.lh → s.disk b = view d0 s b := by
    intro b hb hbn
    rw [hclean b hb,view,replay_of_not_mem]
    intro w hw e
    exact hbn (e ▸ hq.named w hw)
  refine ⟨?_,?_,?_,?_⟩
  · exact .of_head _ hq.lh_log hq.lh_fits hq.lh_ok (fun i hi => (hlogged i hi).1) hrest
  · rw [update_self]
    exact readHead_headBlock _ hq.lh_log fun b hb => (hq.lh_ok b hb).2
  · intro b hb
    exact (update_outside hb L.mem_start).trans (hq.cached b hb)
  · intro i hi
    rw [update_of_ne (by omega)]
    exact (hlogged i hi).2

theorem install_block {h disk : Blocks} {lh : List ℕ} {i : ℕ} {v : Block BSIZE}
    (hr : Recoverable L h disk) (hhead : readHead (disk L.start) = lh) (hi : i < lh.length)
    (hv : v = h (lh.getD i 0)) :
    ¬L.Mem (lh.getD i 0) ∧ Recoverable L h (update disk (lh.getD i 0) v) ∧
    readHead (update disk (lh.getD i 0) v L.start) = lh ∧
    ∀ j, j < i+1 → j < lh.length → (j < i → disk (lh.getD j 0) = h (lh.getD j 0)) →
      update disk (lh.getD i 0) v (lh.getD j 0) = h (lh.getD j 0) := by
  have hout : ¬L.Mem (lh.getD i 0) := by
    have := (hr.logged i (by rw [hhead]; exact hi)).1
    rwa [hhead] at this
  have hne : L.start ≠ lh.getD i 0 := fun e => hout (e ▸ L.mem_start)
  subst hv
  refine ⟨hout,hr.install hout,?_,?_⟩
  · rw [update_of_ne hne]
    exact hhead
  intro j hj _ hprev
  by_cases he : lh.getD j 0 = lh.getD i 0
  · rw [he,update_self]
  · rw [update_of_ne he]
    refine hprev ?_
    rcases Nat.lt_succ_iff_lt_or_eq.mp hj with hlt | rfl
    · exact hlt
    · exact absurd rfl he

theorem Recoverable.clean_of_installed {h disk : Blocks} {lh : List ℕ}
    (hr : Recoverable L h disk) (hhead : readHead (disk L.start) = lh)
    (hin : ∀ i, i < lh.length → disk (lh.getD i 0) = h (lh.getD i 0)) : Clean L h disk := by
  intro b hb
  by_cases hm : b ∈ lh
  · obtain ⟨i,hi,rfl⟩ := List.mem_iff_getElem.mp hm
    have := hin i hi
    rwa [getD_eq_getElem _ _ hi] at this
  · exact hr.rest b hb (by rw [hhead]; exact hm)

theorem erase_block {pc : Pc} (hcur : s.current = []) (hlh : s.lh = [])
    (hclean : Clean L (home d0 s) s.disk) (hbuf : ∀ b, ¬L.Mem b → s.buf b = home d0 s b)
    (ht : t = { bwrite s L.start (headBlock (s.buf L.start) s.lh) with pc := pc }) :
    Recoverable L (home d0 t) t.disk ∧ Quiet L d0 t := by
  have hhead : readHead (t.disk L.start) = [] := by
    rw [ht,hlh]
    show readHead (update s.disk L.start (headBlock (s.buf L.start) []) L.start) = []
    rw [update_self]
    exact readHead_headBlock _ (Nat.zero_le _) (by simp)
  subst ht
  refine ⟨.of_clean hhead (hclean.update_log L.mem_start _),quiet_of_erased hcur hlh hhead ?_⟩
  intro b hb
  exact (update_outside hb L.mem_start).trans (hbuf b hb)

theorem inv_tick (h : Inv L d0 s) (hs : tick L s = some t) : Inv L d0 t := by
  have hist := h.hist.tick hs
  obtain ⟨c,s,rfl⟩ : ∃ c u, s = { u with pc := c } := ⟨s.pc,s,rfl⟩
  obtain ⟨hh,hr,hp⟩ := h
  cases c with
  | idle => cases hs
  | writeLog i =>
    obtain ⟨hq,hlw⟩ := hp
    simp only [tick] at hs
    split at hs
    · next hi =>
      cases hs
      obtain ⟨hr',hp'⟩ := writeLog_block (hr.clean hq.head) hq hlw hi rfl
      exact ⟨hist,hr',hp'⟩
    · next hi =>
      cases hs
      refine ⟨hist,hr,hq.of_eq rfl rfl rfl rfl rfl rfl,fun j hj hjl => hlw j ?_ hjl⟩
      exact Nat.lt_of_lt_of_le hjl (Nat.not_lt.mp hi)
  | writeHead =>
    obtain ⟨hq,hlw⟩ := hp
    cases hs
    obtain ⟨hr',hp'⟩ := writeHead_block hh (hr.clean hq.head) hq hlw rfl
    exact ⟨hist,hr',rfl,hp'.1,hp'.2.1,hp'.2.2,fun i hi => absurd hi (Nat.not_lt_zero i)⟩
  | installTrans i =>
    obtain ⟨hcur,hhead,hbuf,hlog,hin⟩ := hp
    simp only [tick] at hs
    split at hs
    · next hi =>
      cases hs
      have hv := hlog i hi
      obtain ⟨hout,hr',hhead',hin'⟩ := install_block hr hhead hi hv
      have hfit := hr.fits
      rw [hhead] at hfit
      refine ⟨hist,hr',hcur,hhead',?_,?_,fun j hj hjl => hin' j hj hjl fun hji => hin j hji hjl⟩
      · intro b hb
        show update s.buf (s.lh.getD i 0) _ b = home d0 s b
        by_cases he : b = s.lh.getD i 0
        · rw [he,update_self]
          exact hv
        · rw [update_of_ne he]
          exact hbuf b hb
      · intro j hj
        have hne : L.start + j + 1 ≠ s.lh.getD i 0 := fun e =>
          hout (e ▸ L.mem_logBlock (Nat.lt_of_le_of_lt hj hfit))
        exact (update_of_ne hne _ _).trans (hlog j hj)
    · next hi =>
      cases hs
      exact ⟨hist,hr,hcur,rfl,hr.clean_of_installed hhead fun j hj =>
        hin j (Nat.lt_of_lt_of_le hj (Nat.not_lt.mp hi)) hj,hbuf⟩
  | eraseHead =>
    obtain ⟨hcur,hlh,hclean,hbuf⟩ := hp
    cases hs
    obtain ⟨hr',hq⟩ := erase_block hcur hlh hclean hbuf rfl
    exact ⟨hist,hr',hlh,hcur,hq⟩
  | endCommit =>
    cases hs
    exact ⟨hist,hr,hp.2.2.of_eq rfl rfl rfl rfl rfl rfl⟩
  | readHead =>
    obtain ⟨hcur,-,hbuf⟩ := hp
    cases hs
    have hlh : readHead (s.buf L.start) = readHead (s.disk L.start) := by
      rw [show s.buf = s.disk from hbuf]
    exact ⟨hist,hr,hcur,hlh,hbuf,fun i hi => absurd hi (Nat.not_lt_zero i)⟩
  | recoverTrans i =>
    obtain ⟨hcur,hlh,hbuf,hin⟩ := hp
    simp only [tick] at hs
    split at hs
    · next hi =>
      cases hs
      have hlog := (hr.logged i (by rw [← hlh]; exact hi)).2
      rw [← hlh,← hbuf] at hlog
      obtain ⟨-,hr',hhead',hin'⟩ := install_block hr hlh.symm hi hlog
      refine ⟨hist,hr',hcur,hhead'.symm,?_,fun j hj hjl => hin' j hj hjl fun hji => hin j hji hjl⟩
      exact congrArg (fun d => update d (s.lh.getD i 0) (s.buf (L.start + i + 1))) hbuf
    · next hi =>
      cases hs
      exact ⟨hist,hr,hcur,rfl,hbuf,hr.clean_of_installed hlh.symm fun j hj =>
        hin j (Nat.lt_of_lt_of_le hj (Nat.not_lt.mp hi)) hj⟩
  | recoverErase =>
    obtain ⟨hcur,hlh,hbuf,hclean⟩ := hp
    cases hs
    obtain ⟨hr',hq⟩ := erase_block hcur hlh hclean
      (fun b hb => (congrFun hbuf b).trans (hclean b hb)) rfl
    exact ⟨hist,hr',hq⟩

theorem inv_crash (h : Inv L d0 s) : Inv L d0 (crash s) :=
  ⟨h.hist.crash,h.recoverable,rfl,rfl,rfl⟩

theorem inv_boot (hd : readHead (d0 L.start) = []) : Inv L d0 (boot d0) :=
  ⟨hist_boot d0,.of_clean hd fun _ _ => rfl,rfl,rfl,rfl⟩

theorem inv_step {a : Act} (h : Inv L d0 s) (hs : step L s a = some t) : Inv L d0 t := by
  cases a with
  | beginOp p => exact inv_beginOp h hs
  | logWrite p b d => exact inv_logWrite h hs
  | endOp p => exact inv_endOp h hs
  | tick => exact inv_tick h hs
  | crash => cases hs; exact inv_crash h

theorem recovery_finishes (n : ℕ) {i : ℕ} (hpc : s.pc = .recoverTrans i)
    (hn : s.lh.length - i = n) :
    ∃ t, exec (step L) s (List.replicate (n+1) .tick) = some t ∧ t.pc = .recoverErase ∧
      t.txns = s.txns ∧ t.writes = s.writes := by
  induction n generalizing s i with
  | zero =>
    refine ⟨{ s with lh := [], pc := .recoverErase },?_,rfl,rfl,rfl⟩
    simp only [List.replicate,exec,step,tick,hpc]
    rw [if_neg (by omega)]
    rfl
  | succ n ih =>
    obtain ⟨t,ht,htpc⟩ := ih (s := { installOne L s i with pc := .recoverTrans (i+1) })
      (i := i+1) rfl (by show s.lh.length - (i+1) = n; omega)
    refine ⟨t,?_,htpc⟩
    rw [replicate_succ,exec_cons]
    refine ⟨_,?_,ht⟩
    simp only [step,tick,hpc]
    rw [if_pos (by omega)]

/-- **Crash atomicity.** After any run of any number of processes, with crashes wherever they
fall: no operation is part of two commits, none that is committed is still running, and when
`recover_from_log` completes the blocks outside the log are the first disk with the log_writes of
the committed operations applied in order. Recovery does complete when it is not interrupted
again. -/
theorem recover_from_log_atomic (hd : readHead (d0 L.start) = []) (acts : List Act)
    (hrun : exec (step L) (boot d0) acts = some s) :
    s.committedOps.Nodup ∧ (∀ a ∈ s.active, a.2 ∉ s.committedOps) ∧
    (s.pc = .recoverErase → ∀ t, step L s .tick = some t →
      ∀ b, ¬L.Mem b → t.disk b = replay d0 (t.writesOf t.committedOps) b) ∧
    ∃ n t, exec (step L) s (.crash :: List.replicate n .tick) = some t ∧ t.pc = .idle ∧
      ∀ b, ¬L.Mem b → t.disk b = replay d0 (s.writesOf s.committedOps) b := by
  have h : Inv L d0 s := exec_invariant (fun _ _ _ h hs => inv_step h hs) (inv_boot hd) hrun
  have hdone : ∀ {u t : State}, Inv L d0 u → u.pc = .recoverErase → tick L u = some t →
      t.pc = .idle ∧ ∀ b, ¬L.Mem b → t.disk b = home d0 t b := by
    intro u t hu hpc ht
    have hti := inv_tick hu ht
    have htpc : t.pc = .idle := by
      rw [tick,hpc] at ht
      cases ht
      rfl
    exact ⟨htpc,fun b hb => hti.recoverable.clean (hti.quiet htpc).head b hb⟩
  refine ⟨(List.nodup_append.mp h.hist.nodup).1,?_,?_,?_⟩
  · intro a ha
    exact h.hist.not_committed (h.hist.active_current a ha)
  · intro hpc t ht
    exact (hdone h hpc ht).2
  have hc := inv_crash h
  let r : State := { crash s with lh := readHead (s.disk L.start), pc := .recoverTrans 0 }
  have hr : tick L (crash s) = some r := rfl
  obtain ⟨u,hu,hupc,hutx,huw⟩ := recovery_finishes (L := L) (s := r) _ rfl rfl
  have hui : Inv L d0 u := exec_invariant (fun _ _ _ h hs => inv_step h hs) (inv_tick hc hr) hu
  let t : State := { bwrite u L.start (headBlock (u.buf L.start) u.lh) with pc := .idle }
  have ht : tick L u = some t := by rw [tick,hupc]
  obtain ⟨htpc,hclean⟩ := hdone hui hupc ht
  have hhome : home d0 t = replay d0 (s.writesOf s.committedOps) := by
    show replay d0 (u.writes.filter fun w => w.op ∈ u.txns.flatten) = _
    rw [hutx,huw]
    rfl
  refine ⟨r.lh.length - 0 + 1 + 1 + 1,t,?_,htpc,?_⟩
  · rw [replicate_succ,replicate_succ']
    exact exec_cons.mpr ⟨_,rfl,exec_cons.mpr ⟨r,hr,
      exec_append.mpr ⟨u,hu,exec_cons.mpr ⟨t,ht,rfl⟩⟩⟩⟩
  · rw [← hhome]
    exact hclean

/-- Two processes share a transaction; the machine stops with one of its two blocks installed and
recovers up to the erasing of the header. -/
def sharedTxnRun : List Act :=
  [.tick, .tick, .tick, .beginOp 1, .beginOp 2,
   .logWrite 1 60 (fun _ => 7), .logWrite 2 61 (fun _ => 8), .endOp 1,
   .logWrite 2 60 (fun _ => 9), .endOp 2,
   .tick, .tick, .tick, .tick, .tick, .crash, .tick, .tick, .tick, .tick]

theorem recover_from_log_atomic_sharedTxn :
    ∃ s, exec (step ⟨2, 30, by decide⟩) (boot fun _ => Block.zero) sharedTxnRun = some s ∧
      s.pc = .recoverErase ∧ s.txns = [[1, 0]] ∧
      ∀ t, step ⟨2, 30, by decide⟩ s .tick = some t → ∀ b, ¬Area.Mem ⟨2, 30, by decide⟩ b →
        t.disk b = replay (fun _ => Block.zero) (t.writesOf t.committedOps) b := by
  have key : ∀ s, exec (step ⟨2,30,by decide⟩) (boot fun _ => Block.zero) sharedTxnRun = some s →
      s.pc = .recoverErase → ∀ t, step ⟨2,30,by decide⟩ s .tick = some t →
        ∀ b, ¬Area.Mem ⟨2,30,by decide⟩ b →
          t.disk b = replay (fun _ => Block.zero) (t.writesOf t.committedOps) b :=
    fun s hrun hpc => (recover_from_log_atomic rfl sharedTxnRun hrun).2.2.1 hpc
  exact ⟨_,rfl,rfl,rfl,key _ rfl rfl⟩

end Xv6Container.Log
