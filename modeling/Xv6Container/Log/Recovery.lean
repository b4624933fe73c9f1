import Mathlib.Data.List.GetD
import Xv6Container.Log.Model

/-!
# The invariant of the redo log

`Hist` is about the history of the operations, `Phase` about the disk and the cache at each place
of the committing or recovering thread. The disk is `Recoverable` at all of them.
-/

namespace Xv6Container.Log

open Function Run List

theorem mem_absorb {l : List ℕ} {b x : ℕ} : x ∈ absorb l b ↔ x ∈ l ∨ x = b := by
  induction l with
  | nil => simp [absorb]
  | cons y ys ih =>
    rw [absorb]
    split
    · next h =>
      subst h
      constructor
      · exact .inl
      · rintro (hx | rfl)
        · exact hx
        · exact mem_cons_self
    · rw [mem_cons,ih,mem_cons,or_assoc]

theorem length_absorb_le (l : List ℕ) (b : ℕ) : (absorb l b).length ≤ l.length+1 := by
  induction l with
  | nil => simp [absorb]
  | cons y ys ih =>
    rw [absorb]
    split
    · simp
    · simpa using ih

theorem word_writeEntries_of_le (bs : List ℕ) (hb : Block BSIZE) {i k : ℕ}
    (hk : k ≤ i) (hki : 4 * k + 4 ≤ BSIZE) : (writeEntries hb i bs).word k = hb.word k := by
  induction bs generalizing hb i with
  | nil => rfl
  | cons b bs ih =>
    rw [writeEntries,ih _ (by omega),Block.word_setWord_of_ne _ hki (by omega)]

theorem word_writeEntries (bs : List ℕ) (hb : Block BSIZE) {i j : ℕ} (hj : j < bs.length)
    (hfit : i + bs.length < 128) (hlt : ∀ b ∈ bs, b < 2 ^ 32) :
    (writeEntries hb i bs).word (i + j + 1) = bs.getD j 0 := by
  induction bs generalizing hb i j with
  | nil => simp at hj
  | cons b bs ih =>
    simp only [length_cons] at hj hfit
    rw [writeEntries]
    cases j with
    | zero =>
      rw [word_writeEntries_of_le _ _ (by omega) (by simp only [BSIZE]; omega),Nat.add_zero,
        Block.word_setWord_self _ (by simp only [BSIZE]; omega) (hlt b mem_cons_self)]
      rfl
    | succ j =>
      have h := ih (hb.setWord (i+1) b) (i := i+1) (j := j) (by omega) (by omega)
        (fun x hx => hlt x (mem_cons_of_mem _ hx))
      rw [show i + (j+1) + 1 = i + 1 + j + 1 by omega,h]
      rfl

theorem readHead_headBlock (hb : Block BSIZE) {lh : List ℕ} (hlen : lh.length ≤ LOGSIZE)
    (hlt : ∀ b ∈ lh, b < 2 ^ 32) : readHead (headBlock hb lh) = lh := by
  simp only [LOGSIZE,MAXOPBLOCKS] at hlen
  have hn : (headBlock hb lh).word 0 = lh.length := by
    rw [headBlock,word_writeEntries_of_le _ _ (by omega) (by simp only [BSIZE]; omega)]
    exact Block.word_setWord_self _ (by simp only [BSIZE]; omega) (by omega)
  apply ext_getElem
  · simp [readHead,hn]
  · intro j _ hj
    have hw := word_writeEntries lh (hb.setWord 0 lh.length) (i := 0) hj (by omega) hlt
    rw [Nat.zero_add,getD_eq_getElem _ _ hj] at hw
    simpa [readHead,headBlock] using hw

theorem replay_append (d : Blocks) (ws vs : List Write) :
    replay d (ws ++ vs) = replay (replay d ws) vs :=
  foldl_append

theorem replay_of_not_mem {d : Blocks} {ws : List Write} {b : ℕ}
    (h : ∀ w ∈ ws, w.blockno ≠ b) : replay d ws b = d b := by
  induction ws generalizing d with
  | nil => rfl
  | cons w ws ih =>
    have hw : b ≠ w.blockno := fun e => h w mem_cons_self e.symm
    rw [replay,foldl_cons]
    exact (ih fun v hv => h v (mem_cons_of_mem _ hv)).trans (update_of_ne hw _ _)

variable {L : Area} {d0 h disk : Blocks} {s t : State} {p op b : ℕ} {d : Block BSIZE}

/-- The blocks as the committed transactions leave them. -/
def home (d0 : Blocks) (s : State) : Blocks := replay d0 (s.writesOf s.committedOps)

/-- The blocks as the running operations see them. -/
def view (d0 : Blocks) (s : State) : Blocks := replay (home d0 s) (s.writesOf s.current)

/-- What the history records, whatever the disk holds. -/
structure Hist (s : State) : Prop where
  fresh : ∀ op ∈ s.committedOps ++ s.current, op < s.opCount
  nodup : (s.committedOps ++ s.current).Nodup
  active_current : ∀ a ∈ s.active, a.2 ∈ s.current
  writes_fresh : ∀ w ∈ s.writes, w.op < s.opCount
  writes_split : ∃ old new, s.writes = old ++ new ∧
    (∀ w ∈ old, w.op ∉ s.current) ∧ ∀ w ∈ new, w.op ∈ s.current
  outstanding_eq : s.outstanding = s.active.length
  idle_of_active : s.active ≠ [] → s.pc = .idle
  idle_of_free : s.committing = false → s.pc.recovering = false → s.pc = .idle

/-- The disk from which `recover_from_log` restores the blocks `h`. -/
structure Recoverable (L : Area) (h disk : Blocks) : Prop where
  fits : (readHead (disk L.start)).length < L.size
  logged : ∀ i, i < (readHead (disk L.start)).length →
    ¬L.Mem ((readHead (disk L.start)).getD i 0) ∧
      disk (L.start + i + 1) = h ((readHead (disk L.start)).getD i 0)
  rest : ∀ b, ¬L.Mem b → b ∉ readHead (disk L.start) → disk b = h b

/-- All blocks outside the log are home. -/
def Clean (L : Area) (h disk : Blocks) : Prop := ∀ b, ¬L.Mem b → disk b = h b

/-- The first `t` blocks of the in-memory header are home. -/
def Installed (h : Blocks) (s : State) (t : ℕ) : Prop :=
  ∀ i, i < t → i < s.lh.length → s.disk (s.lh.getD i 0) = h (s.lh.getD i 0)

/-- No transaction is on the disk's log; the in-memory header names every block the running
operations have written. -/
structure Quiet (L : Area) (d0 : Blocks) (s : State) : Prop where
  head : readHead (s.disk L.start) = []
  cached : ∀ b, ¬L.Mem b → s.buf b = view d0 s b
  named : ∀ w ∈ s.writesOf s.current, w.blockno ∈ s.lh
  lh_ok : ∀ b ∈ s.lh, ¬L.Mem b ∧ b < 2 ^ 32
  lh_log : s.lh.length ≤ LOGSIZE
  lh_fits : s.lh.length < L.size

/-- The first `t` log blocks hold the cached data of the blocks they stand for. -/
def LogWritten (L : Area) (s : State) (t : ℕ) : Prop :=
  ∀ i, i < t → i < s.lh.length → s.disk (L.start + i + 1) = s.buf (s.lh.getD i 0) ∧
    s.buf (L.start + i + 1) = s.buf (s.lh.getD i 0)

/-- What holds at each place of the committing or recovering thread. -/
def Phase (L : Area) (d0 : Blocks) (s : State) : Prop :=
  match s.pc with
  | .idle => Quiet L d0 s
  | .writeLog t => Quiet L d0 s ∧ LogWritten L s t
  | .writeHead => Quiet L d0 s ∧ LogWritten L s s.lh.length
  | .installTrans t => s.current = [] ∧ readHead (s.disk L.start) = s.lh ∧
      (∀ b, ¬L.Mem b → s.buf b = home d0 s b) ∧
      (∀ i, i < s.lh.length → s.buf (L.start + i + 1) = home d0 s (s.lh.getD i 0)) ∧
      Installed (home d0 s) s t
  | .eraseHead => s.current = [] ∧ s.lh = [] ∧ Clean L (home d0 s) s.disk ∧
      ∀ b, ¬L.Mem b → s.buf b = home d0 s b
  | .endCommit => s.lh = [] ∧ s.current = [] ∧ Quiet L d0 s
  | .readHead => s.current = [] ∧ s.lh = [] ∧ s.buf = s.disk
  | .recoverTrans t => s.current = [] ∧ s.lh = readHead (s.disk L.start) ∧ s.buf = s.disk ∧
      Installed (home d0 s) s t
  | .recoverErase => s.current = [] ∧ s.lh = [] ∧ s.buf = s.disk ∧
      Clean L (home d0 s) s.disk

/-- The invariant of the log. -/
structure Inv (L : Area) (d0 : Blocks) (s : State) : Prop where
  hist : Hist s
  recoverable : Recoverable L (home d0 s) s.disk
  phase : Phase L d0 s

theorem Area.mem_start (L : Area) : L.Mem L.start := ⟨Nat.le_refl _,by have := L.size_pos; omega⟩

theorem Area.mem_logBlock (L : Area) {i : ℕ} (h : i + 1 < L.size) : L.Mem (L.start + i + 1) :=
  ⟨by omega,by omega⟩

theorem Hist.not_committed (h : Hist s) {op : ℕ} (hop : op ∈ s.current) :
    op ∉ s.committedOps := fun hc => (disjoint_of_nodup_append h.nodup) hc hop

theorem Hist.writesOf_cons (h : Hist s) (ops : List ℕ) :
    s.writesOf (s.opCount :: ops) = s.writesOf ops := by
  apply filter_congr
  intro w hw
  have hne : w.op ≠ s.opCount := Nat.ne_of_lt (h.writes_fresh w hw)
  simp [hne]

theorem Hist.writesOf_seal (h : Hist s) :
    s.writesOf (s.committedOps ++ s.current) =
      s.writesOf s.committedOps ++ s.writesOf s.current := by
  obtain ⟨old,new,hw,hold,hnew⟩ := h.writes_split
  have ho : old.filter (fun w => w.op ∈ s.committedOps ++ s.current) =
      old.filter (fun w => w.op ∈ s.committedOps) := by
    apply filter_congr
    intro w hm
    simp [hold w hm]
  have ho' : old.filter (fun w => w.op ∈ s.current) = [] := by
    rw [filter_eq_nil_iff]
    intro w hm
    simp [hold w hm]
  have hn : new.filter (fun w => w.op ∈ s.committedOps ++ s.current) = new := by
    rw [filter_eq_self]
    intro w hm
    simp [hnew w hm]
  have hn' : new.filter (fun w => w.op ∈ s.current) = new := by
    rw [filter_eq_self]
    intro w hm
    simp [hnew w hm]
  have hn'' : new.filter (fun w => w.op ∈ s.committedOps) = [] := by
    rw [filter_eq_nil_iff]
    intro w hm
    simp [h.not_committed (hnew w hm)]
  simp only [State.writesOf,hw,filter_append]
  rw [ho,ho',hn,hn',hn'',append_nil,nil_append]

theorem Hist.home_append {w : Write} (h : Hist s)
    (hw : t.writes = s.writes ++ [w]) (ht : t.txns = s.txns) (hop : w.op ∈ s.current) :
    home d0 t = home d0 s := by
  have hco : t.committedOps = s.committedOps := by rw [State.committedOps,ht]; rfl
  have hn := h.not_committed hop
  rw [home,home,State.writesOf,hw,hco,filter_append]
  simp [State.writesOf,hn]

theorem Hist.writesOf_append {w : Write}
    (hw : t.writes = s.writes ++ [w]) (hc : t.current = s.current) (hop : w.op ∈ s.current) :
    t.writesOf t.current = s.writesOf s.current ++ [w] := by
  rw [State.writesOf,hw,hc,filter_append]
  simp [State.writesOf,hop]

theorem committedOps_sealTxn (s : State) :
    (sealTxn s).committedOps = s.committedOps ++ s.current := by
  simp [sealTxn,State.committedOps]

theorem home_sealTxn (h : Hist s) : home d0 (sealTxn s) = view d0 s := by
  have hw : (sealTxn s).writesOf (sealTxn s).committedOps =
      s.writesOf (s.committedOps ++ s.current) := by
    rw [committedOps_sealTxn]
    rfl
  rw [home,hw,h.writesOf_seal,replay_append]
  rfl

theorem view_of_current_nil (h : s.current = []) :
    view d0 s = home d0 s := by
  have hnil : s.writesOf s.current = [] := by
    rw [h,State.writesOf,filter_eq_nil_iff]
    simp
  rw [view,hnil]
  rfl

theorem split_of_current_nil (h : s.current = []) :
    ∃ old new, s.writes = old ++ new ∧
      (∀ w ∈ old, w.op ∉ s.current) ∧ ∀ w ∈ new, w.op ∈ s.current :=
  ⟨s.writes,[],by simp,by simp [h],by simp⟩

theorem Hist.of_eq (h : Hist s) (hpc : s.active ≠ [] → t.pc = .idle)
    (hfree : t.committing = false → t.pc.recovering = false → t.pc = .idle)
    (hop : t.opCount = s.opCount) (hw : t.writes = s.writes) (hc : t.current = s.current)
    (ht : t.txns = s.txns) (ha : t.active = s.active) (ho : t.outstanding = s.outstanding) :
    Hist t := by
  have hco : t.committedOps = s.committedOps := by rw [State.committedOps,ht]; rfl
  refine ⟨?_,?_,?_,?_,?_,?_,?_,hfree⟩
  · rw [hco,hc,hop]; exact h.fresh
  · rw [hco,hc]; exact h.nodup
  · rw [ha,hc]; exact h.active_current
  · rw [hw,hop]; exact h.writes_fresh
  · rw [hw,hc]; exact h.writes_split
  · rw [ho,ha]; exact h.outstanding_eq
  · rw [ha]; exact hpc

theorem Hist.sealTxn (h : Hist s) (ha : s.active = []) : Hist (sealTxn s) := by
  have hn : (Log.sealTxn s).current = [] := rfl
  have hco := committedOps_sealTxn s
  refine ⟨?_,?_,?_,h.writes_fresh,split_of_current_nil hn,h.outstanding_eq,
    h.idle_of_active,h.idle_of_free⟩
  · rw [hco,hn,append_nil]; exact h.fresh
  · rw [hco,hn,append_nil]; exact h.nodup
  · have hac : (Log.sealTxn s).active = s.active := rfl
    rw [hac,ha]
    simp

theorem mem_of_lookup {l : List (ℕ × ℕ)} (h : l.lookup p = some op) : (p, op) ∈ l := by
  obtain ⟨l₁,l₂,rfl,-⟩ := lookup_eq_some_iff.mp h
  exact mem_append_right _ mem_cons_self

theorem beginOp_some (h : beginOp s p = some t) :
    s.pc.recovering = false ∧ s.committing = false ∧
      s.lh.length + (s.outstanding+1) * MAXOPBLOCKS ≤ LOGSIZE ∧
      t = { s with
        outstanding := s.outstanding+1
        active := (p, s.opCount) :: s.active
        opCount := s.opCount+1
        current := s.opCount :: s.current } := by
  rw [beginOp] at h
  split at h
  · cases h
  next hp =>
  split at h
  · cases h
  next hc =>
  split at h
  · cases h
  next hroom =>
  cases h
  rw [not_or,Bool.not_eq_true] at hp
  exact ⟨hp.1,by simpa using hc,by omega,rfl⟩

theorem logWrite_some (h : logWrite L s p b d = some t) :
    ∃ op, (p, op) ∈ s.active ∧ ¬(L.Mem b ∨ 2 ^ 32 ≤ b) ∧
      s.lh.length < LOGSIZE ∧ s.lh.length < L.size-1 ∧
      t = { s with
        buf := update s.buf b d
        lh := absorb s.lh b
        writes := s.writes ++ [⟨op, b, d⟩] } := by
  rw [logWrite] at h
  split at h
  · cases h
  next op hop =>
  split at h
  · cases h
  next hout =>
  split at h
  · cases h
  next hroom =>
  split at h
  · cases h
  cases h
  rw [not_or] at hroom
  exact ⟨op,mem_of_lookup hop,hout,by omega,by omega,rfl⟩

theorem endOp_some (h : endOp s p = some t) :
    ∃ op, (p, op) ∈ s.active ∧ ((s.outstanding-1 ≠ 0 ∧
        t = { s with outstanding := s.outstanding-1, active := s.active.erase (p, op) }) ∨
      (s.outstanding-1 = 0 ∧ 0 < s.lh.length ∧
        t = { s with
          outstanding := s.outstanding-1
          active := s.active.erase (p, op)
          committing := true
          pc := .writeLog 0 }) ∨
      (s.outstanding-1 = 0 ∧ s.lh = [] ∧
        t = sealTxn { s with
          outstanding := s.outstanding-1
          active := s.active.erase (p, op)
          committing := true
          pc := .endCommit })) := by
  rw [endOp] at h
  split at h
  · cases h
  next op hop =>
  split at h
  · cases h
  refine ⟨op,mem_of_lookup hop,?_⟩
  dsimp only at h
  split at h
  · next hz =>
    split at h
    · next hl =>
      cases h
      exact .inr (.inl ⟨hz,hl,rfl⟩)
    · next hl =>
      cases h
      exact .inr (.inr ⟨hz,eq_nil_of_length_eq_zero (by omega),rfl⟩)
  · next hz =>
    cases h
    exact .inl ⟨hz,rfl⟩

theorem Hist.beginOp (h : Hist s) (hs : beginOp s p = some t) : Hist t := by
  obtain ⟨hrec,hcom,-,rfl⟩ := beginOp_some hs
  have hpc := h.idle_of_free hcom hrec
  refine ⟨?_,?_,?_,fun w hw => Nat.lt_succ_of_lt (h.writes_fresh w hw),?_,?_,fun _ => hpc,
    h.idle_of_free⟩
  · intro op hop
    simp only [mem_append,mem_cons] at hop
    rcases hop with hop | rfl | hop
    · exact Nat.lt_succ_of_lt (h.fresh op (mem_append_left _ hop))
    · exact Nat.lt_succ_self _
    · exact Nat.lt_succ_of_lt (h.fresh op (mem_append_right _ hop))
  · show (s.committedOps ++ s.opCount :: s.current).Nodup
    rw [nodup_middle,nodup_cons]
    exact ⟨fun hm => Nat.lt_irrefl _ (h.fresh _ hm),h.nodup⟩
  · intro a ha
    rcases List.mem_cons.mp ha with rfl | ha
    · exact mem_cons_self
    · exact mem_cons_of_mem _ (h.active_current a ha)
  · obtain ⟨old,new,hw,hold,hnew⟩ := h.writes_split
    refine ⟨old,new,hw,?_,fun w hm => mem_cons_of_mem _ (hnew w hm)⟩
    intro w hm hin
    rcases List.mem_cons.mp hin with he | hin
    · have := h.writes_fresh w (by rw [hw]; exact mem_append_left _ hm)
      omega
    · exact hold w hm hin
  · show s.outstanding + 1 = s.active.length+1
    rw [h.outstanding_eq]

theorem Hist.logWrite (h : Hist s) (hs : logWrite L s p b d = some t) : Hist t := by
  obtain ⟨op,hact,-,-,-,rfl⟩ := logWrite_some hs
  have hcur : op ∈ s.current := h.active_current _ hact
  refine ⟨h.fresh,h.nodup,h.active_current,?_,?_,h.outstanding_eq,h.idle_of_active,h.idle_of_free⟩
  · intro w hw
    rcases List.mem_append.mp hw with hw | hw
    · exact h.writes_fresh w hw
    · rw [List.mem_singleton.mp hw]
      exact h.fresh op (mem_append_right _ hcur)
  · obtain ⟨old,new,hw,hold,hn⟩ := h.writes_split
    refine ⟨old,new ++ [⟨op,b,d⟩],by simp [hw],hold,?_⟩
    intro w hm
    rcases List.mem_append.mp hm with hm | hm
    · exact hn w hm
    · rw [List.mem_singleton.mp hm]
      exact hcur

theorem Hist.leave (h : Hist s) (hact : (p, op) ∈ s.active) {c : Bool} {pc : Pc}
    (hpc : s.outstanding - 1 ≠ 0 → pc = .idle)
    (hfree : c = false → pc.recovering = false → pc = .idle) :
    Hist { s with
      outstanding := s.outstanding-1
      active := s.active.erase (p, op)
      committing := c
      pc := pc } := by
  have hlen : s.outstanding - 1 = (s.active.erase (p, op)).length := by
    rw [length_erase_of_mem hact,h.outstanding_eq]
  refine ⟨h.fresh,h.nodup,fun a ha => h.active_current a (mem_of_mem_erase ha),h.writes_fresh,
    h.writes_split,hlen,fun hne => hpc fun hz => hne ?_,hfree⟩
  exact eq_nil_of_length_eq_zero (hlen.symm.trans hz)

theorem Hist.last (h : Hist s) (hact : (p, op) ∈ s.active) (hz : s.outstanding - 1 = 0) :
    s.active.erase (p, op) = [] := by
  refine eq_nil_of_length_eq_zero ?_
  rw [length_erase_of_mem hact,← h.outstanding_eq,hz]

theorem Hist.endOp (h : Hist s) (hs : endOp s p = some t) : Hist t := by
  obtain ⟨op,hact,⟨-,rfl⟩ | ⟨hz,-,rfl⟩ | ⟨hz,-,rfl⟩⟩ := endOp_some hs
  · exact h.leave hact (fun _ => h.idle_of_active (ne_nil_of_mem hact)) h.idle_of_free
  · exact h.leave hact (absurd hz) fun hf => by cases hf
  · exact (h.leave hact (absurd hz) fun hf => by cases hf).sealTxn (h.last hact hz)

/-- Nobody is inside an operation while the thread commits or recovers. -/
theorem Hist.active_nil (h : Hist s) (hpc : s.pc ≠ .idle) : s.active = [] := by
  by_contra hne
  exact hpc (h.idle_of_active hne)

theorem Hist.tick (h : Hist s) (hs : tick L s = some t) : Hist t := by
  -- all but one of the thread's actions leave the history alone
  have hgo : ∀ {t : State}, s.pc ≠ .idle → (t.pc = .idle ∨
      t.committing = s.committing ∧ t.pc.recovering = s.pc.recovering) →
      t.opCount = s.opCount → t.writes = s.writes → t.current = s.current → t.txns = s.txns →
      t.active = s.active → t.outstanding = s.outstanding → Hist t := by
    intro t hpc hstay
    refine h.of_eq (fun hne => absurd (h.active_nil hpc) hne) fun hc hr => ?_
    rcases hstay with hi | ⟨he,her⟩
    · exact hi
    · exact absurd (h.idle_of_free (he ▸ hc) (her ▸ hr)) hpc
  have hact := h.active_nil
  obtain ⟨c,s,rfl⟩ : ∃ c u, s = { u with pc := c } := ⟨s.pc,s,rfl⟩
  cases c with
  | idle => cases hs
  | writeHead =>
    cases hs
    refine Hist.sealTxn ?_ (hact (by simp))
    exact hgo (by simp) (.inr ⟨rfl,rfl⟩) rfl rfl rfl rfl rfl rfl
  | eraseHead | readHead =>
    cases hs
    exact hgo (by simp) (.inr ⟨rfl,rfl⟩) rfl rfl rfl rfl rfl rfl
  | endCommit | recoverErase =>
    cases hs
    exact hgo (by simp) (.inl rfl) rfl rfl rfl rfl rfl rfl
  | writeLog i | installTrans i | recoverTrans i =>
    simp only [Log.tick] at hs
    split at hs
    · cases hs
      exact hgo (by simp) (.inr ⟨rfl,rfl⟩) rfl rfl rfl rfl rfl rfl
    · cases hs
      exact hgo (by simp) (.inr ⟨rfl,rfl⟩) rfl rfl rfl rfl rfl rfl

theorem Hist.crash (h : Hist s) : Hist (crash s) := by
  refine ⟨?_,?_,?_,h.writes_fresh,split_of_current_nil rfl,rfl,
    fun hne => absurd rfl hne,fun _ hf => by cases hf⟩
  · intro op hop
    exact h.fresh op (mem_append_left _ (by simpa [Log.crash,State.committedOps] using hop))
  · have := (List.nodup_append.mp h.nodup).1
    simpa [Log.crash,State.committedOps] using this
  · intro a ha
    simp [Log.crash] at ha

theorem hist_boot (disk : Blocks) : Hist (boot disk) := by
  refine ⟨?_,?_,?_,?_,split_of_current_nil rfl,rfl,fun hne => absurd rfl hne,
    fun _ hf => by cases hf⟩
  all_goals simp [boot,State.committedOps]

theorem Recoverable.of_clean (hh : readHead (disk L.start) = [])
    (hc : Clean L h disk) : Recoverable L h disk := by
  refine ⟨?_,?_,fun b hb _ => hc b hb⟩
  · rw [hh]; exact L.size_pos
  · intro i hi
    rw [hh] at hi
    simp at hi

theorem Recoverable.clean (hr : Recoverable L h disk) (hh : readHead (disk L.start) = []) :
    Clean L h disk :=
  fun b hb => hr.rest b hb (by rw [hh]; simp)

theorem Recoverable.install (hr : Recoverable L h disk) {b : ℕ}
    (hb : ¬L.Mem b) : Recoverable L h (update disk b (h b)) := by
  have hs : L.start ≠ b := fun e => hb (e ▸ L.mem_start)
  have hhead : update disk b (h b) L.start = disk L.start := update_of_ne hs _ _
  refine ⟨?_,?_,?_⟩
  · rw [hhead]; exact hr.fits
  · rw [hhead]
    intro i hi
    have hfit := hr.fits
    have hne : L.start + i + 1 ≠ b := fun e => hb (e ▸ L.mem_logBlock (by omega))
    rw [update_of_ne hne]
    exact hr.logged i hi
  · rw [hhead]
    intro x hx hxn
    by_cases hxb : x = b
    · subst hxb; rw [update_self]
    · rw [update_of_ne hxb]; exact hr.rest x hx hxn

theorem Clean.update_log (hc : Clean L h disk) {b : ℕ}
    (hb : L.Mem b) (v : Block BSIZE) : Clean L h (update disk b v) := by
  intro x hx
  have hne : x ≠ b := fun e => hx (e ▸ hb)
  rw [update_of_ne hne]
  exact hc x hx

theorem Recoverable.of_head {lh : List ℕ} (hb : Block BSIZE)
    (hlog : lh.length ≤ LOGSIZE) (hfits : lh.length < L.size)
    (hok : ∀ b ∈ lh, ¬L.Mem b ∧ b < 2 ^ 32)
    (hlogged : ∀ i, i < lh.length → disk (L.start + i + 1) = h (lh.getD i 0))
    (hrest : ∀ b, ¬L.Mem b → b ∉ lh → disk b = h b) :
    Recoverable L h (update disk L.start (headBlock hb lh)) := by
  have hhead : readHead (update disk L.start (headBlock hb lh) L.start) = lh := by
    rw [update_self]
    exact readHead_headBlock hb hlog fun b hm => (hok b hm).2
  refine ⟨?_,?_,?_⟩
  · rw [hhead]; exact hfits
  · rw [hhead]
    intro i hi
    have hm : lh.getD i 0 ∈ lh := by
      rw [getD_eq_getElem _ _ hi]
      exact getElem_mem hi
    rw [update_of_ne (by omega)]
    exact ⟨(hok _ hm).1,hlogged i hi⟩
  · rw [hhead]
    intro b hnb hbn
    have hne : b ≠ L.start := fun e => hnb (e ▸ L.mem_start)
    rw [update_of_ne hne]
    exact hrest b hnb hbn

end Xv6Container.Log
