import Xv6Container.Log.Atomicity

/-!
# Room in the log

`begin_op` reserves 10 blocks for every operation. `log_write` wants one block more: the header
takes one of the `LOGSIZE` blocks, and the check comes before the search for the block.
-/

namespace Xv6Container.Log

open Run List

def State.blocksOf (s : State) (op : ℕ) : Finset ℕ :=
  ((s.writes.filter fun w => w.op = op).map Write.blockno).toFinset

/-- The blocks that the operations of the transaction in progress have logged. -/
def State.txnBlocks (s : State) : Finset ℕ :=
  ((s.writesOf s.current).map Write.blockno).toFinset

/-- No operation has logged more than `MAXOPBLOCKS` blocks. -/
def Modest (s : State) : Prop := ∀ w ∈ s.writes, (s.blocksOf w.op).card ≤ MAXOPBLOCKS

instance (s : State) : Decidable (Modest s) := by unfold Modest; infer_instance

variable {L : Area} {s t : State} {p op b : ℕ} {d : Block BSIZE}

theorem absorb_of_mem {l : List ℕ} (h : b ∈ l) : absorb l b = l := by
  induction l with
  | nil => exact absurd h not_mem_nil
  | cons x xs ih =>
    rw [absorb]
    split
    · rfl
    · next hx =>
      rw [ih (mem_of_ne_of_mem (Ne.symm hx) h)]

theorem absorb_of_notMem {l : List ℕ} (h : b ∉ l) : absorb l b = l ++ [b] := by
  induction l with
  | nil => rfl
  | cons x xs ih =>
    rw [mem_cons,not_or] at h
    rw [absorb,if_neg (Ne.symm h.1),ih h.2,cons_append]

theorem nodup_absorb {l : List ℕ} (h : l.Nodup) : (absorb l b).Nodup := by
  by_cases hb : b ∈ l
  · rw [absorb_of_mem hb]
    exact h
  · rw [absorb_of_notMem hb]
    refine List.nodup_append.mpr ⟨h,nodup_singleton b,fun x hx y hy hxy => hb ?_⟩
    rw [← List.mem_singleton.mp hy,← hxy]
    exact hx

theorem toFinset_absorb (l : List ℕ) (b : ℕ) : (absorb l b).toFinset = insert b l.toFinset := by
  ext x
  rw [mem_toFinset,mem_absorb,Finset.mem_insert,mem_toFinset,or_comm]

/-- The transaction in progress is over, and its blocks are out of the log. -/
def Pc.erased : Pc → Bool
  | eraseHead | endCommit | recoverErase => true
  | _ => false

/-- Between transactions there is none in progress. -/
def Pc.between : Pc → Bool
  | idle | writeLog _ | writeHead => false
  | _ => true

/-- What the log holds: as long as operations can run, each block that they have logged, once. -/
structure Books (L : Area) (s : State) : Prop where
  hist : Hist s
  logged : s.pc = .idle → s.lh.Nodup ∧ s.lh.toFinset = s.txnBlocks
  between : s.pc.between = true → s.current = []
  erased : s.pc.erased = true → s.lh = []
  fits : s.pc.recovering = false → s.lh.length < L.size

theorem books_boot (L : Area) (disk : Blocks) : Books L (boot disk) where
  hist := hist_boot disk
  logged := fun h => by cases h
  between := fun _ => rfl
  erased := fun h => by cases h
  fits := fun h => by cases h

theorem Books.beginOp (h : Books L s) (hs : beginOp s p = some t) : Books L t := by
  have hist := h.hist.beginOp hs
  obtain ⟨hrec,hcom,-,rfl⟩ := beginOp_some hs
  have hpc : s.pc = .idle := h.hist.idle_of_free hcom hrec
  refine ⟨hist,fun _ => ?_,?_,?_,h.fits⟩
  · obtain ⟨hnodup,hset⟩ := h.logged hpc
    refine ⟨hnodup,hset.trans ?_⟩
    show s.txnBlocks = ((s.writesOf (s.opCount :: s.current)).map Write.blockno).toFinset
    rw [h.hist.writesOf_cons]
    rfl
  · intro hb
    rw [hpc] at hb
    cases hb
  · intro hb
    rw [hpc] at hb
    cases hb

theorem Books.logWrite (h : Books L s) (hs : logWrite L s p b d = some t) : Books L t := by
  have hist := h.hist.logWrite hs
  obtain ⟨op,hact,-,-,hroom,ht⟩ := logWrite_some hs
  have hpc := h.hist.idle_of_active (ne_nil_of_mem hact)
  have hnew : t.writesOf t.current = s.writesOf s.current ++ [⟨op,b,d⟩] :=
    Hist.writesOf_append (by rw [ht]) (by rw [ht]) (h.hist.active_current _ hact)
  obtain ⟨hnodup,hset⟩ := h.logged hpc
  refine ⟨hist,fun _ => ⟨by rw [ht]; exact nodup_absorb hnodup,?_⟩,?_,?_,fun _ => ?_⟩
  · rw [State.txnBlocks,hnew,map_append,toFinset_append,Finset.union_comm,ht]
    exact (toFinset_absorb s.lh b).trans (by rw [hset]; rfl)
  · rw [ht]
    exact h.between
  · intro hb
    rw [ht,hpc] at hb
    cases hb
  · have hlen := length_absorb_le s.lh b
    rw [ht]
    change (absorb s.lh b).length < L.size
    omega

theorem Books.endOp (h : Books L s) (hs : endOp s p = some t) : Books L t := by
  have hist := h.hist.endOp hs
  obtain ⟨op,hact,hcases⟩ := endOp_some hs
  have hpc := h.hist.idle_of_active (ne_nil_of_mem hact)
  have hfits := h.fits (by rw [hpc]; rfl)
  obtain ⟨-,rfl⟩ | ⟨-,-,rfl⟩ | ⟨-,hlh,rfl⟩ := hcases
  · exact ⟨hist,h.logged,h.between,h.erased,fun _ => hfits⟩
  · exact ⟨hist,fun hc => (by cases hc),fun hc => (by cases hc),fun hc => (by cases hc),
      fun _ => hfits⟩
  · exact ⟨hist,fun hc => (by cases hc),fun _ => rfl,fun _ => hlh,fun _ => hfits⟩

theorem Books.rest (hist : Hist t) (hbetween : t.pc.between = true ∨ t.pc = .idle → t.current = [])
    (herased : t.pc.erased = true ∨ t.pc = .idle → t.lh = [])
    (hfits : t.pc.recovering = false → t.lh.length < L.size) : Books L t := by
  refine ⟨hist,fun hpc => ?_,fun hb => hbetween (.inl hb),fun hb => herased (.inl hb),hfits⟩
  rw [herased (.inr hpc),State.txnBlocks,State.writesOf,hbetween (.inr hpc)]
  simp

theorem Books.tick (h : Books L s) (hs : Log.tick L s = some t) : Books L t := by
  have hist := h.hist.tick hs
  obtain ⟨c,s,rfl⟩ : ∃ c u, s = { u with pc := c } := ⟨s.pc,s,rfl⟩
  cases c with
  | idle => cases hs
  | writeLog i =>
    have hfits := h.fits rfl
    simp only [Log.tick] at hs
    split at hs
    · cases hs
      exact .rest hist (by simp [Pc.between]) (by simp [Pc.erased]) fun _ => hfits
    · cases hs
      exact .rest hist (by simp [Pc.between]) (by simp [Pc.erased]) fun _ => hfits
  | writeHead =>
    cases hs
    exact .rest hist (fun _ => rfl) (by simp [sealTxn,Pc.erased]) fun _ => h.fits rfl
  | installTrans i =>
    have hfits := h.fits rfl
    have hcur := h.between rfl
    simp only [Log.tick] at hs
    split at hs
    · cases hs
      exact .rest hist (fun _ => hcur) (by simp [Pc.erased]) fun _ => hfits
    · cases hs
      exact .rest hist (fun _ => hcur) (fun _ => rfl) fun _ => L.size_pos
  | eraseHead | endCommit =>
    cases hs
    exact .rest hist (fun _ => h.between rfl) (fun _ => h.erased rfl) fun _ => h.fits rfl
  | readHead =>
    cases hs
    exact .rest hist (fun _ => h.between rfl) (by simp [Pc.erased]) fun hc => (by cases hc)
  | recoverTrans i =>
    have hcur := h.between rfl
    simp only [Log.tick] at hs
    split at hs
    · cases hs
      exact .rest hist (fun _ => hcur) (by simp [Pc.erased]) fun hc => (by cases hc)
    · cases hs
      exact .rest hist (fun _ => hcur) (fun _ => rfl) fun hc => (by cases hc)
  | recoverErase =>
    have hlh := h.erased rfl
    cases hs
    refine .rest hist (fun _ => h.between rfl) (fun _ => hlh) fun _ => ?_
    change s.lh.length < L.size
    rw [show s.lh = [] from hlh]
    exact L.size_pos

theorem Books.crash (h : Books L s) : Books L (crash s) where
  hist := h.hist.crash
  logged := fun hc => by cases hc
  between := fun _ => rfl
  erased := fun hc => by cases hc
  fits := fun hc => by cases hc

theorem Books.step {a : Act} (h : Books L s) (hs : step L s a = some t) : Books L t := by
  cases a with
  | beginOp p => exact h.beginOp hs
  | logWrite p b d => exact h.logWrite hs
  | endOp p => exact h.endOp hs
  | tick => exact h.tick hs
  | crash => cases hs; exact h.crash

theorem books_of_run {acts : List Act} {disk : Blocks}
    (hrun : exec (step L) (boot disk) acts = some t) : Books L t :=
  exec_invariant (fun _ _ _ h hs => h.step hs) (books_boot L disk) hrun

theorem Books.logWrite_isSome (h : Books L s) (hp : s.active.lookup p = some op)
    (hb : ¬ L.Mem b) (hb32 : b < 2 ^ 32) :
    (Log.logWrite L s p b d).isSome = true ↔ s.txnBlocks.card < min LOGSIZE (L.size-1) := by
  have hact := mem_of_lookup hp
  obtain ⟨hnodup,hset⟩ := h.logged (h.hist.idle_of_active (ne_nil_of_mem hact))
  have hcard : s.txnBlocks.card = s.lh.length := by
    rw [← hset,toFinset_card_of_nodup hnodup]
  have hout : ¬ s.outstanding < 1 := by
    have := length_pos_of_mem hact
    rw [h.hist.outstanding_eq]
    omega
  have hblock : ¬ (L.Mem b ∨ 2 ^ 32 ≤ b) := not_or.mpr ⟨hb,by omega⟩
  rw [hcard,Log.logWrite,hp]
  simp only [if_neg hblock,if_neg hout]
  split
  · next hbig =>
    refine iff_of_false (by simp) fun hlt => ?_
    rw [lt_min_iff] at hlt
    omega
  · next hroom =>
    refine iff_of_true rfl ?_
    rw [not_or] at hroom
    rw [lt_min_iff]
    omega

/-- With the log of `LOGSIZE` blocks that `mkfs` makes, what a transaction has logged fits into it
with the header in every state; and `log_write` returns exactly if the operations of the transaction
have logged fewer than `LOGSIZE - 1` blocks so far. -/
theorem log_write_fits_iff {acts : List Act} {disk : Blocks} (hL : L.size = LOGSIZE)
    (hrun : exec (step L) (boot disk) acts = some t) :
    (t.pc.recovering = false → t.lh.length + 1 ≤ L.size) ∧
      ∀ p op b d, t.active.lookup p = some op → ¬ L.Mem b → b < 2 ^ 32 →
        ((logWrite L t p b d).isSome = true ↔ t.txnBlocks.card < LOGSIZE - 1) := by
  have h := books_of_run hrun
  refine ⟨h.fits,fun p op b d hp hb hb32 => ?_⟩
  rw [h.logWrite_isSome hp hb hb32,hL,min_eq_right (Nat.sub_le _ _)]

def mkfsArea : Area := ⟨2, LOGSIZE, by decide⟩

/-- The machine recovers from an empty log, and three operations begin. -/
def threeOps : List Act := [.tick, .tick, .tick, .beginOp 0, .beginOp 1, .beginOp 2]

/-- Process `p` logs `n` blocks from block `b` on. -/
def logBlocks (p b n : ℕ) : List Act := (List.range n).map fun i => .logWrite p (b + i) Block.zero

/-- The last of three operations is about to log its tenth block. -/
def nearlyFull : List Act :=
  threeOps ++ logBlocks 0 100 10 ++ logBlocks 1 110 10 ++ logBlocks 2 120 9

theorem log_write_fits_iff_threeOps :
    ∃ t, mkfsArea.size = LOGSIZE ∧
      exec (step mkfsArea) (boot fun _ => Block.zero) threeOps = some t ∧
      (logWrite mkfsArea t 0 100 Block.zero).isSome = true := by
  have hrun : (exec (step mkfsArea) (boot fun _ => Block.zero) threeOps).map
      (fun t => (t.active.lookup 0, t.txnBlocks.card)) = some (some 0, 0) := by decide +kernel
  obtain ⟨t,ht,heq⟩ := Option.map_eq_some_iff.mp hrun
  obtain ⟨hp,hcard⟩ := Prod.mk.inj heq
  refine ⟨t,rfl,ht,((log_write_fits_iff rfl ht).2 0 0 100 Block.zero hp (by decide)
    (by decide)).mpr ?_⟩
  rw [hcard]
  decide

/-- Three operations of ten blocks each do not fit. -/
theorem three_full_operations_panic : ¬ ∀ (L : Area) (disk : Blocks) (acts : List Act) (t : State),
    L.size = LOGSIZE → exec (step L) (boot disk) acts = some t → Modest t →
    ∀ p op b d, t.active.lookup p = some op → ¬ L.Mem b → b < 2 ^ 32 →
      (insert b (t.blocksOf op)).card ≤ MAXOPBLOCKS → (logWrite L t p b d).isSome = true := by
  intro hall
  have hrun : (exec (step mkfsArea) (boot fun _ => Block.zero) nearlyFull).map (fun t =>
      (decide (Modest t), t.active.lookup 2, (insert 129 (t.blocksOf 2)).card,
        (logWrite mkfsArea t 2 129 Block.zero).isSome)) = some (true, some 2, 10, false) := by
    decide +kernel
  obtain ⟨t,ht,heq⟩ := Option.map_eq_some_iff.mp hrun
  simp only [Prod.mk.injEq,decide_eq_true_eq] at heq
  obtain ⟨hm,hp,hcard,hno⟩ := heq
  have hyes := hall mkfsArea _ nearlyFull t rfl ht hm 2 2 129 Block.zero hp (by decide) (by decide)
    (by rw [hcard])
  rw [hno] at hyes
  cases hyes

end Xv6Container.Log
