import Xv6Container.Vm.Lifecycle

/-!
# From power-on to the first process

`kinit1` and `kinit2` give every allocatable page to the allocator; the kernel, the CPUs, the
first process and the message queues take theirs from it.
-/

namespace Xv6Container.Vm

open Prog Function Set

/-- The pages in use outside of address spaces are those of `X` and those the kernel keeps, and no
file is open. -/
structure Early (A D X : Set ℕ) (s : Sys) : Prop where
  world : World A D (X ∪ {f | f ∈ s.kept}) (fun _ => none) [] s
  nodup : s.kept.Nodup
  apart : ∀ f ∈ s.kept, f ∉ X

/-- The process table and the address spaces are left alone. -/
structure Quiet (D : Set ℕ) (s t : Sys) : Prop where
  proc : t.proc = s.proc
  kpgdir : t.kpgdir = s.kpgdir
  keep : ∀ d ∈ D, Keep s.mem t.mem d

section Boot

variable {L : Layout} {A D R X : Set ℕ} {m : Mem} {s t u : Sys} {d : ℕ} {E : Stop → Prop}

theorem Quiet.refl (D : Set ℕ) (s : Sys) : Quiet D s s := ⟨rfl,rfl,fun _ _ => .refl _ _⟩

theorem Quiet.trans (h : Quiet D s t) (h' : Quiet D t u) : Quiet D s u :=
  ⟨h'.proc.trans h.proc,h'.kpgdir.trans h.kpgdir,fun d hd => (h.keep d hd).trans (h'.keep d hd)⟩

theorem wp_freerange (hA : ∀ f ∈ A, L.kend ≤ f ∧ f < L.phystop) {f n : ℕ}
    (h : Sep A m D (R ∪ {k | f ≤ k ∧ k < f + n})) (hR : ∀ k ∈ R, ¬(f ≤ k ∧ k < f+n)) :
    wp E (freerange L f n) m fun _ m' => Sep A m' D R ∧ ∀ d ∈ D, Keep m m' d := by
  induction n generalizing f m with
  | zero =>
    have hempty : R ∪ {k | f ≤ k ∧ k < f + 0} = R := by
      ext k
      simp only [mem_union,mem_ofPred_eq]
      exact or_iff_left (by omega)
    rw [hempty] at h
    exact ⟨h,fun d _ => .refl m d⟩
  | succ n ih =>
    rw [freerange]
    refine (wp_kfree hA h (.inr ⟨le_rfl,by omega⟩)).bind ?_
    rintro - m1 ⟨h1,-,hk1⟩
    have hrest : (R ∪ {k | f ≤ k ∧ k < f + (n+1)}) \ {f} =
        R ∪ {k | f + 1 ≤ k ∧ k < f + 1 + n} := by
      ext k
      simp only [mem_sdiff,mem_union,mem_ofPred_eq,mem_singleton_iff]
      have hk : k ∈ R → k ≠ f := fun hk e => hR k hk ⟨by omega,by omega⟩
      by_cases hkR : k ∈ R
      · simp [hkR,hk hkR]
      · simp only [hkR,false_or]
        omega
    rw [hrest] at h1
    refine (ih h1 fun k hk hr => hR k hk ⟨by omega,by omega⟩).mono ?_
    rintro - m2 ⟨h2,hk2⟩
    exact ⟨h2,fun d hd => (hk1 d hd).trans (hk2 d hd)⟩

theorem Early.freerange (hA : ∀ f ∈ A, L.kend ≤ f ∧ f < L.phystop) {f n : ℕ}
    (h : Early A D (X ∪ {k | f ≤ k ∧ k < f + n}) s) (hX : ∀ k ∈ X, ¬(f ≤ k ∧ k < f+n)) :
    wp E (onMem (freerange L f n)) s fun _ t => Early A D X t ∧ Quiet D s t := by
  have hsep := h.world.sep
  have hsets : X ∪ {k | f ≤ k ∧ k < f + n} ∪ {f | f ∈ s.kept} ∪ {f | PipePage s f} =
      X ∪ {f | f ∈ s.kept} ∪ {f | PipePage s f} ∪ {k | f ≤ k ∧ k < f + n} := by
    ext k
    simp only [mem_union]
    tauto
  rw [hsets] at hsep
  rw [wp_onMem]
  refine (wp_freerange hA hsep ?_).mono ?_
  · rintro k ((hk | hk) | hk) hr
    · exact hX k hk hr
    · exact h.apart k hk (.inr hr)
    · exact h.world.apart k hk (.inl (.inr hr))
  · rintro - m ⟨hsep',hkeep⟩
    refine ⟨⟨h.world.setRam (fun k hk hB => h.world.apart k hk ?_) hsep',h.nodup,
      fun k hk hkX => h.apart k hk (.inl hkX)⟩,⟨rfl,rfl,hkeep⟩⟩
    exact hB.imp_left .inl

theorem Early.kalloc (h : Early A D X s) : wp E (onMem kalloc) s fun r t => Quiet D s t ∧
    (r = none → Early A D X t) ∧
      ∀ f, r = some f → Early A D X { t with kept := f :: t.kept } := by
  refine h.world.kalloc.mono ?_
  rintro r t ⟨hst,-,hnone,hsome⟩
  refine ⟨⟨hst.proc,hst.kpgdir,hst.keep⟩,fun hr => ⟨?_,?_,?_⟩,fun f hr => ?_⟩
  · rw [hst.kept]
    exact hnone hr
  · rw [hst.kept]
    exact h.nodup
  · rw [hst.kept]
    exact h.apart
  obtain ⟨hf,hw⟩ := hsome f hr
  refine ⟨?_,?_,?_⟩
  · have hsets : X ∪ {k | k ∈ f :: t.kept} = insert f (X ∪ {k | k ∈ s.kept}) := by
      ext k
      simp only [hst.kept,List.mem_cons,mem_union,mem_insert_iff,mem_ofPred_eq]
      tauto
    rw [hsets]
    exact hw.congr rfl rfl rfl
  · rw [hst.kept]
    exact List.nodup_cons.mpr ⟨fun hk => hf (.inr hk),h.nodup⟩
  · rw [hst.kept]
    rintro k hk
    rcases List.mem_cons.mp hk with rfl | hk
    · exact fun hX => hf (.inl hX)
    · exact h.apart k hk

theorem Quiet.keepPage {f : ℕ} (h : Quiet D s t) : Quiet D s { t with kept := f :: t.kept } :=
  ⟨h.proc,h.kpgdir,h.keep⟩

theorem Early.startothers (h : Early A D X s) (n : ℕ) :
    wp E (startothers n) s fun _ t => Early A D X t ∧ Quiet D s t := by
  induction n generalizing s with
  | zero => exact ⟨h,.refl D s⟩
  | succ n ih =>
    rw [Vm.startothers]
    refine h.kalloc.bind ?_
    rintro (_ | f) t ⟨hq,hnone,hsome⟩
    · refine (ih (hnone rfl)).mono ?_
      rintro - u ⟨hu,hq'⟩
      exact ⟨hu,hq.trans hq'⟩
    · simp only [wp_bind,wp_modify]
      refine (ih (hsome f rfl)).mono ?_
      rintro - u ⟨hu,hq'⟩
      exact ⟨hu,hq.keepPage.trans hq'⟩

theorem Early.createQueue (hE : E .wild) (h : Early A D X s) :
    wp E createQueue s fun _ t => Early A D X t ∧ Quiet D s t := by
  rw [Vm.createQueue]
  refine h.kalloc.bind ?_
  rintro (_ | mq) t ⟨hq,-,hsome⟩
  · exact hE
  · simp only [wp_bind,wp_modify]
    refine (hsome mq rfl).kalloc.mono ?_
    rintro (_ | arr) u ⟨hq',hnone',hsome'⟩
    · exact ⟨hnone' rfl,hq.keepPage.trans hq'⟩
    · exact ⟨hsome' arr rfl,(hq.keepPage.trans hq').keepPage⟩

theorem Early.initQueues (hE : E .wild) (h : Early A D X s) (n : ℕ) :
    wp E (initQueues n) s fun _ t => Early A D X t ∧ Quiet D s t := by
  induction n generalizing s with
  | zero => exact ⟨h,.refl D s⟩
  | succ n ih =>
    rw [Vm.initQueues]
    refine (h.createQueue hE).bind ?_
    rintro - t ⟨ht,hq⟩
    refine (ht.createQueue hE).bind ?_
    rintro - u ⟨hu,hq'⟩
    refine (ih hu).mono ?_
    rintro - v ⟨hv,hq''⟩
    exact ⟨hv,(hq.trans hq').trans hq''⟩

theorem wp_inituvm {r : Ram} {init : List UInt8} (hE : E .wild) (h : Sep A r.mem D R) (hd : d ∈ D)
    (hmaps : Maps r.mem d 0) : wp E (inituvm d init) r fun _ r' =>
      Sep A r'.mem D R ∧ KeepBut r.mem r'.mem D d ∧ Maps r'.mem d PGSIZE := by
  rw [inituvm,wp_bind,low,wp_zoom]
  refine (wp_kalloc h).mono ?_
  rintro (_ | f) m1 ⟨htab,-,hsome⟩
  · exact hE
  obtain ⟨hfR,h1⟩ := hsome f rfl
  have hf : f ∈ insert f R := mem_insert _ _
  have hk : ∀ d' ∈ D, Keep r.mem (m1.wipe f .zero) d' := fun d' hd' =>
    (keep_of_tab_eq htab d').trans (keep_of_onlyAt (h1.rest_ne_spot hf hd') (onlyAt_wipe m1 f .zero))
  have h2 : Sep A (m1.wipe f .zero) D (insert f R) := h1.frame rfl fun d' hd' =>
    keep_of_onlyAt (h1.rest_ne_spot hf hd') (onlyAt_wipe m1 f .zero)
  have hnone : ∀ a, a < KERNPAGE → (entry (m1.wipe f .zero) d a).present = false := fun a ha => by
    rw [(hk d hd).entry,← Bool.not_eq_true,hmaps a ha,pgup_zero]
    omega
  simp only [wp_bind,clear,wp_modify,low,wp_zoom]
  refine (wp_mappages_user h2 hd (by decide) (hnone 0 (by decide)) hf).mono ?_
  rintro ok m3 ⟨hbut,-,-,hok,-⟩
  refine wp_ite (fun hyes => ?_) fun _ => hE
  obtain ⟨h3,hentry⟩ := hok hyes
  rw [insert_sdiff_self_of_notMem hfR] at h3
  refine ⟨h3,fun d' hd' hne => (hk d' hd').trans (hbut d' hd' hne),fun a ha => ?_⟩
  have hup : pgup PGSIZE = 1 := by decide
  change (entry m3 d a).present = true ↔ _
  rw [hentry,hup]
  by_cases ha0 : a = 0
  · simp [ha0]
  · rw [if_neg ha0,hnone a ha]
    simp [ha0]

theorem Early.userinit (hA : ∀ f ∈ A, L.kend ≤ f ∧ f < L.phystop) (hE : ∀ e, E e)
    {init : List UInt8} (h : Early A D ∅ s) : wp E (userinit L init) s fun _ t => ∃ k d, d ∉ D ∧
      Early A (insert d D) {k} t ∧ t.kpgdir = s.kpgdir ∧ Maps t.mem d PGSIZE ∧
      (∀ d' ∈ D, Keep s.mem t.mem d') ∧
      t.proc = update s.proc initproc { s.proc initproc with
        state := .RUNNABLE, kstack := some k, pgdir := some d, sz := PGSIZE } := by
  rw [Vm.userinit]
  refine h.world.kalloc.bind ?_
  rintro (_ | k) s₁ ⟨hst,-,-,hsome⟩
  · exact hE _
  obtain ⟨hk,hw1⟩ := hsome k rfl
  simp only [wp_onMem,wp_bind]
  refine (wp_setupkvm hA hw1.sep).mono ?_
  rintro (_ | d) m2 ⟨hk2,-,hsome2,-⟩
  · exact hE _
  obtain ⟨hd,hsep2,hmaps2,-⟩ := hsome2 d rfl
  simp only [setProc,wp_bind,wp_onRam,wp_modify]
  refine (wp_inituvm (hE _) hsep2 (mem_insert _ _) hmaps2).mono ?_
  rintro - m3 ⟨hsep3,hk3,hmaps3⟩
  have hkept : k ∉ s.kept := fun hmem => hk (.inr hmem)
  refine ⟨k,d,hd,⟨?_,?_,?_⟩,hst.kpgdir,hmaps3,fun d' hd' => ?_,by rw [hst.proc]⟩
  · have hsets : ({k} ∪ {f | f ∈ s₁.kept} : Set ℕ) = insert k (∅ ∪ {f | f ∈ s.kept}) := by
      rw [hst.kept,empty_union,singleton_union]
    rw [hsets]
    exact (hw1.setRam hw1.apart hsep3).congr rfl rfl rfl
  · rw [hst.kept]
    exact h.nodup
  · rw [hst.kept]
    rintro f hf rfl
    exact hkept hf
  · refine ((hst.keep d' hd').trans (hk2 d' hd')).trans (hk3 d' (.inr hd') ?_)
    rintro rfl
    exact hd hd'

theorem Early.inv {k d0 d : ℕ} (h : Early (frames L) {d, d0} {k} s) (hd : d ≠ d0)
    (hker : s.kpgdir = d0) (hmaps : Maps s.mem d PGSIZE) (hnone : Maps s.mem d0 0)
    (hproc : s.proc = update (fun _ => ⟨⟨.UNUSED, none⟩, none, none, 0, fun _ => none⟩)
      initproc ⟨⟨.RUNNABLE, none⟩, some k, some d, PGSIZE, fun _ => none⟩) : Inv L [] s := by
  have hself : s.proc initproc = ⟨⟨.RUNNABLE,none⟩,some k,some d,PGSIZE,fun _ => none⟩ := by
    rw [hproc,update_self]
  have hother : ∀ p, p ≠ initproc → s.proc p = ⟨⟨.UNUSED,none⟩,none,none,0,fun _ => none⟩ :=
    fun p hp => by rw [hproc,update_of_ne hp]
  have honly : ∀ p, (s.proc p).state ≠ .UNUSED → p = initproc := fun p hp => by
    by_contra hne
    exact hp (by rw [hother p hne])
  have hstack : ∀ p f, (s.proc p).kstack = some f ↔ p = initproc ∧ f = k := by
    intro p f
    by_cases e : p = initproc
    · simp [e,hself,eq_comm]
    · simp [e,hother p e]
  have hdirs : dirs s = {d, d0} := by
    ext d'
    simp only [dirs,hker,mem_ofPred_eq,mem_insert_iff,mem_singleton_iff]
    constructor
    · rintro (rfl | ⟨p,hp,hpd⟩)
      · exact .inr rfl
      · rw [honly p hp,hself] at hpd
        exact .inl (Option.some.inj hpd).symm
    · rintro (rfl | rfl)
      · exact .inr ⟨initproc,by rw [hself]; simp,by rw [hself]⟩
      · exact .inl rfl
  have hbase : base s = {k} ∪ {f | f ∈ s.kept} := by
    ext f
    simp only [base,hstack,mem_ofPred_eq,mem_union,mem_singleton_iff]
    constructor
    · rintro (hf | ⟨-,-,rfl⟩)
      · exact .inr hf
      · exact .inl rfl
    · rintro (rfl | hf)
      · exact .inr ⟨initproc,rfl,rfl⟩
      · exact .inl hf
  have hptrs : ptrs s = fun _ => none := by
    funext x
    by_cases e : x.1 = initproc
    · simp only [ptrs,e,hself]
    · simp only [ptrs,hother x.1 e]
  refine ⟨by rw [hdirs,hbase,hptrs]; exact h.world,⟨h.nodup,fun p f hf hmem => ?_,
    fun p q f hp hq => ?_,fun p hp e => ?_,fun p q _ hp hq _ _ => ?_,fun p hp => ?_,
    fun p hp => ?_,fun p fd _ => ?_,fun p q hq => ?_,by rw [hself],hker ▸ hnone⟩⟩
  · exact h.apart f hmem ((hstack p f).mp hf).2
  · rw [((hstack p f).mp hp).1,((hstack q f).mp hq).1]
  · rw [honly p hp,hself,hker] at e
    exact hd (Option.some.inj e)
  · rw [honly p hp,honly q hq]
  · rw [honly p hp,hself]
    have hsz : PGSIZE ≤ KERNBASE := by decide
    exact ⟨⟨k,rfl⟩,d,rfl,hsz,hmaps⟩
  · have hne : p ≠ initproc := by
      rintro rfl
      rw [hself] at hp
      cases hp
    rw [hother p hne]
  · exact congrFun hptrs (p, fd)
  · by_cases e : p = initproc
    · rw [e,hself] at hq
      cases hq
    · rw [hother p e] at hq
      cases hq

theorem early_powerOn (L : Layout) (tab : ℕ → ℕ → Pte) (data : ℕ → Block PGSIZE) (ends : ℕ → Ends) :
    Early (frames L) ∅ (frames L) (powerOn tab data ends) := by
  have hpipe : ∀ f, ¬PipePage (powerOn tab data ends) f := by
    rintro f ⟨i,hi⟩
    cases hi
  have hR : frames L ∪ {f | f ∈ (powerOn tab data ends).kept} ∪ {f | PipePage (powerOn tab data ends) f} =
      frames L := by
    ext f
    have hkept : f ∉ (powerOn tab data ends).kept := by simp [powerOn]
    simp [hpipe,hkept]
  refine ⟨⟨?_,fun f hf => absurd hf (hpipe f),fun i => ?_,fun i _ => rfl,
    (fun i j f hi => by cases hi),fun f w hf => absurd hf (hpipe f)⟩,List.nodup_nil,
    fun f hf => by cases hf⟩
  · rw [hR]
    refine ⟨List.nodup_nil,fun f hf => ⟨.rest,hf⟩,fun l f hl => ?_,fun l l' f hl hl' => ?_⟩
    · cases l with
      | free => cases hl
      | rest => exact hl
      | spot d x => exact absurd hl.1 (notMem_empty d)
    cases l with
    | free => cases hl
    | rest =>
      cases l' with
      | free => cases hl'
      | rest => rfl
      | spot d x => exact absurd hl'.1 (notMem_empty d)
    | spot d x => exact absurd hl.1 (notMem_empty d)
  · have hzero : ¬0 < tally (fun _ : PSlot × Fin NOFILE => (none : Option FSlot)) i := by
      rw [tally_pos]
      rintro ⟨x,hx⟩
      cases hx
    simp only [powerOn,List.count_nil]
    omega

theorem inv_of_boot {ncpu : ℕ} {init : List UInt8} {tab : ℕ → ℕ → Pte} {data : ℕ → Block PGSIZE}
    {ends : ℕ → Ends}
    (hb : boot L ncpu init (powerOn tab data ends) = .ok ((), s)) : Inv L [] s := by
  suffices hwp : wp (fun _ => True) (boot L ncpu init) (powerOn tab data ends)
      fun _ t => Inv L [] t from
    hwp.of_ok hb
  have hle := L.kend_le
  have hle' := L.early_le
  have hsplit : frames L = {k | L.early ≤ k ∧ k < L.early + (L.phystop-L.early)} ∪
      {k | L.kend ≤ k ∧ k < L.kend + (L.early-L.kend)} := by
    ext k
    simp only [frames,mem_union,mem_ofPred_eq]
    omega
  have h0 := early_powerOn L tab data ends
  nth_rewrite 2 [hsplit] at h0
  rw [boot]
  refine (h0.freerange frames_range ?_).bind ?_
  · rintro k ⟨hk,-⟩
    omega
  rintro - s₁ ⟨h1,hq1⟩
  simp only [wp_bind]
  rw [wp_onMem]
  refine (wp_setupkvm frames_range h1.world.sep).mono ?_
  rintro (_ | d0) m2 ⟨-,-,hsome2,-⟩
  · trivial
  obtain ⟨-,hsep2,hnone2,-⟩ := hsome2 d0 rfl
  simp only [wp_bind,wp_modify]
  have h2 : Early (frames L) {d0} {k | L.early ≤ k ∧ k < L.early + (L.phystop-L.early)}
      { s₁ with ram := ⟨m2,s₁.ram.data⟩, kpgdir := d0 } := by
    refine ⟨?_,h1.nodup,h1.apart⟩
    rw [← insert_empty_eq]
    exact (h1.world.setRam h1.world.apart hsep2).congr rfl rfl rfl
  refine (h2.startothers ncpu).mono ?_
  rintro - s3 ⟨h3,hq3⟩
  rw [← empty_union {k | L.early ≤ k ∧ _}] at h3
  refine (h3.freerange frames_range fun k hk => absurd hk (notMem_empty k)).mono ?_
  rintro - s4 ⟨h4,hq4⟩
  refine (h4.userinit frames_range fun _ => trivial).mono ?_
  rintro - s5 ⟨k,d,hd,h5,hker5,hmaps5,hk5,hproc5⟩
  refine (h5.initQueues trivial NPROC).mono ?_
  rintro - t ⟨ht,hq⟩
  have hproc4 : s4.proc = fun _ => ⟨⟨.UNUSED,none⟩,none,none,0,fun _ => none⟩ := by
    rw [hq4.proc,hq3.proc]
    exact hq1.proc
  have hkeep0 : Keep m2 t.mem d0 := ((hq3.keep d0 rfl).trans (hq4.keep d0 rfl)).trans
    ((hk5 d0 rfl).trans (hq.keep d0 (.inr rfl)))
  refine ht.inv (fun e => hd (by rw [e]; rfl)) ?_ (fun a ha => ?_) (fun a ha => ?_) ?_
  · rw [hq.kpgdir,hker5,hq4.kpgdir,hq3.kpgdir]
  · rw [(hq.keep d (mem_insert _ _)).entry]
    exact hmaps5 a ha
  · rw [hkeep0.entry]
    exact hnone2 a ha
  · rw [hq.proc,hproc5,hproc4]

end Boot

end Xv6Container.Vm
