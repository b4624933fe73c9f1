import Xv6Container.Vm.Ownership

/-! # Processes come and go -/

namespace Xv6Container.Vm

open Function Prog Set

section Lifecycle

variable {L : Layout} {s t u : Sys} {p q : PSlot} {d : ℕ} {E : Stop → Prop}

theorem Inv.closeFd {fd : Fin NOFILE} {i : FSlot} (h : Inv L [] s)
    (hp : (s.proc p).state = .RUNNABLE) (hi : (s.proc p).ofile fd = some i) :
    wp E (do Vm.fileclose L i; setOfile p fd none) s fun _ t =>
      Inv L [] t ∧ Aside {p} s t ∧ t.proc = (Vm.setFd s p fd none).proc := by
  -- the pointer is still in the table while its reference is given up
  refine (wp_fileclose frames_range (h.world.release (x := (p, fd)) hi)).bind ?_
  rintro - t ⟨hw,hst,hf⟩
  have hpt : (t.proc p).state = .RUNNABLE := by rw [hst.proc,hp]
  have hat : Aside {p} s t := .of_still hst hf fun q hq fd' =>
    update_of_ne (fun e => hq (Prod.mk.inj e).1) _ _
  simp only [setOfile,setProc,wp_modify]
  refine ⟨.setFd (h.slots.still hst) hpt ?_,hat.trans (setFd_aside t p fd none),?_⟩
  · rw [dirs_still hst,base_still hst,ptrs_still hst]
    exact hw
  · simp only [Vm.setFd,hst.proc]

theorem Inv.closeFiles (h : Inv L [] s) (hp : (s.proc p).state = .RUNNABLE) :
    wp E (closeFiles L p (List.finRange NOFILE)) s fun _ t => Inv L [] t ∧ Aside {p} s t ∧
      (t.proc p).state = .RUNNABLE ∧ ∀ fd, (t.proc p).ofile fd = none := by
  rw [Vm.closeFiles]
  refine (wp_forM (fun l t => Inv L [] t ∧ Aside {p} s t ∧ (t.proc p).state = .RUNNABLE ∧
    ∀ fd, fd ∉ l → (t.proc p).ofile fd = none) ?_ _
    ⟨h,.refl _ s,hp,fun fd hfd => absurd (List.mem_finRange fd) hfd⟩).mono ?_
  · rintro fd l t ⟨ht,ha,hpt,hdone⟩
    rw [wp_bind,wp_read]
    cases hi : (t.proc p).ofile fd with
    | none =>
      refine ⟨ht,ha,hpt,fun fd' hfd' => ?_⟩
      by_cases e : fd' = fd
      · rw [e,hi]
      · exact hdone fd' (by simp [e,hfd'])
    | some i =>
      refine (ht.closeFd hpt hi).mono ?_
      rintro - u ⟨hu,ha',hproc⟩
      rw [hproc,setFd_self]
      refine ⟨hu,ha.trans ha',hpt,fun fd' hfd' => ?_⟩
      by_cases e : fd' = fd
      · rw [e]
        exact update_self ..
      · exact (update_of_ne e _ _).trans (hdone fd' (by simp [e,hfd']))
  · rintro - t ⟨ht,ha,hpt,hdone⟩
    exact ⟨ht,ha,hpt,fun fd => hdone fd (by simp)⟩

/-- The children of `p` go to the first process. -/
def reparent (s : Sys) (p : PSlot) : Sys :=
  { s with
    proc := fun q => { s.proc q with toKin := Slot.reparent initproc p (s.proc q).toKin } }

theorem reparent_aside (s : Sys) (p : PSlot) :
    Aside {z | (s.proc z).parent = some p} s (reparent s p) := by
  refine ⟨rfl,rfl,fun q hq => ?_,fun d _ => .refl _ d,fun _ _ _ _ _ => ⟨rfl,rfl⟩⟩
  have hne : (s.proc q).parent ≠ some p := hq
  simp only [reparent,Slot.reparent,if_neg hne]

theorem Inv.reparent (h : Inv L [] s) (p : PSlot) : Inv L [] (reparent s p) := by
  obtain ⟨hworld,hkept,hstack,hinj,hdir,hdinj,hused,hunused,hclosed,hparent,hinit,hkernel⟩ := h
  refine ⟨hworld.congr rfl rfl rfl,hkept,hstack,hinj,hdir,hdinj,hused,hunused,hclosed,
    fun q r hr => ?_,hinit,hkernel⟩
  change (if (s.proc q).parent = some p then some initproc else (s.proc q).parent) = some r at hr
  split at hr
  · cases hr
    exact hinit
  · exact hparent q r hr

theorem Inv.zombie (h : Inv L [] s) (hp : (s.proc p).state = .RUNNABLE) (hne : p ≠ initproc)
    (hfiles : ∀ fd, (s.proc p).ofile fd = none) (hkids : ∀ r, (s.proc r).parent ≠ some p) :
    Inv L [] { s with proc := update s.proc p { s.proc p with state := .ZOMBIE } } ∧
    Aside {p} s { s with
      proc := update s.proc p { s.proc p with state := .ZOMBIE } } := by
  obtain ⟨t,ht⟩ : ∃ t, t = { s with
    proc := update s.proc p { s.proc p with state := .ZOMBIE } } := ⟨_,rfl⟩
  have hproc : t.proc p = { s.proc p with state := .ZOMBIE } := by
    rw [ht]
    exact update_self ..
  have ha : Aside {p} s t := by
    subst ht
    exact ⟨rfl,rfl,fun q hq => update_of_ne hq _ _,fun d _ => .refl _ d,fun _ _ _ _ _ => ⟨rfl,rfl⟩⟩
  have hsame : ∀ r, r ≠ p → t.proc r = s.proc r := fun r hr => ha.proc r hr
  have hmem : t.mem = s.mem := by rw [ht]
  obtain ⟨hk,d,hd,hsz,hmaps⟩ := h.slots.used p (not_unused hp)
  obtain ⟨hker,hother⟩ := h.slots.dir_alone (not_unused hp) hd
  have hdirs : dirs t = dirs s := by
    ext d'
    rw [mem_dirs_change ha,mem_dirs_change (.refl {p} s),hproc,hp]
    simp
  have hptrs : ptrs t = ptrs s := by
    funext x
    by_cases hx : x.1 = p
    · simp only [ptrs,hx,hproc]
    · simp only [ptrs,hsame x.1 hx]
  rw [← ht]
  refine ⟨⟨?_,h.slots.change ha ⟨fun f hf => ?_,fun _ => ?_,fun hu => ?_,fun fd _ => ?_,
    fun r hr => ?_,.inr ⟨hne,fun r hr => ?_⟩⟩⟩,ha⟩
  · rw [hdirs,base_same ha (by rw [hproc]),hptrs]
    subst ht
    exact h.world.congr rfl rfl rfl
  · rw [hproc] at hf
    refine ⟨ha.kept ▸ h.slots.kstack_kept p f hf,fun r hr hrf => hr ?_⟩
    rw [hsame r hr] at hrf
    exact h.slots.kstack_inj r p f hrf hf
  · rw [hproc,hmem,ha.kpgdir]
    refine ⟨hk,d,hd,hker,fun r hr hu => ?_,hsz,hmaps⟩
    rw [hsame r hr] at hu ⊢
    exact hother r hr hu
  · rw [hproc] at hu
    cases hu
  · rw [hproc]
    exact hfiles fd
  · rw [hproc] at hr
    have hrp : r ≠ p := by
      rintro rfl
      exact hkids r hr
    rw [hsame r hrp]
    exact h.slots.parent p r hr
  · rw [hsame r hr]
    exact hkids r

theorem Inv.exit (h : Inv L [] s) (hp : (s.proc p).state = .RUNNABLE)
    (hE : E (.panic "init exiting")) : wp E (exit L p) s fun _ t =>
      Inv L [] t ∧ Aside {z | z = p ∨ (s.proc z).parent = some p} s t := by
  rw [Vm.exit]
  refine wp_ite (fun _ => hE) fun hne => ?_
  refine (h.closeFiles hp).bind ?_
  rintro - t ⟨ht,ha,hpt,hfiles⟩
  simp only [setProc,wp_bind,wp_modify]
  have hkids : ∀ r, ((Vm.reparent t p).proc r).parent ≠ some p := fun r hr => by
    change (if (t.proc r).parent = some p then some initproc else (t.proc r).parent) = some p at hr
    split at hr
    · exact hne (Option.some.inj hr).symm
    · next hnot => exact hnot hr
  obtain ⟨hu,ha'⟩ := (ht.reparent p).zombie hpt hne hfiles hkids
  refine ⟨hu,(ha.mono fun z hz => .inl hz).trans (((reparent_aside t p).mono ?_).trans
    (ha'.mono fun z hz => .inl hz))⟩
  intro z hz
  by_cases e : z = p
  · exact .inl e
  · refine .inr ?_
    rw [← ha.proc z e]
    exact hz

theorem Inv.reap (h : Inv L [] s) {k : ℕ} {r : Ram} (hq : (s.proc q).state = .ZOMBIE)
    (hk : (s.proc q).kstack = some k) (hd : (s.proc q).pgdir = some d)
    (hsep : Sep (frames L) r.mem (dirs s \ {d}) ((base s ∪ {f | PipePage s f}) \ {k}))
    (hkeep : ∀ d' ∈ dirs s \ {d}, Keep s.mem r.mem d') :
    Inv L [] { s with
      ram := r
      proc := update s.proc q
        { s.proc q with kstack := none, parent := none, state := .UNUSED } } ∧
    Aside {q} s { s with
      ram := r
      proc := update s.proc q
        { s.proc q with kstack := none, parent := none, state := .UNUSED } } := by
  obtain ⟨t,ht⟩ : ∃ t, t = { s with
    ram := r
    proc := update s.proc q
      { s.proc q with kstack := none, parent := none, state := .UNUSED } } := ⟨_,rfl⟩
  have hproc : t.proc q = { s.proc q with kstack := none, parent := none, state := .UNUSED } := by
    rw [ht]
    exact update_self ..
  have hused : (s.proc q).state ≠ .UNUSED := by
    rw [hq]
    simp
  have ha : Aside {q} s t := by
    subst ht
    refine ⟨rfl,rfl,fun r hr => update_of_ne hr _ _,fun d' hd' => hkeep d' ?_,
      fun _ _ _ _ _ => ⟨rfl,rfl⟩⟩
    exact (h.slots.mem_dirs_others hused hd).mp hd'
  have hsame : ∀ r, r ≠ q → t.proc r = s.proc r := fun r hr => ha.proc r hr
  have hdirs : dirs t = dirs s \ {d} := by
    ext d'
    rw [mem_dirs_change ha,h.slots.mem_dirs_others hused hd,hproc]
    simp
  have hbase : base t = base s \ {k} := by
    ext f
    rw [mem_base_change ha,hproc,mem_sdiff,mem_base_change (.refl {q} s),hk,mem_singleton_iff]
    constructor
    · rintro (hf | hf | ⟨r,hr,hf⟩)
      · cases hf
      · exact ⟨.inr (.inl hf),fun e => h.slots.kstack_kept q k hk (e ▸ hf)⟩
      · exact ⟨.inr (.inr ⟨r,hr,hf⟩),fun e => hr (h.slots.kstack_inj r q k (e ▸ hf) hk)⟩
    · rintro ⟨hf | hf,hne⟩
      · exact absurd (Option.some.inj hf).symm hne
      · exact .inr hf
  have hptrs : ptrs t = ptrs s := by
    funext x
    by_cases hx : x.1 = q
    · simp only [ptrs,hx,hproc]
    · simp only [ptrs,hsame x.1 hx]
  have hkB : k ∈ base s := .inr ⟨q,hk⟩
  rw [← ht]
  refine ⟨⟨?_,h.slots.change ha ⟨fun f hf => ?_,fun hu => ?_,fun _ => ?_,fun fd _ => ?_,
    fun r hr => ?_,.inr ⟨?_,fun r hr hrq => ?_⟩⟩⟩,ha⟩
  · rw [hdirs,hbase,hptrs]
    subst ht
    refine (h.world.setRam (fun f hf hB => h.world.apart f hf hB.1) ?_).congr rfl rfl rfl
    convert hsep using 1
    ext f
    simp only [mem_union,mem_sdiff,mem_singleton_iff,mem_ofPred_eq]
    have hpipe : PipePage s f → f ≠ k := fun hf e => h.world.apart f hf (e ▸ hkB)
    tauto
  · rw [hproc] at hf
    cases hf
  · exact absurd (by rw [hproc]) hu
  · rw [hproc]
  · rw [hproc]
    exact h.slots.closed q fd (by rw [hq]; simp)
  · rw [hproc] at hr
    cases hr
  · rintro rfl
    rw [h.slots.init] at hq
    cases hq
  · rw [hsame r hr] at hrq
    rw [h.slots.parent r q hrq] at hq
    cases hq

theorem Inv.wait (h : Inv L [] s) : wp E (wait L p) s fun _ t => Inv L [] t ∧
    (t = s ∨ ∃ z, (s.proc z).parent = some p ∧ (s.proc z).state = .ZOMBIE ∧
      (t.proc z).state = .UNUSED ∧ Aside {z} s t) := by
  rw [Vm.wait,wp_bind,wp_read]
  cases hfind : Slot.zombieChild s.kin p with
  | none => exact ⟨h,.inl rfl⟩
  | some q =>
    obtain ⟨hpar,hq⟩ : (s.proc q).parent = some p ∧ (s.proc q).state = .ZOMBIE :=
      Slot.zombieChild_some hfind
    have hused : (s.proc q).state ≠ .UNUSED := by
      rw [hq]
      simp
    obtain ⟨⟨k,hk⟩,d,hd,-⟩ := h.slots.used q hused
    have hdD : d ∈ dirs s := mem_dirs hused hd
    simp only [wp_bind,wp_read,hk,wp_onMem]
    refine (wp_kfree frames_range h.world.sep (.inl (.inr ⟨q,hk⟩))).mono ?_
    rintro - m ⟨hsep,-,hkeep⟩
    simp only [setProc,pgdirOf,wp_bind,wp_modify,wp_read,update_self,hd,wp_pure]
    rw [← insert_eq_of_mem hdD,← insert_sdiff_singleton] at hsep
    refine (wp_freevm frames_range hsep (fun hx => hx.2 rfl)).mono ?_
    rintro - m' ⟨hsep',hkeep'⟩
    simp only [update_idem]
    obtain ⟨ht,ha⟩ := h.reap (r := ⟨m',s.ram.data⟩) hq hk hd hsep' fun d' hd' =>
      (hkeep d' hd'.1).trans (hkeep' d' hd')
    simp only [hd] at ht ha
    refine ⟨ht,.inr ⟨q,hpar,hq,?_,ha⟩⟩
    rw [update_self]

theorem aside_update {x : MProc} (hproc : t.proc = update s.proc q x)
    (hker : t.kpgdir = s.kpgdir) (hkept : t.kept = s.kept)
    (hkeep : ∀ d ∈ dirs s, Keep s.mem t.mem d)
    (hfile : ∀ j, (t.file j).pipe = (s.file j).pipe ∧ (t.file j).writable = (s.file j).writable) :
    Aside {q} s t := by
  refine ⟨hker,hkept,fun r hr => ?_,fun d hd => hkeep d ?_,fun _ _ _ i _ => hfile i⟩
  · rw [hproc]
    exact update_of_ne hr _ _
  · exact hd.imp_right fun ⟨r,_,hr⟩ => ⟨r,hr⟩

theorem ptrs_update {x : MProc} (hproc : t.proc = update s.proc q x)
    (hx : x.ofile = (s.proc q).ofile) : ptrs t = ptrs s := by
  funext y
  by_cases hy : y.1 = q
  · simp only [ptrs,hproc,hy,update_self,hx]
  · simp only [ptrs,hproc,update_of_ne hy]

theorem wp_dupFiles {A D B : Set ℕ} {fds : List (Fin NOFILE)} (hnd : fds.Nodup)
    (hw : World A D B (ptrs s) [] s) (hfree : ∀ fd, (s.proc q).ofile fd = none) :
    wp E (dupFiles p q fds) s fun _ t => World A D B (ptrs t) [] t ∧ t.mem = s.mem ∧
      t.kpgdir = s.kpgdir ∧ t.kept = s.kept ∧
      (∃ o, t.proc = update s.proc q { s.proc q with ofile := o }) ∧
      ∀ j, (t.file j).pipe = (s.file j).pipe ∧ (t.file j).writable = (s.file j).writable := by
  rw [dupFiles]
  refine (wp_forM (fun l t => (l.Nodup ∧ ∀ fd ∈ l, (t.proc q).ofile fd = none) ∧
    World A D B (ptrs t) [] t ∧ t.mem = s.mem ∧ t.kpgdir = s.kpgdir ∧ t.kept = s.kept ∧
    (∃ o, t.proc = update s.proc q { s.proc q with ofile := o }) ∧
    ∀ j, (t.file j).pipe = (s.file j).pipe ∧ (t.file j).writable = (s.file j).writable) ?_ fds
    ⟨⟨hnd,fun fd _ => hfree fd⟩,hw,rfl,rfl,rfl,
      ⟨(s.proc q).ofile,(update_eq_self q s.proc).symm⟩,fun _ => ⟨rfl,rfl⟩⟩).mono
    fun _ _ h => h.2
  rintro fd l t ⟨⟨hl,hnone⟩,hwt,hmem,hker,hkept,⟨o,hproc⟩,hfile⟩
  obtain ⟨hfdl,hl'⟩ := List.nodup_cons.mp hl
  rw [wp_bind,wp_read]
  cases hi : (t.proc p).ofile fd with
  | none =>
    exact ⟨⟨hl',fun fd' h' => hnone fd' (by simp [h'])⟩,hwt,hmem,hker,hkept,⟨o,hproc⟩,hfile⟩
  | some i =>
    have hpos : 0 < tally (ptrs t) i := tally_pos.mpr ⟨(p, fd),hi⟩
    have href := hwt.ref_eq i
    simp only [filedup,wp_bind,wp_read]
    refine wp_ite (fun hbad => by omega) fun _ => ?_
    simp only [setFile,setOfile,setProc,wp_modify]
    have hw' := (hwt.dup (x := (q, fd)) (hnone fd (by simp)) i)
    rw [← ptrs_setFd] at hw'
    refine ⟨⟨hl',fun fd' h' => ?_⟩,hw'.congr rfl rfl rfl,hmem,hker,hkept,
      ⟨update o fd (some i),?_⟩,fun j => ?_⟩
    · rw [update_self]
      have hne : fd' ≠ fd := by
        rintro rfl
        exact hfdl h'
      exact (update_of_ne hne _ _).trans (hnone fd' (by simp [h']))
    · rw [hproc,update_self,update_idem]
    · have hsame := setRef_same t i ((t.file i).ref + 1) j
      exact ⟨hsame.1.trans (hfile j).1,hsame.2.trans (hfile j).2⟩

theorem Inv.idle (h : Inv L [] s) (hq : (s.proc q).state = .UNUSED) (ha : Aside {q} s t)
    (hstate : (t.proc q).state = .UNUSED) (hstack : (t.proc q).kstack = none)
    (hpar : (t.proc q).parent = (s.proc q).parent) (hfiles : (t.proc q).ofile = (s.proc q).ofile)
    (hw : World (frames L) (dirs s) (base s) (ptrs s) [] t) : Inv L [] t := by
  have hsame : ∀ r, r ≠ q → t.proc r = s.proc r := fun r hr => ha.proc r hr
  have hdirs : dirs t = dirs s := by
    ext d'
    rw [mem_dirs_change ha,mem_dirs_change (.refl {q} s),hstate,hq]
    simp
  have hbase : base t = base s := base_same ha (hstack.trans (h.slots.unused q hq).symm)
  have hptrs : ptrs t = ptrs s := by
    funext x
    by_cases hx : x.1 = q
    · simp only [ptrs,hx,hfiles]
    · simp only [ptrs,hsame x.1 hx]
  refine ⟨by rwa [hdirs,hbase,hptrs],h.slots.change ha ⟨fun f hf => ?_,fun hu => ?_,
    fun _ => hstack,fun fd _ => ?_,fun r hr => ?_,.inr ⟨?_,fun r hr hrq => ?_⟩⟩⟩
  · rw [hstack] at hf
    cases hf
  · exact absurd hstate hu
  · rw [hfiles]
    exact h.slots.closed q fd (by rw [hq]; simp)
  · rw [hpar] at hr
    have hrun := h.slots.parent q r hr
    by_cases e : r = q
    · rw [e,hq] at hrun
      cases hrun
    · rwa [hsame r e]
  · rintro rfl
    rw [h.slots.init] at hq
    cases hq
  · rw [hsame r hr] at hrq
    rw [h.slots.parent r q hrq] at hq
    cases hq

theorem Inv.adopt (h : Inv L [] s) (hp : (s.proc p).state = .RUNNABLE)
    (hq : (s.proc q).state = .UNUSED) {k nd sz : ℕ} (hk : k ∉ base s) (hnd : nd ∉ dirs s)
    (ha : Aside {q} s t) {o : Fin NOFILE → Option FSlot}
    (hproc : t.proc q = ⟨⟨.RUNNABLE, some p⟩, some k, some nd, sz, o⟩) (hsz : sz ≤ KERNBASE)
    (hmaps : Maps t.mem nd sz)
    (hw : World (frames L) (insert nd (dirs s)) (insert k (base s)) (ptrs t) [] t) : Inv L [] t := by
  have hsame : ∀ r, r ≠ q → t.proc r = s.proc r := fun r hr => ha.proc r hr
  have hpq : p ≠ q := by
    rintro rfl
    rw [hp] at hq
    cases hq
  have hdirs : dirs t = insert nd (dirs s) := by
    ext d'
    rw [mem_dirs_change ha,hproc,mem_insert_iff,mem_dirs_change (.refl {q} s),hq]
    simp only [ne_eq,reduceCtorEq,not_false_eq_true,true_and,Option.some.injEq,not_true_eq_false,
      false_and,false_or,eq_comm]
  have hbase : base t = insert k (base s) := by
    ext f
    rw [mem_base_change ha,hproc,mem_insert_iff,mem_base_change (.refl {q} s),h.slots.unused q hq]
    simp only [Option.some.injEq,reduceCtorEq,false_or,eq_comm]
  refine ⟨by rwa [hdirs,hbase],h.slots.change ha ⟨fun f hf => ?_,fun _ => ?_,fun hu => ?_,
    fun fd hne => ?_,fun r hr => ?_,.inl (by rw [hproc])⟩⟩
  · rw [hproc] at hf
    obtain rfl := Option.some.inj hf
    refine ⟨fun hmem => hk (.inl (ha.kept ▸ hmem)),fun r hr hrf => hk (.inr ⟨r,?_⟩)⟩
    rwa [hsame r hr] at hrf
  · rw [hproc]
    refine ⟨⟨k,rfl⟩,nd,rfl,fun e => hnd (.inl (e.trans ha.kpgdir)),fun r hr hu hrd => ?_,hsz,hmaps⟩
    rw [hsame r hr] at hu hrd
    exact hnd (mem_dirs hu hrd)
  · rw [hproc] at hu
    cases hu
  · rw [hproc] at hne
    exact absurd rfl hne
  · rw [hproc] at hr
    obtain rfl := Option.some.inj hr
    rwa [hsame p hpq]

theorem Inv.fork (h : Inv L [] s) (hp : (s.proc p).state = .RUNNABLE) :
    wp E (fork L p) s fun _ t => Inv L [] t ∧ Aside {z | (s.proc z).state = .UNUSED} s t := by
  rw [Vm.fork,wp_bind,wp_read]
  cases hfind : Slot.firstUnused s.kin with
  | none => exact ⟨h,.refl _ s⟩
  | some q =>
    have hq : (s.proc q).state = .UNUSED := Slot.firstUnused_some hfind
    have hpq : p ≠ q := by
      rintro rfl
      rw [hp] at hq
      cases hq
    have hN : ({q} : Set PSlot) ⊆ {z | (s.proc z).state = .UNUSED} := by
      rintro z rfl
      exact hq
    obtain ⟨-,d,hd,hsz,hmaps⟩ := h.slots.used p (not_unused hp)
    have hdD : d ∈ dirs s := mem_dirs (not_unused hp) hd
    refine wp.mono (Q := fun _ t => Inv L [] t ∧ Aside {q} s t) ?_ fun _ t ht =>
      ⟨ht.1,ht.2.mono hN⟩
    simp only [setProc,wp_bind,wp_modify]
    have hw1 : World (frames L) (dirs s) (base s) (ptrs s) [] { s with
        proc := update s.proc q { s.proc q with state := .EMBRYO } } :=
      h.world.congr rfl rfl rfl
    refine hw1.kalloc.mono ?_
    rintro r s₂ ⟨⟨hproc,hker,hkept,hkeep⟩,hfile,hnone,hsome⟩
    simp only at hproc hker hkept hkeep hfile
    simp only [hproc,update_self,update_idem]
    cases r with
    | none =>
      simp only [wp_modify,update_self,update_idem]
      have ha := aside_update (t := { s₂ with
        proc := update s.proc q { s.proc q with kstack := none, state := .UNUSED } })
        rfl hker hkept hkeep fun j => by simp only [hfile,and_self]
      refine ⟨h.idle hq ha ?_ ?_ ?_ ?_ ((hnone rfl).congr rfl rfl rfl),ha⟩
      all_goals simp only [update_self]
    | some k =>
      obtain ⟨hkB,hw2⟩ := hsome k rfl
      have hmaps2 : Maps s₂.mem d (s.proc p).sz := fun a ha => by
        rw [(hkeep d hdD).entry]
        exact hmaps a ha
      simp only [pgdirOf,wp_bind,wp_read,update_of_ne hpq,hd,wp_pure]
      rw [wp_onRam]
      refine (wp_copyuvm frames_range hsz hw2.sep hdD hmaps2).mono ?_
      rintro (_ | nd) r ⟨hk3,-,hnone3,hsome3,-⟩
      · simp only [wp_bind,wp_modify,update_self,update_idem]
        have hw3 : World (frames L) (dirs s) (insert k (base s)) (ptrs s) [] { s₂ with
            ram := r
            proc := update s.proc q
              { s.proc q with state := .EMBRYO, kstack := some k, pgdir := none } } :=
          (hw2.setRam hw2.apart (hnone3 rfl)).congr rfl rfl rfl
        refine (hw3.kfree frames_range hkB).mono ?_
        rintro - t ⟨⟨hproct,hkert,hkeptt,hkeept⟩,hfilet,hwt⟩
        simp only at hproct hkert hkeptt hkeept hfilet
        simp only [hproct,update_self,update_idem]
        have ha := aside_update (s := s) (t := { t with
          proc := update s.proc q
            { s.proc q with kstack := none, pgdir := none, state := .UNUSED } })
          rfl (hkert.trans hker) (hkeptt.trans hkept)
          (fun d' hd' => ((hkeep d' hd').trans (hk3 d' hd')).trans (hkeept d' hd'))
          fun j => by simp only [hfilet,hfile,and_self]
        refine ⟨h.idle hq ha ?_ ?_ ?_ ?_ (hwt.congr rfl rfl rfl),ha⟩
        all_goals simp only [update_self]
      obtain ⟨hnd,hsep3,hmaps3,-⟩ := hsome3 nd rfl
      simp only [wp_bind,wp_modify,update_self,update_idem]
      obtain ⟨s3,hs3⟩ : ∃ s3, s3 = { s₂ with
        ram := r
        proc := update s.proc q ⟨⟨.EMBRYO,some p⟩,some k,some nd,(s.proc p).sz,
          (s.proc q).ofile⟩ } := ⟨_,rfl⟩
      have hproc3 : s3.proc = update s.proc q ⟨⟨.EMBRYO,some p⟩,some k,some nd,
        (s.proc p).sz,(s.proc q).ofile⟩ := by rw [hs3]
      have hw3 : World (frames L) (insert nd (dirs s)) (insert k (base s)) (ptrs s3) [] s3 := by
        rw [ptrs_update hproc3 rfl,hs3]
        exact (hw2.setRam hw2.apart hsep3).congr rfl rfl rfl
      have hfree : ∀ fd, (s3.proc q).ofile fd = none := fun fd => by
        rw [hproc3,update_self]
        exact h.slots.closed q fd (by rw [hq]; simp)
      rw [← hs3]
      refine (wp_dupFiles (List.nodup_finRange _) hw3 hfree).mono ?_
      rintro - t ⟨hwt,hmem,hker',hkept',⟨o,hproct⟩,hfile'⟩
      rw [hproc3,update_self,update_idem] at hproct
      simp only [hproct,update_self,update_idem]
      have ha := aside_update (s := s) (t := { t with
        proc := update s.proc q ⟨⟨.RUNNABLE,some p⟩,some k,some nd,(s.proc p).sz,o⟩ })
        rfl ((hker'.trans (by rw [hs3])).trans hker) ((hkept'.trans (by rw [hs3])).trans hkept)
        (fun d' hd' => by
          rw [hmem,hs3]
          exact (hkeep d' hd').trans (hk3 d' hd'))
        fun j => by rw [(hfile' j).1,(hfile' j).2,hs3]; simp only [hfile,and_self]
      refine ⟨h.adopt hp hq hkB hnd ha (update_self ..) hsz ?_ ?_,ha⟩
      · rw [hmem,hs3]
        exact hmaps3
      · rw [ptrs_update (s := t) (q := q) (by rw [hproct,update_idem])
          (by rw [hproct,update_self])]
        exact hwt.congr rfl rfl rfl

end Lifecycle

end Xv6Container.Vm
