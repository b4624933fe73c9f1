import Xv6Container.Vm.Boot
import Xv6Container.Vm.Growth

/-! # The account of the pages -/

namespace Xv6Container.Vm

open Prog Run

/-- `sbrk` leaves a part of the address space, and the arguments of `exec` are shorter than the new
image. -/
def Fair (s : Sys) (a : Act) : Prop :=
  match a.call with
  | .sbrk n => 0 < ((s.proc a.proc).sz : ℤ) + n.toInt
  | .exec _ sgs argv => ShortArgs sgs argv
  | _ => True

instance (s : Sys) (a : Act) : Decidable (Fair s a) := by
  unfold Fair
  split <;> infer_instance

/-- The slots that a call of `p` can change. -/
def circle (s : Sys) (p : PSlot) : Set PSlot :=
  {z | z = p ∨ (s.proc z).state = .UNUSED ∨ (s.proc z).parent = some p}

/-- Where a page can be. -/
inductive Place
  | free | kept | kernel (x : Spot) | kstack (p : PSlot) | space (p : PSlot) (x : Spot) | pipe

/-- Page `f` is in the given place. -/
def Holds (s : Sys) : Place → ℕ → Prop
  | .free, f => f ∈ s.mem.freelist
  | .kept, f => f ∈ s.kept
  | .kernel x, f => spot s.mem s.kpgdir x = some f
  | .kstack p, f => (s.proc p).state ≠ .UNUSED ∧ (s.proc p).kstack = some f
  | .space p x, f => (s.proc p).state ≠ .UNUSED ∧
      ∃ d, (s.proc p).pgdir = some d ∧ spot s.mem d x = some f
  | .pipe, f => PipePage s f

section Accounts

variable {L : Layout} {s t u : Sys} {p q : PSlot} {d : ℕ} {N : Set PSlot} {E : Stop → Prop}

theorem Inv.call (h : Inv L [] s) {a : Act} (hp : (s.proc a.proc).state = .RUNNABLE)
    (hf : Fair s a) : wp (· = .panic "init exiting") (call L a.proc a.call) s fun _ t =>
      Inv L [] t ∧ Aside (circle s a.proc) s t := by
  have hself : ({a.proc} : Set PSlot) ⊆ circle s a.proc := fun z hz => .inl hz
  have hmono : ∀ {c : K Unit}, wp (· = .panic "init exiting") c s
      (fun _ t => Inv L [] t ∧ Aside {a.proc} s t) → wp (· = .panic "init exiting") c s
      fun _ t => Inv L [] t ∧ Aside (circle s a.proc) s t :=
    fun hc => hc.mono fun _ t ht => ⟨ht.1,ht.2.mono hself⟩
  obtain ⟨p,c,deny⟩ := a
  cases c with
  | fork =>
    exact (h.fork hp).mono fun _ t ht => ⟨ht.1,ht.2.mono fun z hz => .inr (.inl hz)⟩
  | exec good sgs argv => exact hmono (h.exec hp hf)
  | sbrk n => exact hmono (h.sbrk hp hf)
  | exit =>
    exact (h.exit (E := (· = .panic "init exiting")) hp rfl).mono fun _ t ht => ⟨ht.1,ht.2.mono fun z hz => hz.imp_right .inr⟩
  | wait =>
    refine h.wait.mono ?_
    rintro - t ⟨ht,rfl | ⟨z,hz,-,-,ha⟩⟩
    · exact ⟨ht,.refl _ _⟩
    · refine ⟨ht,ha.mono ?_⟩
      rintro y rfl
      exact .inr (.inr hz)
  | pipe => exact hmono (h.pipe hp)
  | close fd => exact hmono (h.close hp fd)

theorem Inv.deny (h : Inv L [] s) (ds : List Bool) :
    Inv L [] { s with ram.mem.deny := ds } ∧
      Aside ∅ s { s with ram.mem.deny := ds } := by
  have hst : Still (dirs s) s { s with ram.mem.deny := ds } :=
    ⟨rfl,rfl,rfl,fun d _ => keep_of_tab_eq (by rfl) d⟩
  refine ⟨h.still hst (h.world.setRam h.world.apart ?_),
    .of_still hst (.refl (ptrs s) _) fun _ _ _ => rfl⟩
  exact h.world.sep.frame rfl fun d _ => keep_of_tab_eq (by rfl) d

theorem step_eq {a : Act} (h : step L s a = some t) : (s.proc a.proc).state = .RUNNABLE ∧
    call L a.proc a.call { s with ram.mem.deny := a.deny } = .ok ((), t) := by
  rw [step] at h
  split at h
  · next hp =>
    refine ⟨hp,?_⟩
    split at h
    · next hc =>
      cases h
      exact hc
    · cases h
  · cases h

theorem Inv.step {a : Act} (h : Inv L [] s) (hf : Fair s a) (hs : step L s a = some t) :
    Inv L [] t ∧ Aside (circle s a.proc) s t := by
  obtain ⟨hp,hc⟩ := step_eq hs
  obtain ⟨h',ha⟩ := h.deny a.deny
  obtain ⟨ht,ha'⟩ := (h'.call hp hf).of_ok hc
  exact ⟨ht,(ha.mono (Set.empty_subset _)).trans ha'⟩

theorem Inv.exec_run {acts : List Act} (h : Inv L [] s) (hf : Meets (Vm.step L) Fair s acts)
    (hr : Run.exec (Vm.step L) s acts = some t) : Inv L [] t :=
  exec_invariant_of_meets (I := Inv L []) (fun _ _ _ hi hok hs => (hi.step hok hs).1) h hf hr

/-- A place as the address spaces see it. -/
def Place.loc (s : Sys) : Place → Loc
  | .free => .free
  | .kernel x => .spot s.kpgdir x
  | .space p x => .spot ((s.proc p).pgdir.getD 0) x
  | .kept | .kstack _ | .pipe => .rest

theorem Holds.has {f : ℕ} {pl : Place} (h : Holds s pl f) :
    Has s.mem (dirs s) (base s ∪ {f | PipePage s f}) (pl.loc s) f := by
  cases pl with
  | free => exact h
  | kept => exact .inl (.inl h)
  | kernel x => exact ⟨.inl rfl,h⟩
  | kstack p => exact .inl (.inr ⟨p,h.2⟩)
  | space p x =>
    obtain ⟨hp,d,hd,hx⟩ := h
    rw [Place.loc,hd]
    exact ⟨mem_dirs hp hd,hx⟩
  | pipe => exact .inr h

theorem Slots.used_of_kstack (h : Slots s) {f : ℕ} (hf : (s.proc p).kstack = some f) :
    (s.proc p).state ≠ .UNUSED := fun hu => by
  rw [h.unused p hu] at hf
  cases hf

theorem Inv.sole (h : Inv L [] s) : Sole (frames L) (Holds s) := by
  have hsep := h.world.sep.sole
  have hslots := h.slots
  refine ⟨fun f hf => ?_,fun pl f hpl => hsep.only _ f hpl.has,fun pl pl' f hpl hpl' => ?_⟩
  · obtain ⟨l,hl⟩ := hsep.cover f hf
    cases l with
    | free => exact ⟨.free,hl⟩
    | rest =>
      rcases hl with (hl | ⟨p,hp⟩) | hl
      · exact ⟨.kept,hl⟩
      · exact ⟨.kstack p,hslots.used_of_kstack hp,hp⟩
      · exact ⟨.pipe,hl⟩
    | spot d x =>
      obtain ⟨rfl | ⟨p,hp,hd⟩,hx⟩ := hl
      · exact ⟨.kernel x,hx⟩
      · exact ⟨.space p x,hp,d,hd,hx⟩
  have hloc : pl.loc s = pl'.loc s := hsep.uniq _ _ f hpl.has hpl'.has
  have hkept : ∀ {p}, f ∈ s.kept → (s.proc p).kstack ≠ some f := fun hf hp =>
    hslots.kstack_kept _ f hp hf
  have hpipe : PipePage s f → f ∉ base s := h.world.apart f
  cases pl with
  | free => cases pl' <;> first | rfl | cases hloc
  | kept =>
    cases pl' with
    | kept => rfl
    | kstack p => exact absurd hpl'.2 (hkept hpl)
    | pipe => exact absurd (.inl hpl) (hpipe hpl')
    | free | kernel | space => cases hloc
  | kstack p =>
    cases pl' with
    | kept => exact absurd hpl.2 (hkept hpl')
    | kstack q => rw [hslots.kstack_inj p q f hpl.2 hpl'.2]
    | pipe => exact absurd (.inr ⟨p,hpl.2⟩) (hpipe hpl')
    | free | kernel | space => cases hloc
  | pipe =>
    cases pl' with
    | kept => exact absurd (.inl hpl') (hpipe hpl)
    | kstack q => exact absurd (.inr ⟨q,hpl'.2⟩) (hpipe hpl)
    | pipe => rfl
    | free | kernel | space => cases hloc
  | kernel x =>
    cases pl' with
    | kernel y => rw [(Loc.spot.inj hloc).2]
    | space q y =>
      obtain ⟨hq,d,hd,-⟩ := hpl'
      rw [Place.loc,Place.loc,hd] at hloc
      exact absurd (by rw [hd,(Loc.spot.inj hloc).1]; rfl) (hslots.dir_kernel q hq)
    | free | kept | kstack | pipe => cases hloc
  | space p x =>
    obtain ⟨hp,d,hd,-⟩ := hpl
    cases pl' with
    | kernel y =>
      rw [Place.loc,Place.loc,hd] at hloc
      exact absurd (by rw [hd,← (Loc.spot.inj hloc).1]; rfl) (hslots.dir_kernel p hp)
    | space q y =>
      obtain ⟨hq,d',hd',-⟩ := hpl'
      rw [Place.loc,Place.loc,hd,hd'] at hloc
      obtain ⟨hdd,rfl⟩ := Loc.spot.inj hloc
      rw [hslots.dir_inj p q d hp hq hd (by rw [hd']; exact congrArg some hdd.symm)]
    | free | kept | kstack | pipe => cases hloc

theorem Inv.pointer (h : Inv L [] s) {i : FSlot} {f : ℕ} (hi : (s.file i).pipe = some f) :
    ∃ p fd, (s.proc p).state = .RUNNABLE ∧ (s.proc p).ofile fd = some i := by
  have href := h.world.ref_eq i
  have hpos : 0 < tally (ptrs s) i := by
    by_contra hzero
    rw [List.count_nil] at href
    rw [h.world.free i (by omega)] at hi
    cases hi
  obtain ⟨⟨p,fd⟩,hx⟩ := tally_pos.mp hpos
  refine ⟨p,fd,?_,hx⟩
  by_contra hp
  rw [ptrs,h.slots.closed p fd hp] at hx
  cases hx

theorem Inv.free_length (hs : Inv L [] s) (hu : Inv L [] u) (ha : Aside N s u)
    (hN : ∀ p, p ∈ N → (s.proc p).state = .UNUSED ∧ (u.proc p).state = .UNUSED) :
    u.mem.freelist.length = s.mem.freelist.length := by
  have hout : ∀ {p}, (s.proc p).state ≠ .UNUSED → p ∉ N := fun hp hpN => hp (hN _ hpN).1
  have hout' : ∀ {p}, (u.proc p).state ≠ .UNUSED → p ∉ N := fun hp hpN => hp (hN _ hpN).2
  have hdirs : dirs u = dirs s := by
    ext d
    refine or_congr (by rw [ha.kpgdir]) (exists_congr fun p => ?_)
    by_cases hp : p ∈ N
    · exact iff_of_false (fun hx => hx.1 (hN p hp).2) fun hx => hx.1 (hN p hp).1
    · rw [ha.proc p hp]
  have hbase : base u = base s := by
    ext f
    refine or_congr (by rw [ha.kept]) (exists_congr fun p => ?_)
    by_cases hp : p ∈ N
    · rw [hs.slots.unused p (hN p hp).1,hu.slots.unused p (hN p hp).2]
    · rw [ha.proc p hp]
  have hpipes : ∀ f, PipePage u f ↔ PipePage s f := by
    intro f
    constructor
    · rintro ⟨i,hi⟩
      obtain ⟨p,fd,hp,hfd⟩ := hu.pointer hi
      have hpN := hout' (not_unused hp)
      exact ⟨i,(ha.files p hpN fd i (by rwa [ha.proc p hpN] at hfd)).1 ▸ hi⟩
    · rintro ⟨i,hi⟩
      obtain ⟨p,fd,hp,hfd⟩ := hs.pointer hi
      exact ⟨i,(ha.files p (hout (not_unused hp)) fd i hfd).1.trans hi⟩
  have hkeep : ∀ d ∈ dirs s, Keep s.mem u.mem d := fun d hd =>
    ha.keep d (hd.imp_right fun ⟨p,hp,hpd⟩ => ⟨p,hout hp,hp,hpd⟩)
  have hfree := hs.world.sep.sole.same hu.world.sep.sole (i := .free) fun l hl f => by
    cases l with
    | free => exact absurd rfl hl
    | rest => simp only [Has,hbase,hpipes]
    | spot d x =>
      simp only [Has,hdirs]
      exact and_congr_right fun hd => by rw [(hkeep d hd).spot]
  exact ((List.perm_ext_iff_of_nodup hu.world.sep.nodup hs.world.sep.nodup).mpr hfree).length_eq

theorem Inv.aside_run {acts : List Act} (h : Inv L [] s) (ht : Inv L [] t)
    (ha : Aside {z | (s.proc z).state = .UNUSED} s t) (hf : Meets (Vm.step L) Fair t acts)
    (hnew : ∀ a ∈ acts, (s.proc a.proc).state = .UNUSED)
    (hr : Run.exec (Vm.step L) t acts = some u) :
    Inv L [] u ∧ Aside {z | (s.proc z).state = .UNUSED} s u := by
  induction acts generalizing t with
  | nil =>
    cases hr
    exact ⟨ht,ha⟩
  | cons a acts ih =>
    obtain ⟨t',hs,hr'⟩ := exec_cons.mp hr
    obtain ⟨ht',ha'⟩ := ht.step hf.1 hs
    refine ih ht' (ha.trans (ha'.mono fun z hz => ?_)) (hf.2 t' hs)
      (fun b hb => hnew b (by simp [hb])) hr'
    have hnewa := hnew a (by simp)
    -- a process from before has its old parent, which is not new
    by_contra hold
    have hsame := ha.proc z hold
    rcases hz with rfl | hz | hz
    · exact hold hnewa
    · rw [hsame] at hz
      exact hold hz
    · rw [hsame] at hz
      have hrun := h.slots.parent z a.proc hz
      rw [hnewa] at hrun
      cases hrun

theorem Inv.round_trip {acts : List Act} {deny deny' : List Bool} (h : Inv L [] s)
    (hf : Meets (Vm.step L) Fair s (⟨p, .fork, deny⟩ :: acts))
    (hr : Run.exec (Vm.step L) s (⟨p, .fork, deny⟩ :: acts) = some t)
    (hnew : ∀ a ∈ acts, (s.proc a.proc).state = .UNUSED)
    (hw : Vm.step L t ⟨p, .wait, deny'⟩ = some u)
    (hreap : ∃ q, (s.proc q).state = .UNUSED ∧ (t.proc q).state ≠ .UNUSED)
    (hgone : ∀ q, (s.proc q).state = .UNUSED → (u.proc q).state = .UNUSED) :
    u.mem.freelist.length = s.mem.freelist.length := by
  obtain ⟨s₁,hs1,hr1⟩ := exec_cons.mp hr
  obtain ⟨hp,hc⟩ := step_eq hs1
  obtain ⟨h',ha'⟩ := h.deny deny
  obtain ⟨h1,ha1⟩ := (h'.fork (E := fun _ => False) hp).of_ok hc
  have has1 : Aside {z | (s.proc z).state = .UNUSED} s s₁ :=
    (ha'.mono (Set.empty_subset _)).trans ha1
  obtain ⟨ht,hat⟩ := h.aside_run h1 has1 (hf.2 s₁ hs1) hnew hr1
  obtain ⟨-,hcw⟩ := step_eq hw
  obtain ⟨ht',hat'⟩ := ht.deny deny'
  obtain ⟨hu,hcase⟩ := (ht'.wait (E := fun _ => False)).of_ok hcw
  obtain ⟨q,hq,hqt⟩ := hreap
  have hau : Aside {z | (s.proc z).state = .UNUSED} s u := by
    refine hat.trans ((hat'.mono (Set.empty_subset _)).trans ?_)
    rcases hcase with rfl | ⟨z,-,-,-,hz⟩
    · exact .refl _ _
    -- the slot that changed is that of the process that is gone
    have hzq : z = q := by
      by_contra hne
      have hsame := hz.proc q fun e => hne e.symm
      exact hqt (by rw [← hgone q hq,hsame])
    refine hz.mono ?_
    rintro y rfl
    rw [hzq]
    exact hq
  exact h.free_length hu hau fun z hz => ⟨hz,hgone z hz⟩

/-- **Every page has one owner.** In every state reached from boot by fair calls, each allocatable
page is in one place, a process in use maps the user pages below its size and no others, no further
call stops the kernel except that the first process exits, and a child that is forked and reaped
leaves the number of free pages as it was. -/
theorem every_page_has_one_owner {ncpu : ℕ} {init : List UInt8} {tab : ℕ → ℕ → Pte}
    {data : ℕ → Block PGSIZE} {ends : ℕ → Ends} {s0 : Sys} {acts : List Act}
    (hb : boot L ncpu init (powerOn tab data ends) = .ok ((), s0))
    (hf : Meets (step L) Fair s0 acts) (hr : Run.exec (step L) s0 acts = some s) :
    ((∀ f ∈ frames L, ∃! pl, Holds s pl f) ∧ s.mem.freelist.Nodup ∧ s.kept.Nodup ∧
      ∀ i j f, (s.file i).pipe = some f → (s.file j).pipe = some f →
        (s.file i).writable = (s.file j).writable → i = j) ∧
    (∀ p, (s.proc p).state ≠ .UNUSED → ∃ d, (s.proc p).pgdir = some d ∧
      ∀ a, a < KERNPAGE → ((entry s.mem d a).present = true ↔ a < pgup (s.proc p).sz)) ∧
    (∀ a, (s.proc a.proc).state = .RUNNABLE → Fair s a → ∀ e,
      call L a.proc a.call { s with ram.mem.deny := a.deny } = .error e →
      e = .panic "init exiting") ∧
    ∀ p deny deny' bs t u, Meets (step L) Fair s (⟨p, .fork, deny⟩ :: bs) →
      Run.exec (step L) s (⟨p, .fork, deny⟩ :: bs) = some t →
      (∀ b ∈ bs, (s.proc b.proc).state = .UNUSED) →
      step L t ⟨p, .wait, deny'⟩ = some u →
      (∃ q, (s.proc q).state = .UNUSED ∧ (t.proc q).state ≠ .UNUSED) →
      (∀ q, (s.proc q).state = .UNUSED → (u.proc q).state = .UNUSED) →
      u.mem.freelist.length = s.mem.freelist.length := by
  have h : Inv L [] s := (inv_of_boot hb).exec_run hf hr
  refine ⟨⟨fun f hf => h.sole.existsUnique hf,h.world.sep.nodup,h.slots.kept,h.world.inj⟩,
    fun p hp => ?_,fun a hp hfair e he => ?_,fun p deny deny' bs t u hfb hrb hnew hw hreap hgone =>
      h.round_trip hfb hrb hnew hw hreap hgone⟩
  · obtain ⟨-,d,hd,-,hmaps⟩ := h.slots.used p hp
    exact ⟨d,hd,hmaps⟩
  · exact ((h.deny a.deny).1.call hp hfair).of_error he

/-- A machine with just enough pages for the queues of all processes and for two processes. -/
def tiny : Layout :=
  { small with
    kend := 2, early := 12, phystop := 273
    data_le := by decide, kend_le := by decide, early_le := by decide, data_lt := by decide
    phystop_le := by decide }

theorem child_lt : 1 < NPROC := by decide

def child : PSlot := ⟨1, child_lt⟩

def off : Sys := powerOn (fun _ _ => .zero) (fun _ => .zero) fun _ => ⟨false, false⟩

/-- The first process forks and its child exits, which takes all the pages. When the child has been
reaped they are free again. -/
theorem every_page_has_one_owner_reaped : ∃ s t u : Sys, boot tiny 0 [] off = .ok ((), s) ∧
    Run.exec (step tiny) s [⟨initproc, .fork, []⟩, ⟨child, .exit, []⟩] = some t ∧
    step tiny t ⟨initproc, .wait, []⟩ = some u ∧ (∀ f ∈ frames tiny, ∃! pl, Holds t pl f) ∧
    s.mem.freelist.length = 6 ∧ t.mem.freelist = [] ∧ u.mem.freelist.length = 6 := by
  have hrun : ((result (boot tiny 0 []) off).bind fun r =>
      (Run.exec (step tiny) r.2 [⟨initproc, .fork, []⟩, ⟨child, .exit, []⟩]).bind fun t =>
      (step tiny t ⟨initproc, .wait, []⟩).map fun u =>
        (decide ((r.2.proc child).state = .UNUSED) && decide ((t.proc child).state = .ZOMBIE) &&
          (List.finRange NPROC).all fun q => decide ((r.2.proc q).state ≠ .UNUSED ∨
            (u.proc q).state = .UNUSED), r.2.mem.freelist.length, t.mem.freelist)) =
      some (true, 6, []) := by decide +kernel
  obtain ⟨⟨⟨⟩,s⟩,hs,hrun⟩ := Option.bind_eq_some_iff.mp hrun
  obtain ⟨t,ht,hrun⟩ := Option.bind_eq_some_iff.mp hrun
  obtain ⟨u,hu,hval⟩ := Option.map_eq_some_iff.mp hrun
  obtain ⟨hstates,hfree⟩ := Prod.mk.inj hval
  obtain ⟨hlen,hnone⟩ := Prod.mk.inj hfree
  simp only [Bool.and_eq_true,decide_eq_true_eq,List.all_eq_true] at hstates
  obtain ⟨⟨hnew,hzombie⟩,hgone⟩ := hstates
  have hb := ok_of_result hs
  have hfair : Meets (step tiny) Fair s [⟨initproc,.fork,[]⟩,⟨child,.exit,[]⟩] :=
    ⟨trivial,fun _ _ => ⟨trivial,fun _ _ => trivial⟩⟩
  have hnil : Meets (step tiny) Fair s [] := trivial
  have hback := (every_page_has_one_owner hb hnil rfl).2.2.2 initproc [] [] _ t u hfair ht
  refine ⟨s,t,u,hb,ht,hu,(every_page_has_one_owner hb hfair ht).1.1,hlen,hnone,?_⟩
  rw [hback (by simpa using hnew) hu ⟨child,hnew,by rw [hzombie]; decide⟩
    fun q hq => (hgone q (List.mem_finRange q)).resolve_left (not_not.mpr hq)]
  exact hlen

end Accounts

end Xv6Container.Vm
