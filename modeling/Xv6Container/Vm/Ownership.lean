import Xv6Container.Vm.Files
import Xv6Container.Lib.Run

/-! # Every page has one owner -/

namespace Xv6Container.Vm

open Function Prog Set

/-- The pages that the allocator was given. -/
def frames (L : Layout) : Set ℕ := {f | L.kend ≤ f ∧ f < L.phystop}

/-- The directories in use. -/
def dirs (s : Sys) : Set ℕ :=
  {d | d = s.kpgdir ∨ ∃ p, (s.proc p).state ≠ .UNUSED ∧ (s.proc p).pgdir = some d}

/-- The pages in use outside of address spaces and pipes. -/
def base (s : Sys) : Set ℕ := {f | f ∈ s.kept ∨ ∃ p, (s.proc p).kstack = some f}

def ptrs (s : Sys) : PSlot × Fin NOFILE → Option FSlot := fun x => (s.proc x.1).ofile x.2

/-- What the process table says about pages. -/
structure Slots (s : Sys) : Prop where
  kept : s.kept.Nodup
  kstack_kept : ∀ p f, (s.proc p).kstack = some f → f ∉ s.kept
  kstack_inj : ∀ p q f, (s.proc p).kstack = some f → (s.proc q).kstack = some f → p = q
  dir_kernel : ∀ p, (s.proc p).state ≠ .UNUSED → (s.proc p).pgdir ≠ some s.kpgdir
  dir_inj : ∀ p q d, (s.proc p).state ≠ .UNUSED → (s.proc q).state ≠ .UNUSED →
    (s.proc p).pgdir = some d → (s.proc q).pgdir = some d → p = q
  used : ∀ p, (s.proc p).state ≠ .UNUSED → (∃ k, (s.proc p).kstack = some k) ∧
    ∃ d, (s.proc p).pgdir = some d ∧ (s.proc p).sz ≤ KERNBASE ∧ Maps s.mem d (s.proc p).sz
  unused : ∀ p, (s.proc p).state = .UNUSED → (s.proc p).kstack = none
  closed : ∀ p fd, (s.proc p).state ≠ .RUNNABLE → (s.proc p).ofile fd = none
  parent : ∀ p q, (s.proc p).parent = some q → (s.proc q).state = .RUNNABLE
  init : (s.proc initproc).state = .RUNNABLE
  kernel : Maps s.mem s.kpgdir 0

/-- Pages, processes and open files fit together; `xs` are references to open files in local
variables. -/
structure Inv (L : Layout) (xs : List FSlot) (s : Sys) : Prop where
  world : World (frames L) (dirs s) (base s) (ptrs s) xs s
  slots : Slots s

/-- The processes outside of `N`, their address spaces and the files they have open are what they
were, and so is what the kernel keeps. -/
structure Aside (N : Set PSlot) (s t : Sys) : Prop where
  kpgdir : t.kpgdir = s.kpgdir
  kept : t.kept = s.kept
  proc : ∀ q, q ∉ N → t.proc q = s.proc q
  keep : ∀ d, (d = s.kpgdir ∨ ∃ q, q ∉ N ∧ (s.proc q).state ≠ .UNUSED ∧
    (s.proc q).pgdir = some d) → Keep s.mem t.mem d
  files : ∀ q, q ∉ N → ∀ fd i, (s.proc q).ofile fd = some i →
    (t.file i).pipe = (s.file i).pipe ∧ (t.file i).writable = (s.file i).writable

/-- What slot `q` may contain beside the other slots. -/
structure Fits (t : Sys) (q : PSlot) : Prop where
  kstack : ∀ f, (t.proc q).kstack = some f →
    f ∉ t.kept ∧ ∀ r, r ≠ q → (t.proc r).kstack ≠ some f
  used : (t.proc q).state ≠ .UNUSED → (∃ k, (t.proc q).kstack = some k) ∧
    ∃ d, (t.proc q).pgdir = some d ∧ d ≠ t.kpgdir ∧
      (∀ r, r ≠ q → (t.proc r).state ≠ .UNUSED → (t.proc r).pgdir ≠ some d) ∧
      (t.proc q).sz ≤ KERNBASE ∧ Maps t.mem d (t.proc q).sz
  unused : (t.proc q).state = .UNUSED → (t.proc q).kstack = none
  closed : ∀ fd, (t.proc q).state ≠ .RUNNABLE → (t.proc q).ofile fd = none
  parent : ∀ r, (t.proc q).parent = some r → (t.proc r).state = .RUNNABLE
  alive : (t.proc q).state = .RUNNABLE ∨
    q ≠ initproc ∧ ∀ r, r ≠ q → (t.proc r).parent ≠ some q

section Ownership

variable {L : Layout} {s t u : Sys} {p q : PSlot} {d : ℕ} {N N' : Set PSlot} {xs : List FSlot}
  {E : Stop → Prop}

theorem frames_range : ∀ f ∈ frames L, L.kend ≤ f ∧ f < L.phystop := fun _ hf => hf

theorem mem_dirs (hp : (s.proc p).state ≠ .UNUSED) (hd : (s.proc p).pgdir = some d) : d ∈ dirs s :=
  .inr ⟨p,hp,hd⟩

theorem not_unused (hp : (s.proc p).state = .RUNNABLE) : (s.proc p).state ≠ .UNUSED := by
  rw [hp]
  simp

theorem World.congr {A D B : Set ℕ} {g : PSlot × Fin NOFILE → Option FSlot} {xs : List FSlot}
    (h : World A D B g xs s) (hm : t.mem = s.mem) (hf : t.file = s.file) (he : t.ends = s.ends) :
    World A D B g xs t := by
  refine ⟨?_,?_,?_,?_,?_,?_⟩
  · simpa only [PipePage,hm,hf] using h.sep
  · simpa only [PipePage,hf] using h.apart
  · simpa only [hf] using h.ref_eq
  · simpa only [hf] using h.free
  · simpa only [hf] using h.inj
  · simpa only [PipePage,hf,he] using h.ends

theorem Aside.refl (N : Set PSlot) (s : Sys) : Aside N s s :=
  ⟨rfl,rfl,fun _ _ => rfl,fun d _ => .refl _ d,fun _ _ _ _ _ => ⟨rfl,rfl⟩⟩

theorem Aside.trans (h : Aside N s t) (h' : Aside N t u) : Aside N s u := by
  refine ⟨h'.kpgdir.trans h.kpgdir,h'.kept.trans h.kept,
    fun q hq => (h'.proc q hq).trans (h.proc q hq),fun d hd => ?_,fun q hq fd i hi => ?_⟩
  · refine (h.keep d hd).trans (h'.keep d (hd.imp (fun e => e.trans h.kpgdir.symm) ?_))
    rintro ⟨q,hq,hu⟩
    exact ⟨q,hq,by rwa [h.proc q hq]⟩
  · have h1 := h.files q hq fd i hi
    have h2 := h'.files q hq fd i (by rwa [h.proc q hq])
    exact ⟨h2.1.trans h1.1,h2.2.trans h1.2⟩

theorem Aside.mono (h : Aside N s t) (hN : N ⊆ N') : Aside N' s t := by
  refine ⟨h.kpgdir,h.kept,fun q hq => h.proc q fun hq' => hq (hN hq'),fun d hd => h.keep d ?_,
    fun q hq => h.files q fun hq' => hq (hN hq')⟩
  exact hd.imp_right fun ⟨q,hq,hu⟩ => ⟨q,fun hq' => hq (hN hq'),hu⟩

theorem Slots.change (h : Slots s) (ha : Aside {q} s t) (hf : Fits t q) : Slots t := by
  have hsame : ∀ r, r ≠ q → t.proc r = s.proc r := fun r hr => ha.proc r hr
  refine ⟨ha.kept ▸ h.kept,fun r f hr => ?_,fun r r' f hr hr' => ?_,fun r hr hd => ?_,
    fun r r' d hr hr' hd hd' => ?_,fun r hr => ?_,fun r hr => ?_,fun r fd hr => ?_,
    fun r r' hr => ?_,?_,fun a hlt => ?_⟩
  · by_cases e : r = q
    · exact (hf.kstack f (e ▸ hr)).1
    · rw [hsame r e] at hr
      exact ha.kept ▸ h.kstack_kept r f hr
  · by_cases e : r = q
    · by_contra hne
      exact (hf.kstack f (e ▸ hr)).2 r' (fun e' => hne (e.trans e'.symm)) hr'
    · by_cases e' : r' = q
      · exact absurd hr ((hf.kstack f (e' ▸ hr')).2 r e)
      · rw [hsame r e] at hr
        rw [hsame r' e'] at hr'
        exact h.kstack_inj r r' f hr hr'
  · by_cases e : r = q
    · subst e
      obtain ⟨-,d,hd',hne,-⟩ := hf.used hr
      exact hne (Option.some.inj (hd'.symm.trans hd))
    · rw [hsame r e] at hr hd
      exact h.dir_kernel r hr (ha.kpgdir ▸ hd)
  · -- two used slots with one directory: neither can be the changed one
    have hq : ∀ r', r' ≠ q → (t.proc r').state ≠ .UNUSED → (t.proc q).state ≠ .UNUSED →
        (t.proc q).pgdir = some d → (t.proc r').pgdir ≠ some d := fun r' hne hu hq hd => by
      obtain ⟨-,d',hd',-,hother,-⟩ := hf.used hq
      obtain rfl := Option.some.inj (hd'.symm.trans hd)
      exact hother r' hne hu
    by_cases e : r = q
    · subst e
      by_contra hne
      exact hq r' (fun e' => hne e'.symm) hr' hr hd hd'
    · by_cases e' : r' = q
      · subst e'
        exact absurd hd (hq r e hr hr' hd')
      · rw [hsame r e] at hr hd
        rw [hsame r' e'] at hr' hd'
        exact h.dir_inj r r' d hr hr' hd hd'
  · by_cases e : r = q
    · subst e
      obtain ⟨hk,d,hd,-,-,hsz,hmaps⟩ := hf.used hr
      exact ⟨hk,d,hd,hsz,hmaps⟩
    · rw [hsame r e] at hr ⊢
      obtain ⟨hk,d,hd,hsz,hmaps⟩ := h.used r hr
      refine ⟨hk,d,hd,hsz,fun a ha' => ?_⟩
      rw [(ha.keep d (.inr ⟨r,e,hr,hd⟩)).entry]
      exact hmaps a ha'
  · by_cases e : r = q
    · subst e
      exact hf.unused hr
    · rw [hsame r e] at hr ⊢
      exact h.unused r hr
  · by_cases e : r = q
    · subst e
      exact hf.closed fd hr
    · rw [hsame r e] at hr ⊢
      exact h.closed r fd hr
  · by_cases e : r = q
    · subst e
      exact hf.parent r' hr
    · by_cases e' : r' = q
      · subst e'
        exact hf.alive.resolve_right fun hx => hx.2 r e hr
      · rw [hsame r e] at hr
        rw [hsame r' e']
        exact h.parent r r' hr
  · by_cases e : initproc = q
    · rw [e]
      exact hf.alive.resolve_right fun hx => hx.1 e.symm
    · rw [hsame _ e]
      exact h.init
  · rw [ha.kpgdir,(ha.keep s.kpgdir (.inl rfl)).entry]
    exact h.kernel a hlt

theorem Slots.fits (h : Slots s) (ha : Aside {p} s t) (hp : (s.proc p).state = .RUNNABLE)
    (hstate : (t.proc p).state = (s.proc p).state) (hstack : (t.proc p).kstack = (s.proc p).kstack)
    (hpar : (t.proc p).parent = (s.proc p).parent)
    (hspace : ∃ d, (t.proc p).pgdir = some d ∧ d ≠ s.kpgdir ∧
      (∀ r, r ≠ p → (s.proc r).state ≠ .UNUSED → (s.proc r).pgdir ≠ some d) ∧
      (t.proc p).sz ≤ KERNBASE ∧ Maps t.mem d (t.proc p).sz) : Fits t p := by
  have hrun : (t.proc p).state = .RUNNABLE := hstate.trans hp
  have hsame : ∀ r, r ≠ p → t.proc r = s.proc r := fun r hr => ha.proc r hr
  refine ⟨fun f hf => ?_,fun _ => ?_,fun hu => ?_,fun fd hne => absurd hrun hne,fun r hr => ?_,
    .inl hrun⟩
  · rw [hstack] at hf
    refine ⟨ha.kept ▸ h.kstack_kept p f hf,fun r hr hrf => hr ?_⟩
    rw [hsame r hr] at hrf
    exact h.kstack_inj r p f hrf hf
  · obtain ⟨d,hd,hker,hother,hmaps⟩ := hspace
    refine ⟨hstack ▸ (h.used p (not_unused hp)).1,d,hd,ha.kpgdir ▸ hker,fun r hr hu => ?_,hmaps⟩
    rw [hsame r hr] at hu ⊢
    exact hother r hr hu
  · rw [hrun] at hu
    cases hu
  · rw [hpar] at hr
    by_cases e : r = p
    · rw [e,hrun]
    · rw [hsame r e]
      exact h.parent p r hr

theorem Slots.dir_alone (h : Slots s) (hp : (s.proc p).state ≠ .UNUSED)
    (hd : (s.proc p).pgdir = some d) : d ≠ s.kpgdir ∧
      ∀ r, r ≠ p → (s.proc r).state ≠ .UNUSED → (s.proc r).pgdir ≠ some d :=
  ⟨fun e => h.dir_kernel p hp (by rw [hd,e]),fun r hr hu hrd => hr (h.dir_inj r p d hu hp hrd hd)⟩

theorem mem_dirs_change (ha : Aside {q} s t) : d ∈ dirs t ↔
    ((t.proc q).state ≠ .UNUSED ∧ (t.proc q).pgdir = some d) ∨ d = s.kpgdir ∨
      ∃ r, r ≠ q ∧ (s.proc r).state ≠ .UNUSED ∧ (s.proc r).pgdir = some d := by
  have hsame : ∀ r, r ≠ q → t.proc r = s.proc r := fun r hr => ha.proc r hr
  constructor
  · rintro (hd | ⟨r,hr⟩)
    · exact .inr (.inl (hd.trans ha.kpgdir))
    · by_cases e : r = q
      · exact .inl (e ▸ hr)
      · exact .inr (.inr ⟨r,e,by rwa [hsame r e] at hr⟩)
  · rintro (hq | hd | ⟨r,e,hr⟩)
    · exact .inr ⟨q,hq⟩
    · exact .inl (hd.trans ha.kpgdir.symm)
    · exact .inr ⟨r,by rwa [hsame r e]⟩

theorem Slots.mem_dirs_others (h : Slots s) {old : ℕ} (hp : (s.proc p).state ≠ .UNUSED)
    (hold : (s.proc p).pgdir = some old) :
    (d = s.kpgdir ∨ ∃ r, r ≠ p ∧ (s.proc r).state ≠ .UNUSED ∧ (s.proc r).pgdir = some d) ↔
      d ∈ dirs s \ {old} := by
  obtain ⟨hker,hother⟩ := h.dir_alone hp hold
  constructor
  · rintro (rfl | ⟨r,hr,hu,hd⟩)
    · exact ⟨.inl rfl,hker.symm⟩
    · exact ⟨mem_dirs hu hd,fun e => hother r hr hu (by rw [hd,e])⟩
  · rintro ⟨rfl | ⟨r,hu,hd⟩,hne⟩
    · exact .inl rfl
    · refine .inr ⟨r,?_,hu,hd⟩
      rintro rfl
      exact hne (Option.some.inj (hd.symm.trans hold))

theorem mem_base_change (ha : Aside {q} s t) {f : ℕ} : f ∈ base t ↔
    (t.proc q).kstack = some f ∨ f ∈ s.kept ∨ ∃ r, r ≠ q ∧ (s.proc r).kstack = some f := by
  have hsame : ∀ r, r ≠ q → t.proc r = s.proc r := fun r hr => ha.proc r hr
  constructor
  · rintro (hf | ⟨r,hr⟩)
    · exact .inr (.inl (ha.kept ▸ hf))
    · by_cases e : r = q
      · exact .inl (e ▸ hr)
      · exact .inr (.inr ⟨r,e,by rwa [hsame r e] at hr⟩)
  · rintro (hq | hf | ⟨r,e,hr⟩)
    · exact .inr ⟨q,hq⟩
    · exact .inl (ha.kept.symm ▸ hf)
    · exact .inr ⟨r,by rwa [hsame r e]⟩

theorem dirs_same (ha : Aside {q} s t) (hs : (t.proc q).state = (s.proc q).state)
    (hd : (t.proc q).pgdir = (s.proc q).pgdir) : dirs t = dirs s := by
  ext d
  rw [mem_dirs_change ha,mem_dirs_change (.refl {q} s),hs,hd]

theorem base_same (ha : Aside {q} s t) (hk : (t.proc q).kstack = (s.proc q).kstack) :
    base t = base s := by
  ext f
  rw [mem_base_change ha,mem_base_change (.refl {q} s),hk]

theorem Inv.replace (h : Inv L xs s) (hp : (s.proc p).state = .RUNNABLE) {old sz : ℕ} {r : Ram}
    (hold : (s.proc p).pgdir = some old) (hd : d ∉ dirs s \ {old})
    (hsep : Sep (frames L) r.mem (insert d (dirs s \ {old})) (base s ∪ {f | PipePage s f}))
    (hk : ∀ d' ∈ dirs s \ {old}, Keep s.mem r.mem d') (hsz : sz ≤ KERNBASE)
    (hmaps : Maps r.mem d sz) :
    Inv L xs { s with
      ram := r, proc := update s.proc p { s.proc p with pgdir := some d, sz := sz } } ∧
    Aside {p} s { s with
      ram := r, proc := update s.proc p { s.proc p with pgdir := some d, sz := sz } } := by
  obtain ⟨t,ht⟩ : ∃ t, t = { s with
    ram := r, proc := update s.proc p { s.proc p with pgdir := some d, sz := sz } } :=
    ⟨_,rfl⟩
  have hproc : t.proc p = { s.proc p with pgdir := some d, sz := sz } := by
    rw [ht]
    exact update_self ..
  have ha : Aside {p} s t := by
    subst ht
    refine ⟨rfl,rfl,fun q hq => update_of_ne hq _ _,fun d' hd' => hk d' ?_,
      fun _ _ _ _ _ => ⟨rfl,rfl⟩⟩
    exact (h.slots.mem_dirs_others (not_unused hp) hold).mp hd'
  have hptrs : ptrs t = ptrs s := by
    funext x
    by_cases hx : x.1 = p
    · simp only [ptrs,hx,hproc]
    · simp only [ptrs,ha.proc x.1 hx]
  have hdirs : dirs t = insert d (dirs s \ {old}) := by
    ext d'
    rw [mem_dirs_change ha,h.slots.mem_dirs_others (not_unused hp) hold,hproc,mem_insert_iff]
    simp only [not_unused hp,ne_eq,not_false_eq_true,true_and,Option.some.injEq,eq_comm]
  rw [← ht]
  refine ⟨⟨?_,h.slots.change ha (h.slots.fits ha hp ?_ ?_ ?_ ⟨d,?_,?_,?_,?_⟩)⟩,ha⟩
  · rw [hdirs,base_same ha (by rw [hproc]),hptrs]
    subst ht
    exact (h.world.setRam h.world.apart hsep).congr rfl rfl rfl
  · rw [hproc]
  · rw [hproc]
  · rw [hproc]
  · rw [hproc]
  · exact fun e => hd ((h.slots.mem_dirs_others (not_unused hp) hold).mp (.inl e))
  · exact fun r hr hu hrd =>
      hd ((h.slots.mem_dirs_others (not_unused hp) hold).mp (.inr ⟨r,hr,hu,hrd⟩))
  · rw [hproc]
    subst ht
    exact ⟨hsz,hmaps⟩

theorem Inv.resize (h : Inv L xs s) (hp : (s.proc p).state = .RUNNABLE)
    (hd : (s.proc p).pgdir = some d) {r : Ram} {sz : ℕ}
    (hsep : Sep (frames L) r.mem (dirs s) (base s ∪ {f | PipePage s f}))
    (hk : KeepBut s.mem r.mem (dirs s) d) (hsz : sz ≤ KERNBASE) (hmaps : Maps r.mem d sz) :
    Inv L xs { s with ram := r, proc := update s.proc p { s.proc p with sz := sz } } ∧
    Aside {p} s
      { s with ram := r, proc := update s.proc p { s.proc p with sz := sz } } := by
  have hsame : { s.proc p with pgdir := some d,sz := sz } = { s.proc p with sz := sz } := by
    rw [← hd]
  rw [← hsame]
  refine h.replace hp hd (fun hmem => hmem.2 rfl) ?_ (fun d' hd' => hk d' hd'.1 hd'.2) hsz hmaps
  rwa [insert_sdiff_singleton,insert_eq_of_mem (mem_dirs (not_unused hp) hd)]

theorem Inv.setSpace (h : Inv L xs s) (hp : (s.proc p).state = .RUNNABLE)
    (hd : (s.proc p).pgdir = some d) {r : Ram}
    (hsep : Sep (frames L) r.mem (dirs s) (base s ∪ {f | PipePage s f}))
    (hk : KeepBut s.mem r.mem (dirs s) d) (hmaps : Maps r.mem d (s.proc p).sz) :
    Inv L xs { s with ram := r } ∧ Aside {p} s { s with ram := r } := by
  obtain ⟨-,d',hd',hsz,-⟩ := h.slots.used p (not_unused hp)
  have hres := h.resize hp hd hsep hk hsz hmaps
  rwa [update_eq_self] at hres

theorem Inv.growproc (h : Inv L xs s) (hp : (s.proc p).state = .RUNNABLE) {n : Int32}
    (hn : 0 < ((s.proc p).sz : ℤ) + n.toInt) :
    wp E (growproc L p n) s fun _ t => Inv L xs t ∧ Aside {p} s t := by
  obtain ⟨-,d,hd,hsz,hmaps⟩ := h.slots.used p (not_unused hp)
  have hdD : d ∈ dirs s := mem_dirs (not_unused hp) hd
  rw [Vm.growproc,pgdirOf]
  simp only [wp_bind,wp_read,hd,wp_pure]
  refine wp_ite (fun hpos => ?_) fun hnpos => wp_ite (fun hneg => ?_) fun _ => ⟨h,.refl _ s⟩
  · rw [wp_bind,wp_onRam]
    refine (wp_allocuvm_maps frames_range hsz h.world.sep hdD hmaps).mono ?_
    rintro v r ⟨hsep,hk,-,hres⟩
    refine wp_resize (fun hr => ?_) fun hr => ?_
    · rcases hres with ⟨hmax,-,hmaps'⟩ | ⟨-,hmaps'⟩
      · have hz : (s.proc p).sz = v := by omega
        exact h.setSpace hp hd hsep hk (hz ▸ hmaps')
      · exact h.setSpace hp hd hsep hk hmaps'
    · obtain ⟨-,hle,hmaps'⟩ := hres.resolve_right fun hx => hr hx.1
      exact h.resize hp hd hsep hk hle hmaps'
  -- the new size is positive and smaller, so nothing wraps around
  have hnew : ((((s.proc p).sz : ℤ) + n.toInt) % 2 ^ 32).toNat =
      (((s.proc p).sz : ℤ) + n.toInt).toNat := by
    rw [Int.emod_eq_of_lt (by omega)]
    simp only [KERNBASE,KERNPAGE,PGSIZE] at hsz
    omega
  rw [wp_bind,wp_onMem,hnew]
  obtain ⟨newsz,hnewsz⟩ : ∃ k, (((s.proc p).sz : ℤ) + n.toInt).toNat = k := ⟨_,rfl⟩
  rw [hnewsz]
  refine (wp_deallocuvm frames_range hsz h.world.sep hdD).mono ?_
  rintro r m ⟨hr,hsep,hk,-,hsame,hgone⟩
  have hrn : r = newsz := by omega
  refine wp_resize (fun hz => by omega) fun _ => ?_
  refine h.resize hp hd hsep hk (by omega) fun a ha => ?_
  rw [hrn]
  by_cases hlow : a < pgup newsz
  · rw [hsame a (.inl hlow),hmaps a ha,iff_true_right hlow]
    rw [lt_pgup_iff] at hlow ⊢
    omega
  · refine iff_of_false ?_ hlow
    by_cases hmid : a < pgup (s.proc p).sz
    · rw [hgone a (by omega) hmid]
      simp
    · rw [hsame a (.inr (by omega)),hmaps a ha]
      exact hmid

theorem Inv.sbrk (h : Inv L xs s) (hp : (s.proc p).state = .RUNNABLE) {n : Int32}
    (hn : 0 < ((s.proc p).sz : ℤ) + n.toInt) :
    wp E (do let _ ← sysSbrk L p n) s fun _ t => Inv L xs t ∧ Aside {p} s t := by
  rw [sysSbrk]
  simp only [wp_bind,wp_read]
  exact (h.growproc hp hn).mono fun v t ht => wp_ite (fun _ => ht) fun _ => ht

theorem World.release {A D B : Set ℕ} {g : PSlot × Fin NOFILE → Option FSlot} {i : FSlot}
    {x : PSlot × Fin NOFILE} (h : World A D B g xs s) (hx : g x = some i) :
    World A D B (update g x none) (i :: xs) s := by
  refine ⟨h.sep,h.apart,fun j => ?_,h.free,h.inj,h.ends⟩
  have hclear := tally_clear (a := j) hx
  rw [h.ref_eq j,← hclear,List.count_cons]
  simp only [beq_iff_eq]
  omega

theorem World.store {A D B : Set ℕ} {g : PSlot × Fin NOFILE → Option FSlot} {i : FSlot}
    {x : PSlot × Fin NOFILE} (h : World A D B g (i :: xs) s) (hx : g x = none) :
    World A D B (update g x (some i)) xs s := by
  refine ⟨h.sep,h.apart,fun j => ?_,h.free,h.inj,h.ends⟩
  rw [h.ref_eq j,tally_fill hx,List.count_cons]
  simp only [beq_iff_eq]
  omega

/-- The state after `proc->ofile[fd] = o` for process `p`. -/
def setFd (s : Sys) (p : PSlot) (fd : Fin NOFILE) (o : Option FSlot) : Sys :=
  { s with
    proc := update s.proc p
      { s.proc p with ofile := update (s.proc p).ofile fd o } }

variable {fd : Fin NOFILE} {o : Option FSlot} {i : FSlot}

theorem setFd_self : (setFd s p fd o).proc p =
    { s.proc p with ofile := update (s.proc p).ofile fd o } :=
  update_self ..

theorem setFd_aside (s : Sys) (p : PSlot) (fd : Fin NOFILE) (o : Option FSlot) :
    Aside {p} s (setFd s p fd o) :=
  ⟨rfl,rfl,fun _ hq => update_of_ne hq _ _,fun d _ => .refl _ d,
    fun _ _ _ _ _ => ⟨rfl,rfl⟩⟩

theorem ptrs_setFd : ptrs (setFd s p fd o) = update (ptrs s) (p, fd) o := by
  funext x
  obtain ⟨q,fd'⟩ := x
  by_cases hq : q = p
  · subst hq
    simp only [ptrs,setFd_self,update_apply,Prod.mk.injEq,true_and]
  · rw [update_of_ne (by simp [hq]),ptrs,ptrs,(setFd_aside s p fd o).proc q hq]

theorem dirs_setFd : dirs (setFd s p fd o) = dirs s :=
  dirs_same (setFd_aside s p fd o) (by rw [setFd_self]) (by rw [setFd_self])

theorem base_setFd : base (setFd s p fd o) = base s :=
  base_same (setFd_aside s p fd o) (by rw [setFd_self])

theorem Slots.setFd (h : Slots s) (hp : (s.proc p).state = .RUNNABLE) (fd : Fin NOFILE)
    (o : Option FSlot) : Slots (setFd s p fd o) := by
  obtain ⟨-,d,hd,hsz,hmaps⟩ := h.used p (not_unused hp)
  have halone := h.dir_alone (not_unused hp) hd
  refine h.change (setFd_aside s p fd o) (h.fits (setFd_aside s p fd o) hp ?_ ?_ ?_
    ⟨d,?_,halone.1,halone.2,?_⟩)
  · rw [setFd_self]
  · rw [setFd_self]
  · rw [setFd_self]
  · rw [setFd_self,hd]
  · rw [setFd_self]
    exact ⟨hsz,hmaps⟩

theorem Inv.setFd (h : Slots s) (hp : (s.proc p).state = .RUNNABLE)
    (hw : World (frames L) (dirs s) (base s) (update (ptrs s) (p, fd) o) xs s) :
    Inv L xs (setFd s p fd o) := by
  refine ⟨?_,h.setFd hp fd o⟩
  rw [dirs_setFd,base_setFd,ptrs_setFd]
  exact hw.congr rfl rfl rfl

theorem Inv.clearFd (h : Inv L xs s) (hp : (s.proc p).state = .RUNNABLE)
    (hi : (s.proc p).ofile fd = some i) : Inv L (i :: xs) (Vm.setFd s p fd none) :=
  .setFd h.slots hp (h.world.release hi)

theorem Inv.storeFd (h : Inv L (i :: xs) s) (hp : (s.proc p).state = .RUNNABLE)
    (hi : (s.proc p).ofile fd = none) : Inv L xs (Vm.setFd s p fd (some i)) :=
  .setFd h.slots hp (h.world.store hi)

theorem Slots.still (h : Slots s) (hst : Still (dirs s) s t) : Slots t := by
  obtain ⟨hproc,hkpgdir,hkept,hkeep⟩ := hst
  refine ⟨hkept ▸ h.kept,?_,?_,?_,?_,fun q hq => ?_,?_,?_,?_,?_,fun a hlt => ?_⟩
  · simpa only [hproc,hkept] using h.kstack_kept
  · simpa only [hproc] using h.kstack_inj
  · simpa only [hproc,hkpgdir] using h.dir_kernel
  · simpa only [hproc] using h.dir_inj
  · rw [hproc] at hq ⊢
    obtain ⟨hk,d,hd,hsz,hmaps⟩ := h.used q hq
    refine ⟨hk,d,hd,hsz,fun a ha => ?_⟩
    rw [(hkeep d (mem_dirs hq hd)).entry]
    exact hmaps a ha
  · simpa only [hproc] using h.unused
  · simpa only [hproc] using h.closed
  · simpa only [hproc] using h.parent
  · simpa only [hproc] using h.init
  · rw [hkpgdir,(hkeep s.kpgdir (.inl rfl)).entry]
    exact h.kernel a hlt

theorem dirs_still {D : Set ℕ} (hst : Still D s t) : dirs t = dirs s := by
  simp only [dirs,hst.proc,hst.kpgdir]

theorem base_still {D : Set ℕ} (hst : Still D s t) : base t = base s := by
  simp only [base,hst.proc,hst.kept]

theorem ptrs_still {D : Set ℕ} (hst : Still D s t) : ptrs t = ptrs s := by
  funext x
  simp only [ptrs,hst.proc]

theorem Inv.still {ys : List FSlot} (h : Inv L xs s) (hst : Still (dirs s) s t)
    (hw : World (frames L) (dirs s) (base s) (ptrs s) ys t) : Inv L ys t := by
  refine ⟨?_,h.slots.still hst⟩
  rw [dirs_still hst,base_still hst,ptrs_still hst]
  exact hw

theorem Aside.of_still {g : PSlot × Fin NOFILE → Option FSlot} (hst : Still (dirs s) s t)
    (hf : FilesKeep g s t) (hg : ∀ q, q ∉ N → ∀ fd, g (q, fd) = (s.proc q).ofile fd) :
    Aside N s t := by
  refine ⟨hst.kpgdir,hst.kept,fun q _ => by rw [hst.proc],fun d hd => hst.keep d ?_,
    fun q hq fd i hi => hf i (tally_pos.mpr ⟨(q, fd),(hg q hq fd).trans hi⟩)⟩
  exact hd.imp_right fun ⟨q,_,hq⟩ => ⟨q,hq⟩

theorem Inv.fileclose (h : Inv L (i :: xs) s) :
    wp E (fileclose L i) s fun _ t => Inv L xs t ∧ t.proc = s.proc ∧ Aside ∅ s t := by
  refine (wp_fileclose frames_range h.world).mono ?_
  rintro - t ⟨hw,hst,hf⟩
  exact ⟨h.still hst hw,hst.proc,.of_still hst hf fun _ _ _ => rfl⟩

theorem Inv.close (h : Inv L [] s) (hp : (s.proc p).state = .RUNNABLE) (fd : Fin NOFILE) :
    wp E (sysClose L p fd) s fun _ t => Inv L [] t ∧ Aside {p} s t := by
  rw [sysClose,wp_bind,wp_read]
  cases hi : (s.proc p).ofile fd with
  | none => exact ⟨h,.refl _ s⟩
  | some i =>
    simp only [setOfile,setProc,wp_bind,wp_modify]
    refine (h.clearFd hp hi).fileclose.mono ?_
    rintro - t ⟨ht,-,ha⟩
    exact ⟨ht,(setFd_aside s p fd none).trans (ha.mono (empty_subset _))⟩

theorem Inv.fdalloc (h : Inv L (i :: xs) s) (hp : (s.proc p).state = .RUNNABLE) :
    wp E (fdalloc p i) s fun r t => (r = none → t = s) ∧ Aside {p} s t ∧
      (t.proc p).state = .RUNNABLE ∧
      ∀ fd, r = some fd → Inv L xs t ∧ (t.proc p).ofile fd = some i := by
  rw [Vm.fdalloc,wp_bind,wp_read]
  cases hfind : (List.finRange NOFILE).find? fun fd => (s.proc p).ofile fd = none with
  | none => exact ⟨fun _ => rfl,.refl _ s,hp,by simp⟩
  | some fd =>
    have hfree : (s.proc p).ofile fd = none := by simpa using List.find?_some hfind
    simp only [setOfile,setProc,wp_bind,wp_modify,wp_pure]
    refine ⟨by simp,setFd_aside s p fd (some i),?_,fun fd' hfd => ?_⟩
    · rw [update_self]
      exact hp
    · cases hfd
      refine ⟨h.storeFd hp hfree,?_⟩
      rw [update_self]
      exact update_self ..

theorem Inv.closeTwo {j : FSlot} (h : Inv L [i, j] s) : wp E (do Vm.fileclose L i; Vm.fileclose L j) s
    fun _ t => Inv L [] t ∧ Aside ∅ s t := by
  refine h.fileclose.bind ?_
  rintro - t ⟨ht,-,ha⟩
  refine ht.fileclose.mono ?_
  rintro - u ⟨hu,-,ha'⟩
  exact ⟨hu,ha.trans ha'⟩

theorem Inv.pipe (h : Inv L [] s) (hp : (s.proc p).state = .RUNNABLE) :
    wp E (sysPipe L p) s fun _ t => Inv L [] t ∧ Aside {p} s t := by
  rw [sysPipe]
  refine (wp_pipealloc frames_range h.world).bind ?_
  rintro (_ | ⟨rf,wf⟩) s₁ ⟨hst,hfk,hnone,hsome⟩
  · exact ⟨h.still hst (hnone rfl),.of_still hst hfk fun _ _ _ => rfl⟩
  have h1 : Inv L [rf,wf] s₁ := h.still hst (hsome rf wf rfl)
  have ha1 : Aside {p} s s₁ := .of_still hst hfk fun _ _ _ => rfl
  have hp1 : (s₁.proc p).state = .RUNNABLE := by rw [hst.proc,hp]
  refine (h1.fdalloc hp1).bind ?_
  rintro (_ | fd0) s₂ ⟨hnone2,ha2,hp2,hsome2⟩
  · rw [hnone2 rfl]
    refine h1.closeTwo.mono ?_
    rintro - t ⟨ht,ha⟩
    exact ⟨ht,ha1.trans (ha.mono (empty_subset _))⟩
  obtain ⟨h2,hfd0⟩ := hsome2 fd0 rfl
  refine (h2.fdalloc hp2).bind ?_
  rintro (_ | fd1) s3 ⟨hnone3,ha3,-,hsome3⟩
  · rw [hnone3 rfl]
    simp only [setOfile,setProc,wp_bind,wp_modify]
    refine (wp_bind.mp (h2.clearFd hp2 hfd0).closeTwo).mono ?_
    rintro - t ht
    refine ht.mono ?_
    rintro - u ⟨hu,ha⟩
    exact ⟨hu,((ha1.trans ha2).trans (setFd_aside s₂ p fd0 none)).trans (ha.mono (empty_subset _))⟩
  · exact ⟨(hsome3 fd1 rfl).1,(ha1.trans ha2).trans ha3⟩

theorem Inv.exec (h : Inv L [] s) (hp : (s.proc p).state = .RUNNABLE) {good : Bool}
    {sgs : List (Option Seg)} {argv : List (List UInt8)} (hshort : ShortArgs sgs argv) :
    wp E (exec L p good sgs argv) s fun _ t => Inv L [] t ∧ Aside {p} s t := by
  obtain ⟨-,old,hold,-⟩ := h.slots.used p (not_unused hp)
  have holdD : old ∈ dirs s := mem_dirs (not_unused hp) hold
  rw [Vm.exec,wp_bind,wp_onRam]
  refine (wp_execImage frames_range hshort h.world.sep).mono ?_
  rintro (_ | ⟨d,sz,sp⟩) r ⟨hk,-,hnone,hsome,-⟩
  · have hst : Still (dirs s) s { s with ram := r } := ⟨rfl,rfl,rfl,hk⟩
    exact ⟨h.still hst (h.world.setRam h.world.apart (hnone rfl)),
      .of_still hst (.refl (ptrs s) s) fun _ _ _ => rfl⟩
  obtain ⟨hd,hsep,hready⟩ := hsome d sz sp rfl
  have hdne : d ≠ old := fun e => hd (e ▸ holdD)
  have hsplit : insert d (dirs s) = insert old (insert d (dirs s \ {old})) := by
    rw [insert_comm,insert_sdiff_singleton,insert_eq_of_mem holdD]
  have hnot : old ∉ insert d (dirs s \ {old}) := by
    rintro (e | he)
    · exact hdne e.symm
    · exact he.2 rfl
  rw [hsplit] at hsep
  simp only [pgdirOf,setProc,wp_onMem,wp_bind,wp_read,hold,wp_pure,wp_modify]
  refine (wp_freevm frames_range hsep hnot).mono ?_
  rintro - m' ⟨hsep',hk'⟩
  refine h.replace hp hold (fun hmem => hd hmem.1) hsep' (fun d' hd' => ?_) hready.le fun a ha => ?_
  · exact (hk d' hd'.1).trans (hk' d' (.inr hd'))
  · rw [(hk' d (mem_insert _ _)).entry]
    exact hready.maps a ha

end Ownership

end Xv6Container.Vm
