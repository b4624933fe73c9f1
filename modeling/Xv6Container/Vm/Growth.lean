import Xv6Container.Vm.System

/-! # Growing, shrinking and copying an address space -/

namespace Xv6Container.Vm

open Prog Set

/-- The entry that maps page `a` of an address space, if there is one. -/
def userMap (m : Mem) (d a : ℕ) : Option Pte :=
  if (entry m d a).present then some (entry m d a) else none

theorem userMap_congr {m m' : Mem} {d a : ℕ} (h : entry m' d a = entry m d a) :
    userMap m' d a = userMap m d a := by
  rw [userMap,userMap,h]

theorem userMap_eq_none {m : Mem} {d a : ℕ} :
    userMap m d a = none ↔ (entry m d a).present = false := by
  rw [userMap]
  split
  · next h => simp [h]
  · next h => simpa using h

/-- The mapping of `d` has gained the pages from `PGROUNDUP(oldsz)` up to `newsz`, each with a page
of its own that was free and is now zero, for users and writable. -/
structure Grown (r r' : Ram) (d oldsz newsz : ℕ) : Prop where
  others : ∀ b, b < pgup oldsz ∨ newsz ≤ b * PGSIZE → entry r'.mem d b = entry r.mem d b
  gained : ∀ b, pgup oldsz ≤ b → b * PGSIZE < newsz →
    ∃ f ∈ r.mem.freelist, entry r'.mem d b = ⟨f, true, true, true⟩ ∧ r'.data f = .zero
  distinct : ∀ b b', pgup oldsz ≤ b → b * PGSIZE < newsz → pgup oldsz ≤ b' → b' * PGSIZE < newsz →
    (entry r'.mem d b).frame = (entry r'.mem d b').frame → b = b'

/-- The mapping of `d` is as it was, and every page that was free is free again or an empty page
table of `d`. -/
structure RolledBack (m m' : Mem) (d : ℕ) : Prop where
  mapping : ∀ b, b < KERNPAGE → userMap m' d b = userMap m d b
  returned : ∀ f ∈ m.freelist, f ∈ m'.freelist ∨ ∃ i, table m d i = none ∧ table m' d i = some f ∧
    ∀ b, b / NPTENTRIES = i → (entry m' d b).present = false

section Allocuvm

variable {L : Layout} {A D R : Set ℕ} {m m' : Mem} {r r' : Ram} {d oldsz newsz : ℕ}

theorem Gained.grown (hg : Gained r r' d (pgup oldsz) (pgup newsz)) (hnew : newsz ≤ KERNBASE)
    (h' : Sep A r'.mem D R) (hd : d ∈ D) : Grown r r' d oldsz newsz := by
  have htop := pgup_le_kernpage hnew
  have hspot : ∀ b, pgup oldsz ≤ b → b*PGSIZE < newsz →
      spot r'.mem d (.user b) = some (entry r'.mem d b).frame := by
    intro b hb hb'
    rw [← lt_pgup_iff] at hb'
    obtain ⟨f,-,hef,-⟩ := hg.inside b hb hb'
    exact spot_user (by omega) (by rw [hef])
  refine ⟨fun b hb => hg.outside b ?_,fun b hb hb' => hg.inside b hb (lt_pgup_iff.mpr hb'),?_⟩
  · rwa [pgup_le_iff]
  · intro b b' hb hb1 hb' hb'1 he
    have hsame := hspot b hb hb1
    rw [he] at hsame
    have := (h'.spot_inj hd hd hsame (hspot b' hb' hb'1)).2
    cases this
    rfl

theorem Emptied.rolledBack (he : Emptied m m' d (pgup oldsz) KERNPAGE) (h : Sep A m D R)
    (h' : Sep A m' D R) (hd : d ∈ D) (hbut : KeepBut m m' D d) (hstay : TablesStay m m' d)
    (habs : ∀ b, pgup oldsz ≤ b → b < KERNPAGE → (entry m d b).present = false) :
    RolledBack m m' d := by
  refine ⟨fun b hb => ?_,fun f hf => ?_⟩
  · by_cases hlow : b < pgup oldsz
    · exact userMap_congr (he.outside b (.inl hlow))
    · rw [userMap_eq_none.mpr (he.inside b (by omega) hb),
        userMap_eq_none.mpr (habs b (by omega) hb)]
  obtain ⟨l,hl⟩ := h'.sole.cover f (h.sole.only .free f hf)
  cases l with
  | free => exact .inl hl
  | rest => exact absurd hf (h.rest_not_free hl)
  | spot d' x =>
    obtain ⟨hd',hx⟩ := hl
    by_cases hdd : d' = d
    · subst hdd
      cases x with
      | dir => exact absurd hx (h.free_ne_spot hf hd' .dir)
      | table i =>
        cases hold : table m d' i with
        | some t =>
          have ht : t = f := Option.some.inj ((hstay i t hold).symm.trans hx)
          exact absurd (ht ▸ hold) (h.free_ne_spot hf hd' (.table i))
        | none =>
          refine .inr ⟨i,hold,hx,fun b hb => ?_⟩
          by_cases hin : pgup oldsz ≤ b ∧ b < KERNPAGE
          · exact he.inside b hin.1 hin.2
          · rw [he.outside b (by omega),entry_none (by rw [hb]; exact hold)]
            rfl
      | user b =>
        rw [spot] at hx
        split at hx
        · next hb =>
          have hlow : b < pgup oldsz := by
            by_contra hge
            rw [he.inside b (by omega) hb.1] at hb
            cases hb.2
          rw [he.outside b (.inl hlow)] at hb hx
          rw [← spot_user hb.1 hb.2] at hx
          exact absurd hx (h.free_ne_spot hf hd' _)
        · cases hx
    · rw [(hbut d' hd' hdd).spot] at hx
      exact absurd hx (h.free_ne_spot hf hd' x)

/-- The pages that `allocuvm` asks for. -/
def growPages (m : Mem) (d oldsz newsz : ℕ) : ℕ :=
  pgup newsz - pgup oldsz + missing m d (dirEntries (pgup oldsz) (pgup newsz - pgup oldsz))

/-- `allocuvm` grows the mapping exactly; or one of its calls of `kalloc` fails, and it returns 0
and takes everything back. -/
theorem allocuvm_grows_or_rolls_back (hA : ∀ f ∈ A, L.kend ≤ f ∧ f < L.phystop)
    (h : Sep A r.mem D R) (hd : d ∈ D) (hle : oldsz ≤ newsz) (hlt : newsz < KERNBASE)
    (habs : ∀ b, pgup oldsz ≤ b → b < KERNPAGE → (entry r.mem d b).present = false) :
    wp (fun _ => False) (allocuvm L d oldsz newsz) r fun v r' =>
      v = newsz ∧ Grown r r' d oldsz newsz ∧ r.mem.Grants (growPages r.mem d oldsz newsz) ∨
      v = 0 ∧ RolledBack r.mem r'.mem d ∧ ¬r.mem.Grants (growPages r.mem d oldsz newsz) := by
  refine (wp_allocuvm hA h hd habs).mono ?_
  rintro v r' ⟨h',hbut,hstay,-,hres⟩
  rw [Nat.max_eq_right hle] at hres
  rcases hres with ⟨rfl,-,hgain,hdraw⟩ | ⟨hv,hempty,hdraw⟩
  · exact .inl ⟨rfl,hgain.grown hlt.le h' hd,(Draws.iff hdraw).mp trivial⟩
  · exact .inr ⟨hv,hempty.rolledBack h h' hd hbut hstay habs,(Draws.iff (hdraw hlt)).mpr⟩

/-- The layout with the kernel's data at page 512 and its end at page 768. -/
def sample : Layout := .xv6 512 768 (by decide) (by decide) (by decide)

def plot : Set ℕ := {f | 1024 ≤ f ∧ f < 1028}

def cleared (fl : List ℕ) : Mem := ⟨fl, fun _ _ => .zero, []⟩

theorem plot_range : ∀ f ∈ plot, sample.kend ≤ f ∧ f < sample.phystop := by
  intro f hf
  exact ⟨le_trans (by decide) hf.1,lt_trans hf.2 (by decide)⟩

theorem sep_cleared {fl : List ℕ} (hnodup : fl.Nodup) (hfl : ∀ f ∈ fl, f ∈ A) :
    Sep A (cleared fl) ∅ (A \ {f | f ∈ fl}) := by
  refine ⟨hnodup,fun f hf => ?_,fun l f hl => ?_,fun l l' f hl hl' => ?_⟩
  · by_cases hfree : f ∈ fl
    · exact ⟨.free,hfree⟩
    · exact ⟨.rest,hf,hfree⟩
  · cases l with
    | free => exact hfl f hl
    | rest => exact hl.1
    | spot d x => exact absurd hl.1 (notMem_empty d)
  cases l with
  | free =>
    cases l' with
    | free => rfl
    | rest => exact absurd hl hl'.2
    | spot d x => exact absurd hl'.1 (notMem_empty d)
  | rest =>
    cases l' with
    | free => exact absurd hl' hl.2
    | rest => rfl
    | spot d x => exact absurd hl'.1 (notMem_empty d)
  | spot d x => exact absurd hl.1 (notMem_empty d)

theorem sep_bare : Sep plot (cleared [1025, 1026]) (insert 1024 ∅)
    ((plot \ {f | f ∈ [1025, 1026]}) \ {1024}) ∧
    ∀ a, entry (cleared [1025, 1026]) 1024 a = .zero := by
  have h : Sep plot (cleared [1025,1026]) ∅ (plot \ {f | f ∈ [1025,1026]}) :=
    sep_cleared (by decide) (by simp [plot])
  exact (h.openDir (by simp [plot]) fun _ => rfl).2

/-- A page for an empty address space when two pages are free. -/
theorem allocuvm_grows_or_rolls_back_one : ∃ r',
    allocuvm sample 1024 0 4096 ⟨cleared [1025, 1026], fun _ => .zero⟩ = .ok (4096, r') ∧
      Grown ⟨cleared [1025, 1026], fun _ => .zero⟩ r' 1024 0 4096 := by
  obtain ⟨v,r',hok,hres⟩ := (allocuvm_grows_or_rolls_back (r := ⟨cleared [1025,1026],fun _ => .zero⟩)
    plot_range sep_bare.1 (mem_insert _ _) (show 0 ≤ 4096 by decide) (by decide)
    fun b _ _ => by rw [sep_bare.2]; rfl).returns
  obtain ⟨rfl,hgrown,-⟩ := hres.resolve_right fun hno => hno.2.2 (by decide)
  exact ⟨r',hok,hgrown⟩

end Allocuvm

/-- Every page below `PGROUNDUP(sz)`, and no other user page, is mapped in `nd` with the flags and
the bytes that it has in `d`, to a page that nobody has used. -/
structure Cloned (r r' : Ram) (D R : Set ℕ) (d nd sz : ℕ) : Prop where
  maps : Maps r'.mem nd sz
  pages : ∀ b, b < pgup sz → ∃ f, entry r'.mem nd b = { entry r.mem d b with frame := f } ∧
    r'.data f = r.data (entry r.mem d b).frame ∧
    f ∈ r.mem.freelist ∧ f ∉ R ∧ ∀ d' ∈ D, ∀ x, spot r'.mem d' x ≠ some f

section Copyuvm

variable {L : Layout} {A D R : Set ℕ} {r : Ram} {d sz : ℕ}

/-- `copyuvm` returns a faithful copy; or one of its calls of `kalloc` fails, and it returns 0 and
every page that it took. The address spaces that there were and their bytes stay. -/
theorem copyuvm_faithful (hA : ∀ f ∈ A, L.kend ≤ f ∧ f < L.phystop) (h : Sep A r.mem D R)
    (hd : d ∈ D) (hsz : sz ≤ KERNBASE) (hmaps : Maps r.mem d sz) :
    wp (fun _ => False) (copyuvm L d sz) r fun v r' =>
      (∀ d' ∈ D, Keep r.mem r'.mem d') ∧
      (∀ d' ∈ D, ∀ a f, spot r.mem d' (.user a) = some f → r'.data f = r.data f) ∧
      (v = none → r'.mem.freelist.Perm r.mem.freelist) ∧
      (∀ nd, v = some nd → nd ∉ D ∧ Cloned r r' D R d nd sz) ∧
      (v = none ↔ ¬r.mem.Grants (spacePages L (pgup sz))) := by
  refine (wp_copyuvm hA hsz h hd hmaps).mono ?_
  rintro v r' ⟨hk,hunt,hnone,hsome,hgrant⟩
  refine ⟨hk,fun d' hd' a f hf => hunt.spot h hd' hf,fun hv => h.free_perm (hnone hv) hk,
    fun nd hnd => ?_,?_⟩
  · obtain ⟨hndD,-,hmaps',hpages⟩ := hsome nd hnd
    refine ⟨hndD,hmaps',fun b hb => ?_⟩
    obtain ⟨f,hf,hef,hdf⟩ := hpages b hb
    refine ⟨f,hef,hdf,hf,fun hR => h.rest_not_free hR hf,fun d' hd' x hx => ?_⟩
    rw [(hk d' hd').spot] at hx
    exact h.free_ne_spot hf hd' x hx
  · rw [← hgrant,Option.not_isSome_iff_eq_none]

end Copyuvm

/-- A machine with 40 pages, of which the kernel has the first three. -/
def small : Layout :=
  ⟨3, 3, 1, 2, 40, NPAGES - 1, by decide, by decide, by decide, by decide, by decide, by decide,
    by decide, by decide⟩

def field : Set ℕ := {f | 3 ≤ f ∧ f < 40}

theorem field_range : ∀ f ∈ field, small.kend ≤ f ∧ f < small.phystop := fun _ hf => hf

/-- A process of one page: directory 3, page table 4, the page 5; `fl` are free. -/
def onePage (fl : List ℕ) : Mem :=
  ((cleared fl).poke 3 0 ⟨4, true, true, true⟩).poke 4 0 ⟨5, true, true, true⟩

/-- The other pages of this machine. -/
def held (fl : List ℕ) : Set ℕ := {f | 6 ≤ f ∧ f < 40 ∧ f ∉ fl}

theorem sep_onePage {fl : List ℕ} (hnodup : fl.Nodup) (hfl : ∀ f ∈ fl, 6 ≤ f ∧ f < 40) :
    Sep field (onePage fl) (insert 3 ∅) (held fl) ∧ Maps (onePage fl) 3 4096 := by
  have hrest : ∀ f, f < 6 → f ∉ fl := fun f hf hmem => absurd (hfl f hmem).1 (by omega)
  have h0 : Sep field (cleared fl) ∅ (field \ {f | f ∈ fl}) :=
    sep_cleared hnodup fun f hf => ⟨by have := hfl f hf; omega,(hfl f hf).2⟩
  obtain ⟨-,h1,hentry1⟩ := h0.openDir (d := 3) (by simp [field,hrest]) fun _ => rfl
  have hdir : 3 ∈ insert 3 (∅ : Set ℕ) := mem_insert _ _
  have hnone : table (cleared fl) 3 0 = none := if_neg fun h => by cases h.2
  obtain ⟨h2,-,htable2,hentry2⟩ := h1.setTable (e := ⟨4,true,true,true⟩) (t := 4) hdir
    (i := 0) (by decide) hnone (by simp [field,hrest]) (fun _ => rfl) rfl rfl
  have ht : table ((cleared fl).poke 3 0 ⟨4,true,true,true⟩) 3 (0 / NPTENTRIES) = some 4 := by
    rw [htable2]
    rfl
  have h3 := h2.setPage (e := ⟨5,true,true,true⟩) (f := 5) hdir ht (by decide)
    (by rw [hentry2,hentry1]; rfl) (by simp [field,hrest]) rfl rfl
  have hheld : (((field \ {f | f ∈ fl}) \ {3}) \ {4}) \ {5} = held fl := by
    ext f
    simp only [field,held,mem_sdiff,mem_ofPred_eq,mem_singleton_iff]
    have := hfl f
    grind
  refine ⟨hheld ▸ h3,fun a ha => ?_⟩
  have he := (h2.setEntry hdir ht ⟨5,true,true,true⟩).2.2 a
  rw [onePage]
  refine (congrArg (fun e => e.present = true) he).to_iff.trans ?_
  by_cases ha0 : a = 0
  · subst ha0
    exact iff_of_true rfl (by decide)
  · rw [if_neg ha0,hentry2,hentry1,lt_pgup_iff]
    refine iff_of_false (by simp [Pte.zero]) ?_
    simp only [PGSIZE]
    omega

/-- Sixteen free pages. -/
def spare : List ℕ := List.range' 6 16

theorem sep_spare : Sep field (onePage spare) (insert 3 ∅) (held spare) ∧
    Maps (onePage spare) 3 4096 :=
  sep_onePage (by decide) (by decide)

/-- A process of one page, with a byte that is not zero, is copied. -/
theorem copyuvm_faithful_one : ∃ nd r', copyuvm small 3 4096
      ⟨onePage spare, fun _ => Block.zero.patch 7 [42]⟩ = .ok (some nd, r') ∧
    Cloned ⟨onePage spare, fun _ => Block.zero.patch 7 [42]⟩ r' (insert 3 ∅) (held spare) 3 nd
      4096 := by
  obtain ⟨r,hr⟩ : ∃ r : Ram, ⟨onePage spare,fun _ => Block.zero.patch 7 [42]⟩ = r := ⟨_,rfl⟩
  have hmem : r.mem = onePage spare := by rw [← hr]
  rw [hr]
  have hcopy := copyuvm_faithful field_range (hmem ▸ sep_spare.1) (mem_insert _ _) (by decide)
    (hmem ▸ sep_spare.2)
  obtain ⟨v,r',hok,-,-,-,hsome,hnone⟩ := hcopy.returns
  cases v with
  | none =>
    have hgrants : (onePage spare).Grants (spacePages small (pgup 4096)) := by decide +kernel
    exact absurd (hmem ▸ hgrants) (hnone.mp rfl)
  | some nd => exact ⟨nd,r',hok,(hsome nd rfl).2⟩

/-- `sbrk` returned the old size and grew or shrank the process by `n`, or it returned -1 and
changed neither the size nor the mapping. -/
def SbrkExact (L : Layout) (p : PSlot) (n : Int32) (s : Sys) (d : ℕ) : Prop :=
  wp (fun _ => False) (sysSbrk L p n) s fun v t => (t.proc p).pgdir = some d ∧
    (v.toInt = (s.proc p).sz ∧ ((t.proc p).sz : ℤ) = (s.proc p).sz + n.toInt ∧
        Maps t.mem d (t.proc p).sz ∨
      v = -1 ∧ (t.proc p).sz = (s.proc p).sz ∧
        ∀ a, a < KERNPAGE → userMap t.mem d a = userMap s.mem d a)

section Sbrk

variable {L : Layout} {A D R : Set ℕ} {s : Sys} {p : PSlot} {d sz : ℕ} {n : Int32}
  {E : Stop → Prop}

theorem toInt_ofNat_size (hsz : sz < KERNBASE) : (Int32.ofNat sz).toInt = sz :=
  Int32.toInt_ofNat_of_lt hsz

theorem userMap_eq_of_maps_zero {m m' : Mem} (h : Maps m d 0) (h' : Maps m' d 0) {a : ℕ}
    (ha : a < KERNPAGE) : userMap m' d a = userMap m d a := by
  rw [Maps,pgup_zero] at h h'
  rw [userMap_eq_none.mpr (h.absent ha (Nat.zero_le a)),
    userMap_eq_none.mpr (h'.absent ha (Nat.zero_le a))]

variable (hA : ∀ f ∈ A, L.kend ≤ f ∧ f < L.phystop) (h : Sep A s.mem D R) (hd : d ∈ D)
  (hp : (s.proc p).pgdir = some d) (hsz : (s.proc p).sz < KERNBASE)
  (hmaps : Maps s.mem d (s.proc p).sz)
include hA h hd hp hsz hmaps

theorem exact_of_nonneg (hn : 0 ≤ n.toInt) : SbrkExact L p n s d := by
  have hold := toInt_ofNat_size hsz
  rw [SbrkExact,sysSbrk,growproc,pgdirOf]
  simp only [wp_bind,wp_read,hp,wp_pure]
  refine wp_ite (fun hpos => ?_) fun hzero => ?_
  · rw [wp_bind,wp_onRam]
    have hlt := n.toInt_lt
    have hnew : ((((s.proc p).sz : ℤ) + n.toInt) % 2 ^ 32).toNat =
        (((s.proc p).sz : ℤ) + n.toInt).toNat := by
      simp only [KERNBASE,KERNPAGE,PGSIZE] at hsz
      rw [Int.emod_eq_of_lt (by omega) (by omega)]
    rw [hnew]
    refine (wp_allocuvm_maps hA hsz.le h hd hmaps).mono ?_
    rintro v r ⟨-,-,hsame,hres⟩
    refine wp_resize (fun hv => ⟨hp,.inr ⟨rfl,rfl,fun a ha => ?_⟩⟩) fun hv => ?_
    · by_cases hlow : a < pgup (s.proc p).sz
      · exact userMap_congr (hsame a (.inl hlow))
      · have hmaps' : Maps r.mem d (s.proc p).sz := by
          rcases hres with ⟨hmax,-⟩ | ⟨-,hmaps'⟩
          · omega
          · exact hmaps'
        rw [userMap_eq_none.mpr (hmaps.absent ha (by omega)),
          userMap_eq_none.mpr (hmaps'.absent ha (by omega))]
    · obtain ⟨hmax,-,hmaps'⟩ := hres.resolve_right fun hx => hv hx.1
      refine ⟨?_,.inl ⟨hold,?_,?_⟩⟩
      · simpa using hp
      · simp only [Function.update_self]
        omega
      · simpa using hmaps'
  · refine wp_ite (fun hneg => absurd hneg (by omega)) fun _ => ?_
    refine ⟨hp,.inl ⟨hold,by omega,hmaps⟩⟩

/-- A process that gives memory back: the sum of its size and `n` as a `uint` decides how much,
unless it is larger than the size. -/
theorem wp_sbrk_shrink (hn : n.toInt < 0) {k : ℕ}
    (hk : k = min (s.proc p).sz ((((s.proc p).sz : ℤ) + n.toInt) % 2 ^ 32).toNat) :
    wp E (sysSbrk L p n) s fun v t => (t.proc p).pgdir = some d ∧ Maps t.mem d k ∧
      (k = 0 ∧ v = -1 ∧ (t.proc p).sz = (s.proc p).sz ∨
        k ≠ 0 ∧ v.toInt = (s.proc p).sz ∧ (t.proc p).sz = k) := by
  have hold := toInt_ofNat_size hsz
  rw [sysSbrk,growproc,pgdirOf]
  simp only [wp_bind,wp_read,hp,wp_pure]
  refine wp_ite (fun hpos => absurd hpos (by omega)) fun _ => wp_ite (fun _ => ?_) fun hnn => ?_
  · rw [wp_bind,wp_onMem]
    refine (wp_deallocuvm hA hsz.le h hd).mono ?_
    rintro v m ⟨hv,-,-,-,hsame,hgone⟩
    rw [← hk] at hv
    have hmaps' : Maps m d k := by
      intro a ha
      rcases Nat.le_total (s.proc p).sz ((((s.proc p).sz : ℤ) + n.toInt) % 2 ^ 32).toNat
        with hle | hle
      · have hup := pgup_mono hle
        rw [hsame a (by omega),hmaps a ha,hk,Nat.min_eq_left hle]
      rw [Nat.min_eq_right hle] at hk
      rw [← hk] at hsame hgone hle
      have hup := pgup_mono hle
      by_cases hmid : pgup k ≤ a ∧ a < pgup (s.proc p).sz
      · rw [hgone a hmid.1 hmid.2]
        exact iff_of_false (by simp) (by omega)
      · rw [hsame a (by omega),hmaps a ha]
        omega
    subst hv
    refine wp_resize (fun hv => ⟨hp,hmaps',.inl ⟨hv,rfl,rfl⟩⟩) fun hv => ?_
    refine ⟨?_,hmaps',.inr ⟨hv,hold,?_⟩⟩
    · simpa using hp
    · simp
  · exact absurd hn hnn

theorem exact_of_part (hn : n.toInt < 0)
    (hpart : 0 < ((s.proc p).sz : ℤ) + n.toInt ∨ (s.proc p).sz = 0) : SbrkExact L p n s d := by
  obtain ⟨k,hk⟩ : ∃ k, k = min (s.proc p).sz ((((s.proc p).sz : ℤ) + n.toInt) % 2 ^ 32).toNat :=
    ⟨_,rfl⟩
  refine (wp_sbrk_shrink hA h hd hp hsz hmaps hn hk).mono ?_
  rintro v t ⟨hp',hmaps',hres⟩
  refine ⟨hp',?_⟩
  simp only [KERNBASE,KERNPAGE,PGSIZE] at hsz
  rcases hpart with hpos | hzero
  · rw [Int.emod_eq_of_lt hpos.le (by omega)] at hk
    obtain ⟨-,hv,ht⟩ := hres.resolve_left fun hx => by omega
    exact .inl ⟨hv,by omega,ht ▸ hmaps'⟩
  · obtain ⟨hk0,hv,ht⟩ := hres.resolve_right fun hx => by omega
    rw [hk0] at hmaps'
    rw [hzero] at hmaps
    exact .inr ⟨hv,ht,fun a ha => userMap_eq_of_maps_zero hmaps hmaps' ha⟩

theorem not_exact_of_all (hpos : 0 < (s.proc p).sz) (hall : ((s.proc p).sz : ℤ) + n.toInt ≤ 0) :
    ¬SbrkExact L p n s d := by
  intro hexact
  have hlow := n.le_toInt
  obtain ⟨k,hk⟩ : ∃ k, k = min (s.proc p).sz ((((s.proc p).sz : ℤ) + n.toInt) % 2 ^ 32).toNat :=
    ⟨_,rfl⟩
  obtain ⟨v,t,hok,-,hmaps',hres⟩ :=
    (wp_sbrk_shrink hA h hd hp hsz hmaps (by omega) hk).returns
  obtain ⟨-,hout⟩ := hexact.of_ok hok
  by_cases hzero : ((s.proc p).sz : ℤ) + n.toInt = 0
  · -- all pages are gone, although the call reports -1
    rw [hzero] at hk
    obtain ⟨hk0,hv,-⟩ := hres.resolve_right fun hx => hx.1 (by rw [hk]; exact Nat.min_zero _)
    have hminus : v.toInt = -1 := by
      rw [hv]
      rfl
    obtain ⟨-,-,hmap⟩ := hout.resolve_left fun hx => by omega
    have hgone : userMap t.mem d 0 = none := by
      rw [hk0,Maps,pgup_zero] at hmaps'
      exact userMap_eq_none.mpr (hmaps'.absent (by decide) le_rfl)
    rw [hmap 0 (by decide),userMap_eq_none] at hgone
    have hmapped := (hmaps 0 (by decide)).mpr (lt_pgup_iff.mpr (by omega))
    rw [hgone] at hmapped
    cases hmapped
  · -- the sum wraps around to a size above the old one, and nothing happens
    have hwrap : (((s.proc p).sz : ℤ) + n.toInt) % 2 ^ 32 = (s.proc p).sz + n.toInt + 2 ^ 32 := by
      rw [← Int.add_emod_right,Int.emod_eq_of_lt (by omega) (by omega)]
    rw [hwrap,Nat.min_eq_left (by omega)] at hk
    obtain ⟨-,hv,ht⟩ := hres.resolve_left fun hx => by omega
    rcases hout with ⟨-,hsize,-⟩ | ⟨hv',-,-⟩
    · omega
    · have hminus : v.toInt = -1 := by
        rw [hv']
        rfl
      omega

/-- `sbrk` is exact or without effect unless the process gives up all that it has or more. -/
theorem sbrk_exact_iff : SbrkExact L p n s d ↔
    0 ≤ n.toInt ∨ 0 < ((s.proc p).sz : ℤ) + n.toInt ∨ (s.proc p).sz = 0 := by
  constructor
  · intro hexact
    by_contra hnot
    push Not at hnot
    exact not_exact_of_all hA h hd hp hsz hmaps (by omega) hnot.2.1 hexact
  · intro hcond
    by_cases hn : 0 ≤ n.toInt
    · exact exact_of_nonneg hA h hd hp hsz hmaps hn
    · exact exact_of_part hA h hd hp hsz hmaps (by omega) (hcond.resolve_left hn)

end Sbrk

def lone : Sys where
  ram := ⟨onePage [], fun _ => .zero⟩
  proc := fun q =>
    if q = initproc then ⟨⟨.RUNNABLE, none⟩, none, some 3, 4096, fun _ => none⟩
    else ⟨⟨.UNUSED, none⟩, none, none, 0, fun _ => none⟩
  file := fun _ => ⟨0, none, false⟩
  ends := fun _ => ⟨false, false⟩
  kpgdir := 39
  kept := []

theorem sep_lone : Sep field lone.mem (insert 3 ∅) (held []) ∧ Maps lone.mem 3 4096 :=
  sep_onePage (by decide) (by simp)

/-- One byte less. -/
theorem sbrk_exact_iff_lone : SbrkExact small initproc (-1) lone 3 :=
  (sbrk_exact_iff (p := initproc) field_range sep_lone.1 (mem_insert _ _) rfl (by decide)
    sep_lone.2).mpr (.inr (.inl (by decide)))

/-- A process of one page gives up this page: `sbrk(-4096)` frees it and returns -1. -/
theorem sbrk_all_not_exact :
    (∀ f ∈ field, small.kend ≤ f ∧ f < small.phystop) ∧
      Sep field lone.mem (insert 3 ∅) (held []) ∧ (lone.proc initproc).pgdir = some 3 ∧
      (lone.proc initproc).sz < KERNBASE ∧ Maps lone.mem 3 (lone.proc initproc).sz ∧
      ¬SbrkExact small initproc (-4096) lone 3 :=
  ⟨field_range,sep_lone.1,rfl,by decide,sep_lone.2,
    not_exact_of_all (p := initproc) field_range sep_lone.1 (mem_insert _ _) rfl (by decide) sep_lone.2
      (by decide) (by decide)⟩

end Xv6Container.Vm
