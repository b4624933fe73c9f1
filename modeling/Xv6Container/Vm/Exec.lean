import Xv6Container.Lib.Overlay
import Xv6Container.Vm.Loading

/-! # The image of a new program -/

namespace Xv6Container.Vm

open Prog List Function Nat

/-- The end of a segment. -/
def Seg.limit (sg : Seg) : ℕ := (sg.vaddr + sg.memsz).toNat

/-- The size that the segments of a program add up to. -/
def imageSize : List (Option Seg) → ℕ → ℕ
  | [], sz => sz
  | none :: _, sz => sz
  | some sg :: sgs, sz => if sg.load then imageSize sgs (max sz sg.limit) else imageSize sgs sz

/-- The pages of the image with the two pages of stack. -/
def imagePages (sgs : List (Option Seg)) : ℕ := pgup (imageSize sgs 0) + 2

/-- Every argument is shorter than the image with its two stack pages. -/
def ShortArgs (sgs : List (Option Seg)) (argv : List (List UInt8)) : Prop :=
  ∀ arg ∈ argv, arg.length < imagePages sgs * PGSIZE

instance (sgs : List (Option Seg)) (argv : List (List UInt8)) : Decidable (ShortArgs sgs argv) :=
  inferInstanceAs (Decidable (∀ arg ∈ argv, _))

/-- What `exec` and `loaduvm` ask of a segment. -/
structure Seg.Sound (sg : Seg) : Prop where
  filesz : ¬sg.memsz < sg.filesz
  wrap : ¬sg.vaddr + sg.memsz < sg.vaddr
  limit : sg.limit < KERNBASE
  aligned : sg.vaddr.toNat % PGSIZE = 0
  stored : ∀ k, k < pgup sg.filesz.toNat → sg.stored k = true

/-- All program headers have been read, and their segments can be loaded behind an image of size
`sz`. An empty image is taken for a failure of `allocuvm`. -/
def Loadable : List (Option Seg) → ℕ → Prop
  | [], _ => True
  | none :: _, _ => False
  | some sg :: sgs, sz =>
    if sg.load then sg.Sound ∧ 0 < max sz sg.limit ∧ Loadable sgs (max sz sg.limit)
    else Loadable sgs sz

theorem le_imageSize (sgs : List (Option Seg)) (sz : ℕ) : sz ≤ imageSize sgs sz := by
  induction sgs generalizing sz with
  | nil => exact le_rfl
  | cons sg sgs ih =>
    cases sg with
    | none => exact le_rfl
    | some sg =>
      rw [imageSize]
      split
      · exact (le_max_left _ _).trans (ih _)
      · exact ih sz

section Exec

variable {L : Layout} {A D R : Set ℕ} {m m' : Mem} {d a : ℕ} {E : Stop → Prop}

theorem table_of_present (h : (entry m d a).present = true) :
    ∃ t, table m d (a / NPTENTRIES) = some t ∧ entry m d a = m.tab t (a % NPTENTRIES) := by
  cases ht : table m d (a / NPTENTRIES) with
  | none =>
    rw [entry_none ht] at h
    cases h
  | some t => exact ⟨t,rfl,entry_eq ht⟩

theorem wp_walk_present {Q : Option (ℕ × ℕ) → Mem → Prop} (ha : a < NPAGES)
    (hp : (entry m d a).present = true)
    (hQ : ∀ t, table m d (a / NPTENTRIES) = some t → entry m d a = m.tab t (a % NPTENTRIES) →
      Q (some (t, a % NPTENTRIES)) m) : wp E (walkpgdir d a false) m Q := by
  obtain ⟨t,ht,he⟩ := table_of_present hp
  refine wp_walk ha (fun t' ht' => ?_) fun hnone => ?_
  · obtain rfl := Option.some.inj (ht.symm.trans ht')
    exact hQ t ht he
  · rw [ht] at hnone
    cases hnone

def byteAt (r : Ram) (d va : ℕ) : UInt8 :=
  (r.data (entry r.mem d (va / PGSIZE)).frame).get (va % PGSIZE)

/-- The pages below `n` hold the bytes `c`, and only their bytes are not those of `data`. -/
structure Img (data : ℕ → Block PGSIZE) (c : ℕ → UInt8) (r : Ram) (d n : ℕ) : Prop where
  bytes : ∀ va, va < n * PGSIZE → byteAt r d va = c va
  only : ∀ f, r.data f ≠ data f → ∃ b, b < n ∧ (entry r.mem d b).frame = f

/-- The bytes of pages that are not free and not of the address space of `d` are the same. -/
def Spared (A D R : Set ℕ) (d : ℕ) (r r' : Ram) : Prop :=
  ∀ f, (f ∉ A ∨ f ∈ R ∨ ∃ d' ∈ D, d' ≠ d ∧ ∃ x, spot r.mem d' x = some f) → r'.data f = r.data f

section Bytes

variable {r r' r'' : Ram} {data : ℕ → Block PGSIZE} {c : ℕ → UInt8} {n b : ℕ}

theorem Spared.refl (r : Ram) : Spared A D R d r r := fun _ _ => rfl

theorem Spared.trans (h : Spared A D R d r r') (hk : KeepBut r.mem r'.mem D d)
    (h' : Spared A D R d r' r'') : Spared A D R d r r'' := by
  intro f hf
  rw [h' f ?_,h f hf]
  refine hf.imp_right (Or.imp_right fun ⟨d',hd',hne,x,hx⟩ => ⟨d',hd',hne,x,?_⟩)
  rw [(hk d' hd' hne).spot,hx]

theorem Spared.trans_of_eq (h : Spared A D R d r r') (hm : r'.mem = r.mem)
    (h' : Spared A D R d r' r'') : Spared A D R d r r'' :=
  h.trans (hm ▸ .refl _ D d) h'

theorem Untouched.spared (h : Untouched r r') (hs : Sep A r.mem D R) : Spared A D R d r r' := by
  intro f hf
  refine h f fun hfree => ?_
  rcases hf with hA | hR | ⟨d',hd',-,x,hx⟩
  · exact hA (hs.sole.only .free f hfree)
  · exact hs.rest_not_free hR hfree
  · exact hs.free_ne_spot hfree hd' x hx

theorem Spared.untouched {r0 : Ram} (h : Spared A (insert d D) R d r r') (hdD : d ∉ D)
    (h₀ : Sep A r0.mem D R) (hk : ∀ d' ∈ D, Keep r0.mem r.mem d') (hr : r.data = r0.data) :
    Untouched r0 r' := by
  intro f hf
  rw [h f ?_,hr]
  by_cases hA : f ∈ A
  · obtain ⟨l,hl⟩ := h₀.sole.cover f hA
    cases l with
    | free => exact absurd hl hf
    | rest => exact .inr (.inl hl)
    | spot d' x =>
      refine .inr (.inr ⟨d',.inr hl.1,fun e => hdD (e ▸ hl.1),x,?_⟩)
      rw [(hk d' hl.1).spot]
      exact hl.2
  · exact .inl hA

theorem Sep.frame_ne (h : Sep A m D R) (hd : d ∈ D) {b' : ℕ}
    (hb : b < KERNPAGE ∧ (entry m d b).present = true)
    (hb' : b' < KERNPAGE ∧ (entry m d b').present = true) (hne : b' ≠ b) :
    (entry m d b').frame ≠ (entry m d b).frame := by
  intro he
  have hspot := spot_user hb'.1 hb'.2
  rw [he] at hspot
  have := (h.spot_inj hd hd hspot (spot_user hb.1 hb.2)).2
  cases this
  exact hne rfl

theorem Img.store (o : ℕ) (bytes : List UInt8) (hi : Img data c r d n) (h : Sep A r.mem D R) (hd : d ∈ D) (hn : n ≤ KERNPAGE)
    (hp : ∀ b, b < n → (entry r.mem d b).present = true) (hb : b < n)
    (ho : o + bytes.length ≤ PGSIZE) {f : ℕ} (hf : f = (entry r.mem d b).frame) :
    Img data (overlay c (b * PGSIZE + o) bytes) (r.store f o bytes) d n ∧
      Spared A D R d r (r.store f o bytes) := by
  have hpage : 0 < PGSIZE := by decide
  refine ⟨⟨fun va hva => ?_,fun g hg => ?_⟩,fun g hg => ?_⟩
  · have hva' : va / PGSIZE < n := Nat.div_lt_of_lt_mul (by rwa [Nat.mul_comm])
    have hmod : va % PGSIZE < PGSIZE := mod_lt _ hpage
    have hdiv := div_add_mod va PGSIZE
    have hold := hi.bytes va hva
    simp only [byteAt,Ram.store] at hold ⊢
    by_cases hvb : va / PGSIZE = b
    · rw [hvb] at hold hdiv
      rw [hvb,← hf,update_self,Block.get_patch _ _ _ hmod,hf,hold]
      rw [Nat.mul_comm] at hdiv
      by_cases hin : o ≤ va % PGSIZE ∧ va % PGSIZE < o+bytes.length
      · rw [if_pos hin,overlay,if_pos (by omega)]
        congr 1
        omega
      · rw [if_neg hin,overlay,if_neg (by omega)]
    · have hne := h.frame_ne hd ⟨by omega,hp b hb⟩ ⟨by omega,hp _ hva'⟩ hvb
      rw [update_of_ne (by rw [hf]; exact hne),hold,overlay,if_neg]
      simp only [PGSIZE] at hvb ho ⊢
      omega
  · by_cases hgf : g = f
    · exact ⟨b,hb,(hgf.trans hf).symm⟩
    · have hsame : (r.store f o bytes).data g = r.data g := update_of_ne hgf _ _
      exact hi.only g (hsame ▸ hg)
  · refine update_of_ne (fun hgf => ?_) _ _
    have hspot := spot_user (m := r.mem) (d := d) (by omega : b < KERNPAGE) (hp b hb)
    rw [← hf,← hgf] at hspot
    rcases hg with hA | hR | ⟨d',hd',hne,x,hx⟩
    · exact hA (h.sole.only (.spot d _) g ⟨hd,hspot⟩)
    · exact h.rest_ne_spot hR hd _ hspot
    · exact hne (h.spot_inj hd' hd hx hspot).1

theorem Img.grow {hi lo : ℕ} (himg : Img data c r d lo) (hg : Gained r r' d lo hi)
    (hunt : Untouched r r') (h : Sep A r.mem D R) (hd : d ∈ D) (hlo : lo ≤ KERNPAGE) (hle : lo ≤ hi)
    (hp : ∀ b, b < lo → (entry r.mem d b).present = true)
    (hc : ∀ va, lo*PGSIZE ≤ va → c va = 0) : Img data c r' d hi := by
  refine ⟨fun va hva => ?_,fun f hf => ?_⟩
  · have hva' : va / PGSIZE < hi := Nat.div_lt_of_lt_mul (by rwa [Nat.mul_comm])
    by_cases hlow : va / PGSIZE < lo
    · rw [byteAt,hg.outside _ (.inl hlow),hunt.spot h hd (spot_user (by omega) (hp _ hlow))]
      exact himg.bytes va (lt_mul_of_div_lt hlow (by decide))
    · obtain ⟨f,-,hef,hdf⟩ := hg.inside _ (by omega) hva'
      rw [byteAt,hef,hdf,Block.get_zero,hc va ?_]
      exact (Nat.le_div_iff_mul_le (by decide)).mp (by omega)
  · by_cases hfr : r'.data f = r.data f
    · rw [hfr] at hf
      obtain ⟨b,hb,hbf⟩ := himg.only f hf
      exact ⟨b,by omega,by rw [hg.outside b (.inl hb),hbf]⟩
    · obtain ⟨b,-,hb,hbf⟩ := hg.only f hfr
      exact ⟨b,hb,hbf⟩

theorem Img.frames (hi : Img data c r d n)
    (he : ∀ b, (entry m d b).frame = (entry r.mem d b).frame) : Img data c ⟨m, r.data⟩ d n := by
  refine ⟨fun va hva => ?_,fun f hf => ?_⟩
  · rw [byteAt,he]
    exact hi.bytes va hva
  · obtain ⟨b,hb,hbf⟩ := hi.only f hf
    exact ⟨b,hb,(he b).trans hbf⟩

end Bytes

/-- The bytes of the pages from `k` on of a segment at page `a`, laid over `c`. -/
def lay (sg : Seg) (a : ℕ) : (n k : ℕ) → (ℕ → UInt8) → ℕ → UInt8
  | 0, _, c => c
  | n + 1, k, c => lay sg a n (k + 1) (overlay c ((a + k) * PGSIZE) (sg.chunk k))

/-- The bytes of the segments of a program, one laid over the other. -/
def content : List (Option Seg) → (ℕ → UInt8) → ℕ → UInt8
  | [], c => c
  | none :: _, c => c
  | some sg :: sgs, c =>
    if sg.load then
      content sgs (lay sg (sg.vaddr.toNat / PGSIZE) (pgup sg.filesz.toNat) 0 c)
    else content sgs c

theorem lay_of_le {sg : Seg} {n k va : ℕ} {c : ℕ → UInt8} (h : (a + k + n) * PGSIZE ≤ va) :
    lay sg a n k c va = c va := by
  induction n generalizing k c with
  | zero => rfl
  | succ n ih =>
    rw [lay,ih (by rwa [show a + (k+1) + n = a + k + (n+1) by omega]),overlay,if_neg]
    have := sg.fits k
    simp only [PGSIZE] at this h ⊢
    omega

theorem toNat_add_of_le {v w : UInt32} (h : ¬v + w < v) : (v+w).toNat = v.toNat+w.toNat := by
  rw [UInt32.lt_iff_toNat_lt,UInt32.toNat_add] at h
  rw [UInt32.toNat_add]
  have := v.toNat_lt
  have := w.toNat_lt
  omega

/-- What is built in the address space of `d` leaves the rest alone. -/
structure Building (A D R : Set ℕ) (d : ℕ) (r r' : Ram) : Prop where
  sep : Sep A r'.mem D R
  others : KeepBut r.mem r'.mem D d
  kernel : ∀ b, KERNPAGE ≤ b → entry r'.mem d b = entry r.mem d b
  spared : Spared A D R d r r'

/-- The address space has size `sz` and holds the bytes `c`. -/
structure Filled (data : ℕ → Block PGSIZE) (c : ℕ → UInt8) (r : Ram) (d sz : ℕ) : Prop where
  le : sz ≤ KERNBASE
  maps : Maps r.mem d sz
  img : Img data c r d (pgup sz)
  zero : ∀ va, pgup sz * PGSIZE ≤ va → c va = 0

section Segments

variable {r r' r'' : Ram} {data : ℕ → Block PGSIZE} {c : ℕ → UInt8} {sg : Seg}
  {sgs : List (Option Seg)} {sz newsz : ℕ}

theorem Building.refl (h : Sep A r.mem D R) : Building A D R d r r :=
  ⟨h,.refl _ D d,fun _ _ => rfl,.refl r⟩

theorem Building.trans (h : Building A D R d r r') (h' : Building A D R d r' r'') :
    Building A D R d r r'' :=
  ⟨h'.sep,h.others.trans h'.others,fun b hb => (h'.kernel b hb).trans (h.kernel b hb),
    h.spared.trans h.others h'.spared⟩

theorem Building.of_mem_eq (h : Sep A r.mem D R) (hmem : r'.mem = r.mem)
    (hs : Spared A D R d r r') : Building A D R d r r' :=
  ⟨hmem ▸ h,hmem ▸ .refl _ D d,fun _ _ => by rw [hmem],hs⟩

theorem wp_loadLoop {top n k : ℕ} (hi : Img data c r d top) (h : Sep A r.mem D R)
    (hd : d ∈ D) (htop : top ≤ KERNPAGE) (hp : ∀ b, b < top → (entry r.mem d b).present = true)
    (hk : a + k + n ≤ top) :
    wp E (loadLoop d a sg n k) r fun ok r' => r'.mem = r.mem ∧ Spared A D R d r r' ∧
      (ok = true → Img data (lay sg a n k c) r' d top) ∧
      (ok = true ↔ ∀ j, k ≤ j → j < k+n → sg.stored j = true) := by
  induction n generalizing k c r with
  | zero => exact ⟨rfl,.refl r,fun _ => hi,iff_of_true rfl fun j hj hj' => by omega⟩
  | succ n ih =>
    have hKN : KERNPAGE ≤ NPAGES := by decide
    rw [loadLoop,wp_bind,low,wp_zoom]
    refine wp_walk_present (by omega) (hp (a+k) (by omega)) fun t _ he => ?_
    simp only [wp_bind,low,wp_zoom,wp_read,← he,store,wp_modify]
    have hstore := hi.store 0 (sg.chunk k) h hd htop hp (b := a+k) (by omega)
      (by rw [Nat.zero_add]; exact sg.fits k) rfl
    rw [Nat.add_zero] at hstore
    refine wp_ite (fun hst => ?_) fun hst => ⟨r.store_mem ..,hstore.2,by simp,
      iff_of_false (by simp) fun hall => hst (hall k le_rfl (by omega))⟩
    refine (ih hstore.1 h hp (by omega)).mono ?_
    rintro ok r' ⟨hmem,hspare,himg,hall⟩
    refine ⟨hmem.trans (r.store_mem ..),hstore.2.trans_of_eq (r.store_mem ..) hspare,himg,
      hall.trans ⟨fun hrest j hj hj' => ?_,fun h j hj hj' => h j (by omega) (by omega)⟩⟩
    by_cases hjk : j = k
    · exact hjk ▸ hst
    · exact hrest j (by omega) (by omega)

theorem wp_loaduvm (h : Sep A r.mem D R) (hd : d ∈ D) (hf : Filled data c r d sz)
    (hal : sg.vaddr.toNat % PGSIZE = 0) (hle : sg.vaddr.toNat + sg.filesz.toNat ≤ sz) :
    wp E (loaduvm d sg) r fun ok r' => r'.mem = r.mem ∧ Spared A D R d r r' ∧
      (ok = true → Filled data
        (lay sg (sg.vaddr.toNat / PGSIZE) (pgup sg.filesz.toNat) 0 c) r' d sz) ∧
      (ok = true ↔ ∀ j, j < pgup sg.filesz.toNat → sg.stored j = true) := by
  have htop := pgup_le_kernpage hf.le
  rw [loaduvm]
  refine wp_ite (fun hbad => absurd hal hbad) fun _ => ?_
  have hend : sg.vaddr.toNat / PGSIZE + 0 + pgup sg.filesz.toNat ≤ pgup sz := by
    simp only [pgup,PGSIZE] at hal hle ⊢
    omega
  refine (wp_loadLoop hf.img h hd htop (fun b hb => (hf.maps b (by omega)).mpr hb) hend).mono ?_
  rintro ok r' ⟨hmem,hspare,himg,hall⟩
  refine ⟨hmem,hspare,fun hok => ⟨hf.le,by rw [hmem]; exact hf.maps,himg hok,fun va hva => ?_⟩,
    by simpa using hall⟩
  rw [lay_of_le ((Nat.mul_le_mul_right _ hend).trans hva)]
  exact hf.zero va hva

variable (hA : ∀ f ∈ A, L.kend ≤ f ∧ f < L.phystop)
include hA

theorem wp_grow (h : Sep A r.mem D R) (hd : d ∈ D) (hf : Filled data c r d sz) :
    wp E (allocuvm L d sz newsz) r fun v r' => Building A D R d r r' ∧
      (v ≠ 0 → v = max sz newsz ∧ newsz < KERNBASE ∧ Filled data c r' d v ∧
        (∀ b, pgup sz ≤ b → b < pgup v → (entry r'.mem d b).user = true) ∧
        DrawsTo r.mem r'.mem d sz v True) ∧
      (v = 0 → newsz < KERNBASE → 0 < max sz newsz →
        DrawsTo r.mem r'.mem d sz (max sz newsz) False) := by
  have htop := pgup_le_kernpage hf.le
  refine (wp_allocuvm hA h hd fun b hb hb' => hf.maps.absent hb' hb).mono ?_
  rintro v r' ⟨h',hbut,-,hunt,hres⟩
  have hkernel : ∀ b, KERNPAGE ≤ b → entry r'.mem d b = entry r.mem d b := by
    intro b hb
    rcases hres with ⟨rfl,hnew,hgain,-⟩ | ⟨-,hempty,-⟩
    · have hmax := hf.le
      have : pgup (max sz newsz) ≤ KERNPAGE := pgup_le_kernpage (by omega)
      exact hgain.outside b (by omega)
    · exact hempty.outside b (.inr hb)
  refine ⟨⟨h',hbut,hkernel,hunt.spared h⟩,fun hv => ?_,fun hv hnew hpos => ?_⟩
  swap
  · rcases hres with ⟨hmax,-⟩ | ⟨-,-,hdraw⟩
    · omega
    · exact hdraw hnew
  obtain ⟨hmax,hnew,hgain,hdraw⟩ := hres.resolve_right fun hr => hv hr.1
  have hup : pgup sz ≤ pgup v := pgup_mono (by omega)
  have hle := hf.le
  refine ⟨hmax,hnew,⟨by omega,fun b hb => ?_,?_,fun va hva => hf.zero va ?_⟩,fun b hb hb' => ?_,
    hdraw⟩
  · by_cases hin : pgup sz ≤ b ∧ b < pgup v
    · obtain ⟨f,-,hef,-⟩ := hgain.inside b hin.1 hin.2
      rw [hef]
      exact iff_of_true rfl hin.2
    · rw [hgain.outside b (by omega),hf.maps b hb]
      omega
  · exact hf.img.grow hgain hunt h hd htop hup (fun b hb => (hf.maps b (by omega)).mpr hb) hf.zero
  · exact (Nat.mul_le_mul_right _ hup).trans hva
  · obtain ⟨f,-,hef,-⟩ := hgain.inside b hb hb'
    rw [hef]

theorem wp_loadSegs (h : Sep A r.mem D R) (hd : d ∈ D) (hf : Filled data c r d sz) :
    wp E (loadSegs L d sgs sz) r fun v r' => Building A D R d r r' ∧
      (∀ sz', v = some sz' → sz' = imageSize sgs sz ∧ Filled data (content sgs c) r' d sz' ∧
        Loadable sgs sz ∧ DrawsTo r.mem r'.mem d sz sz' True) ∧
      (v = none → Loadable sgs sz → DrawsTo r.mem r'.mem d sz (imageSize sgs sz) False) := by
  induction sgs generalizing r sz c with
  | nil =>
    refine ⟨.refl h,fun sz' hr => ?_,by simp⟩
    cases hr
    refine ⟨rfl,hf,trivial,?_⟩
    rw [DrawsTo,Nat.sub_self,dirEntries_zero]
    exact .nothing _ d trivial
  | cons sg sgs ih =>
    cases sg with
    | none => exact ⟨.refl h,by simp,fun _ hl => hl.elim⟩
    | some sg =>
      rw [loadSegs]
      by_cases hload : sg.load = true
      swap
      · simp only [hload,Loadable,imageSize,content]
        exact ih h hf
      simp only [hload,Loadable,imageSize,content,Bool.not_true,Bool.false_eq_true,if_false,if_true]
      refine wp_ite (fun hbad => ⟨.refl h,by simp,fun _ hl => absurd hbad hl.1.filesz⟩)
        fun hmem => ?_
      refine wp_ite (fun hbad => ⟨.refl h,by simp,fun _ hl => absurd hbad hl.1.wrap⟩)
        fun hwrap => ?_
      have hadd : sg.limit = sg.vaddr.toNat+sg.memsz.toNat := toNat_add_of_le hwrap
      have hfile : sg.filesz.toNat ≤ sg.memsz.toNat := by
        rw [UInt32.lt_iff_toNat_lt] at hmem
        omega
      have hup : pgup (max sz sg.limit) ≤ pgup (imageSize sgs (max sz sg.limit)) :=
        pgup_mono (le_imageSize _ _)
      refine (wp_grow hA h hd hf).bind ?_
      rintro sz1 r1 ⟨hb1,hres1,hfail1⟩
      refine wp_ite (fun h0 => ⟨hb1,by simp,fun _ hl => ?_⟩) fun hne => ?_
      · exact (hfail1 h0 hl.1.limit hl.2.1).fail hup
      refine wp_ite (fun hbad => ⟨hb1,by simp,fun _ hl => absurd hl.1.aligned hbad⟩)
        fun hal => ?_
      obtain ⟨hmax,hlim,hf1,-,hdraw1⟩ := hres1 hne
      change sz1 = max sz sg.limit at hmax
      subst hmax
      rw [not_not] at hal
      refine (wp_loaduvm hb1.sep hd hf1 hal (by omega)).bind ?_
      rintro ok r2 ⟨hmem2,hspare2,hfill2,hall⟩
      have hb2 := hb1.trans (.of_mem_eq hb1.sep hmem2 hspare2)
      refine wp_ite (fun hok => ?_) fun hok =>
        ⟨hb2,by simp,fun _ hl => absurd (hall.mpr hl.1.stored) hok⟩
      refine (ih hb2.sep (hfill2 hok)).mono ?_
      rintro v r3 ⟨hb3,hres3,hfail3⟩
      have hle : pgup sz ≤ pgup (max sz sg.limit) := pgup_mono (le_max_left _ _)
      rw [hmem2] at hres3 hfail3
      refine ⟨hb2.trans hb3,fun sz' hv => ?_,fun hv hl => ?_⟩
      · obtain ⟨hsize,hfill,hl,hdraw3⟩ := hres3 sz' hv
        exact ⟨hsize,hfill,⟨⟨hmem,hwrap,hlim,hal,hall.mp hok⟩,by omega,hl⟩,
          hdraw1.trans hle (hsize ▸ hup) hdraw3⟩
      · exact hdraw1.trans hle hup (hfail3 hv hl.2.2)

end Segments

/-- The pages below `top` are mapped, and so is the last page of all, which is not for users. -/
structure Stacked (m : Mem) (d top : ℕ) : Prop where
  le : top ≤ KERNPAGE
  mapped : ∀ b, b < top → (entry m d b).present = true
  last : TopKernel m d

/-- The pages that hold the `n` bytes from `va` on are for users. -/
def UserRange (m : Mem) (d va n : ℕ) : Prop :=
  ∀ b, va / PGSIZE ≤ b → b * PGSIZE < va + n → (entry m d b).user = true

section Stack

variable {r : Ram} {data : ℕ → Block PGSIZE} {c : ℕ → UInt8} {top : ℕ}

theorem userRange_step {n k : ℕ} (va : ℕ) (hn : 0 < n) (hk : k = min (PGSIZE - va % PGSIZE) n) :
    UserRange m d va n ↔ (entry m d (va / PGSIZE)).user = true ∧
      (0 < n - k → UserRange m d ((va / PGSIZE + 1) * PGSIZE) (n-k)) := by
  constructor
  · intro hall
    refine ⟨hall _ le_rfl ?_,fun hrest b hb hb' => hall b ?_ ?_⟩ <;>
      simp only [PGSIZE] at * <;> omega
  · rintro ⟨hfirst,hnext⟩ b hb hb'
    by_cases hbe : b = va / PGSIZE
    · rw [hbe]
      exact hfirst
    · refine hnext ?_ b ?_ ?_ <;> simp only [PGSIZE] at hk hb hb' hbe ⊢ <;> omega

/-- Below the last page, at `lo`, there is one that is not for users. -/
theorem userRange_stack {va n lo : ℕ} (hlo : top * PGSIZE = lo + PGSIZE) (htop : 2 ≤ top)
    (hguard : (entry m d (top - 2)).user = false) (huser : (entry m d (top - 1)).user = true)
    (hn : lo < va + n + PGSIZE) (hend : va + n ≤ lo + PGSIZE) :
    UserRange m d va n ↔ lo ≤ va := by
  simp only [PGSIZE] at hlo hn hend
  constructor
  · intro hall
    by_contra hc
    have hg := hall (top - 2)
    rw [hguard] at hg
    refine absurd (hg ?_ ?_) (by simp) <;> rw [PGSIZE] <;> omega
  · intro hle b hb hb'
    have hbe : b = top - 1 := by
      simp only [PGSIZE] at hb hb'
      omega
    rw [hbe]
    exact huser

/-- A push that wraps ends in the last page of all. -/
theorem pushDown_cases (sp n : ℕ) (hsp : sp ≤ 2 ^ 31) (hn : n ≤ sp + PGSIZE) :
    n ≤ sp ∧ pushDown sp n = (sp-n) / 4 * 4 ∨ sp < n ∧ pushDown sp n / PGSIZE = NPAGES - 1 := by
  simp only [pushDown,PGSIZE,NPAGES,NPDENTRIES,NPTENTRIES] at hn ⊢
  omega

/-- `copyout` inside the mapped pages, or at the last page, stores its bytes; it succeeds only if
all pages it goes through are for users. -/
theorem wp_copyout {fuel va : ℕ} {buf : List UInt8} (hi : Img data c r d top)
    (hs : Stacked r.mem d top) (h : Sep A r.mem D R) (hd : d ∈ D) (hfuel : buf.length ≤ fuel)
    (hva : va + buf.length ≤ top * PGSIZE ∨ va / PGSIZE = NPAGES - 1) :
    wp E (copyout d fuel va buf) r fun ok r' => r'.mem = r.mem ∧ Spared A D R d r r' ∧
      (ok = true → Img data (overlay c va buf) r' d top) ∧
      (ok = true ↔ (0 < buf.length → UserRange r.mem d va buf.length)) := by
  induction fuel generalizing va buf r c with
  | zero =>
    have hnil : buf = [] := List.length_eq_zero_iff.mp (by omega)
    refine ⟨rfl,.refl r,fun _ => ?_,iff_of_true rfl fun hlen => by omega⟩
    rw [hnil,overlay_nil]
    exact hi
  | succ n ih =>
    have hKN : KERNPAGE < NPAGES := by decide
    have hle := hs.le
    rw [copyout]
    refine wp_ite (fun h0 => ⟨rfl,.refl r,fun _ => ?_,iff_of_true rfl fun hlen => by omega⟩)
      fun hlen => ?_
    · rw [List.length_eq_zero_iff.mp h0,overlay_nil]
      exact hi
    have hpage : va / PGSIZE < NPAGES ∧ (entry r.mem d (va / PGSIZE)).present = true := by
      rcases hva with hva | hva
      · have hlt : va / PGSIZE < top := by
          simp only [PGSIZE] at hva ⊢
          omega
        exact ⟨by omega,hs.mapped _ hlt⟩
      · rw [hva]
        exact ⟨by omega,hs.last.1⟩
    rw [wp_bind,low,wp_zoom]
    refine wp_walk_present hpage.1 hpage.2 fun t _ he => ?_
    simp only [wp_bind,low,wp_zoom,wp_read,← he]
    have hstep := fun k => userRange_step (m := r.mem) (d := d) (k := k) va
      (Nat.pos_of_ne_zero hlen)
    refine wp_ite (fun hbad => ⟨rfl,.refl r,by simp,iff_of_false (by simp) fun hall => ?_⟩)
      fun hgood => ?_
    · have hfirst := ((hstep _ rfl).mp (hall (Nat.pos_of_ne_zero hlen))).1
      simp [hpage.2,hfirst] at hbad
    have huser : (entry r.mem d (va / PGSIZE)).user = true := by
      simp only [hpage.2,Bool.not_true,Bool.false_or,Bool.not_eq_eq_eq_not,
        Bool.not_eq_false] at hgood
      exact hgood
    have hlow : va + buf.length ≤ top * PGSIZE := by
      refine hva.resolve_right fun hva => ?_
      rw [hva,hs.last.2] at huser
      cases huser
    -- the next page starts below the end, so the address does not wrap
    have hmod : (va / PGSIZE + 1) * PGSIZE % 2 ^ 32 = (va / PGSIZE + 1) * PGSIZE := by
      refine mod_eq_of_lt ?_
      simp only [PGSIZE,KERNPAGE] at hlow hle ⊢
      omega
    obtain ⟨m,hm⟩ : ∃ m, m = min (PGSIZE - va % PGSIZE) buf.length := ⟨_,rfl⟩
    have hlt : va / PGSIZE < top := by
      simp only [PGSIZE] at hlow ⊢
      omega
    have hrest : va % PGSIZE < PGSIZE := mod_lt _ (by decide)
    have htake : (buf.take m).length = m := by
      rw [length_take]
      omega
    have hstore := hi.store (va % PGSIZE) (buf.take m) h hd hle hs.mapped hlt (by omega) rfl
    rw [div_add_mod'] at hstore
    rw [store,wp_bind,wp_modify,hmod,← hm]
    refine (ih hstore.1 hs h ?_ (.inl ?_)).mono ?_
    · rw [length_drop]
      omega
    · rw [length_drop]
      simp only [PGSIZE] at hm hlow ⊢
      omega
    rintro ok r' ⟨hmem,hspare,hok,hall⟩
    refine ⟨hmem.trans (r.store_mem ..),hstore.2.trans_of_eq (r.store_mem ..) hspare,
      fun hok' => ?_,?_⟩
    · have himg := hok hok'
      by_cases hdone : buf.length ≤ m
      · rw [drop_eq_nil_of_le hdone,overlay_nil,take_of_length_le hdone] at himg
        exact himg
      · have hnext : (va / PGSIZE + 1) * PGSIZE = va + (buf.take m).length := by
          rw [htake]
          simp only [PGSIZE] at hm ⊢
          omega
        rw [hnext,overlay_append,take_append_drop] at himg
        exact himg
    · rw [length_drop] at hall
      rw [hall,hstep m hm]
      exact ⟨fun hrest _ => ⟨huser,hrest⟩,fun h => (h (Nat.pos_of_ne_zero hlen)).2⟩

/-- What a string with its NUL takes on the stack. -/
def argSize (arg : List UInt8) : ℕ := (arg.length + 4) / 4 * 4

/-- What the arguments take with the words that `exec` adds. -/
def encodedSize (argv : List (List UInt8)) : ℕ := (argv.map argSize).sum + 4 * (argv.length + 4)

/-- The strings lie at these addresses, between `lo` and `hi`. -/
def Strings (c : ℕ → UInt8) (lo hi : ℕ) (args : List (List UInt8)) (ptrs : List ℕ) : Prop :=
  List.Forall₂ (fun arg p => p % 4 = 0 ∧ lo ≤ p ∧ p + arg.length < hi ∧
    ∀ j, j ≤ arg.length → c (p + j) = (arg ++ [0]).getD j 0) args ptrs

def wordAt (c : ℕ → UInt8) (va : ℕ) : ℕ :=
  (c va).toNat + 256 * (c (va + 1)).toNat + 256 ^ 2 * (c (va + 2)).toNat +
    256 ^ 3 * (c (va + 3)).toNat

/-- What `main` finds at the stack pointer: a return address, `argc`, `argv` and the array of
pointers to the strings, everything between `lo` and `hi`. -/
structure ArgvAt (c : ℕ → UInt8) (lo hi : ℕ) (argv : List (List UInt8)) (sp : ℕ) : Prop where
  low : lo ≤ sp
  high : sp + 4 * (argv.length + 4) ≤ hi
  aligned : sp % 4 = 0
  ret : wordAt c sp = 0xffffffff
  argc : wordAt c (sp + 4) = argv.length
  array : wordAt c (sp + 8) = sp + 12
  null : wordAt c (sp + 12 + 4 * argv.length) = 0
  strings : Strings c lo hi argv
    ((List.range argv.length).map fun i => wordAt c (sp + 12 + 4 * i))

theorem wordAt_congr {c c' : ℕ → UInt8} {va : ℕ} (h : ∀ k, k < 4 → c' (va+k) = c (va+k)) :
    wordAt c' va = wordAt c va := by
  have h0 := h 0 (by omega)
  rw [Nat.add_zero] at h0
  rw [wordAt,wordAt,h0,h 1 (by omega),h 2 (by omega),h 3 (by omega)]

theorem wordAt_wordBytes (c : ℕ → UInt8) (va : ℕ) {w : ℕ} (hw : w < 2 ^ 32) :
    wordAt (overlay c va (wordBytes w)) va = w := by
  have hbyte : ∀ k, k < 4 → overlay c va (wordBytes w) (va+k) = Block.wordByte w k := by
    intro k hk
    rw [overlay,if_pos (by simp [wordBytes,hk]),Nat.add_sub_cancel_left]
    simp [wordBytes,getD_eq_getElem?_getD,hk]
  have h0 := hbyte 0 (by omega)
  rw [Nat.add_zero] at h0
  rw [wordAt,h0,hbyte 1 (by omega),hbyte 2 (by omega),hbyte 3 (by omega)]
  simp only [Block.toNat_wordByte]
  omega

theorem wordAt_words {c : ℕ → UInt8} {va i w : ℕ} {ws : List ℕ} (hi : ws[i]? = some w)
    (hw : w < 2 ^ 32) : wordAt (overlay c va (ws.flatMap wordBytes)) (va + 4 * i) = w := by
  induction ws generalizing c va i with
  | nil => cases hi
  | cons w' ws ih =>
    have hlen : (wordBytes w').length = 4 := rfl
    rw [flatMap_cons,← overlay_append,hlen]
    cases i with
    | zero =>
      cases hi
      rw [Nat.mul_zero,Nat.add_zero]
      refine (wordAt_congr fun k hk => ?_).trans (wordAt_wordBytes c va hw)
      exact overlay_of_lt (by omega)
    | succ i =>
      rw [show va + 4 * (i+1) = va + 4 + 4 * i by omega]
      exact ih hi

/-- The guard page keeps the stack pointer within the stack page: a push that succeeds ends above
the guard. -/
theorem wp_pushArgs {sp lo : ℕ} {ptrs : List ℕ} {args : List (List UInt8)}
    (hlo : top * PGSIZE = lo + PGSIZE) (hs : Stacked r.mem d top) (htop : 2 ≤ top)
    (hguard : (entry r.mem d (top - 2)).user = false)
    (huser : (entry r.mem d (top - 1)).user = true) (h : Sep A r.mem D R) (hd : d ∈ D)
    (hi : Img data (byteAt r d) r d top) (hshort : ∀ arg ∈ args, arg.length < lo + PGSIZE)
    (hptrs : ptrs.length ≤ MAXARG) (hlow : lo ≤ sp) (hhigh : sp ≤ lo + PGSIZE) (hal : sp % 4 = 0) :
    wp E (pushArgs d args sp ptrs) r fun v r' => r'.mem = r.mem ∧ Spared A D R d r r' ∧
      (∀ sp' ptrs', v = some (sp', ptrs') → lo ≤ sp' ∧ sp' % 4 = 0 ∧
        sp' + (args.map argSize).sum = sp ∧ Img data (byteAt r' d) r' d top ∧
        (∀ va, va < lo + PGSIZE → va < sp' ∨ sp ≤ va → byteAt r' d va = byteAt r d va) ∧
        ∃ news, ptrs' = ptrs ++ news ∧ Strings (byteAt r' d) sp' sp args news) ∧
      (v.isSome = true ↔ ptrs.length + args.length ≤ MAXARG ∧
        lo + (args.map argSize).sum ≤ sp) := by
  have hPG : PGSIZE = 4096 := rfl
  induction args generalizing sp ptrs r with
  | nil =>
    refine ⟨rfl,.refl r,fun sp' ptrs' hv => ?_,iff_of_true rfl ⟨hptrs,hlow⟩⟩
    cases hv
    exact ⟨hlow,hal,rfl,hi,fun _ _ _ => rfl,[],(append_nil _).symm,.nil⟩
  | cons arg args ih =>
    have hlen := hshort arg mem_cons_self
    have hle : lo + PGSIZE ≤ 2 ^ 31 := hlo ▸ Nat.mul_le_mul_right _ hs.le
    have hlength : (arg ++ [0]).length = arg.length + 1 := length_append
    have harg : argSize arg = (arg.length + 4) / 4 * 4 := rfl
    rw [pushArgs,map_cons,sum_cons,length_cons]
    refine wp_ite (fun hbad => ⟨rfl,.refl r,by simp,iff_of_false (by simp) (by omega)⟩)
      fun hmax => ?_
    have hcases := pushDown_cases sp (arg.length + 1) (by omega) (by omega)
    obtain ⟨sp1,hsp1⟩ : ∃ sp1, sp1 = pushDown sp (arg.length + 1) := ⟨_,rfl⟩
    rw [← hsp1] at hcases ⊢
    have hva : sp1 + (arg ++ [0]).length ≤ top * PGSIZE ∨ sp1 / PGSIZE = NPAGES - 1 :=
      hcases.imp (by omega) And.right
    refine (wp_copyout hi hs h hd hlength.le hva).bind ?_
    rintro ok r' ⟨hmem,hspare,hok,hall⟩
    have hroom : ok = true ↔ lo + argSize arg ≤ sp := by
      rw [hall,hlength]
      rcases hcases with ⟨hle1,heq⟩ | ⟨hwrap,hlast⟩
      · rw [userRange_stack hlo htop hguard huser (by omega) (by omega)]
        omega
      · refine iff_of_false (fun hu => ?_) (by omega)
        have hu := hu (by omega) (NPAGES - 1) hlast.le (by
          rw [← hlast]
          have := div_mul_le_self sp1 PGSIZE
          omega)
        rw [hs.last.2] at hu
        cases hu
    refine wp_ite (fun hok' => ?_) fun hok' => ⟨hmem,hspare,by simp,iff_of_false (by simp) ?_⟩
    swap
    · rw [hroom] at hok'
      omega
    have himg := hok hok'
    have hfit := hroom.mp hok'
    have hdown : sp1 + argSize arg = sp := by omega
    rw [← hmem] at hs hguard huser h
    refine (ih hs hguard huser h ⟨fun _ _ => rfl,himg.only⟩
      (fun x hx => hshort x (mem_cons_of_mem _ hx)) ?_ (by omega) (by omega) (by omega)).mono ?_
    · rw [length_append,length_singleton]
      omega
    rintro v r'' ⟨hmem',hspare',hres,hiff⟩
    refine ⟨hmem'.trans hmem,hspare.trans_of_eq hmem hspare',fun sp' ptrs' hv => ?_,?_⟩
    · obtain ⟨hsp',hal',hsum,himg',hsame,news,hnews,hstr⟩ := hres sp' ptrs' hv
      refine ⟨hsp',hal',by omega,himg',fun va hva' hout => ?_,sp1 :: news,?_,?_⟩
      · rw [hsame va hva' (by omega),himg.bytes va (by omega),overlay,if_neg]
        rw [hlength]
        omega
      · rw [hnews,append_assoc]
        rfl
      · refine .cons ⟨by omega,by omega,by omega,fun j hj => ?_⟩ (hstr.imp ?_)
        · rw [hsame _ (by omega) (by omega),himg.bytes _ (by omega),overlay,if_pos,
            Nat.add_sub_cancel_left]
          rw [hlength]
          omega
        · rintro x p ⟨hp,hlo',hhi,hbytes⟩
          exact ⟨hp,hlo',by omega,hbytes⟩
    · rw [hiff,length_append,length_singleton]
      omega

theorem wp_pushStack {lo : ℕ} {argv : List (List UInt8)} (hlo : top * PGSIZE = lo + PGSIZE)
    (hs : Stacked r.mem d top) (htop : 2 ≤ top) (hguard : (entry r.mem d (top - 2)).user = false)
    (huser : (entry r.mem d (top - 1)).user = true) (h : Sep A r.mem D R) (hd : d ∈ D)
    (hi : Img data (byteAt r d) r d top) (hshort : ∀ arg ∈ argv, arg.length < lo + PGSIZE) :
    wp E (pushStack d argv (lo + PGSIZE)) r fun v r' => r'.mem = r.mem ∧ Spared A D R d r r' ∧
      (∀ sp, v = some sp → Img data (byteAt r' d) r' d top ∧
        (∀ va, va < lo → byteAt r' d va = byteAt r d va) ∧
        ArgvAt (byteAt r' d) lo (lo + PGSIZE) argv sp) ∧
      (v.isSome = true ↔ argv.length ≤ MAXARG ∧ encodedSize argv ≤ PGSIZE) := by
  have hPG : PGSIZE = 4096 := rfl
  have hMA : MAXARG = 32 := rfl
  have hle : lo + PGSIZE ≤ 2 ^ 31 := hlo ▸ Nat.mul_le_mul_right _ hs.le
  have hge : PGSIZE ≤ lo ∧ lo % 4 = 0 := by
    simp only [PGSIZE] at hlo ⊢
    omega
  rw [pushStack]
  refine (wp_pushArgs hlo hs htop hguard huser h hd hi hshort (Nat.zero_le _) (by omega) le_rfl
    (by omega)).bind ?_
  rintro (_ | ⟨sp,ptrs⟩) r' ⟨hmem,hspare,hres,hiff⟩
  · refine ⟨hmem,hspare,by simp,iff_of_false (by simp) fun hfit => ?_⟩
    rw [encodedSize] at hfit
    exact absurd (hiff.mpr ⟨by simpa using hfit.1,by omega⟩) (by simp)
  obtain ⟨hsp,hal,hsum,himg,hsame,news,hnews,hstr⟩ := hres sp ptrs rfl
  have hptrs : 0 + argv.length ≤ MAXARG := (hiff.mp rfl).1
  obtain rfl : ptrs = news := hnews
  have hargc : argv.length = ptrs.length := hstr.length_eq
  have hlen := length_ustack sp ptrs
  obtain ⟨sp',hsp'⟩ : ∃ sp', sp' = (sp + 2 ^ 32 - (3 + ptrs.length + 1) * 4) % 2 ^ 32 := ⟨_,rfl⟩
  have hdown : sp' + 4 * (ptrs.length + 4) = sp := by omega
  rw [← hmem] at hs hguard huser h
  dsimp only
  rw [← hsp']
  refine (wp_copyout himg hs h hd hlen.le (.inl (by rw [hlen]; omega))).bind ?_
  rintro ok r'' ⟨hmem',hspare',hok,hall⟩
  -- `ustack` does not reach down to the guard page
  have hroom : ok = true ↔ lo ≤ sp' := by
    rw [hall,hlen,userRange_stack hlo htop hguard huser (by omega) (by omega)]
    exact ⟨fun hu => hu (by omega),fun hu _ => hu⟩
  refine ⟨hmem'.trans hmem,hspare.trans_of_eq hmem hspare',fun sp0 hv => ?_,?_⟩
  swap
  · have hsome : (if ok then some sp' else none).isSome = true ↔ ok = true := by
      cases ok <;> simp
    rw [hsome,hroom,encodedSize]
    omega
  cases ok with
  | false => exact absurd hv (by simp)
  | true =>
    obtain rfl : sp' = sp0 := Option.some.inj hv
    have himg' := hok rfl
    have hlow := hroom.mp rfl
    have hbyte : ∀ va, va < lo + PGSIZE →
        byteAt r'' d va = overlay (byteAt r' d) sp' (ustack sp ptrs) va :=
      fun va hva => himg'.bytes va (hlo ▸ hva)
    have hword : ∀ i w, (0xffffffff :: ptrs.length :: (sp + 2 ^ 32 - (ptrs.length + 1) * 4) %
        2 ^ 32 :: (ptrs ++ [0]))[i]? = some w → i < ptrs.length + 4 → w < 2 ^ 32 →
        wordAt (byteAt r'' d) (sp' + 4 * i) = w := by
      intro i w hiw hi4 hw
      refine (wordAt_congr fun k hk => ?_).trans (wordAt_words (c := byteAt r' d) hiw hw)
      exact hbyte _ (by omega)
    have hptr : ∀ i p, ptrs[i]? = some p → wordAt (byteAt r'' d) (sp' + 12 + 4 * i) = p := by
      intro i p hp
      obtain ⟨hlt,hget⟩ := List.getElem?_eq_some_iff.mp hp
      have hstr' := List.forall₂_iff_get.mp hstr
      have hpp := hstr'.2 i (by omega) hlt
      rw [get_eq_getElem,get_eq_getElem,hget] at hpp
      rw [show sp' + 12 + 4 * i = sp' + 4 * (i + 3) by omega]
      refine hword (i + 3) p ?_ (by omega) (by omega)
      simp only [getElem?_cons_succ]
      rw [getElem?_append_left hlt,hp]
    refine ⟨⟨fun _ _ => rfl,himg'.only⟩,fun va hva => ?_,
      ⟨hlow,by omega,by omega,?_,?_,?_,?_,?_⟩⟩
    · rw [hbyte va (by omega),overlay_of_lt (hva.trans_le hlow),
        hsame va (by omega) (.inl (hva.trans_le hsp))]
    · exact hword 0 _ rfl (by omega) (by omega)
    · rw [hargc]
      exact hword 1 _ rfl (by omega) (by omega)
    · rw [hword 2 _ rfl (by omega) (mod_lt _ (by omega))]
      omega
    · rw [hargc,show sp' + 12 + 4 * ptrs.length = sp' + 4 * (ptrs.length + 3) by omega]
      refine hword _ 0 ?_ (by omega) (by omega)
      simp
    have hread : ((List.range argv.length).map fun i =>
        wordAt (byteAt r'' d) (sp' + 12 + 4 * i)) = ptrs := by
      refine ext_getElem? fun i => ?_
      cases hp : ptrs[i]? with
      | none =>
        rw [List.getElem?_eq_none_iff] at hp ⊢
        simpa [hargc] using hp
      | some p =>
        have hlt := (List.getElem?_eq_some_iff.mp hp).1
        rw [getElem?_map,getElem?_range (by omega),Option.map_some,hptr i p hp]
    rw [hread]
    refine hstr.imp ?_
    rintro arg p ⟨hp,hlo,hhi,hbytes⟩
    refine ⟨hp,hsp.trans hlo,hhi,fun j hj => ?_⟩
    rw [hbyte _ (lt_of_le_of_lt (Nat.add_le_add_left hj p) hhi),overlay,
      if_neg (by rw [hlen]; omega)]
    exact hbytes j hj

end Stack

theorem wp_clearpteu (h : Sep A m D R) (hd : d ∈ D) (ha : a < NPAGES)
    (hp : (entry m d a).present = true) :
    wp E (clearpteu d a) m fun _ m' => Sep A m' D R ∧ KeepBut m m' D d ∧
      ∀ b, entry m' d b = if b = a then { entry m d a with user := false } else entry m d b := by
  rw [clearpteu,wp_bind]
  refine wp_walk_present ha hp fun t ht he => ?_
  rw [wp_bind,wp_read,wp_modify,← he]
  obtain ⟨hbut,-,hentry⟩ := h.setEntry hd ht { entry m d a with user := false }
  exact ⟨h.setOther hd ht (.inr ⟨rfl,rfl⟩),hbut,hentry⟩

/-- The program can be loaded and its arguments fit the stack page. -/
structure Executable (sgs : List (Option Seg)) (argv : List (List UInt8)) : Prop where
  loads : Loadable sgs 0
  room : imagePages sgs * PGSIZE < KERNBASE
  argc : argv.length ≤ MAXARG
  size : encodedSize argv ≤ PGSIZE

/-- The address space has size `sz`, its bytes below the stack page are `c`, the arguments are on
that page, and only its bytes are not those of `data`. -/
structure Ready (data : ℕ → Block PGSIZE) (c : ℕ → UInt8) (argv : List (List UInt8)) (r : Ram)
    (d sz sp : ℕ) : Prop where
  le : sz ≤ KERNBASE
  maps : Maps r.mem d sz
  bytes : ∀ va, va + PGSIZE < sz → byteAt r d va = c va
  stack : ArgvAt (byteAt r d) (sz - PGSIZE) sz argv sp
  only : ∀ f, r.data f ≠ data f → ∃ b, b < pgup sz ∧ (entry r.mem d b).frame = f

section Image

variable {r : Ram} {data : ℕ → Block PGSIZE} {good : Bool} {sgs : List (Option Seg)}
  {argv : List (List UInt8)}

variable (hA : ∀ f ∈ A, L.kend ≤ f ∧ f < L.phystop)
include hA

theorem wp_buildImage (hshort : ShortArgs sgs argv) (h : Sep A r.mem D R) (hd : d ∈ D)
    (hf : Filled data (fun _ => 0) r d 0) (hlast : TopKernel r.mem d) :
    wp E (buildImage L d sgs argv) r fun v r' => Building A D R d r r' ∧
      (∀ sz sp, v = some (sz, sp) → Ready data (content sgs fun _ => 0) argv r' d sz sp) ∧
      (v.isSome = true ↔ Executable sgs argv ∧ r.mem.Grants (imagePages sgs +
        missing r.mem d (dirEntries 0 (imagePages sgs)))) := by
  have hround : ∀ k, pgup (k*PGSIZE) = k := fun k => by
    simp only [pgup,PGSIZE]
    omega
  generalize hn : pgup (imageSize sgs 0) = n
  have htop : imagePages sgs = n+2 := congrArg (· + 2) hn
  rw [ShortArgs,htop] at hshort
  rw [htop]
  have hsz : n * PGSIZE + 2 * PGSIZE = (n+2) * PGSIZE := (Nat.add_mul ..).symm
  -- without the pages the image is not made
  have hdraw0 : ∀ {m' ok}, DrawsTo r.mem m' d 0 ((n+2) * PGSIZE) ok →
      (ok ↔ r.mem.Grants (n + 2 + missing r.mem d (dirEntries 0 (n+2)))) := by
    intro m' ok hdraw
    have hiff := Draws.iff hdraw
    rwa [pgup_zero,hround,Nat.sub_zero] at hiff
  rw [buildImage]
  refine (wp_loadSegs hA h hd hf).bind fun v r1 hpost => ?_
  obtain ⟨hb1,hres1,hfail1⟩ := hpost
  cases v with
  | none =>
    refine ⟨hb1,by simp,iff_of_false (by simp) fun hc => ?_⟩
    have hdraw := (hfail1 rfl hc.1.loads).fail (u := r1.mem) (k := (n+2) * PGSIZE)
    rw [hround,hn] at hdraw
    exact (hdraw0 (hdraw (Nat.le_add_right n 2))).mpr hc.2
  | some sz =>
    have hdone := hres1 sz rfl
    have hsize := hdone.1
    have hf1 := hdone.2.1
    have hloads := hdone.2.2.1
    have hdraw1 := hdone.2.2.2
    subst hsize
    dsimp only
    rw [hn,hsz]
    have hf1' : Filled data (content sgs fun _ => 0) r1 d (n*PGSIZE) := by
      have htop := pgup_le_kernpage hf1.le
      refine ⟨Nat.mul_le_mul_right _ (hn ▸ htop),?_,?_,?_⟩
      · rw [Maps,hround,← hn]
        exact hf1.maps
      · rw [hround,← hn]
        exact hf1.img
      · rw [hround,← hn]
        exact hf1.zero
    have hdraw1' : DrawsTo r.mem r1.mem d 0 (n*PGSIZE) True := by
      rw [DrawsTo,hround,← hn]
      exact hdraw1
    have hup : pgup (n*PGSIZE) ≤ pgup ((n+2) * PGSIZE) := by
      rw [hround,hround]
      exact Nat.le_add_right n 2
    have hup0 : pgup 0 ≤ pgup (n*PGSIZE) := pgup_mono (Nat.zero_le _)
    have hmax : max (n*PGSIZE) ((n+2) * PGSIZE) = (n+2) * PGSIZE := by
      rw [← hsz]
      exact Nat.max_eq_right (Nat.le_add_right _ _)
    have hpos : 0 < (n+2) * PGSIZE := Nat.mul_pos (by omega) (by decide)
    refine (wp_grow hA hb1.sep hd hf1').bind ?_
    rw [hmax]
    rintro sz2 r2 ⟨hb2,hres2,hfail2⟩
    refine wp_ite (fun h0 => ⟨hb1.trans hb2,by simp,iff_of_false (by simp) fun hc => ?_⟩)
      fun hne => ?_
    · exact (hdraw0 (hdraw1'.trans hup0 hup (hfail2 h0 (htop ▸ hc.1.room) hpos))).mpr hc.2
    obtain ⟨rfl,hroom,hf2,huser2,hdraw2⟩ := hres2 hne
    have hgrants := (hdraw0 (hdraw1'.trans hup0 hup hdraw2)).mp trivial
    have hmaps2 := hf2.maps
    have himg2 := hf2.img
    rw [Maps,hround] at hmaps2
    rw [hround] at himg2
    have hn2 : n + 2 ≤ KERNPAGE := hround (n+2) ▸ pgup_le_kernpage hf2.le
    have hKN : KERNPAGE < NPAGES := by decide
    have hdiv : (n+2) * PGSIZE / PGSIZE - 2 = n := by
      rw [Nat.mul_div_cancel _ (by decide)]
      omega
    rw [hdiv,wp_bind,low,wp_zoom]
    refine (wp_clearpteu hb2.sep hd (by omega) ((hmaps2 n (by omega)).mpr (by omega))).mono ?_
    rintro - m3 ⟨h3,hbut3,hentry3⟩
    have hframe : ∀ b, (entry m3 d b).frame = (entry r2.mem d b).frame ∧
        (entry m3 d b).present = (entry r2.mem d b).present := by
      intro b
      rw [hentry3]
      by_cases hbn : b = n
      · rw [hbn,if_pos rfl]
        exact ⟨rfl,rfl⟩
      · rw [if_neg hbn]
        exact ⟨rfl,rfl⟩
    have hup3 : Upto m3 d (n+2) := fun b hb => by
      rw [(hframe b).2]
      exact hmaps2 b hb
    have hkern3 : ∀ b, KERNPAGE ≤ b → entry m3 d b = entry r2.mem d b := fun b hb => by
      rw [hentry3,if_neg (by omega)]
    have hb3 : Building A D R d r ⟨m3,r2.data⟩ :=
      (hb1.trans hb2).trans ⟨h3,hbut3,hkern3,fun _ _ => rfl⟩
    have hs : Stacked m3 d (n+2) := by
      refine ⟨hn2,fun b hb => (hup3 b (by omega)).mpr hb,?_⟩
      rw [TopKernel,hb3.kernel _ (by decide)]
      exact hlast
    rw [wp_bind]
    have himg3 := himg2.frames fun b => (hframe b).1
    have hlo : (n+2) * PGSIZE = (n+1) * PGSIZE + PGSIZE := succ_mul (n+1) PGSIZE
    rw [hlo] at hshort ⊢
    refine (wp_pushStack (r := ⟨m3,r2.data⟩) hlo hs (by omega) ?_ ?_ h3 hd
      ⟨fun _ _ => rfl,himg3.only⟩ hshort).mono ?_
    · rw [show n + 2 - 2 = n by omega,hentry3,if_pos rfl]
    · rw [show n + 2 - 1 = n + 1 by omega,hentry3,if_neg (by omega)]
      rw [hround,hround] at huser2
      exact huser2 (n+1) (by omega) (by omega)
    rintro v r4 ⟨hmem,hspare,hok,hiff⟩
    refine ⟨hb3.trans (.of_mem_eq h3 hmem hspare),fun sz sp hv => ?_,?_⟩
    · obtain ⟨sp',rfl,hv⟩ := Option.map_eq_some_iff.mp hv
      cases hv
      obtain ⟨himg,hsame,hstack⟩ := hok sp rfl
      have hbase : (n+1) * PGSIZE + PGSIZE - PGSIZE = (n+1) * PGSIZE := add_tsub_cancel_right _ _
      refine ⟨hlo ▸ hf2.le,?_,fun va hva => ?_,?_,?_⟩
      · rw [Maps,← hlo,hround,hmem]
        exact hup3
      · rw [hsame va (by omega)]
        exact himg3.bytes va (by omega)
      · rw [hbase]
        exact hstack
      · rw [← hlo,hround]
        exact himg.only
    · rw [Option.isSome_map,hiff]
      exact ⟨fun hfit => ⟨⟨hloads,htop ▸ hroom,hfit.1,hfit.2⟩,hgrants⟩,fun hc => ⟨hc.1.argc,hc.1.size⟩⟩

/-- `exec` up to its commit makes an address space with the program and its arguments, or leaves
everything as it was; which of the two, the program, its arguments and the free pages decide. -/
theorem wp_execImage (hshort : ShortArgs sgs argv) (h : Sep A r.mem D R) :
    wp E (execImage L good sgs argv) r fun v r' =>
    (∀ d ∈ D, Keep r.mem r'.mem d) ∧ Untouched r r' ∧ (v = none → Sep A r'.mem D R) ∧
      (∀ d sz sp, v = some (d, sz, sp) → d ∉ D ∧ Sep A r'.mem (insert d D) R ∧
        Ready r.data (content sgs fun _ => 0) argv r' d sz sp) ∧
      (v.isSome = true ↔ good = true ∧ Executable sgs argv ∧
        r.mem.Grants (spacePages L (imagePages sgs))) := by
  rw [execImage]
  refine wp_ite (fun hbad => ?_) fun hgood => ?_
  · exact ⟨fun d _ => .refl _ d,.refl r,fun _ => h,by simp,
      iff_of_false (by simp) fun hc => by simp [hc.1] at hbad⟩
  rw [wp_bind,low,wp_zoom]
  refine (wp_setupkvm hA h).mono ?_
  rintro (_ | d) m1 ⟨hk1,hsep,hsome,hgrant⟩
  · exact ⟨hk1,fun _ _ => rfl,fun _ => hsep rfl,by simp,iff_of_false (by simp) fun hc =>
      absurd (hgrant.mpr (hc.2.2.mono (Nat.le_add_right _ _))) (by simp)⟩
  obtain ⟨hdD,h1,hmaps1,hlast1,hset⟩ := hsome d rfl
  have hf : Filled r.data (fun _ => 0) ⟨m1,r.data⟩ d 0 := by
    refine ⟨Nat.zero_le _,hmaps1,⟨fun va hva => ?_,fun f hf => absurd rfl hf⟩,fun _ _ => rfl⟩
    rw [pgup_zero] at hva
    omega
  rw [wp_bind]
  refine (wp_buildImage (r := ⟨m1,r.data⟩) hA hshort h1 (Set.mem_insert _ _) hf hlast1).mono ?_
  rintro v r2 ⟨hb,hres,hiff⟩
  have hk2 : ∀ d' ∈ D, Keep r.mem r2.mem d' := fun d' hd' =>
    (hk1 d' hd').trans (hb.others d' (.inr hd') fun e => hdD (e ▸ hd'))
  have hunt : Untouched r r2 := hb.spared.untouched hdD h hk1 rfl
  have hmade : v.isSome = true ↔ good = true ∧ Executable sgs argv ∧
      r.mem.Grants (spacePages L (imagePages sgs)) := by
    have hpages : Executable sgs argv → imagePages sgs ≤ KERNPAGE := fun hfit =>
      Nat.le_of_mul_le_mul_right hfit.room.le (by decide)
    rw [hiff]
    constructor
    · rintro ⟨hfit,hg⟩
      exact ⟨by simpa using hgood,hfit,(hset.grants_iff (hgrant.mp rfl) (hpages hfit)).mp hg⟩
    · rintro ⟨-,hfit,hg⟩
      exact ⟨hfit,(hset.grants_iff (hgrant.mp rfl) (hpages hfit)).mpr hg⟩
  cases v with
  | none =>
    rw [wp_bind,low,wp_zoom]
    refine (wp_freevm hA hb.sep hdD).mono ?_
    rintro - m3 ⟨h3,hk3⟩
    exact ⟨fun d' hd' => (hk2 d' hd').trans (hk3 d' hd'),hunt,fun _ => h3,by simp,hmade⟩
  | some x =>
    refine ⟨hk2,hunt,by simp,fun d' sz' sp' hv => ?_,hmade⟩
    cases hv
    exact ⟨hdD,hb.sep,hres x.1 x.2 rfl⟩

end Image

end Exec

end Xv6Container.Vm
