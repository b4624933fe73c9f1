import Xv6Container.Lib.Block
import Xv6Container.Vm.Tables

/-!
# The bytes of user pages

`Ram` adds to `Mem` the bytes of every page that a user can have mapped; those of other pages are
not kept, since no one reads them before they are cleared.
-/

namespace Xv6Container.Vm

open Function Prog Set

/-- Physical memory with the bytes of user pages. -/
structure Ram where
  mem : Mem
  data : ℕ → Block PGSIZE

abbrev B := Prog Ram Stop

/-- A function that stores no bytes in user pages. -/
def low {α : Type} (x : V α) : B α := zoom Ram.mem (fun r m => { r with mem := m }) x

/-- `memset(f, 0, PGSIZE)`. -/
def clear (f : ℕ) : B Unit :=
  modify fun r => ⟨r.mem.wipe f .zero, update r.data f .zero⟩

/-- `memmove(g, f, PGSIZE)`. -/
def copyPage (f g : ℕ) : B Unit :=
  modify fun r => ⟨r.mem.copy f g, update r.data g (r.data f)⟩

variable (L : Layout)

/-- The loop of `allocuvm`, `n` more pages from `a` on. -/
def allocLoop (d oldsz newsz : ℕ) : (n a : ℕ) → B ℕ
  | 0, _ => pure newsz
  | n + 1, a => do
    match ← low kalloc with
    | none => do
      let _ ← low (deallocuvm L d newsz oldsz)
      pure 0
    | some mem => do
      clear mem
      if ← low (mappages d a 1 mem true true) then allocLoop d oldsz newsz n (a + 1)
      else do
        let _ ← low (deallocuvm L d newsz oldsz)
        low (kfree L mem)
        pure 0

def allocuvm (d oldsz newsz : ℕ) : B ℕ := do
  if KERNBASE ≤ newsz then pure 0
  else if newsz < oldsz then pure oldsz
  else allocLoop L d oldsz newsz (pgup newsz - pgup oldsz) (pgup oldsz)

/-- The loop of `copyuvm`, `n` more pages from `i` on. -/
def copyLoop (d nd : ℕ) : (n i : ℕ) → B Bool
  | 0, _ => pure true
  | n + 1, i => do
    match ← low (walkpgdir d i false) with
    | none => stop (.panic "copyuvm: pte should exist")
    | some (t, k) => do
      let pte ← low (read fun m => m.tab t k)
      if !pte.present then stop (.panic "copyuvm: page not present")
      match ← low kalloc with
      | none => pure false
      | some mem => do
        copyPage pte.frame mem
        if ← low (mappages nd i 1 mem pte.write pte.user) then copyLoop d nd n (i + 1)
        else do
          low (kfree L mem)
          pure false

def copyuvm (d sz : ℕ) : B (Option ℕ) := do
  match ← low (setupkvm L) with
  | none => pure none
  | some nd => do
    if ← copyLoop L d nd (pgup sz) 0 then pure (some nd)
    else do
      low (freevm L nd)
      pure none

/-- The pages from `lo` up to `hi` are mapped to pages that were free, with bytes zero, for users
and writable; the other entries and the bytes of other pages are as before. -/
structure Gained (r r' : Ram) (d lo hi : ℕ) : Prop where
  outside : ∀ b, b < lo ∨ hi ≤ b → entry r'.mem d b = entry r.mem d b
  inside : ∀ b, lo ≤ b → b < hi →
    ∃ f ∈ r.mem.freelist, entry r'.mem d b = ⟨f, true, true, true⟩ ∧ r'.data f = .zero
  only : ∀ f, r'.data f ≠ r.data f → ∃ b, lo ≤ b ∧ b < hi ∧ (entry r'.mem d b).frame = f

/-- No page from `lo` up to `hi` is mapped; the other entries are as before. -/
structure Emptied (m m' : Mem) (d lo hi : ℕ) : Prop where
  outside : ∀ b, b < lo ∨ hi ≤ b → entry m' d b = entry m d b
  inside : ∀ b, lo ≤ b → b < hi → (entry m' d b).present = false

/-- The pages from `lo` up to `hi` of `nd` are mapped to pages that were free, with the flags and
the bytes of the pages of `d`; the other entries are as before. -/
structure Copied (r r' : Ram) (d nd lo hi : ℕ) : Prop where
  outside : ∀ b, b < lo ∨ hi ≤ b → entry r'.mem nd b = entry r.mem nd b
  inside : ∀ b, lo ≤ b → b < hi → ∃ f ∈ r.mem.freelist,
    entry r'.mem nd b = { entry r.mem d b with frame := f } ∧
    r'.data f = r.data (entry r.mem d b).frame

/-- What it takes to grow the address space of `d` from `oldsz` to `newsz`: the pages, and page
tables where there are none. -/
def DrawsTo (m m' : Mem) (d oldsz newsz : ℕ) (ok : Prop) : Prop :=
  Draws m m' d (pgup newsz - pgup oldsz) (dirEntries (pgup oldsz) (pgup newsz - pgup oldsz)) ok

/-- Only pages that were free have got other bytes. -/
def Untouched (r r' : Ram) : Prop := ∀ f, f ∉ r.mem.freelist → r'.data f = r.data f

section Specs

variable {L : Layout} {A D R : Set ℕ} {m m' : Mem} {r r' r'' : Ram} {d f a : ℕ}
  {E : Stop → Prop}

theorem DrawsTo.trans {m₁ m₂ : Mem} {sz sz₁ sz₂ : ℕ} {ok : Prop}
    (h : DrawsTo m m₁ d sz sz₁ True) (hle : pgup sz ≤ pgup sz₁) (hle' : pgup sz₁ ≤ pgup sz₂)
    (h' : DrawsTo m₁ m₂ d sz₁ sz₂ ok) : DrawsTo m m₂ d sz sz₂ ok := by
  rw [DrawsTo,show pgup sz₂ - pgup sz = pgup sz₁ - pgup sz + (pgup sz₂ - pgup sz₁) by omega,
    dirEntries_add,show pgup sz + (pgup sz₁ - pgup sz) = pgup sz₁ by omega]
  exact Draws.trans h trivial h'

theorem DrawsTo.fail {m₁ u : Mem} {sz sz₁ k : ℕ} (h : DrawsTo m m₁ d sz sz₁ False)
    (hle : pgup sz₁ ≤ pgup k) : DrawsTo m u d sz k False := by
  refine Draws.fail h id id (by omega) (Finset.image_subset_image ?_)
  exact Finset.Ico_subset_Ico_right (by omega)

theorem Untouched.refl (r : Ram) : Untouched r r := fun _ _ => rfl

theorem Untouched.trans (h : Untouched r r') (hfree : r'.mem.freelist ⊆ r.mem.freelist)
    (h' : Untouched r' r'') : Untouched r r'' := by
  intro f hf
  rw [h' f fun hf' => hf (hfree hf'),h f hf]

theorem untouched_update {b : Block PGSIZE} (hf : f ∈ r.mem.freelist)
    (hdata : r'.data = update r.data f b) : Untouched r r' := by
  intro g hg
  have hne : g ≠ f := by
    rintro rfl
    exact hg hf
  rw [hdata,update_of_ne hne]

variable (hA : ∀ f ∈ A, L.kend ≤ f ∧ f < L.phystop)
include hA

theorem wp_backOut {oldsz newsz : ℕ} (hnew : newsz ≤ KERNBASE) (h : Sep A m D R) (hd : d ∈ D) :
    wp E (deallocuvm L d newsz oldsz) m fun _ m' => Sep A m' D R ∧ KeepBut m m' D d ∧
      TablesStay m m' d ∧ Emptied m m' d (pgup oldsz) (pgup newsz) := by
  refine (wp_deallocuvm hA hnew h hd).mono ?_
  rintro - m1 ⟨-,h1,hbut,hstay,hentry,hnone⟩
  exact ⟨h1,hbut,hstay,hentry,hnone⟩

theorem wp_allocLoop {oldsz newsz n : ℕ} (hnew : newsz ≤ KERNBASE) (h : Sep A r.mem D R)
    (hd : d ∈ D) (hold : pgup oldsz ≤ a) (hn : a + n = pgup newsz)
    (habs : ∀ b, a ≤ b → b < pgup newsz → (entry r.mem d b).present = false) :
    wp E (allocLoop L d oldsz newsz n a) r fun v r' => Sep A r'.mem D R ∧
      KeepBut r.mem r'.mem D d ∧ TablesStay r.mem r'.mem d ∧ Untouched r r' ∧
      (v = newsz ∧ Gained r r' d a (pgup newsz) ∧
          Draws r.mem r'.mem d n (dirEntries a n) True ∨
        v = 0 ∧ Emptied r.mem r'.mem d (pgup oldsz) (pgup newsz) ∧
          Draws r.mem r'.mem d n (dirEntries a n) False) := by
  have htop := pgup_le_kernpage hnew
  induction n generalizing a r with
  | zero =>
    refine ⟨h,.refl _ D d,(Keep.refl _ d).tablesStay,.refl r,.inl ⟨rfl,⟨fun _ _ => rfl,?_,
      fun f hf => absurd rfl hf⟩,?_⟩⟩
    · intro b hb hb'
      omega
    · rw [dirEntries_zero]
      exact .nothing _ d trivial
  | succ n ih =>
    rw [allocLoop,wp_bind,low,wp_zoom]
    refine (wp_kalloc h).with_ok.mono ?_
    rintro (_ | mem) m1 ⟨hok1,htab,hsep,hsome⟩
    · have hk := keep_of_tab_eq htab
      rw [wp_bind,low,wp_zoom]
      refine (wp_backOut hA hnew (hsep rfl) hd).mono ?_
      rintro - m2 ⟨h2,hbut,hstay,hempty⟩
      refine ⟨h2,KeepBut.trans (.of_all fun d' _ => hk d') hbut,(hk d).tablesStay.trans hstay,
        fun _ _ => rfl,.inr ⟨rfl,⟨fun b hb => ?_,hempty.inside⟩,
          (kalloc_draws hok1 d).1.noPage (by simp) (Finset.empty_subset _)⟩⟩
      exact (hempty.outside b hb).trans ((hk d).entry b)
    obtain ⟨hmemR,h1⟩ := hsome mem rfl
    obtain ⟨hdraw1,hmemfree⟩ := kalloc_draws hok1 d
    have hmem : mem ∈ insert mem R := mem_insert _ _
    obtain ⟨h2,hk2'⟩ := h1.touch hmem (onlyAt_wipe m1 mem .zero) rfl
    have hk2 : ∀ d' ∈ D, Keep r.mem (m1.wipe mem .zero) d' := fun d' hd' =>
      (keep_of_tab_eq htab d').trans (hk2' d' hd')
    have habs2 : ∀ b, a ≤ b → b < pgup newsz →
        (entry (m1.wipe mem .zero) d b).present = false := by
      intro b hb hb'
      rw [(hk2 d hd).entry]
      exact habs b hb hb'
    simp only [wp_bind,clear,wp_modify,low,wp_zoom]
    refine (wp_mappages_user h2 hd (by omega) (habs2 a le_rfl (by omega)) hmem).mono ?_
    rintro ok m3 ⟨hbut3,hstay3,hfail,hdone,hdraw3⟩
    have hdraw := (hdraw1.after (hk2' d hd).table ⟨rfl,rfl⟩).page rfl hdraw3
    have hbut : KeepBut r.mem m3 D d := KeepBut.trans (.of_all hk2) hbut3
    have hstay : TablesStay r.mem m3 d := (hk2 d hd).tablesStay.trans hstay3
    refine wp_ite (fun hok => ?_) fun hok => ?_
    · obtain ⟨h3,hentry3⟩ := hdone hok
      have hfree3 : m3.freelist ⊆ r.mem.freelist := (hdraw.less hok).subset
      rw [insert_sdiff_self_of_notMem hmemR] at h3
      set r3 : Ram := ⟨m3,update r.data mem .zero⟩
      have hentry : ∀ b, b ≠ a → entry m3 d b = entry r.mem d b := by
        intro b hb
        rw [hentry3,if_neg hb,(hk2 d hd).entry]
      have hunt : Untouched r r3 := untouched_update (hmemfree mem rfl) rfl
      refine (ih (r := r3) h3 (by omega) (by omega) fun b hb hb' => ?_).mono ?_
      · rw [hentry b (by omega)]
        exact habs b (by omega) hb'
      rintro v r4 ⟨h4,hbut4,hstay4,hunt4,hres⟩
      refine ⟨h4,hbut.trans hbut4,hstay.trans hstay4,hunt.trans hfree3 hunt4,?_⟩
      rcases hres with ⟨rfl,hgain,hdraw4⟩ | ⟨rfl,hempty,hdraw4⟩
      · have hea : entry m3 d a = ⟨mem,true,true,true⟩ := by rw [hentry3,if_pos rfl]
        have hea4 : entry r4.mem d a = ⟨mem,true,true,true⟩ := by
          rw [hgain.outside a (by omega),hea]
        refine .inl ⟨rfl,⟨fun b hb => ?_,fun b hb hb' => ?_,fun f hf => ?_⟩,
          hdraw.pages hok hdraw4⟩
        · rw [hgain.outside b (by omega),hentry b (by omega)]
        · by_cases hba : b = a
          · -- the page is mapped now, so nothing takes it from the free list
            have hnot : mem ∉ m3.freelist := by
              intro hm
              refine h3.free_ne_spot hm hd (.user a) ?_
              rw [spot_user (by omega) (by rw [hea]),hea]
            refine ⟨mem,hmemfree mem rfl,hba ▸ hea4,?_⟩
            rw [hunt4 mem hnot]
            exact update_self ..
          · obtain ⟨f,hf,hef,hdf⟩ := hgain.inside b (by omega) hb'
            exact ⟨f,hfree3 hf,hef,hdf⟩
        · by_cases hfm : f = mem
          · exact ⟨a,le_rfl,by omega,by rw [hea4,hfm]⟩
          · have hr3 : r3.data f = r.data f := update_of_ne hfm _ _
            obtain ⟨b,hb,hb',hframe⟩ := hgain.only f (by rwa [hr3])
            exact ⟨b,by omega,hb',hframe⟩
      · refine .inr ⟨rfl,⟨fun b hb => ?_,hempty.inside⟩,hdraw.pages hok hdraw4⟩
        rw [hempty.outside b hb,hentry b (by omega)]
    · obtain ⟨h3,hentry3⟩ := hfail (by simpa using hok)
      rw [wp_bind,wp_zoom]
      refine (wp_backOut hA hnew h3 hd).mono ?_
      rintro - m4 ⟨h4,hbut4,hstay4,hempty⟩
      rw [wp_bind,wp_zoom]
      refine (wp_kfree hA h4 hmem).mono ?_
      rintro - m5 ⟨h5,-,hk5⟩
      rw [insert_sdiff_self_of_notMem hmemR] at h5
      refine ⟨h5,(hbut.trans hbut4).trans (.of_all hk5),
        (hstay.trans hstay4).trans (hk5 d hd).tablesStay,
        untouched_update (hmemfree mem rfl) rfl,.inr ⟨rfl,⟨fun b hb => ?_,fun b hb hb' => ?_⟩,
          hdraw.noPage hok (Finset.Subset.refl _)⟩⟩
      · rw [(hk5 d hd).entry,hempty.outside b hb,hentry3,(hk2 d hd).entry]
      · rw [(hk5 d hd).entry]
        exact hempty.inside b hb hb'

theorem wp_allocuvm {oldsz newsz : ℕ} (h : Sep A r.mem D R) (hd : d ∈ D)
    (habs : ∀ b, pgup oldsz ≤ b → b < KERNPAGE → (entry r.mem d b).present = false) :
    wp E (allocuvm L d oldsz newsz) r fun v r' => Sep A r'.mem D R ∧
      KeepBut r.mem r'.mem D d ∧ TablesStay r.mem r'.mem d ∧ Untouched r r' ∧
      (v = max oldsz newsz ∧ newsz < KERNBASE ∧ Gained r r' d (pgup oldsz) (pgup v) ∧
          DrawsTo r.mem r'.mem d oldsz v True ∨
        v = 0 ∧ Emptied r.mem r'.mem d (pgup oldsz) KERNPAGE ∧
          (newsz < KERNBASE → DrawsTo r.mem r'.mem d oldsz (max oldsz newsz) False)) := by
  have hsame : KeepBut r.mem r.mem D d ∧ TablesStay r.mem r.mem d ∧ Untouched r r :=
    ⟨.refl _ D d,(Keep.refl _ d).tablesStay,.refl r⟩
  rw [allocuvm]
  refine wp_ite (fun hbig => ?_) fun hnew => wp_ite (fun hlt => ?_) fun hge => ?_
  · exact ⟨h,hsame.1,hsame.2.1,hsame.2.2,.inr ⟨rfl,⟨fun _ _ => rfl,habs⟩,by omega⟩⟩
  · refine ⟨h,hsame.1,hsame.2.1,hsame.2.2,.inl ⟨by omega,by omega,⟨fun _ _ => rfl,?_,
      fun f hf => absurd rfl hf⟩,?_⟩⟩
    · intro b hb hb'
      omega
    · rw [DrawsTo,Nat.sub_self,dirEntries_zero]
      exact .nothing _ d trivial
  have htop : pgup newsz ≤ KERNPAGE := pgup_le_kernpage (by omega)
  have hup : pgup oldsz ≤ pgup newsz := pgup_mono (by omega)
  refine (wp_allocLoop hA (by omega) h hd le_rfl (by omega)
    fun b hb hb' => habs b hb (by omega)).mono ?_
  rintro v r1 ⟨h1,hbut,hstay,hunt,hres⟩
  refine ⟨h1,hbut,hstay,hunt,?_⟩
  rcases hres with ⟨rfl,hgain,hdraw⟩ | ⟨rfl,hempty,hdraw⟩
  · exact .inl ⟨by omega,by omega,hgain,hdraw⟩
  · refine .inr ⟨rfl,⟨fun b hb => hempty.outside b (by omega),fun b hb hb' => ?_⟩,fun _ => ?_⟩
    · by_cases hbn : b < pgup newsz
      · exact hempty.inside b hb hbn
      · rw [hempty.outside b (by omega)]
        exact habs b hb hb'
    · rw [Nat.max_eq_right (by omega)]
      exact hdraw

/-- `allocuvm` for an address space of the old size. -/
theorem wp_allocuvm_maps {oldsz newsz : ℕ} (hold : oldsz ≤ KERNBASE) (h : Sep A r.mem D R)
    (hd : d ∈ D) (hmaps : Maps r.mem d oldsz) :
    wp E (allocuvm L d oldsz newsz) r fun v r' => Sep A r'.mem D R ∧ KeepBut r.mem r'.mem D d ∧
      (∀ b, b < pgup oldsz ∨ KERNPAGE ≤ b → entry r'.mem d b = entry r.mem d b) ∧
      (v = max oldsz newsz ∧ v ≤ KERNBASE ∧ Maps r'.mem d v ∨ v = 0 ∧ Maps r'.mem d oldsz) := by
  refine (wp_allocuvm hA h hd fun b hb hb' => hmaps.absent hb' hb).mono ?_
  rintro v r1 ⟨h1,hbut,-,-,hres⟩
  refine ⟨h1,hbut,fun b hb => ?_,?_⟩
  · rcases hres with ⟨rfl,hnew,hgain,-⟩ | ⟨-,hempty,-⟩
    · have htop : pgup (max oldsz newsz) ≤ KERNPAGE := pgup_le_kernpage (by omega)
      exact hgain.outside b (by omega)
    · exact hempty.outside b hb
  rcases hres with ⟨rfl,hnew,hgain,-⟩ | ⟨rfl,hempty,-⟩
  · have hup : pgup oldsz ≤ pgup (max oldsz newsz) := pgup_mono (by omega)
    refine .inl ⟨rfl,by omega,fun b hb => ?_⟩
    by_cases hin : pgup oldsz ≤ b ∧ b < pgup (max oldsz newsz)
    · obtain ⟨f,-,hef,-⟩ := hgain.inside b hin.1 hin.2
      rw [hef]
      exact iff_of_true rfl hin.2
    · rw [hgain.outside b (by omega),hmaps b hb]
      omega
  · refine .inr ⟨rfl,fun b hb => ?_⟩
    by_cases hlow : b < pgup oldsz
    · rw [hempty.outside b (.inl hlow),hmaps b hb]
    · rw [hempty.inside b (by omega) hb]
      exact iff_of_false (by simp) hlow

omit hA in
theorem Untouched.spot (hunt : Untouched r r') (h : Sep A r.mem D R) (hd : d ∈ D) {x : Spot}
    (hx : Vm.spot r.mem d x = some f) : r'.data f = r.data f :=
  hunt f fun hf => h.free_ne_spot hf hd x hx

theorem wp_copyLoop {nd n i : ℕ} (h : Sep A r.mem D R) (hd : d ∈ D) (hnd : nd ∈ D) (hne : d ≠ nd)
    (hn : i + n ≤ KERNPAGE) (hsrc : ∀ b, i ≤ b → b < i+n → (entry r.mem d b).present = true)
    (habs : ∀ b, i ≤ b → b < i+n → (entry r.mem nd b).present = false) :
    wp E (copyLoop L d nd n i) r fun ok r' => Sep A r'.mem D R ∧ KeepBut r.mem r'.mem D nd ∧
      Untouched r r' ∧ (ok = true → Copied r r' d nd i (i+n)) ∧
      Draws r.mem r'.mem nd n (dirEntries i n) (ok = true) := by
  induction n generalizing i r with
  | zero =>
    refine ⟨h,.refl _ D nd,.refl r,fun _ => ⟨fun _ _ => rfl,fun b hb hb' => ?_⟩,?_⟩
    · omega
    · rw [dirEntries_zero]
      exact .nothing _ nd rfl
  | succ n ih =>
    have hik : i < KERNPAGE := by omega
    have hpres := hsrc i le_rfl (by omega)
    have hspot := spot_user hik hpres
    rw [copyLoop,wp_bind,low,wp_zoom]
    refine wp_walk (lt_trans hik (by decide)) (fun t ht => ?_) fun hnone => ?_
    · rw [wp_bind,low,wp_zoom,wp_read,← entry_eq ht]
      refine wp_ite (fun hp => by simp [hpres] at hp) fun _ => ?_
      rw [wp_bind,low,wp_zoom]
      refine (wp_kalloc h).with_ok.mono ?_
      rintro (_ | mem) m1 ⟨hok1,htab,hsep,hsome⟩
      · refine ⟨hsep rfl,.of_all fun d' _ => keep_of_tab_eq htab d',fun _ _ => rfl,by simp,?_⟩
        exact (kalloc_draws hok1 nd).1.noPage (by simp) (Finset.empty_subset _) |>.congr (by simp)
      obtain ⟨hmemR,h1⟩ := hsome mem rfl
      obtain ⟨hdraw1,hmemfree⟩ := kalloc_draws hok1 nd
      have hmem : mem ∈ insert mem R := mem_insert _ _
      set m2 := m1.copy (entry r.mem d i).frame mem
      obtain ⟨h2,hk2'⟩ := h1.touch hmem (onlyAt_copy m1 (entry r.mem d i).frame mem) rfl
      have hk2 : ∀ d' ∈ D, Keep r.mem m2 d' := fun d' hd' =>
        (keep_of_tab_eq htab d').trans (hk2' d' hd')
      have habs2 : (entry m2 nd i).present = false := by
        rw [(hk2 nd hnd).entry]
        exact habs i le_rfl (by omega)
      simp only [wp_bind,copyPage,wp_modify,low,wp_zoom]
      refine (wp_mappages_user h2 hnd hik habs2 hmem).mono ?_
      rintro ok m3 ⟨hbut3,-,hfail,hdone,hdraw3⟩
      have hdraw := (hdraw1.after (hk2' nd hnd).table ⟨rfl,rfl⟩).page rfl hdraw3
      have hbut : KeepBut r.mem m3 D nd := KeepBut.trans (.of_all hk2) hbut3
      refine wp_ite (fun hok => ?_) fun hok => ?_
      · obtain ⟨h3,hentry3⟩ := hdone hok
        have hfree3 : m3.freelist ⊆ r.mem.freelist := (hdraw.less hok).subset
        rw [insert_sdiff_self_of_notMem hmemR] at h3
        set r3 : Ram := ⟨m3,update r.data mem (r.data (entry r.mem d i).frame)⟩
        have hentry : ∀ b, b ≠ i → entry m3 nd b = entry r.mem nd b := by
          intro b hb
          rw [hentry3,if_neg hb,(hk2 nd hnd).entry]
        have hunt : Untouched r r3 := untouched_update (hmemfree mem rfl) rfl
        refine (ih (r := r3) h3 (by omega) (fun b hb hb' => ?_) fun b hb hb' => ?_).mono ?_
        · rw [(hbut d hd hne).entry]
          exact hsrc b (by omega) (by omega)
        · rw [hentry b (by omega)]
          exact habs b (by omega) (by omega)
        rintro ok' r4 ⟨h4,hbut4,hunt4,hres,hdraw4⟩
        refine ⟨h4,hbut.trans hbut4,hunt.trans hfree3 hunt4,fun hok' => ?_,
          hdraw.pages hok hdraw4⟩
        have hcopy := hres hok'
        refine ⟨fun b hb => ?_,fun b hb hb' => ?_⟩
        · rw [hcopy.outside b (by omega),hentry b (by omega)]
        by_cases hbi : b = i
        · have hei : entry m3 nd i = { entry r.mem d i with frame := mem } := by
            rw [hentry3,if_pos rfl]
            simp only [hpres]
          have hnot : mem ∉ m3.freelist := by
            intro hm
            refine h3.free_ne_spot hm hnd (.user i) ?_
            rw [spot_user hik (by rw [hei]; exact hpres),hei]
          refine ⟨mem,hmemfree mem rfl,?_,?_⟩
          · rw [hbi,hcopy.outside i (by omega),hei]
          · rw [hbi,hunt4 mem hnot]
            exact update_self ..
        · obtain ⟨f,hf,hef,hdf⟩ := hcopy.inside b (by omega) (by omega)
          have heb : entry m3 d b = entry r.mem d b := (hbut d hd hne).entry b
          rw [heb] at hef hdf
          refine ⟨f,hfree3 hf,hef,?_⟩
          rw [hdf]
          exact hunt.spot h hd (spot_user (by omega) (hsrc b (by omega) (by omega)))
      · obtain ⟨h3,-⟩ := hfail (by simpa using hok)
        rw [wp_bind,wp_zoom]
        refine (wp_kfree hA h3 hmem).mono ?_
        rintro - m4 ⟨h4,-,hk4⟩
        rw [insert_sdiff_self_of_notMem hmemR] at h4
        refine ⟨h4,hbut.trans (.of_all hk4),untouched_update (hmemfree mem rfl) rfl,by simp,?_⟩
        exact (hdraw.noPage hok (Finset.Subset.refl _)).congr (by simp)
    · rw [entry_none hnone] at hpres
      cases hpres

theorem wp_copyuvm {sz : ℕ} (hsz : sz ≤ KERNBASE) (h : Sep A r.mem D R) (hd : d ∈ D)
    (hmaps : Maps r.mem d sz) : wp E (copyuvm L d sz) r fun v r' =>
    (∀ d' ∈ D, Keep r.mem r'.mem d') ∧ Untouched r r' ∧ (v = none → Sep A r'.mem D R) ∧
      (∀ nd, v = some nd → nd ∉ D ∧ Sep A r'.mem (insert nd D) R ∧ Maps r'.mem nd sz ∧
        ∀ b, b < pgup sz → ∃ f ∈ r.mem.freelist,
          entry r'.mem nd b = { entry r.mem d b with frame := f } ∧
          r'.data f = r.data (entry r.mem d b).frame) ∧
      (v.isSome = true ↔ r.mem.Grants (spacePages L (pgup sz))) := by
  have htop := pgup_le_kernpage hsz
  rw [copyuvm,wp_bind,low,wp_zoom]
  refine (wp_setupkvm hA h).mono ?_
  rintro (_ | nd) m1 ⟨hk1,hsep,hsome,hgrant⟩
  · exact ⟨hk1,fun _ _ => rfl,hsep,by simp,iff_of_false (by simp) fun hg =>
      absurd (hgrant.mpr (hg.mono (Nat.le_add_right _ _))) (by simp)⟩
  · obtain ⟨hndD,h1,hmaps1,-,hset⟩ := hsome nd rfl
    have hne : d ≠ nd := fun e => hndD (e ▸ hd)
    have hfree1 : m1.freelist ⊆ r.mem.freelist := h.free_subset h1 (subset_insert _ _) hk1
    have hback : ∀ {m' m''}, KeepBut m' m'' (insert nd D) nd → ∀ d' ∈ D, Keep m' m'' d' :=
      fun hb d' hd' => hb d' (.inr hd') fun e => hndD (e ▸ hd')
    rw [Maps,pgup_zero] at hmaps1
    rw [wp_bind]
    refine (wp_copyLoop (r := ⟨m1,r.data⟩) hA h1 (.inr hd) (mem_insert _ _) hne (by omega)
      (fun b _ hb => ?_) fun b _ hb => hmaps1.absent (by omega) (Nat.zero_le b)).mono ?_
    · rw [(hk1 d hd).entry,hmaps b (by omega)]
      omega
    · rintro ok r2 ⟨h2,hbut2,hunt2,hok2,hdraw⟩
      have hiff := hdraw.iff.trans (hset.grants_iff (hgrant.mp rfl) htop)
      have hk2 : ∀ d' ∈ D, Keep r.mem r2.mem d' := fun d' hd' =>
        (hk1 d' hd').trans (hback hbut2 d' hd')
      have hunt1 : Untouched r ⟨m1,r.data⟩ := fun _ _ => rfl
      have hunt : Untouched r r2 := hunt1.trans hfree1 hunt2
      refine wp_ite (fun hok => ?_) fun hok => ?_
      · have hcopy := hok2 hok
        rw [Nat.zero_add] at hcopy
        have hpage : ∀ b, b < pgup sz → ∃ f ∈ r.mem.freelist,
            entry r2.mem nd b = { entry r.mem d b with frame := f } ∧
            r2.data f = r.data (entry r.mem d b).frame := by
          intro b hb
          obtain ⟨f,hf,hef,hdf⟩ := hcopy.inside b (Nat.zero_le b) hb
          rw [(hk1 d hd).entry] at hef hdf
          exact ⟨f,hfree1 hf,hef,hdf⟩
        refine ⟨hk2,hunt,by simp,fun nd' hnd' => ?_,iff_of_true rfl (hiff.mp hok)⟩
        cases hnd'
        refine ⟨hndD,h2,fun b hb => ?_,hpage⟩
        by_cases hlow : b < pgup sz
        · obtain ⟨f,-,hef,-⟩ := hpage b hlow
          rw [hef]
          exact iff_of_true ((hmaps b hb).mpr hlow) hlow
        · rw [hcopy.outside b (by omega),hmaps1 b hb]
          omega
      · rw [wp_bind,low,wp_zoom]
        refine (wp_freevm hA h2 hndD).mono ?_
        rintro - m3 ⟨h3,hk3⟩
        exact ⟨fun d' hd' => (hk2 d' hd').trans (hk3 d' hd'),hunt,fun _ => h3,by simp,
          iff_of_false (by simp) (hok ∘ hiff.mpr)⟩

end Specs

end Xv6Container.Vm
