import Xv6Container.Vm.Spaces
import Xv6Container.Lib.Tally

/-! # Building and tearing down address spaces -/

namespace Xv6Container.Vm

open Prog List Set

/-- The user pages that are mapped are the first `n`. -/
def Upto (m : Mem) (d n : ℕ) : Prop :=
  ∀ a, a < KERNPAGE → ((entry m d a).present = true ↔ a < n)

/-- The user pages that are mapped are those below the size `sz`. -/
def Maps (m : Mem) (d sz : ℕ) : Prop := Upto m d (pgup sz)

/-- Every address space but that of `d` is left alone. -/
def KeepBut (m m' : Mem) (D : Set ℕ) (d : ℕ) : Prop := ∀ d' ∈ D, d' ≠ d → Keep m m' d'

/-- No page table of `d` is given up. -/
def TablesStay (m m' : Mem) (d : ℕ) : Prop :=
  ∀ i t, table m d i = some t → table m' d i = some t

/-- The next `n` calls of `kalloc` return a page. -/
def Mem.Grants (m : Mem) (n : ℕ) : Prop := true ∉ m.deny.take n ∧ n ≤ m.freelist.length

instance (m : Mem) (n : ℕ) : Decidable (m.Grants n) := inferInstanceAs (Decidable (_ ∧ _))

/-- `n` calls of `kalloc` have returned a page. -/
def Mem.Less (m m' : Mem) (n : ℕ) : Prop :=
  m'.deny = m.deny.drop n ∧ m'.freelist = m.freelist.drop n

/-- The directory entries for the `n` pages from `a` on. -/
def dirEntries (a n : ℕ) : Finset ℕ := (Finset.Ico a (a + n)).image (· / NPTENTRIES)

/-- How many of the entries `S` of directory `d` have no page table. -/
def missing (m : Mem) (d : ℕ) (S : Finset ℕ) : ℕ := (S.filter fun i => table m d i = none).card

/-- Between `m` and `m'`, `k` pages are asked for, and page tables for the entries `S` of directory
`d` where there are none; it is `ok` if all of them are granted. -/
structure Draws (m m' : Mem) (d k : ℕ) (S : Finset ℕ) (ok : Prop) : Prop where
  iff : ok ↔ m.Grants (k + missing m d S)
  less : ok → m.Less m' (k + missing m d S)
  tables : ok → ∀ i, table m' d i = none ↔ table m d i = none ∧ i ∉ S

theorem pgup_le_iff {sz a : ℕ} : pgup sz ≤ a ↔ sz ≤ a*PGSIZE := by
  simp only [pgup,PGSIZE]
  omega

theorem lt_pgup_iff {sz a : ℕ} : a < pgup sz ↔ a * PGSIZE < sz := by
  rw [← Nat.not_le,pgup_le_iff,Nat.not_le]

theorem pgup_zero : pgup 0 = 0 := by simp [pgup]

theorem pgup_kernbase : pgup KERNBASE = KERNPAGE := by
  simp only [pgup,KERNBASE,KERNPAGE,PGSIZE]

theorem lt_next (a : ℕ) : a < (a / NPTENTRIES + 1) * NPTENTRIES := by
  simp only [NPTENTRIES]
  omega

theorem div_eq_of_lt_next {a b : ℕ} (hb : a ≤ b) (hb' : b < (a / NPTENTRIES + 1) * NPTENTRIES) :
    b / NPTENTRIES = a / NPTENTRIES := by
  simp only [NPTENTRIES] at hb' ⊢
  omega

section Draws

variable {m m₁ m₂ : Mem} {d k k' : ℕ} {S S' : Finset ℕ} {ok ok' : Prop}

theorem Mem.Less.grants_iff {a b : ℕ} (h : m.Less m₁ a) (ha : m.Grants a) :
    m.Grants (a+b) ↔ m₁.Grants b := by
  obtain ⟨hdeny,hlen⟩ := ha
  rw [Grants,Grants,h.1,h.2,take_add,mem_append,length_drop]
  constructor
  · rintro ⟨hnot,hle⟩
    exact ⟨fun hb => hnot (.inr hb),by omega⟩
  · rintro ⟨hnot,hle⟩
    exact ⟨fun hor => hor.elim hdeny hnot,by omega⟩

theorem Mem.Less.trans {a b : ℕ} (h : m.Less m₁ a) (h' : m₁.Less m₂ b) : m.Less m₂ (a+b) :=
  ⟨by rw [h'.1,h.1,drop_drop],by rw [h'.2,h.2,drop_drop]⟩

theorem Mem.Grants.mono {a b : ℕ} (h : m.Grants b) (hab : a ≤ b) : m.Grants a :=
  ⟨fun ht => h.1 (take_subset_take_left _ hab ht),hab.trans h.2⟩

theorem missing_union (h : ∀ i, table m₁ d i = none ↔ table m d i = none ∧ i ∉ S) :
    missing m d (S ∪ S') = missing m d S + missing m₁ d S' := by
  rw [missing,missing,missing]
  exact card_filter_union fun i _ => h i

theorem Draws.nothing (m : Mem) (d : ℕ) (hok : ok) : Draws m m d 0 ∅ ok := by
  refine ⟨iff_of_true hok ?_,fun _ => ⟨?_,?_⟩,fun _ i => ?_⟩ <;> simp [missing,Mem.Grants]

theorem Draws.trans (h : Draws m m₁ d k S ok') (hok : ok') (h' : Draws m₁ m₂ d k' S' ok) :
    Draws m m₂ d (k+k') (S ∪ S') ok := by
  have hless := h.less hok
  have htab := h.tables hok
  have hsum : k + k' + missing m d (S ∪ S') = k + missing m d S + (k' + missing m₁ d S') := by
    rw [missing_union htab]
    omega
  refine ⟨?_,fun ho => ?_,fun ho i => ?_⟩
  · rw [hsum,hless.grants_iff (h.iff.mp hok)]
    exact h'.iff
  · rw [hsum]
    exact hless.trans (h'.less ho)
  · rw [h'.tables ho,htab,Finset.notMem_union,and_assoc]

theorem Draws.fail (h : Draws m m₁ d k S ok') (hno : ¬ok') (hok : ¬ok) (hk : k ≤ k')
    (hS : S ⊆ S') : Draws m m₂ d k' S' ok := by
  refine ⟨iff_of_false hok fun hg => hno (h.iff.mpr (hg.mono ?_)),fun ho => absurd ho hok,
    fun ho => absurd ho hok⟩
  exact Nat.add_le_add hk (Finset.card_le_card (Finset.filter_subset_filter _ hS))

theorem Draws.congr (h : Draws m m₁ d k S ok) (hok : ok' ↔ ok) : Draws m m₁ d k S ok' := by
  rwa [propext hok]

/-- What follows takes no page and leaves the directory alone. -/
theorem Draws.after (h : Draws m m₁ d k S ok) (htab : ∀ i, table m₂ d i = table m₁ d i)
    (hless : m₁.Less m₂ 0) : Draws m m₂ d k S ok :=
  ⟨h.iff,fun ho => (h.less ho).trans hless,fun ho i => by rw [htab,h.tables ho]⟩

theorem missing_singleton (m : Mem) (d j : ℕ) :
    missing m d {j} = if table m d j = none then 1 else 0 := by
  rw [missing,Finset.filter_singleton]
  split <;> rfl

theorem Draws.there {j t : ℕ} (h : table m d j = some t) (hok : ok) : Draws m m d 0 {j} ok := by
  have hne : table m d j ≠ none := by simp [h]
  refine ⟨iff_of_true hok ?_,fun _ => ?_,fun _ i => ?_⟩
  · simp [missing_singleton,hne,Mem.Grants]
  · simp [missing_singleton,hne,Mem.Less]
  · rw [Finset.mem_singleton,iff_self_and]
    rintro hi rfl
    exact hne hi

/-- The page is for the table of entry `j`. -/
theorem Draws.table {j : ℕ} (h : Draws m m₁ d 1 ∅ ok) (hj : Vm.table m d j = none)
    (hless : m₁.Less m₂ 0)
    (htab : ok → ∀ i, Vm.table m₂ d i = none ↔ Vm.table m d i = none ∧ i ≠ j) :
    Draws m m₂ d 0 {j} ok := by
  have hone : 0 + missing m d {j} = 1 + missing m d ∅ := by
    rw [missing_singleton,if_pos hj]
    simp [missing]
  refine ⟨?_,fun ho => ?_,fun ho i => ?_⟩
  · rw [hone]
    exact h.iff
  · rw [hone]
    exact (h.less ho).trans hless
  · rw [htab ho,Finset.mem_singleton]

theorem dirEntries_add (a n k : ℕ) :
    dirEntries a (n+k) = dirEntries a n ∪ dirEntries (a+n) k := by
  rw [dirEntries,dirEntries,dirEntries,← Finset.image_union,← Nat.add_assoc,
    Finset.Ico_union_Ico_eq_Ico (by omega) (by omega)]

theorem dirEntries_zero (a : ℕ) : dirEntries a 0 = ∅ := by simp [dirEntries]

theorem dirEntries_succ (a n : ℕ) :
    dirEntries a (n+1) = {a / NPTENTRIES} ∪ dirEntries (a+1) n := by
  rw [dirEntries,dirEntries,show a + (n+1) = a + 1 + n by omega,
    ← Finset.insert_Ico_add_one_left_eq_Ico (by omega),Finset.image_insert,Finset.insert_eq]

/-- A page and the page table for it. -/
theorem Draws.page {a : ℕ} (h : Draws m m₁ d 1 ∅ ok') (hok : ok')
    (h' : Draws m₁ m₂ d 0 {a / NPTENTRIES} ok) : Draws m m₂ d 1 {a / NPTENTRIES} ok := by
  have hboth := h.trans hok h'
  rwa [Finset.empty_union] at hboth

/-- The next page and those after it. -/
theorem Draws.pages {a n : ℕ} (h : Draws m m₁ d 1 {a / NPTENTRIES} ok') (hok : ok')
    (h' : Draws m₁ m₂ d n (dirEntries (a + 1) n) ok) :
    Draws m m₂ d (n+1) (dirEntries a (n+1)) ok := by
  rw [dirEntries_succ,Nat.add_comm]
  exact h.trans hok h'

theorem Draws.noPage {a n : ℕ} (h : Draws m m₁ d 1 S ok') (hno : ¬ok')
    (hS : S ⊆ {a / NPTENTRIES}) : Draws m m₂ d (n+1) (dirEntries a (n+1)) False := by
  refine h.fail hno id (by omega) (hS.trans ?_)
  rw [dirEntries_succ]
  exact Finset.subset_union_left

theorem Mem.Less.subset {n : ℕ} (h : m.Less m₁ n) : m₁.freelist ⊆ m.freelist := by
  rw [h.2]
  exact drop_subset n _

end Draws

section Specs

variable {L : Layout} {A D R : Set ℕ} {m m' m'' : Mem} {d f a t : ℕ} {e : Pte} {E : Stop → Prop}

theorem KeepBut.refl (m : Mem) (D : Set ℕ) (d : ℕ) : KeepBut m m D d := fun _ _ _ => .refl _ _

theorem KeepBut.trans (h : KeepBut m m' D d) (h' : KeepBut m' m'' D d) : KeepBut m m'' D d :=
  fun d' hd' hne => (h d' hd' hne).trans (h' d' hd' hne)

theorem KeepBut.of_all (h : ∀ d' ∈ D, Keep m m' d') : KeepBut m m' D d := fun d' hd' _ => h d' hd'

theorem Keep.tablesStay (h : Keep m m' d) : TablesStay m m' d := fun i _ ht =>
  (h.table i).trans ht

theorem TablesStay.trans (h : TablesStay m m' d) (h' : TablesStay m' m'' d) :
    TablesStay m m'' d := fun i t ht => h' i t (h i t ht)

theorem keep_of_tab_eq (h : m'.tab = m.tab) (d : ℕ) : Keep m m' d :=
  keep_of_tab (by rw [h]) fun _ _ _ => by rw [h]

theorem Upto.absent {n : ℕ} (h : Upto m d n) (ha : a < KERNPAGE) (hn : n ≤ a) :
    (entry m d a).present = false := by
  rw [← Bool.not_eq_true,h a ha]
  omega

theorem pgup_le_kernpage {sz : ℕ} (h : sz ≤ KERNBASE) : pgup sz ≤ KERNPAGE := pgup_le_iff.mpr h

theorem pgup_mono {sz sz' : ℕ} (h : sz ≤ sz') : pgup sz ≤ pgup sz' :=
  pgup_le_iff.mpr (h.trans (pgup_le_iff.mp le_rfl))

theorem wp_kalloc (h : Sep A m D R) : wp E kalloc m fun r m' => m'.tab = m.tab ∧
    (r = none → Sep A m' D R) ∧ ∀ f, r = some f → f ∉ R ∧ Sep A m' D (insert f R) := by
  have hsame : ∀ ds, Sep A { m with deny := ds } D R := fun ds =>
    h.frame rfl fun d _ => keep_of_tab_eq (by rfl) d
  have htake : ∀ f fs ds, m.freelist = f :: fs →
      f ∉ R ∧ Sep A { m with freelist := fs, deny := ds } D (insert f R) := fun f fs ds hf =>
    ⟨fun hR => h.rest_not_free hR (by simp [hf]),h.take hf⟩
  simp only [wp,kalloc]
  split
  · next heq =>
    split at heq
    · cases heq
      exact ⟨rfl,fun _ => hsame _,by simp⟩
    · cases heq
      exact ⟨rfl,fun _ => hsame _,by simp⟩
    · next f fs hf _ =>
      cases heq
      refine ⟨rfl,by simp,fun g hg => ?_⟩
      cases hg
      exact htake _ _ _ hf
  · next heq =>
    split at heq <;> cases heq

theorem kalloc_draws {r : Option ℕ} (h : kalloc m = .ok (r, m')) (d : ℕ) :
    Draws m m' d 1 ∅ (r.isSome = true) ∧ ∀ f, r = some f → f ∈ m.freelist := by
  obtain ⟨fl,tab,deny⟩ := m
  have hmiss : 1 + missing ⟨fl,tab,deny⟩ d ∅ = 1 := by simp [missing]
  rw [kalloc] at h
  split at h
  · cases h
    exact ⟨⟨by simp_all [Mem.Grants],by simp,by simp⟩,by simp⟩
  · cases h
    exact ⟨⟨by simp_all [Mem.Grants],by simp,by simp⟩,by simp⟩
  · next f fs hfree hdeny =>
    cases h
    simp only at hfree hdeny
    subst hfree
    refine ⟨⟨?_,fun _ => ?_,fun _ i => by simp [table]⟩,by simp⟩
    · rw [hmiss]
      cases deny with
      | nil => simp [Mem.Grants]
      | cons b deny => cases b <;> simp_all [Mem.Grants]
    · rw [hmiss]
      simp [Mem.Less]

variable (hA : ∀ f ∈ A, L.kend ≤ f ∧ f < L.phystop)
include hA

theorem wp_kfree (h : Sep A m D R) (hf : f ∈ R) : wp E (kfree L f) m fun _ m' =>
    Sep A m' D (R \ {f}) ∧ OnlyAt f m m' ∧ ∀ d ∈ D, Keep m m' d := by
  have hin := hA f (h.sole.only .rest f hf)
  rw [kfree]
  refine wp_ite (fun hbad => by omega) fun _ => ?_
  have ho : OnlyAt f m { m.wipe f .junk with freelist := f :: m.freelist } := onlyAt_wipe m f .junk
  exact ⟨h.give hf ho rfl,ho,fun d hd => keep_of_onlyAt (h.rest_ne_spot hf hd) ho⟩

omit hA

theorem div_lt_of_lt (ha : a < NPAGES) : a / NPTENTRIES < NPDENTRIES := by
  rw [Nat.div_lt_iff_lt_mul (by decide)]
  exact ha

theorem wp_walk {Q : Option (ℕ × ℕ) → Mem → Prop} (ha : a < NPAGES)
    (hsome : ∀ t, table m d (a / NPTENTRIES) = some t → Q (some (t, a % NPTENTRIES)) m)
    (hnone : table m d (a / NPTENTRIES) = none → Q none m) : wp E (walkpgdir d a false) m Q := by
  have hlt := div_lt_of_lt ha
  rw [walkpgdir,wp_bind,wp_read]
  refine wp_ite (fun hp => hsome _ ?_) fun hp => ?_
  · rw [table,if_pos ⟨hlt,hp⟩]
  · refine hnone ?_
    rw [table,if_neg fun hc => hp hc.2]

theorem wp_walk_alloc (h : Sep A m D R) (hd : d ∈ D) (ha : a < NPAGES) :
    wp E (walkpgdir d a true) m fun r m' => Sep A m' D R ∧ KeepBut m m' D d ∧
      TablesStay m m' d ∧ (∀ b, entry m' d b = entry m d b) ∧
      (∀ t i, r = some (t, i) → table m' d (a / NPTENTRIES) = some t ∧ i = a % NPTENTRIES) ∧
      Draws m m' d 0 {a / NPTENTRIES} (r.isSome = true) := by
  have hlt := div_lt_of_lt ha
  rw [walkpgdir,wp_bind,wp_read]
  refine wp_ite (fun hp => ?_) fun hp => ?_
  · have hsome : table m d (a / NPTENTRIES) = some (m.tab d (a / NPTENTRIES)).frame := by
      rw [table,if_pos ⟨hlt,hp⟩]
    refine ⟨h,.refl m D d,(Keep.refl m d).tablesStay,fun _ => rfl,fun t i hr => ?_,
      .there hsome rfl⟩
    cases hr
    exact ⟨hsome,rfl⟩
  have hnone : table m d (a / NPTENTRIES) = none := by
    rw [table,if_neg fun hc => hp hc.2]
  refine wp_ite (fun hf => by cases hf) fun _ => ?_
  refine (wp_kalloc h).with_ok.bind ?_
  rintro (_ | t) m1 ⟨hok,htab,hsep,hsome⟩
  · have hk := keep_of_tab_eq htab
    exact ⟨hsep rfl,.of_all fun d' _ => hk d',(hk d).tablesStay,(hk d).entry,by simp,
      (kalloc_draws hok d).1.table hnone ⟨rfl,rfl⟩ (by simp)⟩
  obtain ⟨hnR,h1⟩ := hsome t rfl
  have hk1 := keep_of_tab_eq htab
  have ht : t ∈ insert t R := mem_insert _ _
  -- the page is cleared while nobody uses it
  have hk2 : ∀ d' ∈ D, Keep m1 (m1.wipe t .zero) d' := fun d' hd' =>
    keep_of_onlyAt (h1.rest_ne_spot ht hd') (onlyAt_wipe m1 t .zero)
  have h2 : Sep A (m1.wipe t .zero) D (insert t R) := h1.frame rfl hk2
  have hnone2 : table (m1.wipe t .zero) d (a / NPTENTRIES) = none := by
    rw [(hk2 d hd).table,(hk1 d).table,hnone]
  obtain ⟨h3,hbut,htable,hentry⟩ := h2.setTable (e := ⟨t,true,true,true⟩) hd hlt hnone2 ht
    (fun k => by simp [Mem.wipe]) rfl rfl
  simp only [wp_bind,wp_modify,wp_pure]
  have hR : insert t R \ {t} = R := insert_sdiff_self_of_notMem hnR
  refine ⟨hR ▸ h3,fun d' hd' hne => ?_,fun j u hu => ?_,fun b => ?_,fun t' i hr => ?_,
    (kalloc_draws hok d).1.table hnone ⟨rfl,rfl⟩ fun _ i => ?_⟩
  · exact ((hk1 d').trans (hk2 d' hd')).trans (hbut d' hd' hne)
  · have hj : j ≠ a / NPTENTRIES := by
      rintro rfl
      rw [hnone] at hu
      cases hu
    rw [htable,if_neg hj,(hk2 d hd).table,(hk1 d).table,hu]
  · rw [hentry,(hk2 d hd).entry,(hk1 d).entry]
  · cases hr
    exact ⟨by rw [htable,if_pos rfl],rfl⟩
  · rw [htable,(hk2 d hd).table,(hk1 d).table]
    by_cases hi : i = a / NPTENTRIES <;> simp [hi]

theorem wp_mapPage {R' : Set ℕ} (h : Sep A m D R) (hd : d ∈ D) (haN : a < NPAGES)
    (hnone : (entry m d a).present = false)
    (hset : ∀ {m1 t}, Sep A m1 D R → table m1 d (a / NPTENTRIES) = some t →
      (entry m1 d a).present = false → Sep A (m1.poke t (a % NPTENTRIES) e) D R') :
    wp E (mapPage d a e) m fun ok m' => KeepBut m m' D d ∧ TablesStay m m' d ∧
      (ok = false → Sep A m' D R ∧ ∀ b, entry m' d b = entry m d b) ∧
      (ok = true → Sep A m' D R' ∧ ∀ b, entry m' d b = if b = a then e else entry m d b) ∧
      Draws m m' d 0 {a / NPTENTRIES} (ok = true) := by
  rw [mapPage]
  refine (wp_walk_alloc h hd haN).bind ?_
  rintro (_ | ⟨t,i⟩) m1 ⟨h1,hbut,hstay,hentry,hsome,hdraw⟩
  · exact ⟨hbut,hstay,fun _ => ⟨h1,hentry⟩,by simp,hdraw⟩
  obtain ⟨ht,rfl⟩ := hsome t i rfl
  rw [← hentry] at hnone
  simp only [wp_bind,wp_read]
  refine wp_ite (fun hp => ?_) fun _ => ?_
  · rw [← entry_eq ht,hnone] at hp
    cases hp
  · obtain ⟨hbut2,htable2,hentry2⟩ := h1.setEntry hd ht e
    refine ⟨hbut.trans hbut2,hstay.trans fun i t ht => (htable2 i).trans ht,by simp,
      fun _ => ⟨hset h1 ht hnone,fun b => ?_⟩,hdraw.after htable2 ⟨rfl,rfl⟩⟩
    rw [hentry2,hentry]

theorem wp_mappages_kernel {n pa : ℕ} {w u : Bool} (h : Sep A m D R) (hd : d ∈ D)
    (ha : KERNPAGE ≤ a) (haN : a + n ≤ NPAGES)
    (hnone : ∀ b, a ≤ b → b < a+n → (entry m d b).present = false) :
    wp E (mappages d a n pa w u) m fun ok m' => Sep A m' D R ∧ KeepBut m m' D d ∧
      (∀ b, b < a ∨ a + n ≤ b → entry m' d b = entry m d b) ∧ (ok = true → ∀ b, a ≤ b → b < a+n →
        (entry m' d b).present = true ∧ (entry m' d b).user = u) ∧
      Draws m m' d 0 (dirEntries a n) (ok = true) := by
  induction n generalizing a pa m with
  | zero =>
    refine ⟨h,.refl m D d,fun _ _ => rfl,fun _ b _ _ => by omega,?_⟩
    rw [dirEntries_zero]
    exact .nothing m d rfl
  | succ n ih =>
    rw [mappages]
    refine (wp_mapPage h hd (by omega) (hnone a le_rfl (by omega))
      fun h1 ht _ => h1.setOther hd ht (.inl ha)).bind ?_
    rintro ok m1 ⟨hbut1,-,hfail1,hok1,hdraw1⟩
    rw [dirEntries_succ]
    refine wp_ite (fun hok => ?_) fun hok => ?_
    · obtain ⟨h1,hentry1⟩ := hok1 hok
      have hother : ∀ b, b ≠ a → entry m1 d b = entry m d b := fun b hb => by
        rw [hentry1,if_neg hb]
      refine (ih h1 (by omega) (by omega) fun b hb hb' => ?_).mono ?_
      · rw [hother b (by omega)]
        exact hnone b (by omega) (by omega)
      rintro ok' m2 ⟨h2,hbut2,hentry2,hok2,hdraw2⟩
      refine ⟨h2,hbut1.trans hbut2,fun b hb => ?_,fun hok' b hb hb' => ?_,
        hdraw1.trans hok hdraw2⟩
      · rw [hentry2 b (by omega),hother b (by omega)]
      · by_cases hba : b = a
        · subst hba
          rw [hentry2 b (by omega),hentry1,if_pos rfl]
          exact ⟨rfl,rfl⟩
        · exact hok2 hok' b (by omega) (by omega)
    · obtain ⟨h1,hentry1⟩ := hfail1 (by simpa using hok)
      exact ⟨h1,hbut1,fun b _ => hentry1 b,fun hok' => by simp at hok',
        hdraw1.fail hok Bool.false_ne_true le_rfl Finset.subset_union_left⟩

theorem wp_mappages_user {w u : Bool} (h : Sep A m D R) (hd : d ∈ D) (ha : a < KERNPAGE)
    (hnone : (entry m d a).present = false) (hf : f ∈ R) :
    wp E (mappages d a 1 f w u) m fun ok m' => KeepBut m m' D d ∧ TablesStay m m' d ∧
      (ok = false → Sep A m' D R ∧ ∀ b, entry m' d b = entry m d b) ∧
      (ok = true → Sep A m' D (R \ {f}) ∧
        ∀ b, entry m' d b = if b = a then ⟨f, true, w, u⟩ else entry m d b) ∧
      Draws m m' d 0 {a / NPTENTRIES} (ok = true) := by
  rw [mappages]
  refine (wp_mapPage h hd (lt_trans ha (by decide)) hnone
    fun h1 ht hno => h1.setPage hd ht ha hno hf rfl rfl).bind ?_
  rintro ok m1 hpost
  refine wp_ite (fun hok => ?_) fun hok => ?_
  · rw [hok] at hpost
    exact hpost
  · rw [Bool.not_eq_true] at hok
    rw [hok] at hpost
    exact hpost

include hA

theorem frame_ne_zero (hf : f ∈ A) : f ≠ 0 := by
  have := hA f hf
  have := L.data_le
  have := L.extmem_lt
  omega

theorem wp_unmap (h : Sep A m D R) (hd : d ∈ D) (ht : table m d (a / NPTENTRIES) = some t)
    (ha : a < KERNPAGE) (hp : (entry m d a).present = true) :
    wp E (do kfree L (entry m d a).frame; Prog.modify (·.poke t (a % NPTENTRIES) .zero)) m
      fun _ m' => Sep A m' D R ∧ KeepBut m m' D d ∧ TablesStay m m' d ∧
        ∀ b, entry m' d b = if b = a then .zero else entry m d b := by
  set f := (entry m d a).frame with hf
  have hspot : spot m d (.user a) = some f := spot_user ha hp
  have hin := hA f (h.sole.only (.spot d (.user a)) f ⟨hd,hspot⟩)
  have hfR : f ∉ R := fun hR => h.rest_ne_spot hR hd _ hspot
  have hft : f ≠ t := by
    rintro rfl
    have := (h.spot_inj hd hd (y := .table _) hspot ht).2
    cases this
  -- the two stores are to different pages, so the entry may as well be cleared first
  have hcomm : { m.wipe f .junk with freelist := f :: m.freelist }.poke t (a % NPTENTRIES) .zero =
      { (m.poke t (a % NPTENTRIES) .zero).wipe f .junk with freelist := f :: m.freelist } := by
    simp only [Mem.poke,Mem.wipe,Mem.mk.injEq,true_and,and_true]
    rw [Function.update_of_ne hft.symm,Function.update_comm hft]
  have hclear := h.clearPage hd ht ha hp
  obtain ⟨hbut,htable,hentry⟩ := h.setEntry hd ht .zero
  have hfi : f ∈ insert f R := mem_insert _ _
  have ho := onlyAt_wipe (m.poke t (a % NPTENTRIES) .zero) f .junk
  have hkeep : ∀ d' ∈ D, Keep (m.poke t (a % NPTENTRIES) .zero)
      { (m.poke t (a % NPTENTRIES) .zero).wipe f .junk with freelist := f :: m.freelist } d' :=
    fun d' hd' => keep_of_onlyAt (hclear.rest_ne_spot hfi hd') ho
  rw [wp_bind,kfree]
  refine wp_ite (fun hbad => by omega) fun _ => ?_
  simp only [wp_bind,wp_modify]
  rw [show (m.wipe f .junk).freelist = m.freelist from rfl,hcomm]
  refine ⟨?_,fun d' hd' hne => (hbut d' hd' hne).trans (hkeep d' hd'),
    fun i t ht => ((hkeep d hd).table i).trans ((htable i).trans ht),fun b => ?_⟩
  · rw [← insert_sdiff_self_of_notMem hfR]
    exact hclear.give hfi ho rfl
  · rw [(hkeep d hd).entry,hentry]

/-- The loop of `deallocuvm` unmaps what is mapped from `a` up to the old size, also where it skips
a directory entry. -/
theorem wp_deallocLoop {oldsz n : ℕ} (hold : oldsz ≤ KERNBASE) (h : Sep A m D R) (hd : d ∈ D)
    (hn : pgup oldsz ≤ a + n) :
    wp E (deallocLoop L d oldsz n a) m fun _ m' => Sep A m' D R ∧ KeepBut m m' D d ∧
      TablesStay m m' d ∧ (∀ b, b < a ∨ pgup oldsz ≤ b → entry m' d b = entry m d b) ∧
      ∀ b, a ≤ b → b < pgup oldsz → (entry m' d b).present = false := by
  induction n generalizing a m with
  | zero =>
    exact ⟨h,.refl m D d,(Keep.refl m d).tablesStay,fun _ _ => rfl,fun b _ _ => by omega⟩
  | succ n ih =>
    rw [deallocLoop]
    refine wp_ite (fun hlt => ?_) fun hge => ?_
    · have hak : a < KERNPAGE := by
        have : a * PGSIZE < KERNPAGE * PGSIZE := lt_of_lt_of_le hlt hold
        exact Nat.lt_of_mul_lt_mul_right this
      rw [wp_bind]
      refine wp_walk (lt_trans hak (by decide)) (fun t ht => ?_) fun hnone => ?_
      · simp only [wp_bind,wp_read]
        rw [← entry_eq ht]
        refine wp_ite (fun hp => ?_) fun hp => ?_
        · refine wp_ite (fun h0 => ?_) fun h0 => ?_
          · refine absurd h0 (frame_ne_zero hA (h.sole.only (.spot d (.user a)) _ ⟨hd,?_⟩))
            exact spot_user hak hp
          refine wp.bind_bind (wp_unmap hA h hd ht hak hp) ?_
          rintro - m1 ⟨h1,hbut1,hstay1,hentry1⟩
          refine (ih h1 (by omega)).mono ?_
          rintro - m2 ⟨h2,hbut2,hstay2,hentry2,hnone2⟩
          refine ⟨h2,hbut1.trans hbut2,hstay1.trans hstay2,fun b hb => ?_,fun b hb hb' => ?_⟩
          · rw [hentry2 b (by omega),hentry1,if_neg]
            rintro rfl
            have := lt_pgup_iff.mpr hlt
            omega
          · by_cases hba : b = a
            · subst hba
              rw [hentry2 b (by omega),hentry1,if_pos rfl]
              rfl
            · exact hnone2 b (by omega) hb'
        · refine (ih h (by omega)).mono ?_
          rintro - m2 ⟨h2,hbut2,hstay2,hentry2,hnone2⟩
          refine ⟨h2,hbut2,hstay2,fun b hb => hentry2 b (by omega),fun b hb hb' => ?_⟩
          by_cases hba : b = a
          · subst hba
            rw [hentry2 b (by omega)]
            exact Bool.not_eq_true _ ▸ hp
          · exact hnone2 b (by omega) hb'
      · -- no page table: nothing is mapped up to the next directory entry
        have hskip : ∀ b, a ≤ b → b < (a / NPTENTRIES + 1) * NPTENTRIES →
            (entry m d b).present = false := fun b hb hb' => by
          rw [entry_none (by rw [div_eq_of_lt_next hb hb']; exact hnone)]
          rfl
        have hnext := lt_next a
        refine (ih h (by omega)).mono ?_
        rintro - m2 ⟨h2,hbut2,hstay2,hentry2,hnone2⟩
        refine ⟨h2,hbut2,hstay2,fun b hb => hentry2 b (by omega),fun b hb hb' => ?_⟩
        by_cases hbn : b < (a / NPTENTRIES + 1) * NPTENTRIES
        · rw [hentry2 b (.inl hbn)]
          exact hskip b hb hbn
        · exact hnone2 b (by omega) hb'
    · refine ⟨h,.refl m D d,(Keep.refl m d).tablesStay,fun _ _ => rfl,fun b hb hb' => ?_⟩
      rw [← lt_pgup_iff] at hge
      omega

theorem wp_deallocuvm {oldsz newsz : ℕ} (hold : oldsz ≤ KERNBASE) (h : Sep A m D R) (hd : d ∈ D) :
    wp E (deallocuvm L d oldsz newsz) m fun r m' => r = min oldsz newsz ∧ Sep A m' D R ∧
      KeepBut m m' D d ∧ TablesStay m m' d ∧
      (∀ b, b < pgup newsz ∨ pgup oldsz ≤ b → entry m' d b = entry m d b) ∧
      ∀ b, pgup newsz ≤ b → b < pgup oldsz → (entry m' d b).present = false := by
  rw [deallocuvm]
  refine wp_ite (fun hle => ?_) fun hlt => ?_
  · have hup : pgup oldsz ≤ pgup newsz := by
      rw [pgup_le_iff]
      exact hle.trans (pgup_le_iff.mp le_rfl)
    exact ⟨(Nat.min_eq_left hle).symm,h,.refl m D d,(Keep.refl m d).tablesStay,
      fun _ _ => rfl,fun b _ _ => by omega⟩
  · refine (wp_deallocLoop hA hold h hd (by omega)).bind ?_
    rintro - m1 ⟨h1,hbut,hstay,hentry,hnone⟩
    exact ⟨(Nat.min_eq_right (by omega)).symm,h1,hbut,hstay,hentry,hnone⟩

theorem wp_freeTables {is : List ℕ} (his : ∀ i, i ∈ is ↔ i < NPDENTRIES) (hnodup : is.Nodup)
    (h : Sep A m D (insert d ({t | ∃ i, table m d i = some t} ∪ R)))
    (hdR : d ∉ R) (htd : ∀ i t, table m d i = some t → t ≠ d)
    (htR : ∀ i t, table m d i = some t → t ∉ R)
    (hinj : ∀ i j t, table m d i = some t → table m d j = some t → i = j) :
    wp E (freeTables L d is) m fun _ m' => Sep A m' D (insert d R) ∧ ∀ d' ∈ D, Keep m m' d' := by
  rw [freeTables]
  refine (wp_forM (fun l m' => (∀ i ∈ l, i < NPDENTRIES) ∧ l.Nodup ∧ m'.tab d = m.tab d ∧
    Sep A m' D (insert d ({t | ∃ i ∈ l, table m d i = some t} ∪ R)) ∧
    ∀ d' ∈ D, Keep m m' d') ?_ is ?_).mono ?_
  · rintro i l m1 ⟨hl,hnd,htab,h1,hkeep⟩
    rw [nodup_cons] at hnd
    have hi := hl i mem_cons_self
    have hl' : ∀ j ∈ l, j < NPDENTRIES := fun j hj => hl j (mem_cons_of_mem _ hj)
    rw [wp_bind,wp_read,htab]
    refine wp_ite (fun hp => ?_) fun hp => ?_
    · have ht : table m d i = some (m.tab d i).frame := by rw [table,if_pos ⟨hi,hp⟩]
      refine (wp_kfree hA h1 (.inr (.inl ⟨i,mem_cons_self,ht⟩))).mono ?_
      rintro - m2 ⟨h2,ho,hkeep2⟩
      refine ⟨hl',hnd.2,(ho d (htd i _ ht).symm).trans htab,?_,
        fun d' hd' => (hkeep d' hd').trans (hkeep2 d' hd')⟩
      convert h2 using 1
      ext t
      simp only [Set.mem_insert_iff,mem_union,mem_ofPred_eq,mem_cons,mem_sdiff,mem_singleton_iff]
      constructor
      · rintro (rfl | ⟨j,hj,hjt⟩ | hR)
        · exact ⟨.inl rfl,(htd i _ ht).symm⟩
        · refine ⟨.inr (.inl ⟨j,.inr hj,hjt⟩),?_⟩
          rintro rfl
          exact hnd.1 (hinj i j _ ht hjt ▸ hj)
        · refine ⟨.inr (.inr hR),?_⟩
          rintro rfl
          exact htR i _ ht hR
      · rintro ⟨rfl | ⟨j,rfl | hj,hjt⟩ | hR,hne⟩
        · exact .inl rfl
        · rw [ht] at hjt
          exact absurd (Option.some.inj hjt).symm hne
        · exact .inr (.inl ⟨j,hj,hjt⟩)
        · exact .inr (.inr hR)
    · have ht : table m d i = none := by rw [table,if_neg fun hc => hp hc.2]
      refine ⟨hl',hnd.2,htab,?_,hkeep⟩
      convert h1 using 3
      ext t
      simp only [mem_ofPred_eq,mem_cons,exists_eq_or_imp,ht]
      simp
  · refine ⟨fun i hi => (his i).mp hi,hnodup,rfl,?_,fun _ _ => .refl _ _⟩
    convert h using 3
    ext t
    constructor
    · rintro ⟨i,-,hi⟩
      exact ⟨i,hi⟩
    · rintro ⟨i,hi⟩
      exact ⟨i,(his i).mpr (table_lt hi),hi⟩
  · rintro - m' ⟨-,-,-,h',hkeep⟩
    exact ⟨by simpa using h',hkeep⟩

theorem wp_freevm (h : Sep A m (insert d D) R) (hdD : d ∉ D) :
    wp E (freevm L d) m fun _ m' => Sep A m' D R ∧ ∀ d' ∈ D, Keep m m' d' := by
  have hd : d ∈ insert d D := mem_insert _ _
  rw [freevm]
  refine (wp_deallocuvm hA le_rfl h hd).bind ?_
  rintro - m1 ⟨-,h1,hbut,-,-,hnone⟩
  rw [pgup_zero,pgup_kernbase] at hnone
  have hkeep1 : ∀ d' ∈ D, Keep m m1 d' := fun d' hd' =>
    hbut d' (.inr hd') fun e => hdD (e ▸ hd')
  have hclosed := h1.closeDir hdD fun a ha => hnone a (Nat.zero_le a) ha
  have hdR : d ∉ R := fun hR => h1.rest_ne_spot hR hd .dir rfl
  refine (wp_freeTables hA (fun _ => mem_range) nodup_range hclosed hdR
    (fun i t ht => h1.table_ne_dir hd ht) (fun i t ht hR => h1.rest_ne_spot hR hd (.table i) ht)
    fun i j t hi hj => h1.table_inj hd hi hj).bind ?_
  rintro - m2 ⟨h2,hkeep2⟩
  refine (wp_kfree hA h2 (mem_insert d R)).mono ?_
  rintro - m3 ⟨h3,-,hkeep3⟩
  refine ⟨by rwa [insert_sdiff_self_of_notMem hdR] at h3,fun d' hd' => ?_⟩
  exact ((hkeep1 d' hd').trans (hkeep2 d' hd')).trans (hkeep3 d' hd')

omit hA

/-- The directory entries for ranges of `kmap`. -/
def rangeEntries (ks : List (ℕ × ℕ × ℕ × Bool)) : Finset ℕ :=
  ks.foldr (fun k S => dirEntries k.1 k.2.2.1 ∪ S) ∅

/-- Page `b` is in a range of `kmap`. -/
def InRange (k : ℕ × ℕ × ℕ × Bool) (b : ℕ) : Prop := k.1 ≤ b ∧ b < k.1 + k.2.2.1

theorem wp_mapAll {ks : List (ℕ × ℕ × ℕ × Bool)} (h : Sep A m D R) (hd : d ∈ D)
    (hks : ∀ k ∈ ks, KERNPAGE ≤ k.1 ∧ k.1+k.2.2.1 ≤ NPAGES)
    (hdisj : ks.Pairwise fun k k' => ∀ b, InRange k b → ¬InRange k' b)
    (hnone : ∀ k ∈ ks, ∀ b, InRange k b → (entry m d b).present = false) :
    wp E (mapAll d ks) m fun ok m' => Sep A m' D R ∧ KeepBut m m' D d ∧
      (∀ b, (∀ k ∈ ks, ¬InRange k b) → entry m' d b = entry m d b) ∧
      (ok = true → ∀ k ∈ ks, ∀ b, InRange k b →
        (entry m' d b).present = true ∧ (entry m' d b).user = false) ∧
      Draws m m' d 0 (rangeEntries ks) (ok = true) := by
  induction ks generalizing m with
  | nil => exact ⟨h,.refl m D d,fun _ _ => rfl,by simp,.nothing m d rfl⟩
  | cons k ks ih =>
    obtain ⟨virt,phys,n,w⟩ := k
    rw [pairwise_cons] at hdisj
    obtain ⟨hva,hvN⟩ := hks _ mem_cons_self
    rw [mapAll]
    refine (wp_mappages_kernel h hd hva hvN fun b hb hb' =>
      hnone _ mem_cons_self b ⟨hb,hb'⟩).bind ?_
    rintro ok m1 ⟨h1,hbut1,hentry1,hok1,hdraw1⟩
    have hout : ∀ b, ¬InRange (virt, phys, n, w) b → entry m1 d b = entry m d b := fun b hb =>
      hentry1 b (by by_contra hc; exact hb ⟨by omega,by omega⟩)
    refine wp_ite (fun hok => ?_) fun hok => ?_
    · refine (ih h1 (fun k hk => hks k (mem_cons_of_mem _ hk)) hdisj.2 fun k hk b hb => ?_).mono ?_
      · rw [hout b fun hb' => hdisj.1 k hk b hb' hb]
        exact hnone k (mem_cons_of_mem _ hk) b hb
      rintro ok' m2 ⟨h2,hbut2,hentry2,hok2,hdraw2⟩
      refine ⟨h2,hbut1.trans hbut2,fun b hb => ?_,fun hok' k hk b hb => ?_,
        hdraw1.trans hok hdraw2⟩
      · rw [hentry2 b fun k hk => hb k (mem_cons_of_mem _ hk),hout b (hb _ mem_cons_self)]
      · rcases List.mem_cons.mp hk with rfl | hk
        · rw [hentry2 b fun k hk => hdisj.1 k hk b hb]
          exact hok1 hok b hb.1 hb.2
        · exact hok2 hok' k hk b hb
    · exact ⟨h1,hbut1,fun b hb => hout b (hb _ mem_cons_self),fun hok' => by simp at hok',
        hdraw1.fail hok Bool.false_ne_true le_rfl Finset.subset_union_left⟩

theorem kmap_ranges (L : Layout) : (∀ k ∈ kmap L, KERNPAGE ≤ k.1 ∧ k.1+k.2.2.1 ≤ NPAGES) ∧
    (kmap L).Pairwise fun k k' => ∀ b, InRange k b → ¬InRange k' b := by
  obtain ⟨kend,early,extmem,data,phystop,devspace,hext,hlt,-,-,-,htop,hdev,hdevN⟩ := L
  have hN : NPAGES = 0x100000 := rfl
  have hK : KERNPAGE = 0x80000 := rfl
  constructor
  · simp only [kmap,mem_cons,not_mem_nil,or_false]
    rintro k (rfl | rfl | rfl | rfl) <;> dsimp only at * <;> omega
  · simp only [kmap,pairwise_cons,mem_cons,not_mem_nil,or_false,InRange]
    refine ⟨?_,?_,?_,by simp⟩
    · rintro k (rfl | rfl | rfl) b <;> dsimp only at * <;> omega
    · rintro k (rfl | rfl) b <;> dsimp only at * <;> omega
    · rintro k rfl b
      dsimp only at *
      omega

/-- The last page of the kernel half, part of the devices, is not for users. -/
def TopKernel (m : Mem) (d : ℕ) : Prop :=
  (entry m d (NPAGES - 1)).present = true ∧ (entry m d (NPAGES - 1)).user = false

/-- The directory entries of the kernel. -/
def kernelEntries (L : Layout) : Finset ℕ := rangeEntries (kmap L)

/-- The pages of an address space with `n` user pages: its directory, page tables and user pages. -/
def spacePages (L : Layout) (n : ℕ) : ℕ :=
  1 + (kernelEntries L).card + (n + (dirEntries 0 n).card)

/-- `setupkvm` has taken the directory `d` and the page tables of the kernel. -/
structure SetUp (L : Layout) (m m' : Mem) (d : ℕ) : Prop where
  less : m.Less m' (1 + (kernelEntries L).card)
  tables : ∀ i, table m' d i = none ↔ i ∉ kernelEntries L

theorem rangeEntries_le {ks : List (ℕ × ℕ × ℕ × Bool)} {i : ℕ} (hks : ∀ k ∈ ks, KERNPAGE ≤ k.1)
    (h : i ∈ rangeEntries ks) : KERNPAGE / NPTENTRIES ≤ i := by
  induction ks with
  | nil => simp [rangeEntries] at h
  | cons k ks ih =>
    rcases Finset.mem_union.mp h with hi | hi
    · obtain ⟨b,hb,rfl⟩ := Finset.mem_image.mp hi
      exact Nat.div_le_div_right ((hks k mem_cons_self).trans (Finset.mem_Ico.mp hb).1)
    · exact ih (fun k hk => hks k (mem_cons_of_mem _ hk)) hi

/-- User pages are drawn after `setupkvm`. -/
theorem SetUp.grants_iff {n : ℕ} (h : SetUp L m m' d)
    (hg : m.Grants (1 + (kernelEntries L).card)) (hn : n ≤ KERNPAGE) :
    m'.Grants (n + missing m' d (dirEntries 0 n)) ↔ m.Grants (spacePages L n) := by
  have hmiss : missing m' d (dirEntries 0 n) = (dirEntries 0 n).card := by
    rw [missing,Finset.filter_true_of_mem]
    intro i hi
    obtain ⟨b,hb,rfl⟩ := Finset.mem_image.mp hi
    refine (h.tables _).mpr fun hk => ?_
    have hle := rangeEntries_le (fun k hk => ((kmap_ranges L).1 k hk).1) hk
    have hlt := (Finset.mem_Ico.mp hb).2
    simp only [KERNPAGE,NPTENTRIES] at hle hn
    omega
  rw [spacePages,h.less.grants_iff hg,hmiss]

include hA

theorem wp_setupkvm (h : Sep A m D R) : wp E (setupkvm L) m fun r m' =>
    (∀ d ∈ D, Keep m m' d) ∧ (r = none → Sep A m' D R) ∧
      (∀ d, r = some d → d ∉ D ∧ Sep A m' (insert d D) R ∧ Maps m' d 0 ∧ TopKernel m' d ∧
        SetUp L m m' d) ∧
      (r.isSome = true ↔ m.Grants (1 + (kernelEntries L).card)) := by
  rw [setupkvm]
  refine (wp_kalloc h).with_ok.bind ?_
  rintro (_ | d) m1 ⟨hok1,htab,hsep,hsome⟩
  · refine ⟨fun d _ => keep_of_tab_eq htab d,hsep,by simp,iff_of_false (by simp) fun hg => ?_⟩
    exact absurd ((kalloc_draws hok1 0).1.iff.mpr (hg.mono (by simp [missing]))) (by simp)
  obtain ⟨hdR,h1⟩ := hsome d rfl
  have hd : d ∈ insert d R := mem_insert _ _
  have hk1 := keep_of_tab_eq htab
  have hk2 : ∀ d' ∈ D, Keep m1 (m1.wipe d .zero) d' := fun d' hd' =>
    keep_of_onlyAt (h1.rest_ne_spot hd hd') (onlyAt_wipe m1 d .zero)
  have h2 : Sep A (m1.wipe d .zero) D (insert d R) := h1.frame rfl hk2
  obtain ⟨hdD,h3,hentry⟩ := h2.openDir hd fun i => by simp [Mem.wipe]
  rw [insert_sdiff_self_of_notMem hdR] at h3
  have hdD' : d ∈ insert d D := mem_insert _ _
  have hnoneD : ∀ {m' m''}, KeepBut m' m'' (insert d D) d → ∀ d' ∈ D, Keep m' m'' d' :=
    fun hb d' hd' => hb d' (.inr hd') fun e => hdD (e ▸ hd')
  have hzero : ∀ b, (entry (m1.wipe d .zero) d b).present = false := fun b => by
    rw [hentry]
    rfl
  obtain ⟨hks,hdisj⟩ := kmap_ranges L
  rw [wp_bind,wp_modify]
  refine wp_ite (fun hhigh => by have := L.phystop_le; omega) fun _ => ?_
  refine (wp_mapAll h3 hdD' hks hdisj fun k _ b _ => hzero b).bind ?_
  rintro ok m4 ⟨h4,hbut,hentry4,hok4,hdraw⟩
  have hk4 := hnoneD hbut
  -- the new directory has no page table yet
  have hbare : ∀ i, table (m1.wipe d .zero) d i = none := fun i => by
    simp [table,Mem.wipe,Pte.zero]
  have hcard : 0 + missing (m1.wipe d .zero) d (kernelEntries L) = (kernelEntries L).card := by
    simp [missing,hbare]
  have hone : 1 + missing m d ∅ = 1 := by simp [missing]
  have hdraw1 := (kalloc_draws hok1 d).1
  have hless1 : m.Less (m1.wipe d .zero) 1 := hone ▸ hdraw1.less rfl
  have hiff := hdraw.iff
  rw [← kernelEntries,hcard,← hless1.grants_iff (hone ▸ hdraw1.iff.mp rfl)] at hiff
  refine wp_ite (fun hok => ?_) fun hok => ?_
  · refine ⟨fun d' hd' => ((hk1 d').trans (hk2 d' hd')).trans (hk4 d' hd'),by simp,
      fun d' hd' => ?_,iff_of_true rfl (hiff.mp hok)⟩
    cases hd'
    refine ⟨hdD,h4,fun a ha => ?_,?_,⟨hless1.trans (hcard ▸ hdraw.less hok),fun i => ?_⟩⟩
    · have hout : ∀ k ∈ kmap L, ¬InRange k a := fun k hk hin => by
        have := (hks k hk).1
        have := hin.1
        omega
      rw [hentry4 a hout,hzero,pgup_zero]
      simp
    · have hdev := L.devspace_lt
      refine hok4 hok (L.devspace, L.devspace, NPAGES-L.devspace, true) (by simp [kmap]) _ ⟨?_,?_⟩
      · dsimp only
        omega
      · dsimp only
        omega
    · rw [hdraw.tables hok,hbare,kernelEntries]
      simp
  · refine (wp_freevm hA h4 hdD).bind ?_
    rintro - m5 ⟨h5,hk5⟩
    refine ⟨fun d' hd' => ?_,fun _ => h5,by simp,iff_of_false (by simp) (hok ∘ hiff.mpr)⟩
    exact (((hk1 d').trans (hk2 d' hd')).trans (hk4 d' hd')).trans (hk5 d' hd')

end Specs

end Xv6Container.Vm
