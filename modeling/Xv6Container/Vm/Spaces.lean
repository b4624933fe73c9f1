import Xv6Container.Vm.Pages
import Xv6Container.Lib.Owners

/-! # Who holds a page -/

namespace Xv6Container.Vm

open Function
open Option (some.inj)

/-- The page table for entry `i` of directory `d`. -/
def table (m : Mem) (d i : ℕ) : Option ℕ :=
  if i < NPDENTRIES ∧ (m.tab d i).present then some (m.tab d i).frame else none

/-- The entry for page `a`, zero if there is no page table for it. -/
def entry (m : Mem) (d a : ℕ) : Pte :=
  match table m d (a / NPTENTRIES) with
  | some t => m.tab t (a % NPTENTRIES)
  | none => .zero

/-- A place of an address space. -/
inductive Spot
  | dir | table (i : ℕ) | user (a : ℕ)
  deriving DecidableEq

/-- The page at a place of the address space of directory `d`. -/
def spot (m : Mem) (d : ℕ) : Spot → Option ℕ
  | .dir => some d
  | .table i => table m d i
  | .user a => if a < KERNPAGE ∧ (entry m d a).present then some (entry m d a).frame else none

/-- Where a page can be: free, with somebody else, or in an address space. -/
inductive Loc
  | free | rest | spot (d : ℕ) (x : Spot)

/-- `D` are the directories of the address spaces, `R` the pages held elsewhere. -/
def Has (m : Mem) (D R : Set ℕ) : Loc → ℕ → Prop
  | .free, f => f ∈ m.freelist
  | .rest, f => f ∈ R
  | .spot d x, f => d ∈ D ∧ spot m d x = some f

/-- Every page of `A` has one holder. -/
structure Sep (A : Set ℕ) (m : Mem) (D R : Set ℕ) : Prop where
  nodup : m.freelist.Nodup
  sole : Sole A (Has m D R)

/-- The address space of `d` is the same in both memories. -/
structure Keep (m m' : Mem) (d : ℕ) : Prop where
  table : ∀ i, table m' d i = table m d i
  entry : ∀ a, entry m' d a = entry m d a

/-- The memories differ in the content of page `f` only. -/
def OnlyAt (f : ℕ) (m m' : Mem) : Prop := ∀ g, g ≠ f → m'.tab g = m.tab g

section Basics

variable {A D R : Set ℕ} {m m' m'' : Mem} {d f i a t : ℕ} {x : Spot} {e : Pte}

theorem Keep.refl (m : Mem) (d : ℕ) : Keep m m d := ⟨fun _ => rfl,fun _ => rfl⟩

theorem Keep.trans (h : Keep m m' d) (h' : Keep m' m'' d) : Keep m m'' d :=
  ⟨fun i => (h'.table i).trans (h.table i),fun a => (h'.entry a).trans (h.entry a)⟩

theorem Keep.symm (h : Keep m m' d) : Keep m' m d :=
  ⟨fun i => (h.table i).symm,fun a => (h.entry a).symm⟩

theorem Keep.spot (h : Keep m m' d) (x : Spot) : spot m' d x = spot m d x := by
  cases x with
  | dir => rfl
  | table i => exact h.table i
  | user a => simp only [Vm.spot,h.entry]

theorem table_lt (h : table m d i = some t) : i < NPDENTRIES := by
  rw [table] at h
  split at h
  · next hi => exact hi.1
  · cases h

theorem entry_eq (h : table m d (a / NPTENTRIES) = some t) :
    entry m d a = m.tab t (a % NPTENTRIES) := by
  rw [entry,h]

theorem entry_none (h : table m d (a / NPTENTRIES) = none) : entry m d a = .zero := by
  rw [entry,h]

theorem keep_of_tab (hd : m'.tab d = m.tab d)
    (ht : ∀ i t, table m d i = some t → m'.tab t = m.tab t) : Keep m m' d := by
  have htable : ∀ i, table m' d i = table m d i := fun i => by rw [table,table,hd]
  refine ⟨htable,fun a => ?_⟩
  rw [entry,entry,htable]
  cases h : table m d (a / NPTENTRIES) with
  | none => rfl
  | some t => exact congrFun (ht _ t h) _

theorem onlyAt_wipe (m : Mem) (f : ℕ) (e : Pte) : OnlyAt f m (m.wipe f e) := fun _ hg =>
  update_of_ne hg _ _

theorem onlyAt_poke (m : Mem) (f i : ℕ) (e : Pte) : OnlyAt f m (m.poke f i e) := fun _ hg =>
  update_of_ne hg _ _

theorem onlyAt_copy (m : Mem) (f g : ℕ) : OnlyAt g m (m.copy f g) := fun _ hk =>
  update_of_ne hk _ _

theorem poke_tab_self (m : Mem) (f i j : ℕ) (e : Pte) :
    (m.poke f i e).tab f j = if j = i then e else m.tab f j := by
  simp only [Mem.poke,update_self,update_apply]

theorem spot_table : spot m d (.table i) = table m d i := rfl

theorem spot_user (ha : a < KERNPAGE) (hp : (entry m d a).present = true) :
    spot m d (.user a) = some (entry m d a).frame := by
  rw [spot,if_pos ⟨ha,hp⟩]

theorem spot_user_none (hp : (entry m d a).present = false) : spot m d (.user a) = none := by
  rw [spot,if_neg (by simp [hp])]

theorem keep_of_onlyAt (hf : ∀ x, spot m d x ≠ some f) (ho : OnlyAt f m m') : Keep m m' d := by
  refine keep_of_tab (ho d fun e => hf .dir (by rw [← e]; rfl)) fun i t ht => ho t fun e => ?_
  exact hf (.table i) (by rw [← e]; exact ht)

namespace Sep

variable (h : Sep A m D R)
include h

theorem spot_inj {d' : ℕ} {y : Spot} (hd : d ∈ D) (hd' : d' ∈ D) (hx : spot m d x = some f)
    (hy : spot m d' y = some f) : d = d' ∧ x = y := by
  have := h.sole.uniq (.spot d x) (.spot d' y) f ⟨hd,hx⟩ ⟨hd',hy⟩
  cases this
  exact ⟨rfl,rfl⟩

theorem rest_ne_spot (hf : f ∈ R) (hd : d ∈ D) (x : Spot) : spot m d x ≠ some f := fun hx => by
  cases h.sole.uniq .rest (.spot d x) f hf ⟨hd,hx⟩

theorem free_ne_spot (hf : f ∈ m.freelist) (hd : d ∈ D) (x : Spot) : spot m d x ≠ some f :=
  fun hx => by cases h.sole.uniq .free (.spot d x) f hf ⟨hd,hx⟩

theorem rest_not_free (hf : f ∈ R) : f ∉ m.freelist := fun hx => by
  cases h.sole.uniq .rest .free f hf hx

theorem frame (hfree : m'.freelist = m.freelist) (hk : ∀ d ∈ D, Keep m m' d) : Sep A m' D R := by
  refine ⟨hfree ▸ h.nodup,h.sole.congr fun l f => ?_⟩
  cases l with
  | free => simp only [Has,hfree]
  | rest => exact Iff.rfl
  | spot d x => exact and_congr_right fun hd => by rw [(hk d hd).spot]

theorem take {fs : List ℕ} {ds : List Bool} (hf : m.freelist = f :: fs) :
    Sep A { m with freelist := fs, deny := ds } D (insert f R) := by
  have hnd := h.nodup
  rw [hf,List.nodup_cons] at hnd
  refine ⟨hnd.2,h.sole.move (x := f) (i := .free) (j := .rest)
    (by simp [Has,hf]) (fun k => ?_) fun k y hy => ?_⟩
  · cases k with
    | free => simp [Has,hnd.1]
    | rest => simp [Has]
    | spot d x =>
      refine iff_of_false (fun hx => ?_) (by simp)
      exact h.free_ne_spot (by simp [hf]) hx.1 x hx.2
  · cases k with
    | free => simp [Has,hf,hy]
    | rest => simp [Has,hy]
    | spot d x => exact Iff.rfl

theorem give (hf : f ∈ R) (ho : OnlyAt f m m') (hfree : m'.freelist = f :: m.freelist) :
    Sep A m' D (R \ {f}) := by
  have hk : ∀ d ∈ D, Keep m m' d := fun d hd =>
    keep_of_onlyAt (fun x => h.rest_ne_spot hf hd x) ho
  refine ⟨by rw [hfree]; exact List.nodup_cons.mpr ⟨h.rest_not_free hf,h.nodup⟩,
    h.sole.move (x := f) (i := .rest) (j := .free) hf (fun k => ?_) fun k y hy => ?_⟩
  · cases k with
    | free => simp [Has,hfree]
    | rest => simp [Has]
    | spot d x =>
      refine iff_of_false (fun hx => ?_) (by simp)
      exact h.rest_ne_spot hf hx.1 x (((hk d hx.1).spot x).symm.trans hx.2)
  · cases k with
    | free => simp [Has,hfree,hy]
    | rest => simp [Has,hy]
    | spot d x => exact and_congr_right fun hd => by rw [(hk d hd).spot]

theorem free_subset {D' : Set ℕ} (h' : Sep A m' D' R) (hD : D ⊆ D')
    (hk : ∀ d ∈ D, Keep m m' d) : m'.freelist ⊆ m.freelist := by
  intro f hf
  obtain ⟨l,hl⟩ := h.sole.cover f (h'.sole.only .free f hf)
  cases l with
  | free => exact hl
  | rest => exact absurd hf (h'.rest_not_free hl)
  | spot d x =>
    refine absurd ?_ (h'.free_ne_spot hf (hD hl.1) x)
    rw [(hk d hl.1).spot]
    exact hl.2

theorem free_perm (h' : Sep A m' D R) (hk : ∀ d ∈ D, Keep m m' d) :
    m'.freelist.Perm m.freelist := by
  refine (List.perm_ext_iff_of_nodup h'.nodup h.nodup).mpr fun f => ⟨fun hf => ?_,fun hf => ?_⟩
  · exact h.free_subset h' (Set.Subset.refl D) hk hf
  · exact h'.free_subset h (Set.Subset.refl D) (fun d hd => (hk d hd).symm) hf

theorem touch (hf : f ∈ R) (ho : OnlyAt f m m') (hfree : m'.freelist = m.freelist) :
    Sep A m' D R ∧ ∀ d ∈ D, Keep m m' d := by
  have hk : ∀ d ∈ D, Keep m m' d := fun d hd =>
    keep_of_onlyAt (fun x => h.rest_ne_spot hf hd x) ho
  exact ⟨h.frame hfree hk,hk⟩

theorem keep_other {d' : ℕ} (hd : d ∈ D) (hx : spot m d x = some f) (ho : OnlyAt f m m')
    (hd' : d' ∈ D) (hne : d' ≠ d) : Keep m m' d' :=
  keep_of_onlyAt (fun _ hx' => hne (h.spot_inj hd' hd hx' hx).1) ho

theorem table_ne_dir (hd : d ∈ D) (ht : table m d i = some t) : t ≠ d := by
  rintro rfl
  have := (h.spot_inj hd hd (x := .table i) (y := .dir) ht rfl).2
  cases this

theorem table_inj {j : ℕ} (hd : d ∈ D) (hi : table m d i = some t) (hj : table m d j = some t) :
    i = j := by
  have := (h.spot_inj hd hd (x := .table i) (y := .table j) hi hj).2
  cases this
  rfl

theorem fill (hf : f ∈ R) (hfree : m'.freelist = m.freelist) (hd : d ∈ D)
    (hx : spot m d x = none) (hx' : spot m' d x = some f)
    (ho : ∀ d' y, d' ∈ D → Loc.spot d' y ≠ .spot d x → spot m' d' y = spot m d' y) :
    Sep A m' D (R \ {f}) := by
  refine ⟨hfree ▸ h.nodup,h.sole.move (x := f) (i := .rest) (j := .spot d x) hf (fun k => ?_)
    fun k y hy => ?_⟩
  · cases k with
    | free =>
      simp only [Has,hfree]
      exact iff_of_false (h.rest_not_free hf) (by simp)
    | rest => simp [Has]
    | spot d' y =>
      by_cases he : Loc.spot d' y = .spot d x
      · cases he
        exact iff_of_true ⟨hd,hx'⟩ rfl
      · refine iff_of_false (fun hy => ?_) he
        exact h.rest_ne_spot hf hy.1 y ((ho d' y hy.1 he).symm.trans hy.2)
  · cases k with
    | free => simp only [Has,hfree]
    | rest => simp [Has,hy]
    | spot d' z =>
      refine and_congr_right fun hd' => ?_
      by_cases he : Loc.spot d' z = .spot d x
      · cases he
        rw [hx,hx']
        exact iff_of_false (fun e => hy (some.inj e).symm) (by simp)
      · rw [ho d' z hd' he]

theorem empty (hfree : m'.freelist = m.freelist) (hd : d ∈ D)
    (hx : spot m d x = some f) (hx' : spot m' d x = none)
    (ho : ∀ d' y, d' ∈ D → Loc.spot d' y ≠ .spot d x → spot m' d' y = spot m d' y) :
    Sep A m' D (insert f R) := by
  have hloc : ∀ k, Has m D R k f → k = .spot d x := fun k hk => h.sole.uniq k _ f hk ⟨hd,hx⟩
  refine ⟨hfree ▸ h.nodup,h.sole.move (x := f) (i := .spot d x) (j := .rest) ⟨hd,hx⟩
    (fun k => ?_) fun k y hy => ?_⟩
  · cases k with
    | free =>
      simp only [Has,hfree]
      exact iff_of_false (fun hf => by cases hloc .free hf) (by simp)
    | rest => simp [Has]
    | spot d' y =>
      refine iff_of_false (fun hy => ?_) (by simp)
      by_cases he : Loc.spot d' y = .spot d x
      · cases he
        rw [Has,hx'] at hy
        cases hy.2
      · exact he (hloc _ ⟨hy.1,(ho d' y hy.1 he).symm.trans hy.2⟩)
  · cases k with
    | free => simp only [Has,hfree]
    | rest => simp [Has,hy]
    | spot d' z =>
      refine and_congr_right fun hd' => ?_
      by_cases he : Loc.spot d' z = .spot d x
      · cases he
        rw [hx,hx']
        exact iff_of_false (by simp) fun e => hy (some.inj e).symm
      · rw [ho d' z hd' he]

theorem setTable (hd : d ∈ D) (hi : i < NPDENTRIES) (hnone : table m d i = none) (ht : t ∈ R)
    (hzero : ∀ k, m.tab t k = .zero) (he : e.present = true) (hframe : e.frame = t) :
    Sep A (m.poke d i e) D (R \ {t}) ∧ (∀ d' ∈ D, d' ≠ d → Keep m (m.poke d i e) d') ∧
      (∀ j, table (m.poke d i e) d j = if j = i then some t else table m d j) ∧
      ∀ a, entry (m.poke d i e) d a = entry m d a := by
  have ho := onlyAt_poke m d i e
  have htd : t ≠ d := fun e => h.rest_ne_spot ht hd .dir (by rw [e]; rfl)
  have hother : ∀ d' ∈ D, d' ≠ d → Keep m (m.poke d i e) d' := fun d' hd' hne =>
    h.keep_other (x := .dir) hd rfl ho hd' hne
  have htable : ∀ j, table (m.poke d i e) d j = if j = i then some t else table m d j := by
    intro j
    rw [table,table,poke_tab_self]
    by_cases hj : j = i
    · subst hj
      simp [hi,he,hframe]
    · simp [hj]
  have hentry : ∀ a, entry (m.poke d i e) d a = entry m d a := by
    intro a
    have hta := htable (a / NPTENTRIES)
    by_cases hai : a / NPTENTRIES = i
    · rw [if_pos hai] at hta
      rw [entry_eq hta,ho t htd,hzero,entry_none (by rw [hai,hnone])]
    · rw [if_neg hai] at hta
      cases hold : table m d (a / NPTENTRIES) with
      | none => rw [entry_none (hta.trans hold),entry_none hold]
      | some t' =>
        rw [entry_eq (hta.trans hold),entry_eq hold,ho t' (h.table_ne_dir hd hold)]
  refine ⟨h.fill (x := .table i) ht rfl hd ?_ ?_ fun d' x hd' hne => ?_,hother,htable,hentry⟩
  · exact hnone
  · rw [spot_table,htable,if_pos rfl]
  · by_cases hdd : d' = d
    · subst hdd
      cases x with
      | dir => rfl
      | table j => rw [spot_table,spot_table,htable,if_neg fun e => hne (by rw [e])]
      | user a => rw [Vm.spot,Vm.spot,hentry]
    · rw [(hother d' hd' hdd).spot]

theorem setEntry (hd : d ∈ D) (ht : table m d (a / NPTENTRIES) = some t) (e : Pte) :
    (∀ d' ∈ D, d' ≠ d → Keep m (m.poke t (a % NPTENTRIES) e) d') ∧
      (∀ j, table (m.poke t (a % NPTENTRIES) e) d j = table m d j) ∧
      ∀ b, entry (m.poke t (a % NPTENTRIES) e) d b = if b = a then e else entry m d b := by
  have ho := onlyAt_poke m t (a % NPTENTRIES) e
  have htable : ∀ j, table (m.poke t (a % NPTENTRIES) e) d j = table m d j := fun j => by
    rw [table,table,ho d (h.table_ne_dir hd ht).symm]
  refine ⟨fun d' hd' hne => h.keep_other (x := .table _) hd ht ho hd' hne,htable,fun b => ?_⟩
  cases hb : table m d (b / NPTENTRIES) with
  | none =>
    have hba : b ≠ a := by
      rintro rfl
      rw [ht] at hb
      cases hb
    rw [entry_none ((htable _).trans hb),if_neg hba,entry_none hb]
  | some t' =>
    rw [entry_eq ((htable _).trans hb),entry_eq hb]
    by_cases htt : t' = t
    · subst htt
      have hdiv := h.table_inj hd ht hb
      rw [poke_tab_self]
      by_cases hba : b = a
      · rw [if_pos hba,if_pos (by rw [hba])]
      · rw [if_neg hba,if_neg fun hmod => hba ?_]
        rw [← Nat.div_add_mod b NPTENTRIES,← Nat.div_add_mod a NPTENTRIES,hmod,hdiv]
    · have hba : b ≠ a := by
        rintro rfl
        exact htt (some.inj (hb.symm.trans ht))
      rw [ho t' htt,if_neg hba]

theorem spot_setEntry {d' : ℕ} (hd : d ∈ D) (ht : table m d (a / NPTENTRIES) = some t) (e : Pte)
    (hd' : d' ∈ D) (hne : Loc.spot d' x ≠ .spot d (.user a)) :
    spot (m.poke t (a % NPTENTRIES) e) d' x = spot m d' x := by
  obtain ⟨hother,htable,hentry⟩ := h.setEntry hd ht e
  by_cases hdd : d' = d
  · subst hdd
    cases x with
    | dir => rfl
    | table j => exact htable j
    | user b =>
      have hb := hentry b
      rw [if_neg fun e => hne (by rw [e])] at hb
      rw [Vm.spot,Vm.spot,hb]
  · exact (hother d' hd' hdd).spot x

theorem setPage (hd : d ∈ D) (ht : table m d (a / NPTENTRIES) = some t) (ha : a < KERNPAGE)
    (hnone : (entry m d a).present = false) (hf : f ∈ R) (he : e.present = true)
    (hframe : e.frame = f) : Sep A (m.poke t (a % NPTENTRIES) e) D (R \ {f}) := by
  refine h.fill (x := .user a) hf rfl hd (spot_user_none hnone) ?_ fun d' x hd' hne =>
    h.spot_setEntry hd ht e hd' hne
  have hentry := (h.setEntry hd ht e).2.2 a
  rw [if_pos rfl] at hentry
  rw [spot_user ha (by rw [hentry]; exact he),hentry,hframe]

theorem clearPage (hd : d ∈ D) (ht : table m d (a / NPTENTRIES) = some t) (ha : a < KERNPAGE)
    (hp : (entry m d a).present = true) :
    Sep A (m.poke t (a % NPTENTRIES) .zero) D (insert (entry m d a).frame R) := by
  refine h.empty (x := .user a) rfl hd (spot_user ha hp) ?_ fun d' x hd' hne =>
    h.spot_setEntry hd ht _ hd' hne
  have hentry := (h.setEntry hd ht .zero).2.2 a
  rw [if_pos rfl] at hentry
  exact spot_user_none (by rw [hentry]; rfl)

theorem setOther (hd : d ∈ D) (ht : table m d (a / NPTENTRIES) = some t)
    (he : KERNPAGE ≤ a ∨ e.present = (entry m d a).present ∧ e.frame = (entry m d a).frame) :
    Sep A (m.poke t (a % NPTENTRIES) e) D R := by
  refine ⟨h.nodup,h.sole.congr fun l f => ?_⟩
  cases l with
  | free | rest => exact Iff.rfl
  | spot d' x =>
    refine and_congr_right fun hd' => ?_
    by_cases hne : Loc.spot d' x = .spot d (.user a)
    · cases hne
      have hentry := (h.setEntry hd ht e).2.2 a
      rw [if_pos rfl] at hentry
      rw [Vm.spot,Vm.spot,hentry]
      rcases he with ha | ⟨hp,hf⟩
      · rw [if_neg (by omega),if_neg (by omega)]
      · rw [hp,hf]
    · rw [h.spot_setEntry hd ht e hd' hne]

theorem openDir (hd : d ∈ R) (hzero : ∀ i, m.tab d i = .zero) :
    d ∉ D ∧ Sep A m (insert d D) (R \ {d}) ∧ ∀ a, entry m d a = .zero := by
  have hdD : d ∉ D := fun hdD => h.rest_ne_spot hd hdD .dir rfl
  have htable : ∀ i, table m d i = none := fun i => by
    rw [table,hzero]
    exact if_neg (by simp [Pte.zero])
  have hentry : ∀ a, entry m d a = .zero := fun a => entry_none (htable _)
  refine ⟨hdD,⟨h.nodup,h.sole.move (x := d) (i := .rest) (j := .spot d .dir) hd (fun k => ?_)
    fun k y hy => ?_⟩,hentry⟩
  · cases k with
    | free => exact iff_of_false (h.rest_not_free hd) (by simp)
    | rest => simp [Has]
    | spot d' x =>
      by_cases hdd : d' = d
      · subst hdd
        cases x with
        | dir => simp [Has,Vm.spot]
        | table i => simp [Has,spot_table,htable]
        | user a => simp [Has,spot_user_none (m := m) (a := a) (by rw [hentry]; rfl)]
      · refine iff_of_false (fun hx => ?_) (by simp [hdd])
        exact h.rest_ne_spot hd (hx.1.resolve_left hdd) x hx.2
  · cases k with
    | free => exact Iff.rfl
    | rest => simp [Has,hy]
    | spot d' x =>
      by_cases hdd : d' = d
      · subst hdd
        refine iff_of_false (fun hx => ?_) fun hx => hdD hx.1
        cases x with
        | dir => exact hy (some.inj hx.2).symm
        | table i => rw [Has,spot_table,htable] at hx; cases hx.2
        | user a => rw [Has,spot_user_none (by rw [hentry]; rfl)] at hx; cases hx.2
      · simp [Has,hdd]

omit h in
/-- An address space without user pages is given up: its directory and its page tables are pages
like others. -/
theorem closeDir (h : Sep A m (insert d D) R) (hdD : d ∉ D)
    (hnone : ∀ a, a < KERNPAGE → (entry m d a).present = false) :
    Sep A m D (insert d ({t | ∃ i, table m d i = some t} ∪ R)) := by
  have hspot : ∀ x f, spot m d x = some f → f = d ∨ ∃ i, table m d i = some f := by
    intro x f hx
    cases x with
    | dir => exact .inl (some.inj hx).symm
    | table i => exact .inr ⟨i,hx⟩
    | user a =>
      rw [spot] at hx
      split at hx
      · next ha => rw [hnone a ha.1] at ha; cases ha.2
      · cases hx
  let φ : Loc → Loc := fun l =>
    match l with
    | .spot d' x => if d' = d then .rest else .spot d' x
    | l => l
  refine ⟨h.nodup,h.sole.map φ fun k f => ?_⟩
  cases k with
  | free =>
    refine ⟨fun hf => ⟨.free,rfl,hf⟩,?_⟩
    rintro ⟨l,hl,hf⟩
    cases l with
    | free => exact hf
    | rest => cases hl
    | spot d' x => simp only [φ] at hl; split at hl <;> cases hl
  | rest =>
    constructor
    · rintro (rfl | ⟨i,hi⟩ | hf)
      · exact ⟨.spot f .dir,by simp [φ],.inl rfl,rfl⟩
      · exact ⟨.spot d (.table i),by simp [φ],.inl rfl,hi⟩
      · exact ⟨.rest,rfl,hf⟩
    rintro ⟨l,hl,hf⟩
    cases l with
    | free => cases hl
    | rest => exact .inr (.inr hf)
    | spot d' x =>
      by_cases hdd : d' = d
      · subst hdd
        rcases hspot x f hf.2 with rfl | hi
        · exact .inl rfl
        · exact .inr (.inl hi)
      · simp [φ,hdd] at hl
  | spot d' x =>
    constructor
    · rintro ⟨hd',hx⟩
      have hdd : d' ≠ d := by
        rintro rfl
        exact hdD hd'
      exact ⟨.spot d' x,by simp [φ,hdd],.inr hd',hx⟩
    rintro ⟨l,hl,hf⟩
    cases l with
    | free => cases hl
    | rest => cases hl
    | spot d'' y =>
      by_cases hdd : d'' = d
      · simp [φ,hdd] at hl
      · simp only [φ,if_neg hdd] at hl
        cases hl
        exact ⟨hf.1.resolve_left hdd,hf.2⟩

end Sep

end Basics

end Xv6Container.Vm
