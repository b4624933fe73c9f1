import Xv6Container.Lib.Tiling
import Xv6Container.User.Malloc

/-!
# The blocks of the heap

The memory from `sbrk` is cut into the free blocks, in increasing order and with a gap between
any two, and the blocks of the program. It is as if `free` put its block into the circle first,
and joined it with its neighbours after that.
-/

namespace Xv6Container.Malloc

open Function List

open Vm (KERNBASE)

variable {base start : ℕ} {h : Heap} {F F1 F2 A A' l1 : List ℕ} {bp p : ℕ}

theorem header_pos : 0 < HEADER := by decide

theorem kernbase_le : KERNBASE ≤ 2 ^ 31 := by decide

/-- The free blocks `F`, in their order, and the other blocks `A`. -/
structure Inv (base start : ℕ) (h : Heap) (F A : List ℕ) : Prop where
  pos : 0 < base
  low : base + HEADER ≤ start
  high : h.brk < KERNBASE
  tiling : Tiling HEADER start h.brk h.size (F ++ A)
  loop : Loop h.ptr (base :: F)
  zero : h.size base = 0
  spaced : Spaced HEADER h.size (base :: F)
  freep : h.freep ∈ base :: F

theorem plus_eq {n : ℕ} (hle : p + HEADER * n ≤ h.brk) (hbrk : h.brk < KERNBASE) :
    plus p n = p + HEADER * n := by
  have := kernbase_le
  exact Nat.mod_eq_of_lt (by omega)

theorem Inv.congr {h' : Heap} (hI : Inv base start h F A)
    (hptr : ∀ a ∈ base :: (F ++ A), h'.ptr a = h.ptr a)
    (hsize : ∀ a ∈ base :: (F ++ A), h'.size a = h.size a) (hfreep : h'.freep = h.freep)
    (hbrk : h'.brk = h.brk) : Inv base start h' F A where
  pos := hI.pos
  low := hI.low
  high := hbrk ▸ hI.high
  tiling := by
    rw [hbrk]
    exact hI.tiling.congr fun a ha => hsize a (mem_cons_of_mem base ha)
  loop := hI.loop.congr fun a ha => hptr a (mem_append_left A ha)
  zero := by rw [hsize base mem_cons_self,hI.zero]
  spaced := hI.spaced.mono fun a ha => (hsize a (mem_append_left A ha)).le
  freep := hfreep ▸ hI.freep

theorem Inv.fuel_le (hI : Inv base start h F A) : (base :: F).length ≤ h.fuel := by
  have hlen : 8 * (F ++ A).length ≤ h.brk := hI.tiling.length_le
  rw [length_append] at hlen
  change F.length + 1 ≤ h.brk / 8 + 1
  omega

theorem Inv.base_lt (hI : Inv base start h F A) : base < start :=
  (Nat.lt_add_of_pos_right header_pos).trans_le hI.low

/-- The place of `p` in the circle: the free blocks `F1` come before it or are `p`, and the free
blocks `F2` come after it. -/
structure At (base : ℕ) (F : List ℕ) (p : ℕ) (l1 F1 F2 : List ℕ) : Prop where
  split : F = F1 ++ F2
  last : l1 ++ [p] = base :: F1

namespace At

theorem loop_eq (hG : At base F p l1 F1 F2) : base :: F = l1 ++ p :: F2 := by
  rw [hG.split,← cons_append,← hG.last,append_assoc]
  rfl

theorem mem (hG : At base F p l1 F1 F2) : p ∈ base :: F1 := by
  rw [← hG.last]
  exact mem_append_right _ mem_cons_self

theorem ptr_eq (hG : At base F p l1 F1 F2) (hloop : Loop h.ptr (base :: F)) :
    h.ptr p = F2.headD base := by
  rw [hG.loop_eq] at hloop
  rw [hloop.next_eq]
  cases F2 with
  | cons y F2 => rfl
  | nil =>
    have hlast := hG.last
    cases l1 with
    | nil | cons a l1 => exact (List.cons.inj hlast).1

theorem not_mem_others (hG : At base F p l1 F1 F2) (hI : Inv base start h F A) : p ∉ l1 ++ F2 := by
  have hnodup : (base :: F).Nodup := hI.spaced.lt.imp fun hlt => hlt.ne
  rw [hG.loop_eq] at hnodup
  exact (List.nodup_middle.mp hnodup).notMem

end At

theorem exists_at (hp : p ∈ base :: F) : ∃ l1 F1 F2, At base F p l1 F1 F2 := by
  obtain ⟨l1,F2,hL⟩ := append_of_mem hp
  obtain ⟨F1,hlast⟩ : ∃ F1, l1 ++ [p] = base :: F1 := by
    cases l1 with
    | nil =>
      obtain ⟨rfl,-⟩ := List.cons.inj hL
      exact ⟨[],rfl⟩
    | cons a l =>
      obtain ⟨rfl,-⟩ := List.cons.inj hL
      exact ⟨l ++ [p],rfl⟩
  refine ⟨l1,F1,F2,?_,hlast⟩
  have hL' : base :: F = (l1 ++ [p]) ++ F2 := by
    rw [hL,append_assoc]
    rfl
  rw [hlast,cons_append] at hL'
  exact (List.cons.inj hL').2

/-- The block `bp` belongs behind `p`. -/
structure Gap (base : ℕ) (F : List ℕ) (bp p : ℕ) (l1 F1 F2 : List ℕ) : Prop
    extends At base F p l1 F1 F2 where
  low : base < bp
  below : ∀ a ∈ F1, a < bp
  above : ∀ a ∈ F2, bp < a

namespace Gap

theorem lt (hG : Gap base F bp p l1 F1 F2) : p < bp := by
  rcases List.mem_cons.mp hG.mem with rfl | hp
  · exact hG.low
  · exact hG.below p hp

theorem stopsAt (hG : Gap base F bp p l1 F1 F2) (hI : Inv base start h F A) :
    stopsAt h bp p = true := by
  have hlt := hG.lt
  have hptr := hG.ptr_eq hI.loop
  cases F2 with
  | cons y F2 =>
    have hy : bp < h.ptr p := by
      rw [hptr]
      exact hG.above y mem_cons_self
    simp [Malloc.stopsAt,hlt,hy]
  | nil =>
    have hle : h.ptr p ≤ p := by
      rw [hptr]
      rcases List.mem_cons.mp hG.mem with rfl | hp
      · exact le_rfl
      · have hlt := (List.pairwise_cons.mp hI.spaced.lt).1 p (hG.split ▸ mem_append_left _ hp)
        exact hlt.le
    simp [Malloc.stopsAt,hlt,hle]

end Gap

theorem Inv.exists_gap (hI : Inv base start h F A) (hbp : start ≤ bp) (hmem : bp ∉ F) :
    ∃ p l1 F1 F2, Gap base F bp p l1 F1 F2 := by
  have hlow := hI.base_lt
  obtain ⟨F1,F2,hsplit,hbelow,habove⟩ :=
    Xv6Container.exists_gap (List.pairwise_cons.mp hI.spaced.lt).2 hmem
  obtain ⟨l1,p,hlast⟩ := eq_nil_or_concat'  (base :: F1) |>.resolve_left (by simp)
  exact ⟨p,l1,F1,F2,⟨hsplit,hlast.symm⟩,by omega,hbelow,habove⟩

theorem Inv.gap_of_stopsAt (hI : Inv base start h F A) (hbp : start ≤ bp) (hp : p ∈ base :: F)
    (hstop : stopsAt h bp p = true) : ∃ l1 F1 F2, Gap base F bp p l1 F1 F2 := by
  have hlow := hI.base_lt
  obtain ⟨l1,F1,F2,hat⟩ := exists_at hp
  have hsorted := hI.spaced.lt
  have hptr := hat.ptr_eq hI.loop
  rw [hat.loop_eq] at hsorted
  obtain ⟨-,hpF2,hcross⟩ := List.pairwise_append.mp hsorted
  obtain ⟨hF2,hF2sorted⟩ := List.pairwise_cons.mp hpF2
  have hle : ∀ a ∈ base :: F1, a ≤ p := by
    intro a ha
    rw [← hat.last] at ha
    rcases List.mem_append.mp ha with ha | ha
    · exact (hcross a ha p mem_cons_self).le
    · exact (List.mem_singleton.mp ha).le
  have hgap : p < bp ∧ ∀ a ∈ F2, bp < a := by
    have hpb := hle base mem_cons_self
    simp only [Malloc.stopsAt,Bool.or_eq_true,Bool.and_eq_true,decide_eq_true_eq] at hstop
    cases F2 with
    | nil =>
      rw [hptr,headD_nil] at hstop
      exact ⟨by omega,by simp⟩
    | cons y F2 =>
      rw [hptr,headD_cons] at hstop
      have hy := hF2 y mem_cons_self
      refine ⟨by omega,List.forall_mem_cons.mpr ⟨by omega,fun a ha => ?_⟩⟩
      have := (List.pairwise_cons.mp hF2sorted).1 a ha
      omega
  refine ⟨l1,F1,F2,hat,by omega,fun a ha => ?_,hgap.2⟩
  exact (hle a (mem_cons_of_mem base ha)).trans_lt hgap.1

/-- The block `bp` is linked to the free blocks after it, and `p` is not yet linked to it. -/
structure Linked (start : ℕ) (h h1 : Heap) (bp p : ℕ) (l1 F1 F2 A : List ℕ) : Prop where
  loop : Loop (update h1.ptr p bp) (l1 ++ p :: bp :: F2)
  tiling : Tiling HEADER start h.brk h1.size (bp :: (F1 ++ F2 ++ A))
  spaced : Spaced HEADER h1.size (bp :: F2)
  size : ∀ a, a ≠ bp → h1.size a = h.size a
  grown : h.size bp ≤ h1.size bp
  brk : h1.brk = h.brk
  above : ∀ a ∈ F2, bp < a

section Free

variable (hI : Inv base start h F A) (hG : Gap base F bp p l1 F1 F2)

include hI hG

theorem Inv.spaced_above : Spaced HEADER h.size F2 := by
  refine hI.spaced.sublist ?_
  rw [hG.split]
  exact (sublist_append_right F1 F2).cons base

variable (hA : A.Perm (bp :: A'))

include hA

theorem Inv.tiling_cons : Tiling HEADER start h.brk h.size (bp :: (F1 ++ F2 ++ A')) := by
  refine hI.tiling.perm ?_
  rw [hG.split]
  exact (List.Perm.append_left _ hA).trans perm_middle

theorem Inv.not_mem_loop : bp ∉ l1 ++ p :: F2 := by
  rw [← hG.loop_eq]
  intro hmem
  rcases List.mem_cons.mp hmem with hb | hF
  · exact hG.low.ne' hb
  · rw [hG.split] at hF
    refine (hI.tiling_cons hG hA).ne_head header_pos ?_ rfl
    exact mem_append_left _ hF

theorem Inv.insert_loop : Loop (update (update h.ptr bp (h.ptr p)) p bp) (l1 ++ p :: bp :: F2) := by
  have hloop := hI.loop
  rw [hG.loop_eq] at hloop
  exact hloop.insert (hG.not_mem_others hI) (hI.not_mem_loop hG hA)

theorem Inv.linked_join {y : ℕ} {F3 : List ℕ} (hF2 : F2 = y :: F3)
    (hjoin : bp + HEADER * h.size bp = y) :
    Linked start h { h with
      size := update h.size bp ((h.size bp + h.size y) % 2 ^ 32)
      ptr := update h.ptr bp (h.ptr y) } bp p l1 F1 F3 A' := by
  subst hF2
  have hy := hG.above y mem_cons_self
  have htiling : Tiling HEADER start h.brk h.size (bp :: y :: (F1 ++ F3 ++ A')) := by
    refine (hI.tiling_cons hG hA).perm (List.Perm.cons bp ?_)
    rw [append_assoc,append_assoc]
    exact perm_middle
  have hmerge := htiling.merge header_pos hjoin
  have hnum : (h.size bp + h.size y) % 2 ^ 32 = h.size bp + h.size y := by
    have hin := (hmerge.inside bp mem_cons_self).2
    have := kernbase_le
    have := hI.high
    rw [update_self] at hin
    change bp + 8 * (h.size bp + h.size y) ≤ h.brk at hin
    exact Nat.mod_eq_of_lt (by omega)
  rw [hnum]
  refine ⟨?_,hmerge,?_,fun a ha => update_of_ne ha _ _,?_,rfl,
    fun a ha => hG.above a (mem_cons_of_mem y ha)⟩
  · have hinsert := hI.insert_loop hG hA
    have hbp : bp ≠ p := hG.lt.ne'
    have hinsert' : Loop (update (update h.ptr bp (h.ptr p)) p bp)
        ((l1 ++ [p]) ++ bp :: y :: F3) := by
      rw [append_assoc]
      exact hinsert
    have hremove := hinsert'.remove ?_
    · rw [append_assoc,update_of_ne (hG.lt.trans hy).ne',
        update_of_ne hy.ne',update_comm hbp,update_idem,update_comm hbp.symm] at hremove
      exact hremove
    · rw [append_assoc]
      exact hI.not_mem_loop hG hA
  · obtain ⟨hyF,hspaced⟩ := List.pairwise_cons.mp (hI.spaced_above hG)
    refine List.pairwise_cons.mpr ⟨fun b hb => ?_,?_⟩
    · have hlt := hyF b hb
      change bp + HEADER * update h.size bp (h.size bp + h.size y) bp < b
      rw [update_self,Nat.mul_add,← add_assoc,hjoin]
      exact hlt
    · refine Spaced.mono hspaced fun a ha => ?_
      have hne : a ≠ bp := (hG.above a (mem_cons_of_mem y ha)).ne'
      exact (update_of_ne hne _ _).le
  · change h.size bp ≤ update h.size bp (h.size bp + h.size y) bp
    rw [update_self]
    exact Nat.le_add_right _ _

theorem Inv.linked_keep (hjoin : bp + HEADER * h.size bp ≠ F2.headD base) :
    Linked start h { h with ptr := update h.ptr bp (h.ptr p) } bp p l1 F1 F2 A' := by
  have htiling := hI.tiling_cons hG hA
  have hspaced := hI.spaced_above hG
  refine ⟨hI.insert_loop hG hA,htiling,?_,fun _ _ => rfl,le_rfl,rfl,hG.above⟩
  refine List.pairwise_cons.mpr ⟨fun b hb => ?_,hspaced⟩
  change bp + HEADER * h.size bp < b
  cases F2 with
  | nil => cases hb
  | cons y F3 =>
    have hle : bp + HEADER * h.size bp ≤ y :=
      htiling.end_le header_pos (mem_append_left _ (mem_append_right _ mem_cons_self))
        (hG.above y mem_cons_self).le
    have hlt := hle.lt_of_ne hjoin
    rcases List.mem_cons.mp hb with rfl | hb
    · exact hlt
    · exact hlt.trans ((List.pairwise_cons.mp hspaced.lt).1 b hb)

theorem Inv.joinUpper :
    ∃ F2', F2'.length ≤ F2.length ∧ Linked start h (joinUpper h bp p) bp p l1 F1 F2' A' := by
  have hinside := (hI.tiling_cons hG hA).inside bp mem_cons_self
  rw [Malloc.joinUpper,plus_eq hinside.2 hI.high]
  split
  · next hjoin =>
    have hptr := hG.ptr_eq hI.loop
    cases F2 with
    | nil =>
      -- the next block would be `base`, which is below
      rw [hptr,headD_nil] at hjoin
      have := hG.low
      omega
    | cons y F3 =>
      rw [headD_cons] at hptr
      rw [hptr] at hjoin ⊢
      exact ⟨F3,Nat.le_succ _,hI.linked_join hG hA rfl hjoin⟩
  · next hjoin =>
    rw [hG.ptr_eq hI.loop] at hjoin
    exact ⟨F2,le_rfl,hI.linked_keep hG hA hjoin⟩

end Free

/-- A heap after `free`: the block is part of a free block, and all else is as before. -/
structure Freed (base start : ℕ) (h h' : Heap) (bp : ℕ) (F A' : List ℕ) : Prop where
  inv : ∃ F', Inv base start h' F' A' ∧ F'.length ≤ F.length + 1 ∧
    ∃ b ∈ F', h.size bp ≤ h'.size b
  size : ∀ a ∈ A', h'.size a = h.size a
  brk : h'.brk = h.brk

section Lower

variable {h1 : Heap} {F2' : List ℕ} (hI : Inv base start h F A)
  (hG : Gap base F bp p l1 F1 F2) (hL : Linked start h h1 bp p l1 F1 F2' A')

include hI hG

theorem Inv.spaced_below : Spaced HEADER h.size (l1 ++ [p]) := by
  refine hI.spaced.sublist ?_
  rw [hG.last,hG.split]
  exact (sublist_append_left F1 F2).cons_cons base

include hL

theorem Linked.size_below {a : ℕ} (ha : a ∈ l1 ++ [p]) : h1.size a = h.size a := by
  refine hL.size a ?_
  rw [hG.last] at ha
  rcases List.mem_cons.mp ha with rfl | ha
  · exact hG.low.ne
  · exact (hG.below a ha).ne

theorem Linked.size_zero : h1.size base = 0 := by
  rw [hL.size base hG.low.ne,hI.zero]

theorem Linked.spaced_below : Spaced HEADER h1.size (l1 ++ [p]) :=
  (hI.spaced_below hG).mono fun _ ha => (hL.size_below hI hG ha).le

theorem Linked.lower_keep (hjoin : p + HEADER * h1.size p ≠ bp) :
    Inv base start { h1 with ptr := update h1.ptr p bp, freep := p }
      (F1 ++ bp :: F2') A' := by
  have hbelow := hL.spaced_below hI hG
  have hlt : ∀ a ∈ base :: F1, a + HEADER * h1.size a < bp := by
    intro a ha
    rw [← hG.last] at ha
    rcases List.mem_append.mp ha with ha | ha
    · have hap := (List.pairwise_append.mp hbelow).2.2 a ha p mem_cons_self
      exact hap.trans hG.lt
    obtain rfl := List.mem_singleton.mp ha
    refine lt_of_le_of_ne ?_ hjoin
    rcases List.mem_cons.mp hG.mem with rfl | hp
    · rw [hL.size_zero hI hG]
      exact hG.low.le
    · have hmem : a ∈ F1 ++ F2' ++ A' := mem_append_left _ (mem_append_left _ hp)
      rcases hL.tiling.apart_head hmem with hle | hle
      · have := hG.lt
        omega
      · exact hle
  have hzero := hL.size_zero hI hG
  have htiling : Tiling HEADER start h1.brk h1.size ((F1 ++ bp :: F2') ++ A') := by
    rw [hL.brk]
    refine hL.tiling.perm ?_
    rw [append_assoc,append_assoc]
    exact List.perm_middle.symm
  have hloop : Loop (update h1.ptr p bp) (base :: (F1 ++ bp :: F2')) := by
    rw [← cons_append,← hG.last,append_assoc]
    exact hL.loop
  have hspaced : Spaced HEADER h1.size (base :: (F1 ++ bp :: F2')) := by
    rw [← cons_append]
    refine List.pairwise_append.mpr ⟨hG.last ▸ hbelow,hL.spaced,fun a ha b hb => ?_⟩
    rcases List.mem_cons.mp hb with rfl | hb
    · exact hlt a ha
    · exact (hlt a ha).trans (hL.above b hb)
  have hfreep : p ∈ base :: (F1 ++ bp :: F2') := by
    rw [← cons_append]
    exact mem_append_left _ hG.mem
  exact ⟨hI.pos,hI.low,hL.brk ▸ hI.high,htiling,hloop,hzero,hspaced,hfreep⟩

theorem Linked.lower_join (hjoin : p + HEADER * h1.size p = bp) :
    ∃ F0, F1 = F0 ++ [p] ∧ (h1.size p + h1.size bp) % 2 ^ 32 = h1.size p + h1.size bp ∧
      Inv base start { h1 with
        size := update h1.size p ((h1.size p + h1.size bp) % 2 ^ 32)
        ptr := update h1.ptr p (h1.ptr bp), freep := p } (F0 ++ p :: F2') A' := by
  have hzero := hL.size_zero hI hG
  have hne : p ≠ base := by
    rintro rfl
    rw [hzero] at hjoin
    exact hG.low.ne hjoin
  obtain ⟨F0,hl1,hF1⟩ : ∃ F0, l1 = base :: F0 ∧ F1 = F0 ++ [p] := by
    have hlast := hG.last
    cases l1 with
    | nil => exact absurd (List.cons.inj hlast).1 hne
    | cons a F0 =>
      obtain ⟨rfl,rfl⟩ := List.cons.inj hlast
      exact ⟨F0,rfl,rfl⟩
  have htiling : Tiling HEADER start h1.brk h1.size (p :: bp :: ((F0 ++ F2') ++ A')) := by
    rw [hL.brk]
    refine hL.tiling.perm ?_
    rw [hF1,append_assoc,append_assoc,append_assoc]
    exact (List.Perm.cons bp perm_middle).trans (List.Perm.swap p bp _)
  have hmerge := htiling.merge header_pos hjoin
  obtain ⟨hl1spaced,-,hcross⟩ := List.pairwise_append.mp (hL.spaced_below hI hG)
  have hless : ∀ a ∈ l1, a < p := by
    intro a ha
    have := hcross a ha p mem_cons_self
    omega
  have hhigh : h1.brk < KERNBASE := hL.brk ▸ hI.high
  have hnum : (h1.size p + h1.size bp) % 2 ^ 32 = h1.size p + h1.size bp := by
    have hin := (hmerge.inside p mem_cons_self).2
    have := kernbase_le
    rw [update_self] at hin
    change p + 8 * (h1.size p + h1.size bp) ≤ h1.brk at hin
    exact Nat.mod_eq_of_lt (by omega)
  refine ⟨F0,hF1,hnum,?_⟩
  rw [hnum]
  have htiling' : Tiling HEADER start h1.brk
      (update h1.size p (h1.size p + h1.size bp)) ((F0 ++ p :: F2') ++ A') := by
    refine hmerge.perm ?_
    rw [append_assoc,append_assoc]
    exact List.perm_middle.symm
  have hloop : Loop (update h1.ptr p (h1.ptr bp)) (base :: (F0 ++ p :: F2')) := by
    have hremove := Loop.remove hL.loop ?_
    · rw [update_of_ne hG.lt.ne',update_idem,hl1] at hremove
      exact hremove
    · intro hmem
      rcases List.mem_append.mp hmem with hmem | hmem
      · exact (hless p hmem).ne rfl
      · rcases List.mem_cons.mp hmem with hmem | hmem
        · exact hG.lt.ne hmem
        · exact (hG.lt.trans (hL.above p hmem)).ne rfl
  have hzero' : update h1.size p (h1.size p + h1.size bp) base = 0 := by
    rw [update_of_ne hne.symm,hzero]
  have hspaced : Spaced HEADER (update h1.size p (h1.size p + h1.size bp))
      (base :: (F0 ++ p :: F2')) := by
    have hother : ∀ a, a ≠ p →
        update h1.size p (h1.size p + h1.size bp) a = h1.size a :=
      fun a ha => update_of_ne ha _ _
    rw [← cons_append,← hl1]
    refine List.pairwise_append.mpr ⟨?_,List.pairwise_cons.mpr ⟨fun b hb => ?_,?_⟩,?_⟩
    · refine Spaced.mono hl1spaced fun a ha => ?_
      exact (hother a (hless a ha).ne).le
    · have hlt := (List.pairwise_cons.mp hL.spaced).1 b hb
      rw [update_self,Nat.mul_add,← add_assoc,hjoin]
      exact hlt
    · refine Spaced.mono (List.pairwise_cons.mp hL.spaced).2 fun a ha => ?_
      exact (hother a (hG.lt.trans (hL.above a ha)).ne').le
    · intro a ha b hb
      rw [hother a (hless a ha).ne]
      have hap := hcross a ha p mem_cons_self
      rcases List.mem_cons.mp hb with rfl | hb
      · exact hap
      · exact hap.trans (hG.lt.trans (hL.above b hb))
  have hfreep : p ∈ base :: (F0 ++ p :: F2') :=
    mem_cons_of_mem base (mem_append_right _ mem_cons_self)
  exact ⟨hI.pos,hI.low,hhigh,htiling',hloop,hzero',hspaced,hfreep⟩

theorem Linked.joinLower (hlen : F2'.length ≤ F2.length) :
    Freed base start h { joinLower h1 bp p with freep := p } bp F A' := by
  have hF : F.length = F1.length+F2.length := by rw [hG.split,length_append]
  have hend : p + HEADER * h1.size p ≤ h1.brk := by
    rw [hL.brk]
    rcases List.mem_cons.mp hG.mem with rfl | hp
    · have hinside := hL.tiling.inside bp mem_cons_self
      have := hG.low
      rw [hL.size_zero hI hG]
      omega
    · exact (hL.tiling.inside p (mem_cons_of_mem bp (mem_append_left _ (mem_append_left _ hp)))).2
  have hhigh : h1.brk < KERNBASE := hL.brk ▸ hI.high
  have hother : ∀ a ∈ A', h1.size a = h.size a := fun a ha =>
    hL.size a (hL.tiling.ne_head header_pos (mem_append_right _ ha))
  rw [Malloc.joinLower,plus_eq hend hhigh]
  split
  · next hjoin =>
    obtain ⟨F0,hF1,hnum,hinv⟩ := hL.lower_join hI hG hjoin
    refine ⟨⟨_,hinv,?_,p,mem_append_right _ mem_cons_self,?_⟩,fun a ha => ?_,hL.brk⟩
    · rw [hF1,length_append,length_singleton] at hF
      rw [length_append,length_cons]
      omega
    · change h.size bp ≤ update h1.size p _ p
      rw [update_self,hnum]
      exact hL.grown.trans (Nat.le_add_left _ _)
    have hnodup := hL.tiling.nodup header_pos
    have hpa : a ≠ p := by
      have hp : p ∈ F1 ++ F2' :=
        mem_append_left _ (hF1 ▸ mem_append_right _ mem_cons_self)
      rintro rfl
      exact disjoint_of_nodup_append (List.nodup_cons.mp hnodup).2 hp ha
    change update h1.size p _ a = h.size a
    rw [update_of_ne hpa,hother a ha]
  · next hjoin =>
    refine ⟨⟨_,hL.lower_keep hI hG hjoin,?_,bp,mem_append_right _ mem_cons_self,
      hL.grown⟩,hother,hL.brk⟩
    rw [length_append,length_cons]
    omega

end Lower

theorem Inv.free (hI : Inv base start h F A) (hA : A.Perm (bp :: A')) :
    ∃ h', free h (bp+HEADER) = some h' ∧ Freed base start h h' bp F A' := by
  have hmem : bp ∈ F ++ A := mem_append_right _ (hA.symm.subset mem_cons_self)
  have hbp := (hI.tiling.inside bp hmem).1
  have hnot : bp ∉ F := by
    intro hF
    have hperm : (F ++ A).Perm (bp :: (F ++ A')) :=
      (List.Perm.append_left _ hA).trans perm_middle
    exact (hI.tiling.perm hperm).ne_head header_pos (mem_append_left _ hF) rfl
  obtain ⟨q,l,G1,G2,hgap⟩ := hI.exists_gap hbp hnot
  have hq : q ∈ base :: F := by
    rw [hgap.loop_eq]
    exact mem_append_right _ mem_cons_self
  obtain ⟨p,hp,hseek,hstop⟩ :=
    hI.loop.seek hI.freep ⟨q,hq,hgap.stopsAt hI⟩ hI.fuel_le
  obtain ⟨l1,F1,F2,hG⟩ := hI.gap_of_stopsAt hbp hp hstop
  obtain ⟨F2',hlen,hL⟩ := hI.joinUpper hG hA
  refine ⟨_,?_,hL.joinLower hI hG hlen⟩
  rw [Malloc.free,Nat.add_sub_cancel,hseek]
  rfl

variable {nunits prevp : ℕ}

theorem Inv.start_le (hI : Inv base start h F A) : start ≤ h.brk := by
  rw [← hI.tiling.full]
  exact Nat.le_add_right _ _

theorem Inv.grow (hI : Inv base start h F A) {nu : ℕ} (hnu : 0 < nu)
    (hhigh : h.brk + nu * HEADER < KERNBASE) :
    Inv base start { h with brk := h.brk + nu * HEADER, size := update h.size h.brk nu }
      F (h.brk :: A) := by
  have hbase : base < h.brk := hI.base_lt.trans_le hI.start_le
  have htiling : Tiling HEADER start (h.brk + nu * HEADER) (update h.size h.brk nu)
      (F ++ h.brk :: A) := by
    rw [Nat.mul_comm]
    exact (hI.tiling.grow header_pos hnu).perm List.perm_middle.symm
  have hother : ∀ a ∈ base :: F, a ≠ h.brk := by
    intro a ha
    rcases List.mem_cons.mp ha with rfl | ha
    · exact hbase.ne
    · rintro rfl
      have hpos := hI.tiling.pos h.brk (mem_append_left _ ha)
      have hin : h.brk + 8 * h.size h.brk ≤ h.brk :=
        (hI.tiling.inside h.brk (mem_append_left _ ha)).2
      omega
  have hzero : update h.size h.brk nu base = 0 := by
    rw [update_of_ne hbase.ne,hI.zero]
  have hspaced : Spaced HEADER (update h.size h.brk nu) (base :: F) :=
    hI.spaced.mono fun a ha => (update_of_ne (hother a ha) _ _).le
  exact ⟨hI.pos,hI.low,hhigh,htiling,hI.loop,hzero,hspaced,hI.freep⟩

theorem Inv.morecore (hI : Inv base start h F A) (grant : ℕ → Bool)
    (hn : HEADER * nunits < 2 ^ 31) :
    Malloc.morecore grant h nunits = some (h, none) ∨
      ∃ h', Malloc.morecore grant h nunits = some (h', some h'.freep) ∧
        (∃ F', Inv base start h' F' A ∧ F'.length ≤ F.length+1 ∧ ∃ b ∈ F', nunits ≤ h'.size b) ∧
        ∀ a ∈ A, h'.size a = h.size a := by
  obtain ⟨nu,hnu,hpos,hle,hlt⟩ : ∃ nu, (if nunits < 4096 then 4096 else nunits) = nu ∧ 0 < nu ∧
      nunits ≤ nu ∧ nu*HEADER < 2 ^ 32 := by
    refine ⟨_,rfl,?_⟩
    change 8 * nunits < 2 ^ 31 at hn
    change _ ∧ _ ∧ (if nunits < 4096 then 4096 else nunits) * 8 < 2 ^ 32
    split <;> omega
  rw [Malloc.morecore]
  simp only [hnu,Nat.mod_eq_of_lt hlt,sbrk]
  by_cases hgrant : grant h.brk = true ∧ h.brk + nu * HEADER < KERNBASE
  · right
    have hcond : (grant h.brk && decide (h.brk + nu * HEADER < KERNBASE)) = true := by
      rw [hgrant.1,decide_eq_true hgrant.2]
      rfl
    have hgrow := hI.grow hpos hgrant.2
    obtain ⟨h',hfree,⟨F',hI',hlen,b,hb,hsize⟩,hother,-⟩ := hgrow.free (List.Perm.refl _)
    refine ⟨h',?_,⟨F',hI',hlen,b,hb,hle.trans ?_⟩,fun a ha => ?_⟩
    · rw [if_pos hcond]
      change (Malloc.free _ (h.brk+HEADER)).bind _ = _
      rw [hfree]
      rfl
    · have hself : update h.size h.brk nu h.brk = nu := update_self _ _ _
      change update h.size h.brk nu h.brk ≤ h'.size b at hsize
      rw [hself] at hsize
      exact hsize
    · rw [hother a ha]
      refine update_of_ne ?_ _ _
      exact (hgrow.tiling.perm perm_middle).ne_head header_pos (mem_append_right _ ha)
  · left
    have hcond : (grant h.brk && decide (h.brk + nu * HEADER < KERNBASE)) = false := by
      rw [Bool.and_eq_false_iff,decide_eq_false_iff_not]
      by_contra hne
      rw [not_or,Bool.not_eq_false,not_not] at hne
      exact hgrant hne
    rw [hcond]
    rfl

/-- A request for `nunits` units has been answered: with a new block, or not at all. -/
def Served (base start : ℕ) (h : Heap) (nunits : ℕ) (A : List ℕ) (r : Heap × Option ℕ) : Prop :=
  (∀ a ∈ A, r.1.size a = h.size a) ∧ match r.2 with
    | none => ∃ F', Inv base start r.1 F' A
    | some q => (∃ F', Inv base start r.1 F' (q :: A)) ∧ r.1.size q = nunits

theorem Inv.behind (hI : Inv base start h F A) (hprev : prevp ∈ base :: F)
    (hsize : 0 < h.size (h.ptr prevp)) : ∃ l1 F1 F2, At base F prevp l1 F1 (h.ptr prevp :: F2) := by
  obtain ⟨l1,F1,F2,hat⟩ := exists_at hprev
  have hptr := hat.ptr_eq hI.loop
  cases F2 with
  | nil =>
    rw [hptr,headD_nil,hI.zero] at hsize
    exact absurd hsize (Nat.lt_irrefl 0)
  | cons y F2 =>
    rw [headD_cons] at hptr
    rw [hptr]
    exact ⟨l1,F1,F2,hat⟩

theorem Inv.take_all (hI : Inv base start h F A) {l1 F1 F2 : List ℕ}
    (hat : At base F prevp l1 F1 (p :: F2)) :
    Inv base start { h with ptr := update h.ptr prevp (h.ptr p), freep := prevp }
      (F1 ++ F2) (p :: A) := by
  have htiling : Tiling HEADER start h.brk h.size ((F1 ++ F2) ++ p :: A) := by
    refine hI.tiling.perm ?_
    rw [hat.split,append_assoc,append_assoc]
    have hmid : (F2 ++ p :: A).Perm (p :: (F2 ++ A)) := perm_middle
    exact List.Perm.append_left _ hmid.symm
  have hloop : Loop (update h.ptr prevp (h.ptr p)) (base :: (F1 ++ F2)) := by
    have hloop := hI.loop
    rw [hat.loop_eq] at hloop
    rw [← cons_append,← hat.last,append_assoc]
    exact hloop.remove (hat.not_mem_others hI)
  have hspaced : Spaced HEADER h.size (base :: (F1 ++ F2)) := by
    refine hI.spaced.sublist ?_
    rw [hat.split]
    exact ((sublist_cons_self p F2).append_left F1).cons_cons base
  have hfreep : prevp ∈ base :: (F1 ++ F2) := by
    rw [← cons_append]
    exact mem_append_left _ hat.mem
  exact ⟨hI.pos,hI.low,hI.high,htiling,hloop,hI.zero,hspaced,hfreep⟩

theorem Inv.take_end (hI : Inv base start h F A) {l1 F1 F2 : List ℕ} {q : ℕ}
    (hat : At base F prevp l1 F1 (p :: F2)) (hn : 0 < nunits) (hlt : nunits < h.size p)
    (hq : q = p + HEADER * (h.size p - nunits)) :
    Inv base start { h with
      size := update (update h.size p (h.size p - nunits)) q nunits
      freep := prevp } F (q :: A) ∧ ∀ a ∈ A, a ≠ p ∧ a ≠ q := by
  have hperm : (F ++ A).Perm (p :: ((F1 ++ F2) ++ A)) := by
    rw [hat.split,append_assoc,append_assoc]
    exact perm_middle
  have hsplit := (hI.tiling.perm hperm).split header_pos hn hlt hq
  have htiling := hsplit.perm ((List.Perm.cons q hperm.symm).trans List.perm_middle.symm)
  have hp : p ∈ F := by
    rw [hat.split]
    exact mem_append_right _ mem_cons_self
  have hpstart := (hI.tiling.inside p (mem_append_left _ hp)).1
  have hbase := hI.base_lt
  have hqF : ∀ a ∈ base :: F, a ≠ q := by
    intro a ha
    rcases List.mem_cons.mp ha with rfl | ha
    · omega
    · rintro rfl
      refine disjoint_of_nodup_append (htiling.nodup header_pos) ha mem_cons_self
  have hzero : update (update h.size p (h.size p - nunits)) q nunits base = 0 := by
    have hne : base ≠ p := (hbase.trans_le hpstart).ne
    rw [update_of_ne (hqF base mem_cons_self),update_of_ne hne,hI.zero]
  have hspaced : Spaced HEADER
      (update (update h.size p (h.size p - nunits)) q nunits) (base :: F) := by
    refine hI.spaced.mono fun a ha => ?_
    rw [update_of_ne (hqF a ha)]
    by_cases hap : a = p
    · rw [hap,update_self]
      exact Nat.sub_le _ _
    · rw [update_of_ne hap]
  have hfreep : prevp ∈ base :: F := by
    rw [hat.loop_eq]
    exact mem_append_right _ mem_cons_self
  refine ⟨⟨hI.pos,hI.low,hI.high,htiling,hI.loop,hzero,hspaced,hfreep⟩,fun a ha => ⟨?_,?_⟩⟩
  · exact (hI.tiling.perm hperm).ne_head header_pos (mem_append_right _ ha)
  · exact hsplit.ne_head header_pos (mem_cons_of_mem p (mem_append_right _ ha))

theorem Inv.take (hI : Inv base start h F A) (hprev : prevp ∈ base :: F) (hn : 0 < nunits)
    (hsize : nunits ≤ h.size (h.ptr prevp)) :
    Served base start h nunits A
      ((take h nunits prevp (h.ptr prevp)).1, some (take h nunits prevp (h.ptr prevp)).2) := by
  obtain ⟨l1,F1,F2,hat⟩ := hI.behind hprev (hn.trans_le hsize)
  generalize h.ptr prevp = p at hsize hat
  rw [Malloc.take]
  split
  · next heq => exact ⟨fun a _ => rfl,⟨_,hI.take_all hat⟩,heq⟩
  · next hne =>
    have hlt : nunits < h.size p := lt_of_le_of_ne hsize (Ne.symm hne)
    have hp : p ∈ F ++ A := by
      rw [hat.split]
      exact mem_append_left _ (mem_append_right _ mem_cons_self)
    have hend : p + HEADER * (h.size p - nunits) ≤ h.brk := by
      have hin : p + 8 * h.size p ≤ h.brk := (hI.tiling.inside p hp).2
      change p + 8 * (h.size p - nunits) ≤ h.brk
      omega
    obtain ⟨hinv,hother⟩ := hI.take_end hat hn hlt (plus_eq hend hI.high)
    refine ⟨fun a ha => ?_,⟨F,hinv⟩,update_self _ _ _⟩
    obtain ⟨hap,haq⟩ := hother a ha
    change update (update h.size p _) _ _ a = h.size a
    rw [update_of_ne haq,update_of_ne hap]

/-- The loop of `malloc` up to where it starts again: it finds a block, or it comes to `freep` and
calls `morecore`. -/
theorem mallocLoop_scan (grant : ℕ → Bool) (nunits n : ℕ) {l : List ℕ}
    (hlead : Leads h.ptr prevp l h.freep) (hnot : h.freep ∉ l) :
    (∃ x ∈ prevp :: l, nunits ≤ h.size (h.ptr x) ∧
      mallocLoop grant nunits (n + l.length + 1) h prevp (h.ptr prevp) =
        some ((take h nunits x (h.ptr x)).1, some (take h nunits x (h.ptr x)).2)) ∨
    (∀ y ∈ l ++ [h.freep], h.size y < nunits) ∧
      mallocLoop grant nunits (n + l.length + 1) h prevp (h.ptr prevp) =
        (morecore grant h nunits).bind fun r => match r.2 with
          | none => some (r.1, none)
          | some p => mallocLoop grant nunits n r.1 p (r.1.ptr p) := by
  induction l generalizing prevp with
  | nil =>
    have hptr : h.ptr prevp = h.freep := hlead
    by_cases hsize : nunits ≤ h.size (h.ptr prevp)
    · refine .inl ⟨prevp,mem_cons_self,hsize,?_⟩
      rw [mallocLoop,if_pos hsize]
    · refine .inr ⟨?_,?_⟩
      · intro y hy
        obtain rfl := List.mem_singleton.mp hy
        rw [hptr] at hsize
        exact Nat.lt_of_not_le hsize
      · rw [mallocLoop,if_neg hsize,if_pos hptr]
        rfl
  | cons y l ih =>
    obtain ⟨hptr,hlead⟩ := hlead
    obtain ⟨hy,hl⟩ := not_or.mp (mt List.mem_cons.mpr hnot)
    by_cases hsize : nunits ≤ h.size (h.ptr prevp)
    · refine .inl ⟨prevp,mem_cons_self,hsize,?_⟩
      rw [mallocLoop,if_pos hsize]
    have hnext : mallocLoop grant nunits (n + (y :: l).length + 1) h prevp (h.ptr prevp) =
        mallocLoop grant nunits (n + l.length + 1) h y (h.ptr y) := by
      rw [mallocLoop,if_neg hsize,hptr,if_neg (Ne.symm hy)]
      rfl
    rw [hnext]
    rw [hptr] at hsize
    rcases ih hlead hl with ⟨x,hx,hbig,heq⟩ | ⟨hsmall,heq⟩
    · exact .inl ⟨x,mem_cons_of_mem prevp hx,hbig,heq⟩
    · refine .inr ⟨?_,heq⟩
      exact List.forall_mem_cons.mpr ⟨Nat.lt_of_not_le hsize,hsmall⟩

theorem Inv.scan (hI : Inv base start h F A) (grant : ℕ → Bool) (hn : 0 < nunits) (n : ℕ) :
    (∃ r, mallocLoop grant nunits (n + F.length + 1) h h.freep (h.ptr h.freep) = some r ∧
      Served base start h nunits A r) ∨
    (∀ y ∈ base :: F, h.size y < nunits) ∧
      mallocLoop grant nunits (n + F.length + 1) h h.freep (h.ptr h.freep) =
        (Malloc.morecore grant h nunits).bind fun r => match r.2 with
          | none => some (r.1, none)
          | some p => mallocLoop grant nunits n r.1 p (r.1.ptr p) := by
  obtain ⟨l1,F1,F2,hat⟩ := exists_at hI.freep
  have hlead : Leads h.ptr h.freep (F2 ++ l1) h.freep := by
    have hloop := hI.loop
    rw [hat.loop_eq] at hloop
    exact hloop.leads
  have hnot : h.freep ∉ F2 ++ l1 := fun hmem =>
    hat.not_mem_others hI (List.perm_append_comm.subset hmem)
  have hperm : (base :: F).Perm (h.freep :: (F2 ++ l1)) := by
    rw [hat.loop_eq]
    exact perm_append_comm
  have hlen : (F2 ++ l1).length = F.length := Nat.succ.inj hperm.length_eq.symm
  rw [← hlen]
  rcases mallocLoop_scan grant nunits n hlead hnot with
    ⟨x,hx,hbig,heq⟩ | ⟨hsmall,heq⟩
  · exact .inl ⟨_,heq,hI.take (hperm.symm.subset hx) hn hbig⟩
  · refine .inr ⟨fun y hy => hsmall y ?_,heq⟩
    rcases List.mem_cons.mp (hperm.subset hy) with rfl | hy
    · exact mem_append_right _ mem_cons_self
    · exact mem_append_left _ hy

theorem Inv.mallocLoop (hI : Inv base start h F A) (grant : ℕ → Bool) (hn : 0 < nunits)
    (hlt : HEADER * nunits < 2 ^ 31) {n : ℕ} (hfuel : 2 * F.length + 3 ≤ n) :
    ∃ r, Malloc.mallocLoop grant nunits n h h.freep (h.ptr h.freep) = some r ∧
      Served base start h nunits A r := by
  obtain ⟨m,rfl⟩ : ∃ m, n = m + F.length + 1 := ⟨n - F.length - 1,by omega⟩
  rcases hI.scan grant hn m with hserved | ⟨-,heq⟩
  · exact hserved
  rcases hI.morecore grant hlt with hmore | ⟨h',hmore,⟨F',hI',hlen,hbig⟩,hkeep⟩
  · refine ⟨(h, none),?_,fun a _ => rfl,F,hI⟩
    rw [heq,hmore]
    rfl
  rw [heq,hmore]
  change ∃ r, Malloc.mallocLoop grant nunits m h' h'.freep (h'.ptr h'.freep) = some r ∧ _
  obtain ⟨k,rfl⟩ : ∃ k, m = k + F'.length + 1 := ⟨m - F'.length - 1,by omega⟩
  rcases hI'.scan grant hn k with ⟨r,hr,hserved⟩ | ⟨hsmall,-⟩
  · refine ⟨r,hr,fun a ha => ?_,hserved.2⟩
    rw [hserved.1 a ha,hkeep a ha]
  · obtain ⟨b,hb,hle⟩ := hbig
    exact absurd hle (Nat.not_le_of_lt (hsmall b (mem_cons_of_mem base hb)))

variable {s t : State} {e : Event}

/-- The free list of a heap: nothing before the first call of `malloc`, and then the free blocks in
the circle behind `base`. -/
def IsFreeList (base : ℕ) (h : Heap) (F : List ℕ) : Prop :=
  (h.freep = 0 ∧ F = []) ∨
    (h.freep ∈ base :: F ∧ Loop h.ptr (base :: F) ∧ h.size base = 0)

/-- What a program may rely on: its blocks have room for what it has asked for, and no two blocks of
the program or of the free list overlap. The free list is in increasing order with gaps, and no
memory is lost. -/
structure Sane (base start : ℕ) (s : State) : Prop where
  room : ∀ b ∈ s.live, start ≤ b.1 ∧
    b.1 + HEADER + b.2 ≤ b.1 + HEADER * s.heap.size b.1 ∧
    b.1 + HEADER * s.heap.size b.1 ≤ s.heap.brk
  list : ∃ F, IsFreeList base s.heap F ∧
    Spaced HEADER s.heap.size (base :: F) ∧
    (F ++ s.live.map Prod.fst).Pairwise (Apart HEADER s.heap.size) ∧
    start + HEADER * ((F ++ s.live.map Prod.fst).map s.heap.size).sum = s.heap.brk

/-- The invariant of a program. -/
structure Kept (base start : ℕ) (s : State) : Prop where
  heap : (s.heap.freep = 0 ∧ s.heap.brk = start ∧ s.live = []) ∨
    ∃ F, Inv base start s.heap F (s.live.map Prod.fst)
  room : ∀ b ∈ s.live, HEADER + b.2 ≤ HEADER * s.heap.size b.1

theorem Kept.sane (hK : Kept base start s) : Sane base start s := by
  rcases hK.heap with ⟨hfreep,hbrk,hlive⟩ | ⟨F,hI⟩
  · refine ⟨fun b hb => ?_,[],.inl ⟨hfreep,rfl⟩,pairwise_singleton _ _,?_,?_⟩
    · rw [hlive] at hb
      cases hb
    · rw [hlive]
      exact List.Pairwise.nil
    · rw [hlive,hbrk]
      rfl
  · refine ⟨fun b hb => ?_,F,.inr ⟨hI.freep,hI.loop,hI.zero⟩,hI.spaced,hI.tiling.apart,
      hI.tiling.full⟩
    have hinside := hI.tiling.inside b.1 (mem_append_right _ (mem_map_of_mem hb))
    refine ⟨hinside.1,?_,hinside.2⟩
    rw [Nat.add_assoc]
    exact Nat.add_le_add_left (hK.room b hb) _

section Steps

variable (hpos : 0 < base) (hlow : base + HEADER ≤ start) (hhigh : start < KERNBASE)

include hpos hlow hhigh

theorem Kept.initList (hK : Kept base start s) :
    ∃ F, Inv base start (initList base s.heap) F (s.live.map Prod.fst) ∧
      ∀ a ∈ s.live.map Prod.fst, (Malloc.initList base s.heap).size a = s.heap.size a := by
  rcases hK.heap with ⟨hfreep,hbrk,hlive⟩ | ⟨F,hI⟩
  · refine ⟨[],?_,?_⟩
    · rw [Malloc.initList,if_pos hfreep,hlive]
      refine ⟨hpos,hlow,hbrk ▸ hhigh,⟨List.Pairwise.nil,by simp,by simp,?_⟩,?_,?_,
        pairwise_singleton _ _,mem_cons_self⟩
      · exact hbrk.symm
      · exact update_self _ _ _
      · exact update_self _ _ _
    · rw [hlive]
      intro a ha
      cases ha
  · have hne : s.heap.freep ≠ 0 := by
      rcases List.mem_cons.mp hI.freep with hb | hF
      · rw [hb]
        exact hpos.ne'
      · have := (hI.tiling.inside _ (mem_append_left _ hF)).1
        have := hI.base_lt
        omega
    rw [Malloc.initList,if_neg hne]
    exact ⟨F,hI,fun a _ => rfl⟩

theorem Kept.malloc (hK : Kept base start s) {nbytes : ℕ} {grant : ℕ → Bool}
    (ha : Allowed s (.malloc nbytes grant)) :
    ∃ t, run base s (.malloc nbytes grant) = some t ∧ Kept base start t := by
  change 8 * ((nbytes + 8 - 1) / 8 + 1) < 2 ^ 31 at ha
  have hunits : unitsFor nbytes = (nbytes + 8 - 1) / 8 + 1 := by
    change (nbytes + 8 - 1) % 2 ^ 32 / 8 + 1 = _
    rw [Nat.mod_eq_of_lt (by omega)]
  have hroom : 8 + nbytes ≤ 8 * unitsFor nbytes := by
    rw [hunits]
    omega
  obtain ⟨F,hI,hsize⟩ := hK.initList hpos hlow hhigh
  have hfuel : 2 * F.length + 3 ≤ 2 * (Malloc.initList base s.heap).fuel + 3 := by
    have hle := hI.fuel_le
    rw [length_cons] at hle
    omega
  have hlt : HEADER * unitsFor nbytes < 2 ^ 31 := by
    rw [hunits]
    exact ha
  have hpos' : 0 < unitsFor nbytes := by omega
  obtain ⟨r,hr,hkeep,hserved⟩ := hI.mallocLoop grant hpos' hlt hfuel
  have hrun : Malloc.malloc base grant s.heap nbytes = some r := hr
  have hold : ∀ b ∈ s.live, HEADER+b.2 ≤ HEADER * r.1.size b.1 := by
    intro b hb
    rw [hkeep b.1 (mem_map_of_mem hb),hsize b.1 (mem_map_of_mem hb)]
    exact hK.room b hb
  obtain ⟨h',q⟩ := r
  cases q with
  | none =>
    refine ⟨⟨h',s.live⟩,?_,.inr hserved,hold⟩
    rw [run,hrun]
    rfl
  | some q =>
    refine ⟨⟨h',(q, nbytes) :: s.live⟩,?_,.inr hserved.1,?_⟩
    · rw [run,hrun]
      rfl
    · refine List.forall_mem_cons.mpr ⟨?_,hold⟩
      rw [hserved.2]
      exact hroom

omit hpos hlow hhigh in
theorem Kept.free (hK : Kept base start s) {block : ℕ} (ha : Allowed s (.free block)) :
    ∃ t, run base s (.free block) = some t ∧ Kept base start t := by
  have hmem : block ∈ s.live.map Prod.fst := ha
  rcases hK.heap with ⟨-,-,hlive⟩ | ⟨F,hI⟩
  · rw [hlive] at hmem
    cases hmem
  have hnodup : (s.live.map Prod.fst).Nodup :=
    (List.nodup_append.mp (hI.tiling.nodup header_pos)).2.1
  have hmap : (s.live.filter fun b => b.1 ≠ block).map Prod.fst =
      (s.live.map Prod.fst).erase block := by
    rw [hnodup.erase_eq_filter,filter_map]
    congr 1
    refine filter_congr fun b _ => ?_
    by_cases hb : b.1 = block <;> simp [hb]
  have hperm : (s.live.map Prod.fst).Perm
      (block :: (s.live.filter fun b => b.1 ≠ block).map Prod.fst) := by
    rw [hmap]
    exact perm_cons_erase hmem
  obtain ⟨h',hfree,⟨F',hI',-,-⟩,hsize,-⟩ := hI.free hperm
  refine ⟨⟨h',s.live.filter fun b => b.1 ≠ block⟩,?_,.inr ⟨F',hI'⟩,fun b hb => ?_⟩
  · rw [run,hfree]
    rfl
  · rw [hsize b.1 (mem_map_of_mem hb)]
    exact hK.room b (mem_of_mem_filter hb)

omit hpos hlow hhigh in
theorem Inv.not_owns (hI : Inv base start s.heap F (s.live.map Prod.fst)) {a : ℕ}
    (ha : a ∈ base :: (F ++ s.live.map Prod.fst)) : ¬ s.owns a := by
  rintro ⟨b,hb,hlt,hle⟩
  have hbmem : b.1 ∈ F ++ s.live.map Prod.fst := mem_append_right _ (mem_map_of_mem hb)
  rcases List.mem_cons.mp ha with rfl | ha
  · have := (hI.tiling.inside b.1 hbmem).1
    have := hI.base_lt
    omega
  · have hapart := hI.tiling.apart.forall ha hbmem hlt.ne'
    unfold Apart at hapart
    omega

omit hpos hlow hhigh in
theorem Kept.write (hK : Kept base start s) (ptr size : ℕ → ℕ) :
    ∃ t, run base s (.write ptr size) = some t ∧ Kept base start t := by
  refine ⟨_,rfl,?_,fun b hb => ?_⟩
  · rcases hK.heap with hnone | ⟨F,hI⟩
    · exact .inl hnone
    · exact .inr ⟨F,hI.congr (fun a ha => if_neg (hI.not_owns ha))
        (fun a ha => if_neg (hI.not_owns ha)) rfl rfl⟩
  rcases hK.heap with ⟨-,-,hlive⟩ | ⟨F,hI⟩
  · have hb' : b ∈ s.live := hb
    rw [hlive] at hb'
    cases hb'
  · have hmem : b.1 ∈ F ++ s.live.map Prod.fst :=
      mem_append_right _ (mem_map_of_mem hb)
    have hsize : (if s.owns b.1 then size b.1 else s.heap.size b.1) = s.heap.size b.1 :=
      if_neg (hI.not_owns (mem_cons_of_mem base hmem))
    change HEADER + b.2 ≤ HEADER * (if s.owns b.1 then size b.1 else s.heap.size b.1)
    rw [hsize]
    exact hK.room b hb

theorem Kept.step (hK : Kept base start s) (ha : Allowed s e) :
    ∃ t, step base s e = some t ∧ Kept base start t := by
  rw [Malloc.step,if_pos ha]
  cases e with
  | malloc nbytes grant => exact hK.malloc hpos hlow hhigh ha
  | free block => exact hK.free ha
  | write ptr size => exact hK.write ptr size

/-- In every run of a program the blocks are as they should be, and every call that the program may
make comes back. -/
theorem heap_sane {es : List Event} (hrun : Run.exec (step base) (boot start) es = some s) :
    Sane base start s ∧ ∀ e, Allowed s e → ∃ t, step base s e = some t := by
  have hboot : Kept base start (boot start) := by
    refine ⟨.inl ⟨rfl,rfl,rfl⟩,fun b hb => ?_⟩
    cases hb
  have hK : Kept base start s := by
    refine Run.exec_invariant (fun s e t hK hstep => ?_) hboot hrun
    have ha : Allowed s e := by
      by_contra hnot
      rw [step,if_neg hnot] at hstep
      cases hstep
    obtain ⟨t',ht',hK'⟩ := hK.step hpos hlow hhigh ha
    obtain rfl := Option.some.inj (hstep.symm.trans ht')
    exact hK'
  refine ⟨hK.sane,fun e ha => ?_⟩
  obtain ⟨t,ht,-⟩ := hK.step hpos hlow hhigh ha
  exact ⟨t,ht⟩

end Steps

/-- Three blocks, of which the middle one is freed and cut again. -/
theorem heap_sane_reuse :
    ∃ s, Run.exec (step 0x1000) (boot 0x4000)
        [.malloc 100 fun _ => true, .malloc 200 fun _ => true, .malloc 300 fun _ => true,
          .write (fun _ => 7) fun _ => 7, .free 48832, .malloc 50 fun _ => false] = some s ∧
      s.live.length = 3 ∧ Sane 0x1000 0x4000 s := by
  obtain ⟨s,hrun,hlen⟩ : ∃ s, Run.exec (step 0x1000) (boot 0x4000)
        [.malloc 100 fun _ => true,.malloc 200 fun _ => true,.malloc 300 fun _ => true,
          .write (fun _ => 7) fun _ => 7,.free 48832,.malloc 50 fun _ => false] = some s ∧
      s.live.length = 3 := by
    apply Option.map_eq_some_iff.mp
    decide +kernel
  exact ⟨s,hrun,hlen,(heap_sane (by decide) (by decide) (by decide) hrun).1⟩

end Xv6Container.Malloc
