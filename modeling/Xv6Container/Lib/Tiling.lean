import Mathlib.Tactic

/-!
# Memory cut into blocks

A stretch of memory is cut into blocks, named by their first addresses and with sizes in units of
`w` bytes. They do not overlap, and together they have as many units as there are.
-/

namespace Xv6Container

open Function List

variable {w lo hi k : ℕ} {size size' : ℕ → ℕ} {a b u v : ℕ} {B B' l l' : List ℕ}

/-- The blocks at `a` and at `b` do not overlap. -/
def Apart (w : ℕ) (size : ℕ → ℕ) (a b : ℕ) : Prop := a + w * size a ≤ b ∨ b + w * size b ≤ a

theorem Apart.symm (h : Apart w size a b) : Apart w size b a := Or.symm h

instance : Std.Symm (Apart w size) := ⟨fun _ _ => Apart.symm⟩

/-- The blocks of a stretch of memory. -/
structure Tiling (w lo hi : ℕ) (size : ℕ → ℕ) (B : List ℕ) : Prop where
  apart : B.Pairwise (Apart w size)
  pos : ∀ a ∈ B, 0 < size a
  inside : ∀ a ∈ B, lo ≤ a ∧ a + w * size a ≤ hi
  full : lo + w * (B.map size).sum = hi

namespace Tiling

theorem perm (h : Tiling w lo hi size B) (hB : B.Perm B') : Tiling w lo hi size B' where
  apart := hB.pairwise h.apart Apart.symm
  pos a ha := h.pos a (hB.symm.subset ha)
  inside a ha := h.inside a (hB.symm.subset ha)
  full := by rw [← (hB.map size).sum_eq,h.full]

theorem congr (h : Tiling w lo hi size B) (heq : ∀ a ∈ B, size' a = size a) :
    Tiling w lo hi size' B where
  apart := by
    refine h.apart.imp_of_mem fun {a b} ha hb hab => ?_
    rw [Apart,heq a ha,heq b hb]
    exact hab
  pos a ha := by
    rw [heq a ha]
    exact h.pos a ha
  inside a ha := by
    rw [heq a ha]
    exact h.inside a ha
  full := by rw [map_congr_left heq,h.full]

theorem apart_head (h : Tiling w lo hi size (a :: B)) (hb : b ∈ B) : Apart w size a b :=
  (List.pairwise_cons.mp h.apart).1 b hb

theorem ne_head (h : Tiling w lo hi size (a :: B)) (hw : 0 < w) (hb : b ∈ B) : b ≠ a := by
  rintro rfl
  have hpos := Nat.mul_pos hw (h.pos b mem_cons_self)
  rcases h.apart_head hb with hab | hab <;> omega

theorem nodup (h : Tiling w lo hi size B) (hw : 0 < w) : B.Nodup := by
  refine h.apart.imp_of_mem fun {a b} ha _ hab => ?_
  rintro rfl
  have hpos := Nat.mul_pos hw (h.pos a ha)
  rcases hab with hab | hab <;> omega

theorem end_le (h : Tiling w lo hi size (a :: B)) (hw : 0 < w) (hb : b ∈ B) (hab : a ≤ b) :
    a + w * size a ≤ b := by
  have hpos := Nat.mul_pos hw (h.pos b (mem_cons_of_mem a hb))
  rcases h.apart_head hb with hle | hle <;> omega

theorem length_le (h : Tiling w lo hi size B) : w * B.length ≤ hi := by
  have hle : B.length ≤ (B.map size).sum := by
    have hsum := card_nsmul_le_sum (B.map size) 1 fun n hn => by
      obtain ⟨a,ha,rfl⟩ := List.mem_map.mp hn
      exact h.pos a ha
    rw [length_map,smul_eq_mul,mul_one] at hsum
    exact hsum
  have hfull := h.full
  have := Nat.mul_le_mul_left w hle
  omega

theorem merge (h : Tiling w lo hi size (u :: v :: B)) (hw : 0 < w) (huv : u + w * size u = v) :
    Tiling w lo hi (update size u (size u + size v)) (u :: B) := by
  have hu : ∀ b ∈ B, update size u (size u + size v) b = size b := fun b hb =>
    update_of_ne (h.ne_head hw (mem_cons_of_mem v hb)) _ _
  have hv : Tiling w lo hi size (v :: u :: B) := h.perm (List.Perm.swap v u B)
  have hmul := Nat.mul_add w (size u) (size v)
  refine ⟨List.pairwise_cons.mpr ⟨fun b hb => ?_,?_⟩,?_,?_,?_⟩
  · have hub := h.apart_head (mem_cons_of_mem v hb)
    have hvb := hv.apart_head (mem_cons_of_mem u hb)
    have hpos := Nat.mul_pos hw (h.pos b (mem_cons_of_mem u (mem_cons_of_mem v hb)))
    have hvpos := Nat.mul_pos hw (h.pos v (mem_cons_of_mem u mem_cons_self))
    rw [Apart,hu b hb,update_self]
    unfold Apart at hub hvb
    omega
  · have hB := (List.pairwise_cons.mp (List.pairwise_cons.mp h.apart).2).2
    refine hB.imp_of_mem fun {a b} ha hb hab => ?_
    rw [Apart,hu a ha,hu b hb]
    exact hab
  · refine List.forall_mem_cons.mpr ⟨?_,fun b hb => ?_⟩
    · have := h.pos u mem_cons_self
      rw [update_self]
      omega
    · rw [hu b hb]
      exact h.pos b (mem_cons_of_mem u (mem_cons_of_mem v hb))
  · refine List.forall_mem_cons.mpr ⟨?_,fun b hb => ?_⟩
    · have hiu := h.inside u mem_cons_self
      have hiv := h.inside v (mem_cons_of_mem u mem_cons_self)
      rw [update_self]
      omega
    · rw [hu b hb]
      exact h.inside b (mem_cons_of_mem u (mem_cons_of_mem v hb))
  · have hfull := h.full
    rw [map_cons,map_cons,sum_cons,sum_cons,← add_assoc] at hfull
    rw [map_cons,sum_cons,update_self,map_congr_left hu]
    exact hfull

theorem split (h : Tiling w lo hi size (u :: B)) (hw : 0 < w) (hk : 0 < k) (hlt : k < size u)
    (hv : v = u + w * (size u - k)) :
    Tiling w lo hi (update (update size u (size u - k)) v k) (v :: u :: B) := by
  have hmul : w * (size u - k) + w * k = w * size u := by
    rw [← Nat.mul_add,Nat.sub_add_cancel hlt.le]
  have hkpos := Nat.mul_pos hw hk
  have hrest := Nat.mul_pos hw (Nat.sub_pos_of_lt hlt)
  have huv : u ≠ v := by omega
  have hvB : ∀ b ∈ B, b ≠ v := by
    intro b hb hbv
    have hpos := Nat.mul_pos hw (h.pos b (mem_cons_of_mem u hb))
    have hub := h.apart_head hb
    unfold Apart at hub
    omega
  have hsv : update (update size u (size u - k)) v k v = k :=
    update_self _ _ _
  have hsu : update (update size u (size u - k)) v k u = size u - k := by
    rw [update_of_ne huv,update_self]
  have hsB : ∀ b ∈ B, update (update size u (size u - k)) v k b = size b := by
    intro b hb
    rw [update_of_ne (hvB b hb),update_of_ne (h.ne_head hw hb)]
  generalize update (update size u (size u - k)) v k = size' at hsv hsu hsB
  refine ⟨?_,?_,?_,?_⟩
  · refine List.pairwise_cons.mpr ⟨?_,List.pairwise_cons.mpr ⟨fun b hb => ?_,?_⟩⟩
    · refine List.forall_mem_cons.mpr ⟨?_,fun b hb => ?_⟩
      · rw [Apart,hsv,hsu]
        omega
      · have hub := h.apart_head hb
        rw [Apart,hsv,hsB b hb]
        unfold Apart at hub
        omega
    · have hub := h.apart_head hb
      rw [Apart,hsu,hsB b hb]
      unfold Apart at hub
      omega
    · refine (List.pairwise_cons.mp h.apart).2.imp_of_mem fun {a b} ha hb hab => ?_
      rw [Apart,hsB a ha,hsB b hb]
      exact hab
  · refine List.forall_mem_cons.mpr ⟨hsv ▸ hk,List.forall_mem_cons.mpr ⟨?_,fun b hb => ?_⟩⟩
    · rw [hsu]
      exact Nat.sub_pos_of_lt hlt
    · rw [hsB b hb]
      exact h.pos b (mem_cons_of_mem u hb)
  · have hiu := h.inside u mem_cons_self
    refine List.forall_mem_cons.mpr ⟨?_,List.forall_mem_cons.mpr ⟨?_,fun b hb => ?_⟩⟩
    · rw [hsv]
      omega
    · rw [hsu]
      omega
    · rw [hsB b hb]
      exact h.inside b (mem_cons_of_mem u hb)
  · have hfull := h.full
    rw [map_cons,sum_cons,Nat.mul_add] at hfull
    rw [map_cons,map_cons,sum_cons,sum_cons,hsv,hsu,map_congr_left hsB,Nat.mul_add,Nat.mul_add]
    omega

theorem grow (h : Tiling w lo hi size B) (hw : 0 < w) (hk : 0 < k) :
    Tiling w lo (hi + w * k) (update size hi k) (hi :: B) := by
  have hne : ∀ b ∈ B, b ≠ hi := by
    rintro b hb rfl
    have hpos := Nat.mul_pos hw (h.pos b hb)
    have := (h.inside b hb).2
    omega
  have hB : ∀ b ∈ B, update size hi k b = size b := fun b hb =>
    update_of_ne (hne b hb) _ _
  have hfull := h.full
  refine ⟨List.pairwise_cons.mpr ⟨fun b hb => ?_,?_⟩,?_,?_,?_⟩
  · right
    rw [hB b hb]
    exact (h.inside b hb).2
  · refine h.apart.imp_of_mem fun {a b} ha hb hab => ?_
    rw [Apart,hB a ha,hB b hb]
    exact hab
  · refine List.forall_mem_cons.mpr ⟨?_,fun b hb => ?_⟩
    · rw [update_self]
      exact hk
    · rw [hB b hb]
      exact h.pos b hb
  · refine List.forall_mem_cons.mpr ⟨?_,fun b hb => ?_⟩
    · rw [update_self]
      omega
    · rw [hB b hb]
      have := h.inside b hb
      omega
  · rw [map_cons,sum_cons,update_self,map_congr_left hB,Nat.mul_add]
    omega

end Tiling

/-- The blocks are in increasing order, and no block starts where another one ends. -/
def Spaced (w : ℕ) (size : ℕ → ℕ) (l : List ℕ) : Prop := l.Pairwise fun a b => a + w * size a < b

namespace Spaced

theorem lt (h : Spaced w size l) : l.Pairwise (· < ·) := by
  refine h.imp fun {a b} hab => ?_
  omega

theorem mono (h : Spaced w size l) (hle : ∀ a ∈ l, size' a ≤ size a) : Spaced w size' l := by
  refine h.imp_of_mem fun {a b} ha _ hab => ?_
  have := Nat.mul_le_mul_left w (hle a ha)
  omega

theorem sublist (h : Spaced w size l) (hl : l'.Sublist l) : Spaced w size l' :=
  List.Pairwise.sublist hl h

end Spaced

theorem exists_gap (h : l.Pairwise (· < ·)) (hb : b ∉ l) :
    ∃ l1 l2, l = l1 ++ l2 ∧ (∀ a ∈ l1, a < b) ∧ ∀ a ∈ l2, b < a := by
  induction l with
  | nil => exact ⟨[],[],rfl,by simp,by simp⟩
  | cons c l ih =>
    obtain ⟨hc,hl⟩ := List.pairwise_cons.mp h
    obtain ⟨hbc,hbl⟩ := not_or.mp (mt List.mem_cons.mpr hb)
    rcases Nat.lt_or_gt_of_ne hbc with hlt | hlt
    · refine ⟨[],c :: l,rfl,by simp,List.forall_mem_cons.mpr ⟨hlt,fun a ha => ?_⟩⟩
      exact hlt.trans (hc a ha)
    · obtain ⟨l1,l2,rfl,h1,h2⟩ := ih hl hbl
      exact ⟨c :: l1,l2,rfl,List.forall_mem_cons.mpr ⟨hlt,h1⟩,h2⟩

end Xv6Container
