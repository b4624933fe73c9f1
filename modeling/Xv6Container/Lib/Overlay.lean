import Mathlib.Data.List.GetD
import Mathlib.Tactic

/-!
# Bytes stored over others

Memory is a function from addresses to values, and `overlay m b xs` has `xs` from `b` on.
-/

namespace Xv6Container

open Function List Nat

variable {α : Type*} [OfNat α 0] {m : ℕ → α} {a b : ℕ} {x : α} {xs : List α}

/-- The bytes `m` with `xs` stored from `b` on. -/
def overlay (m : ℕ → α) (b : ℕ) (xs : List α) : ℕ → α := fun a =>
  if b ≤ a ∧ a < b + xs.length then xs.getD (a - b) 0 else m a

theorem overlay_nil (m : ℕ → α) (b : ℕ) : overlay m b [] = m := by
  funext a
  exact if_neg (by simp)

theorem overlay_append (m : ℕ → α) (b : ℕ) (xs ys : List α) :
    overlay (overlay m b xs) (b+xs.length) ys = overlay m b (xs ++ ys) := by
  funext a
  simp only [overlay,length_append]
  by_cases hys : b + xs.length ≤ a ∧ a < b + xs.length + ys.length
  · rw [if_pos hys,if_pos (by omega),getD_append_right _ _ _ _ (by omega),sub_add_eq]
  · rw [if_neg hys]
    by_cases hxs : b ≤ a ∧ a < b+xs.length
    · rw [if_pos hxs,if_pos (by omega),getD_append _ _ _ _ (by omega)]
    · rw [if_neg hxs,if_neg (by omega)]

theorem overlay_of_lt (h : a < b) : overlay m b xs a = m a := if_neg (by omega)

theorem update_eq_overlay : update m b x = overlay m b [x] := by
  ext a
  rw [update_apply,overlay,length_singleton]
  by_cases hab : a = b
  · rw [if_pos hab,if_pos (by omega),hab,Nat.sub_self]
    rfl
  · rw [if_neg hab,if_neg (by omega)]

theorem overlay_cons : overlay (update m b x) (b+1) xs = overlay m b (x :: xs) := by
  rw [update_eq_overlay]
  exact overlay_append m b [x] xs

theorem update_overlay : update (overlay m b xs) (b+xs.length) x = overlay m b (xs ++ [x]) := by
  rw [update_eq_overlay,overlay_append]

theorem update_overlay_comm (h : a < b ∨ b + xs.length ≤ a) :
    update (overlay m b xs) a x = overlay (update m a x) b xs := by
  ext k
  simp only [overlay,update_apply]
  split_ifs
  · omega
  all_goals rfl

end Xv6Container
