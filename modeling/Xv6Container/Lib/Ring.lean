import Mathlib.Tactic

/-!
# Ring buffers

`contents a cap front n` reads a ring buffer of capacity `cap` as a list: the `n`
cells from `front` on, wrapping at the end of the array.
-/

namespace Xv6Container.Ring

open List

variable {α : Type*} {a : ℕ → α} {cap front n : ℕ} {x : α}

/-- The queued items, oldest first. -/
def contents (a : ℕ → α) (cap front n : ℕ) : List α :=
  (List.range n).map fun i => a ((front + i) % cap)

@[simp] theorem length_contents : (contents a cap front n).length = n := by simp [contents]

theorem contents_succ :
    contents a cap front (n+1) = contents a cap front n ++ [a ((front+n) % cap)] := by
  simp only [contents,range_succ,map_append,map_cons,map_nil]

theorem take_contents {m : ℕ} (h : n ≤ m) :
    (contents a cap front m).take n = contents a cap front n := by
  rw [contents,← map_take,take_range,min_eq_left h]
  rfl

theorem index_ne {i j : ℕ} (hij : i < j) (hj : j < cap) : (front+i) % cap ≠ (front+j) % cap := by
  intro h
  have hcap : 0 < cap := by omega
  have hmod : (j-i) % cap = 0 := by
    have := Nat.sub_mod_eq_zero_of_mod_eq (m := front+j) (n := front+i) (k := cap) h.symm
    rwa [Nat.add_sub_add_left] at this
  rw [Nat.mod_eq_of_lt (by omega)] at hmod
  omega

theorem contents_push (hn : n < cap) (x : α) :
    contents (Function.update a ((front+n) % cap) x) cap front (n+1) =
      contents a cap front n ++ [x] := by
  simp only [contents,range_succ,map_append,map_cons,map_nil,Function.update_self]
  congr 1
  apply map_congr_left
  intro i hi
  have hi := List.mem_range.mp hi
  exact Function.update_of_ne (index_ne hi hn) _ _

theorem contents_pop (hf : front < cap) :
    contents a cap front (n+1) = a front :: contents a cap ((front+1) % cap) n := by
  simp only [contents,range_succ_eq_map,map_cons,map_map,Nat.add_zero,Nat.mod_eq_of_lt hf]
  congr 1
  apply map_congr_left
  intro i _
  simp only [Function.comp,Nat.mod_add_mod]
  congr 2
  omega

end Xv6Container.Ring
