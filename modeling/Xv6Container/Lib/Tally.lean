import Mathlib.Tactic

/-!
# Counting the pointers in a table

A table of optional pointers, and the number of its places that point to one
target. Reference counts are such numbers.
-/

namespace Xv6Container

open Function Finset

/-- A count over `S ∪ S'` can be taken in two steps: over `S`, and over `S'` once `S` is settled. -/
theorem card_filter_union {κ : Type} [DecidableEq κ] {S S' : Finset κ} {P Q : κ → Prop}
    [DecidablePred P] [DecidablePred Q] (h : ∀ x ∈ S', Q x ↔ P x ∧ x ∉ S) :
    ((S ∪ S').filter P).card = (S.filter P).card + (S'.filter Q).card := by
  rw [← card_union_of_disjoint]
  · congr 1
    ext x
    have := h x
    simp only [mem_filter,mem_union]
    tauto
  · refine disjoint_left.mpr fun x hx hx' => ?_
    obtain ⟨hS',hQ⟩ := mem_filter.mp hx'
    exact ((h x hS').mp hQ).2 (mem_filter.mp hx).1

variable {ι α : Type} [Fintype ι] [DecidableEq α] {g : ι → Option α} {x : ι} {a : α}

/-- The number of places that point to `a`. -/
@[irreducible] def tally (g : ι → Option α) (a : α) : ℕ := (Finset.univ.filter fun x => g x = some a).card

theorem tally_pos : 0 < tally g a ↔ ∃ x, g x = some a := by
  simp [tally,card_pos,filter_nonempty_iff]

variable [DecidableEq ι]

theorem tally_update (v : Option α) :
    tally (update g x v) a + (if g x = some a then 1 else 0) =
      tally g a + (if v = some a then 1 else 0) := by
  have hsplit : ∀ h : ι → Option α, tally h a =
      ((Finset.univ.erase x).filter fun y => h y = some a).card +
        (if h x = some a then 1 else 0) := by
    intro h
    rw [tally,← insert_erase (mem_univ x),filter_insert]
    split
    · rw [card_insert_of_notMem (by simp),erase_insert (by simp)]
    · rw [erase_insert (by simp),Nat.add_zero]
  have hrest : ((Finset.univ.erase x).filter fun y => update g x v y = some a) =
      (Finset.univ.erase x).filter fun y => g y = some a := by
    apply filter_congr
    intro y hy
    rw [update_of_ne (ne_of_mem_erase hy)]
  rw [hsplit (update g x v),hsplit g,hrest,update_self]
  omega

theorem tally_fill (h : g x = none) (b : α) :
    tally (update g x (some b)) a = tally g a + (if b = a then 1 else 0) := by
  have := tally_update (g := g) (x := x) (a := a) (some b)
  simpa [h] using this

theorem tally_clear {b : α} (h : g x = some b) :
    tally (update g x none) a + (if b = a then 1 else 0) = tally g a := by
  have := tally_update (g := g) (x := x) (a := a) none
  simpa [h] using this

end Xv6Container
