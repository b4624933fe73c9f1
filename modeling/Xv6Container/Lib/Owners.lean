import Mathlib.Tactic

/-!
# Things with one owner

A relation between owners and things under which every thing of a set has exactly
one owner, and nothing else has any.
-/

namespace Xv6Container

variable {ι κ α : Type} {A : Set α} {own own' : ι → α → Prop}

/-- The things with an owner are those in `A`, and they have one owner only. -/
structure Sole (A : Set α) (own : ι → α → Prop) : Prop where
  cover : ∀ a, a ∈ A → ∃ i, own i a
  only : ∀ i a, own i a → a ∈ A
  uniq : ∀ i j a, own i a → own j a → i = j

theorem Sole.existsUnique (h : Sole A own) {a : α} (ha : a ∈ A) : ∃! i, own i a := by
  obtain ⟨i,hi⟩ := h.cover a ha
  exact ⟨i,hi,fun j hj => h.uniq j i a hj hi⟩

theorem Sole.congr (h : Sole A own) (ho : ∀ i a, own' i a ↔ own i a) : Sole A own' := by
  obtain rfl : own' = own := funext fun i => funext fun a => propext (ho i a)
  exact h

theorem Sole.move (h : Sole A own) {x : α} {i j : ι} (hi : own i x)
    (hx : ∀ k, own' k x ↔ k = j) (ho : ∀ k y, y ≠ x → (own' k y ↔ own k y)) : Sole A own' := by
  refine ⟨fun a ha => ?_,fun k a hk => ?_,fun k l a hk hl => ?_⟩
  · by_cases e : a = x
    · subst e
      exact ⟨j,(hx j).mpr rfl⟩
    · obtain ⟨k,hk⟩ := h.cover a ha
      exact ⟨k,(ho k a e).mpr hk⟩
  · by_cases e : a = x
    · subst e
      exact h.only i a hi
    · exact h.only k a ((ho k a e).mp hk)
  · by_cases e : a = x
    · subst e
      rw [(hx k).mp hk,(hx l).mp hl]
    · exact h.uniq k l a ((ho k a e).mp hk) ((ho l a e).mp hl)

theorem Sole.map {own' : κ → α → Prop} (h : Sole A own) (φ : ι → κ)
    (ho : ∀ k a, own' k a ↔ ∃ i, φ i = k ∧ own i a) : Sole A own' := by
  refine ⟨fun a ha => ?_,fun k a hk => ?_,fun k l a hk hl => ?_⟩
  · obtain ⟨i,hi⟩ := h.cover a ha
    exact ⟨φ i,(ho _ a).mpr ⟨i,rfl,hi⟩⟩
  · obtain ⟨i,-,hi⟩ := (ho k a).mp hk
    exact h.only i a hi
  · obtain ⟨i,rfl,hi⟩ := (ho k a).mp hk
    obtain ⟨j,rfl,hj⟩ := (ho l a).mp hl
    rw [h.uniq i j a hi hj]

theorem Sole.same (h : Sole A own) (h' : Sole A own') {i : ι}
    (ho : ∀ j, j ≠ i → ∀ a, own' j a ↔ own j a) (a : α) : own' i a ↔ own i a := by
  constructor
  · intro ha
    obtain ⟨j,hj⟩ := h.cover a (h'.only i a ha)
    by_cases e : j = i
    · exact e ▸ hj
    · exact absurd (h'.uniq j i a ((ho j e a).mpr hj) ha) e
  · intro ha
    obtain ⟨j,hj⟩ := h'.cover a (h.only i a ha)
    by_cases e : j = i
    · exact e ▸ hj
    · exact absurd (h.uniq j i a ((ho j e a).mp hj) ha) e

end Xv6Container
