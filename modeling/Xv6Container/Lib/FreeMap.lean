import Xv6Container.Lib.Slots

/-!
# Exact free maps

`addr p` is the block at place `p`, and 0 says that there is none. The map `used` is exact when
every block from `lo` up to `hi` stands at one place at most and the marked ones are those that
stand somewhere. The blocks below `lo` are always marked.
-/

namespace Xv6Container.FreeMap

open Function

variable {P : Type*} {lo hi b : ℕ} {addr addr' : P → ℕ} {used used' : ℕ → Bool}

structure Exact (lo hi : ℕ) (addr : P → ℕ) (used : ℕ → Bool) : Prop where
  inj : ∀ p q, addr p ≠ 0 → addr p = addr q → p = q
  area : ∀ p, addr p ≠ 0 → lo ≤ addr p ∧ addr p < hi
  marked : ∀ p, addr p ≠ 0 → used (addr p) = true
  owned : ∀ b, lo ≤ b → b < hi → used b = true → ∃ p, addr p = b
  reserved : ∀ b, b < lo → used b = true

theorem Exact.congr_used (h : Exact lo hi addr used) (hle : lo ≤ hi)
    (hused : ∀ b, b < hi → used' b = used b) : Exact lo hi addr used' where
  inj := h.inj
  area := h.area
  marked := fun p hp => (hused _ (h.area p hp).2).trans (h.marked p hp)
  owned := fun b hlo hhi hb => h.owned b hlo hhi ((hused b hhi).symm.trans hb)
  reserved := fun b hb => (hused b (hb.trans_le hle)).trans (h.reserved b hb)

theorem Exact.fresh (h : Exact lo hi addr used) (hlo : 0 < lo) (hb : used b = false) :
    lo ≤ b ∧ ∀ p, addr p ≠ b := by
  have hle : lo ≤ b := by
    by_contra hlt
    rw [h.reserved b (by omega)] at hb
    cases hb
  refine ⟨hle,fun p hp => ?_⟩
  have := h.marked p (by omega)
  rw [hp,hb] at this
  cases this

theorem Exact.claim (h : Exact lo hi addr used) (hlo : 0 < lo) (hb : used b = false)
    (hhi : b < hi) {p : P} (hp : addr p = 0) (hnew : addr' p = b)
    (hold : ∀ q, q ≠ p → addr' q = addr q) : Exact lo hi addr' (update used b true) := by
  obtain ⟨hle,hfresh⟩ := h.fresh hlo hb
  refine ⟨?_,?_,?_,?_,?_⟩
  · intro q r hq hqr
    refine Slots.unique_change (P := (· ≠ 0)) (k := id) (fun q r hq _ => h.inj q r hq) hold ?_
      q r hq (hqr ▸ hq) hqr
    rw [hnew]
    exact fun _ q _ _ => hfresh q
  · intro q hq
    by_cases hqp : q = p
    · subst hqp
      rw [hnew]
      exact ⟨hle,hhi⟩
    · rw [hold q hqp] at hq ⊢
      exact h.area q hq
  · intro q hq
    by_cases hqp : q = p
    · subst hqp
      rw [hnew,update_self]
    · rw [hold q hqp] at hq ⊢
      rw [update_of_ne (hfresh q)]
      exact h.marked q hq
  · intro a hlo' hhi' ha
    by_cases hab : a = b
    · exact ⟨p,hab ▸ hnew⟩
    · rw [update_of_ne hab] at ha
      obtain ⟨q,hq⟩ := h.owned a hlo' hhi' ha
      have hqp : q ≠ p := by
        rintro rfl
        omega
      exact ⟨q,(hold q hqp).trans hq⟩
  · intro a ha
    rw [update_of_ne (by omega)]
    exact h.reserved a ha

/-- The places `R` give up their blocks. -/
theorem Exact.release {R : P → Prop} [DecidablePred R] (h : Exact lo hi addr used)
    (haddr : ∀ p, addr' p = if R p then 0 else addr p)
    (hused : ∀ b, used' b = true ↔ used b = true ∧ ∀ p, R p → addr p = b → b = 0) :
    Exact lo hi addr' used' := by
  have hsame : ∀ p, addr' p ≠ 0 → ¬ R p ∧ addr' p = addr p := by
    intro p hp
    rw [haddr] at hp ⊢
    split at hp
    · exact absurd rfl hp
    · next hR => exact ⟨hR,if_neg hR⟩
  refine ⟨?_,?_,?_,?_,?_⟩
  · intro p q hp hpq
    have hq := (hsame q (hpq ▸ hp)).2
    have he := (hsame p hp).2
    rw [he] at hp hpq
    exact h.inj p q hp (hpq.trans hq)
  · intro p hp
    have he := (hsame p hp).2
    rw [he] at hp ⊢
    exact h.area p hp
  · intro p hp
    obtain ⟨hR,he⟩ := hsame p hp
    rw [he] at hp ⊢
    refine (hused _).mpr ⟨h.marked p hp,fun q hq hqp => ?_⟩
    rw [h.inj p q hp hqp.symm] at hR
    exact absurd hq hR
  · intro b hlo hhi hb
    obtain ⟨hb,hkeep⟩ := (hused b).mp hb
    obtain ⟨p,hp⟩ := h.owned b hlo hhi hb
    refine ⟨p,?_⟩
    rw [haddr]
    split
    · next hR => exact (hkeep p hR hp).symm
    · exact hp
  · intro b hb
    refine (hused b).mpr ⟨h.reserved b hb,fun p _ hp => ?_⟩
    by_contra hb0
    have := (h.area p (hp ▸ hb0)).1
    omega

end Xv6Container.FreeMap
