import Mathlib.Tactic

/-!
# Tables of slots as finite sets

A table whose slots are empty or hold a value, no value twice, stands for the set of its values.
-/

namespace Xv6Container.Slots

open Function Finset

/-- The values that count have different keys still when place `p` changed, if the new value there
has none of the other keys. -/
theorem unique_change {ι β γ : Type*} {f g : ι → β} {p : ι} {P : β → Prop} {k : β → γ}
    (h : ∀ x y, P (f x) → P (f y) → k (f x) = k (f y) → x = y) (hother : ∀ x, x ≠ p → g x = f x)
    (hnew : P (g p) → ∀ x, x ≠ p → P (f x) → k (f x) ≠ k (g p)) :
    ∀ x y, P (g x) → P (g y) → k (g x) = k (g y) → x = y := by
  intro x y hx hy he
  by_cases hxp : x = p <;> by_cases hyp : y = p
  · rw [hxp,hyp]
  · rw [hother y hyp] at hy he
    rw [hxp] at hx he
    exact absurd he.symm (hnew hx y hyp hy)
  · rw [hother x hxp] at hx he
    rw [hyp] at hy he
    exact absurd he (hnew hy x hxp hx)
  · rw [hother x hxp] at hx he
    rw [hother y hyp] at hy he
    exact h x y hx hy he

variable {ι α : Type} [Fintype ι] [DecidableEq ι] [DecidableEq α] {g : ι → Option α} {x : ι} {a : α}

/-- The values in the slots. -/
def elems (g : ι → Option α) : Finset α := Finset.univ.biUnion fun x => (g x).toFinset

omit [DecidableEq ι] in
theorem mem_elems : a ∈ elems g ↔ ∃ x, g x = some a := by
  simp [elems]

omit [DecidableEq ι] in
theorem elems_none : elems (fun _ : ι => (none : Option α)) = ∅ := by
  ext a
  simp [mem_elems]

/-- No value is in two slots. -/
def Once (g : ι → Option α) : Prop := ∀ x y a, g x = some a → g y = some a → x = y

theorem elems_fill (h : g x = none) : elems (update g x (some a)) = insert a (elems g) := by
  ext b
  rw [mem_insert,mem_elems,mem_elems]
  constructor
  · intro hb
    obtain ⟨y,hy⟩ := hb
    by_cases hyx : y = x
    · rw [hyx,update_self] at hy
      exact .inl (Option.some.inj hy).symm
    · rw [update_of_ne hyx] at hy
      exact .inr ⟨y,hy⟩
  intro hb
  rcases hb with rfl | ⟨y,hy⟩
  · exact ⟨x,update_self ..⟩
  · have hyx : y ≠ x := by
      intro he
      rw [he,h] at hy
      cases hy
    exact ⟨y,by rw [update_of_ne hyx,hy]⟩

theorem Once.fill (h : Once g) (ha : a ∉ elems g) : Once (update g x (some a)) := by
  intro y z b hy hz
  refine unique_change (f := g) (p := x) (P := (· = some b)) (k := fun _ => ())
    (fun y z hy hz _ => h y z b hy hz) (fun y hyx => update_of_ne hyx _ _) (fun hb y _ hy => ?_)
    y z hy hz rfl
  rw [update_self] at hb
  obtain rfl := Option.some.inj hb
  exact absurd (mem_elems.mpr ⟨y,hy⟩) ha

omit [Fintype ι] [DecidableEq α] in
theorem Once.clear (h : Once g) (x : ι) : Once (update g x none) := by
  have hold : ∀ y b, update g x none y = some b → g y = some b := by
    intro y b hy
    by_cases hyx : y = x
    · rw [hyx,update_self] at hy
      cases hy
    · rwa [update_of_ne hyx] at hy
  intro y z b hy hz
  exact h y z b (hold y b hy) (hold z b hz)

theorem Once.elems_clear (h : Once g) (hx : g x = some a) :
    elems (update g x none) = (elems g).erase a := by
  ext b
  rw [mem_erase,mem_elems,mem_elems]
  constructor
  · intro hb
    obtain ⟨y,hy⟩ := hb
    have hyx : y ≠ x := by
      intro he
      rw [he,update_self] at hy
      cases hy
    rw [update_of_ne hyx] at hy
    refine ⟨fun hba => hyx ?_,y,hy⟩
    rw [hba] at hy
    exact h y x a hy hx
  · intro hb
    obtain ⟨hba,y,hy⟩ := hb
    have hyx : y ≠ x := by
      intro he
      rw [he,hx] at hy
      exact hba (Option.some.inj hy).symm
    exact ⟨y,by rw [update_of_ne hyx,hy]⟩

omit [DecidableEq ι] in
theorem Once.card_elems (h : Once g) :
    (elems g).card = (Finset.univ.filter fun x => (g x).isSome = true).card := by
  rw [elems,card_biUnion,card_filter]
  · refine sum_congr rfl fun x _ => ?_
    cases g x with
    | none => simp
    | some a => simp
  · intro x _ y _ hxy
    rw [Function.onFun,disjoint_left]
    intro b hx hy
    rw [Option.mem_toFinset,Option.mem_def] at hx hy
    exact hxy (h x y b hx hy)

omit [DecidableEq ι] in
theorem Once.card_elems_lt (h : Once g) : (elems g).card < Fintype.card ι ↔ ∃ x, g x = none := by
  rw [h.card_elems,← card_univ]
  constructor
  · intro hlt
    by_contra hall
    apply hlt.ne
    congr 1
    apply filter_true_of_mem
    intro x _
    rw [Option.isSome_iff_ne_none]
    exact fun hx => hall ⟨x,hx⟩
  · intro hx
    obtain ⟨x,hx⟩ := hx
    apply card_lt_card
    rw [filter_ssubset]
    exact ⟨x,mem_univ x,by simp [hx]⟩

end Xv6Container.Slots
