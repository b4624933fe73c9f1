import Xv6Container.Lib.Prog

/-!
# Programs on a larger state and their shadows

A program on a state with an additional part casts a shadow on the smaller state: the smaller
program follows it as far as it returns. The additional part can only stop it.
-/

namespace Xv6Container.Prog

variable {σ τ ε α β γ δ : Type} {get : τ → σ} {φ : α → β} {ψ : γ → δ} {m : Prog τ ε α}
  {n : Prog σ ε β}

/-- Whenever `m` returns, `n` does to the part `get` of the state what `m` does. -/
def Follows (get : τ → σ) (φ : α → β) (m : Prog τ ε α) (n : Prog σ ε β) : Prop :=
  ∀ t a t', m t = .ok (a, t') → n (get t) = .ok (φ a, get t')

namespace Follows

theorem pure {a : α} : Follows get φ (Pure.pure a : Prog τ ε α) (Pure.pure (φ a)) := by
  intro t b t' hm
  cases hm
  rfl

theorem zoom {put : τ → σ → τ} (hput : ∀ t s, get (put t s) = s) (x : Prog σ ε α) :
    Follows get id (Prog.zoom get put x) x := by
  intro t a t' hm
  simp only [Prog.zoom] at hm
  cases hx : x (get t) with
  | ok r =>
    rw [hx] at hm
    cases hm
    rw [hput]
    rfl
  | error e =>
    rw [hx] at hm
    cases hm

theorem read (f : τ → γ) : Follows get (fun _ => ()) (Prog.read f : Prog τ ε γ) (Pure.pure ()) := by
  intro t a t' hm
  cases hm
  rfl

theorem modify {f : τ → τ} (hf : ∀ t, get (f t) = get t) :
    Follows get (fun _ => ()) (Prog.modify f : Prog τ ε Unit) (Pure.pure ()) := by
  intro t a t' hm
  cases hm
  rw [hf]
  rfl

theorem bind {f : α → Prog τ ε γ} {g : β → Prog σ ε δ} (h : Follows get φ m n)
    (hf : ∀ a, Follows get ψ (f a) (g (φ a))) : Follows get ψ (m >>= f) (n >>= g) := by
  intro t c t' hm
  obtain ⟨a,u,ha,hfa⟩ := ok_of_bind hm
  rw [bind_of_ok (h t a u ha)]
  exact hf a u c t' hfa

theorem ite {c : Prop} [Decidable c] {m' : Prog τ ε α} {n' : Prog σ ε β} (h : Follows get φ m n)
    (h' : Follows get φ m' n') : Follows get φ (if c then m else m') (if c then n else n') := by
  split
  · exact h
  · exact h'

/-- What comes after does not touch that part. -/
theorem tail {f : α → Prog τ ε γ} {χ : γ → β} (h : Follows get φ m n)
    (hf : ∀ a, Follows get χ (f a) (Pure.pure (φ a))) : Follows get χ (m >>= f) n := by
  intro t c t' hm
  obtain ⟨a,u,ha,hfa⟩ := ok_of_bind hm
  rw [h t a u ha]
  exact hf a u c t' hfa

/-- What comes before does not touch that part. -/
theorem after {x : Prog τ ε γ} {f : γ → Prog τ ε α} {u : δ}
    (hx : Follows get (fun _ => u) x (Pure.pure u)) (hf : ∀ c, Follows get φ (f c) n) :
    Follows get φ (x >>= f) n :=
  hx.bind (g := fun _ => n) hf

end Follows

end Xv6Container.Prog
