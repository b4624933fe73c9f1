import Mathlib.Tactic

/-!
# Programs that change a state and can stop

`Prog σ ε α` returns a value or stops for a reason of type `ε`. `wp E m s Q` says that `m`,
started in `s`, returns with `Q` or stops for a reason in `E`.
-/

namespace Xv6Container

/-- Programs over states `σ` that return an `α` or stop with an `ε`. -/
def Prog (σ ε α : Type) : Type := σ → Except ε (α × σ)

namespace Prog

variable {σ τ ε α β : Type}

instance : Monad (Prog σ ε) where
  pure a := fun s => .ok (a, s)
  bind m f := fun s =>
    match m s with
    | .ok (a, s') => f a s'
    | .error e => .error e

/-- A value computed from the state. -/
def read (f : σ → α) : Prog σ ε α := fun s => .ok (f s, s)

/-- Change the state. -/
def modify (f : σ → σ) : Prog σ ε Unit := fun s => .ok ((), f s)

/-- Do not go on. -/
def stop (e : ε) : Prog σ ε α := fun _ => .error e

/-- Run a program on the part `get t` of the state `t`. -/
def zoom (get : τ → σ) (put : τ → σ → τ) (m : Prog σ ε α) : Prog τ ε α := fun t =>
  match m (get t) with
  | .ok (a, s) => .ok (a, put t s)
  | .error e => .error e

/-- What the program returns, if it does. -/
def result (m : Prog σ ε α) (s : σ) : Option (α × σ) :=
  match m s with
  | .ok r => some r
  | .error _ => none

/-- Why the program stops, if it does. -/
def reason (m : Prog σ ε α) (s : σ) : Option ε :=
  match m s with
  | .ok _ => none
  | .error e => some e

/-- Started in `s`, the program returns with `Q` or stops for a reason in `E`. -/
def wp (E : ε → Prop) (m : Prog σ ε α) (s : σ) (Q : α → σ → Prop) : Prop :=
  match m s with
  | .ok (a, s') => Q a s'
  | .error e => E e

variable {E : ε → Prop} {m : Prog σ ε α} {s s' : σ} {Q R : α → σ → Prop} {S : β → σ → Prop}

@[simp] theorem wp_pure {a : α} : wp E (pure a) s Q ↔ Q a s := Iff.rfl

@[simp] theorem wp_read {f : σ → α} : wp E (read f) s Q ↔ Q (f s) s := Iff.rfl

@[simp] theorem wp_modify {f : σ → σ} {Q : Unit → σ → Prop} :
    wp E (modify f) s Q ↔ Q () (f s) := Iff.rfl

@[simp] theorem wp_stop {e : ε} : wp E (stop e) s Q ↔ E e := Iff.rfl

@[simp] theorem wp_bind {f : α → Prog σ ε β} :
    wp E (m >>= f) s S ↔ wp E m s fun a s' => wp E (f a) s' S := by
  simp only [wp,bind]
  cases m s <;> rfl

@[simp] theorem wp_zoom {get : τ → σ} {put : τ → σ → τ} {t : τ} {Q : α → τ → Prop} :
    wp E (zoom get put m) t Q ↔ wp E m (get t) fun a s => Q a (put t s) := by
  simp only [wp,zoom]
  cases m (get t) <;> rfl

theorem wp_ite {c : Prop} [Decidable c] {m n : Prog σ ε α} (hm : c → wp E m s Q)
    (hn : ¬ c → wp E n s Q) : wp E (if c then m else n) s Q := by
  split
  · next h => exact hm h
  · next h => exact hn h

theorem wp.mono (h : wp E m s Q) (hQ : ∀ a s', Q a s' → R a s') : wp E m s R := by
  simp only [wp] at h ⊢
  cases hm : m s with
  | ok r => rw [hm] at h; exact hQ _ _ h
  | error e => rw [hm] at h; exact h

theorem wp.bind {f : α → Prog σ ε β} (h : wp E m s Q) (hf : ∀ a s', Q a s' → wp E (f a) s' S) :
    wp E (m >>= f) s S :=
  wp_bind.mpr (h.mono hf)

theorem wp.bind_bind {γ : Type} {n : α → Prog σ ε β} {f : β → Prog σ ε γ}
    {U : γ → σ → Prop} (h : wp E (m >>= n) s S) (hf : ∀ b s', S b s' → wp E (f b) s' U) :
    wp E (m >>= fun a => n a >>= f) s U := by
  simp only [wp_bind] at h ⊢
  exact h.mono fun a s' h' => h'.mono hf

theorem wp.of_ok {a : α} (h : wp E m s Q) (hm : m s = .ok (a, s')) : Q a s' := by
  simp only [wp,hm] at h
  exact h

theorem wp.of_error {e : ε} (h : wp E m s Q) (hm : m s = .error e) : E e := by
  simp only [wp,hm] at h
  exact h

theorem wp.with_ok (h : wp E m s Q) : wp E m s fun a t => m s = .ok (a, t) ∧ Q a t := by
  cases hm : m s with
  | ok r =>
    simp only [wp,hm,true_and]
    exact h.of_ok hm
  | error e =>
    simp only [wp,hm]
    exact h.of_error hm

theorem wp.returns (h : wp (fun _ => False) m s Q) : ∃ a s', m s = .ok (a, s') ∧ Q a s' := by
  cases hm : m s with
  | ok r => exact ⟨r.1,r.2,rfl,h.of_ok hm⟩
  | error e => exact (h.of_error hm).elim

theorem wp_forM {f : α → Prog σ ε PUnit} (I : List α → σ → Prop)
    (hf : ∀ a l s, I (a :: l) s → wp E (f a) s fun _ s' => I l s') (l : List α) (h : I l s) :
    wp E (l.forM f) s fun _ s' => I [] s' := by
  induction l generalizing s with
  | nil => exact h
  | cons a l ih => exact (hf a l s h).bind fun _ _ h' => ih h'

theorem ok_of_bind {f : α → Prog σ ε β} {b : β} (h : (m >>= f) s = .ok (b, s')) :
    ∃ a u, m s = .ok (a, u) ∧ f a u = .ok (b, s') := by
  simp only [Bind.bind] at h
  cases hm : m s with
  | error e =>
    rw [hm] at h
    cases h
  | ok r =>
    rw [hm] at h
    exact ⟨r.1,r.2,rfl,h⟩

theorem error_of_reason {e : ε} (h : reason m s = some e) : m s = .error e := by
  rw [reason] at h
  cases hm : m s with
  | ok r =>
    rw [hm] at h
    cases h
  | error e' =>
    rw [hm] at h
    exact congrArg Except.error (Option.some.inj h)

theorem ok_of_result {r : α × σ} (h : result m s = some r) : m s = .ok r := by
  rw [result] at h
  cases hm : m s with
  | ok r' =>
    rw [hm] at h
    exact congrArg Except.ok (Option.some.inj h)
  | error e =>
    rw [hm] at h
    cases h

theorem bind_of_ok {f : α → Prog σ ε β} {a : α} {t : σ} (h : m s = .ok (a, t)) :
    (m >>= f) s = f a t := by
  simp only [Bind.bind,h]

/-- Whenever the program starts in `P` and returns, it ends in `P` with an `ok` value. -/
def Keeps (P : σ → Prop) (m : Prog σ ε α) (ok : α → Prop) : Prop :=
  ∀ s a t, P s → m s = .ok (a, t) → P t ∧ ok a

section Keeps

variable {P : σ → Prop} {ok : α → Prop} {ok' : β → Prop}

theorem Keeps.bind {f : α → Prog σ ε β} (h : Keeps P m ok)
    (hf : ∀ a, ok a → Keeps P (f a) ok') : Keeps P (m >>= f) ok' := by
  intro s b t hs hb
  obtain ⟨a,u,ha,hfa⟩ := ok_of_bind hb
  obtain ⟨hu,hok⟩ := h s a u hs ha
  exact hf a hok u b t hu hfa

theorem Keeps.pure {a : α} (h : ok a) : Keeps P (Pure.pure a : Prog σ ε α) ok := by
  intro s b t hs hb
  cases hb
  exact ⟨hs,h⟩

theorem Keeps.read {f : σ → α} : Keeps P (Prog.read f : Prog σ ε α) fun _ => True := by
  intro s b t hs hb
  cases hb
  exact ⟨hs,trivial⟩

theorem Keeps.modify {f : σ → σ} (h : ∀ s, P s → P (f s)) :
    Keeps P (Prog.modify f : Prog σ ε Unit) fun _ => True := by
  intro s b t hs hb
  cases hb
  exact ⟨h s hs,trivial⟩

theorem Keeps.stop {e : ε} : Keeps P (Prog.stop e : Prog σ ε α) ok := by
  intro s b t hs hb
  cases hb

theorem Keeps.ite {c : Prop} [Decidable c] {m n : Prog σ ε α} (hm : c → Keeps P m ok)
    (hn : ¬ c → Keeps P n ok) : Keeps P (if c then m else n) ok := by
  split
  · next h => exact hm h
  · next h => exact hn h

theorem ok_of_zoom {get : σ → τ} {put : σ → τ → σ} {n : Prog τ ε α} {s t : σ} {a : α}
    (h : Prog.zoom get put n s = .ok (a, t)) : ∃ u, n (get s) = .ok (a, u) ∧ t = put s u := by
  simp only [Prog.zoom] at h
  cases hn : n (get s) with
  | error e =>
    rw [hn] at h
    cases h
  | ok r =>
    rw [hn] at h
    cases h
    exact ⟨r.2,rfl,rfl⟩

theorem Keeps.zoom {get : σ → τ} {put : σ → τ → σ} (h : ∀ s u, P s → P (put s u))
    (n : Prog τ ε α) : Keeps P (Prog.zoom get put n) fun _ => True := by
  intro s a t hs ha
  obtain ⟨u,-,rfl⟩ := ok_of_zoom ha
  exact ⟨h s u hs,trivial⟩

theorem Keeps.forM {f : α → Prog σ ε PUnit} (h : ∀ a, Keeps P (f a) fun _ => True) (l : List α) :
    Keeps P (l.forM f) fun _ => True := by
  induction l with
  | nil => exact .pure trivial
  | cons a l ih => exact (h a).bind fun _ _ => ih

end Keeps

end Prog

end Xv6Container
