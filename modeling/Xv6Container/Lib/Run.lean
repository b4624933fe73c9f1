import Mathlib.Tactic

/-!
# Runs of partial step functions

A transition system is given by a partial function `step : σ → α → Option σ`:
`none` says that the action is not possible (or has no defined result) in that
state. `exec` runs a list of actions.
-/

namespace Xv6Container.Run

variable {σ α : Type*} {step : σ → α → Option σ}

/-- Run the actions one after the other. -/
def exec (step : σ → α → Option σ) : σ → List α → Option σ
  | s, [] => some s
  | s, a :: as => (step s a).bind fun s' => exec step s' as

/-- Every action of the run satisfies `ok` in the state it is taken from. -/
def Meets (step : σ → α → Option σ) (ok : σ → α → Prop) : σ → List α → Prop
  | _, [] => True
  | s, a :: as => ok s a ∧ ∀ s', step s a = some s' → Meets step ok s' as

/-- `P` holds in every state of the run, the first and the last one included. -/
def Throughout (step : σ → α → Option σ) (P : σ → Prop) : σ → List α → Prop
  | s, [] => P s
  | s, a :: as => P s ∧ ∀ s', step s a = some s' → Throughout step P s' as

/-- A run is checked by executing it. -/
instance decidableMeets (ok : σ → α → Prop) [∀ s a, Decidable (ok s a)] :
    ∀ s as, Decidable (Meets step ok s as)
  | _, [] => isTrue trivial
  | s, a :: as =>
    match h : step s a with
    | none => decidable_of_iff (ok s a) (by simp [Meets, h])
    | some s' =>
      have := decidableMeets ok s' as
      decidable_of_iff (ok s a ∧ Meets step ok s' as) (by simp [Meets, h])

@[simp] theorem exec_nil (s : σ) : exec step s [] = some s := rfl

theorem exec_cons {s t : σ} {a : α} {as : List α} :
    exec step s (a :: as) = some t ↔ ∃ s', step s a = some s' ∧ exec step s' as = some t := by
  simp only [exec,Option.bind_eq_some_iff]

theorem exec_append {s t : σ} {as bs : List α} :
    exec step s (as ++ bs) = some t ↔
      ∃ s', exec step s as = some s' ∧ exec step s' bs = some t := by
  induction as generalizing s with
  | nil => simp
  | cons a as ih =>
    rw [List.cons_append,exec_cons]
    constructor
    · rintro ⟨s',ha,h⟩
      obtain ⟨s'',has,hbs⟩ := ih.mp h
      exact ⟨s'',exec_cons.mpr ⟨s',ha,has⟩,hbs⟩
    · rintro ⟨s'',has,hbs⟩
      obtain ⟨s',ha,has⟩ := exec_cons.mp has
      exact ⟨s',ha,ih.mpr ⟨s'',has,hbs⟩⟩

theorem exec_invariant {I : σ → Prop} (hstep : ∀ s a s', I s → step s a = some s' → I s')
    {s t : σ} {as : List α} (hs : I s) (h : exec step s as = some t) : I t := by
  induction as generalizing s with
  | nil => cases h; exact hs
  | cons a as ih =>
    obtain ⟨s',ha,hrest⟩ := exec_cons.mp h
    exact ih (hstep s a s' hs ha) hrest

theorem exec_simulation {τ : Type*} {step' : τ → α → Option τ} (R : σ → τ → Prop)
    (hstep : ∀ s t a s', R s t → step s a = some s' → ∃ t', step' t a = some t' ∧ R s' t')
    {s s' : σ} {t : τ} {as : List α} (hR : R s t) (h : exec step s as = some s') :
    ∃ t', exec step' t as = some t' ∧ R s' t' := by
  induction as generalizing s t with
  | nil =>
    cases h
    exact ⟨t,rfl,hR⟩
  | cons a as ih =>
    obtain ⟨s₁,ha,hrest⟩ := exec_cons.mp h
    obtain ⟨t1,ht,hR1⟩ := hstep s t a s₁ hR ha
    obtain ⟨t',ht',hR'⟩ := ih hR1 hrest
    exact ⟨t',exec_cons.mpr ⟨t1,ht,ht'⟩,hR'⟩

theorem exec_invariant_of_meets {I : σ → Prop} {ok : σ → α → Prop}
    (hstep : ∀ s a s', I s → ok s a → step s a = some s' → I s')
    {s t : σ} {as : List α} (hs : I s) (hok : Meets step ok s as)
    (h : exec step s as = some t) : I t := by
  induction as generalizing s with
  | nil => cases h; exact hs
  | cons a as ih =>
    obtain ⟨s',ha,hrest⟩ := exec_cons.mp h
    exact ih (hstep s a s' hs hok.1 ha) (hok.2 s' ha) hrest

theorem meets_of_forall {ok : σ → α → Prop} (hok : ∀ s a, ok s a) (s : σ) (as : List α) :
    Meets step ok s as := by
  induction as generalizing s with
  | nil => trivial
  | cons a as ih => exact ⟨hok s a,fun s' _ => ih s'⟩

theorem Meets.mono {ok ok' : σ → α → Prop} (hle : ∀ s a, ok s a → ok' s a) {s : σ}
    {as : List α} (h : Meets step ok s as) : Meets step ok' s as := by
  induction as generalizing s with
  | nil => trivial
  | cons a as ih => exact ⟨hle s a h.1,fun s' ha => ih (h.2 s' ha)⟩

theorem Meets.of_invariant {I : σ → Prop} {ok ok' : σ → α → Prop}
    (hle : ∀ s a, I s → ok s a → ok' s a)
    (hstep : ∀ s a s', I s → ok s a → step s a = some s' → I s') {s : σ} (hs : I s) {as : List α}
    (h : Meets step ok s as) : Meets step ok' s as := by
  induction as generalizing s with
  | nil => trivial
  | cons a as ih =>
    exact ⟨hle s a hs h.1,fun s' ha => ih (hstep s a s' hs h.1 ha) (h.2 s' ha)⟩

/-- A property that a step keeps exactly under a condition holds throughout a run exactly if all
steps meet the condition. -/
theorem throughout_iff_meets {I P : σ → Prop} {ok : σ → α → Prop}
    (hI : ∀ s a s', I s → step s a = some s' → I s')
    (hP : ∀ s a s', I s → P s → step s a = some s' → (P s' ↔ ok s a))
    {s t : σ} {as : List α} (hs : I s) (hPs : P s) (h : exec step s as = some t) :
    Throughout step P s as ↔ Meets step ok s as := by
  induction as generalizing s with
  | nil => exact iff_of_true hPs trivial
  | cons a as ih =>
    obtain ⟨s₁,hstep,hrest⟩ := exec_cons.mp h
    have hone : ∀ {Q : σ → Prop}, (∀ s', step s a = some s' → Q s') ↔ Q s₁ := by
      intro Q
      refine ⟨fun hall => hall s₁ hstep,fun hQ s' hs' => ?_⟩
      rw [← Option.some.inj (hstep.symm.trans hs')]
      exact hQ
    rw [Throughout,Meets,hone,hone,and_iff_right hPs]
    constructor
    · intro hall
      have hP1 : P s₁ := by
        cases as with
        | nil => exact hall
        | cons b as => exact hall.1
      exact ⟨(hP s a s₁ hs hPs hstep).mp hP1,(ih (hI s a s₁ hs hstep) hP1 hrest).mp hall⟩
    · intro hmeets
      have hP1 : P s₁ := (hP s a s₁ hs hPs hstep).mpr hmeets.1
      exact (ih (hI s a s₁ hs hstep) hP1 hrest).mpr hmeets.2

section Replies

variable {τ ρ : Type*} {call : σ → α → Option (σ × ρ)} {call' : τ → α → Option (τ × ρ)}

/-- Make the calls one after the other, and keep what they return. -/
def trace (call : σ → α → Option (σ × ρ)) : σ → List α → Option (σ × List ρ)
  | s, [] => some (s, [])
  | s, a :: as => (call s a).bind fun r => (trace call r.1 as).map fun t => (t.1, r.2 :: t.2)

theorem trace_cons_of_eq {s s' : σ} {a : α} {r : ρ} (h : call s a = some (s', r)) (as : List α) :
    trace call s (a :: as) = (trace call s' as).map fun t => (t.1, r :: t.2) := by
  rw [trace,h]
  rfl

theorem trace_cons {s t : σ} {a : α} {as : List α} {rs : List ρ} :
    trace call s (a :: as) = some (t, rs) ↔
      ∃ s' r rs', call s a = some (s', r) ∧ trace call s' as = some (t, rs') ∧ rs = r :: rs' := by
  simp only [trace,Option.bind_eq_some_iff,Option.map_eq_some_iff,Prod.exists,Prod.mk.injEq]
  constructor
  · rintro ⟨s',r,hcall,t',rs',htrace,rfl,rfl⟩
    exact ⟨s',r,rs',hcall,htrace,rfl⟩
  · rintro ⟨s',r,rs',hcall,htrace,rfl⟩
    exact ⟨s',r,hcall,t,rs',htrace,rfl,rfl⟩

end Replies

end Xv6Container.Run
