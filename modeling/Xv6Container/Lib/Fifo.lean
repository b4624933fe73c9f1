import Xv6Container.Lib.Run

/-!
# Bounded first-in first-out queues

The abstract queue: a list of at most `cap` items. A push onto a full list is
refused; what a pop of the empty list answers, and whether it may be called at
all, is the parameter `onEmpty`. A queue that keeps to the list only for the first
`room` items it takes is compared with it run by run.
-/

namespace Xv6Container.Fifo

open Run

variable {α : Type*}

inductive Call (α : Type*)
  | push (x : α)
  | pop

/-- `pushed kept` says whether the queue has taken the item. -/
inductive Reply (α : Type*)
  | pushed (kept : Bool)
  | popped (x : α)
  deriving DecidableEq

/-- One call on the list of queued items, oldest first. -/
def step (cap : ℕ) (onEmpty : Option α) : List α → Call α → Option (List α × Reply α)
  | l, .push x =>
    if l.length < cap then some (l ++ [x], .pushed true) else some (l, .pushed false)
  | x :: l, .pop => some (l, .popped x)
  | [], .pop => onEmpty.map fun e => ([], .popped e)

/-- How many items have been taken. -/
def accepted : List (Reply α) → ℕ
  | [] => 0
  | .pushed true :: rs => accepted rs + 1
  | .pushed false :: rs => accepted rs
  | .popped _ :: rs => accepted rs

variable {cap : ℕ} {onEmpty : Option α} {l : List α}

theorem step_push_of_lt (h : l.length < cap) (x : α) :
    step cap onEmpty l (.push x) = some (l ++ [x], .pushed true) := by
  rw [step,if_pos h]

theorem step_push_of_le (h : cap ≤ l.length) (x : α) :
    step cap onEmpty l (.push x) = some (l, .pushed false) := by
  rw [step,if_neg (by omega)]

theorem accepted_cons (r : Reply α) (rs : List (Reply α)) :
    accepted (r :: rs) = accepted [r] + accepted rs := by
  cases r with
  | popped x => simp [accepted]
  | pushed kept =>
    cases kept with
    | false => simp [accepted]
    | true => simp [accepted,Nat.add_comm]

section Room

variable {σ : Type*} {call : σ → Call α → Option (σ × Reply α)} {R : ℕ → σ → List α → Prop}
  (room : ℕ) {n : ℕ} {s : σ} {l' : List α} {calls : List (Call α)} {replies : List (Reply α)}

/-- A queue with `n` items taken so far that follows the list call by call while there is room
follows it through the run. -/
theorem follows (hcall : ∀ n s l c l' r, R n s l → step cap onEmpty l c = some (l', r) →
      n + accepted [r] ≤ room → ∃ s', call s c = some (s', r) ∧ R (n + accepted [r]) s' l')
    (h : R n s l) (hlist : trace (step cap onEmpty) l calls = some (l', replies))
    (hroom : n + accepted replies ≤ room) :
    ∃ s', trace call s calls = some (s', replies) ∧ R (n + accepted replies) s' l' := by
  induction calls generalizing n s l replies with
  | nil =>
    cases hlist
    exact ⟨s,rfl,h⟩
  | cons c calls ih =>
    obtain ⟨l₁,r,rs,hc,hrest,rfl⟩ := trace_cons.mp hlist
    rw [accepted_cons,← Nat.add_assoc] at hroom ⊢
    obtain ⟨s₁,hs,h₁⟩ := hcall n s l c l₁ r h hc (by omega)
    obtain ⟨s',hs',h'⟩ := ih h₁ hrest hroom
    exact ⟨s',trace_cons.mpr ⟨s₁,r,rs,hs,hs',rfl⟩,h'⟩

/-- Once it has taken an item too many, the run ends in no good state. -/
theorem not_follows {G : σ → Prop}
    (hcall : ∀ n s l c l' r, R n s l → step cap onEmpty l c = some (l', r) →
      n + accepted [r] ≤ room → ∃ s', call s c = some (s', r) ∧ R (n + accepted [r]) s' l')
    (hfull : ∀ s l c l' s', R room s l → step cap onEmpty l c = some (l', .pushed true) →
      call s c = some (s', .pushed true) → ¬ G s')
    (hbad : ∀ s c s' r, ¬ G s → call s c = some (s', r) → ¬ G s')
    (h : R n s l) (hn : n ≤ room)
    (hlist : trace (step cap onEmpty) l calls = some (l', replies))
    (hroom : room < n + accepted replies) {s' : σ}
    (hrun : trace call s calls = some (s', replies)) : ¬ G s' := by
  have hkeep : ∀ calls s rs, ¬ G s → trace call s calls = some (s', rs) → ¬ G s' := by
    intro calls
    induction calls with
    | nil =>
      intro s rs hs hrun
      cases hrun
      exact hs
    | cons c calls ih =>
      intro s rs hs hrun
      obtain ⟨s₁,r,rs',hc,hrest,-⟩ := trace_cons.mp hrun
      exact ih s₁ rs' (hbad s c s₁ r hs hc) hrest
  induction calls generalizing n s l replies with
  | nil =>
    cases hlist
    exact absurd hroom (not_lt.mpr hn)
  | cons c calls ih =>
    obtain ⟨l₁,r,rs,hc,hrest,rfl⟩ := trace_cons.mp hlist
    obtain ⟨s₁,r',rs',hs,hs',heq⟩ := trace_cons.mp hrun
    obtain ⟨rfl,rfl⟩ := List.cons.inj heq
    rw [accepted_cons,← Nat.add_assoc] at hroom
    by_cases hle : n + accepted [r] ≤ room
    · obtain ⟨s₂,hs2,h₂⟩ := hcall n s l c l₁ r h hc hle
      rw [hs] at hs2
      cases hs2
      exact ih h₂ hle hrest hroom hs'
    -- the item that finds no room
    have hr : r = .pushed true ∧ n = room := by
      cases r with
      | popped x => exact absurd hn hle
      | pushed kept =>
        cases kept with
        | false => exact absurd hn hle
        | true => exact ⟨rfl,le_antisymm hn (by simpa [accepted] using hle)⟩
    obtain ⟨rfl,rfl⟩ := hr
    exact hkeep calls s₁ rs (hfull s l c l₁ s₁ h hc hs) hs'

end Room

end Xv6Container.Fifo
