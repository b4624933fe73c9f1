import Mathlib.Tactic

/-!
# Circular singly linked lists

Which node comes first is a matter of how the circle is written down.
-/

namespace Xv6Container

open Function List

variable {α : Type*} {next next' : α → α} {a b c x y : α} {l l1 l2 : List α}

/-- The links lead from `a` through the nodes of the list to `b`. -/
def Leads (next : α → α) : α → List α → α → Prop
  | a, [], b => next a = b
  | a, x :: l, b => next a = x ∧ Leads next x l b

theorem leads_append : Leads next a (l1 ++ b :: l2) c ↔ Leads next a l1 b ∧ Leads next b l2 c := by
  induction l1 generalizing a with
  | nil => exact Iff.rfl
  | cons x l1 ih =>
    rw [cons_append,Leads,Leads,ih]
    exact and_assoc.symm

theorem Leads.congr (h : Leads next a l b) (heq : ∀ x ∈ a :: l, next' x = next x) :
    Leads next' a l b := by
  induction l generalizing a with
  | nil =>
    rw [Leads,heq a mem_cons_self]
    exact h
  | cons x l ih =>
    refine ⟨by rw [heq a mem_cons_self,h.1],ih h.2 fun y hy => ?_⟩
    exact heq y (mem_cons_of_mem a hy)

theorem Leads.next_eq (h : Leads next a l b) : next a = l.headD b := by
  cases l with
  | nil => exact h
  | cons x l => exact h.1

/-- The links lead through the nodes of the list, and from the last to the first. -/
def Loop (next : α → α) : List α → Prop
  | [] => True
  | a :: l => Leads next a l a

theorem loop_rotate : Loop next (l1 ++ l2) ↔ Loop next (l2 ++ l1) := by
  cases l1 with
  | nil => rw [nil_append,append_nil]
  | cons a s =>
    cases l2 with
    | nil => rw [nil_append,append_nil]
    | cons b t =>
      rw [cons_append,cons_append,Loop,Loop,leads_append,leads_append]
      exact and_comm

theorem Loop.congr (h : Loop next l) (heq : ∀ x ∈ l, next' x = next x) : Loop next' l := by
  cases l with
  | nil => trivial
  | cons a l => exact Leads.congr h heq

theorem Loop.leads (h : Loop next (l1 ++ x :: l2)) : Leads next x (l2 ++ l1) x :=
  loop_rotate.mp h

theorem Loop.next_eq (h : Loop next (l1 ++ x :: l2)) : next x = (l2 ++ l1).headD x :=
  h.leads.next_eq

section Update

variable [DecidableEq α]

theorem Loop.insert (h : Loop next (l1 ++ x :: l2)) (hx : x ∉ l1 ++ l2) (hb : b ∉ l1 ++ x :: l2) :
    Loop (update (update next b (next x)) x b) (l1 ++ x :: b :: l2) := by
  have hlead := h.leads
  have hxb : b ≠ x := by
    rintro rfl
    exact hb (mem_append_right _ mem_cons_self)
  have hnext : ∀ y ∈ l2 ++ l1,
      update (update next b (next x)) x b y = next y := by
    intro y hy
    have hyx : y ≠ x := by
      rintro rfl
      exact hx (List.perm_append_comm.subset hy)
    have hyb : y ≠ b := by
      rintro rfl
      apply hb
      rcases List.mem_append.mp hy with hy | hy
      · exact mem_append_right _ (mem_cons_of_mem x hy)
      · exact mem_append_left _ hy
    rw [update_of_ne hyx,update_of_ne hyb]
  rw [loop_rotate,cons_append,cons_append,Loop]
  refine ⟨update_self _ _ _,?_⟩
  generalize l2 ++ l1 = l at hlead hnext
  cases l with
  | nil =>
    rw [Leads,update_of_ne hxb,update_self]
    exact hlead
  | cons y l =>
    refine ⟨?_,hlead.2.congr hnext⟩
    rw [update_of_ne hxb,update_self]
    exact hlead.1

theorem Loop.remove (h : Loop next (l1 ++ x :: y :: l2)) (hx : x ∉ l1 ++ y :: l2) :
    Loop (update next x (next y)) (l1 ++ x :: l2) := by
  have hlead := h.leads
  have hnext : ∀ z ∈ l2 ++ l1, update next x (next y) z = next z := by
    intro z hz
    apply update_of_ne
    rintro rfl
    apply hx
    rcases List.mem_append.mp hz with hz | hz
    · exact mem_append_right _ (mem_cons_of_mem y hz)
    · exact mem_append_left _ hz
  rw [loop_rotate,cons_append,Loop]
  rw [cons_append] at hlead
  generalize l2 ++ l1 = l at hlead hnext
  cases l with
  | nil =>
    rw [Leads,update_self]
    exact hlead.2
  | cons z l =>
    refine ⟨?_,hlead.2.2.congr hnext⟩
    rw [update_self]
    exact hlead.2.1

end Update

/-- Follow the links from a node up to one that passes the test. -/
def seek (next : α → α) (stop : α → Bool) : ℕ → α → Option α
  | 0, _ => none
  | n + 1, p => if stop p then some p else seek next stop n (next p)

theorem Leads.seek {stop : α → Bool} {n : ℕ} (h : Leads next a l b)
    (hex : ∃ x ∈ a :: l, stop x = true) (hn : l.length < n) :
    ∃ x ∈ a :: l, seek next stop n a = some x ∧ stop x = true := by
  induction n generalizing a l with
  | zero => exact absurd hn (Nat.not_lt_zero _)
  | succ n ih =>
    rw [Xv6Container.seek]
    by_cases ha : stop a = true
    · exact ⟨a,mem_cons_self,if_pos ha,ha⟩
    obtain ⟨x,hx,hstop⟩ := hex
    rcases List.mem_cons.mp hx with rfl | hx
    · exact absurd hstop ha
    · cases l with
      | nil => cases hx
      | cons z l =>
        rw [length_cons] at hn
        obtain ⟨y,hy,hseek,hstop⟩ := ih h.2 ⟨x,hx,hstop⟩ (by omega)
        refine ⟨y,mem_cons_of_mem a hy,?_,hstop⟩
        rw [if_neg ha,h.1,hseek]

theorem Loop.seek {stop : α → Bool} {n : ℕ} (h : Loop next l) (ha : a ∈ l)
    (hex : ∃ x ∈ l, stop x = true) (hn : l.length ≤ n) :
    ∃ x ∈ l, seek next stop n a = some x ∧ stop x = true := by
  obtain ⟨l1,l2,rfl⟩ := append_of_mem ha
  have hperm : (l1 ++ a :: l2).Perm (a :: (l2 ++ l1)) := perm_append_comm
  obtain ⟨x,hx,hstop⟩ := hex
  have hlen := hperm.length_eq
  rw [length_cons] at hlen
  obtain ⟨y,hy,hseek⟩ := h.leads.seek ⟨x,hperm.subset hx,hstop⟩ (n := n) (by omega)
  exact ⟨y,hperm.symm.subset hy,hseek⟩

end Xv6Container
