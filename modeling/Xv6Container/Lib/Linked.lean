import Mathlib.Tactic

/-!
# Circular doubly linked lists

A list segment is the part of the links between two nodes; taking a node out and putting a node
behind the head are what they are on lists.
-/

namespace Xv6Container

open Function List

/-- The fields `next` and `prev` of every node. -/
structure Links (α : Type) where
  next : α → α
  prev : α → α

namespace Links

variable {α : Type} {L L' : Links α} {a b c h : α} {l l1 l2 : List α}

/-- The nodes `l` lead from `a` to `b`, and back. -/
def Segment (L : Links α) : α → List α → α → Prop
  | a, [], b => L.next a = b ∧ L.prev b = a
  | a, x :: l, b => L.next a = x ∧ L.prev x = a ∧ Segment L x l b

theorem segment_append : L.Segment a (l1 ++ b :: l2) c ↔ L.Segment a l1 b ∧ L.Segment b l2 c := by
  induction l1 generalizing a with
  | nil => exact and_assoc.symm
  | cons x l1 ih =>
    rw [cons_append,Segment,Segment,ih]
    tauto

theorem Segment.congr (hs : L.Segment a l b) (hn : ∀ x ∈ a :: l, L'.next x = L.next x)
    (hp : ∀ x ∈ l ++ [b], L'.prev x = L.prev x) : L'.Segment a l b := by
  induction l generalizing a with
  | nil =>
    rw [Segment,hn a mem_cons_self,hp b mem_cons_self]
    exact hs
  | cons x l ih =>
    obtain ⟨hnext,hprev,hrest⟩ := hs
    refine ⟨by rw [hn a mem_cons_self,hnext],?_,ih hrest ?_ ?_⟩
    · rw [hp x (mem_append_left _ mem_cons_self),hprev]
    · intro y hy
      exact hn y (mem_cons_of_mem a hy)
    · intro y hy
      exact hp y (mem_cons_of_mem x hy)

theorem Segment.prev_mem (hs : L.Segment a l b) : L.prev b ∈ a :: l := by
  induction l generalizing a with
  | nil => rw [hs.2]; exact mem_cons_self
  | cons x l ih => exact mem_cons_of_mem a (ih hs.2.2)

theorem Segment.retarget (hs : L.Segment a l b) (hnodup : (a :: l).Nodup)
    (hn : ∀ x ∈ a :: l, x ≠ L.prev b → L'.next x = L.next x)
    (hp : ∀ x ∈ l, L'.prev x = L.prev x) (hlast : L'.next (L.prev b) = c)
    (hback : L'.prev c = L.prev b) : L'.Segment a l c := by
  induction l generalizing a with
  | nil =>
    rw [hs.2] at hlast hback
    exact ⟨hlast,hback⟩
  | cons x l ih =>
    obtain ⟨hnext,hprev,hrest⟩ := hs
    have hne : a ≠ L.prev b := by
      intro he
      exact (List.nodup_cons.mp hnodup).1 (he ▸ hrest.prev_mem)
    refine ⟨by rw [hn a mem_cons_self hne,hnext],?_,ih hrest hnodup.of_cons ?_ ?_⟩
    · rw [hp x mem_cons_self,hprev]
    · intro y hy
      exact hn y (mem_cons_of_mem a hy)
    · intro y hy
      exact hp y (mem_cons_of_mem x hy)

/-- The same nodes, followed backwards. -/
def swap (L : Links α) : Links α := ⟨L.prev, L.next⟩

theorem Segment.swap (hs : L.Segment a l b) : L.swap.Segment b l.reverse a := by
  induction l generalizing a with
  | nil => exact ⟨hs.2,hs.1⟩
  | cons x l ih =>
    rw [reverse_cons]
    exact segment_append.mpr ⟨ih hs.2.2,hs.2.1,hs.1⟩

/-- From `h` around to `h` through the nodes `l`, each once. -/
structure Circular (L : Links α) (h : α) (l : List α) : Prop where
  nodup : (h :: l).Nodup
  segment : L.Segment h l h

theorem Circular.swap (hc : L.Circular h l) : L.swap.Circular h l.reverse := by
  refine ⟨?_,hc.segment.swap⟩
  have := hc.nodup
  rw [nodup_cons] at this ⊢
  rw [mem_reverse,nodup_reverse]
  exact this

theorem Circular.prev_next (hc : L.Circular h l) (ha : a ∈ h :: l) : L.prev (L.next a) = a := by
  have hstep : ∀ {l : List α} {x y : α}, L.Segment x l y → a ∈ x :: l → L.prev (L.next a) = a := by
    intro l
    induction l with
    | nil =>
      intro x y hs hmem
      rw [List.mem_singleton.mp hmem,hs.1,hs.2]
    | cons z l ih =>
      intro x y hs hmem
      rcases List.mem_cons.mp hmem with rfl | hmem
      · rw [hs.1,hs.2.1]
      · exact ih hs.2.2 hmem
  exact hstep hc.segment ha

variable [DecidableEq α]

def setNext (L : Links α) (a b : α) : Links α := { L with next := update L.next a b }

def setPrev (L : Links α) (a b : α) : Links α := { L with prev := update L.prev a b }

/-- `b->next->prev = b->prev; b->prev->next = b->next;` -/
def unlink (L : Links α) (b : α) : Links α :=
  let L := L.setPrev (L.next b) (L.prev b)
  L.setNext (L.prev b) (L.next b)

/-- `b->next = h->next; b->prev = h; h->next->prev = b; h->next = b;` -/
def pushFront (L : Links α) (h b : α) : Links α :=
  let L := L.setNext b (L.next h)
  let L := L.setPrev b h
  let L := L.setPrev (L.next h) b
  L.setNext h b

theorem unlink_next (hb : L.prev (L.next b) = b) (hne : L.prev b ≠ b) :
    (L.unlink b).next = update L.next (L.prev b) (L.next b) ∧
      (L.unlink b).prev = update L.prev (L.next b) (L.prev b) := by
  have hsame : L.next b ≠ b := by
    intro he
    rw [he] at hb
    exact hne hb
  simp only [unlink,setNext,setPrev,update_of_ne hsame.symm,and_self]

theorem Circular.unlink (hc : L.Circular h (l1 ++ b :: l2)) :
    (L.unlink b).Circular h (l1 ++ l2) := by
  have hnodup : (h :: l1 ++ b :: l2).Nodup := hc.nodup
  obtain ⟨hfirst,hsecond⟩ := segment_append.mp hc.segment
  obtain ⟨hleft,hright,hdisj⟩ := nodup_append'.mp hnodup
  have hmem : L.prev b ∈ h :: l1 := hfirst.prev_mem
  have hne : L.prev b ≠ b := fun he => hdisj (he ▸ hmem) mem_cons_self
  obtain ⟨hnext,hprev⟩ := unlink_next (hc.prev_next (a := b) (by simp)) hne
  refine ⟨?_,?_⟩
  · exact (hnodup.sublist ((sublist_cons_self b l2).append_left (h :: l1)))
  -- the first part now leads to the node behind `b`
  have hto : (L.unlink b).Segment h l1 (L.next b) := by
    apply hfirst.retarget hleft
    · intro x _ hx
      rw [hnext,update_of_ne hx]
    · intro x hx
      rw [hprev,update_of_ne]
      rintro rfl
      cases l2 with
      | nil =>
        rw [hsecond.1] at hx
        exact (List.nodup_cons.mp hleft).1 hx
      | cons y l2 =>
        rw [hsecond.1] at hx
        exact hdisj (mem_cons_of_mem h hx) (by simp)
    · rw [hnext,update_self]
    · rw [hprev,update_self]
  cases l2 with
  | nil =>
    rw [hsecond.1] at hto
    rwa [append_nil]
  | cons y l2 =>
    obtain ⟨hy,hby,hrest⟩ := hsecond
    rw [hy] at hto hprev
    refine segment_append.mpr ⟨hto,hrest.congr ?_ ?_⟩
    · intro x hx
      rw [hnext,update_of_ne]
      rintro rfl
      exact hdisj hmem (mem_cons_of_mem b hx)
    · intro x hx
      rw [hprev,update_of_ne]
      rintro rfl
      rcases List.mem_append.mp hx with hx | hx
      · exact (List.nodup_cons.mp hright.of_cons).1 hx
      · rw [mem_singleton] at hx
        exact hdisj mem_cons_self (by simp [hx])

theorem Circular.pushFront (hc : L.Circular h l) (hb : b ∉ h :: l) :
    (L.pushFront h b).Circular h (b :: l) := by
  obtain ⟨hbh,hbl⟩ := not_or.mp (fun hm => hb (List.mem_cons.mpr hm))
  obtain ⟨hhl,hl⟩ := List.nodup_cons.mp hc.nodup
  have hnext : (L.pushFront h b).next =
      update (update L.next b (L.next h)) h b := rfl
  have hprev : (L.pushFront h b).prev =
      update (update L.prev b h) (L.next h) b := by
    simp only [Links.pushFront,setNext,setPrev,update_of_ne (Ne.symm hbh)]
  have hself : L.next h ≠ b := by
    intro he
    cases l with
    | nil => exact hbh (he.symm.trans hc.segment.1)
    | cons x l => exact hbl (by rw [← he,hc.segment.1]; exact mem_cons_self)
  refine ⟨?_,?_,?_,?_⟩
  · simp only [nodup_cons,mem_cons,not_or]
    exact ⟨⟨Ne.symm hbh,hhl⟩,hbl,hl⟩
  · rw [hnext,update_self]
  · rw [hprev,update_of_ne hself.symm,update_self]
  cases l with
  | nil =>
    obtain ⟨hn,-⟩ := hc.segment
    rw [Segment,hnext,hprev,hn,update_of_ne hbh,update_self,update_self]
    exact ⟨rfl,rfl⟩
  | cons x l =>
    obtain ⟨hn,-,hrest⟩ := hc.segment
    refine ⟨?_,?_,hrest.congr ?_ ?_⟩
    · rw [hnext,update_of_ne hbh,update_self,hn]
    · rw [hprev,hn,update_self]
    · intro y hy
      have hyh : y ≠ h := fun he => hhl (he ▸ hy)
      have hyb : y ≠ b := fun he => hbl (he ▸ hy)
      rw [hnext,update_of_ne hyh,update_of_ne hyb]
    · intro y hy
      rcases List.mem_append.mp hy with hy | hy
      · have hyx : y ≠ x := fun he => (List.nodup_cons.mp hl).1 (he ▸ hy)
        have hyb : y ≠ b := fun he => hbl (he ▸ mem_cons_of_mem x hy)
        rw [hprev,hn,update_of_ne hyx,update_of_ne hyb]
      · have hyx : h ≠ x := fun he => hhl (he ▸ mem_cons_self)
        rw [List.mem_singleton.mp hy,hprev,hn,update_of_ne hyx,update_of_ne (Ne.symm hbh)]

/-- `for (; a != h; a = step(a)) if (test(a)) return a;`, for at most `fuel` nodes. -/
def find (step : α → α) (h : α) (test : α → Bool) : ℕ → α → Option α
  | 0, _ => none
  | fuel + 1, a =>
    if a = h then none
    else if test a then some a
    else find step h test fuel (step a)

theorem Segment.find (test : α → Bool) {fuel : ℕ} (hs : L.Segment a l h) (hh : h ∉ l)
    (hfuel : l.length < fuel) : Links.find L.next h test fuel (L.next a) = l.find? test := by
  induction l generalizing a fuel with
  | nil =>
    obtain ⟨fuel,rfl⟩ := Nat.exists_eq_add_of_lt hfuel
    rw [hs.1]
    simp [Links.find]
  | cons x l ih =>
    cases fuel with
    | zero => exact absurd hfuel (Nat.not_lt_zero _)
    | succ fuel =>
      obtain ⟨hnext,-,hrest⟩ := hs
      have hxh : x ≠ h := fun he => hh (he ▸ mem_cons_self)
      rw [hnext,Links.find,if_neg hxh,find?_cons]
      cases htest : test x with
      | true => rfl
      | false =>
        exact ih hrest (fun hm => hh (mem_cons_of_mem x hm)) (Nat.lt_of_succ_lt_succ hfuel)

theorem Circular.find_next (hc : L.Circular h l) (test : α → Bool) {fuel : ℕ}
    (hfuel : l.length < fuel) : Links.find L.next h test fuel (L.next h) = l.find? test :=
  hc.segment.find test (List.nodup_cons.mp hc.nodup).1 hfuel

theorem Circular.find_prev (hc : L.Circular h l) (test : α → Bool) {fuel : ℕ}
    (hfuel : l.length < fuel) : Links.find L.prev h test fuel (L.prev h) = l.reverse.find? test :=
  hc.swap.find_next test (by rwa [length_reverse])

end Links

end Xv6Container
