import Xv6Container.Lib.Slots
import Xv6Container.Proc.Members

/-! # The container table as a set of ids -/

namespace Xv6Container.Tables

open Run Slots List Function

def ids (s : Tables) (i : CSlot) : Option ℤ :=
  if s.location i then some (s.container i).cid else none

/-- The calls that make and remove containers. -/
inductive IdCall
  | create (c : ℤ)
  | destroy (c : ℤ)

def IdCall.id : IdCall → ℤ
  | create c | destroy c => c

def IdCall.run (s : Tables) : IdCall → Tables × ℤ
  | create c => s.createContainer c
  | destroy c => s.destroyContainer c

/-- What the call is to do to a set of at most 100 ids, and its return value. -/
def IdCall.spec (S : Finset ℤ) : IdCall → Finset ℤ × ℤ
  | create c => if c ∉ S ∧ S.card < NCONT then (insert c S, c) else (S, -1)
  | destroy c => if c ∈ S then (S.erase c, 1) else (S, -1)

def IdCall.HasRoom (S : Finset ℤ) : IdCall → Prop
  | create c => c ∈ S ∨ S.card < NCONT
  | destroy _ => True

def runIds (s : Tables) (calls : List IdCall) : Tables := calls.foldl (fun s a => (a.run s).1) s

variable {s : Tables} {i : CSlot} {c : ℤ}

theorem ids_of_findLive (h : s.findLive c = some i) : s.ids i = some c := by
  obtain ⟨hloc,hcid⟩ := findLive_some h
  rw [ids,if_pos hloc,hcid]

theorem findLive_eq_none_iff : s.findLive c = none ↔ c ∉ elems s.ids := by
  constructor
  · intro h hc
    obtain ⟨i,hi⟩ := mem_elems.mp hc
    rw [ids] at hi
    split at hi
    · next hloc => exact findLive_none h hloc (Option.some.inj hi)
    · cases hi
  · intro h
    cases hf : s.findLive c with
    | none => rfl
    | some i => exact absurd (mem_elems.mpr ⟨i,ids_of_findLive hf⟩) h

theorem ids_of_freeSlot (h : s.freeSlot = some i) : s.ids i = none := by
  rw [ids,if_neg (by rw [freeSlot_some h]; exact Bool.false_ne_true)]

theorem freeSlot_eq_none_iff : s.freeSlot = none ↔ ∀ i, s.ids i ≠ none := by
  rw [freeSlot,find?_eq_none]
  refine ⟨fun h i => ?_,fun h i _ => ?_⟩
  · have hi := h i (mem_finRange i)
    simp only [Bool.not_eq_eq_eq_not,Bool.not_true,Bool.not_eq_false] at hi
    simp [ids,hi]
  · have hi := h i
    by_contra hloc
    apply hi
    rw [ids,if_neg]
    simpa using hloc

theorem freeSlot_eq_none (h : Once s.ids) : s.freeSlot = none ↔ ¬ (elems s.ids).card < NCONT := by
  have hcard := h.card_elems_lt
  rw [Fintype.card_fin] at hcard
  rw [hcard,freeSlot_eq_none_iff,not_exists]

theorem card_lt_of_freeSlot (h : Once s.ids) (hi : s.freeSlot = some i) :
    (elems s.ids).card < NCONT := by
  by_contra hno
  rw [← freeSlot_eq_none h,hi] at hno
  cases hno

theorem ids_create (h : s.freeSlot = some i) (hc : s.findLive c = none) :
    (s.createContainer c).1.ids = update s.ids i (some c) := by
  funext j
  simp only [createContainer,hc,h,ids,setContainer]
  by_cases hji : j = i
  · subst hji
    simp only [update_self,if_true]
  · simp only [update_of_ne hji]
    rfl

theorem ids_destroy (h : s.findLive c = some i) :
    (s.destroyContainer c).1.ids = update s.ids i none := by
  funext j
  simp only [destroyContainer,h,ids]
  by_cases hji : j = i
  · subst hji
    simp only [update_self,Bool.false_eq_true,if_false]
  · simp only [update_of_ne hji]
    rfl

theorem createContainer_cases (s : Tables) (c : ℤ) :
    (c ∈ elems s.ids ∧ s.createContainer c = (s, -1)) ∨
      (c ∉ elems s.ids ∧ s.freeSlot = none ∧ s.createContainer c = (s, c)) ∨
      (c ∉ elems s.ids ∧ ∃ i, s.freeSlot = some i ∧ (s.createContainer c).2 = c ∧
        (s.createContainer c).1.ids = update s.ids i (some c)) := by
  cases hc : s.findLive c with
  | some i =>
    refine .inl ⟨mem_elems.mpr ⟨i,ids_of_findLive hc⟩,?_⟩
    simp only [createContainer,hc]
  | none =>
    have hnew := findLive_eq_none_iff.mp hc
    cases hf : s.freeSlot with
    | none => exact .inr (.inl ⟨hnew,rfl,by simp only [createContainer,hc,hf]⟩)
    | some i =>
      refine .inr (.inr ⟨hnew,i,rfl,?_,ids_create hf hc⟩)
      simp only [createContainer,hc,hf]

theorem destroyContainer_cases (s : Tables) (c : ℤ) :
    (c ∉ elems s.ids ∧ s.destroyContainer c = (s, -1)) ∨
      (∃ i, s.ids i = some c ∧ (s.destroyContainer c).2 = 1 ∧
        (s.destroyContainer c).1.ids = update s.ids i none) := by
  cases hc : s.findLive c with
  | none =>
    refine .inl ⟨findLive_eq_none_iff.mp hc,?_⟩
    simp only [destroyContainer,hc]
  | some i =>
    refine .inr ⟨i,ids_of_findLive hc,?_,ids_destroy hc⟩
    simp only [destroyContainer,hc]

theorem once_run (h : Once s.ids) (a : IdCall) : Once (a.run s).1.ids := by
  cases a with
  | create c =>
    rw [IdCall.run]
    obtain ⟨-,he⟩ | ⟨-,-,he⟩ | ⟨hnew,i,-,-,he⟩ := createContainer_cases s c
    · rw [he]
      exact h
    · rw [he]
      exact h
    · rw [he]
      exact h.fill hnew
  | destroy c =>
    rw [IdCall.run]
    obtain ⟨-,he⟩ | ⟨i,-,-,he⟩ := destroyContainer_cases s c
    · rw [he]
      exact h
    · rw [he]
      exact h.clear i

theorem elems_run (h : Once s.ids) (a : IdCall) :
    elems (a.run s).1.ids = (a.spec (elems s.ids)).1 := by
  cases a with
  | create c =>
    rw [IdCall.run,IdCall.spec]
    obtain ⟨hold,he⟩ | ⟨-,hfull,he⟩ | ⟨hnew,i,hfree,-,he⟩ := createContainer_cases s c
    · rw [he,if_neg fun hc => hc.1 hold]
    · rw [he,if_neg fun hc => (freeSlot_eq_none h).mp hfull hc.2]
    · have hroom := card_lt_of_freeSlot h hfree
      rw [he,elems_fill (ids_of_freeSlot hfree),if_pos ⟨hnew,hroom⟩]
  | destroy c =>
    rw [IdCall.run,IdCall.spec]
    obtain ⟨hnot,he⟩ | ⟨i,hi,-,he⟩ := destroyContainer_cases s c
    · rw [he,if_neg hnot]
    · rw [he,h.elems_clear hi,if_pos (mem_elems.mpr ⟨i,hi⟩)]

theorem run_fst_of_neg (h : Once s.ids) {a : IdCall} (ha : a.id ≠ -1)
    (hneg : (a.spec (elems s.ids)).2 = -1) : (a.run s).1 = s := by
  cases a with
  | create c =>
    rw [IdCall.run]
    obtain ⟨-,he⟩ | ⟨-,-,he⟩ | ⟨hnew,i,hfree,-,-⟩ := createContainer_cases s c
    · rw [he]
    · rw [he]
    · have hroom := card_lt_of_freeSlot h hfree
      rw [IdCall.spec,if_pos ⟨hnew,hroom⟩] at hneg
      exact absurd hneg ha
  | destroy c =>
    rw [IdCall.run]
    obtain ⟨-,he⟩ | ⟨i,hi,-,-⟩ := destroyContainer_cases s c
    · rw [he]
    · rw [IdCall.spec,if_pos (mem_elems.mpr ⟨i,hi⟩)] at hneg
      exact absurd hneg (by simp)

theorem run_snd_iff (h : Once s.ids) {a : IdCall} (ha : a.id ≠ -1) :
    (a.run s).2 = (a.spec (elems s.ids)).2 ↔ a.HasRoom (elems s.ids) := by
  cases a with
  | create c =>
    rw [IdCall.run,IdCall.spec,IdCall.HasRoom]
    obtain ⟨hold,he⟩ | ⟨hnew,hfull,he⟩ | ⟨hnew,i,hfree,hret,-⟩ := createContainer_cases s c
    · rw [he,if_neg fun hc => hc.1 hold]
      exact iff_of_true rfl (.inl hold)
    · have hno := (freeSlot_eq_none h).mp hfull
      rw [he,if_neg fun hc => hno hc.2]
      exact iff_of_false ha fun hc => hc.elim hnew hno
    · have hroom := card_lt_of_freeSlot h hfree
      rw [hret,if_pos ⟨hnew,hroom⟩]
      exact iff_of_true rfl (.inr hroom)
  | destroy c =>
    rw [IdCall.run,IdCall.spec,IdCall.HasRoom]
    obtain ⟨hnot,he⟩ | ⟨i,hi,hret,-⟩ := destroyContainer_cases s c
    · rw [he,if_neg hnot]
      exact iff_of_true rfl trivial
    · rw [hret,if_pos (mem_elems.mpr ⟨i,hi⟩)]
      exact iff_of_true rfl trivial

theorem once_runIds (h : Once s.ids) (calls : List IdCall) : Once (s.runIds calls).ids := by
  induction calls generalizing s with
  | nil => exact h
  | cons a calls ih => exact ih (once_run h a)

theorem ids_boot : boot.ids = fun _ => none := rfl

theorem once_boot : Once boot.ids := by
  intro x y a hx
  rw [ids_boot] at hx
  cases hx

/-- After any sequence of calls no id is in two slots. The next call changes the set of ids as it is
to, leaves the table alone if it is to fail, and returns what it is to return exactly if a new id
finds a slot. -/
theorem container_table_is_set (calls : List IdCall) (a : IdCall) (ha : a.id ≠ -1) :
    Once (boot.runIds calls).ids ∧
      elems (a.run (boot.runIds calls)).1.ids = (a.spec (elems (boot.runIds calls).ids)).1 ∧
      ((a.spec (elems (boot.runIds calls).ids)).2 = -1 →
        (a.run (boot.runIds calls)).1 = boot.runIds calls) ∧
      ((a.run (boot.runIds calls)).2 = (a.spec (elems (boot.runIds calls).ids)).2 ↔
        a.HasRoom (elems (boot.runIds calls).ids)) := by
  have h := once_runIds once_boot calls
  exact ⟨h,elems_run h a,run_fst_of_neg h ha,run_snd_iff h ha⟩

theorem container_table_is_set_seven :
    (IdCall.create 7).id ≠ -1 ∧ ((IdCall.create 7).run (boot.runIds [])).2 = 7 ∧
      elems ((IdCall.create 7).run (boot.runIds [])).1.ids = {7} := by
  have hnone : elems (boot.runIds []).ids = ∅ := elems_none
  obtain ⟨-,hset,-,hret⟩ := container_table_is_set [] (.create 7) (by decide)
  rw [hnone] at hset hret
  have hroom : (IdCall.create 7).HasRoom ∅ := .inr (by decide)
  have hspec : (IdCall.create 7).spec ∅ = ({7}, 7) := by decide
  rw [hspec] at hset hret
  exact ⟨by decide,hret.mpr hroom,hset⟩

def creates (n : ℕ) : List IdCall := (List.range n).map fun k : ℕ => .create (k : ℤ)

theorem elems_creates {n : ℕ} (hn : n ≤ NCONT) :
    elems (boot.runIds (creates n)).ids = (Finset.range n).image fun k : ℕ => (k : ℤ) := by
  induction n with
  | zero => exact elems_none
  | succ n ih =>
    have hlast : boot.runIds (creates (n+1)) =
        ((IdCall.create n).run (boot.runIds (creates n))).1 := by
      simp only [creates,runIds,range_succ,map_append,foldl_append,map_cons,
        map_nil,foldl_cons,foldl_nil]
    have hnew : (n : ℤ) ∉ (Finset.range n).image fun k : ℕ => (k : ℤ) := by simp
    have hcard : ((Finset.range n).image fun k : ℕ => (k : ℤ)).card < NCONT := by
      rw [Finset.card_image_of_injective _ Nat.cast_injective,Finset.card_range]
      omega
    rw [hlast,elems_run (once_runIds once_boot _),ih (by omega),IdCall.spec,
      if_pos ⟨hnew,hcard⟩,Finset.range_add_one,Finset.image_insert]

/-- With a full table a new id is reported as made. -/
theorem full_table_reports_success : ¬ ∀ (calls : List IdCall) (a : IdCall),
    (∀ b ∈ calls, b.id ≠ -1) → a.id ≠ -1 →
      (a.run (boot.runIds calls)).2 = (a.spec (elems (boot.runIds calls).ids)).2 := by
  intro hall
  have hids : ∀ b ∈ creates NCONT, b.id ≠ -1 := by
    intro b hb
    obtain ⟨k,-,rfl⟩ := List.mem_map.mp hb
    change (k : ℤ) ≠ -1
    omega
  have hret := hall (creates NCONT) (.create NCONT) hids (by decide)
  rw [run_snd_iff (once_runIds once_boot _) (by decide),elems_creates le_rfl] at hret
  rcases hret with hmem | hcard
  · obtain ⟨k,hk,hcast⟩ := Finset.mem_image.mp hmem
    rw [Finset.mem_range] at hk
    omega
  · rw [Finset.card_image_of_injective _ Nat.cast_injective,Finset.card_range] at hcard
    exact absurd hcard (lt_irrefl _)

end Xv6Container.Tables
