import Xv6Container.Lib.Fifo
import Xv6Container.Lib.Ring

/-!
# The queues of `syscall.c`

`struct intMessageQueue` and `struct waitQueue` with their 32-bit fields, an `int` kept as its
bit pattern, compared with bounded lists. The array is one page, whatever the capacity; behind it
lies other memory of the kernel, and the model ends there. Every index that is used is recorded.
-/

namespace Xv6Container.Ipc

open Run Fifo List Nat

variable {α : Type*}

/-- The fields that both queues have. -/
structure Queue (α : Type*) where
  front : UInt32
  last : UInt32
  size : UInt32
  capacity : UInt32
  arr : ℕ → α
  /-- how many items the page of the array has room for -/
  words : ℕ
  /-- the array indices used so far -/
  used : List ℕ

namespace Queue

/-- A new queue; `arr` is what the page of the array holds. -/
def create (words : ℕ) (capacity : UInt32) (arr : ℕ → α) : Queue α :=
  ⟨0, -1, 0, capacity, arr, words, []⟩

def full (mq : Queue α) : Bool := mq.size == mq.capacity

def empty (mq : Queue α) : Bool := mq.size == 0

/-- `mq->last = i; mq->arr[mq->last] = item; mq->size = mq->size + 1`. -/
def store (mq : Queue α) (i : UInt32) (item : α) : Option (Queue α) :=
  if i.toNat < mq.words then
    some { mq with
      last := i
      arr := Function.update mq.arr i.toNat item
      size := mq.size + 1
      used := i.toNat :: mq.used }
  else none

def take (mq : Queue α) : Option (Queue α × α) :=
  if mq.front.toNat < mq.words then
    some ({ mq with
      front := (mq.front + 1) % mq.capacity
      size := mq.size - 1
      used := mq.front.toNat :: mq.used }, mq.arr mq.front.toNat)
  else none

end Queue

structure WaitQueueItem where
  pid : Int32
  buffer : UInt32
  deriving DecidableEq

/-- `PGSIZE / sizeof(int)`. -/
abbrev intsPerPage : ℕ := 1024

/-- `PGSIZE / sizeof(struct waitQueueItem)`. -/
abbrev itemsPerPage : ℕ := 512

def createIntQueue (capacity : UInt32) (arr : ℕ → Int32) : Queue Int32 :=
  .create intsPerPage capacity arr

def isFull (mq : Queue Int32) : Bool := mq.full

def isEmpty (mq : Queue Int32) : Bool := mq.empty

def enqueue (mq : Queue Int32) (item : Int32) : Option (Queue Int32) :=
  if isFull mq then some mq else mq.store ((mq.last + 1) % mq.capacity) item

def dequeue (mq : Queue Int32) : Option (Queue Int32 × Int32) :=
  if isEmpty mq then some (mq, -3) else mq.take

def createWaitQueue (capacity : UInt32) (array : ℕ → WaitQueueItem) : Queue WaitQueueItem :=
  .create itemsPerPage capacity array

def isWaitFull (mq : Queue WaitQueueItem) : Bool := mq.full

def isWaitEmpty (mq : Queue WaitQueueItem) : Bool := mq.empty

/-- Unlike `enqueue`, it does not wrap. -/
def waitenqueue (mq : Queue WaitQueueItem) (item : WaitQueueItem) : Option (Queue WaitQueueItem) :=
  if isWaitFull mq then some mq else mq.store (mq.last + 1) item

/-- Unlike `dequeue`, it does not look whether there is an item. -/
def waitdequeue (mq : Queue WaitQueueItem) : Option (Queue WaitQueueItem × WaitQueueItem) := mq.take

/-- A call on the ring of messages. -/
def intStep (mq : Queue Int32) : Call Int32 → Option (Queue Int32 × Reply Int32)
  | .push item => (enqueue mq item).map fun mq' => (mq', .pushed !(isFull mq))
  | .pop => (dequeue mq).map fun r => (r.1, .popped r.2)

/-- A call on the wait queue. `waitdequeue` is for a queue that is not empty. -/
def waitStep (mq : Queue WaitQueueItem) :
    Call WaitQueueItem → Option (Queue WaitQueueItem × Reply WaitQueueItem)
  | .push item => (waitenqueue mq item).map fun mq' => (mq', .pushed !(isWaitFull mq))
  | .pop =>
    if isWaitEmpty mq then none else (waitdequeue mq).map fun r => (r.1, .popped r.2)

def Queue.contents (mq : Queue α) : List α :=
  Ring.contents mq.arr mq.capacity.toNat mq.front.toNat mq.size.toNat

/-- All accesses so far were below the capacity. -/
def Queue.Inside (capacity : UInt32) (mq : Queue α) : Prop := ∀ i ∈ mq.used, i < capacity.toNat

/-- The queue has taken `n` items, still holds the items `l`, and these are in its page. -/
structure Holds (capacity : UInt32) (words n : ℕ) (mq : Queue α) (l : List α) : Prop where
  capacity_eq : mq.capacity = capacity
  words_eq : mq.words = words
  front_lt : mq.front.toNat < capacity.toNat
  size_le : mq.size.toNat ≤ capacity.toNat
  contents_eq : mq.contents = l
  page : ∀ i, i < mq.size.toNat → (mq.front.toNat + i) % capacity.toNat < words
  next : n % capacity.toNat = (mq.front.toNat + mq.size.toNat) % capacity.toNat
  inside : mq.Inside capacity

variable {capacity : UInt32} {words n : ℕ} {mq mq' : Queue α} {l : List α}

namespace Holds

theorem length_eq (h : Holds capacity words n mq l) : l.length = mq.size.toNat := by
  rw [← h.contents_eq]
  exact Ring.length_contents

theorem full_iff (h : Holds capacity words n mq l) :
    mq.full = true ↔ capacity.toNat ≤ l.length := by
  have hsize := h.size_le
  rw [h.length_eq,Queue.full,beq_iff_eq,← UInt32.toNat_inj,h.capacity_eq]
  omega

theorem empty_iff (h : Holds capacity words n mq l) : mq.empty = true ↔ l = [] := by
  rw [← length_eq_zero_iff,h.length_eq,Queue.empty,beq_iff_eq,← UInt32.toNat_inj]
  rfl

theorem store (h : Holds capacity words n mq l) {i : UInt32} (hlt : l.length < capacity.toNat)
    (hi : i.toNat = n % capacity.toNat) (hpage : i.toNat < words) (item : α) :
    ∃ mq', mq.store i item = some mq' ∧ mq'.last = i ∧
      Holds capacity words (n+1) mq' (l ++ [item]) := by
  have hcap : capacity.toNat < 2 ^ 32 := capacity.toNat_lt
  rw [h.length_eq] at hlt
  have hsize : (mq.size+1).toNat = mq.size.toNat+1 := by
    rw [UInt32.toNat_add,UInt32.toNat_one,mod_eq_of_lt]
    omega
  have hcell := hi.trans h.next
  refine ⟨_,if_pos (h.words_eq.symm ▸ hpage),rfl,h.capacity_eq,h.words_eq,h.front_lt,?_,?_,?_,?_,?_⟩
  · change (mq.size+1).toNat ≤ capacity.toNat
    omega
  · change Ring.contents (Function.update mq.arr i.toNat item) mq.capacity.toNat mq.front.toNat
      (mq.size+1).toNat = _
    rw [hsize,hcell,h.capacity_eq,Ring.contents_push hlt,← h.contents_eq,Queue.contents,
      h.capacity_eq]
  · intro j hj
    change j < (mq.size+1).toNat at hj
    rw [hsize] at hj
    rcases Nat.lt_succ_iff_lt_or_eq.mp hj with hj | rfl
    · exact h.page j hj
    · change (mq.front.toNat + mq.size.toNat) % _ < _
      rwa [← hcell]
  · change (n+1) % capacity.toNat = (mq.front.toNat + (mq.size+1).toNat) % capacity.toNat
    rw [hsize,← Nat.add_assoc,← mod_add_mod,h.next,mod_add_mod]
  · intro j hj
    rcases List.mem_cons.mp hj with rfl | hj
    · rw [hi]
      exact mod_lt _ (by omega)
    · exact h.inside j hj

theorem take {x : α} (h : Holds capacity words n mq (x :: l)) :
    ∃ mq', mq.take = some (mq', x) ∧ mq'.last = mq.last ∧ Holds capacity words n mq' l := by
  have hlen := h.length_eq
  rw [length_cons] at hlen
  have hfront := h.front_lt
  have hcap : capacity.toNat < 2 ^ 32 := capacity.toNat_lt
  have hnext : ((mq.front+1) % mq.capacity).toNat = (mq.front.toNat+1) % capacity.toNat := by
    rw [UInt32.toNat_mod,UInt32.toNat_add,UInt32.toNat_one,mod_eq_of_lt (b := 2 ^ 32) (by omega),
      h.capacity_eq]
  have hsize : (mq.size-1).toNat = l.length := by
    have hle : (1 : UInt32) ≤ mq.size := by
      rw [UInt32.le_iff_toNat_le,UInt32.toNat_one]
      omega
    rw [UInt32.toNat_sub_of_le _ _ hle,UInt32.toNat_one]
    omega
  have hpage : mq.front.toNat < words := by
    have := h.page 0 (by omega)
    rwa [Nat.add_zero,mod_eq_of_lt hfront] at this
  have hcons : mq.contents = mq.arr mq.front.toNat ::
      Ring.contents mq.arr capacity.toNat ((mq.front.toNat+1) % capacity.toNat) l.length := by
    rw [Queue.contents,h.capacity_eq,← hlen,Ring.contents_pop hfront]
  rw [h.contents_eq,List.cons.injEq] at hcons
  obtain ⟨rfl,hl⟩ := hcons
  refine ⟨_,if_pos (h.words_eq.symm ▸ hpage),rfl,h.capacity_eq,h.words_eq,?_,?_,?_,?_,?_,?_⟩
  · change ((mq.front+1) % mq.capacity).toNat < _
    rw [hnext]
    exact mod_lt _ (by omega)
  · change (mq.size-1).toNat ≤ capacity.toNat
    have := h.size_le
    omega
  · change Ring.contents mq.arr mq.capacity.toNat ((mq.front+1) % mq.capacity).toNat
      (mq.size-1).toNat = l
    rw [hnext,hsize,h.capacity_eq]
    exact hl.symm
  · intro i hi
    change i < (mq.size-1).toNat at hi
    change (((mq.front+1) % mq.capacity).toNat + i) % _ < _
    rw [hnext,mod_add_mod,Nat.add_assoc]
    exact h.page (1+i) (by omega)
  · change n % _ = (((mq.front+1) % mq.capacity).toNat + (mq.size-1).toNat) % _
    rw [hnext,hsize,mod_add_mod,h.next,← hlen]
    congr 1
    omega
  · intro j hj
    rcases List.mem_cons.mp hj with rfl | hj
    · exact hfront
    · exact h.inside j hj

theorem create (hcap : 0 < capacity) (words : ℕ) (arr : ℕ → α) :
    Holds capacity words 0 (.create words capacity arr) [] := by
  refine ⟨rfl,rfl,?_,Nat.zero_le _,rfl,?_,rfl,?_⟩
  · exact UInt32.lt_iff_toNat_lt.mp hcap
  · intro i hi
    exact absurd hi (Nat.not_lt_zero i)
  · intro i hi
    cases hi

end Holds

/-- A ring that has taken `n` items and holds `l`: the next `enqueue` goes behind them. -/
structure RingOf (capacity : UInt32) (n : ℕ) (mq : Queue Int32) (l : List Int32) : Prop
    extends Holds capacity intsPerPage n mq l where
  last_eq : ((mq.last + 1) % mq.capacity).toNat = n % capacity.toNat

namespace RingOf

variable {capacity : UInt32} {n : ℕ} {mq : Queue Int32} {l : List Int32}

theorem create (hcap : 0 < capacity) (arr : ℕ → Int32) :
    RingOf capacity 0 (createIntQueue capacity arr) [] := by
  refine ⟨Holds.create hcap intsPerPage arr,?_⟩
  change ((-1 + 1) % capacity : UInt32).toNat = 0 % capacity.toNat
  rw [UInt32.toNat_mod]
  rfl

theorem enqueue_of_full (h : RingOf capacity n mq l) (hfull : capacity.toNat ≤ l.length)
    (item : Int32) : isFull mq = true ∧ enqueue mq item = some mq := by
  have hf : isFull mq = true := h.full_iff.mpr hfull
  exact ⟨hf,if_pos hf⟩

theorem enqueue_of_lt (h : RingOf capacity n mq l) (hlt : l.length < capacity.toNat)
    (item : Int32) : isFull mq = false ∧
      enqueue mq item = mq.store ((mq.last + 1) % mq.capacity) item := by
  have hf : ¬ isFull mq = true := fun hf => absurd (h.full_iff.mp hf) (not_le.mpr hlt)
  exact ⟨Bool.eq_false_iff.mpr hf,if_neg hf⟩

theorem enqueue (h : RingOf capacity n mq l) (hlt : l.length < capacity.toNat)
    (hpage : n % capacity.toNat < intsPerPage) (item : Int32) :
    ∃ mq', Ipc.enqueue mq item = some mq' ∧ RingOf capacity (n+1) mq' (l ++ [item]) := by
  obtain ⟨mq',hstore,hlast,hholds⟩ := h.store hlt h.last_eq (by rwa [h.last_eq]) item
  refine ⟨mq',(h.enqueue_of_lt hlt item).2.trans hstore,hholds,?_⟩
  have hbound : n % capacity.toNat < capacity.toNat := mod_lt _ (by omega)
  have hcap : capacity.toNat < 2 ^ 32 := capacity.toNat_lt
  rw [hholds.capacity_eq,hlast,UInt32.toNat_mod,UInt32.toNat_add,h.last_eq,UInt32.toNat_one,
    mod_eq_of_lt (b := 2 ^ 32) (by omega),mod_add_mod]

theorem dequeue {x : Int32} (h : RingOf capacity n mq (x :: l)) :
    ∃ mq', Ipc.dequeue mq = some (mq', x) ∧ RingOf capacity n mq' l := by
  have hempty : ¬ isEmpty mq = true := by
    intro hempty
    cases h.empty_iff.mp hempty
  obtain ⟨mq',htake,hlast,hholds⟩ := h.take
  refine ⟨mq',(if_neg hempty).trans htake,hholds,?_⟩
  rw [hlast,hholds.capacity_eq,← h.capacity_eq,h.last_eq,h.capacity_eq]

/-- While there is room in the page the ring makes the calls of the list. -/
theorem intStep {c : Call Int32} {l' : List Int32} {r : Reply Int32} (h : RingOf capacity n mq l)
    (hstep : Fifo.step capacity.toNat (some (-3)) l c = some (l', r))
    (hroom : capacity.toNat ≤ intsPerPage ∨ n + accepted [r] ≤ intsPerPage) :
    ∃ mq', Ipc.intStep mq c = some (mq', r) ∧ RingOf capacity (n + accepted [r]) mq' l' := by
  cases c with
  | push item =>
    rw [Ipc.intStep]
    by_cases hlt : l.length < capacity.toNat
    · rw [step_push_of_lt hlt] at hstep
      cases hstep
      have hpage : n % capacity.toNat < intsPerPage := by
        rcases hroom with hle | hn
        · exact (mod_lt _ (by omega)).trans_le hle
        · exact (mod_le _ _).trans_lt hn
      obtain ⟨mq',henq,h'⟩ := h.enqueue hlt hpage item
      rw [henq,(h.enqueue_of_lt hlt item).1]
      exact ⟨mq',rfl,h'⟩
    · rw [step_push_of_le (not_lt.mp hlt)] at hstep
      cases hstep
      obtain ⟨hf,henq⟩ := h.enqueue_of_full (not_lt.mp hlt) item
      rw [hf,henq]
      exact ⟨mq,rfl,h⟩
  | pop =>
    rw [Ipc.intStep]
    cases l with
    | nil =>
      cases hstep
      have hempty : isEmpty mq = true := h.empty_iff.mpr rfl
      rw [Ipc.dequeue,if_pos hempty]
      exact ⟨mq,rfl,h⟩
    | cons x l =>
      cases hstep
      obtain ⟨mq',hdeq,h'⟩ := h.dequeue
      rw [hdeq]
      exact ⟨mq',rfl,h'⟩

end RingOf

/-- The item that follows the last one of the page is not stored. -/
theorem RingOf.full_page {capacity : UInt32} {mq mq' : Queue Int32} {l l' : List Int32}
    {c : Call Int32} (h : RingOf capacity intsPerPage mq l) (hbig : intsPerPage < capacity.toNat)
    (hstep : Fifo.step capacity.toNat (some (-3)) l c = some (l', .pushed true)) :
    Ipc.intStep mq c ≠ some (mq', .pushed true) := by
  intro hs
  cases c with
  | pop =>
    cases l with
    | nil => cases hstep
    | cons x l => cases hstep
  | push item =>
    by_cases hlt : l.length < capacity.toNat
    · have hindex := h.last_eq
      rw [mod_eq_of_lt hbig] at hindex
      rw [Ipc.intStep,(h.enqueue_of_lt hlt item).2,Queue.store,if_neg] at hs
      · cases hs
      · rw [hindex,h.words_eq]
        exact lt_irrefl _
    · rw [step_push_of_le (not_lt.mp hlt)] at hstep
      cases hstep

theorem ring_leaves_page {capacity : UInt32} {arr : ℕ → Int32} {calls : List (Call Int32)}
    {l : List Int32} {replies : List (Reply Int32)} {mq : Queue Int32}
    (hbig : intsPerPage < capacity.toNat) (hmany : intsPerPage < accepted replies)
    (hlist : trace (Fifo.step capacity.toNat (some (-3))) [] calls = some (l, replies)) :
    trace intStep (createIntQueue capacity arr) calls ≠ some (mq, replies) := by
  intro hrun
  have hcap : 0 < capacity := UInt32.lt_iff_toNat_lt.mpr (by rw [UInt32.toNat_zero]; omega)
  exact not_follows intsPerPage (R := RingOf capacity) (G := fun _ => True)
    (fun n s l c l' r h hs hn => h.intStep hs (.inr hn))
    (fun s l c l' s' h hstep hs => absurd hs (h.full_page hbig hstep))
    (fun _ _ _ _ h => absurd trivial h) (RingOf.create hcap arr) (Nat.zero_le _) hlist
    (by omega) hrun trivial

/-- The queue of messages makes the calls of a list of at most `capacity` numbers, with all its
accesses below the capacity, exactly if the page has room for `capacity` numbers or no more are
taken than it has room for. -/
theorem int_queue_refines_fifo_iff (capacity : UInt32) (hcap : 0 < capacity) (arr : ℕ → Int32)
    (calls : List (Call Int32)) (l : List Int32) (replies : List (Reply Int32))
    (hlist : trace (Fifo.step capacity.toNat (some (-3))) [] calls = some (l, replies)) :
    (∃ mq, trace intStep (createIntQueue capacity arr) calls = some (mq, replies) ∧
      mq.contents = l ∧ ∀ i ∈ mq.used, i < capacity.toNat) ↔
      capacity.toNat ≤ intsPerPage ∨ accepted replies ≤ intsPerPage := by
  constructor
  · rintro ⟨mq,hrun,-,-⟩
    by_contra hnot
    obtain ⟨hbig,hmany⟩ := not_or.mp hnot
    exact ring_leaves_page (not_le.mp hbig) (not_le.mp hmany) hlist hrun
  · intro hroom
    obtain ⟨mq,hrun,h⟩ := follows (accepted replies) (R := RingOf capacity)
      (fun n s l c l' r h hs hn => h.intStep hs (hroom.imp_right hn.trans))
      (RingOf.create hcap arr) hlist (by omega)
    exact ⟨mq,hrun,h.contents_eq,h.inside⟩

/-- One cell, used again after the first item has left it. -/
theorem int_queue_refines_fifo_iff_wraps :
    ∃ mq, trace intStep (createIntQueue 1 fun _ => 0) [.push 7, .pop, .push 8, .pop, .pop] =
        some (mq, [.pushed true, .popped 7, .pushed true, .popped 8, .popped (-3)]) ∧
      mq.contents = [] ∧ ∀ i ∈ mq.used, i < 1 :=
  (int_queue_refines_fifo_iff 1 (by decide) (fun _ => 0) [.push 7,.pop,.push 8,.pop,.pop] []
    [.pushed true,.popped 7,.pushed true,.popped 8,.popped (-3)] rfl).mpr (.inl (by decide))

theorem trace_pushes (cap : ℕ) {e : Option α} {l : List α} {x : α} {n : ℕ} (h : l.length + n ≤ cap) :
    trace (Fifo.step cap e) l (replicate n (.push x)) =
      some (l ++ replicate n x, replicate n (.pushed true)) := by
  induction n generalizing l with
  | zero => simp [trace]
  | succ n ih =>
    rw [replicate_succ,trace_cons_of_eq (step_push_of_lt (by omega) x),
      ih (by rw [length_append,length_singleton]; omega),replicate_succ,replicate_succ]
    simp

theorem accepted_pushes (n : ℕ) : accepted (replicate n (.pushed true : Reply α)) = n := by
  induction n with
  | zero => rfl
  | succ n ih => rw [replicate_succ,accepted,ih]

/-- A queue made for 1025 numbers: the last one goes behind the page. -/
theorem int_queue_not_fifo :
    ¬ ∀ capacity : UInt32, 0 < capacity → ∀ (arr : ℕ → Int32) (calls : List (Call Int32))
      (l : List Int32) (replies : List (Reply Int32)),
      trace (Fifo.step capacity.toNat (some (-3))) [] calls = some (l, replies) →
      ∃ mq, trace intStep (createIntQueue capacity arr) calls = some (mq, replies) ∧
        mq.contents = l ∧ ∀ i ∈ mq.used, i < capacity.toNat := by
  intro hall
  have hlist := trace_pushes (1025 : UInt32).toNat (e := some (-3)) (l := []) (x := (7 : Int32))
    (n := 1025) (by decide)
  obtain ⟨mq,hrun,-⟩ := hall 1025 (by decide) (fun _ => 0) _ _ _ hlist
  exact ring_leaves_page (by decide) (by rw [accepted_pushes]; decide) hlist hrun

/-- A wait queue that has taken `n` items and holds `l`. -/
structure LineOf (capacity : UInt32) (n : ℕ) (mq : Queue WaitQueueItem)
    (l : List WaitQueueItem) : Prop extends Holds capacity itemsPerPage n mq l where
  last_eq : (mq.last + 1).toNat = n
  le : n ≤ capacity.toNat

namespace LineOf

variable {capacity : UInt32} {n : ℕ} {mq : Queue WaitQueueItem} {l : List WaitQueueItem}

theorem create (hcap : 0 < capacity) (array : ℕ → WaitQueueItem) :
    LineOf capacity 0 (createWaitQueue capacity array) [] := by
  refine ⟨Holds.create hcap itemsPerPage array,?_,Nat.zero_le _⟩
  change (-1 + 1 : UInt32).toNat = 0
  decide

theorem waitenqueue_of_lt (h : LineOf capacity n mq l) (hlt : l.length < capacity.toNat)
    (item : WaitQueueItem) : isWaitFull mq = false ∧
      waitenqueue mq item = mq.store (mq.last + 1) item := by
  have hf : ¬ isWaitFull mq = true := fun hf => absurd (h.full_iff.mp hf) (not_le.mpr hlt)
  exact ⟨Bool.eq_false_iff.mpr hf,if_neg hf⟩

theorem waitenqueue (h : LineOf capacity n mq l) (hlt : l.length < capacity.toNat)
    (hn : n < capacity.toNat) (hpage : n < itemsPerPage) (item : WaitQueueItem) :
    ∃ mq', Ipc.waitenqueue mq item = some mq' ∧ LineOf capacity (n+1) mq' (l ++ [item]) := by
  obtain ⟨mq',hstore,hlast,hholds⟩ := h.store hlt (h.last_eq.trans (mod_eq_of_lt hn).symm)
    (by rwa [h.last_eq]) item
  refine ⟨mq',(h.waitenqueue_of_lt hlt item).2.trans hstore,hholds,?_,hn⟩
  have hcap : capacity.toNat < 2 ^ 32 := capacity.toNat_lt
  rw [hlast,UInt32.toNat_add,h.last_eq,UInt32.toNat_one,mod_eq_of_lt (by omega)]

theorem waitStep {c : Call WaitQueueItem} {l' : List WaitQueueItem} {r : Reply WaitQueueItem}
    (h : LineOf capacity n mq l) (hstep : Fifo.step capacity.toNat none l c = some (l', r))
    (hroom : n + accepted [r] ≤ min capacity.toNat itemsPerPage) :
    ∃ mq', Ipc.waitStep mq c = some (mq', r) ∧ LineOf capacity (n + accepted [r]) mq' l' := by
  obtain ⟨hcap,hpage⟩ := le_min_iff.mp hroom
  cases c with
  | push item =>
    rw [Ipc.waitStep]
    by_cases hlt : l.length < capacity.toNat
    · rw [step_push_of_lt hlt] at hstep
      cases hstep
      obtain ⟨mq',henq,h'⟩ := h.waitenqueue hlt hcap hpage item
      rw [henq,(h.waitenqueue_of_lt hlt item).1]
      exact ⟨mq',rfl,h'⟩
    · rw [step_push_of_le (not_lt.mp hlt)] at hstep
      cases hstep
      have hf : isWaitFull mq = true := h.full_iff.mpr (not_lt.mp hlt)
      rw [hf,Ipc.waitenqueue,if_pos hf]
      exact ⟨mq,rfl,h⟩
  | pop =>
    cases l with
    | nil => cases hstep
    | cons x l =>
      cases hstep
      have hempty : ¬ isWaitEmpty mq = true := by
        intro hempty
        cases h.empty_iff.mp hempty
      obtain ⟨mq',htake,hlast,hholds⟩ := h.take
      rw [Ipc.waitStep,if_neg hempty,waitdequeue,htake]
      exact ⟨mq',rfl,hholds,by rw [hlast]; exact h.last_eq,h.le⟩

end LineOf

theorem store_eq_some {i : UInt32} {item : α} (h : mq.store i item = some mq') :
    i.toNat < mq.words ∧ mq'.used = i.toNat :: mq.used := by
  rw [Queue.store] at h
  split at h
  · next hi =>
    cases h
    exact ⟨hi,rfl⟩
  · cases h

/-- An index outside the capacity stays recorded. -/
theorem Queue.Inside.of_waitStep {mq mq' : Queue WaitQueueItem} {call : Call WaitQueueItem}
    {reply : Reply WaitQueueItem} (hin : mq'.Inside capacity)
    (h : waitStep mq call = some (mq', reply)) : mq.Inside capacity := by
  cases call with
  | push item =>
    rw [waitStep,Option.map_eq_some_iff] at h
    obtain ⟨mq1,h,heq⟩ := h
    cases heq
    rw [waitenqueue] at h
    split at h
    · cases h
      exact hin
    · rw [Queue.Inside,(store_eq_some h).2] at hin
      exact fun i hi => hin i (mem_cons_of_mem _ hi)
  | pop =>
    rw [waitStep] at h
    split at h
    · cases h
    rw [Option.map_eq_some_iff] at h
    obtain ⟨r,h,heq⟩ := h
    obtain ⟨rfl,-⟩ := Prod.mk.inj heq
    rw [waitdequeue,Queue.take] at h
    split at h
    · obtain rfl := Option.some.inj h
      exact fun i hi => hin i (mem_cons_of_mem _ hi)
    · cases h

/-- The item that follows the last one of the array goes behind it. -/
theorem LineOf.full_array {capacity : UInt32} {mq mq' : Queue WaitQueueItem}
    {l l' : List WaitQueueItem} {c : Call WaitQueueItem}
    (h : LineOf capacity (min capacity.toNat itemsPerPage) mq l)
    (hstep : Fifo.step capacity.toNat none l c = some (l', .pushed true))
    (hs : Ipc.waitStep mq c = some (mq', .pushed true)) : ¬ mq'.Inside capacity := by
  cases c with
  | pop =>
    cases l with
    | nil => cases hstep
    | cons x l => cases hstep
  | push item =>
    by_cases hlt : l.length < capacity.toNat
    · rw [Ipc.waitStep,(h.waitenqueue_of_lt hlt item).2] at hs
      obtain ⟨mq1,hstore,heq⟩ := Option.map_eq_some_iff.mp hs
      obtain ⟨rfl,-⟩ := Prod.mk.inj heq
      obtain ⟨hpage,hused⟩ := store_eq_some hstore
      rw [h.last_eq,h.words_eq] at hpage
      intro hin
      have hindex := hin (mq.last+1).toNat (by rw [hused]; exact mem_cons_self)
      rw [h.last_eq] at hindex
      exact absurd (lt_min hindex hpage) (lt_irrefl _)
    · rw [step_push_of_le (not_lt.mp hlt)] at hstep
      cases hstep

/-- A wait queue makes the calls of a list of at most `capacity` items, with all its accesses below
the capacity, exactly in the runs in which it takes no more items in all than the capacity, and
than its page has room for. -/
theorem wait_queue_refines_fifo_iff (capacity : UInt32) (hcap : 0 < capacity)
    (array : ℕ → WaitQueueItem) (calls : List (Call WaitQueueItem))
    (l : List WaitQueueItem) (replies : List (Reply WaitQueueItem))
    (hlist : trace (Fifo.step capacity.toNat none) [] calls = some (l, replies)) :
    (∃ mq, trace waitStep (createWaitQueue capacity array) calls = some (mq, replies) ∧
      mq.contents = l ∧ ∀ i ∈ mq.used, i < capacity.toNat) ↔
      accepted replies ≤ min capacity.toNat itemsPerPage := by
  have hcall : ∀ n mq l c l' r, LineOf capacity n mq l →
      Fifo.step capacity.toNat none l c = some (l', r) →
      n + accepted [r] ≤ min capacity.toNat itemsPerPage →
      ∃ mq', waitStep mq c = some (mq', r) ∧ LineOf capacity (n + accepted [r]) mq' l' :=
    fun n mq l c l' r h hs hn => h.waitStep hs hn
  have h₀ := LineOf.create hcap array
  constructor
  · rintro ⟨mq,hrun,-,hin⟩
    by_contra hmany
    exact not_follows _ hcall (fun _ _ _ _ _ h => h.full_array)
      (fun _ _ _ _ hout hs hin => hout (hin.of_waitStep hs)) h₀ (Nat.zero_le _) hlist (by omega)
      hrun hin
  · intro hroom
    obtain ⟨mq,hrun,h⟩ := follows _ hcall h₀ hlist (by omega)
    exact ⟨mq,hrun,h.contents_eq,h.inside⟩

/-- One process waits and is served, and then another one. -/
def twoWaiters : List (Call WaitQueueItem) := [.push ⟨1, 0⟩, .pop, .push ⟨2, 0⟩, .pop]

theorem wait_queue_refines_fifo_iff_two :
    ∃ mq, trace waitStep (createWaitQueue 2 fun _ => ⟨0, 0⟩) twoWaiters =
        some (mq, [.pushed true, .popped ⟨1, 0⟩, .pushed true, .popped ⟨2, 0⟩]) ∧
      mq.contents = [] ∧ ∀ i ∈ mq.used, i < 2 :=
  (wait_queue_refines_fifo_iff 2 (by decide) (fun _ => ⟨0,0⟩) twoWaiters []
    [.pushed true,.popped ⟨1,0⟩,.pushed true,.popped ⟨2,0⟩] rfl).mpr (by decide)

/-- With room for one item, the second waiter is written behind the array, and the first one is
served again in its place. -/
theorem wait_queue_not_fifo :
    ¬ ∀ capacity : UInt32, 0 < capacity → ∀ (array : ℕ → WaitQueueItem)
      (calls : List (Call WaitQueueItem)) (l : List WaitQueueItem)
      (replies : List (Reply WaitQueueItem)),
      trace (Fifo.step capacity.toNat none) [] calls = some (l, replies) →
      ∃ mq, trace waitStep (createWaitQueue capacity array) calls = some (mq, replies) ∧
        mq.contents = l ∧ ∀ i ∈ mq.used, i < capacity.toNat := by
  intro hall
  obtain ⟨mq,hrun,-⟩ := hall 1 (by decide) (fun _ => ⟨0,0⟩) twoWaiters []
    [.pushed true,.popped ⟨1,0⟩,.pushed true,.popped ⟨2,0⟩] rfl
  have hreplies : (trace waitStep (createWaitQueue 1 fun _ => ⟨0,0⟩) twoWaiters).map Prod.snd =
      some [.pushed true,.popped ⟨1,0⟩,.pushed true,.popped ⟨1,0⟩] := rfl
  rw [hrun] at hreplies
  have hsame : ([.pushed true,.popped ⟨1,0⟩,.pushed true,.popped ⟨2,0⟩] :
      List (Reply WaitQueueItem)) = [.pushed true,.popped ⟨1,0⟩,.pushed true,.popped ⟨1,0⟩] :=
    Option.some.inj hreplies
  exact absurd hsame (by decide)

end Xv6Container.Ipc
