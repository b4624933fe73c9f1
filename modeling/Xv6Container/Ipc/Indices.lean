import Xv6Container.Ipc.Messages

/-!
# The numbers that `send` and `recv` use as indices

`sys_send` and `sys_recv` index four tables with numbers they do not check. A run ends at the
first index outside its table. The process table changes between the calls, so that pids grow.
-/

namespace Xv6Container.Ipc

open Function Run

/-- What happens: message calls, and everything else that changes the process table. -/
inductive Act
  | call (c : Call)
  | table (a : Tables.Act)

/-- The caller runs, and the receiver is the pid of a process that is there. -/
def Live (k : Post) : Call → Prop
  | .send p recPid _ _ => (k.tables.proc p).state = .RUNNING ∧
      ∃ q, k.tables.Used q ∧ (k.tables.proc q).state ≠ .ZOMBIE ∧ (k.tables.proc q).pid = recPid
  | .recv p _ _ _ => (k.tables.proc p).state = .RUNNING

instance (k : Post) : DecidablePred (Live k)
  | .send .. => inferInstanceAs (Decidable (_ ∧ _))
  | .recv .. => inferInstanceAs (Decidable (_ = _))

/-- One step of the machine; a call that does not come back ends the run. -/
def step (k : Post) : Act → Option Post
  | .call c => if Live k c then (run k c).toOption.map Prod.fst else none
  | .table a => (k.tables.step a).map fun t => { k with tables := t }

def pendingCount (k : Post) : ℕ := ∑ q, (k.intMessageQueue q).size.toNat

/-- The call uses no index outside its table, and a `send` gets a buffer number that no pending
message has. -/
def InRange (k : Post) (c : Call) : Prop :=
  (∀ table i, run k c ≠ .error (.index table i)) ∧
    match c with
    | .send _ _ _ _ => ∀ q, (getMessageBuffer k).2 ∉ (k.intMessageQueue q).contents
    | .recv _ _ _ _ => True

/-- A `send` finds the counter below 499, and the pids have a queue. -/
def Small (k : Post) : Call → Prop
  | .send _ recPid _ _ =>
    k.lastBufferUsed.toInt + 1 < NumberOfMessageBuffers ∧ 0 ≤ recPid ∧ recPid < 64
  | .recv p _ _ _ => 0 ≤ (k.tables.proc p).pid ∧ (k.tables.proc p).pid < 64

/-- The numbers in the queues have been handed out, and nobody waits: a process that finds no
message does not get past `sched`. -/
structure Orderly (k : Post) : Prop where
  nonneg : 0 ≤ k.lastBufferUsed.toInt
  le : k.lastBufferUsed.toInt ≤ NumberOfMessageBuffers
  ring : ∀ q, ∃ n, RingOf 50 n (k.intMessageQueue q) (k.intMessageQueue q).contents
  number : ∀ q, ∀ n ∈ (k.intMessageQueue q).contents,
    0 ≤ n.toInt ∧ n.toInt ≤ k.lastBufferUsed.toInt ∧ n.toInt < NumberOfMessageBuffers
  idle : ∀ q, (k.waitQueue q).words = itemsPerPage ∧ (k.waitQueue q).capacity = 50 ∧
    (k.waitQueue q).last = -1 ∧ isWaitEmpty (k.waitQueue q) = true

variable {k k' : Post} {q : QPid} {recPid : ℤ} {text : Mem} {page : Option Mem}

theorem RingOf.contents {capacity : UInt32} {n : ℕ} {mq : Queue Int32} {l : List Int32}
    (h : RingOf capacity n mq l) : RingOf capacity n mq mq.contents := by
  rw [h.contents_eq]
  exact h

theorem orderly_initQueues (tables : Tables) (pages : QPid → ℕ → Int32)
    (waiting : QPid → ℕ → WaitQueueItem) : Orderly (initQueues tables pages waiting) := by
  refine ⟨?_,?_,?_,?_,?_⟩
  · change 0 ≤ (0 : Int32).toInt
    decide
  · change (0 : Int32).toInt ≤ (500 : ℕ)
    decide
  · intro q
    exact ⟨0,(RingOf.create (by decide) (pages q)).contents⟩
  · intro q n hn
    cases hn
  · intro q
    exact ⟨rfl,rfl,rfl,rfl⟩

theorem toInt_add_one {x : Int32} (h0 : 0 ≤ x.toInt) (h : x.toInt ≤ NumberOfMessageBuffers+1) :
    (x+1).toInt = x.toInt+1 := by
  have hone : (1 : Int32).toInt = 1 := by decide
  change x.toInt ≤ 500 + 1 at h
  rw [Int32.toInt_add,hone,Int.bmod_eq_of_le] <;> omega

theorem Orderly.next (h : Orderly k) :
    (k.lastBufferUsed+1).toInt = k.lastBufferUsed.toInt+1 :=
  toInt_add_one h.nonneg (h.le.trans (by omega))

theorem slot_eq (table : Table) (q : QPid) : slot table q.val = .ok q := by
  have hq := q.isLt
  rw [slot,dif_pos (by omega)]
  rfl

theorem slot_cases (i : ℤ) : (∃ q : QPid, i = q.val) ∨
    (∀ table, slot table i = .error (.index table i)) ∧ ¬ (0 ≤ i ∧ i < 64) := by
  by_cases hi : 0 ≤ i ∧ i < 64
  · exact .inl ⟨⟨i.toNat,by omega⟩,by simp only; omega⟩
  · exact .inr ⟨fun table => dif_neg hi,hi⟩

/-- What a `send` leaves behind if its indices are those of the tables and nobody waits. -/
def sent (k : Post) (q : QPid) (mq : Queue Int32) (text : Mem) (page : Option Mem) : Post :=
  { k with
    lastBufferUsed := k.lastBufferUsed + 1 + 1
    messageBuffers := update k.messageBuffers (k.lastBufferUsed + 1).toInt
      (page.map fun page => safestrcpy page text 8)
    intMessageQueue := update k.intMessageQueue q mq }

/-- A ring of the kernel takes a number unless it is full, and then stays as it is. -/
theorem Orderly.enqueue (h : Orderly k) (q : QPid) (item : Int32) :
    ∃ mq l n, Ipc.enqueue (k.intMessageQueue q) item = some mq ∧ RingOf 50 n mq l ∧
      l = (k.intMessageQueue q).contents ++
        if (k.intMessageQueue q).contents.length < 50 then [item] else [] := by
  obtain ⟨n,hring⟩ := h.ring q
  by_cases hlt : (k.intMessageQueue q).contents.length < 50
  · obtain ⟨mq,henq,hmq⟩ := hring.enqueue hlt
      ((Nat.mod_lt n (by decide)).trans (by decide : 50 < intsPerPage)) item
    exact ⟨mq,_,_,henq,hmq,by rw [if_pos hlt]⟩
  · exact ⟨_,_,n,(hring.enqueue_of_full (not_lt.mp hlt) item).2,hring,
      by rw [if_neg hlt,List.append_nil]⟩

theorem Orderly.wakeReceiver (h : Orderly k) (q : QPid) :
    Ipc.wakeReceiver k.tables k.waitQueue q.val = .ok (k.tables, k.waitQueue) := by
  have hempty : isWaitEmpty (k.waitQueue q) = true := (h.idle q).2.2.2
  simp only [Ipc.wakeReceiver,slot_eq,bind,Except.bind,hempty,if_true]
  rfl

theorem send_cases (h : Orderly k) (p : PSlot) (recPid : ℤ) (text : Mem) (page : Option Mem) :
    (∃ q mq, (k.lastBufferUsed+1).toInt < NumberOfMessageBuffers ∧ recPid = (q.val : ℤ) ∧
      Ipc.enqueue (k.intMessageQueue q) (k.lastBufferUsed+1) = some mq ∧
      run k (.send p recPid text page) = .ok (sent k q mq text page, none)) ∨
    (∃ table i, run k (.send p recPid text page) = .error (.index table i)) ∧
      ¬ ((k.lastBufferUsed+1).toInt < NumberOfMessageBuffers ∧ 0 ≤ recPid ∧ recPid < 64) := by
  have hnonneg := h.nonneg
  have hnext := h.next
  by_cases hb : (k.lastBufferUsed+1).toInt < NumberOfMessageBuffers
  · have hcheck : inBuffers (k.lastBufferUsed+1) = .ok () := if_pos ⟨by omega,hb⟩
    rcases slot_cases recPid with ⟨q,rfl⟩ | ⟨hslot,hnot⟩
    · obtain ⟨mq,l,n,henq,-,-⟩ := h.enqueue q (k.lastBufferUsed+1)
      refine .inl ⟨q,mq,hb,rfl,henq,?_⟩
      simp only [run,checkNumber,getMessageBuffer,hcheck,send,h.wakeReceiver q,slot_eq,henq,inPage,
        bind,Except.bind]
      rfl
    · refine .inr ⟨⟨.waitQueue,recPid,?_⟩,fun hall => hnot hall.2⟩
      simp only [run,checkNumber,getMessageBuffer,hcheck,send,Ipc.wakeReceiver,hslot,bind,
        Except.bind]
  · refine .inr ⟨⟨.messageBuffers,(k.lastBufferUsed+1).toInt,?_⟩,fun hall => hb hall.1⟩
    have hcheck : inBuffers (k.lastBufferUsed+1) =
        .error (.index .messageBuffers (k.lastBufferUsed+1).toInt) :=
      if_neg fun hall => hb hall.2
    simp only [run,checkNumber,getMessageBuffer,hcheck,bind,Except.bind]

theorem Orderly.contents_update (h : Orderly k) {mq : Queue Int32} {item : Int32}
    (henq : Ipc.enqueue (k.intMessageQueue q) item = some mq) (r : QPid) :
    (update k.intMessageQueue q mq r).contents = (k.intMessageQueue r).contents ++
      if r = q ∧ (k.intMessageQueue q).contents.length < 50 then [item] else [] := by
  by_cases hr : r = q
  · subst hr
    obtain ⟨mq',l,n,henq',hring,hl⟩ := h.enqueue r item
    obtain rfl := Option.some.inj (henq.symm.trans henq')
    rw [update_self,hring.contents_eq,hl]
    simp only [true_and]
  · rw [update_of_ne hr,if_neg fun hc => hr hc.1,List.append_nil]

theorem Orderly.mem_update (h : Orderly k) {r : QPid} {mq : Queue Int32} {item x : Int32}
    (henq : Ipc.enqueue (k.intMessageQueue q) item = some mq)
    (hx : x ∈ (update k.intMessageQueue q mq r).contents) :
    x ∈ (k.intMessageQueue r).contents ∨ x = item ∧ r = q := by
  rw [h.contents_update henq] at hx
  rcases List.mem_append.mp hx with hx | hx
  · exact .inl hx
  · split at hx
    · next hr => exact .inr ⟨List.mem_singleton.mp hx,hr.1⟩
    · exact absurd hx List.not_mem_nil

theorem Orderly.next_two (h : Orderly k)
    (hb : (k.lastBufferUsed+1).toInt < NumberOfMessageBuffers) :
    (k.lastBufferUsed + 1 + 1).toInt = k.lastBufferUsed.toInt+2 := by
  have hlt : (k.lastBufferUsed+1).toInt < 500 := hb
  have hone := h.next
  have hnonneg := h.nonneg
  rw [toInt_add_one (by omega) (by change _ ≤ (500 : ℤ) + 1; omega),hone]
  omega

theorem Orderly.sent (h : Orderly k) {mq : Queue Int32}
    (hb : (k.lastBufferUsed+1).toInt < NumberOfMessageBuffers)
    (henq : Ipc.enqueue (k.intMessageQueue q) (k.lastBufferUsed+1) = some mq) (text : Mem)
    (page : Option Mem) : Orderly (sent k q mq text page) := by
  have hlt : (k.lastBufferUsed+1).toInt < 500 := hb
  have hone := h.next
  have hnonneg := h.nonneg
  have htwo := h.next_two hb
  refine ⟨?_,?_,?_,?_,h.idle⟩
  · change 0 ≤ (k.lastBufferUsed + 1 + 1).toInt
    omega
  · change (k.lastBufferUsed + 1 + 1).toInt ≤ (500 : ℕ)
    omega
  · intro r
    change ∃ n, RingOf 50 n (update k.intMessageQueue q _ r)
      (update k.intMessageQueue q _ r).contents
    by_cases hr : r = q
    · subst hr
      obtain ⟨mq',l,n,henq',hring,-⟩ := h.enqueue r (k.lastBufferUsed+1)
      obtain rfl := Option.some.inj (henq.symm.trans henq')
      rw [update_self]
      exact ⟨n,hring.contents⟩
    · rw [update_of_ne hr]
      exact h.ring r
  · intro r n hn
    change 0 ≤ n.toInt ∧ n.toInt ≤ (k.lastBufferUsed + 1 + 1).toInt ∧ n.toInt < (500 : ℕ)
    rcases h.mem_update henq hn with hold | ⟨rfl,-⟩
    · obtain ⟨h0,hle,hlt⟩ := h.number r n hold
      exact ⟨h0,by omega,hlt⟩
    · exact ⟨by omega,by omega,by omega⟩

/-- What a `recv` of the number `x` leaves behind. -/
def taken (k : Post) (q : QPid) (mq : Queue Int32) : Post :=
  { k with intMessageQueue := update k.intMessageQueue q mq }

theorem recv_cases (h : Orderly k) (p : PSlot) (str : UInt32) (buffer low : Mem) :
    (∃ q, (k.tables.proc p).pid = (q.val : ℤ) ∧
      ((k.intMessageQueue q).contents = [] ∧
        run k (.recv p str buffer low) = .error (.panic "sched ptable.lock") ∨
      ∃ mq l n x, (k.intMessageQueue q).contents = x :: l ∧ RingOf 50 n mq l ∧
        run k (.recv p str buffer low) = .ok (taken k q mq,
          some (cstr (safestrcpy buffer ((k.messageBuffers x.toInt).getD low) 8) 0 8)))) ∨
    (∃ table i, run k (.recv p str buffer low) = .error (.index table i)) ∧
      ¬ (0 ≤ (k.tables.proc p).pid ∧ (k.tables.proc p).pid < 64) := by
  rcases slot_cases (k.tables.proc p).pid with ⟨q,hpid⟩ | ⟨hslot,hnot⟩
  · refine .inl ⟨q,hpid,?_⟩
    obtain ⟨n,hring⟩ := h.ring q
    rcases hc : (k.intMessageQueue q).contents with _ | ⟨x,l⟩
    · refine .inl ⟨rfl,?_⟩
      have hempty : isEmpty (k.intMessageQueue q) = true := hring.empty_iff.mpr hc
      obtain ⟨hwords,hcap,hlast,hwait⟩ := h.idle q
      have hnotfull : isWaitFull (k.waitQueue q) = false := by
        rw [isWaitEmpty,Queue.empty,beq_iff_eq] at hwait
        rw [isWaitFull,Queue.full,hwait,hcap]
        rfl
      have hindex : ((k.waitQueue q).last+1).toNat < (k.waitQueue q).words := by
        rw [hlast,hwords]
        decide
      simp only [run,checkNumber,hpid,slot_eq,recv,bind,Except.bind,hempty,if_true,waitenqueue,
        hnotfull,Bool.false_eq_true,if_false,Queue.store,if_pos hindex,inPage]
      rfl
    · rw [hc] at hring
      obtain ⟨mq,hdeq,hmq⟩ := hring.dequeue
      have hempty : isEmpty (k.intMessageQueue q) = false := by
        refine Bool.eq_false_iff.mpr fun hempty => ?_
        cases hring.empty_iff.mp hempty
      obtain ⟨h0,-,hlt⟩ := h.number q x (by rw [hc]; exact List.mem_cons_self)
      have hcheck : inBuffers x = .ok () := if_pos ⟨h0,hlt⟩
      refine .inr ⟨mq,l,n,x,rfl,hmq,?_⟩
      simp only [run,checkNumber,hpid,slot_eq,recv,bind,Except.bind,hempty,Bool.false_eq_true,
        if_false,hdeq,inPage,hcheck]
      rfl
  · refine .inr ⟨⟨.intMessageQueue,(k.tables.proc p).pid,?_⟩,hnot⟩
    simp only [run,checkNumber,hslot,bind,Except.bind]

theorem contents_taken {mq : Queue Int32} {l : List Int32} {x : Int32} {n : ℕ}
    (hcons : (k.intMessageQueue q).contents = x :: l) (hring : RingOf 50 n mq l) (r : QPid) :
    (k.intMessageQueue r).contents = (if r = q then [x] else []) ++
      ((taken k q mq).intMessageQueue r).contents := by
  change _ = _ ++ (update k.intMessageQueue q mq r).contents
  by_cases hr : r = q
  · rw [hr,update_self,hring.contents_eq,hcons,if_pos rfl,List.singleton_append]
  · rw [update_of_ne hr,if_neg hr,List.nil_append]

theorem Orderly.taken (h : Orderly k) {mq : Queue Int32} {l : List Int32} {x : Int32} {n : ℕ}
    (hcons : (k.intMessageQueue q).contents = x :: l) (hring : RingOf 50 n mq l) :
    Orderly (taken k q mq) := by
  refine ⟨h.nonneg,h.le,fun r => ?_,fun r i hi => ?_,h.idle⟩
  · change ∃ n, RingOf 50 n (update k.intMessageQueue q mq r)
      (update k.intMessageQueue q mq r).contents
    by_cases hr : r = q
    · subst hr
      rw [update_self]
      exact ⟨n,hring.contents⟩
    · rw [update_of_ne hr]
      exact h.ring r
  · refine h.number r i ?_
    rw [contents_taken hcons hring]
    exact List.mem_append_right _ hi

theorem Orderly.run (h : Orderly k) {c : Call} {got : Option (List UInt8)}
    (hrun : Ipc.run k c = .ok (k', got)) : Orderly k' := by
  cases c with
  | send p recPid text page =>
    rcases send_cases h p recPid text page with ⟨q,mq,hb,-,henq,heq⟩ | ⟨⟨table,i,heq⟩,-⟩
    · cases heq.symm.trans hrun
      exact h.sent hb henq text page
    · cases heq.symm.trans hrun
  | recv p str buffer low =>
    rcases recv_cases h p str buffer low with
      ⟨q,-,⟨-,heq⟩ | ⟨mq,l,n,x,hcons,hring,heq⟩⟩ | ⟨⟨table,i,heq⟩,-⟩
    · cases heq.symm.trans hrun
    · cases heq.symm.trans hrun
      exact h.taken hcons hring
    · cases heq.symm.trans hrun

theorem Orderly.step (h : Orderly k) {a : Act} (hstep : Ipc.step k a = some k') : Orderly k' := by
  cases a with
  | table a =>
    rw [Ipc.step,Option.map_eq_some_iff] at hstep
    obtain ⟨t,-,rfl⟩ := hstep
    exact ⟨h.nonneg,h.le,h.ring,h.number,h.idle⟩
  | call c =>
    rw [Ipc.step] at hstep
    split at hstep
    · rcases hrun : Ipc.run k c with e | ⟨k1,got⟩
      · rw [hrun] at hstep
        cases hstep
      · rw [hrun] at hstep
        cases hstep
        exact h.run hrun
    · cases hstep

/-- In every run, a message call stays inside the tables, with a buffer number that no pending
message has, exactly if the counter is below 499 before a `send` and the pids of the receiver and of
a receiving caller are below 64. -/
theorem message_indices_in_range_iff {pages : QPid → ℕ → Int32}
    {waiting : QPid → ℕ → WaitQueueItem} {acts : List Act}
    (hrun : exec step (initQueues .boot pages waiting) acts = some k) (c : Call) :
    InRange k c ↔ Small k c := by
  have h : Orderly k :=
    exec_invariant (fun _ _ _ hk hstep => hk.step hstep) (orderly_initQueues .boot pages waiting)
      hrun
  cases c with
  | send p recPid text page =>
    have hone := h.next
    rw [InRange,Small,← hone]
    rcases send_cases h p recPid text page with ⟨q,mq,hb,hq,-,heq⟩ | ⟨⟨table,i,heq⟩,hnot⟩
    · refine iff_of_true ⟨?_,?_⟩ ⟨?_,?_,?_⟩
      · intro table i
        rw [heq]
        exact fun hc => by cases hc
      · intro r hmem
        have hle := (h.number r _ hmem).2.1
        change (k.lastBufferUsed + 1).toInt ≤ _ at hle
        omega
      · exact hb
      · omega
      · have := q.isLt
        omega
    · exact iff_of_false (fun hall => hall.1 table i heq) hnot
  | recv p str buffer low =>
    rw [InRange,Small]
    rcases recv_cases h p str buffer low with ⟨q,hpid,heq⟩ | ⟨⟨table,i,heq⟩,hnot⟩
    · have := q.isLt
      refine iff_of_true ⟨fun table i => ?_,trivial⟩ ⟨by omega,by omega⟩
      rcases heq with ⟨-,heq⟩ | ⟨mq,l,n,x,-,-,heq⟩
      · rw [heq]
        exact fun hc => by cases hc
      · rw [heq]
        exact fun hc => by cases hc
    · exact iff_of_false (fun hall => hall.1 table i heq) hnot

def running : Tables := Tables.boot.setState initproc .RUNNING

/-- The first process sends an empty message to its own pid. -/
def selfSend : Call := .send initproc 1 (fun _ => 0) none

def own : QPid := ⟨1, by decide⟩

/-- Only the queue of the first process is used. -/
structure Alone (k : Post) : Prop where
  orderly : Orderly k
  tables : k.tables = running
  others : ∀ q, q ≠ own → (k.intMessageQueue q).size.toNat = 0

theorem Alone.pendingCount_le (h : Alone k) : pendingCount k ≤ 50 := by
  have hsum : pendingCount k = (k.intMessageQueue own).size.toNat :=
    Finset.sum_eq_single own (fun q _ hq => h.others q hq)
      fun hown => absurd (Finset.mem_univ own) hown
  obtain ⟨n,hring⟩ := h.orderly.ring own
  rw [hsum]
  exact hring.size_le

theorem Alone.live (h : Alone k) : Live k selfSend := by
  rw [selfSend,Live,h.tables]
  exact ⟨by decide,initproc,by decide,by decide,by decide⟩

theorem Alone.send (h : Alone k) (hlast : k.lastBufferUsed.toInt + 1 < NumberOfMessageBuffers) :
    ∃ k', step k (.call selfSend) = some k' ∧ Alone k' ∧
      k'.lastBufferUsed.toInt = k.lastBufferUsed.toInt+2 := by
  have hone := h.orderly.next
  have hnonneg := h.orderly.nonneg
  rcases send_cases h.orderly initproc 1 (fun _ => 0) none with ⟨q,mq,hb,hq,henq,heq⟩ | ⟨-,hnot⟩
  · have hown : q = own := Fin.ext (by change q.val = 1; omega)
    subst hown
    refine ⟨sent k own mq (fun _ => 0) none,?_,⟨h.orderly.sent hb henq _ _,h.tables,?_⟩,?_⟩
    · rw [step,if_pos h.live,selfSend,heq]
      rfl
    · intro r hr
      change (update k.intMessageQueue own _ r).size.toNat = 0
      rw [update_of_ne hr]
      exact h.others r hr
    · exact h.orderly.next_two hb
  · refine absurd ⟨?_,?_,?_⟩ hnot <;> omega

theorem Alone.sends (h : Alone k) {n : ℕ}
    (hlast : k.lastBufferUsed.toInt + 2 * n ≤ NumberOfMessageBuffers) :
    ∃ k', exec step k (List.replicate n (.call selfSend)) = some k' ∧ Alone k' ∧
      k'.lastBufferUsed.toInt = k.lastBufferUsed.toInt + 2 * n ∧
      Throughout step (fun k => pendingCount k ≤ 50) k (List.replicate n (.call selfSend)) := by
  induction n generalizing k with
  | zero => exact ⟨k,rfl,h,by simp,h.pendingCount_le⟩
  | succ n ih =>
    obtain ⟨k1,hstep,h1,hlast1⟩ := h.send (by omega)
    obtain ⟨k',hexec,h',hlast',hall⟩ := ih h1 (by omega)
    refine ⟨k',exec_cons.mpr ⟨k1,hstep,hexec⟩,h',by omega,h.pendingCount_le,?_⟩
    intro s hs
    rw [← Option.some.inj (hstep.symm.trans hs)]
    exact hall

theorem alone_scheduled : ∃ k, step (initQueues .boot (fun _ _ => 0) fun _ _ => ⟨0, 0⟩)
      (.table (.schedule initproc)) = some k ∧ Alone k ∧ k.lastBufferUsed = 0 := by
  have h := orderly_initQueues .boot (fun _ _ => 0) fun _ _ => ⟨0,0⟩
  refine ⟨_,rfl,⟨⟨h.nonneg,h.le,h.ring,h.number,h.idle⟩,rfl,?_⟩,rfl⟩
  intro q _
  rfl

/-- The first message of the first process is in range. -/
theorem message_indices_in_range_first : ∃ k,
    exec step (initQueues .boot (fun _ _ => 0) fun _ _ => ⟨0, 0⟩)
      [.table (.schedule initproc)] = some k ∧ InRange k selfSend := by
  obtain ⟨k,hstep,-,hlast⟩ := alone_scheduled
  have hrun := exec_cons.mpr ⟨k,hstep,exec_nil k⟩
  refine ⟨k,hrun,(message_indices_in_range_iff hrun selfSend).mpr ?_⟩
  change k.lastBufferUsed.toInt + 1 < (500 : ℕ) ∧ (0 : ℤ) ≤ 1 ∧ (1 : ℤ) < 64
  rw [hlast]
  decide

/-- A process that sends itself 251 messages: at most 50 are ever pending, and the last one gets
number 501. -/
theorem message_number_out_of_range : ¬ ∀ (pages : QPid → ℕ → Int32)
    (waiting : QPid → ℕ → WaitQueueItem) (acts : List Act) (k : Post) (c : Call),
    exec step (initQueues .boot pages waiting) acts = some k →
    Throughout step (fun k => pendingCount k ≤ 50) (initQueues .boot pages waiting) acts →
    Live k c → InRange k c := by
  intro hall
  obtain ⟨k0,hstep,h₀,hlast0⟩ := alone_scheduled
  have hzero : k0.lastBufferUsed.toInt = 0 := by
    rw [hlast0]
    decide
  obtain ⟨k,hexec,h,hlast,hpending⟩ := h₀.sends (n := 250) (by rw [hzero]; decide)
  have hin := hall _ _ (.table (.schedule initproc) :: List.replicate 250 (.call selfSend))
    k selfSend (exec_cons.mpr ⟨k0,hstep,hexec⟩)
    ⟨by decide,fun s hs => by rwa [← Option.some.inj (hstep.symm.trans hs)]⟩ h.live
  rcases send_cases h.orderly initproc 1 (fun _ => 0) none with ⟨q,mq,hb,-⟩ | ⟨⟨table,i,heq⟩,-⟩
  · have hone := h.orderly.next
    have hlt : (k.lastBufferUsed+1).toInt < 500 := hb
    omega
  · exact hin.1 table i heq

end Xv6Container.Ipc
