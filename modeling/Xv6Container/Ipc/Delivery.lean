import Xv6Container.Ipc.Indices

/-! # Delivery of messages -/

namespace Xv6Container.Ipc

open Function Run List

theorem safestrcpyLoop_of_lt {s t : Mem} {i j n : ℕ} (h : j < i) :
    safestrcpyLoop s t i n j = s j := by
  induction n generalizing s i with
  | zero => exact update_of_ne (by omega) _ _
  | succ n ih =>
    simp only [safestrcpyLoop]
    split
    · rw [update_of_ne (by omega),update_of_ne (by omega)]
    · rw [ih (by omega),update_of_ne (by omega)]

theorem cstr_safestrcpyLoop (s t : Mem) (i n : ℕ) :
    cstr (safestrcpyLoop s t i n) i (n+1) = cstr t i n := by
  induction n generalizing s i with
  | zero => simp [cstr,safestrcpyLoop]
  | succ n ih =>
    rw [cstr]
    by_cases h : t i = 0
    · simp [safestrcpyLoop,cstr,h]
    · have hi : safestrcpyLoop s t i (n+1) i = t i := by
        simp only [safestrcpyLoop,h,if_false]
        rw [safestrcpyLoop_of_lt (by omega),update_self]
      have hrest : safestrcpyLoop s t i (n+1) =
          safestrcpyLoop (update s i (t i)) t (i+1) n := by
        simp [safestrcpyLoop,h]
      rw [hi,if_neg h,hrest,ih,cstr,if_neg h]

theorem cstr_safestrcpy (s t : Mem) : cstr (safestrcpy s t 8) 0 8 = cstr t 0 7 :=
  cstr_safestrcpyLoop s t 0 7

theorem cstr_eq_of_length_le {t : Mem} {i n : ℕ} (h : (cstr t i (n+1)).length ≤ n) :
    cstr t i n = cstr t i (n+1) := by
  induction n generalizing i with
  | zero =>
    rw [cstr]
    exact (eq_nil_of_length_eq_zero (by omega)).symm
  | succ n ih =>
    rw [cstr,cstr]
    split
    · rfl
    · next hi =>
      rw [cstr,if_neg hi,length_cons] at h
      rw [ih (by omega)]

theorem length_cstr_le (t : Mem) (i n : ℕ) : (cstr t i n).length ≤ n := by
  induction n generalizing i with
  | zero => simp [cstr]
  | succ n ih =>
    rw [cstr]
    split
    · simp
    · simpa using ih (i+1)

theorem cstr_page (page msg : Mem) : cstr (safestrcpy page msg 8) 0 7 = cstr msg 0 7 := by
  have h := cstr_safestrcpy page msg
  rw [cstr_eq_of_length_le (by rw [h]; exact length_cstr_le msg 0 7),h]

/-- The kernel, and the strings that the returned `recv` calls of each pid found in their buffers,
in order. -/
structure Mail where
  post : Post
  got : QPid → List (List UInt8)

/-- The pid of the process that makes the call has received a string. -/
def Mail.note (m : Mail) (k : Post) (pid : ℤ) : Option (List UInt8) → Mail
  | none => { m with post := k }
  | some text => ⟨k, fun r => if pid = r.val then m.got r ++ [text] else m.got r⟩

def Call.caller : Call → PSlot
  | .send p _ _ _ | .recv p _ _ _ => p

def Mail.step (m : Mail) (c : Call) : Option Mail :=
  (run m.post c).toOption.map fun r => m.note r.1 (m.post.tables.proc c.caller).pid r.2

/-- The strings sent to `r`: of each, what a copy of 8 bytes keeps. -/
def sentTo (r : QPid) : List Call → List (List UInt8)
  | [] => []
  | .send _ recPid text _ :: calls =>
    if recPid = r.val then cstr text 0 7 :: sentTo r calls else sentTo r calls
  | .recv _ _ _ _ :: calls => sentTo r calls

/-- How often the process with pid `r` calls `recv`. -/
def recvsOf (tables : Tables) (r : QPid) : List Call → ℕ
  | [] => 0
  | .recv p _ _ _ :: calls =>
    if (tables.proc p).pid = r.val then recvsOf tables r calls + 1 else recvsOf tables r calls
  | .send _ _ _ _ :: calls => recvsOf tables r calls

variable {tables : Tables} {k : Post} {m : Mail} {q r : QPid} {p : PSlot}

/-- The string that a receiver of buffer `i` gets. -/
def bufferText (k : Post) (i : Int32) : List UInt8 :=
  match k.messageBuffers i.toInt with
  | some page => cstr page 0 7
  | none => []

def pending (k : Post) (r : QPid) : List (List UInt8) :=
  (k.intMessageQueue r).contents.map (bufferText k)

/-- Every queue holds numbers of allocated buffers only; nobody has been woken. -/
structure QueuesOk (tables : Tables) (k : Post) : Prop where
  orderly : Orderly k
  allocated : ∀ r, ∀ i ∈ (k.intMessageQueue r).contents, (k.messageBuffers i.toInt).isSome
  tables_eq : k.tables = tables

/-- When a call does its part: a `send` finds a buffer number, a page, and room in the queue of its
receiver, a `recv` finds a message. -/
def CallOk (m : Mail) : Call → Prop
  | .send _ recPid _ page =>
    m.post.lastBufferUsed.toInt + 1 < NumberOfMessageBuffers ∧ page.isSome = true ∧
      ∃ q : QPid, recPid = q.val ∧ (m.post.intMessageQueue q).size < 50
  | .recv p _ _ _ =>
    ∃ q : QPid, (m.post.tables.proc p).pid = q.val ∧ (m.post.intMessageQueue q).size ≠ 0

instance (m : Mail) : DecidablePred (CallOk m)
  | .send .. => inferInstanceAs (Decidable (_ ∧ _))
  | .recv .. => inferInstanceAs (Decidable (∃ _, _))

theorem QueuesOk.send (hk : QueuesOk tables k) {mq : Queue Int32} {text page : Mem}
    (hb : (k.lastBufferUsed+1).toInt < NumberOfMessageBuffers)
    (hroom : (k.intMessageQueue q).size < 50)
    (henq : enqueue (k.intMessageQueue q) (k.lastBufferUsed+1) = some mq) :
    QueuesOk tables (sent k q mq text (some page)) ∧ ∀ r, pending (sent k q mq text (some page)) r =
      pending k r ++ if q = r then [cstr text 0 7] else [] := by
  have hnext := hk.orderly.next
  have hnew : ∀ r, ∀ i ∈ (k.intMessageQueue r).contents,
      i.toInt ≠ (k.lastBufferUsed+1).toInt := by
    intro r i hi
    have := (hk.orderly.number r i hi).2.1
    omega
  have hlt : (k.intMessageQueue q).contents.length < 50 := by
    obtain ⟨n,hring⟩ := hk.orderly.ring q
    rw [hring.length_eq]
    exact UInt32.lt_iff_toNat_lt.mp hroom
  refine ⟨⟨hk.orderly.sent hb henq text (some page),fun r i hi => ?_,hk.tables_eq⟩,fun r => ?_⟩
  · change (update k.messageBuffers _ _ i.toInt).isSome
    rcases hk.orderly.mem_update henq hi with hi | ⟨rfl,-⟩
    · rw [update_of_ne (hnew r i hi)]
      exact hk.allocated r i hi
    · rw [update_self]
      rfl
  have hold : (k.intMessageQueue r).contents.map (bufferText (sent k q mq text (some page))) =
      pending k r := by
    refine map_congr_left fun i hi => ?_
    change (match update k.messageBuffers _ _ i.toInt with
      | some page => cstr page 0 7
      | none => []) = _
    rw [update_of_ne (hnew r i hi)]
    rfl
  change (update k.intMessageQueue q mq r).contents.map _ = _
  rw [hk.orderly.contents_update henq,map_append,hold]
  by_cases hr : r = q
  · simp [hr,hlt,bufferText,sent,cstr_page]
  · simp [hr,Ne.symm hr]

theorem QueuesOk.recv (hk : QueuesOk tables k) {mq : Queue Int32} {l : List Int32} {x : Int32}
    {n : ℕ} (hcons : (k.intMessageQueue q).contents = x :: l) (hring : RingOf 50 n mq l)
    (buffer low : Mem) : QueuesOk tables (taken k q mq) ∧
      (∀ r, r ≠ q → pending (taken k q mq) r = pending k r) ∧
      pending k q = cstr (safestrcpy buffer ((k.messageBuffers x.toInt).getD low) 8) 0 8 ::
        pending (taken k q mq) q := by
  have hall := contents_taken hcons hring
  refine ⟨⟨hk.orderly.taken hcons hring,fun r i hi => hk.allocated r i ?_,hk.tables_eq⟩,?_,?_⟩
  · rw [hall]
    exact mem_append_right _ hi
  · intro r hr
    rw [pending,pending,hall r,if_neg hr]
    rfl
  · obtain ⟨page,hpage⟩ := Option.isSome_iff_exists.mp
      (hk.allocated q x (by rw [hcons]; exact mem_cons_self))
    rw [pending,hall q,if_pos rfl,singleton_append,map_cons,hpage,Option.getD_some,
      cstr_safestrcpy,bufferText,hpage]
    rfl

theorem step_delivers (hk : QueuesOk tables m.post) {c : Call} (hok : CallOk m c) :
    ∃ m', Mail.step m c = some m' ∧ QueuesOk tables m'.post ∧ ∀ r,
      m'.got r ++ pending m'.post r = m.got r ++ pending m.post r ++ sentTo r [c] ∧
      (m'.got r).length = (m.got r).length + recvsOf tables r [c] := by
  cases c with
  | send p recPid text page =>
    obtain ⟨hbuf,hpage,q,rfl,hroom⟩ := hok
    obtain ⟨page,rfl⟩ := Option.isSome_iff_exists.mp hpage
    rw [← hk.orderly.next] at hbuf
    rcases send_cases hk.orderly p q.val text (some page) with
      ⟨q',mq,hb,hq,henq,heq⟩ | ⟨-,hnot⟩
    · obtain rfl : q = q' := Fin.ext (by exact_mod_cast hq)
      obtain ⟨hk',hpend⟩ := hk.send hb hroom henq
      refine ⟨⟨sent m.post q mq text (some page),m.got⟩,by rw [Mail.step,heq]; rfl,hk',fun r => ?_⟩
      simp only [hpend r,sentTo,recvsOf,append_assoc,Nat.add_zero,and_true,Nat.cast_inj,Fin.val_inj]
    · have := q.isLt
      exact absurd ⟨hbuf,by omega,by omega⟩ hnot
  | recv p str buffer low =>
    obtain ⟨q,hpid,hsize⟩ := hok
    rcases recv_cases hk.orderly p str buffer low with
      ⟨q',hpid',⟨hnil,-⟩ | ⟨mq,l,n,x,hcons,hring,heq⟩⟩ | ⟨-,hnot⟩
    · obtain rfl : q = q' := Fin.ext (by exact_mod_cast hpid.symm.trans hpid')
      obtain ⟨n₀,hq⟩ := hk.orderly.ring q
      have hlen := hq.length_eq
      rw [hnil] at hlen
      exact absurd (UInt32.toNat_inj.mp hlen.symm) hsize
    · obtain rfl : q = q' := Fin.ext (by exact_mod_cast hpid.symm.trans hpid')
      obtain ⟨hk',hother,hself⟩ := hk.recv hcons hring buffer low
      refine ⟨_,by rw [Mail.step,heq]; rfl,hk',fun r => ?_⟩
      rw [hk.tables_eq] at hpid
      change (if (m.post.tables.proc p).pid = r.val then _ else _) ++ pending (taken _ _ _) r = _ ∧
        (if (m.post.tables.proc p).pid = r.val then _ else _ : List _).length = _
      rw [hk.tables_eq,hpid]
      by_cases hr : r = q
      · subst hr
        simp [sentTo,recvsOf,hself,hpid]
      · have hne : ¬ (q.val : ℤ) = r.val := fun he => hr (Fin.ext (by exact_mod_cast he.symm))
        simp [sentTo,recvsOf,hother r hr,hpid,hne]
    · have := q.isLt
      exact absurd ⟨by omega,by omega⟩ hnot

theorem sentTo_cons (r : QPid) (c : Call) (calls : List Call) :
    sentTo r (c :: calls) = sentTo r [c] ++ sentTo r calls := by
  cases c with
  | send =>
    simp only [sentTo]
    split <;> rfl
  | recv => rfl

theorem recvsOf_cons (tables : Tables) (r : QPid) (c : Call) (calls : List Call) :
    recvsOf tables r (c :: calls) = recvsOf tables r [c] + recvsOf tables r calls := by
  cases c with
  | send => simp [recvsOf]
  | recv =>
    simp only [recvsOf]
    split <;> omega

theorem run_delivers {calls : List Call} (hk : QueuesOk tables m.post)
    (hok : Meets Mail.step CallOk m calls) :
    ∃ m', exec Mail.step m calls = some m' ∧ QueuesOk tables m'.post ∧ ∀ r,
      m'.got r ++ pending m'.post r = m.got r ++ pending m.post r ++ sentTo r calls ∧
      (m'.got r).length = (m.got r).length + recvsOf tables r calls := by
  induction calls generalizing m with
  | nil => exact ⟨m,rfl,hk,fun r => ⟨by simp [sentTo],by simp [recvsOf]⟩⟩
  | cons c calls ih =>
    obtain ⟨m1,hs,hk1,h1⟩ := step_delivers hk hok.1
    obtain ⟨m2,hrun,hk2,h2⟩ := ih hk1 (hok.2 m1 hs)
    refine ⟨m2,exec_cons.mpr ⟨m1,hs,hrun⟩,hk2,fun r => ⟨?_,?_⟩⟩
    · rw [(h2 r).1,(h1 r).1,sentTo_cons r c calls,append_assoc,append_assoc]
    · rw [(h2 r).2,(h1 r).2,recvsOf_cons tables r c calls,Nat.add_assoc]

/-- Before the first message call, with any process table. -/
def Mail.boot (tables : Tables) (pages : QPid → ℕ → Int32) (waiting : QPid → ℕ → WaitQueueItem) :
    Mail := ⟨initQueues tables pages waiting, fun _ => []⟩

/-- In every run whose calls all meet `CallOk` every call returns, and what the `recv` calls of a
process got are the first of the strings sent to it, in the order of sending. -/
theorem messages_delivered_in_order {tables : Tables} {pages : QPid → ℕ → Int32}
    {waiting : QPid → ℕ → WaitQueueItem} {calls : List Call}
    (hok : Meets Mail.step CallOk (Mail.boot tables pages waiting) calls) :
    ∃ m, exec Mail.step (Mail.boot tables pages waiting) calls = some m ∧
      ∀ r, m.got r = (sentTo r calls).take (recvsOf tables r calls) := by
  have h₀ : QueuesOk tables (Mail.boot tables pages waiting).post :=
    ⟨orderly_initQueues tables pages waiting,fun r i hi => absurd hi not_mem_nil,rfl⟩
  obtain ⟨m,hrun,-,h⟩ := run_delivers h₀ hok
  refine ⟨m,hrun,fun r => ?_⟩
  obtain ⟨happ,hlen⟩ := h r
  have hsent : sentTo r calls = m.got r ++ pending m.post r := by
    rw [happ]
    rfl
  have hlen' : recvsOf tables r calls = (m.got r).length := by
    rw [hlen]
    exact (Nat.zero_add _).symm
  rw [hsent,hlen',take_left]

def hi : Mem
  | 0 => 104
  | 1 => 105
  | _ => 0

def alphabet : Mem := fun i => 97 + UInt8.ofNat i

/-- The first process sends itself two texts, the second one without an end. -/
def letters : List Call :=
  [.send initproc 1 hi (some hi), .send initproc 1 alphabet (some hi), .recv initproc 0 hi hi,
    .recv initproc 0 hi hi]

theorem messages_delivered_in_order_letters :
    ∃ m, exec Mail.step (Mail.boot .boot (fun _ _ => 0) fun _ _ => ⟨0, 0⟩) letters = some m ∧
      m.got own = [[104, 105], [97, 98, 99, 100, 101, 102, 103]] := by
  have hok : Meets Mail.step CallOk (Mail.boot .boot (fun _ _ => 0) fun _ _ => ⟨0, 0⟩) letters := by
    decide +kernel
  obtain ⟨m,hrun,hgot⟩ := messages_delivered_in_order hok
  refine ⟨m,hrun,(hgot own).trans ?_⟩
  decide

/-- A `recv` before the `send` stops the kernel. -/
theorem messages_not_delivered :
    ¬ ∀ tables pages waiting calls, ∃ m,
      exec Mail.step (Mail.boot tables pages waiting) calls = some m ∧
      ∀ r, m.got r = (sentTo r calls).take (recvsOf tables r calls) := by
  intro h
  obtain ⟨m,hrun,-⟩ := h .boot (fun _ _ => 0) (fun _ _ => ⟨0,0⟩)
    [.recv initproc 0 hi hi,.send initproc 1 hi (some hi)]
  cases hrun

/-- The ring is inside its page. -/
structure Queue.Fits {α : Type*} (mq : Queue α) : Prop where
  front_lt : mq.front.toNat < mq.capacity.toNat
  capacity_le : mq.capacity.toNat ≤ mq.words

/-- The process that waits for a message to `r`: it sleeps, and the item that `waitdequeue` takes
next has its pid. -/
inductive Waiter (k : Post) (r : QPid) : Option PSlot → Prop
  | blocked {p : PSlot} (hpid : (k.tables.proc p).pid = r.val)
      (hstate : (k.tables.proc p).state = .SLEEPING)
      (hsize : isWaitEmpty (k.waitQueue r) = false)
      (hitem : ((k.waitQueue r).arr (k.waitQueue r).front.toNat).pid.toInt = r.val) :
      Waiter k r (some p)
  | nobody (hsize : isWaitEmpty (k.waitQueue r) = true) : Waiter k r none

/-- The call returns, and of all processes exactly the one given has become runnable. -/
def WakesOnly (k : Post) (q : Option PSlot) (result : Except Fault Post) : Prop :=
  ∃ k', result = .ok k' ∧ ∀ p, (k'.tables.proc p).state =
    if q = some p then .RUNNABLE else (k.tables.proc p).state

theorem enqueue_isSome {mq : Queue Int32} (h : mq.Fits) (item : Int32) :
    ∃ mq', enqueue mq item = some mq' := by
  have hcap := h.front_lt
  rw [enqueue]
  split
  · exact ⟨mq,rfl⟩
  · refine ⟨_,if_pos (lt_of_lt_of_le ?_ h.capacity_le)⟩
    rw [UInt32.toNat_mod]
    exact Nat.mod_lt _ (by omega)

theorem Queue.Fits.take {α : Type*} {mq : Queue α} (h : mq.Fits) :
    ∃ mq', mq.take = some (mq', mq.arr mq.front.toNat) :=
  ⟨_,if_pos (h.front_lt.trans_le h.capacity_le)⟩

/-- What `send` does to the process table: the slot whose number is the pid of the waiter. -/
theorem Waiter.send {q : Option PSlot} (hq : Waiter k r q) (hring : (k.intMessageQueue r).Fits)
    (hline : (k.waitQueue r).Fits) (text : Mem) (page : Option Mem) :
    ∃ k', send k r.val text page = .ok k' ∧
      k'.tables = if q.isSome then k.tables.setState r .RUNNABLE else k.tables := by
  obtain ⟨mq,henq⟩ := enqueue_isSome hring (k.lastBufferUsed+1)
  have hwake : ∃ wq, wakeReceiver k.tables k.waitQueue r.val =
      .ok (if q.isSome then k.tables.setState r .RUNNABLE else k.tables, wq) := by
    cases hq with
    | nobody hsize =>
      refine ⟨k.waitQueue,?_⟩
      simp only [wakeReceiver,slot_eq,bind,Except.bind,hsize,if_true]
      rfl
    | blocked hpid hstate hsize hitem =>
      obtain ⟨wq,htake⟩ := hline.take
      refine ⟨update k.waitQueue r wq,?_⟩
      simp only [wakeReceiver,slot_eq,bind,Except.bind,hsize,Bool.false_eq_true,if_false,waitdequeue,
        htake,inPage,hitem]
      rfl
  obtain ⟨wq,hwake⟩ := hwake
  exact ⟨_,by simp only [Ipc.send,getMessageBuffer,hwake,slot_eq,henq,inPage,bind,Except.bind]; rfl,
    rfl⟩

/-- A `send` returns and wakes exactly the process that waits for it, if that process is in the slot
whose number is its pid. -/
theorem send_wakes_receiver_iff {k : Post} {r : QPid} {q : Option PSlot}
    (hring : (k.intMessageQueue r).Fits) (hline : (k.waitQueue r).Fits) (hq : Waiter k r q)
    (text : Mem) (page : Option Mem) :
    WakesOnly k q (send k r.val text page) ↔ ∀ p, q = some p → p = r := by
  obtain ⟨k',hsend,htables⟩ := hq.send hring hline text page
  cases hq with
  | nobody hsize =>
    refine iff_of_true ⟨k',hsend,fun p => ?_⟩ (by simp)
    rw [htables]
    simp
  | @blocked p hpid hstate hsize hitem =>
    have hstates : ∀ p', (k'.tables.proc p').state =
        if p' = r then .RUNNABLE else (k.tables.proc p').state := by
      intro p'
      rw [htables]
      by_cases hp' : p' = r
      · simp [Tables.setState,Tables.setProc,hp']
      · simp [Tables.setState,Tables.setProc,hp']
    constructor
    · rintro ⟨k'',hres,hall⟩ p' hp'
      obtain rfl := Option.some.inj hp'
      cases hsend.symm.trans hres
      -- the process is asleep, so only a store to its own slot can have woken it
      by_contra hne
      have hp := hall p
      rw [hstates p,if_neg hne,if_pos rfl,hstate] at hp
      cases hp
    · intro hslot
      obtain rfl := hslot p rfl
      refine ⟨k',hsend,fun p' => ?_⟩
      rw [hstates p']
      by_cases hp' : p' = p
      · rw [if_pos hp',if_pos (congrArg some hp'.symm)]
      · rw [if_neg hp',if_neg fun he => hp' (Option.some.inj he).symm]

/-- The process in slot `p`, with pid `r`, waits in `recv`; the others can run. -/
def oneWaiter (pid : PSlot → ℤ) (p : PSlot) (r : QPid) : Post :=
  { initQueues
      { Tables.boot with
        proc := fun p' => { Tables.boot.proc p' with
          pid := pid p'
          state := if p' = p then .SLEEPING else .RUNNABLE } }
      (fun _ _ => 0) (fun _ _ => ⟨Int32.ofNat r, 0⟩) with
    waitQueue := fun _ => { createWaitQueue 50 fun _ => ⟨Int32.ofNat r, 0⟩ with
      last := 0
      size := 1
      used := [0] } }

theorem waiter_oneWaiter (pid : PSlot → ℤ) (p : PSlot) (r : QPid) (h : pid p = r.val) :
    Waiter (oneWaiter pid p r) r (some p) := by
  refine .blocked h ?_ rfl ?_
  · simp [oneWaiter,initQueues]
  · have hr := r.isLt
    change (Int32.ofNat r.val).toInt = r.val
    rw [Int32.toInt_ofNat_of_lt]
    omega

theorem send_wakes_receiver_iff_slot :
    WakesOnly (oneWaiter (fun p => p.val) own own) (some own)
      (send (oneWaiter (fun p => p.val) own own) 1 hi none) :=
  (send_wakes_receiver_iff ⟨by decide,by decide⟩ ⟨by decide,by decide⟩ (waiter_oneWaiter _ _ _ rfl) hi
    none).mpr fun _ hp => (Option.some.inj hp).symm

def DistinctPids (tables : Tables) : Prop :=
  ∀ p p', tables.Used p → tables.Used p' → (tables.proc p).pid = (tables.proc p').pid → p = p'

/-- With every process one slot below its pid, `send` wakes the neighbour of the process that
waits. -/
theorem send_wakes_other_process : ¬ ∀ (k : Post) (r : QPid) (q : Option PSlot) (text : Mem)
    (page : Option Mem), (k.intMessageQueue r).Fits → (k.waitQueue r).Fits →
      DistinctPids k.tables → Waiter k r q → WakesOnly k q (send k r.val text page) := by
  intro hall
  have hwait := waiter_oneWaiter (fun p => p.val + 1) initproc own rfl
  obtain ⟨k',hres,hstates⟩ := hall (oneWaiter (fun p => p.val + 1) initproc own) own (some initproc)
    hi (some hi) ⟨by decide,by decide⟩ ⟨by decide,by decide⟩
    (fun p p' _ _ he => Fin.ext (by simpa [oneWaiter,initQueues] using he)) hwait
  obtain ⟨k'',hsend,htables⟩ := hwait.send ⟨by decide,by decide⟩ ⟨by decide,by decide⟩ hi (some hi)
  cases hsend.symm.trans hres
  have h0 := hstates initproc
  rw [htables,if_pos rfl] at h0
  exact absurd h0 (by decide +kernel)

end Xv6Container.Ipc
