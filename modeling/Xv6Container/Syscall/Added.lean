import Xv6Container.Ipc.Indices
import Xv6Container.Syscall.Args

/-!
# The arguments of the added system calls

The handlers do not look whether fetching their arguments has worked. A parameter whose fetch
fails keeps what the kernel stack holds there; that word is part of the call here. A page fault
is not told apart from an access to the bytes at that address.
-/

namespace Xv6Container.Syscall

open Ipc (Mem Post Fault cstr)

/-- The stores of `safestrcpy(s, t, n + 1)` from offset `i` on. -/
def copies (t : Mem) (i : ℕ) : ℕ → List (ℕ × UInt8)
  | 0 => [(i, 0)]
  | n + 1 => (i, t i) :: if t i = 0 then [(i + 1, 0)] else copies t (i + 1) n

def textAt (u : Caller) (addr : UInt32) : Mem := fun i => u.mem (addr + UInt32.ofNat i)

/-- A call with what the kernel stack holds at its parameters and locals, and the page that `kalloc`
returns to `send`. -/
inductive Call
  | send (senderPid recPid str : UInt32) (page : Option Mem)
  | recv (str : UInt32)
  | createContainer (cid : UInt32)
  | joinContainer (cid : UInt32)
  | destroyContainer (cid : UInt32)

/-- What a call leaves: the tables, the bytes it has stored in the caller's memory and what it
returns. -/
structure Result where
  post : Post
  stores : List (UInt32 × UInt8)
  value : ℤ

def sysSend (k : Post) (u : Caller) (senderPid recPid str : UInt32) (page : Option Mem) :
    Except Fault Result := do
  let _senderPid := (argint u 0 senderPid).2
  let recPid := (argint u 1 recPid).2
  let str := (argstr u 2 str).2
  let k ← Ipc.send k recPid.toInt32.toInt (textAt u str) page
  pure ⟨k, [], 1⟩

/-- A null page is read at address 0 of the caller. -/
def sysRecv (k : Post) (p : PSlot) (u : Caller) (str : UInt32) : Except Fault Result := do
  let str := (argstr u 0 str).2
  let (k, page) ← Ipc.recv k p str
  let stores := copies (page.getD (textAt u 0)) 0 7
  pure ⟨k, stores.map fun s => (str + UInt32.ofNat s.1, s.2), 1⟩

def sysCreateContainer (k : Post) (u : Caller) (cid : UInt32) : Except Fault Result :=
  let cid := (argint u 0 cid).2
  let (t, r) := k.tables.createContainer cid.toInt32.toInt
  .ok ⟨{ k with tables := t }, [], r⟩

def sysJoinContainer (k : Post) (p : PSlot) (u : Caller) (cid : UInt32) : Except Fault Result :=
  let cid := (argint u 0 cid).2
  match k.tables.joinCont p cid.toInt32.toInt with
  | some (t, r) => .ok ⟨{ k with tables := t }, [], r⟩
  | none => .error (.index .mypid NCONT)

def sysDestroyContainer (k : Post) (u : Caller) (cid : UInt32) : Except Fault Result :=
  let cid := (argint u 0 cid).2
  let (t, r) := k.tables.destroyContainer cid.toInt32.toInt
  .ok ⟨{ k with tables := t }, [], r⟩

def run (k : Post) (p : PSlot) (u : Caller) : Call → Except Fault Result
  | .send senderPid recPid str page => sysSend k u senderPid recPid str page
  | .recv str => sysRecv k p u str
  | .createContainer cid => sysCreateContainer k u cid
  | .joinContainer cid => sysJoinContainer k p u cid
  | .destroyContainer cid => sysDestroyContainer k u cid

/-- The fetch of an argument of the call returns -1. -/
def FetchFails (u : Caller) : Call → Prop
  | .send senderPid recPid str _ =>
    (argint u 0 senderPid).1 = -1 ∨ (argint u 1 recPid).1 = -1 ∨ (argstr u 2 str).1 = -1
  | .recv str => (argstr u 0 str).1 = -1
  | .createContainer cid | .joinContainer cid | .destroyContainer cid => (argint u 0 cid).1 = -1

/-- The container table, the process table, the message queues and the buffers are the same. -/
structure Same (k k' : Post) : Prop where
  location : k'.tables.location = k.tables.location
  container : k'.tables.container = k.tables.container
  proc : k'.tables.proc = k.tables.proc
  intMessageQueue : k'.intMessageQueue = k.intMessageQueue
  waitQueue : k'.waitQueue = k.waitQueue
  messageBuffers : k'.messageBuffers = k.messageBuffers

/-- A call whose fetch fails returns -1 and changes nothing, and every byte that the call stores in
the caller's memory lies below its `sz`. -/
def Validates (k : Post) (p : PSlot) (u : Caller) (c : Call) : Prop :=
  (FetchFails u c → ∃ result, run k p u c = .ok result ∧ result.value = -1 ∧
    Same k result.post) ∧
  ∀ result, run k p u c = .ok result → ∀ s ∈ result.stores, s.1.toNat < u.sz.toNat

/-- No fetch of `send` fails. The string of `recv` leaves room for the message, its NUL and the NUL
that `safestrcpy` adds. If the fetch of a container number fails, the word on the kernel stack must
be the number of a container (`create`, which also takes -1 once the table is full) or of none
(`join`, once the numbers of the processes have been swept, and `destroy`). -/
def Careful (k : Post) (p : PSlot) (u : Caller) : Call → Prop
  | .send senderPid recPid str page => ¬ FetchFails u (.send senderPid recPid str page)
  | .recv str => ¬ FetchFails u (.recv str) ∧
      ∀ k' page, Ipc.recv k p (argstr u 0 str).2 = .ok (k', page) →
        (argstr u 0 str).2.toNat +
          min ((cstr (page.getD (textAt u 0)) 0 7).length + 1) 7 < u.sz.toNat
  | .createContainer cid => FetchFails u (.createContainer cid) →
      k.tables.findLive cid.toInt32.toInt ≠ none ∨
        k.tables.freeSlot = none ∧ cid.toInt32.toInt = -1
  | .joinContainer cid => FetchFails u (.joinContainer cid) →
      k.tables.findLive cid.toInt32.toInt = none ∧
        (k.tables.cidToPtable = true ∨ ∀ q, (k.tables.proc q).cid = -1)
  | .destroyContainer cid => FetchFails u (.destroyContainer cid) →
      k.tables.findLive cid.toInt32.toInt = none

theorem copies_le {t : Mem} {i n : ℕ} : ∀ c ∈ copies t i n,
    c.1 ≤ i + min ((cstr t i n).length + 1) n := by
  induction n generalizing i with
  | zero =>
    intro c hc
    rw [List.mem_singleton.mp hc]
    exact Nat.le_add_right _ _
  | succ n ih =>
    intro c hc
    rw [copies] at hc
    rw [cstr]
    rcases List.mem_cons.mp hc with rfl | hc
    · exact Nat.le_add_right _ _
    by_cases h : t i = 0
    · rw [if_pos h] at hc ⊢
      rw [List.mem_singleton.mp hc]
      simp
    · rw [if_neg h] at hc ⊢
      have := ih c hc
      rw [List.length_cons]
      omega

theorem exists_copies (t : Mem) (i n : ℕ) :
    ∃ v, (i + min ((cstr t i n).length + 1) n, v) ∈ copies t i n := by
  induction n generalizing i with
  | zero => exact ⟨0,by simp [copies]⟩
  | succ n ih =>
    rw [copies,cstr]
    by_cases h : t i = 0
    · refine ⟨0,?_⟩
      rw [if_pos h,if_pos h]
      simp
    rw [if_neg h,if_neg h]
    obtain ⟨v,hv⟩ := ih (i+1)
    refine ⟨v,List.mem_cons_of_mem _ ?_⟩
    have hsum : i + min ((t i :: cstr t (i+1) n).length + 1) (n+1) =
        i + 1 + min ((cstr t (i+1) n).length + 1) n := by
      rw [List.length_cons]
      omega
    rwa [hsum]

theorem copies_below_iff {t : Mem} {str : UInt32} {sz : ℕ} (hstr : str.toNat < 2 ^ 31) :
    (∀ s ∈ (copies t 0 7).map (fun s => (str + UInt32.ofNat s.1, s.2)), s.1.toNat < sz) ↔
      str.toNat + min ((cstr t 0 7).length + 1) 7 < sz := by
  have haddr : ∀ j ≤ 7, (str + UInt32.ofNat j).toNat = str.toNat+j := by
    intro j hj
    rw [UInt32.toNat_add,UInt32.toNat_ofNat_of_lt' (by change j < 2 ^ 32; omega),
      Nat.mod_eq_of_lt (by omega)]
  constructor
  · intro h
    obtain ⟨v,hv⟩ := exists_copies t 0 7
    have hlt := h _ (List.mem_map.mpr ⟨_,hv,rfl⟩)
    rw [haddr _ (by omega)] at hlt
    omega
  · intro h s hs
    obtain ⟨c,hc,rfl⟩ := List.mem_map.mp hs
    have hle := copies_le c hc
    change (str + UInt32.ofNat c.1).toNat < sz
    rw [haddr _ (by omega)]
    omega

variable {k : Post} {p : PSlot} {u : Caller}

theorem argint_of_fails (hsz : u.sz < KERNBASE) {n ip : UInt32} (h : (argint u n ip).1 = -1) :
    (argint u n ip).2 = ip := by
  rw [argint_eq hsz] at h ⊢
  split at h
  · exact absurd (show (0 : Int32) = -1 from h) (by decide)
  · next harg => rw [if_neg harg]

theorem argstr_lt (hsz : u.sz < KERNBASE) {n pp : UInt32} (h : (argstr u n pp).1 ≠ -1) :
    (argstr u n pp).2.toNat < 2 ^ 31 := by
  rw [UInt32.lt_iff_toNat_lt] at hsz
  rw [argstr_eq (UInt32.lt_iff_toNat_lt.mpr hsz)] at h ⊢
  change _ < 2 ^ 31 at hsz
  split at h
  · next harg =>
    rw [if_pos harg]
    rw [fetchstr] at h ⊢
    split at h
    · exact absurd rfl h
    · next hlt =>
      rw [if_neg hlt]
      rw [ge_iff_le,UInt32.le_iff_toNat_le,not_le] at hlt
      exact hlt.trans hsz
  · exact absurd rfl h

theorem run_send_ok {senderPid recPid str : UInt32} {page : Option Mem} {result : Result}
    (h : run k p u (.send senderPid recPid str page) = .ok result) :
    result.value = 1 ∧ result.stores = [] := by
  rw [run,sysSend] at h
  rcases hsend : Ipc.send k (argint u 1 recPid).2.toInt32.toInt
    (textAt u (argstr u 2 str).2) page with e | k'
  · rw [hsend] at h
    cases h
  · rw [hsend] at h
    cases h
    exact ⟨rfl,rfl⟩

theorem sysRecv_ok_iff {str : UInt32} {result : Result} : sysRecv k p u str = .ok result ↔
    ∃ k' page, Ipc.recv k p (argstr u 0 str).2 = .ok (k', page) ∧
      result = ⟨k', (copies (page.getD (textAt u 0)) 0 7).map
        (fun s => ((argstr u 0 str).2 + UInt32.ofNat s.1, s.2)), 1⟩ := by
  rw [sysRecv]
  rcases hrecv : Ipc.recv k p (argstr u 0 str).2 with e | ⟨k',page⟩
  · constructor
    · intro h
      cases h
    · rintro ⟨k',page,h,-⟩
      cases h
  · constructor
    · intro h
      cases h
      exact ⟨k',page,rfl,rfl⟩
    · rintro ⟨k'',page',h,rfl⟩
      cases h
      rfl

theorem validates_send_iff {senderPid recPid str : UInt32} {page : Option Mem} :
    Validates k p u (.send senderPid recPid str page) ↔
      Careful k p u (.send senderPid recPid str page) := by
  constructor
  · intro h hfails
    obtain ⟨result,hrun,hvalue,-⟩ := h.1 hfails
    rw [(run_send_ok hrun).1] at hvalue
    exact absurd hvalue (by decide)
  · intro h
    refine ⟨fun hfails => absurd hfails h,fun result hrun s hs => ?_⟩
    rw [(run_send_ok hrun).2] at hs
    cases hs

theorem validates_recv_iff (hsz : u.sz < KERNBASE) {str : UInt32} :
    Validates k p u (.recv str) ↔ Careful k p u (.recv str) := by
  constructor
  · intro h
    have hok : ¬ FetchFails u (.recv str) := by
      intro hfails
      obtain ⟨result,hrun,hvalue,-⟩ := h.1 hfails
      obtain ⟨k',page,-,rfl⟩ := sysRecv_ok_iff.mp hrun
      exact absurd (show (1 : ℤ) = -1 from hvalue) (by decide)
    refine ⟨hok,fun k' page hrecv => ?_⟩
    exact (copies_below_iff (argstr_lt hsz hok)).mp (h.2 _ (sysRecv_ok_iff.mpr ⟨k',page,hrecv,rfl⟩))
  · rintro ⟨hok,hroom⟩
    refine ⟨fun hfails => absurd hfails hok,fun result hrun => ?_⟩
    obtain ⟨k',page,hrecv,rfl⟩ := sysRecv_ok_iff.mp hrun
    exact (copies_below_iff (argstr_lt hsz hok)).mpr (hroom k' page hrecv)

/-- A call on the container table stores nothing in the caller's memory: only a failed fetch
matters, and the call then works with the word on the stack. -/
theorem validates_container_iff {c : Call} {value : Prop}
    (hstores : ∀ result, run k p u c = .ok result → result.stores = []) (hiff : FetchFails u c →
      ((∃ result, run k p u c = .ok result ∧ result.value = -1 ∧ Same k result.post) ↔ value)) :
    Validates k p u c ↔ (FetchFails u c → value) := by
  constructor
  · intro h hfails
    exact (hiff hfails).mp (h.1 hfails)
  · intro h
    refine ⟨fun hfails => (hiff hfails).mpr (h hfails),fun result hrun s hs => ?_⟩
    rw [hstores result hrun] at hs
    cases hs

theorem validates_create_iff (hsz : u.sz < KERNBASE) {cid : UInt32} :
    Validates k p u (.createContainer cid) ↔ Careful k p u (.createContainer cid) := by
  refine validates_container_iff (fun result hrun => ?_) fun hfails => ?_
  · cases hrun
    rfl
  rw [run,sysCreateContainer,argint_of_fails hsz hfails]
  set c := cid.toInt32.toInt
  rcases hlive : k.tables.findLive c with - | i
  · rcases hfree : k.tables.freeSlot with - | i
    · simp only [Tables.createContainer,hlive,hfree]
      constructor
      · rintro ⟨result,hrun,hvalue,-⟩
        cases hrun
        exact .inr ⟨trivial,hvalue⟩
      · rintro (h | ⟨-,h⟩)
        · exact absurd rfl h
        · exact ⟨_,rfl,h,rfl,rfl,rfl,rfl,rfl,rfl⟩
    simp only [Tables.createContainer,hlive,hfree]
    refine iff_of_false ?_ ?_
    · rintro ⟨result,hrun,-,hsame⟩
      cases hrun
      -- the slot that was free is taken now
      have hnew := congrFun hsame.location i
      have hold := List.find?_some hfree
      change Function.update k.tables.location i true i = _ at hnew
      rw [Function.update_self] at hnew
      rw [← hnew] at hold
      exact absurd hold (by decide)
    · rintro (h | ⟨h,-⟩)
      · exact h rfl
      · cases h
  · simp only [Tables.createContainer,hlive]
    refine iff_of_true ⟨_,rfl,rfl,rfl,rfl,rfl,rfl,rfl,rfl⟩ (.inl ?_)
    exact Option.some_ne_none i

theorem validates_destroy_iff (hsz : u.sz < KERNBASE) {cid : UInt32} :
    Validates k p u (.destroyContainer cid) ↔ Careful k p u (.destroyContainer cid) := by
  refine validates_container_iff (fun result hrun => ?_) fun hfails => ?_
  · cases hrun
    rfl
  rw [run,sysDestroyContainer,argint_of_fails hsz hfails]
  rcases hlive : k.tables.findLive cid.toInt32.toInt with - | i
  · simp only [Tables.destroyContainer,hlive]
    exact iff_of_true ⟨_,rfl,rfl,rfl,rfl,rfl,rfl,rfl,rfl⟩ trivial
  · simp only [Tables.destroyContainer,hlive]
    refine iff_of_false ?_ (Option.some_ne_none i)
    rintro ⟨result,hrun,hvalue,-⟩
    cases hrun
    exact absurd (show (1 : ℤ) = -1 from hvalue) (by decide)

theorem proc_sweep_iff (t : Tables) :
    t.sweep.proc = t.proc ↔ t.cidToPtable = true ∨ ∀ q, (t.proc q).cid = -1 := by
  rw [Tables.sweep]
  by_cases h : t.cidToPtable = true
  · rw [if_pos h]
    exact iff_of_true rfl (.inl h)
  rw [if_neg h,or_iff_right h]
  constructor
  · intro heq q
    rw [← heq]
  · intro hall
    funext q
    change { t.proc q with cid := -1 } = t.proc q
    rw [← hall q]

theorem validates_join_iff (hsz : u.sz < KERNBASE) {cid : UInt32} :
    Validates k p u (.joinContainer cid) ↔ Careful k p u (.joinContainer cid) := by
  refine validates_container_iff (fun result hrun => ?_) fun hfails => ?_
  · rw [run,sysJoinContainer] at hrun
    split at hrun
    · cases hrun
      rfl
    · cases hrun
  have hsweep : ∀ c, k.tables.sweep.findLive c = k.tables.findLive c := by
    intro c
    rw [Tables.sweep]
    split <;> rfl
  rw [run,sysJoinContainer,argint_of_fails hsz hfails]
  rcases hlive : k.tables.findLive cid.toInt32.toInt with - | i
  · simp only [Tables.joinCont,hsweep,hlive,← proc_sweep_iff,true_and]
    constructor
    · rintro ⟨result,hrun,-,hsame⟩
      cases hrun
      exact hsame.proc
    intro h
    refine ⟨_,rfl,rfl,?_,?_,h,rfl,rfl,rfl⟩
    · change k.tables.sweep.location = _
      rw [Tables.sweep]
      split <;> rfl
    · change k.tables.sweep.container = _
      rw [Tables.sweep]
      split <;> rfl
  · refine iff_of_false ?_ fun h => Option.some_ne_none i h.1
    simp only [Tables.joinCont,hsweep,hlive]
    rintro ⟨result,hrun,hvalue,-⟩
    split at hrun
    · next heq =>
      split at heq
      · cases heq
        cases hrun
        exact absurd (show (1 : ℤ) = -1 from hvalue) (by decide)
      · cases heq
    · cases hrun

/-- The added calls validate their arguments exactly in the careful cases. -/
theorem added_calls_validate_iff (k : Post) (p : PSlot) (u : Caller) (hsz : u.sz < KERNBASE)
    (c : Call) : Validates k p u c ↔ Careful k p u c := by
  cases c with
  | send senderPid recPid str page => exact validates_send_iff
  | recv str => exact validates_recv_iff hsz
  | createContainer cid => exact validates_create_iff hsz
  | joinContainer cid => exact validates_join_iff hsz
  | destroyContainer cid => exact validates_destroy_iff hsz

/-- The kernel before the first message, with the first process running. -/
def fresh : Post := Ipc.initQueues Ipc.running (fun _ _ => 0) fun _ _ => ⟨0, 0⟩

def onePage (esp : UInt32) : Caller := ⟨4096, esp, fun _ => 0⟩

/-- With the stack pointer outside the process no number is fetched. There is no container with the
number 7 of the kernel stack, and so `destroy_container` does nothing. -/
theorem added_calls_validate_iff_stack :
    (onePage 8192).sz < KERNBASE ∧ FetchFails (onePage 8192) (.destroyContainer 7) ∧
      Validates fresh initproc (onePage 8192) (.destroyContainer 7) := by
  refine ⟨by decide,?_,?_⟩
  · change (argint (onePage 8192) 0 7).1 = -1
    decide
  · refine (added_calls_validate_iff fresh initproc (onePage 8192) (by decide)
      (.destroyContainer 7)).mpr fun _ => ?_
    change fresh.tables.findLive 7 = none
    decide +kernel

/-- With the stack pointer outside the process, `send` takes its receiver from the kernel stack and
returns 1. -/
theorem send_ignores_failed_fetch : ¬ ∀ (k : Post) (p : PSlot) (u : Caller),
    u.sz < KERNBASE → ∀ c, Validates k p u c := by
  intro hall
  obtain ⟨result,hrun,hvalue,-⟩ := (hall fresh initproc (onePage 8192) (by decide)
    (.send 1 1 0 none)).1 (.inl (by decide))
  rw [(run_send_ok hrun).1] at hvalue
  exact absurd hvalue (by decide)

end Xv6Container.Syscall
