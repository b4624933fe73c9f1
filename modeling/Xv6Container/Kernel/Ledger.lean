import Xv6Container.Ipc.Delivery
import Xv6Container.Kernel.Steady

/-!
# The pages behind strings and messages

`sys_open`, `sys_send` and the logging in `scheduler` on the kernel together with a ledger of the
pages for their strings: free, taken, and still named by a pointer. A null pointer from `kalloc`
is written to at once.
-/

namespace Xv6Container.Paged

open Prog Fs

structure Ledger where
  free : List ℕ
  /-- the pages that these functions got from `kalloc` -/
  taken : List ℕ
  /-- `container_files` of each container -/
  files : CSlot → List ℕ
  /-- `all_files` -/
  all : List ℕ
  /-- `f->path`, if it is in a page of the kernel -/
  path : FSlot → Option ℕ
  /-- `messageBuffers` -/
  buf : Int32 → Option ℕ

structure Whole where
  k : Kernel
  /-- the queues and buffers; the process table is that of the kernel -/
  mail : Ipc.Post
  led : Ledger
  /-- `cid_sch_log` -/
  cidSchLog : ℕ
  /-- `sch_log[i] == 1` -/
  schLog : ℕ → Bool

abbrev PM := Prog Whole Stop

/-- A function that gets no pages. -/
def onKernel {α : Type} (m : KM α) : PM α := zoom Whole.k (fun s k => { s with k := k }) m

def setLedger (g : Ledger → Ledger) : PM Unit := modify fun s => { s with led := g s.led }

/-- `kalloc`, for a caller that writes to the page at once. -/
def kalloc : PM ℕ := do
  let free ← read fun s => s.led.free
  match free with
  | [] => stop .wild
  | f :: fs => do
    setLedger fun l => { l with free := fs, taken := f :: l.taken }
    pure f

/-- A string, and its page unless it is the caller's. -/
abbrev Str := Path × Option ℕ

/-- `strcat`. -/
def strcat (s1 s2 : Path) : PM Str := do
  let b ← kalloc
  let s ← onKernel (Kernel.strcat s1 s2)
  pure (s, some b)

/-- `strcat(path, sind)` with a page for `sind`. -/
def redirect (p : PSlot) (path : Str) : PM Str := do
  let _ ← kalloc
  let sind ← read fun s => Kernel.myItoa s.k.stack (s.k.tables.proc p).cid
  strcat path.1 sind

/-- `new_path` of the loop over `all_files`. -/
def dotted (g : Path) : PM Path := do
  let newPath ← strcat Kernel.dotSlash g
  pure newPath.1

/-- `f->path = path`. -/
def setPath (f : FSlot) (path : Str) : PM Unit :=
  setLedger fun l => { l with path := Function.update l.path f path.2 }

/-- The entries of a path in the registries and in `all_files`. -/
def register (cid : ℤ) (path : Str) : PM Unit := do
  onKernel (Kernel.register cid path.1)
  modify fun s => { s with
    led := { s.led with
      files := fun i =>
        if s.k.registers cid i then s.led.files i ++ path.2.toList else s.led.files i
      all := s.led.all ++ path.2.toList } }

/-- The strings with their pages. -/
def paged : Kernel.PathOps Whole Str where
  lift := onKernel
  text := Prod.fst
  redirect := redirect
  dotted := dotted
  setPath := setPath
  register := register

variable (sb : Superblock)

def sysOpen (p : PSlot) (path : Path) (omode : UInt32) : PM (Option Fd) :=
  paged.sysOpen sb p (path, none) omode

theorem ok_kalloc {t t' : Whole} {a : ℕ} (h : kalloc t = .ok (a, t')) :
    ∃ fs, t.led.free = a :: fs ∧
      t' = { t with led := { t.led with free := fs, taken := a :: t.led.taken } } := by
  obtain ⟨free,u,hr,h⟩ := ok_of_bind h
  obtain ⟨hfree,rfl⟩ := Prod.mk.inj (Except.ok.inj hr)
  cases free with
  | nil => cases h
  | cons f fs =>
    cases h
    exact ⟨fs,hfree,rfl⟩

/-- A message call, on the process table of the kernel. -/
def onMail (c : Ipc.Call) : PM Unit := fun s =>
  match Ipc.run { s.mail with tables := s.k.tables } c with
  | .ok (mail, _) => .ok ((), { s with mail := mail, k := { s.k with tables := mail.tables } })
  | .error _ => .error .wild

/-- `sys_send`; `page` is what the new page contains. -/
def sysSend (p : PSlot) (recPid : Ipc.QPid) (text page : Ipc.Mem) : PM Unit := do
  let msgNo ← read fun s => (Ipc.getMessageBuffer s.mail).2
  let pg ← kalloc
  onMail (.send p recPid.val text (some page))
  setLedger fun l => { l with buf := Function.update l.buf msgNo (some pg) }

def sysSchedulerLog (p : PSlot) : PM Unit := do
  let cid ← read fun s => (s.k.tables.proc p).cid
  if 0 ≤ cid ∧ cid < 100 then
    modify fun s => { s with
      cidSchLog := cid.toNat
      schLog := Function.update s.schLog cid.toNat (!s.schLog cid.toNat) }
  else stop .wild

/-- The scheduler reports the choice of process `q`. -/
def logs (s : Whole) (q : PSlot) : Bool :=
  s.schLog s.cidSchLog && (s.k.tables.proc q).cid = s.cidSchLog

/-- The branch of `scheduler` that reports: `str`, `str_cid` and `str_pid`, and three times
`my_strcat`. -/
def logChoice : PM Unit := do
  let _ ← kalloc
  let _ ← kalloc
  let _ ← kalloc
  let _ ← kalloc
  let _ ← kalloc
  let _ ← kalloc

/-- `scheduler` chooses process `q`. -/
def schedule (q : PSlot) : PM Unit := do
  onKernel (Kernel.sysTable (.schedule q))
  let log ← read fun s => logs s q
  if log then logChoice else pure ()

/-- `sys_create_container`: the new container has no files. -/
def sysCreateContainer (c : ℤ) : PM Unit := do
  let fresh ← read fun s => fun i : CSlot =>
    decide (s.k.tables.findLive c = none ∧ s.k.tables.freeSlot = some i)
  onKernel (Kernel.sysCreateContainer c)
  setLedger fun l => { l with files := fun i => if fresh i then [] else l.files i }

inductive Act
  | call (c : Kernel.Call)
  | send (p : PSlot) (recPid : Ipc.QPid) (text page : Ipc.Mem)
  | recv (p : PSlot) (str : UInt32) (buffer low : Ipc.Mem)
  | schedulerLog (p : PSlot)
  -- the rest of the kernel takes pages and gives pages of its own back
  | others (free : List ℕ)

/-- A call of the kernel. -/
def runCall : Kernel.Call → PM Unit
  | .open p path omode => do let _ ← sysOpen sb p path omode
  | .createContainer _ c => sysCreateContainer c
  | .table (.schedule q) => schedule q
  | c => onKernel (Kernel.Call.run sb c)

def Act.run : Act → PM Unit
  | .call c => runCall sb c
  | .send p recPid text page => sysSend p recPid text page
  | .recv p str buffer low => onMail (.recv p str buffer low)
  | .schedulerLog p => sysSchedulerLog p
  | .others free => setLedger fun l => { l with free := free }

/-- Calls are made by processes that run, and nobody else gives back the pages that have been taken
here. -/
def Enabled (s : Whole) : Act → Prop
  | .call c => s.k.Enabled c
  | .send p _ _ _ | .recv p _ _ _ | .schedulerLog p => (s.k.tables.proc p).state = .RUNNING
  | .others free => free.Nodup ∧ ∀ f ∈ free, f ∉ s.led.taken

instance (s : Whole) : DecidablePred (Enabled s)
  | .call c => inferInstanceAs (Decidable (s.k.Enabled c))
  | .send p _ _ _ | .recv p _ _ _ | .schedulerLog p =>
    inferInstanceAs (Decidable ((s.k.tables.proc p).state = .RUNNING))
  | .others free => inferInstanceAs (Decidable (free.Nodup ∧ ∀ f ∈ free, f ∉ s.led.taken))

def step (s : Whole) (a : Act) : Option Whole :=
  if Enabled s a then
    match a.run sb s with
    | .ok (_, t) => some t
    | .error _ => none
  else none

theorem follows_onKernel {α : Type} (m : KM α) : Follows Whole.k id (onKernel m) m :=
  .zoom (fun _ _ => rfl) m

theorem follows_kalloc : Follows Whole.k (fun _ => ()) kalloc (pure ()) := by
  intro t a t' h
  obtain ⟨fs,-,rfl⟩ := ok_kalloc h
  rfl

theorem follows_strcat (s1 s2 : Path) :
    Follows Whole.k Prod.fst (strcat s1 s2) (Kernel.strcat s1 s2) :=
  follows_kalloc.after fun _ => (follows_onKernel _).tail fun _ => .pure

theorem erases_paged : paged.Erases Whole.k where
  lift := follows_onKernel
  redirect p path := by
    refine follows_kalloc.after fun _ t a t' h => ?_
    obtain ⟨sind,u,hr,h⟩ := ok_of_bind h
    cases hr
    exact follows_strcat path.1 _ t a t' h
  dotted g := (follows_strcat _ g).tail fun _ => .pure
  setPath f path := .modify fun _ => rfl
  register cid path := (follows_onKernel _).tail fun _ => .modify fun _ => rfl

theorem follows_logChoice : Follows Whole.k (fun _ => ()) logChoice (pure ()) :=
  follows_kalloc.after fun _ => follows_kalloc.after fun _ => follows_kalloc.after fun _ =>
    follows_kalloc.after fun _ => follows_kalloc.after fun _ => follows_kalloc.after fun _ =>
    .pure

/-- The kernel of a call with a ledger makes the call. -/
theorem follows_runCall {sb : Superblock} (c : Kernel.Call) :
    Follows Whole.k id (runCall sb c) (Kernel.Call.run sb c) := by
  rw [runCall.eq_def]
  split
  · exact erases_paged.sysOpen.bind fun _ => .pure
  · exact (Follows.read _).after fun _ => (follows_onKernel _).tail fun _ =>
      .modify fun _ => rfl
  · refine (follows_onKernel _).tail fun _ => (Follows.read _).after fun log => ?_
    cases log with
    | true => exact follows_logChoice
    | false => exact .pure
  · exact follows_onKernel _

theorem step_some {sb : Superblock} {s t : Whole} {a : Act} (h : step sb s a = some t) :
    Enabled s a ∧ ∃ u, a.run sb s = .ok (u, t) := by
  rw [step] at h
  split at h
  · next he =>
    split at h
    · next u t' hrun =>
      cases h
      exact ⟨he,u,hrun⟩
    · cases h
  · cases h

theorem step_kernel {sb : Superblock} {s t : Whole} {c : Kernel.Call}
    (h : step sb s (.call c) = some t) : Kernel.step sb s.k c = some t.k := by
  obtain ⟨hen,u,hrun⟩ := step_some h
  have hk := follows_runCall c s u t hrun
  rw [Kernel.step,if_pos (show s.k.Enabled c from hen),hk]

/-- Before the first message and the first string. -/
def boot (k : Kernel) (free : List ℕ) : Whole where
  k := k
  mail := Ipc.initQueues k.tables (fun _ _ => 0) fun _ _ => ⟨0, 0⟩
  led := ⟨free, [], fun _ => [], [], fun _ => none, fun _ => none⟩
  cidSchLog := 0
  schLog := fun _ => false

end Xv6Container.Paged
