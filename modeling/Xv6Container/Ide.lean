import Xv6Container.Bio.Model
import Xv6Container.Fs.Image
import Xv6Container.Lib.Run

/-!
# The disk driver

`ide.c`: requests wait in a queue, the drive works on the first of them, and the interrupt handler
ends it and starts the next. `memide.c` takes its place in a kernel without a drive: it carries out a
request in one call, on a disk in memory. The registers of the drive are left out, and so are the
loops that wait until it is ready.
-/

namespace Xv6Container.Ide

open Bio (Buf BufId Key Pid)
open Fs (FSSIZE)
open Function Run

/-- The buffers and the queue. -/
structure Requests where
  buf : BufId → Buf
  havedisk1 : Bool
  /-- `idequeue`, along `qnext` -/
  queue : List BufId
  /-- a process is in `iderw` with the buffer, behind its tests -/
  waiting : BufId → Bool

inductive Drive
  | idle
  /-- a command has been sent, with the data if it is a write -/
  | busy (k : Key) (out : Option (Block BSIZE))
  /-- the interrupt has been raised; `ok` if there is no error, and what `insl` reads -/
  | ready (ok : Bool) (data : Block BSIZE)

structure State where
  reqs : Requests
  disk : Key → Block BSIZE
  drive : Drive

/-- The place on the disks: `dev & 1` and the sector. -/
def place (x : Buf) : Key := ⟨x.key.dev % 2, x.key.blockno⟩

/-- `(b->flags & (B_VALID|B_DIRTY)) == B_VALID`. -/
def synced (x : Buf) : Bool := x.valid && !x.dirty

namespace Requests

variable (r : Requests) (b : BufId)

/-- `iderw` of process `p` up to the end of the queue. -/
def enter (p : Pid) : Option Requests :=
  if (r.buf b).lock ≠ some p ∨ r.waiting b = true then none
  else if synced (r.buf b) then none
  else if (r.buf b).key.dev ≠ 0 ∧ r.havedisk1 = false then none
  else some { r with queue := r.queue ++ [b], waiting := update r.waiting b true }

/-- The loop around `sleep` in `iderw` ends. -/
def leave : Option Requests :=
  if r.waiting b = true ∧ synced (r.buf b) = true then
    some { r with waiting := update r.waiting b false }
  else none

/-- The buffer cache changes a buffer that nobody waits for. -/
def touch (x : Buf) : Option Requests :=
  if r.waiting b = true then none else some { r with buf := update r.buf b x }

/-- The buffer cache counts references. That needs no lock of the buffer. -/
def count (n : ℕ) : Requests := { r with buf := update r.buf b { r.buf b with refcnt := n } }

/-- The first request has been carried out; `data` has been read for it. -/
def done (ok : Bool) (data : Block BSIZE) : Requests :=
  let x := r.buf b
  { r with
    buf := update r.buf b { x with
      valid := true, dirty := false, data := if !x.dirty && ok then data else x.data }
    queue := r.queue.tail }

end Requests

def idestart (s : State) (b : BufId) : Option State :=
  let x := s.reqs.buf b
  if FSSIZE ≤ x.key.blockno then none
  else some { s with drive := .busy (place x) (if x.dirty then some x.data else none) }

def iderw (s : State) (p : Pid) (b : BufId) : Option State :=
  (s.reqs.enter b p).bind fun r =>
    if s.reqs.queue = [] then idestart { s with reqs := r } b else some { s with reqs := r }

def ideintr (s : State) : Option State :=
  match s.drive, s.reqs.queue with
  | .ready .., [] => some s
  | .ready ok data, [b] => some { s with reqs := s.reqs.done b ok data, drive := .idle }
  | .ready ok data, b :: b' :: _ => idestart { s with reqs := s.reqs.done b ok data } b'
  | _, _ => none

/-- The drive carries out its command, or fails. -/
def finish (s : State) (ok : Bool) : Option State :=
  match s.drive with
  | .busy k (some d) =>
    some { s with disk := if ok then update s.disk k d else s.disk, drive := .ready ok d }
  | .busy k none => some { s with drive := .ready ok (s.disk k) }
  | _ => none

inductive Action
  | iderw (p : Pid) (b : BufId)
  | finish (ok : Bool)
  | ideintr
  | leave (b : BufId)
  | touch (b : BufId) (x : Buf)
  | count (b : BufId) (n : ℕ)

def step (s : State) : Action → Option State
  | .iderw p b => iderw s p b
  | .finish ok => finish s ok
  | .ideintr => ideintr s
  | .leave b => (s.reqs.leave b).map fun r => { s with reqs := r }
  | .touch b x => (s.reqs.touch b x).map fun r => { s with reqs := r }
  | .count b n => some { s with reqs := s.reqs.count b n }

/-- The kernel with `memide.c`: the buffers and `memdisk`, block by block. -/
structure Mem where
  buf : BufId → Buf
  disk : ℕ → Block BSIZE

namespace Mem

/-- `iderw` of `memide.c`, called by process `p`. -/
def iderw (disksize : ℕ) (m : Mem) (p : Pid) (b : BufId) : Option Mem :=
  let x := m.buf b
  if x.lock ≠ some p then none
  else if synced x then none
  else if x.key.dev ≠ 1 then none
  else if disksize ≤ x.key.blockno then none
  else if x.dirty then
    some ⟨update m.buf b { x with dirty := false, valid := true },
      update m.disk x.key.blockno x.data⟩
  else some { m with buf := update m.buf b { x with data := m.disk x.key.blockno, valid := true } }

/-- There is no drive and nobody sleeps; the interrupt handler does nothing. -/
def step (disksize : ℕ) (m : Mem) : Action → Option Mem
  | .iderw p b => m.iderw disksize p b
  | .ideintr => some m
  | .touch b x => some { m with buf := update m.buf b x }
  | .count b n => some { m with buf := update m.buf b { m.buf b with refcnt := n } }
  | .finish _ | .leave _ => none

end Mem

/-- The calls of `iderw`, in order. -/
def requests (as : List Action) : List (Pid × BufId) :=
  as.filterMap fun
    | .iderw p b => some (p, b)
    | _ => none

/-- What the buffer cache does. -/
def cacheActions (as : List Action) : List Action :=
  as.filter fun
    | .touch .. | .count .. => true
    | _ => false

/-- What `memide.c` can do too: a request is for disk 1 and not past its end, and the drive does not
fail. -/
def Plain (disksize : ℕ) (s : State) : Action → Prop
  | .iderw _ b => (s.reqs.buf b).key.dev = 1 ∧ (s.reqs.buf b).key.blockno < disksize
  | .finish ok => ok = true
  | _ => True

instance (n : ℕ) (s : State) : ∀ a, Decidable (Plain n s a)
  | .iderw .. => inferInstanceAs (Decidable (_ ∧ _))
  | .finish .. => inferInstanceAs (Decidable (_ = _))
  | .ideintr | .leave .. | .touch .. | .count .. => isTrue trivial

/-- A buffer in the queue is there once, is waited for and has not been carried out; every other one
that is waited for has. -/
structure Requests.Inv (r : Requests) : Prop where
  nodup : r.queue.Nodup
  queued : ∀ b ∈ r.queue, r.waiting b = true ∧ synced (r.buf b) = false
  served : ∀ b, r.waiting b = true → b ∉ r.queue → synced (r.buf b) = true

structure Inv (s : State) : Prop where
  reqs : s.reqs.Inv
  idle : s.drive = .idle ↔ s.reqs.queue = []

variable {r r' : Requests} {b b' : BufId} {p : Pid} {x : Buf} {ok : Bool} {data : Block BSIZE}
  {s t : State} {a : Action} {as : List Action} {n : ℕ}

theorem enter_some (h : r.enter b p = some r') : (r.buf b).lock = some p ∧ r.waiting b = false ∧
    synced (r.buf b) = false ∧
    r' = { r with queue := r.queue ++ [b], waiting := update r.waiting b true } := by
  grind [Requests.enter]

theorem leave_some (h : r.leave b = some r') : synced (r.buf b) = true ∧
    r' = { r with waiting := update r.waiting b false } := by
  grind [Requests.leave]

theorem touch_some (h : r.touch b x = some r') : r.waiting b = false ∧
    r' = { r with buf := update r.buf b x } := by
  grind [Requests.touch]

theorem idestart_some (h : idestart s b = some t) :
    t = ⟨s.reqs, s.disk, .busy (place (s.reqs.buf b))
      (if (s.reqs.buf b).dirty then some (s.reqs.buf b).data else none)⟩ := by
  grind [idestart]

/-- A call puts its buffer at the end, and the drive starts if it was the only one. -/
theorem iderw_some (h : iderw s p b = some t) : ∃ r, s.reqs.enter b p = some r ∧ t.reqs = r ∧
    t.disk = s.disk ∧ t.drive = (if s.reqs.queue = [] then .busy (place (s.reqs.buf b))
      (if (s.reqs.buf b).dirty then some (s.reqs.buf b).data else none) else s.drive) := by
  obtain ⟨r,he,hs⟩ := Option.bind_eq_some_iff.mp h
  have hbuf : r.buf = s.reqs.buf := by
    rw [(enter_some he).2.2.2]
  refine ⟨r,he,?_⟩
  split at hs
  · next hq =>
    obtain rfl := idestart_some hs
    exact ⟨rfl,rfl,by rw [if_pos hq,hbuf]⟩
  · next hq =>
    obtain rfl := Option.some.inj hs
    exact ⟨rfl,rfl,by rw [if_neg hq]⟩

/-- An interrupt ends the first request and starts the next. -/
theorem ideintr_some {rest : List BufId} (hq : s.reqs.queue = b :: rest)
    (h : ideintr s = some t) : ∃ ok data, s.drive = .ready ok data ∧
    t.reqs = s.reqs.done b ok data ∧ t.disk = s.disk ∧
    (t.drive = .idle ∧ rest = [] ∨ ∃ b' ∈ rest.head?, t.drive = .busy (place (t.reqs.buf b'))
      (if (t.reqs.buf b').dirty then some (t.reqs.buf b').data else none)) := by
  cases hd : s.drive with
  | idle | busy => simp [ideintr,hd] at h
  | ready ok data =>
    refine ⟨ok,data,rfl,?_⟩
    cases rest with
    | nil =>
      simp only [ideintr,hd,hq,Option.some.injEq] at h
      subst h
      exact ⟨rfl,rfl,.inl ⟨rfl,rfl⟩⟩
    | cons b' rest =>
      simp only [ideintr,hd,hq] at h
      obtain rfl := idestart_some h
      exact ⟨rfl,rfl,.inr ⟨b',rfl,rfl⟩⟩

namespace Requests.Inv

theorem enter (h : r.Inv) (he : r.enter b p = some r') : r'.Inv := by
  obtain ⟨-,hw,hb,rfl⟩ := enter_some he
  obtain ⟨h1,h2,h3⟩ := h
  constructor <;> grind [update_apply]

theorem leave (h : r.Inv) (he : r.leave b = some r') : r'.Inv := by
  obtain ⟨hb,rfl⟩ := leave_some he
  obtain ⟨h1,h2,h3⟩ := h
  constructor <;> grind [update_apply]

theorem touch (h : r.Inv) (he : r.touch b x = some r') : r'.Inv := by
  obtain ⟨hw,rfl⟩ := touch_some he
  obtain ⟨h1,h2,h3⟩ := h
  constructor <;> grind [update_apply]

theorem count (h : r.Inv) : (r.count b n).Inv := by
  obtain ⟨h1,h2,h3⟩ := h
  constructor <;> simp only [Requests.count,update_apply] <;> grind [synced]

theorem done {rest : List BufId} (h : r.Inv) (hq : r.queue = b :: rest) :
    (r.done b ok data).Inv := by
  obtain ⟨h1,h2,h3⟩ := h
  constructor <;> simp only [Requests.done,update_apply] <;> grind [synced]

end Requests.Inv

theorem Inv.step (s : State) (a : Action) (t : State) (h : Inv s) (hs : Ide.step s a = some t) :
    Inv t := by
  cases a with
  | iderw p b =>
    obtain ⟨r,he,hr,-,hd⟩ := iderw_some hs
    refine ⟨hr ▸ h.reqs.enter he,?_⟩
    obtain ⟨-,-,-,rfl⟩ := enter_some he
    rw [hd,hr]
    have := h.idle
    split <;> simp_all
  | finish ok =>
    have hidle := h.idle
    cases hd : s.drive with
    | idle | ready => simp [Ide.step,finish,hd] at hs
    | busy k out =>
      cases out <;> simp only [Ide.step,finish,hd,Option.some.injEq] at hs <;> subst hs <;>
        exact ⟨h.reqs,by simpa [hd] using hidle⟩
  | ideintr =>
    cases hq : s.reqs.queue with
    | nil => simp [Ide.step,ideintr,h.idle.mpr hq] at hs
    | cons b rest =>
      obtain ⟨ok,data,-,hr,-,hd⟩ := ideintr_some hq hs
      refine ⟨hr ▸ h.reqs.done hq,?_⟩
      have hrest : t.reqs.queue = rest := by
        rw [hr,Requests.done,hq]
        rfl
      rw [hrest]
      rcases hd with ⟨hd,hnil⟩ | ⟨b',hb',hd⟩
      · exact iff_of_true hd hnil
      · rw [hd]
        refine iff_of_false (by simp) ?_
        rintro rfl
        cases hb'
  | leave b =>
    obtain ⟨r,he,rfl⟩ := Option.map_eq_some_iff.mp hs
    refine ⟨h.reqs.leave he,?_⟩
    obtain ⟨-,rfl⟩ := leave_some he
    exact h.idle
  | touch b x =>
    obtain ⟨r,he,rfl⟩ := Option.map_eq_some_iff.mp hs
    refine ⟨h.reqs.touch he,?_⟩
    obtain ⟨-,rfl⟩ := touch_some he
    exact h.idle
  | count b n =>
    obtain rfl := Option.some.inj hs
    exact ⟨h.reqs.count,h.idle⟩

/-- No process has asked for anything yet. -/
def boot (buf : BufId → Buf) (havedisk1 : Bool) : Requests := ⟨buf, havedisk1, [], fun _ => false⟩

variable {buf : BufId → Buf} {disk : Key → Block BSIZE} {havedisk1 : Bool}

theorem inv_boot : Inv ⟨boot buf havedisk1, disk, .idle⟩ :=
  ⟨⟨List.nodup_nil,by simp [boot],by simp [boot]⟩,iff_of_true rfl rfl⟩

/-- Every request is kept until it has been carried out, and the drive works as long as there is
one. -/
theorem no_request_lost (hrun : exec step ⟨boot buf havedisk1, disk, .idle⟩ as = some s) :
    s.reqs.Inv ∧ (s.drive = .idle ↔ s.reqs.queue = []) := by
  have hinv := exec_invariant Inv.step inv_boot hrun
  exact ⟨hinv.reqs,hinv.idle⟩

/-- A buffer of process `p` for the blocks of disk 1. -/
def unwritten (p : Pid) (b : BufId) : Buf := ⟨⟨1, b⟩, true, true, some p, 1, fun _ => 7⟩

def twoWrites (p : Pid) (b c : BufId) : List Action :=
  [.iderw p b, .iderw p c, .finish true, .ideintr, .leave b, .finish true, .ideintr, .leave c]

theorem no_request_lost_twoWrites : ∃ s,
    exec step ⟨boot (unwritten 0) true, fun _ => .zero, .idle⟩ ((twoWrites 0 0 1).take 2) = some s ∧
      s.reqs.queue = [0, 1] ∧ s.reqs.Inv ∧ (s.drive = .idle ↔ s.reqs.queue = []) := by
  have hrun : (exec step ⟨boot (unwritten 0) true, fun _ => .zero, .idle⟩
      ((twoWrites 0 0 1).take 2)).map (fun s => s.reqs.queue) = some [0, 1] := by decide +kernel
  obtain ⟨s,hs,hq⟩ := Option.map_eq_some_iff.mp hrun
  exact ⟨s,hs,hq,no_request_lost hs⟩

/-! ### The memory disk -/

variable {m m' m'' : Mem} {pend pend' pend'' : List (Pid × BufId)} {as' : List Action}

/-- `memide.c` carries out the request of `x`, disk and buffer. -/
def Mem.serve (m : Mem) (b : BufId) : Mem :=
  let x := m.buf b
  ⟨update m.buf b { x with
      valid := true, dirty := false, data := if x.dirty then x.data else m.disk x.key.blockno },
    if x.dirty then update m.disk x.key.blockno x.data else m.disk⟩

theorem Mem.iderw_of_plain (hlock : (m.buf b).lock = some p) (hsync : synced (m.buf b) = false)
    (hdev : (m.buf b).key.dev = 1) (hn : (m.buf b).key.blockno < n) :
    m.iderw n p b = some (m.serve b) := by
  rw [Mem.iderw,Mem.serve]
  simp only [hlock,hsync,hdev,ne_eq,not_true,if_false,Nat.not_le.mpr hn,Bool.false_eq_true]
  split
  · next => simp
  · next hd =>
    have hd : (m.buf b).dirty = false := by simpa using hd
    simp [hd]

/-- What the drive does for the first request, and what is on its disk by now. -/
def Serves (m : Mem) (q : List BufId) (disk : Key → Block BSIZE) : Drive → Prop
  | .idle => ∀ n, disk ⟨1, n⟩ = m.disk n
  | .busy k out => ∃ b ∈ q.head?, k = ⟨1, (m.buf b).key.blockno⟩ ∧
      out = (if (m.buf b).dirty then some (m.buf b).data else none) ∧ ∀ n, disk ⟨1, n⟩ = m.disk n
  | .ready ok data => ∃ b ∈ q.head?, ok = true ∧
      ((m.buf b).dirty = false → data = m.disk (m.buf b).key.blockno) ∧
      ∀ n, disk ⟨1, n⟩ = (m.serve b).disk n

/-- The driver and the memory disk have the same buffers. The requests in the queue have not been
made of the memory disk yet. -/
structure Agrees (n : ℕ) (s : State) (m : Mem) (pend : List (Pid × BufId)) : Prop where
  inv : Inv s
  buf : m.buf = s.reqs.buf
  queue : pend.map Prod.snd = s.reqs.queue
  plain : ∀ x ∈ pend, (m.buf x.2).lock = some x.1 ∧ (m.buf x.2).key.dev = 1 ∧
    (m.buf x.2).key.blockno < n
  serves : Serves m s.reqs.queue s.disk s.drive

/-- The memory disk goes from `m` to `m'`, with what the cache does in `as`, and with the requests
that are pending before and those in `as`, but for those that are pending afterwards. -/
def Follows (n : ℕ) (m : Mem) (pend : List (Pid × BufId)) (as : List Action) (m' : Mem)
    (pend' : List (Pid × BufId)) : Prop :=
  ∃ as', exec (Mem.step n) m as' = some m' ∧ cacheActions as' = cacheActions as ∧
    requests as' ++ pend' = pend ++ requests as

theorem Follows.trans (h : Follows n m pend as m' pend') (h' : Follows n m' pend' as' m'' pend'') :
    Follows n m pend (as ++ as') m'' pend'' := by
  obtain ⟨l,hl,hc,hr⟩ := h
  obtain ⟨l',hl',hc',hr'⟩ := h'
  refine ⟨l ++ l',exec_append.mpr ⟨m',hl,hl'⟩,?_,?_⟩
  · rw [cacheActions,List.filter_append,cacheActions,List.filter_append]
    exact congrArg₂ _ hc hc'
  · rw [requests,List.filterMap_append,requests,List.filterMap_append]
    calc requests l ++ requests l' ++ pend'' = requests l ++ (requests l' ++ pend'') :=
          List.append_assoc ..
      _ = requests l ++ pend' ++ requests as' := by rw [hr',List.append_assoc]
      _ = pend ++ (requests as ++ requests as') := by rw [hr,List.append_assoc]

/-- The drive sees three fields of the first buffer only. -/
theorem Serves.congr {q q' : List BufId} {drive : Drive} (h : Serves m q disk drive)
    (hq : q'.head? = q.head?) (hdisk : m'.disk = m.disk)
    (hbuf : ∀ b ∈ q, (m'.buf b).key = (m.buf b).key ∧ (m'.buf b).dirty = (m.buf b).dirty ∧
      (m'.buf b).data = (m.buf b).data) : Serves m' q' disk drive := by
  have hserve : ∀ b ∈ q, (m'.serve b).disk = (m.serve b).disk := by
    intro b hb
    obtain ⟨hkey,hdirty,hdata⟩ := hbuf b hb
    simp only [Mem.serve,hkey,hdirty,hdata,hdisk]
  cases drive <;> grind [Serves]

namespace Agrees

theorem iderw (h : Agrees n s m pend) (hok : Plain n s (.iderw p b))
    (hs : Ide.iderw s p b = some t) (hinv : Inv t) :
    Follows n m pend [.iderw p b] m (pend ++ [(p, b)]) ∧ Agrees n t m (pend ++ [(p, b)]) := by
  obtain ⟨r,he,hr,hdisk,hd⟩ := iderw_some hs
  obtain ⟨hlock,-,-,rfl⟩ := enter_some he
  refine ⟨⟨[],rfl,rfl,rfl⟩,hinv,by rw [hr]; exact h.buf,by simp [hr,h.queue],fun x hx => ?_,?_⟩
  · rcases List.mem_append.mp hx with hx | hx
    · exact h.plain x hx
    · rw [List.mem_singleton.mp hx,h.buf]
      exact ⟨hlock,hok⟩
  rw [hd,hdisk,hr]
  split
  · next hq =>
    have hserves := h.serves
    rw [h.inv.idle.mpr hq] at hserves
    refine ⟨b,by simp [hq],?_,by rw [h.buf],hserves⟩
    rw [place,hok.1,h.buf]
  · next hq => exact h.serves.congr (List.head?_append_of_ne_nil _ hq) rfl fun _ _ => ⟨rfl,rfl,rfl⟩

theorem finish (h : Agrees n s m pend) (hs : Ide.finish s true = some t) (hinv : Inv t) :
    Follows n m pend [.finish true] m pend ∧ Agrees n t m pend := by
  refine ⟨⟨[],rfl,rfl,by simp [requests]⟩,?_⟩
  have hserves := h.serves
  cases hd : s.drive with
  | idle | ready => simp [Ide.finish,hd] at hs
  | busy k out =>
    rw [hd] at hserves
    obtain ⟨b,hb,rfl,hout,hdisk⟩ := hserves
    cases hdirty : (m.buf b).dirty with
    | false =>
      simp only [hdirty,Bool.false_eq_true,if_false] at hout
      subst hout
      simp only [Ide.finish,hd,Option.some.injEq] at hs
      subst hs
      refine ⟨hinv,h.buf,h.queue,h.plain,b,hb,rfl,fun _ => hdisk _,fun k => ?_⟩
      rw [Mem.serve,hdirty]
      exact hdisk k
    | true =>
      simp only [hdirty,if_true] at hout
      subst hout
      simp only [Ide.finish,hd,Option.some.injEq] at hs
      subst hs
      refine ⟨hinv,h.buf,h.queue,h.plain,b,hb,rfl,fun hf => by simp [hdirty] at hf,fun k => ?_⟩
      simp only [Mem.serve,hdirty,if_true,update_apply,Key.mk.injEq,true_and,hdisk]

theorem ideintr (h : Agrees n s m pend) (hs : Ide.ideintr s = some t) (hinv : Inv t) :
    ∃ m' pend', Follows n m pend [.ideintr] m' pend' ∧ Agrees n t m' pend' := by
  cases pend with
  | nil => simp [Ide.ideintr,h.inv.idle.mpr h.queue.symm] at hs
  | cons y pend =>
    obtain ⟨p,b⟩ := y
    have hq : s.reqs.queue = b :: pend.map Prod.snd := h.queue.symm
    obtain ⟨ok,data,hready,hr,hdisk,hd⟩ := ideintr_some hq hs
    have hserves := h.serves
    rw [hready,hq] at hserves
    obtain ⟨b',hb',rfl,hdata,hdisk'⟩ := hserves
    obtain rfl := Option.some.inj hb'
    obtain ⟨hlock,hplain⟩ := h.plain (p, b) List.mem_cons_self
    have hsync := (h.inv.reqs.queued b (by rw [hq]; exact List.mem_cons_self)).2
    rw [← h.buf] at hsync
    -- the memory disk carries out the whole request now
    have hcall : Mem.step n m (.iderw p b) = some (m.serve b) :=
      Mem.iderw_of_plain hlock hsync hplain.1 hplain.2
    have hbuf : (m.serve b).buf = t.reqs.buf := by
      rw [hr,Requests.done,Mem.serve,h.buf]
      rw [h.buf] at hdata
      cases hdirty : (s.reqs.buf b).dirty with
      | false => simp [hdata hdirty]
      | true => simp
    have hother : ∀ x ∈ pend, (m.serve b).buf x.2 = m.buf x.2 := by
      intro x hx
      refine update_of_ne ?_ _ _
      rintro rfl
      have hnodup := h.inv.reqs.nodup
      rw [hq] at hnodup
      exact (List.nodup_cons.mp hnodup).1 (List.mem_map_of_mem hx)
    refine ⟨m.serve b,pend,⟨[.iderw p b],by simp [exec,hcall],rfl,by simp [requests]⟩,hinv,hbuf,
      by rw [hr,Requests.done,hq]; rfl,fun x hx => ?_,?_⟩
    · rw [hother x hx]
      exact h.plain x (List.mem_cons_of_mem _ hx)
    have hqueue : t.reqs.queue = pend.map Prod.snd := by rw [hr,Requests.done,hq]; rfl
    rw [hdisk,hqueue]
    rcases hd with ⟨hd,-⟩ | ⟨b',hb',hd⟩
    · rw [hd]
      exact hdisk'
    · rw [hd]
      refine ⟨b',hb',?_,by rw [hbuf],hdisk'⟩
      obtain ⟨y,hy,rfl⟩ := List.mem_map.mp (List.mem_of_mem_head? hb')
      have hdev := (h.plain y (List.mem_cons_of_mem _ hy)).2.1
      rw [← hother y hy,hbuf] at hdev
      rw [place,hdev,hbuf]

theorem leave (h : Agrees n s m pend) (hs : Ide.step s (.leave b) = some t) (hinv : Inv t) :
    Follows n m pend [.leave b] m pend ∧ Agrees n t m pend := by
  refine ⟨⟨[],rfl,rfl,by simp [requests]⟩,?_⟩
  obtain ⟨r,he,rfl⟩ := Option.map_eq_some_iff.mp hs
  obtain ⟨-,rfl⟩ := leave_some he
  exact ⟨hinv,h.buf,h.queue,h.plain,h.serves⟩

/-- The cache changes a buffer, and what the driver sees of those in the queue stays. -/
theorem cached (h : Agrees n s m pend) {x : Buf} (hreq : requests [a] = [])
    (hstep : Mem.step n m a = some { m with buf := update m.buf b x }) (hinv : Inv t)
    (ht : t = { s with reqs := { s.reqs with buf := update s.reqs.buf b x } })
    (hx : b ∈ s.reqs.queue → ∃ k, x = { s.reqs.buf b with refcnt := k }) :
    ∃ m' pend', Follows n m pend [a] m' pend' ∧ Agrees n t m' pend' := by
  have hsame : ∀ c ∈ s.reqs.queue, ∃ k, update m.buf b x c = { m.buf c with refcnt := k } := by
    intro c hc
    by_cases hcb : c = b
    · subst hcb
      rw [update_self,h.buf]
      exact hx hc
    · exact ⟨_,update_of_ne hcb _ _⟩
  subst ht
  refine ⟨⟨update m.buf b x, m.disk⟩,pend,⟨[a],by simp [exec,hstep],rfl,by simp [hreq]⟩,hinv,?_,
    h.queue,fun y hy => ?_,?_⟩
  · simp only [h.buf]
  · obtain ⟨k,hk⟩ := hsame y.2 (by rw [← h.queue]; exact List.mem_map_of_mem hy)
    simp only [hk]
    exact h.plain y hy
  · refine h.serves.congr rfl rfl fun c hc => ?_
    obtain ⟨k,hk⟩ := hsame c hc
    simp only [hk,and_self]

theorem step (h : Agrees n s m pend) (hok : Plain n s a) (hs : Ide.step s a = some t) :
    ∃ m' pend', Follows n m pend [a] m' pend' ∧ Agrees n t m' pend' := by
  have hinv := Inv.step s a t h.inv hs
  cases a with
  | iderw p b => exact ⟨m,_,h.iderw hok hs hinv⟩
  | finish ok =>
    obtain rfl : ok = true := hok
    exact ⟨m,pend,h.finish hs hinv⟩
  | ideintr => exact h.ideintr hs hinv
  | leave b => exact ⟨m,pend,h.leave hs hinv⟩
  | touch b x =>
    obtain ⟨r,he,ht⟩ := Option.map_eq_some_iff.mp hs
    obtain ⟨hw,rfl⟩ := touch_some he
    refine h.cached (b := b) (x := x) rfl rfl hinv ht.symm fun hb => ?_
    rw [(h.inv.reqs.queued b hb).1] at hw
    cases hw
  | count b k =>
    refine h.cached (b := b) (x := { s.reqs.buf b with refcnt := k }) rfl ?_ hinv
      (Option.some.inj hs).symm fun _ => ⟨k,rfl⟩
    rw [Mem.step,h.buf]

theorem run (h : Agrees n s m pend) (hok : Meets Ide.step (Plain n) s as)
    (hrun : exec Ide.step s as = some t) :
    ∃ m' pend', Follows n m pend as m' pend' ∧ Agrees n t m' pend' := by
  induction as generalizing s m pend with
  | nil =>
    cases hrun
    exact ⟨m,pend,⟨[],rfl,rfl,by simp [requests]⟩,h⟩
  | cons a as ih =>
    obtain ⟨s',ha,hrest⟩ := exec_cons.mp hrun
    obtain ⟨m1,pend1,hfollows,h1⟩ := h.step hok.1 ha
    obtain ⟨m2,pend2,hfollows',h2⟩ := ih h1 (hok.2 s' ha) hrest
    exact ⟨m2,pend2,hfollows.trans hfollows',h2⟩

end Agrees

/-- As long as the drive does not fail and the requests are for disk 1, the driver is `memide.c` in
whatever order processes, drive and interrupts act: the same requests in the same order, all but
those still in the queue, give the same buffers, and the same disk once the drive is idle. -/
theorem driver_refines_memory_disk (disksize : ℕ)
    (hok : Meets step (Plain disksize) ⟨boot buf havedisk1, disk, .idle⟩ as)
    (hrun : exec step ⟨boot buf havedisk1, disk, .idle⟩ as = some s) :
    ∃ as' pend m, exec (Mem.step disksize) ⟨buf, fun n => disk ⟨1, n⟩⟩ as' = some m ∧
      cacheActions as' = cacheActions as ∧ requests as' ++ pend = requests as ∧
      pend.map Prod.snd = s.reqs.queue ∧ m.buf = s.reqs.buf ∧
      (s.drive = .idle → ∀ n, s.disk ⟨1, n⟩ = m.disk n) := by
  have hstart : Agrees disksize ⟨boot buf havedisk1, disk, .idle⟩
      ⟨buf, fun n => disk ⟨1, n⟩⟩ [] :=
    ⟨inv_boot,rfl,rfl,fun _ hx => absurd hx List.not_mem_nil,fun _ => rfl⟩
  obtain ⟨m,pend,⟨as',hrun',hcache,hreq⟩,h⟩ := hstart.run hok hrun
  refine ⟨as',pend,m,hrun',hcache,hreq,h.queue,h.buf,fun hd => ?_⟩
  have hserves := h.serves
  rwa [hd] at hserves

theorem driver_refines_memory_disk_twoWrites :
    ∃ s as' m, exec step ⟨boot (unwritten 0) true, fun _ => .zero, .idle⟩ (twoWrites 0 0 1) = some s ∧
      exec (Mem.step 2) ⟨unwritten 0, fun _ => .zero⟩ as' = some m ∧
      requests as' = [(0, 0), (0, 1)] ∧ m.buf = s.reqs.buf ∧ ∀ n, s.disk ⟨1, n⟩ = m.disk n := by
  have hrun : (exec step ⟨boot (unwritten 0) true, fun _ => .zero, .idle⟩
      (twoWrites 0 0 1)).map (fun s => s.reqs.queue) = some [] := by decide +kernel
  obtain ⟨s,hs,hq⟩ := Option.map_eq_some_iff.mp hrun
  obtain ⟨as',pend,m,hrun',-,hreq,hpend,hbuf,hdisk⟩ :=
    driver_refines_memory_disk 2 (by decide +kernel) hs
  obtain rfl : pend = [] := List.map_eq_nil_iff.mp (hpend.trans hq)
  rw [List.append_nil] at hreq
  exact ⟨s,as',m,hs,hrun',hreq,hbuf,hdisk ((exec_invariant Inv.step inv_boot hs).idle.mpr hq)⟩

end Xv6Container.Ide
