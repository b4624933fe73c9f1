import Xv6Container.Kernel.Disk
import Xv6Container.Kernel.Ledger
import Xv6Container.Kernel.Outcome

/-! # Which calls lose pages -/

namespace Xv6Container.Paged

open Function Prog Fs Run List
open Except (ok.inj)
open Ipc (Orderly RingOf NumberOfMessageBuffers)
open Kernel (KInv Misses)

/-- The page holds a message that nobody has received. -/
def Undelivered (s : Whole) (f : ℕ) : Prop :=
  ∃ i r, s.led.buf i = some f ∧ i ∈ (s.mail.intMessageQueue r).contents

/-- A registry, `all_files`, the `path` of an open file or an undelivered message leads to the
page. -/
def Referenced (s : Whole) (f : ℕ) : Prop :=
  (∃ i, f ∈ s.led.files i) ∨ f ∈ s.led.all ∨
    (∃ g, (s.k.file g).ref ≠ 0 ∧ s.led.path g = some f) ∨ Undelivered s f

/-- Every page that was taken is free again or still referenced. -/
def NoLeak (s : Whole) : Prop := ∀ f ∈ s.led.taken, f ∈ s.led.free ∨ Referenced s f

/-- The calls that lose no page. The container branches of `sys_open` each get a page for the
suffix, and the loop over `all_files` gets one for each entry. -/
def Frugal (s : Whole) : Act → Prop
  | .call (.open p path omode) =>
    s.k.tables.findLive (s.k.callerCid p) = none ∧
      (Kernel.creates omode && !s.k.isHost p) = false ∧
      (Misses (treeOf s.k.fs) (s.k.viewOf.dir p) path omode ∨ s.k.Full p ∨
        s.k.isHost p = true ∧ s.k.allFiles = [])
  | .call (.table (.schedule q)) => logs s q = false
  | .send _ recPid _ _ => Ipc.isFull (s.mail.intMessageQueue recPid) = false
  | .recv _ _ _ _ => False
  | _ => True

variable {sb : Superblock} {s t : Whole} {c : ℕ}

theorem ok_onKernel {α : Type} {n : KM α} {a : α} (h : onKernel n s = .ok (a, t)) :
    ∃ k, n s.k = .ok (a, k) ∧ t = { s with k := k } :=
  ok_of_zoom h

/-- The queues, with the process table of the kernel. -/
def post (s : Whole) : Ipc.Post := { s.mail with tables := s.k.tables }

theorem orderly_post (h : Orderly s.mail) : Orderly (post s) :=
  ⟨h.nonneg,h.le,h.ring,h.number,h.idle⟩

theorem ok_onMail {m : Ipc.Call} {u : Unit} (h : onMail m s = .ok (u, t)) :
    ∃ mail got, Ipc.run (post s) m = .ok (mail, got) ∧
      t = { s with mail := mail, k := { s.k with tables := mail.tables } } := by
  rw [onMail] at h
  split at h
  · next mail got hm =>
    cases h
    exact ⟨mail,got,hm,rfl⟩
  · cases h

/-- The number of the next message. -/
def msgNo (s : Whole) : Int32 := s.mail.lastBufferUsed + 1

theorem ok_sysSend {p : PSlot} {r : Ipc.QPid} {text page : Ipc.Mem} {u : Unit}
    (ho : Orderly s.mail) (h : sysSend p r text page s = .ok (u, t)) :
    ∃ pg fs mq, s.led.free = pg :: fs ∧ (msgNo s).toInt < NumberOfMessageBuffers ∧
      Ipc.enqueue (s.mail.intMessageQueue r) (msgNo s) = some mq ∧
      t = { s with
        mail := Ipc.sent (post s) r mq text (some page)
        led := { s.led with
          free := fs
          taken := pg :: s.led.taken
          buf := update s.led.buf (msgNo s) (some pg) } } := by
  obtain ⟨n,s₁,hr,h⟩ := ok_of_bind h
  obtain ⟨hn,hs1⟩ := Prod.mk.inj (ok.inj hr)
  obtain ⟨pg,s₂,hk,h⟩ := ok_of_bind h
  obtain ⟨fs,hfree,hs2⟩ := ok_kalloc hk
  obtain ⟨b,s3,hm,h⟩ := ok_of_bind h
  obtain ⟨mail,got,hsend,hs3⟩ := ok_onMail hm
  cases h
  subst hs1 hs2 hs3 hn
  rcases Ipc.send_cases (orderly_post ho) p r.val text (some page) with
    ⟨q,mq,hb,hq,henq,heq⟩ | ⟨⟨table,i,heq⟩,-⟩
  · obtain rfl : r = q := Fin.ext (by omega)
    obtain ⟨rfl,-⟩ := Prod.mk.inj (ok.inj (heq.symm.trans hsend))
    exact ⟨pg,fs,mq,hfree,hb,henq,rfl⟩
  · cases heq.symm.trans hsend

theorem ok_recv {p : PSlot} {str : UInt32} {buffer low : Ipc.Mem} {u : Unit}
    (ho : Orderly s.mail) (h : onMail (.recv p str buffer low) s = .ok (u, t)) :
    ∃ r mq l n x, (s.mail.intMessageQueue r).contents = x :: l ∧ RingOf 50 n mq l ∧
      t = { s with mail := Ipc.taken (post s) r mq } := by
  obtain ⟨mail,got,hrecv,rfl⟩ := ok_onMail h
  rcases Ipc.recv_cases (orderly_post ho) p str buffer low with
    ⟨r,-,⟨-,heq⟩ | ⟨mq,l,n,x,hcons,hring,heq⟩⟩ | ⟨⟨table,i,heq⟩,-⟩
  · cases heq.symm.trans hrecv
  · obtain ⟨rfl,-⟩ := Prod.mk.inj (ok.inj (heq.symm.trans hrecv))
    exact ⟨r,mq,l,n,x,hcons,hring,rfl⟩
  · cases heq.symm.trans hrecv

theorem ok_schedulerLog {p : PSlot} {u : Unit} (h : sysSchedulerLog p s = .ok (u, t)) :
    t.led = s.led ∧ t.mail = s.mail ∧ t.k = s.k := by
  obtain ⟨cid,s₁,hr,h⟩ := ok_of_bind h
  obtain ⟨-,rfl⟩ := Prod.mk.inj (ok.inj hr)
  split at h
  · cases h
    exact ⟨rfl,rfl,rfl⟩
  · cases h

/-- Nothing leads to page `c`: no pointer to a string, open file or not, and no buffer in a queue or
yet to be handed out. -/
structure Waste (c : ℕ) (s : Whole) : Prop where
  taken : c ∈ s.led.taken
  free : c ∉ s.led.free
  files : ∀ i, c ∉ s.led.files i
  all : c ∉ s.led.all
  path : ∀ f, s.led.path f ≠ some c
  buf : ∀ i, s.led.buf i = some c →
    i.toInt ≤ s.mail.lastBufferUsed.toInt ∧ ∀ r, i ∉ (s.mail.intMessageQueue r).contents
  orderly : Orderly s.mail

theorem Waste.not_noLeak (h : Waste c s) : ¬ NoLeak s := by
  intro hno
  rcases hno c h.taken with hf | ⟨i,hi⟩ | ha | ⟨g,-,hg⟩ | ⟨i,r,hb,hi⟩
  · exact h.free hf
  · exact h.files i hi
  · exact h.all ha
  · exact h.path g hg
  · exact (h.buf i hb).2 r hi

theorem Waste.congr (h : Waste c s) (hl : t.led = s.led) (hm : t.mail = s.mail) : Waste c t := by
  obtain ⟨h1,h2,h3,h4,h5,h6,h7⟩ := h
  constructor
  all_goals simp only [hl,hm]
  all_goals assumption

/-- The number of the next message is above all numbers before. -/
theorem ne_msgNo (ho : Orderly s.mail) {i : Int32}
    (hi : i.toInt ≤ s.mail.lastBufferUsed.toInt) : i ≠ msgNo s := by
  rintro rfl
  have hnext : (msgNo s).toInt = _ := ho.next
  omega

theorem Waste.sysSend (h : Waste c s) {p : PSlot} {r : Ipc.QPid} {text page : Ipc.Mem} {u : Unit}
    (hs : sysSend p r text page s = .ok (u, t)) : Waste c t := by
  obtain ⟨pg,fs,mq,hfree,hb,henq,rfl⟩ := ok_sysSend h.orderly hs
  have hc := h.free
  rw [hfree,mem_cons,not_or] at hc
  have hlast := (orderly_post h.orderly).next_two hb
  refine ⟨mem_cons_of_mem _ h.taken,hc.2,h.files,h.all,h.path,fun i hi => ?_,
    (orderly_post h.orderly).sent hb henq text _⟩
  have hnew : i ≠ msgNo s := by
    rintro rfl
    change update s.led.buf (msgNo s) (some pg) (msgNo s) = some c at hi
    rw [update_self] at hi
    exact hc.1 (Option.some.inj hi).symm
  change update s.led.buf (msgNo s) (some pg) i = some c at hi
  rw [update_of_ne hnew] at hi
  obtain ⟨hle,hnot⟩ := h.buf i hi
  refine ⟨?_,fun q hq => ?_⟩
  · change i.toInt ≤ ((post s).lastBufferUsed + 1 + 1).toInt
    have hsame : (post s).lastBufferUsed = s.mail.lastBufferUsed := rfl
    rw [hlast,hsame]
    omega
  · rcases (orderly_post h.orderly).mem_update henq hq with hold | ⟨hi,-⟩
    · exact hnot q hold
    · exact hnew hi

theorem Waste.recv (h : Waste c s) {p : PSlot} {str : UInt32} {buffer low : Ipc.Mem} {u : Unit}
    (hs : onMail (.recv p str buffer low) s = .ok (u, t)) : Waste c t := by
  obtain ⟨r,mq,l,n,x,hcons,hring,rfl⟩ := ok_recv h.orderly hs
  refine ⟨h.taken,h.free,h.files,h.all,h.path,fun i hi => ⟨(h.buf i hi).1,fun q hq => ?_⟩,
    (orderly_post h.orderly).taken hcons hring⟩
  refine (h.buf i hi).2 q ?_
  change i ∈ ((post s).intMessageQueue q).contents
  rw [Ipc.contents_taken (k := post s) hcons hring]
  exact mem_append_right _ hq

section Keeps

variable {α : Type}

theorem keeps_onKernel (n : KM α) : Keeps (Waste c) (onKernel n) fun _ => True := by
  intro s b t hs hb
  obtain ⟨k,-,rfl⟩ := ok_onKernel hb
  exact ⟨hs.congr rfl rfl,trivial⟩

theorem keeps_kalloc : Keeps (Waste c) kalloc fun a => a ≠ c := by
  intro s a t hs ha
  obtain ⟨fs,hfree,rfl⟩ := ok_kalloc ha
  have hc := hs.free
  rw [hfree,mem_cons,not_or] at hc
  exact ⟨⟨mem_cons_of_mem _ hs.taken,hc.2,hs.files,hs.all,hs.path,hs.buf,hs.orderly⟩,Ne.symm hc.1⟩

theorem keeps_setPath (f : FSlot) {path : Str} (h : path.2 ≠ some c) :
    Keeps (Waste c) (setPath f path) fun _ => True := by
  intro s b t hs hb
  cases hb
  refine ⟨⟨hs.taken,hs.free,hs.files,hs.all,fun g hg => ?_,hs.buf,hs.orderly⟩,trivial⟩
  change update s.led.path f path.2 g = some c at hg
  by_cases hf : g = f
  · subst hf
    rw [update_self] at hg
    exact h hg
  · rw [update_of_ne hf] at hg
    exact hs.path g hg

theorem keeps_strcat (s1 s2 : Path) : Keeps (Waste c) (strcat s1 s2) fun r => r.2 ≠ some c :=
  keeps_kalloc.bind fun _ hb => (keeps_onKernel _).bind fun _ _ =>
    .pure fun hc => hb (Option.some.inj hc)

theorem mem_append_toList {l : List ℕ} {pg : Option ℕ} (h : pg ≠ some c) :
    c ∈ l ++ pg.toList ↔ c ∈ l := by
  rw [mem_append,or_iff_left]
  rwa [Option.mem_toList]

theorem keeps_register (cid : ℤ) {path : Str} (h : path.2 ≠ some c) :
    Keeps (Waste c) (register cid path) fun _ => True := by
  refine (keeps_onKernel _).bind fun _ _ s b t hs hb => ?_
  cases hb
  refine ⟨⟨hs.taken,hs.free,fun i hi => ?_,fun ha => hs.all ((mem_append_toList h).mp ha),hs.path,
    hs.buf,hs.orderly⟩,trivial⟩
  simp only at hi
  split at hi
  · exact hs.files i ((mem_append_toList h).mp hi)
  · exact hs.files i hi

/-- No string that `sys_open` makes is in a lost page. -/
theorem keeping (c : ℕ) :
    paged.Keeping (Waste c) (fun path => path.2 ≠ some c) fun _ => True where
  lift _ := keeps_onKernel _
  redirect _ path := keeps_kalloc.bind fun _ _ => Keeps.read.bind fun sind _ => keeps_strcat path.1 sind
  dotted g := (keeps_strcat _ g).bind fun _ _ => .pure trivial
  setPath f _ h := keeps_setPath f h
  register cid _ _ h := keeps_register cid h

theorem keeps_logChoice : Keeps (Waste c) logChoice fun _ => True :=
  keeps_kalloc.bind fun _ _ => keeps_kalloc.bind fun _ _ => keeps_kalloc.bind fun _ _ =>
    keeps_kalloc.bind fun _ _ => keeps_kalloc.bind fun _ _ => keeps_kalloc.bind fun _ _ =>
    .pure trivial

theorem keeps_schedule (q : PSlot) : Keeps (Waste c) (schedule q) fun _ => True := by
  refine (keeps_onKernel _).bind fun _ _ => Keeps.read.bind fun log _ => ?_
  cases log with
  | true => exact keeps_logChoice
  | false => exact .pure trivial

theorem keeps_sysCreateContainer (cid : ℤ) : Keeps (Waste c) (sysCreateContainer cid) fun _ => True := by
  refine Keeps.read.bind fun fresh _ => (keeps_onKernel _).bind fun _ _ s b t hs hb => ?_
  cases hb
  refine ⟨⟨hs.taken,hs.free,fun i hi => ?_,hs.all,hs.path,hs.buf,hs.orderly⟩,trivial⟩
  change c ∈ if fresh i = true then [] else s.led.files i at hi
  split at hi
  · exact absurd hi not_mem_nil
  · exact hs.files i hi

theorem runCall_cases (a : Kernel.Call) :
    (∃ p path omode, a = .open p path omode) ∨ (∃ p cid, a = .createContainer p cid) ∨
      (∃ q, a = .table (.schedule q)) ∨
      (runCall sb a = onKernel (Kernel.Call.run sb a) ∧ ∀ s, Frugal s (.call a)) := by
  cases a with
  | «open» p path omode => exact .inl ⟨p,path,omode,rfl⟩
  | createContainer p cid => exact .inr (.inl ⟨p,cid,rfl⟩)
  | table a =>
    cases a with
    | schedule q => exact .inr (.inr (.inl ⟨q,rfl⟩))
    | _ => exact .inr (.inr (.inr ⟨rfl,fun _ => trivial⟩))
  | _ => exact .inr (.inr (.inr ⟨rfl,fun _ => trivial⟩))

theorem keeps_runCall (a : Kernel.Call) : Keeps (Waste c) (runCall sb a) fun _ => True := by
  obtain ⟨p,path,omode,rfl⟩ | ⟨p,cid,rfl⟩ | ⟨q,rfl⟩ | ⟨hk,-⟩ := @runCall_cases sb a
  · exact ((keeping c).sysOpen (fun _ => trivial) (by simp) omode).bind fun _ _ => .pure trivial
  · exact keeps_sysCreateContainer cid
  · exact keeps_schedule q
  · rw [hk]
    exact keeps_onKernel _

end Keeps

variable {a : Act}

theorem Waste.step (h : Waste c s) (hs : step sb s a = some t) : Waste c t := by
  obtain ⟨hen,u,hrun⟩ := step_some hs
  cases a with
  | call a => exact (keeps_runCall a s u t h hrun).1
  | send p recPid text page => exact h.sysSend hrun
  | recv p str buffer low => exact h.recv hrun
  | schedulerLog p =>
    obtain ⟨hl,hm,-⟩ := ok_schedulerLog hrun
    exact h.congr hl hm
  | others free =>
    cases hrun
    exact ⟨h.taken,fun hc => hen.2 c hc h.taken,h.files,h.all,h.path,h.buf,h.orderly⟩

/-- No string has been built, and each page that was taken holds a message in one place of one
queue. -/
structure Tidy (s : Whole) : Prop where
  orderly : Orderly s.mail
  nodup : s.led.free.Nodup
  apart : ∀ f ∈ s.led.taken, f ∉ s.led.free
  files : ∀ i, s.led.files i = []
  all : s.led.all = []
  path : ∀ f, s.led.path f = none
  buf : ∀ i f, s.led.buf i = some f →
    f ∈ s.led.taken ∧ i.toInt ≤ s.mail.lastBufferUsed.toInt
  inj : ∀ i j f, s.led.buf i = some f → s.led.buf j = some f → i = j
  filled : ∀ r, ∀ i ∈ (s.mail.intMessageQueue r).contents, ∃ f, s.led.buf i = some f
  sent : ∀ f ∈ s.led.taken, Undelivered s f
  once : ∀ r, (s.mail.intMessageQueue r).contents.Nodup
  one : ∀ q r i, i ∈ (s.mail.intMessageQueue q).contents →
    i ∈ (s.mail.intMessageQueue r).contents → q = r

theorem Tidy.noLeak (h : Tidy s) : NoLeak s :=
  fun f hf => .inr (.inr (.inr (.inr (h.sent f hf))))

theorem Tidy.congr (h : Tidy s) (hl : t.led = s.led) (hm : t.mail = s.mail) : Tidy t := by
  obtain ⟨h1,h2,h3,h4,h5,h6,h7,h8,h9,h10,h11,h12⟩ := h
  constructor
  all_goals simp only [Undelivered,hl,hm]
  all_goals assumption

theorem tidy_boot (k : Kernel) {free : List ℕ} (h : free.Nodup) : Tidy (boot k free) where
  orderly := Ipc.orderly_initQueues _ _ _
  nodup := h
  apart := fun _ hf => absurd hf not_mem_nil
  files := fun _ => rfl
  all := rfl
  path := fun _ => rfl
  buf := fun _ _ hf => by cases hf
  inj := fun _ _ _ hf => by cases hf
  filled := fun r i hi => absurd hi not_mem_nil
  sent := fun _ hf => absurd hf not_mem_nil
  once := fun _ => nodup_nil
  one := fun q r i hi => absurd hi not_mem_nil

theorem Tidy.setPath (h : Tidy s) (f : FSlot) {path : Path} {u : Unit}
    (ht : setPath f (path, none) s = .ok (u, t)) : Tidy t := by
  cases ht
  refine ⟨h.orderly,h.nodup,h.apart,h.files,h.all,fun g => ?_,h.buf,h.inj,h.filled,h.sent,
    h.once,h.one⟩
  change update s.led.path f none g = none
  by_cases hg : g = f
  · rw [hg,update_self]
  · rw [update_of_ne hg]
    exact h.path g

theorem Tidy.ne_of_buf (h : Tidy s) {i : Int32} {f : ℕ} (hi : s.led.buf i = some f) :
    i ≠ msgNo s :=
  ne_msgNo h.orderly (h.buf i f hi).2

theorem Tidy.fresh (h : Tidy s) (q : Ipc.QPid) :
    msgNo s ∉ (s.mail.intMessageQueue q).contents := by
  intro hi
  obtain ⟨f,hf⟩ := h.filled q _ hi
  exact h.ne_of_buf hf rfl

theorem isFull_eq_false (ho : Orderly s.mail) {r : Ipc.QPid} :
    Ipc.isFull (s.mail.intMessageQueue r) = false ↔
      (s.mail.intMessageQueue r).contents.length < 50 := by
  obtain ⟨n,hring⟩ := ho.ring r
  have hfull : Ipc.isFull (s.mail.intMessageQueue r) = true ↔ 50 ≤ _ := hring.full_iff
  rw [← Bool.not_eq_true,hfull,not_le]

theorem Tidy.sysSend (h : Tidy s) {p : PSlot} {r : Ipc.QPid} {text page : Ipc.Mem} {u : Unit}
    (hroom : Ipc.isFull (s.mail.intMessageQueue r) = false)
    (hs : sysSend p r text page s = .ok (u, t)) : Tidy t := by
  obtain ⟨pg,fs,mq,hfree,hb,henq,rfl⟩ := ok_sysSend h.orderly hs
  have hpost := orderly_post h.orderly
  have hlast := hpost.next_two hb
  have hone := hpost.next
  have hpg : pg ∉ s.led.taken := by
    intro hpg
    apply h.apart pg hpg
    rw [hfree]
    exact mem_cons_self
  have hold : ∀ i f, update s.led.buf (msgNo s) (some pg) i = some f →
      (i = msgNo s ∧ f = pg) ∨ s.led.buf i = some f := by
    intro i f hi
    by_cases hn : i = msgNo s
    · rw [hn,update_self] at hi
      exact .inl ⟨hn,(Option.some.inj hi).symm⟩
    · rw [update_of_ne hn] at hi
      exact .inr hi
  have hstill : ∀ i f, s.led.buf i = some f →
      update s.led.buf (msgNo s) (some pg) i = some f := by
    intro i f hi
    rw [update_of_ne (h.ne_of_buf hi)]
    exact hi
  have hitems : ∀ q, (update s.mail.intMessageQueue r mq q).contents =
      (s.mail.intMessageQueue q).contents ++ if q = r then [msgNo s] else [] := by
    intro q
    have hq := hpost.contents_update henq q
    simp only [show ((post s).intMessageQueue r).contents.length < 50 from
      (isFull_eq_false h.orderly).mp hroom,and_true] at hq
    exact hq
  have hmem : ∀ q i, i ∈ (update s.mail.intMessageQueue r mq q).contents →
      i ∈ (s.mail.intMessageQueue q).contents ∨ (i = msgNo s ∧ q = r) :=
    fun q i hi => hpost.mem_update henq hi
  have hnodup := h.nodup
  rw [hfree,nodup_cons] at hnodup
  constructor
  · exact hpost.sent hb henq text _
  · exact hnodup.2
  · intro f hf
    rcases List.mem_cons.mp hf with rfl | hf
    · exact hnodup.1
    · intro hfs
      apply h.apart f hf
      rw [hfree]
      exact mem_cons_of_mem _ hfs
  · exact h.files
  · exact h.all
  · exact h.path
  · intro i f hi
    change f ∈ pg :: s.led.taken ∧ i.toInt ≤ ((post s).lastBufferUsed + 1 + 1).toInt
    have hsame : (post s).lastBufferUsed = s.mail.lastBufferUsed := rfl
    rw [hlast,hsame]
    rcases hold i f hi with ⟨rfl,rfl⟩ | hi
    · change _ ∧ ((post s).lastBufferUsed+1).toInt ≤ _
      rw [hone,hsame]
      exact ⟨mem_cons_self,by omega⟩
    · have := h.buf i f hi
      exact ⟨mem_cons_of_mem _ this.1,by omega⟩
  · intro i j f hi hj
    rcases hold i f hi with ⟨rfl,rfl⟩ | hi'
    · rcases hold j f hj with ⟨rfl,-⟩ | hj'
      · rfl
      · exact absurd (h.buf j f hj').1 hpg
    · rcases hold j f hj with ⟨-,rfl⟩ | hj'
      · exact absurd (h.buf i f hi').1 hpg
      · exact h.inj i j f hi' hj'
  · intro q i hi
    rcases hmem q i hi with hi | ⟨rfl,-⟩
    · obtain ⟨f,hf⟩ := h.filled q i hi
      exact ⟨f,hstill i f hf⟩
    · exact ⟨pg,update_self ..⟩
  · intro f hf
    rcases List.mem_cons.mp hf with rfl | hf
    · refine ⟨msgNo s,r,update_self ..,?_⟩
      change msgNo s ∈ (update s.mail.intMessageQueue r mq r).contents
      rw [hitems,if_pos rfl]
      exact mem_append_right _ (List.mem_singleton.mpr rfl)
    · obtain ⟨i,q,hi,hiq⟩ := h.sent f hf
      refine ⟨i,q,hstill i f hi,?_⟩
      change i ∈ (update s.mail.intMessageQueue r mq q).contents
      rw [hitems]
      exact mem_append_left _ hiq
  · intro q
    change (update s.mail.intMessageQueue r mq q).contents.Nodup
    rw [hitems]
    split
    · exact List.nodup_append.mpr ⟨h.once q,nodup_singleton _,fun i hi j hj hij =>
        h.fresh q (List.mem_singleton.mp hj ▸ hij ▸ hi)⟩
    · rw [append_nil]
      exact h.once q
  · intro q q' i hi hi'
    rcases hmem q i hi with hi | ⟨rfl,rfl⟩
    · rcases hmem q' i hi' with hi' | ⟨rfl,-⟩
      · exact h.one q q' i hi hi'
      · exact absurd hi (h.fresh q)
    · rcases hmem q' _ hi' with hi' | ⟨-,rfl⟩
      · exact absurd hi' (h.fresh q')
      · rfl

/-- Whenever the program returns from `s` a page is lost that is `ok` with its result. -/
def Loses {α : Type} (m : PM α) (s : Whole) (ok : ℕ → α → Prop) : Prop :=
  ∀ a t, m s = .ok (a, t) → ∃ c, Waste c t ∧ ok c a

section Loses

variable {α β : Type} {m : PM α} {ok : ℕ → α → Prop} {ok' : ℕ → β → Prop}

theorem Loses.bind {f : α → PM β} (h : Loses m s ok)
    (hf : ∀ c a, ok c a → Keeps (Waste c) (f a) (ok' c)) : Loses (m >>= f) s ok' := by
  intro b t hb
  obtain ⟨a,u,ha,hfa⟩ := ok_of_bind hb
  obtain ⟨c,hc,hok⟩ := h a u ha
  exact ⟨c,hf c a hok u b t hc hfa⟩

theorem Loses.congr {n : PM α} (h : Loses n s ok) (heq : m s = n s) : Loses m s ok := by
  intro a t ha
  rw [heq] at ha
  exact h a t ha

theorem Tidy.loses_kalloc (h : Tidy s) : Loses kalloc s fun c a => a = c := by
  intro c t hc
  obtain ⟨fs,hfree,rfl⟩ := ok_kalloc hc
  have hnodup := h.nodup
  rw [hfree,nodup_cons] at hnodup
  have hcfree : c ∈ s.led.free := by
    rw [hfree]
    exact mem_cons_self
  refine ⟨c,⟨mem_cons_self,hnodup.1,fun i hi => ?_,fun ha => ?_,fun f hf => ?_,
    fun i hi => ?_,h.orderly⟩,rfl⟩
  · exact absurd (h.files i ▸ hi) not_mem_nil
  · exact absurd (h.all ▸ ha) not_mem_nil
  · cases (h.path f).symm.trans hf
  · exact absurd hcfree (h.apart c (h.buf i c hi).1)

theorem Tidy.loses_redirect (h : Tidy s) (p : PSlot) (path : Str) :
    Loses (redirect p path) s fun c r => r.2 ≠ some c :=
  h.loses_kalloc.bind fun _ _ _ => Keeps.read.bind fun sind _ => keeps_strcat path.1 sind

theorem Tidy.loses_ownerOf (h : Tidy s) (path : Path) {all : List (Path × ℤ)} (hne : all ≠ []) :
    Loses (paged.ownerOf path all) s fun _ _ => True := by
  cases all with
  | nil => exact absurd rfl hne
  | cons x rest =>
    have hcat : Loses (strcat Kernel.dotSlash x.1) s fun _ _ => True :=
      h.loses_kalloc.bind fun _ _ _ => (keeps_onKernel _).bind fun _ _ => .pure trivial
    have hdot : Loses (dotted x.1) s fun _ _ => True := hcat.bind fun _ _ _ => .pure trivial
    exact hdot.bind fun c _ _ => .ite (fun _ => .pure trivial) fun _ => (keeping c).ownerOf path rest

theorem Tidy.loses_lookup (h : Tidy s) {p : PSlot} {cid : ℤ} {path : Path} {i : CSlot}
    (hi : s.k.tables.findLive cid = some i) :
    Loses (paged.lookupRegistry p cid (path, none)) s fun c r => r.1.2 ≠ some c := by
  have hlose : Loses (redirect p (path, none) >>= fun path4 =>
      onKernel (Prog.read fun k => (k.files i).any fun g => Kernel.mystrcmp g path4.1) >>=
        fun there => pure (if there then (path4, true) else ((path, none), false)))
      s fun c r => r.1.2 ≠ some c := by
    refine (h.loses_redirect p (path, none)).bind fun c path4 hpg => (keeps_onKernel _).bind
      fun there _ => .pure ?_
    cases there with
    | false => simp
    | true => simpa using hpg
  intro a t ha
  rw [Kernel.PathOps.lookupRegistry,bind_of_ok (a := some i) (t := s)] at ha
  · exact hlose a t ha
  · rw [← hi]
    rfl

theorem lookup_eq {p : PSlot} {path : Path} (hl : s.k.tables.findLive (s.k.callerCid p) = none) :
    paged.lookupRegistry p (s.k.callerCid p) (path, none) s = .ok (((path, none), false), s) := by
  rw [Kernel.PathOps.lookupRegistry,bind_of_ok (a := none) (t := s)]
  · rfl
  · rw [← hl]
    rfl

/-- `sys_open` for a caller whose container has no registry. -/
theorem sysOpen_of_lookup {p : PSlot} {path : Path} {omode : UInt32}
    (hl : s.k.tables.findLive (s.k.callerCid p) = none) :
    sysOpen sb p path omode s = (paged.openPath p (s.k.isHost p) (path, none) omode >>= fun first =>
      onKernel (Kernel.openFile sb p first.1 omode) >>= fun r =>
      match r with
      | none => pure none
      | some (fd, f) =>
        paged.openRest sb p (path, none) omode (s.k.callerCid p) (s.k.isHost p) false fd f) s := by
  rw [sysOpen,Kernel.PathOps.sysOpen,bind_of_ok (a := s.k.callerCid p) (t := s) rfl,
    bind_of_ok (lookup_eq hl),bind_of_ok (a := s.k.isHost p) (t := s) rfl]
  rfl

theorem sysOpen_of_plain {p : PSlot} {path : Path} {omode : UInt32}
    (hl : s.k.tables.findLive (s.k.callerCid p) = none)
    (hc : (Kernel.creates omode && !s.k.isHost p) = false) :
    sysOpen sb p path omode s = (onKernel (Kernel.openFile sb p path omode) >>= fun r =>
      match r with
      | none => pure none
      | some (fd, f) =>
        paged.openRest sb p (path, none) omode (s.k.callerCid p) (s.k.isHost p) false fd f) s := by
  have hpath : paged.openPath p (s.k.isHost p) (path, none) omode = pure (path, none) := by
    rw [Kernel.PathOps.openPath,hc]
    rfl
  rw [sysOpen_of_lookup hl,hpath]
  rfl

theorem Tidy.loses_openRest (h : Tidy s) (p : PSlot) (path : Path) {omode : UInt32} (cid : ℤ)
    {host : Bool} (fd : Fd) (f : FSlot) (hc : (Kernel.creates omode && !host) = false)
    (hn : ¬ (host = true ∧ s.k.allFiles = [])) :
    Loses (paged.openRest sb p (path, none) omode cid host false fd f) s fun _ _ => True := by
  intro a t ha
  obtain ⟨u,s₁,hset,ha⟩ := ok_of_bind ha
  have h₁ := h.setPath f hset
  cases hset
  obtain ⟨all,s₂,hr,ha⟩ := ok_of_bind ha
  cases hr
  by_cases hall : s.k.allFiles = []
  · have hhost : host = false := Bool.eq_false_iff.mpr fun hhost => hn ⟨hhost,hall⟩
    have hcr : Kernel.creates omode = false := by simpa [hhost] using hc
    obtain ⟨owner,s₃,hown,ha⟩ := ok_of_bind ha
    change paged.ownerOf path s.k.allFiles _ = _ at hown
    rw [hall] at hown
    cases hown
    obtain ⟨v,s₄,hfile,ha⟩ := ok_of_bind ha
    obtain ⟨k,-,rfl⟩ := ok_onKernel (n := Kernel.setFile f fun ff => { ff with cid := -1 }) hfile
    simp only [hhost,hcr,Bool.false_eq_true,if_false] at ha
    have h₂ : Tidy { s with
        k := k, led := { s.led with path := update s.led.path f none } } := h₁.congr rfl rfl
    exact ((h₂.loses_redirect p (path, none)).bind fun c path2 hpg =>
      (keeping c).copyTo trivial hpg omode fd f) a t ha
  · exact ((h₁.loses_ownerOf path hall).bind fun c owner _ =>
      (keeping c).settle (fun _ _ => trivial) omode fd f owner) a t ha

end Loses

theorem Tidy.loses_sysOpen (h : Tidy s) (hinv : KInv sb (fun _ => True) s.k) {p : PSlot}
    {path : Path} {omode : UInt32} (hf : ¬ Frugal s (.call (.open p path omode))) :
    Loses (sysOpen sb p path omode) s fun _ _ => True := by
  cases hl : s.k.tables.findLive (s.k.callerCid p) with
  | some i =>
    exact (h.loses_lookup hl).bind fun c found hpg => (keeping c).afterLookup trivial hpg omode
  | none =>
    cases hc : (Kernel.creates omode && !s.k.isHost p) with
    | true =>
      -- the suffix of the path to create
      have hfirst : Loses (paged.openPath p (s.k.isHost p) (path, none) omode) s
          fun _ _ => True := by
        rw [Kernel.PathOps.openPath,if_pos hc]
        intro a t ha
        obtain ⟨c,hw,-⟩ := h.loses_redirect p (path, none) a t ha
        exact ⟨c,hw,trivial⟩
      refine Loses.congr (hfirst.bind fun c first _ => ?_) (sysOpen_of_lookup hl)
      refine (keeps_onKernel _).bind fun r _ => ?_
      cases r with
      | none => exact .pure trivial
      | some x => exact (keeping c).openRest (fun _ _ => trivial) (by simp) omode x.1 x.2
    | false =>
      intro a t ha
      rw [sysOpen_of_plain hl hc] at ha
      obtain ⟨r,s₁,hopen,ha⟩ := ok_of_bind ha
      obtain ⟨k,hk,rfl⟩ := ok_onKernel hopen
      obtain ⟨hnone,hall⟩ := hinv.rep.openFile_none_iff hk
      cases r with
      | none =>
        refine absurd ⟨hl,hc,?_⟩ hf
        rw [← or_assoc]
        exact .inl (hnone.mp rfl)
      | some x =>
        have htidy : Tidy { s with k := k } := h.congr rfl rfl
        refine htidy.loses_openRest p path (s.k.callerCid p) x.1 x.2 hc (fun hhost => hf ?_) a t ha
        exact ⟨hl,hc,.inr (.inr ⟨hhost.1,hall.symm.trans hhost.2⟩)⟩

theorem Tidy.loses_logChoice (h : Tidy s) : Loses logChoice s fun _ _ => True :=
  h.loses_kalloc.bind fun _ _ _ => keeps_kalloc.bind fun _ _ => keeps_kalloc.bind fun _ _ =>
    keeps_kalloc.bind fun _ _ => keeps_kalloc.bind fun _ _ => keeps_kalloc.bind fun _ _ =>
    .pure trivial

theorem logs_schedule {q : PSlot} {k : Kernel} {u : Unit}
    (h : Kernel.sysTable (.schedule q) s.k = .ok (u, k)) : logs { s with k := k } q = logs s q := by
  obtain ⟨next,k1,hr,h⟩ := ok_of_bind h
  obtain ⟨hnext,rfl⟩ := Prod.mk.inj (ok.inj hr)
  cases next with
  | none => cases h
  | some tables =>
    cases h
    simp only [Kernel.needsFiles,Bool.false_eq_true,if_false,Tables.effect] at hnext
    split at hnext
    · cases hnext
      simp [logs,Tables.setState,Tables.setProc]
    · cases hnext

/-- The message that has been received was in one place only. -/
theorem Tidy.waste_recv (h : Tidy s) {p : PSlot} {str : UInt32} {buffer low : Ipc.Mem} {u : Unit}
    (hs : onMail (.recv p str buffer low) s = .ok (u, t)) : ∃ c, Waste c t := by
  obtain ⟨r,mq,l,n,x,hcons,hring,rfl⟩ := ok_recv h.orderly hs
  have hhead : x ∈ (s.mail.intMessageQueue r).contents := by
    rw [hcons]
    exact mem_cons_self
  obtain ⟨f,hf⟩ := h.filled r _ hhead
  have hnodup := h.once r
  rw [hcons,nodup_cons] at hnodup
  refine ⟨f,(h.buf _ f hf).1,h.apart f (h.buf _ f hf).1,fun i => ?_,?_,fun g hg => ?_,fun i hi => ?_,
    (orderly_post h.orderly).taken hcons hring⟩
  · simp only [h.files i,not_mem_nil,not_false_eq_true]
  · simp only [h.all,not_mem_nil,not_false_eq_true]
  · cases (h.path g).symm.trans hg
  obtain rfl := h.inj _ _ f hi hf
  refine ⟨(h.buf _ f hf).2,fun q hiq => ?_⟩
  change i ∈ (update s.mail.intMessageQueue r mq q).contents at hiq
  by_cases hqr : q = r
  · subst hqr
    rw [update_self,hring.contents_eq] at hiq
    exact hnodup.1 hiq
  · rw [update_of_ne hqr] at hiq
    exact hqr (h.one q r _ hiq hhead)

/-- The message does not get into the full queue. -/
theorem Tidy.waste_sysSend (h : Tidy s) {p : PSlot} {r : Ipc.QPid} {text page : Ipc.Mem} {u : Unit}
    (hfull : ¬ Ipc.isFull (s.mail.intMessageQueue r) = false)
    (hs : Paged.sysSend p r text page s = .ok (u, t)) : ∃ c, Waste c t := by
  obtain ⟨pg,fs,mq,hfree,hb,henq,rfl⟩ := ok_sysSend h.orderly hs
  have hpost := orderly_post h.orderly
  have hlast := hpost.next_two hb
  have hone := hpost.next
  have hsame : (post s).lastBufferUsed = s.mail.lastBufferUsed := rfl
  have hpg : pg ∈ s.led.free := by
    rw [hfree]
    exact mem_cons_self
  have hnodup := h.nodup
  rw [hfree,nodup_cons] at hnodup
  refine ⟨pg,mem_cons_self,hnodup.1,fun i => ?_,?_,fun g hg => ?_,fun i hi => ?_,
    hpost.sent hb henq text _⟩
  · simp only [h.files i,not_mem_nil,not_false_eq_true]
  · simp only [h.all,not_mem_nil,not_false_eq_true]
  · cases (h.path g).symm.trans hg
  change update s.led.buf (msgNo s) (some pg) i = some pg at hi
  by_cases hn : i = msgNo s
  · subst hn
    refine ⟨?_,fun q hiq => h.fresh q ?_⟩
    · change ((post s).lastBufferUsed+1).toInt ≤ ((post s).lastBufferUsed + 1 + 1).toInt
      omega
    · change msgNo s ∈ (update (post s).intMessageQueue r mq q).contents at hiq
      rw [hpost.contents_update henq,if_neg,append_nil] at hiq
      · exact hiq
      · exact fun hc => hfull ((isFull_eq_false h.orderly).mpr hc.2)
  · rw [update_of_ne hn] at hi
    exact absurd hpg (h.apart pg (h.buf i pg hi).1)

theorem Tidy.onKernel {α : Type} (h : Tidy s) {n : KM α} {x : α}
    (hs : Paged.onKernel n s = .ok (x, t)) : Tidy t := by
  obtain ⟨k,-,rfl⟩ := ok_onKernel hs
  exact h.congr rfl rfl

theorem Tidy.sysOpen (h : Tidy s) (hinv : KInv sb (fun _ => True) s.k) {p : PSlot} {path : Path}
    {omode : UInt32} {x : Option Fd} (hf : Frugal s (.call (.open p path omode)))
    (hs : Paged.sysOpen sb p path omode s = .ok (x, t)) : Tidy t := by
  obtain ⟨hl,hc,hwhen⟩ := hf
  rw [sysOpen_of_plain hl hc] at hs
  obtain ⟨r,s₁,hopen,hs⟩ := ok_of_bind hs
  have h₁ := h.onKernel hopen
  obtain ⟨k,hk,rfl⟩ := ok_onKernel hopen
  obtain ⟨hnone,hall⟩ := hinv.rep.openFile_none_iff hk
  cases r with
  | none =>
    cases hs
    exact h₁
  | some y =>
    have hhost : s.k.isHost p = true ∧ s.k.allFiles = [] := by
      rw [← or_assoc] at hwhen
      exact hwhen.resolve_left fun hno => absurd (hnone.mpr hno) (by simp)
    obtain ⟨u,s₂,hset,hs⟩ := ok_of_bind hs
    have h₂ := h₁.setPath y.2 hset
    cases hset
    obtain ⟨all,s₃,hr,hs⟩ := ok_of_bind hs
    cases hr
    obtain ⟨owner,s₄,hown,hs⟩ := ok_of_bind hs
    change paged.ownerOf path k.allFiles _ = _ at hown
    rw [hall,hhost.2] at hown
    cases hown
    obtain ⟨v,s₅,hfile,hs⟩ := ok_of_bind hs
    have h₃ := h₂.onKernel (n := Kernel.setFile y.2 fun ff => { ff with cid := -1 }) hfile
    rw [if_pos hhost.1] at hs
    cases hs
    exact h₃

theorem ok_schedule {q : PSlot} {u : Unit} (h : schedule q s = .ok (u, t)) :
    ∃ k, (if logs s q then logChoice else pure ()) { s with k := k } = .ok (u, t) := by
  obtain ⟨v,s₁,hk,h⟩ := ok_of_bind h
  obtain ⟨k,htab,rfl⟩ := ok_onKernel hk
  obtain ⟨log,s₂,hr,h⟩ := ok_of_bind h
  obtain ⟨hlog,rfl⟩ := Prod.mk.inj (ok.inj hr)
  have hsame : log = logs s q := hlog.symm.trans (logs_schedule htab)
  subst hsame
  exact ⟨k,h⟩

theorem Tidy.frugalCall (h : Tidy s) (hinv : KInv sb (fun _ => True) s.k) {a : Kernel.Call}
    {u : Unit} (hf : Frugal s (.call a)) (hs : runCall sb a s = .ok (u, t)) : Tidy t := by
  obtain ⟨p,path,omode,rfl⟩ | ⟨p,cid,rfl⟩ | ⟨q,rfl⟩ | ⟨hk,-⟩ := @runCall_cases sb a
  · obtain ⟨x,s₁,hopen,hs⟩ := ok_of_bind hs
    cases hs
    exact h.sysOpen hinv hf hopen
  · obtain ⟨fresh,s₁,hr,hs⟩ := ok_of_bind hs
    obtain ⟨-,rfl⟩ := Prod.mk.inj (ok.inj hr)
    obtain ⟨v,s₂,hk,hs⟩ := ok_of_bind hs
    have h₂ := h.onKernel hk
    cases hs
    refine ⟨h₂.orderly,h₂.nodup,h₂.apart,fun i => ?_,h₂.all,h₂.path,h₂.buf,h₂.inj,
      h₂.filled,h₂.sent,h₂.once,h₂.one⟩
    change (if fresh i = true then [] else s₂.led.files i) = []
    rw [h₂.files i,ite_self]
  · obtain ⟨k,hs⟩ := ok_schedule hs
    have hno : logs s q = false := hf
    rw [hno] at hs
    cases hs
    exact h.congr rfl rfl
  · rw [hk] at hs
    exact h.onKernel hs

theorem Tidy.frugal (h : Tidy s) (hinv : KInv sb (fun _ => True) s.k) (hf : Frugal s a)
    (hs : step sb s a = some t) : Tidy t := by
  obtain ⟨hen,u,hrun⟩ := step_some hs
  cases a with
  | call a => exact h.frugalCall hinv hf hrun
  | send p recPid text page => exact h.sysSend hf hrun
  | recv p str buffer low => exact absurd hf id
  | schedulerLog p =>
    obtain ⟨hl,hm,-⟩ := ok_schedulerLog hrun
    exact h.congr hl hm
  | others free =>
    cases hrun
    exact ⟨h.orderly,hen.1,fun f hf hfree => hen.2 f hfree hf,h.files,h.all,h.path,h.buf,
      h.inj,h.filled,h.sent,h.once,h.one⟩

theorem Tidy.wastefulCall (h : Tidy s) (hinv : KInv sb (fun _ => True) s.k) {a : Kernel.Call}
    {u : Unit} (hf : ¬ Frugal s (.call a)) (hs : runCall sb a s = .ok (u, t)) : ∃ c, Waste c t := by
  obtain ⟨p,path,omode,rfl⟩ | ⟨p,cid,rfl⟩ | ⟨q,rfl⟩ | ⟨-,hfr⟩ := @runCall_cases sb a
  · obtain ⟨x,s₁,hopen,hs⟩ := ok_of_bind hs
    cases hs
    obtain ⟨c,hc,-⟩ := h.loses_sysOpen hinv hf x t hopen
    exact ⟨c,hc⟩
  · exact absurd trivial hf
  · obtain ⟨k,hs⟩ := ok_schedule hs
    have hyes : logs s q = true := by simpa [Frugal] using hf
    rw [hyes,if_pos rfl] at hs
    have h₁ : Tidy { s with k := k } := h.congr rfl rfl
    obtain ⟨c,hc,-⟩ := h₁.loses_logChoice u t hs
    exact ⟨c,hc⟩
  · exact absurd (hfr s) hf

theorem Tidy.wasteful (h : Tidy s) (hinv : KInv sb (fun _ => True) s.k) (hf : ¬ Frugal s a)
    (hs : step sb s a = some t) : ∃ c, Waste c t := by
  obtain ⟨hen,u,hrun⟩ := step_some hs
  cases a with
  | call a => exact h.wastefulCall hinv hf hrun
  | send p recPid text page => exact h.waste_sysSend hf hrun
  | recv p str buffer low => exact h.waste_recv hrun
  | schedulerLog p | others free => exact absurd trivial hf

/-- The kernel stays in order: only its own calls change it. -/
theorem Tidy.kinv (h : Tidy s) (hinv : KInv sb (fun _ => True) s.k)
    (hs : step sb s a = some t) : KInv sb (fun _ => True) t.k := by
  obtain ⟨-,u,hrun⟩ := step_some hs
  cases a with
  | call c => exact hinv.step (Kernel.law_all sb) trivial (Kernel.ok_all s.k c) (step_kernel hs)
  | send p recPid text page =>
    obtain ⟨pg,fs,mq,-,-,-,rfl⟩ := ok_sysSend h.orderly hrun
    exact hinv
  | recv p str buffer low =>
    obtain ⟨r,mq,l,n,x,-,-,rfl⟩ := ok_recv h.orderly hrun
    exact hinv
  | schedulerLog p =>
    rw [(ok_schedulerLog hrun).2.2]
    exact hinv
  | others free =>
    cases hrun
    exact hinv

theorem Tidy.noLeak_iff (h : Tidy s) (hinv : KInv sb (fun _ => True) s.k) {acts : List Act}
    (hrun : exec (step sb) s acts = some t) : NoLeak t ↔ Meets (step sb) Frugal s acts := by
  induction acts generalizing s with
  | nil =>
    cases hrun
    exact iff_of_true h.noLeak trivial
  | cons a acts ih =>
    obtain ⟨s₁,hs,hrest⟩ := exec_cons.mp hrun
    by_cases hf : Frugal s a
    · rw [ih (h.frugal hinv hf hs) (h.kinv hinv hs) hrest]
      constructor
      · intro hm
        refine ⟨hf,fun s₂ hs2 => ?_⟩
        obtain rfl := Option.some.inj (hs.symm.trans hs2)
        exact hm
      · intro hm
        exact hm.2 s₁ hs
    · obtain ⟨c,hc⟩ := h.wasteful hinv hf hs
      have ht : Waste c t := exec_invariant (fun _ _ _ hw hst => hw.step hst) hc hrest
      exact iff_of_false ht.not_noLeak fun hm => hf hm.1

/-- After a run from the start no page is lost exactly if every call was frugal. -/
theorem no_leak_iff_frugal {k : Kernel} (hk : KInv sb (fun _ => True) k) {free : List ℕ}
    (hfree : free.Nodup) {acts : List Act} (hrun : exec (step sb) (boot k free) acts = some t) :
    NoLeak t ↔ Meets (step sb) Frugal (boot k free) acts :=
  (tidy_boot k hfree).noLeak_iff hk hrun

theorem initPid_lt : 1 < 64 := by decide

def initPid : Ipc.QPid := ⟨1, initPid_lt⟩

def letter : List Act :=
  [.call (.table (.schedule initproc)), .send initproc initPid Ipc.hi Ipc.hi]

def threePages : Whole := boot (Kernel.boot Fs.mkfs) [7, 8, 9]

theorem kinv_mkfs : KInv .mkfs (fun _ => True) (Kernel.boot Fs.mkfs) :=
  Kernel.goodDisk_mkfs.kinv trivial

theorem meets_letter : Meets (step .mkfs) Frugal threePages letter := by
  have hlog : logs threePages initproc = false := by decide +kernel
  refine ⟨hlog,fun s₁ h₁ => ⟨?_,fun _ _ => trivial⟩⟩
  have hroom : (step .mkfs threePages (.call (.table (.schedule initproc)))).map
      (fun s => Ipc.isFull (s.mail.intMessageQueue initPid)) = some false := by decide +kernel
  rw [h₁] at hroom
  exact Option.some.inj hroom

theorem no_leak_iff_frugal_letter :
    ∃ t, exec (step .mkfs) threePages letter = some t ∧ NoLeak t := by
  have hsome : (exec (step .mkfs) threePages letter).isSome = true := by decide +kernel
  obtain ⟨t,ht⟩ := Option.isSome_iff_exists.mp hsome
  exact ⟨t,ht,(no_leak_iff_frugal kinv_mkfs (by decide) ht).mpr meets_letter⟩

/-- Once the message has been received its page is lost. -/
theorem received_message_leaks : ¬ ∀ (sb : Superblock) (k : Kernel) (free : List ℕ)
    (acts : List Act) (t : Whole), KInv sb (fun _ => True) k → free.Nodup →
      exec (step sb) (boot k free) acts = some t → NoLeak t := by
  intro hall
  have hsome : (exec (step .mkfs) threePages (letter ++ [.recv initproc 0 Ipc.hi Ipc.hi])).isSome =
      true := by decide +kernel
  obtain ⟨t,ht⟩ := Option.isSome_iff_exists.mp hsome
  have hno := hall .mkfs (Kernel.boot Fs.mkfs) [7,8,9] _ t kinv_mkfs (by decide) ht
  have hmeets := ((tidy_boot (Kernel.boot Fs.mkfs) (by decide)).noLeak_iff kinv_mkfs ht).mp hno
  obtain ⟨s₁,h₁,hrest⟩ := exec_cons.mp ht
  obtain ⟨s₂,h₂,-⟩ := exec_cons.mp hrest
  exact ((hmeets.2 s₁ h₁).2 s₂ h₂).1

end Xv6Container.Paged
