import Xv6Container.Lib.Ring
import Xv6Container.Proc.Calls

/-!
# Pipes

A pipe is a ring of `PIPESIZE` bytes between two free-running 32-bit counters. A `pipewrite` that
fails after it stored bytes returns without the wakeup for them.
-/

namespace Xv6Container.Threads.Calls

open Run

variable {n : ℕ}

/-- `nwrite - nread`, modulo 2^32. -/
def Pipe.count (d : Pipe) : ℕ := (d.nwrite - d.nread).toNat

def Pipe.ring (d : Pipe) : List UInt8 :=
  Ring.contents d.data PIPESIZE (d.nread.toNat % PIPESIZE) d.count

/-- The ring holds what was stored and not yet handed out. -/
def Fifo (d : Data) : Prop :=
  d.pipe.count ≤ PIPESIZE ∧ d.stored = d.handed ++ d.pipe.ring

theorem Pipe.count_eq (d : Pipe) :
    d.count = (2 ^ 32 - d.nread.toNat + d.nwrite.toNat) % 2 ^ 32 := UInt32.toNat_sub ..

theorem Pipe.index_nwrite (d : Pipe) :
    d.nwrite.toNat % PIPESIZE = (d.nread.toNat % PIPESIZE+d.count) % PIPESIZE := by
  have hr := d.nread.toNat_lt
  rw [d.count_eq]
  simp only [PIPESIZE]
  omega

theorem Pipe.full_iff (d : Pipe) : d.full = true ↔ d.count = PIPESIZE := by
  have hr := d.nread.toNat_lt
  have hw := d.nwrite.toNat_lt
  rw [Pipe.full,beq_iff_eq,← UInt32.toNat_inj,UInt32.toNat_add,d.count_eq]
  simp only [PIPESIZE,show (512 : UInt32).toNat = 512 from rfl]
  omega

theorem Pipe.empty_iff (d : Pipe) : d.empty = true ↔ d.count = 0 := by
  have hr := d.nread.toNat_lt
  have hw := d.nwrite.toNat_lt
  rw [Pipe.empty,beq_iff_eq,← UInt32.toNat_inj,d.count_eq]
  omega

theorem Data.count_store (d : Data) (b : UInt8) (h : d.pipe.count < PIPESIZE) :
    (d.store b).pipe.count = d.pipe.count+1 := by
  have hr := d.pipe.nread.toNat_lt
  have hw := d.pipe.nwrite.toNat_lt
  rw [Pipe.count_eq] at h
  rw [Pipe.count_eq,Pipe.count_eq]
  simp only [Data.store,UInt32.toNat_add,UInt32.toNat_one,PIPESIZE] at h ⊢
  omega

theorem Data.count_hand (d : Data) (h : d.pipe.count ≠ 0) :
    d.hand.pipe.count + 1 = d.pipe.count := by
  have hr := d.pipe.nread.toNat_lt
  have hw := d.pipe.nwrite.toNat_lt
  rw [Pipe.count_eq] at h
  rw [Pipe.count_eq,Pipe.count_eq]
  simp only [Data.hand,UInt32.toNat_add,UInt32.toNat_one] at h ⊢
  omega

theorem Fifo.store {d : Data} (h : Fifo d) (hf : d.pipe.full = false) (b : UInt8) :
    Fifo (d.store b) := by
  have hlt : d.pipe.count < PIPESIZE := by
    refine lt_of_le_of_ne h.1 fun e => ?_
    rw [d.pipe.full_iff.mpr e] at hf
    cases hf
  have hcount := d.count_store b hlt
  refine ⟨by rw [hcount]; exact hlt,?_⟩
  have hring : (d.store b).pipe.ring = d.pipe.ring ++ [b] := by
    rw [Pipe.ring,hcount]
    show Ring.contents (Function.update d.pipe.data (d.pipe.nwrite.toNat % PIPESIZE) b) PIPESIZE
      (d.pipe.nread.toNat % PIPESIZE) _ = _
    rw [d.pipe.index_nwrite]
    exact Ring.contents_push hlt b
  rw [hring,← List.append_assoc]
  show d.stored ++ [b] = d.handed ++ d.pipe.ring ++ [b]
  rw [h.2]

theorem Fifo.hand {d : Data} (h : Fifo d) (he : d.pipe.empty = false) : Fifo d.hand := by
  have hpos : d.pipe.count ≠ 0 := fun e => by
    rw [d.pipe.empty_iff.mpr e] at he
    cases he
  have hcount := d.count_hand hpos
  refine ⟨by have := h.1; omega,?_⟩
  have hfront : d.hand.pipe.nread.toNat % PIPESIZE =
      (d.pipe.nread.toNat % PIPESIZE+1) % PIPESIZE := by
    simp only [Data.hand,UInt32.toNat_add,UInt32.toNat_one,PIPESIZE]
    omega
  have hring : d.pipe.ring = d.pipe.front :: d.hand.pipe.ring := by
    rw [Pipe.ring,← hcount,Ring.contents_pop (Nat.mod_lt _ (by decide)),Pipe.ring,hfront]
    rfl
  show d.stored = d.handed ++ [d.pipe.front] ++ d.hand.pipe.ring
  rw [h.2,hring,List.append_assoc,List.singleton_append]

/-- A step of a call under a lock stores a byte, hands one out, closes an end, or leaves the pipe as
it is. -/
inductive OnPipe (d : Data) : Data → Prop
  | same {d'} (hp : d'.pipe = d.pipe) (hs : d'.stored = d.stored) (hh : d'.handed = d.handed) :
      OnPipe d d'
  | store (b : UInt8) (hf : d.pipe.full = false) : OnPipe d (d.store b)
  | hand (he : d.pipe.empty = false) : OnPipe d d.hand
  | close (w : Bool) : OnPipe d (d.closeEnd w)

theorem OnPipe.refl (d : Data) : OnPipe d d := .same rfl rfl rfl

theorem next_onPipe {init p : Fin n} {x : Frame} {f : Slots n → Data → Slots n × Data × Frame}
    (h : next init p x = .act f) (slot : Slots n) (d : Data) : OnPipe d (f slot d).2.1 := by
  obtain ⟨point,jobs,ret⟩ := x
  cases point with
  | user => cases jobs <;> cases h
  | writeLoop k src fresh =>
    cases src with
    | nil => cases h; exact .refl d
    | cons b src =>
      cases h
      dsimp only
      split
      · split <;> exact .refl d
      · next hf => exact .store b (by simpa using hf)
  | readTest k | sleepTest k t =>
    cases h
    dsimp only
    split_ifs <;> exact .refl d
  | readCopy k got =>
    cases h
    dsimp only
    split
    · next he => exact .hand he.2
    · exact .refl d
  | closeSet w => cases h; exact .close w
  | consLoop k target dst =>
    cases h
    dsimp only
    split_ifs <;> exact .same rfl rfl rfl
  | waitScan =>
    cases h
    dsimp only
    split
    · exact .refl d
    · split_ifs <;> exact .refl d
  | intrLoop cs => cases cs <;> cases h <;> exact .same rfl rfl rfl
  | exitSet =>
    rw [next.eq_def] at h
    dsimp only at h
    split at h
    · cases h
    · cases h; exact .refl d
  | sleepBegin | timerTick | yieldSet => cases h; exact .same rfl rfl rfl
  | _ => cases h

theorem OnPipe.fifo {d d' : Data} (h : OnPipe d d') (hd : Fifo d) : Fifo d' := by
  cases h with
  | same hp hs hh => rwa [Fifo,hp,hs,hh]
  | store b hf => exact hd.store hf b
  | hand he => exact hd.hand he
  | close w => cases w <;> exact hd

/-- The pipe as `pipealloc` leaves it. -/
structure Fresh (d : Data) : Prop where
  nread : d.pipe.nread = 0
  nwrite : d.pipe.nwrite = 0
  readopen : d.pipe.readopen = true
  writeopen : d.pipe.writeopen = true
  stored : d.stored = []
  handed : d.handed = []

theorem Fresh.fifo {d : Data} (h : Fresh d) : Fifo d := by
  have hc : d.pipe.count = 0 := by
    rw [Pipe.count,h.nread,h.nwrite]
    rfl
  rw [Fifo,Pipe.ring,hc,h.stored,h.handed]
  exact ⟨Nat.zero_le _,rfl⟩

/-- A pipe is a FIFO byte stream: in every run of any processes, the counters are at most `PIPESIZE`
apart and the bytes stored are the bytes handed out followed by what the ring holds. -/
theorem pipe_is_fifo {init : Fin n} {s t : Machine n Lock (Channel n) Data Frame}
    {acts : List (Act n)} (hnew : Fresh s.data)
    (hrun : exec (step (next init)) s acts = some t) :
    t.data.pipe.count ≤ PIPESIZE ∧ t.data.stored = t.data.handed ++ t.data.pipe.ring :=
  data_invariant (P := Fifo) (fun _ _ _ hop slot d hd => (next_onPipe hop slot d).fifo hd)
    hnew.fifo hrun

/-- An empty pipe, and two processes about to make their calls. -/
def pipeStart (jobs : Fin 2 → List Job) : Machine 2 Lock (Channel 2) Data Frame where
  slot := fun p => ⟨⟨.RUNNABLE, none⟩, p.val + 1, none, false⟩
  lock := fun _ => none
  data := ⟨⟨fun _ => 0, 0, 0, true, true⟩, [], [], 0, ⟨fun _ => 0, 0, 0, 0⟩⟩
  pc := fun p => .switched ⟨.start, jobs p, 0⟩

theorem start_pipeStart (jobs : Fin 2 → List Job) :
    Start (pipeStart jobs) fun p => ⟨.start, jobs p, 0⟩ := ⟨fun _ => rfl,fun _ => rfl,fun _ => rfl⟩

theorem fresh_pipeStart (jobs : Fin 2 → List Job) : Fresh (pipeStart jobs).data :=
  ⟨rfl,rfl,rfl,rfl,rfl,rfl⟩

def threeAndTwo : List (Act 2) :=
  [.schedAcquire, .dispatch 0] ++ List.replicate 12 (.run 0) ++ [.schedAcquire, .dispatch 1] ++
    List.replicate 6 (.run 1)

theorem pipe_is_fifo_threeAndTwo :
    ∃ t, exec (step (next 0)) (pipeStart ![[.pipewrite [7, 8, 9]], [.piperead 2]]) threeAndTwo =
      some t ∧ t.data.handed = [7, 8] ∧ t.data.stored = t.data.handed ++ t.data.pipe.ring := by
  have hrun : (exec (step (next 0)) (pipeStart ![[.pipewrite [7,8,9]],[.piperead 2]])
      threeAndTwo).map (fun t => t.data.handed) = some [7,8] := by decide +kernel
  obtain ⟨t,ht,hh⟩ := Option.map_eq_some_iff.mp hrun
  exact ⟨t,ht,hh,(pipe_is_fifo (fresh_pipeStart _) ht).2⟩

/-- The two channels of the pipe. -/
def OfPipe (c : Channel n) : Prop := c = .nread ∨ c = .nwrite

theorem not_ofPipe {c : Channel n} {P : Prop} (hr : c ≠ .nread) (hw : c ≠ .nwrite) :
    OfPipe c → P := fun hc => (hc.elim hr hw).elim

/-- Why a process sleeps on a channel of the pipe. -/
def Blocked : Channel n → Data → Prop
  | .nread, d => d.pipe.empty = true ∧ d.pipe.writeopen = true
  | .nwrite, d => d.pipe.full = true ∧ d.pipe.readopen = true
  | _, _ => False

/-- The points at which a process still has to wake the sleepers of a channel. -/
def Point.owes : Point → Channel n → Prop
  | writeLoop _ _ fresh, c | writeFail fresh, c => fresh = true ∧ c = .nread
  | writeWake _ _, c | writeDone _, c => c = .nread
  | readCopy _ _, c | readDone _, c => c = .nwrite
  | closeWake w, c => c = if w then .nread else .nwrite
  | _, _ => False

/-- The points between a test of the pipe and the sleep. -/
def Point.tests : Point → Channel n → Prop
  | writeWake _ _, c | writeSleep _ _, c => c = .nwrite
  | readSleep _, c => c = .nread
  | _, _ => False

def owes (x : Frame) (c : Channel n) : Prop := x.point.owes c

def tests (x : Frame) (c : Channel n) : Prop := x.point.tests c

@[simp] theorem owes_goto (x : Frame) (pt : Point) (c : Channel n) :
    owes (x.goto pt) c ↔ pt.owes c := Iff.rfl

@[simp] theorem tests_goto (x : Frame) (pt : Point) (c : Channel n) :
    tests (x.goto pt) c ↔ pt.tests c := Iff.rfl

theorem Job.not_tests_entry (j : Job) (c : Channel n) : ¬j.entry.tests c := by
  cases j <;> simp [entry,Point.tests]

theorem monitored_of_other {x : Frame} {f : Slots n → Data → Slots n × Data × Frame}
    (hx : ∀ c : Channel n, ¬owes x c) (h : ∀ slot d, (f slot d).2.1.pipe = d.pipe)
    (ht : ∀ slot d (c : Channel n), ¬tests (f slot d).2.2 c) :
    (Op.act f : Op n Lock (Channel n) Data Frame).Monitored held .pipe OfPipe Blocked owes tests
      x := by
  intro slot d c
  have hb : Blocked c (f slot d).2.1 ↔ Blocked c d := by
    cases c <;> simp only [Blocked,h]
  exact ⟨fun ho => absurd ho (hx c),fun _ => ⟨fun _ => hb,fun hd hn => absurd (hb.mpr hd) hn,
    fun htc => absurd htc (ht slot d c)⟩⟩

/-- What a step from `x` to `x'` under the lock of the pipe has to see to. -/
def Minds (n : ℕ) (x : Frame) (d d' : Data) (x' : Frame) : Prop :=
  ∀ c : Channel n, (owes x c → owes x' c) ∧ (Blocked c d → ¬Blocked c d' → owes x' c) ∧
    (tests x' c → Blocked c d')

theorem monitored_of_pipe {x : Frame} {f : Slots n → Data → Slots n × Data × Frame}
    (hx : held x = some (.other .pipe)) (h : ∀ slot d, Minds n x d (f slot d).2.1 (f slot d).2.2) :
    (Op.act f : Op n Lock (Channel n) Data Frame).Monitored held .pipe OfPipe Blocked owes tests
      x := by
  intro slot d c
  obtain ⟨howes,hun,htests⟩ := h slot d c
  exact ⟨howes,fun _ => ⟨fun hne => absurd hx hne,hun,htests⟩⟩

theorem Minds.same {x x' : Frame} {d : Data} (howes : ∀ c : Channel n, owes x c → owes x' c)
    (htests : ∀ c : Channel n, tests x' c → Blocked c d) : Minds n x d d x' := fun c =>
  ⟨howes c,fun hb hn => absurd hb hn,htests c⟩

theorem Minds.store {x : Frame} {d : Data} {k : ℕ} {b : UInt8} {src : List UInt8}
    (hx : ∀ c : Channel n, owes x c → c = .nread) (hf : ¬d.pipe.full = true) :
    Minds n x d (d.store b) (x.goto (.writeLoop k src true)) := by
  refine fun c => ⟨fun h => ⟨rfl,hx c h⟩,fun hb _ => ⟨rfl,?_⟩,fun h => h.elim⟩
  cases c with
  | nread => rfl
  | nwrite => exact absurd hb.1 hf
  | _ => exact hb.elim

theorem Minds.hand {x : Frame} {d : Data} {k : ℤ} {got : List UInt8}
    (hx : ∀ c : Channel n, owes x c → c = .nwrite) (he : d.pipe.empty = false) :
    Minds n x d d.hand (x.goto (.readCopy k got)) := by
  refine fun c => ⟨hx c,fun hb _ => ?_,fun h => h.elim⟩
  cases c with
  | nwrite => rfl
  | nread =>
    rw [Blocked,he] at hb
    exact absurd hb.1 (by simp)
  | _ => exact hb.elim

theorem Minds.close {x : Frame} {d : Data} {w : Bool} (hx : ∀ c : Channel n, ¬owes x c) :
    Minds n x d (d.closeEnd w) (x.goto (.closeWake w)) := by
  refine fun c => ⟨fun h => absurd h (hx c),fun hb hn => ?_,fun h => h.elim⟩
  cases c with
  | nread =>
    cases w with
    | true => rfl
    | false => exact absurd hb hn
  | nwrite =>
    cases w with
    | true => exact absurd hb hn
    | false => rfl
  | _ => exact hb.elim

theorem monitor (init : Fin n) :
    Monitor (next init) held .pipe OfPipe Blocked owes (tests (n := n)) := by
  refine ⟨fun {x c} h => ?_,fun {x c} h => ?_,?_⟩
  · obtain ⟨point,jobs,ret⟩ := x
    cases point <;> first | rfl | exact h.elim
  · obtain ⟨point,jobs,ret⟩ := x
    cases point <;> first | rfl | exact h.elim
  rintro p ⟨point,jobs,ret⟩
  cases point with
  | user =>
    cases jobs with
    | nil => trivial
    | cons j jobs => exact fun c => j.not_tests_entry c
  -- the pipe calls
  | writeLoop k src fresh =>
    cases src with
    | nil => exact monitored_of_pipe rfl fun slot d => .same (fun c h => h.2) fun c h => h.elim
    | cons b src =>
      refine monitored_of_pipe rfl fun slot d => ?_
      split
      · next hf =>
        split
        · exact .same (fun c h => h) fun c h => h.elim
        · next hk =>
          refine .same (fun c h => h.2) fun c h => ?_
          obtain rfl : c = .nwrite := h
          simp only [Bool.or_eq_true,not_or,Bool.not_eq_true,Bool.not_eq_false'] at hk
          exact ⟨hf,hk.1⟩
      · next hf => exact .store (fun c h => h.2) hf
  | readTest k =>
    refine monitored_of_pipe rfl fun slot d => ?_
    split
    · next he =>
      split
      · exact .same (fun c h => h.elim) fun c h => h.elim
      · refine .same (fun c h => h.elim) fun c h => ?_
        obtain rfl : c = .nread := h
        simpa [Blocked] using he
    · exact .same (fun c h => h.elim) fun c h => h.elim
  | readCopy k got =>
    refine monitored_of_pipe rfl fun slot d => ?_
    split
    · next he => exact .hand (fun c h => h) he.2
    · exact .same (fun c h => h) fun c h => h.elim
  | closeSet w => exact monitored_of_pipe rfl fun slot d => .close fun c h => h
  | writeWake k src =>
    exact ⟨fun _ => rfl,fun c => ⟨fun ho hne => absurd ho hne,fun h => h⟩⟩
  | writeSleep k src | readSleep k => exact ⟨fun _ => ⟨rfl,rfl⟩,fun c => ⟨fun h => h,fun h => h⟩⟩
  | writeDone | readDone | closeWake =>
    exact ⟨fun _ => rfl,fun c => ⟨fun ho hne => absurd ho hne,fun h => h.elim⟩⟩
  -- the others
  | sleepBegin | timerTick | yieldSet =>
    exact monitored_of_other (fun _ h => h) (fun _ _ => rfl) fun _ _ _ h => h
  | sleepTest =>
    refine monitored_of_other (fun _ h => h) (fun slot d => ?_) fun slot d c h => ?_
    · split_ifs <;> rfl
    · split_ifs at h <;> exact h
  | consLoop =>
    refine monitored_of_other (fun _ h => h) (fun slot d => ?_) fun slot d c h => ?_
    · dsimp only
      split_ifs <;> rfl
    · dsimp only at h
      split_ifs at h <;> exact h
  | waitScan =>
    refine monitored_of_other (fun _ h => h) (fun slot d => ?_) fun slot d c h => ?_
    · split
      · rfl
      · split_ifs <;> rfl
    · split at h
      · exact h
      · split_ifs at h <;> exact h
  | intrLoop cs =>
    cases cs with
    | nil => exact monitored_of_other (fun _ h => h) (fun _ _ => rfl) fun _ _ _ h => h
    | cons b cs =>
      refine monitored_of_other (fun _ h => h) (fun _ _ => rfl) fun slot d c h => ?_
      dsimp only at h
      split_ifs at h <;> exact h
  | exitSet =>
    rw [next.eq_def]
    dsimp only
    split_ifs
    · trivial
    · exact monitored_of_other (fun _ h => h) (fun _ _ => rfl) fun _ _ _ h => h
  | sleepSleep | consSleep | waitSleep =>
    exact ⟨not_ofPipe (by simp) (by simp),fun c => ⟨fun h => h,fun h => h⟩⟩
  | timerWake | intrWake =>
    exact ⟨not_ofPipe (by simp) (by simp),fun c => ⟨fun h => h.elim,fun h => h⟩⟩
  | _ => trivial

/-- About to return from a `pipewrite` that failed, with bytes stored since its last wakeup. -/
def failsUnsaid : Pc Lock (Channel n) Frame → Bool
  | .caller ⟨.writeFail true, _, _⟩ => true
  | _ => false

/-- No `pipewrite` fails with bytes it has stored since its last wakeup while a reader sleeps on the
pipe, or has found it empty and is on the way to. -/
def TellsReaders (s : Machine n Lock (Channel n) Data Frame) : Act n → Prop
  | .run p => failsUnsaid (s.pc p) = true → ∀ q, ¬s.Bound q .nread
  | _ => True

instance (s : Machine n Lock (Channel n) Data Frame) : DecidablePred (TellsReaders s)
  | .run p => inferInstanceAs (Decidable (failsUnsaid (s.pc p) = true → ∀ q, ¬s.Bound q .nread))
  | .schedAcquire | .dispatch _ | .schedRelease | .kill _ => isTrue trivial

theorem TellsReaders.settles {init : Fin n} {s : Machine n Lock (Channel n) Data Frame} {a : Act n}
    (h : TellsReaders s a) : Settles (next init) .pipe OfPipe owes s a := by
  cases a with
  | run p =>
    rintro ⟨point,jobs,ret⟩ k c hpc hop - ho
    cases point with
    | writeFail fresh =>
      obtain ⟨rfl,rfl⟩ := ho
      exact h (by rw [hpc]; rfl)
    | writeLoop _ src _ => cases src <;> cases hop
    | writeWake | writeDone | readCopy | readDone | closeWake => cases hop
    | _ => exact ho.elim
  | _ => trivial

/-- In every run in which `pipewrite` tells the readers, while the lock of the pipe is free no
reader sleeps on a pipe that holds data or whose write end is closed, and no writer on one that has
room or whose read end is closed. -/
theorem pipe_sleepers_justified {init : Fin n} {s t : Machine n Lock (Channel n) Data Frame}
    {jobs : Fin n → List Job} {acts : List (Act n)}
    (hstart : Start s fun p => ⟨.start, jobs p, 0⟩)
    (hok : Meets (step (next init)) TellsReaders s acts)
    (hrun : exec (step (next init)) s acts = some t) (hlock : t.lock (.other .pipe) = none)
    (q : Fin n) (hq : (t.slot q).state = .SLEEPING) :
    ((t.slot q).chan = some .nread → t.data.pipe.empty = true ∧ t.data.pipe.writeopen = true) ∧
      ((t.slot q).chan = some .nwrite → t.data.pipe.full = true ∧ t.data.pipe.readopen = true) := by
  have hinv : MonitorInv held .pipe OfPipe Blocked owes tests t :=
    exec_invariant_of_meets
      (fun _ _ _ hu hok hs => hu.step (locking init) (monitor init) hok.settles hs)
      (hstart.monitorInv fun _ => rfl) hok hrun
  exact ⟨fun hc => hinv.justified (monitor init) (.inl rfl) hlock hq hc,
    fun hc => hinv.justified (monitor init) (.inr rfl) hlock hq hc⟩

def readerSleeps : List (Act 2) :=
  [.schedAcquire, .dispatch 0] ++ List.replicate 9 (.run 0)

theorem pipe_sleepers_justified_reader :
    ∃ t, exec (step (next 1)) (pipeStart ![[.piperead 1], []]) readerSleeps = some t ∧
      (t.slot 0).state = .SLEEPING ∧ (t.slot 0).chan = some .nread ∧
      t.data.pipe.empty = true ∧ t.data.pipe.writeopen = true := by
  have hok : Meets (step (next 1)) TellsReaders (pipeStart ![[.piperead 1],[]]) readerSleeps := by
    decide +kernel
  have hrun : (exec (step (next 1)) (pipeStart ![[.piperead 1],[]]) readerSleeps).map
      (fun t => (t.lock (.other .pipe), (t.slot 0).state, (t.slot 0).chan)) =
      some (none, .SLEEPING, some .nread) := by decide +kernel
  obtain ⟨t,ht,he⟩ := Option.map_eq_some_iff.mp hrun
  simp only [Prod.mk.injEq] at he
  obtain ⟨hlock,hst,hch⟩ := he
  exact ⟨t,ht,hst,hch,
    (pipe_sleepers_justified (start_pipeStart _) hok ht hlock 0 hst).1 hch⟩

/-- The reader sleeps; a writer of 513 bytes is killed, stores 512 of them, finds the pipe full and
returns -1. -/
def writerKilled : List (Act 2) :=
  readerSleeps ++ [.dispatch 1, .run 1, .run 1, .kill 2] ++ List.replicate 514 (.run 1)

/-- The reader then sleeps on a full pipe. -/
theorem pipe_sleeper_unjustified :
    ¬ ∀ (s t : Machine 2 Lock (Channel 2) Data Frame) (jobs : Fin 2 → List Job) (acts : List (Act 2)),
      Start s (fun p => ⟨.start, jobs p, 0⟩) → Fresh s.data →
      exec (step (next 0)) s acts = some t → t.lock (.other .pipe) = none →
      t.lock .ptable = none → ∀ q, (t.slot q).state = .SLEEPING →
      (t.slot q).chan = some .nread → t.data.pipe.empty = true := by
  intro h
  have hrun : (exec (step (next 0))
      (pipeStart ![[.piperead 1],[.pipewrite (List.replicate 513 0)]]) writerKilled).map
      (fun t => (t.lock (.other .pipe), t.lock .ptable, (t.slot 0).state, (t.slot 0).chan,
        t.data.pipe.empty)) =
      some (none, none, .SLEEPING, some .nread, false) := by decide +kernel
  obtain ⟨t,ht,he⟩ := Option.map_eq_some_iff.mp hrun
  simp only [Prod.mk.injEq] at he
  obtain ⟨hlock,hptable,hst,hch,hne⟩ := he
  have := h _ t _ _ (start_pipeStart _) (fresh_pipeStart _) ht hlock hptable 0 hst hch
  rw [hne] at this
  cases this

end Xv6Container.Threads.Calls
