import Xv6Container.Kernel.Disk
import Xv6Container.Kernel.Outcome

/-!
# The arrays of the container calls

Counters and ids of the container calls are indices into arrays of 100 entries.
-/

namespace Xv6Container.Bounds

open Prog Fs Run Tables List Function

structure State where
  k : Kernel
  /-- `cid_sch_log` -/
  cidSchLog : ℤ
  /-- `sch_log` -/
  schLog : ℤ → ℤ

inductive Act
  | call (c : Kernel.Call)
  | schedulerLog (p : PSlot)

def boot (disk : Fs.State) : State := ⟨Kernel.boot disk, 0, fun _ => 0⟩

variable (sb : Superblock)

def Enabled (s : State) : Act → Prop
  | .call c => s.k.Enabled c
  | .schedulerLog p => (s.k.tables.proc p).state = .RUNNING

instance (s : State) : DecidablePred (Enabled s)
  | .call c => inferInstanceAs (Decidable (s.k.Enabled c))
  | .schedulerLog p => inferInstanceAs (Decidable ((s.k.tables.proc p).state = .RUNNING))

/-- The first `n` indices: a loop over the entries that are in use. -/
def firsts (n : ℕ) : List ℤ := (List.range n).map Int.ofNat

/-- The number of processes of the container with id `c`, if there is one. -/
def counter (k : Kernel) (c : ℤ) : List ℤ :=
  ((k.tables.findLive c).map fun i => (k.tables.container i).numberOfProcess).toList

/-- The entries that a new registration of container `c` takes. -/
def entries (k : Kernel) (c : ℤ) : List ℤ :=
  (k.allFiles.length : ℤ) :: ((List.finRange NCONT).filter fun i => k.registers c i).map
    fun i => ((k.files i).length : ℤ)

def onKernel {α : Type} (m : KM α) : Prog (Kernel × List ℤ) Stop α :=
  zoom Prod.fst (fun s k => (k, s.2)) m

/-- `sys_open` with a note of the entries that its registration takes. It does not make the
registration. -/
def watched : Kernel.PathOps (Kernel × List ℤ) Path where
  lift := onKernel
  text path := path
  redirect p path := onKernel (Kernel.redirect p path)
  dotted g := onKernel (Kernel.strcat Kernel.dotSlash g)
  setPath _ _ := pure ()
  register cid _ := modify fun s => (s.1, s.2 ++ entries s.1 cid)

def noted (k : Kernel) (p : PSlot) (path : Path) (omode : UInt32) : List ℤ :=
  ((watched.sysOpen sb p path omode (k, [])).toOption.map fun r => r.2.2).getD []

/-- The indices of an enabled call into `mypid`, the arrays of registered files, `all_files` and
`corresponding_cid`, and `sch_log`. -/
def used (s : State) : Act → List ℤ
  | .call (.table (.join _ c)) => counter s.k c
  | .call (.table (.leave p)) => counter s.k (s.k.tables.proc p).cid
  | .call (.table (.ps p)) =>
    let tables := s.k.tables.sweep
    if (tables.proc p).cid = -1 then []
    else
      let i := (tables.findLive (tables.proc p).cid).getD ⟨0, ncont_pos⟩
      firsts (tables.container i).numberOfProcess.toNat
  | .call (.table (.schedule _)) => [s.cidSchLog]
  | .call (.open p path omode) =>
    ((s.k.tables.findLive (s.k.callerCid p)).toList.flatMap fun i => firsts (s.k.files i).length) ++
      firsts s.k.allFiles.length ++ noted sb s.k p path omode
  | .schedulerLog p => [(s.k.tables.proc p).cid]
  | _ => []

def indices (s : State) (a : Act) : List ℤ := if Enabled s a then used sb s a else []

/-- One call. A store outside of `sch_log` has no next state. -/
def step (s : State) : Act → Option State
  | .call c => (Kernel.step sb s.k c).map fun k => { s with k := k }
  | .schedulerLog p =>
    if (s.k.tables.proc p).state = .RUNNING ∧ InArray (s.k.tables.proc p).cid then
      some { s with
        cidSchLog := (s.k.tables.proc p).cid
        schLog := update s.schLog (s.k.tables.proc p).cid
          (1 - s.schLog (s.k.tables.proc p).cid) }
    else none

/-- The counters of live containers and of `all_files` are in range. -/
def Bounded (s : State) : Prop :=
  (∀ i, s.k.tables.location i = true →
    (0 ≤ (s.k.tables.container i).numberOfProcess ∧
      (s.k.tables.container i).numberOfProcess ≤ NCONT) ∧ (s.k.files i).length ≤ NCONT) ∧
    s.k.allFiles.length ≤ NCONT

/-- The call keeps to the arrays, and leaves the counters in range. -/
def Safe (s : State) (a : Act) : Prop :=
  (∀ i ∈ indices sb s a, InArray i) ∧ ∀ t, step sb s a = some t → Bounded t

/-- A member can be entered, a member can be taken out, a file can be registered, and a container's
id is an index. An open registers nothing if its caller is outside of all containers or has
registered the path, or if there is nothing to open or no descriptor. -/
def Fits (s : State) (a : Act) : Prop :=
  Enabled s a →
    match a with
    | .call (.table (.join _ c)) => ∀ i, s.k.tables.findLive c = some i →
        (s.k.tables.container i).numberOfProcess < NCONT
    | .call (.table (.leave p)) => ∀ i, s.k.tables.findLive (s.k.tables.proc p).cid = some i →
        1 ≤ (s.k.tables.container i).numberOfProcess ∧
          (s.k.tables.container i).numberOfProcess < NCONT
    | .call (.open p path omode) =>
        s.k.isHost p = false → s.k.registered p path = false →
        ¬ Kernel.Misses (treeOf s.k.fs) (s.k.viewOf.dir p) (s.k.first p path omode) omode →
        ¬ s.k.Full p →
        s.k.allFiles.length < NCONT ∧
          ∀ i, s.k.registers (s.k.callerCid p) i = true → (s.k.files i).length < NCONT
    | .schedulerLog p => InArray (s.k.tables.proc p).cid
    | _ => True

/-- The counters are in range, also those of containers that are gone. -/
structure Within (k : Kernel) : Prop where
  procs : ∀ i, 0 ≤ (k.tables.container i).numberOfProcess ∧
    (k.tables.container i).numberOfProcess ≤ NCONT
  files : ∀ i, (k.files i).length ≤ NCONT
  all : k.allFiles.length ≤ NCONT

theorem Within.bounded {s : State} (h : Within s.k) : Bounded s :=
  ⟨fun i _ => ⟨h.procs i,h.files i⟩,h.all⟩

theorem within_boot (disk : Fs.State) : Within (Kernel.boot disk) where
  procs := fun _ => ⟨le_rfl,Int.natCast_nonneg NCONT⟩
  files := fun _ => Nat.zero_le _
  all := Nat.zero_le _

theorem Within.congr {k l : Kernel} (h : Within k) (ht : l.tables.container = k.tables.container)
    (hf : l.files = k.files) (ha : l.allFiles = k.allFiles) : Within l :=
  ⟨by rw [ht]; exact h.procs,by rw [hf]; exact h.files,by rw [ha]; exact h.all⟩

section Keeps

variable {sb} {α : Type} {p q : PSlot} {f : FSlot} {fd : Fd}

theorem calm_within : Kernel.Calm Within :=
  fun _ _ ht hf ha h => h.congr (congrArg Tables.container ht) hf ha

theorem steady_within : Kernel.Steady Within := calm_within.steady

theorem keeps_register (cid : ℤ) (path : Path) :
    Keeps Within (Kernel.register cid path) fun _ => True := by
  intro k u l h hl
  obtain ⟨room,k1,hr,hl⟩ := ok_of_bind hl
  obtain ⟨hroom,rfl⟩ := Prod.mk.inj (Except.ok.inj hr)
  cases room with
  | false => cases hl
  | true =>
    cases hl
    simp only [Bool.and_eq_true,decide_eq_true_eq,all_eq_true,mem_finRange,
      Bool.or_eq_true,Bool.not_eq_true',true_implies] at hroom
    refine ⟨⟨h.procs,fun i => ?_,?_⟩,trivial⟩
    · change (if k.registers cid i = true then k.files i ++ [path] else k.files i).length ≤ NCONT
      split
      · next hi =>
        rcases hroom.2 i with hno | hlt
        · rw [hi] at hno
          cases hno
        · rw [length_append,length_singleton]
          omega
      · exact h.files i
    · change (k.allFiles ++ [(path, cid)]).length ≤ NCONT
      rw [length_append,length_singleton]
      omega

theorem keeps_sysOpen (path : Path) (omode : UInt32) :
    Keeps Within (Kernel.sysOpen sb p path omode) fun _ => True :=
  (calm_within.plain keeps_register).sysOpen (fun _ => trivial) trivial omode

theorem keeps_dupFd : Keeps Within (Kernel.dupFd p q fd) fun _ => True := by
  refine Keeps.read.bind fun f _ => ?_
  cases f with
  | none => exact .pure trivial
  | some f => exact steady_within.filedup.bind fun _ _ => steady_within.setOfile _

theorem keeps_dupCwd : Keeps Within (Kernel.dupCwd p q) fun _ => True := by
  refine Keeps.read.bind fun cwd _ => ?_
  cases cwd with
  | none => exact .stop
  | some c => exact (steady_within.onFs _).bind fun _ _ => steady_within.setCwd _

theorem keeps_exitFd : Keeps Within (Kernel.exitFd p fd) fun _ => True := by
  refine Keeps.read.bind fun f _ => ?_
  cases f with
  | none => exact .pure trivial
  | some f => exact steady_within.fileclose.bind fun _ _ => steady_within.setOfile _

theorem keeps_putCwd : Keeps Within (Kernel.putCwd p) fun _ => True := by
  refine Keeps.read.bind fun cwd _ => ?_
  cases cwd with
  | none => exact .stop
  | some c => exact steady_within.onFs _

theorem container_fork (s : Tables) (p : PSlot) (mem : ForkMemory) :
    (s.fork p mem).1.container = s.container := by
  rw [Tables.fork]
  split
  · rfl
  · cases mem with
    | noStack => rfl
    | noSpace => rfl
    | enough => rfl

theorem container_exit {s t : Tables} (h : s.exit p = some t) : t.container = s.container := by
  rw [Tables.exit] at h
  split at h
  · cases h
  · cases h
    rfl

theorem keeps_sysFork (mem : ForkMemory) : Keeps Within (Kernel.sysFork p mem) fun _ => True := by
  refine Keeps.read.bind fun child _ => ?_
  cases child with
  | none => exact .pure trivial
  | some q =>
    refine .ite (fun _ => ?_) fun _ => ?_
    · exact (Keeps.forM (fun _ => keeps_dupFd) _).bind fun _ _ => keeps_dupCwd.bind fun _ _ =>
        .modify fun k h => h.congr (container_fork k.tables p mem) rfl rfl
    · exact .modify fun k h => h.congr (container_fork k.tables p mem) rfl rfl

theorem keeps_sysExit : Keeps Within (Kernel.sysExit p) fun _ => True := by
  intro k u l h hl
  obtain ⟨left,k1,hr,hl⟩ := ok_of_bind hl
  obtain ⟨hleft,rfl⟩ := Prod.mk.inj (Except.ok.inj hr)
  cases left with
  | none => cases hl
  | some tables =>
    have hrest : Keeps Within ((List.finRange NOFILE).forM (Kernel.exitFd p) >>= fun _ =>
        Kernel.putCwd p >>= fun _ => Kernel.setCwd p none >>= fun _ =>
        Prog.modify fun k' : Kernel => { k' with tables := tables }) fun _ => True :=
      (Keeps.forM (fun _ => keeps_exitFd) _).bind fun _ _ => keeps_putCwd.bind fun _ _ =>
        (steady_within.setCwd none).bind fun _ _ => .modify fun k' h' =>
          ⟨by rw [container_exit hleft]; exact h.procs,h'.files,h'.all⟩
    exact hrest k u l h hl

theorem keeps_sysDup (n : ℕ) : Keeps Within (Kernel.sysDup p n) fun _ => True := by
  refine Keeps.read.bind fun arg _ => ?_
  cases arg with
  | none => exact .pure trivial
  | some x =>
    refine steady_within.fdalloc.bind fun fd _ => ?_
    cases fd with
    | none => exact .pure trivial
    | some fd => exact steady_within.filedup.bind fun _ _ => .pure trivial

theorem keeps_sysRead (fd n : ℕ) : Keeps Within (Kernel.sysRead sb p fd n) fun _ => True := by
  refine Keeps.read.bind fun arg _ => ?_
  cases arg with
  | none => exact .pure trivial
  | some x => exact .ite (fun _ => steady_within.fileread n) fun _ => .pure trivial

theorem keeps_sysWrite (fd : ℕ) (src : List UInt8) :
    Keeps Within (Kernel.sysWrite sb p fd src) fun _ => True := by
  refine Keeps.read.bind fun arg _ => ?_
  cases arg with
  | none => exact .pure trivial
  | some x => exact .ite (fun _ => steady_within.filewrite src) fun _ => .pure trivial

theorem keeps_sysClose (fd : ℕ) : Keeps Within (Kernel.sysClose p fd) fun _ => True := by
  refine Keeps.read.bind fun arg _ => ?_
  cases arg with
  | none => exact .pure trivial
  | some x =>
    exact (steady_within.setOfile none).bind fun _ _ => steady_within.fileclose.bind fun _ _ => .pure trivial

theorem keeps_sysChdir (path : Path) : Keeps Within (Kernel.sysChdir sb p path) fun _ => True := by
  refine (Keeps.read.bind fun cwd _ => steady_within.onFs _).bind fun ip _ => ?_
  cases ip with
  | none => exact .pure trivial
  | some ip => exact keeps_putCwd.bind fun _ _ => (steady_within.setCwd _).bind fun _ _ => .pure trivial

theorem keeps_inCwd (m : Option ISlot → Fs.M α) : Keeps Within (Kernel.inCwd p m) fun _ => True :=
  Keeps.read.bind fun _ _ => steady_within.onFs _

theorem keeps_drop {m : KM α} (hm : Keeps Within m fun _ => True) :
    Keeps Within (do let _ ← m) fun _ => True :=
  hm.bind fun _ _ => .pure trivial

theorem keeps_sysCreateContainer (c : ℤ) :
    Keeps Within (Kernel.sysCreateContainer c) fun _ => True := by
  refine .modify fun k h => ⟨fun i => ?_,fun i => ?_,h.all⟩
  · change 0 ≤ ((k.tables.createContainer c).1.container i).numberOfProcess ∧
      ((k.tables.createContainer c).1.container i).numberOfProcess ≤ NCONT
    rw [createContainer]
    split
    · exact h.procs i
    split
    · exact h.procs i
    · next j hj =>
      simp only [setContainer]
      by_cases hij : i = j
      · subst hij
        simp only [update_self]
        exact ⟨le_rfl,Int.natCast_nonneg NCONT⟩
      · simp only [update_of_ne hij]
        exact h.procs i
  · change (if k.tables.findLive c = none ∧ k.tables.freeSlot = some i then [] else
      k.files i).length ≤ NCONT
    split
    · exact Nat.zero_le _
    · exact h.files i

end Keeps

variable {sb} {s t : State}

theorem sweep_container (s : Tables) : s.sweep.container = s.container := by
  rw [Tables.sweep]
  split
  · rfl
  · rfl

theorem container_effect {s t : Tables} {a : Tables.Act} (ha : Kernel.needsFiles a = false)
    (hjoin : ∀ p c, a ≠ .join p c) (hleave : ∀ p, a ≠ .leave p) (h : s.effect a = some t) :
    t.container = s.container := by
  cases a with
  | create | fork | exit | «open» => cases ha
  | join p c => exact absurd rfl (hjoin p c)
  | leave p => exact absurd rfl (hleave p)
  | destroy p c =>
    cases h
    rw [destroyContainer]
    split
    · rfl
    · rfl
  | wait p =>
    cases h
    rw [Tables.wait]
    split
    · rfl
    · split
      · rfl
      · rfl
  | ps p =>
    cases h
    rw [runningProcs_fst]
    exact sweep_container s
  | schedule p =>
    rw [effect] at h
    split at h
    · cases h
      rfl
    · cases h
  | kill | yield | sleep | wakeup =>
    cases h
    rfl

theorem ok_sysTable {k l : Kernel} {a : Tables.Act} {u : Unit}
    (h : Kernel.sysTable a k = .ok (u, l)) :
    Kernel.needsFiles a = false ∧ ∃ t, k.tables.effect a = some t ∧ l = { k with tables := t } := by
  obtain ⟨next,k1,hr,h⟩ := ok_of_bind h
  obtain ⟨hnext,rfl⟩ := Prod.mk.inj (Except.ok.inj hr)
  cases next with
  | none => cases h
  | some t =>
    cases h
    cases ha : Kernel.needsFiles a with
    | true =>
      simp only [ha,if_true] at hnext
      cases hnext
    | false =>
      simp only [ha,Bool.false_eq_true,if_false] at hnext
      exact ⟨rfl,t,hnext,rfl⟩

theorem Within.join {k : Kernel} {t : Tables} {p : PSlot} {c : ℤ} (h : Within k)
    (hs : k.tables.effect (.join p c) = some t) : Within { k with tables := t } := by
  obtain ⟨⟨u,v⟩,hj,rfl⟩ := Option.map_eq_some_iff.mp hs
  refine ⟨fun i => ?_,h.files,h.all⟩
  change 0 ≤ (u.container i).numberOfProcess ∧ (u.container i).numberOfProcess ≤ NCONT
  rw [joinCont] at hj
  dsimp only at hj
  split at hj
  · cases hj
    rw [sweep_container]
    exact h.procs i
  · next j hfind =>
    split at hj
    · next hin =>
      cases hj
      simp only [setProc,setContainer]
      by_cases hij : i = j
      · subst hij
        simp only [update_self]
        have := hin.1
        have := hin.2
        constructor <;> omega
      · simp only [update_of_ne hij,sweep_container]
        exact h.procs i
    · cases hj

theorem container_leave {s t : Tables} {p : PSlot} (hs : s.effect (.leave p) = some t) :
    (s.findLive (s.proc p).cid = none ∧ t = s) ∨
      ∃ i, s.findLive (s.proc p).cid = some i ∧ t.location = s.location ∧
        (t.container i).numberOfProcess = (s.container i).numberOfProcess - 1 ∧
        ∀ j, j ≠ i → t.container j = s.container j := by
  obtain ⟨⟨u,v⟩,hl,rfl⟩ := Option.map_eq_some_iff.mp hs
  obtain ⟨hn,rfl,-⟩ | ⟨i,hi,-,rfl⟩ := leaveContainer_cases hl
  · exact .inl ⟨hn,rfl⟩
  · refine .inr ⟨i,hi,rfl,?_,fun j hj => relocate_container_of_ne hj⟩
    rw [relocate_container_self]

theorem ok_of_step {k l : Kernel} {c : Kernel.Call} (h : Kernel.step sb k c = some l) :
    k.Enabled c ∧ ∃ u, Kernel.Call.run sb c k = .ok (u, l) := by
  rw [Kernel.step] at h
  split at h
  · next he =>
    split at h
    · next u l' hrun =>
      cases h
      exact ⟨he,u,hrun⟩
    · cases h
  · cases h

theorem Within.sysTable {k l : Kernel} {a : Tables.Act} {u : Unit} (h : Within k)
    (hleave : ∀ p, a ≠ .leave p) (hrun : Kernel.sysTable a k = .ok (u, l)) : Within l := by
  obtain ⟨ha,t,ht,rfl⟩ := ok_sysTable hrun
  by_cases hjoin : ∃ p c, a = .join p c
  · obtain ⟨p,c,rfl⟩ := hjoin
    exact h.join ht
  · refine h.congr (container_effect ha (fun p c hpc => hjoin ⟨p,c,hpc⟩) hleave ht) rfl rfl

theorem Within.run {k l : Kernel} {c : Kernel.Call} {u : Unit} (h : Within k)
    (hleave : ∀ p, c ≠ .table (.leave p)) (hrun : Kernel.Call.run sb c k = .ok (u, l)) :
    Within l := by
  cases c with
  | «open» p path omode => exact (keeps_drop (keeps_sysOpen path omode) k u l h hrun).1
  | read p fd n => exact (keeps_drop (keeps_sysRead fd n) k u l h hrun).1
  | write p fd src => exact (keeps_drop (keeps_sysWrite fd src) k u l h hrun).1
  | close p fd => exact (keeps_drop (keeps_sysClose fd) k u l h hrun).1
  | dup p fd => exact (keeps_drop (keeps_sysDup fd) k u l h hrun).1
  | mkdir p path | mknod p path major minor | link p old new | unlink p path =>
    exact (keeps_drop (keeps_inCwd _) k u l h hrun).1
  | chdir p path => exact (keeps_drop (keeps_sysChdir path) k u l h hrun).1
  | fork p mem => exact (keeps_sysFork mem k u l h hrun).1
  | exit p => exact (keeps_sysExit k u l h hrun).1
  | createContainer p c => exact (keeps_sysCreateContainer c k u l h hrun).1
  | store p one | stack bytes =>
    cases hrun
    exact h.congr rfl rfl rfl
  | table a => exact h.sysTable (fun p hp => hleave p (congrArg Kernel.Call.table hp)) hrun

theorem Within.leave {k : Kernel} {t : Tables} {p : PSlot} (h : Within k)
    (hs : k.tables.effect (.leave p) = some t)
    (hfit : ∀ i, k.tables.findLive (k.tables.proc p).cid = some i →
      1 ≤ (k.tables.container i).numberOfProcess) : Within { k with tables := t } := by
  obtain ⟨-,rfl⟩ | ⟨i,hi,-,hself,hne⟩ := container_leave hs
  · exact h
  refine ⟨fun j => ?_,h.files,h.all⟩
  by_cases hj : j = i
  · subst hj
    have := hfit j hi
    have := (h.procs j).2
    change 0 ≤ (t.container j).numberOfProcess ∧ (t.container j).numberOfProcess ≤ NCONT
    omega
  · change 0 ≤ (t.container j).numberOfProcess ∧ (t.container j).numberOfProcess ≤ NCONT
    rw [hne j hj]
    exact h.procs j

structure Inv (sb : Superblock) (s : State) : Prop where
  kinv : Kernel.KInv sb (fun _ => True) s.k
  within : Within s.k
  log : InArray s.cidSchLog

theorem inv_boot {disk : Fs.State} (h : Kernel.GoodDisk sb disk) : Inv sb (boot disk) :=
  ⟨h.kinv trivial,within_boot disk,by change InArray 0; decide⟩

theorem inArray_firsts {n : ℕ} (hn : n ≤ NCONT) : ∀ i ∈ firsts n, InArray i := by
  intro i hi
  obtain ⟨j,hj,rfl⟩ := List.mem_map.mp hi
  have := List.mem_range.mp hj
  exact ⟨Int.natCast_nonneg j,by change (j : ℤ) < NCONT; omega⟩

theorem Inv.step {a : Act} (h : Inv sb s) (hfit : Fits s a) (hs : step sb s a = some t) :
    Inv sb t := by
  cases a with
  | call c =>
    obtain ⟨k,hk,rfl⟩ := Option.map_eq_some_iff.mp hs
    obtain ⟨hen,u,hrun⟩ := ok_of_step hk
    refine ⟨h.kinv.step (Kernel.law_all sb) trivial (Kernel.ok_all s.k c) hk,?_,h.log⟩
    by_cases hc : ∃ p, c = .table (.leave p)
    · obtain ⟨p,rfl⟩ := hc
      obtain ⟨-,tables,ht,rfl⟩ := ok_sysTable hrun
      exact h.within.leave ht fun i hi => (hfit hen i hi).1
    · exact h.within.run (fun p hp => hc ⟨p,hp⟩) hrun
  | schedulerLog p =>
    simp only [Bounds.step] at hs
    split at hs
    · next hp =>
      cases hs
      exact ⟨h.kinv,h.within,hp.2⟩
    · cases hs

/-- The tables and the registries are those of `k`, and the noted entries are in the arrays. -/
def Noted (k : Kernel) (s : Kernel × List ℤ) : Prop :=
  (s.1.tables = k.tables ∧ s.1.files = k.files ∧ s.1.allFiles = k.allFiles) ∧
    ∀ i ∈ s.2, InArray i

theorem traces_watched : watched.Traces Prod.fst where
  lift m := .zoom (fun _ _ => rfl) m
  redirect _ _ := .zoom (fun _ _ => rfl) _

theorem noted_onKernel {α : Type} {k : Kernel} {m : KM α} (hm : Kernel.Quiet m) :
    Keeps (Noted k) (onKernel m) fun _ => True := by
  intro s b t hs hb
  obtain ⟨l,hl,rfl⟩ := ok_of_zoom hb
  have hcalm : Kernel.Calm fun l =>
      l.tables = k.tables ∧ l.files = k.files ∧ l.allFiles = k.allFiles :=
    fun _ _ ht hf ha h => ⟨ht.trans h.1,hf.trans h.2.1,ha.trans h.2.2⟩
  exact ⟨⟨(hm _ hcalm s.1 b l hs.1 hl).1,hs.2⟩,trivial⟩

theorem keeping_noted (k : Kernel) : watched.Keeping (Noted k) (fun _ => True) fun c =>
    ∀ i ∈ entries k c, InArray i where
  lift := noted_onKernel
  redirect _ path := noted_onKernel fun _ _ => Kernel.keeps_redirect path
  dotted g := noted_onKernel fun _ _ => Kernel.keeps_strcat Kernel.dotSlash g
  setPath _ _ _ := .pure trivial
  register cid _ hreg _ := by
    refine .modify fun s hs => ⟨hs.1,fun i hi => ?_⟩
    rcases mem_append.mp hi with hi | hi
    · exact hs.2 i hi
    · have hsame : entries s.1 cid = entries k cid := by
        simp only [entries,Kernel.registers,hs.1.1,hs.1.2.1,hs.1.2.2]
      rw [hsame] at hi
      exact hreg i hi

theorem inArray_noted {k : Kernel} {p : PSlot} {path : Path} {omode : UInt32}
    (h : Kernel.KInv sb (fun _ => True) k)
    (hfit : k.isHost p = false → k.registered p path = false →
      ¬ Kernel.Misses (treeOf k.fs) (k.viewOf.dir p) (k.first p path omode) omode → ¬ k.Full p →
      ∀ i ∈ entries k (k.callerCid p), InArray i) :
    ∀ i ∈ noted sb k p path omode, InArray i := by
  rw [noted]
  cases hs : watched.sysOpen sb p path omode (k, []) with
  | error e => exact fun i hi => absurd hi not_mem_nil
  | ok r =>
    obtain ⟨a,t⟩ := r
    have hE : Fs.Lax fun _ : Stop => True := fun _ _ _ => trivial
    have h₀ : Noted k (k, []) := ⟨⟨rfl,rfl,rfl⟩,fun i hi => absurd hi not_mem_nil⟩
    have hkeep := keeping_noted k
    obtain ⟨cid,s₁,hr,hs⟩ := ok_of_bind hs
    cases hr
    -- up to the first open the kernel is as it was
    obtain ⟨there,s₂,hlook,hs⟩ := ok_of_bind hs
    have h₂ := (hkeep.lookupRegistry (k.callerCid p) trivial _ _ _ h₀ hlook).1
    obtain ⟨hthere,hk₂⟩ : there = (k.found p path,k.registered p path) ∧ s₂.1 = k :=
      (Kernel.wp_lookupRegistry (Q := fun r l =>
        r = (k.found p path,k.registered p path) ∧ l = k) hE ⟨rfl,rfl⟩).of_ok
      (traces_watched.lookupRegistry _ _ _ hlook)
    subst hthere
    obtain ⟨host,s₃,hr,hs⟩ := ok_of_bind hs
    obtain ⟨hhost,hs₃⟩ := Prod.mk.inj (Except.ok.inj hr)
    rw [hk₂] at hhost
    cases hs₃
    obtain ⟨first,s₃,hpath,hs⟩ := ok_of_bind hs
    have h₃ := (hkeep.openPath trivial _ omode _ _ _ h₂ hpath).1
    have hplain : Kernel.plain.openPath p host (k.found p path) omode s₂.1 = _ :=
      traces_watched.openPath _ _ _ _ hpath
    rw [← hhost,hk₂] at hplain
    obtain ⟨hfirst,hk₃⟩ := (Kernel.wp_openPath (Q := fun r l =>
      r = k.first p path omode ∧ l = k) hE ⟨rfl,rfl⟩).of_ok hplain
    obtain ⟨fd,s₄,hopen,hs⟩ := ok_of_bind hs
    have h₄ := (hkeep.openFile _ omode _ _ _ h₃ hopen).1
    have hfile : Kernel.openFile sb p first omode s₃.1 = _ := traces_watched.lift _ _ _ _ hopen
    rw [show first = _ from hfirst,hk₃] at hfile
    cases fd with
    | none =>
      cases hs
      exact h₄.2
    | some x =>
      have hopens := not_or.mp fun hno => absurd ((h.rep.openFile_none_iff hfile).1.mpr hno) (by simp)
      refine (hkeep.openRest (fun hh hr => hfit ?_ hr hopens.1 hopens.2) trivial omode x.1 x.2
        _ _ _ h₄ hs).1.2
      rw [← hh]
      exact hhost

theorem inArray_used {a : Act} (h : Inv sb s) (he : Enabled s a) (hfit : Fits s a) :
    ∀ i ∈ used sb s a, InArray i := by
  have hcounter : ∀ c, (∀ i, s.k.tables.findLive c = some i →
      (s.k.tables.container i).numberOfProcess < NCONT) → ∀ i ∈ counter s.k c, InArray i := by
    intro c hc i hi
    obtain ⟨j,hj,rfl⟩ := Option.map_eq_some_iff.mp (Option.mem_toList.mp hi)
    exact ⟨(h.within.procs j).1,hc j hj⟩
  intro i hi
  simp only [used] at hi
  split at hi
  · exact hcounter _ (hfit he) i hi
  · exact hcounter _ (fun j hj => (hfit he j hj).2) i hi
  · split at hi
    · cases hi
    · rw [sweep_container] at hi
      refine inArray_firsts ?_ i hi
      rw [Int.toNat_le]
      exact (h.within.procs _).2
  · rw [List.mem_singleton.mp hi]
    exact h.log
  · rw [mem_append,mem_append,mem_flatMap] at hi
    rcases hi with (⟨j,-,hj⟩ | hi) | hi
    · exact inArray_firsts (h.within.files j) i hj
    · exact inArray_firsts h.within.all i hi
    · refine inArray_noted h.kinv (fun hh hr hopens hfull j hj => ?_) i hi
      obtain ⟨hall,hfiles⟩ := hfit he hh hr hopens hfull
      rcases List.mem_cons.mp hj with rfl | hj
      · exact ⟨Int.natCast_nonneg _,by exact_mod_cast hall⟩
      · obtain ⟨c,hc,rfl⟩ := List.mem_map.mp hj
        exact ⟨Int.natCast_nonneg _,by exact_mod_cast hfiles c (List.mem_filter.mp hc).2⟩
  · rw [List.mem_singleton.mp hi]
    exact hfit he
  · cases hi

theorem safe_of_fits {a : Act} (h : Inv sb s) (hfit : Fits s a) : Safe sb s a := by
  refine ⟨fun i hi => ?_,fun t ht => (h.step hfit ht).within.bounded⟩
  rw [indices] at hi
  split at hi
  · next he => exact inArray_used h he hfit i hi
  · cases hi

/-- Along a run in which each call fits, the calls keep to the arrays. -/
theorem bookkeeping_safe {disk : Fs.State} (h : Kernel.GoodDisk sb disk) {acts : List Act}
    (hfit : Meets (step sb) Fits (boot disk) acts) : Meets (step sb) (Safe sb) (boot disk) acts :=
  hfit.of_invariant (I := Inv sb) (fun _ _ hs hf => safe_of_fits hs hf)
    (fun _ _ _ hs hf hstep => hs.step hf hstep) (inv_boot h)

/-- `Fits`, with room for a registration whether or not the open gets to it. -/
def roomy (s : State) : Act → Bool
  | .call (.table (.join _ c)) => (counter s.k c).all (· < NCONT)
  | .call (.table (.leave p)) =>
    (counter s.k (s.k.tables.proc p).cid).all fun n => 1 ≤ n && n < NCONT
  | .call (.open _ _ _) => s.k.allFiles.length < NCONT &&
      (List.finRange NCONT).all fun i => (s.k.files i).length < NCONT
  | .schedulerLog p => InArray (s.k.tables.proc p).cid
  | _ => true

theorem fits_of_roomy {a : Act} (h : roomy s a = true) : Fits s a := by
  have hcounter : ∀ {c i}, s.k.tables.findLive c = some i →
      (s.k.tables.container i).numberOfProcess ∈ counter s.k c := fun hi =>
    Option.mem_toList.mpr (Option.map_eq_some_iff.mpr ⟨_,hi,rfl⟩)
  intro _
  split
  · intro i hi
    simpa using all_eq_true.mp h _ (hcounter hi)
  · intro i hi
    simpa using all_eq_true.mp h _ (hcounter hi)
  · intro _ _ _ _
    simp only [roomy,Bool.and_eq_true,decide_eq_true_eq,all_eq_true,mem_finRange,
      true_implies] at h
    exact ⟨h.1,fun i _ => h.2 i⟩
  · exact of_decide_eq_true h
  · trivial

/-- A container with a file: its process joins it, creates the file, and leaves. -/
def session : List Act :=
  [.call (.table (.schedule initproc)), .call (.createContainer initproc 7),
    .call (.table (.join initproc 7)), .call (.open initproc [97] O_CREATE), .schedulerLog initproc,
    .call (.table (.leave initproc))]

theorem bookkeeping_safe_session : Kernel.GoodDisk .mkfs mkfs ∧
    Meets (step .mkfs) (Safe .mkfs) (boot mkfs) session ∧
    ∃ t, exec (step .mkfs) (boot mkfs) session = some t ∧ t.k.allFiles = [([97, 36, 55], 7)] := by
  have hroom : Meets (step .mkfs) (fun s a => roomy s a = true) (boot mkfs) session := by
    decide +kernel
  have hrun : (exec (step .mkfs) (boot mkfs) session).map (fun t => t.k.allFiles) =
      some [([97,36,55],7)] := by decide +kernel
  obtain ⟨t,ht,hall⟩ := Option.map_eq_some_iff.mp hrun
  exact ⟨Kernel.goodDisk_mkfs,bookkeeping_safe Kernel.goodDisk_mkfs
    (hroom.mono fun _ _ h => fits_of_roomy h),t,ht,hall⟩

/-- The first process, which never joined a container, has id 0: it makes the container with this
id, and leaves it. -/
def leavesUnjoined : List Act :=
  [.call (.table (.schedule initproc)), .call (.createContainer initproc 0),
    .call (.table (.leave initproc))]

theorem leaving_unjoined_underflows :
    ¬ Meets (step .mkfs) (Safe .mkfs) (boot Fs.mkfs) leavesUnjoined ∧
      ∃ t, exec (step .mkfs) (boot Fs.mkfs) leavesUnjoined = some t ∧
        ∃ i, t.k.tables.location i = true ∧ (t.k.tables.container i).numberOfProcess = -1 := by
  have hrun : (exec (step .mkfs) (boot Fs.mkfs) leavesUnjoined).map (fun t =>
      (t.k.tables.location ⟨0,ncont_pos⟩,
        (t.k.tables.container ⟨0,ncont_pos⟩).numberOfProcess)) = some (true, -1) := by
    decide +kernel
  obtain ⟨t,ht,hv⟩ := Option.map_eq_some_iff.mp hrun
  obtain ⟨hlive,hcount⟩ := Prod.mk.inj hv
  refine ⟨fun hsafe => ?_,t,ht,_,hlive,hcount⟩
  have hb : Bounded t := exec_invariant_of_meets (fun s a s' _ hok hs => hok.2 s' hs)
    (within_boot _).bounded hsafe ht
  have := (hb.1 _ hlive).1.1
  omega

end Xv6Container.Bounds
