import Xv6Container.Lib.Run

/-!
# The counters of system calls

Each handler is to count its calls in `num_calls`, of type `int`. Some of the container calls do
not count, and `sys_getcid` counts in the place of `sys_getpid`.
-/

namespace Xv6Container.Trace

open Function Run

/-- The entries of `syscalls`. -/
inductive Sysno
  | fork | exit | wait | pipe | read | kill | exec | fstat | chdir | dup | getpid | sbrk | sleep
  | uptime | open | write | mknod | unlink | link | mkdir | close | halt | toggle | ps
  | destroyContainer | joinContainer | leaveContainer | createContainer | send | recv | getcid
  | schedulerLog
  deriving DecidableEq, Repr

/-- The calls in the order of their numbers, from 1 on. -/
def sysnos : List Sysno :=
  [.fork, .exit, .wait, .pipe, .read, .kill, .exec, .fstat, .chdir, .dup, .getpid, .sbrk, .sleep,
    .uptime, .open, .write, .mknod, .unlink, .link, .mkdir, .close, .halt, .toggle, .ps,
    .destroyContainer, .joinContainer, .leaveContainer, .createContainer, .send, .recv, .getcid,
    .schedulerLog]

/-- `syscalls[num]`, for the number in `eax`. -/
def syscalls (num : ℤ) : Option Sysno := if 0 < num then sysnos[num.toNat - 1]? else none

/-- The entry of `num_calls` that the handler adds to. -/
def counter : Sysno → Option Sysno
  | .getcid => some .getpid
  | .toggle | .destroyContainer | .joinContainer | .leaveContainer | .createContainer
  | .schedulerLog => none
  | n => some n

/-- `isTraceOn` and `num_calls`. -/
structure State where
  isTraceOn : Bool
  numCalls : Sysno → Int32

def sysToggle (s : State) : State :=
  if s.isTraceOn then { s with isTraceOn := false } else ⟨true, fun _ => 0⟩

/-- What a handler does to the trace. -/
def handler (s : State) (n : Sysno) : State :=
  if n = .toggle then sysToggle s
  else if s.isTraceOn then
    match counter n with
    | some m => { s with numCalls := update s.numCalls m (s.numCalls m + 1) }
    | none => s
  else s

/-- `syscall`, with number `num` in `eax`. -/
def syscall (s : State) (num : ℤ) : State :=
  match syscalls num with
  | some n => handler s n
  | none => s

/-- The trace, and how often each call has been dispatched since tracing was last turned on. -/
structure Watched where
  trace : State
  dispatched : Sysno → ℕ

/-- The numbers of calls after one more. -/
def dispatch (w : Watched) (num : ℤ) : Sysno → ℕ :=
  match syscalls num with
  | some .toggle => if w.trace.isTraceOn then w.dispatched else fun _ => 0
  | some n => update w.dispatched n (w.dispatched n + 1)
  | none => w.dispatched

def step (w : Watched) (num : ℤ) : Option Watched := some ⟨syscall w.trace num, dispatch w num⟩

def boot : Watched := ⟨⟨false, fun _ => 0⟩, fun _ => 0⟩

/-- While tracing is on, every counter but that of `toggle` is exact. -/
def Exact (w : Watched) : Prop :=
  w.trace.isTraceOn = true →
    ∀ n, n ≠ .toggle → (w.trace.numCalls n).toInt = w.dispatched n

/-- While tracing is on, only calls that count for themselves are made, and their counters have not
reached the largest `int`. -/
def CountsItself (w : Watched) (num : ℤ) : Prop :=
  w.trace.isTraceOn = true → ∀ n, syscalls num = some n → n ≠ .toggle →
    counter n = some n ∧ w.dispatched n < 2 ^ 31 - 1

instance (w : Watched) (num : ℤ) : Decidable (CountsItself w num) :=
  inferInstanceAs (Decidable (_ → ∀ n ∈ syscalls num, _))

theorem toInt_add_one_iff (x : Int32) : (x+1).toInt = x.toInt + 1 ↔ x.toInt < 2 ^ 31 - 1 := by
  have hlt := x.toInt_lt
  have hge := x.le_toInt
  have hmin : Int32.minValue.toInt = -2 ^ 31 := by decide
  have hone : (1 : Int32).toInt = 1 := by decide
  rw [Int32.toInt_add,hone,Int.bmod_def]
  split
  · omega
  · omega

theorem numCalls_handler_of_ne {s : State} {n : Sysno} (hn : n ≠ .toggle)
    (hc : counter n ≠ some n) : (handler s n).numCalls n = s.numCalls n := by
  rw [handler,if_neg hn]
  split
  · cases hm : counter n with
    | none => rfl
    | some m =>
      have hne : n ≠ m := by
        intro he
        rw [← he] at hm
        exact hc hm
      exact update_of_ne hne _ _
  · rfl

theorem isTraceOn_handler {s : State} {n : Sysno} (hn : n ≠ .toggle) :
    (handler s n).isTraceOn = s.isTraceOn := by
  rw [handler,if_neg hn]
  split
  · split
    · rfl
    · rfl
  · rfl

theorem syscall_of {s : State} {num : ℤ} {n : Sysno} (h : syscalls num = some n) :
    syscall s num = handler s n := by
  rw [syscall,h]

theorem dispatch_of {w : Watched} {num : ℤ} {n : Sysno} (h : syscalls num = some n)
    (hn : n ≠ .toggle) : dispatch w num = update w.dispatched n (w.dispatched n + 1) := by
  rw [dispatch,h]
  cases n <;> first | rfl | exact absurd rfl hn

theorem exact_toggle {w : Watched} {num : ℤ} (h : syscalls num = some .toggle) :
    Exact ⟨syscall w.trace num, dispatch w num⟩ := by
  intro hon n _
  simp only [syscall_of h,dispatch,h,handler,sysToggle,if_true] at hon ⊢
  cases htr : w.trace.isTraceOn with
  | true => simp [htr] at hon
  | false => simp

theorem exact_step_iff {w : Watched} (hw : Exact w) (num : ℤ) :
    Exact ⟨syscall w.trace num, dispatch w num⟩ ↔ CountsItself w num := by
  cases hnum : syscalls num with
  | none =>
    have hsame : (⟨syscall w.trace num,dispatch w num⟩ : Watched) = w := by
      rw [syscall,dispatch,hnum]
    rw [hsame]
    exact iff_of_true hw fun _ n hn => by rw [hnum] at hn; cases hn
  | some n =>
    by_cases htoggle : n = .toggle
    · subst htoggle
      refine iff_of_true (exact_toggle hnum) fun _ n hn hne => ?_
      rw [hnum] at hn
      exact absurd (Option.some.inj hn).symm hne
    have honeq : (syscall w.trace num).isTraceOn = w.trace.isTraceOn := by
      rw [syscall_of hnum,isTraceOn_handler htoggle]
    by_cases hon : w.trace.isTraceOn = true
    · have hcount : CountsItself w num ↔ counter n = some n ∧ w.dispatched n < 2 ^ 31 - 1 := by
        constructor
        · intro h
          exact h hon n hnum htoggle
        · intro h _ m hm _
          rw [hnum] at hm
          exact Option.some.inj hm ▸ h
      have hexact : Exact ⟨syscall w.trace num,dispatch w num⟩ ↔
          ((handler w.trace n).isTraceOn = true → ∀ m, m ≠ .toggle →
            ((handler w.trace n).numCalls m).toInt =
              (update w.dispatched n (w.dispatched n + 1) m : ℕ)) := by
        rw [Exact,syscall_of hnum,dispatch_of hnum htoggle]
      rw [hcount,hexact]
      have hx := hw hon n htoggle
      constructor
      · intro h
        have hn := h (by rw [isTraceOn_handler htoggle,hon]) n htoggle
        rw [update_self] at hn
        by_cases hc : counter n = some n
        · refine ⟨hc,?_⟩
          rw [handler,if_neg htoggle,if_pos hon,hc] at hn
          simp only [update_self] at hn
          have := (toInt_add_one_iff (w.trace.numCalls n)).mp (by omega)
          omega
        · rw [numCalls_handler_of_ne htoggle hc] at hn
          omega
      · intro h _ m hm
        rw [handler,if_neg htoggle,if_pos hon,h.1]
        by_cases hmn : m = n
        · subst hmn
          simp only [update_self]
          have := (toInt_add_one_iff (w.trace.numCalls m)).mpr (by omega)
          omega
        · simp only [update_of_ne hmn]
          exact hw hon m hm
    · refine iff_of_true (fun hon' => absurd (honeq.symm.trans hon') hon) fun hon' => ?_
      exact absurd hon' hon

/-- In a run from the start the counters are exact in every state, exactly if every call made while
tracing is on counts for itself and no counter passes the largest `int`. -/
theorem counters_exact_iff (nums : List ℤ) :
    Throughout step Exact boot nums ↔ Meets step CountsItself boot nums := by
  have hboot : Exact boot := by
    intro hon
    cases hon
  have hrun : ∃ w, exec step boot nums = some w := by
    generalize boot = w
    induction nums generalizing w with
    | nil => exact ⟨w,rfl⟩
    | cons num nums ih => exact ih _
  obtain ⟨w,hw⟩ := hrun
  refine throughout_iff_meets (I := fun _ => True) (fun _ _ _ _ _ => trivial) ?_ trivial hboot hw
  intro s num s' _ hs hstep
  obtain rfl := Option.some.inj hstep
  exact exact_step_iff hs num

/-- With tracing on, the call `getcid` is not counted. -/
theorem getcid_not_counted : ¬ ∀ nums w, exec step boot nums = some w → Exact w := by
  intro hall
  obtain ⟨w,hw⟩ : ∃ w, exec step boot [23,31] = some w := ⟨_,rfl⟩
  have hval : (exec step boot [23,31]).map (fun w =>
      (w.trace.isTraceOn, (w.trace.numCalls .getcid).toInt, w.dispatched .getcid)) =
        some (true, 0, 1) := by decide +kernel
  rw [hw] at hval
  obtain ⟨hon,hrest⟩ := Prod.mk.inj (Option.some.inj hval)
  obtain ⟨hcalls,hdisp⟩ := Prod.mk.inj hrest
  have hexact := hall [23,31] w hw hon .getcid (by decide)
  rw [hcalls,hdisp] at hexact
  cases hexact

end Xv6Container.Trace
