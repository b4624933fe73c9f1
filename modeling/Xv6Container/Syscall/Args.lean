import Mathlib.Tactic

/-!
# Fetching the arguments of a system call

Each function takes the value its out-parameter has before the call and returns the `int` the
source returns together with the value the out-parameter has afterwards.
-/

namespace Xv6Container.Syscall

abbrev KERNBASE : UInt32 := 0x80000000

/-- The current process, as far as the helpers read it. -/
structure Caller where
  sz : UInt32
  /-- `tf->esp` -/
  esp : UInt32
  mem : UInt32 → UInt8

def load (mem : UInt32 → UInt8) (addr : UInt32) : UInt32 :=
  (mem addr).toUInt32 + 0x100 * (mem (addr + 1)).toUInt32 +
    0x10000 * (mem (addr + 2)).toUInt32 + 0x1000000 * (mem (addr + 3)).toUInt32

def fetchint (p : Caller) (addr ip : UInt32) : Int32 × UInt32 :=
  if addr ≥ p.sz || addr + 4 > p.sz then (-1, ip) else (0, load p.mem addr)

/-- The loop of `fetchstr` at `s`, with `n` bytes left up to the end of the process. -/
def fetchstrLoop (mem : UInt32 → UInt8) (pp s : UInt32) : ℕ → Int32
  | 0 => -1
  | n + 1 => if mem s = 0 then (s - pp).toInt32 else fetchstrLoop mem pp (s + 1) n

/-- `*pp` is set before the string is looked at. -/
def fetchstr (p : Caller) (addr pp : UInt32) : Int32 × UInt32 :=
  if addr ≥ p.sz then (-1, pp)
  else (fetchstrLoop p.mem addr addr (p.sz.toNat - addr.toNat), addr)

def argAddr (p : Caller) (n : UInt32) : UInt32 := p.esp + 4 + 4 * n

def argint (p : Caller) (n ip : UInt32) : Int32 × UInt32 := fetchint p (argAddr p n) ip

def argptr (p : Caller) (n pp : UInt32) (size : Int32) : Int32 × UInt32 :=
  let (r, i) := argint p n 0
  if r < 0 then (-1, pp)
  else if size < 0 || i ≥ p.sz || i + size.toUInt32 > p.sz then (-1, pp)
  else (0, i)

def argstr (p : Caller) (n pp : UInt32) : Int32 × UInt32 :=
  let (r, addr) := argint p n 0
  if r < 0 then (-1, pp) else fetchstr p addr pp

/-- The `n` bytes from `addr` on lie in `[0, sz)`. -/
def InUser (p : Caller) (addr : UInt32) (n : ℕ) : Prop := addr.toNat + n ≤ p.sz.toNat

instance (p : Caller) (addr : UInt32) (n : ℕ) : Decidable (InUser p addr n) :=
  inferInstanceAs (Decidable (_ ≤ _))

/-- The first NUL at or after `addr` is `len` bytes on, and below `sz`. -/
structure NulAt (p : Caller) (addr : UInt32) (len : ℕ) : Prop where
  lt : addr.toNat + len < p.sz.toNat
  nul : p.mem (addr + UInt32.ofNat len) = 0
  before : ∀ k < len, p.mem (addr + UInt32.ofNat k) ≠ 0

variable {p : Caller}

theorem fetchint_eq (hsz : p.sz < KERNBASE) (addr ip : UInt32) :
    fetchint p addr ip = if InUser p addr 4 then (0, load p.mem addr) else (-1, ip) := by
  rw [UInt32.lt_iff_toNat_lt] at hsz
  change _ < 2 ^ 31 at hsz
  have hiff : (addr ≥ p.sz || addr + 4 > p.sz) = true ↔ ¬ InUser p addr 4 := by
    rw [Bool.or_eq_true,decide_eq_true_eq,decide_eq_true_eq,ge_iff_le,gt_iff_lt,
      UInt32.le_iff_toNat_le,UInt32.lt_iff_toNat_lt,UInt32.toNat_add,InUser]
    change _ ∨ _ < (addr.toNat+4) % 2 ^ 32 ↔ _
    have := addr.toNat_lt
    omega
  rw [fetchint]
  by_cases h : InUser p addr 4
  · rw [if_neg (fun hc => hiff.mp hc h),if_pos h]
  · rw [if_pos (hiff.mpr h),if_neg h]

theorem argint_eq (hsz : p.sz < KERNBASE) (n ip : UInt32) :
    argint p n ip =
      if InUser p (argAddr p n) 4 then (0, load p.mem (argAddr p n)) else (-1, ip) :=
  fetchint_eq hsz _ _

theorem toInt_eq (x : Int32) : x.toInt =
    if x.toUInt32.toNat < 2 ^ 31 then (x.toUInt32.toNat : ℤ) else x.toUInt32.toNat - 2 ^ 32 := by
  have hcond := BitVec.toInt_eq_toNat_cond x.toBitVec
  rw [Int32.toNat_toBitVec] at hcond
  change x.toInt = _ at hcond
  rw [hcond]
  split <;> split <;> omega

theorem argptr_eq (hsz : p.sz < KERNBASE) (n pp : UInt32) (size : Int32) :
    argptr p n pp size =
      if InUser p (argAddr p n) 4 ∧ 0 ≤ size.toInt ∧
        (load p.mem (argAddr p n)).toNat < p.sz.toNat ∧
        ((load p.mem (argAddr p n)).toNat : ℤ) + size.toInt ≤ p.sz.toNat
      then (0, load p.mem (argAddr p n)) else (-1, pp) := by
  rw [argptr,argint_eq hsz]
  by_cases harg : InUser p (argAddr p n) 4
  · rw [if_pos harg]
    simp only [harg,true_and]
    set i := load p.mem (argAddr p n)
    rw [if_neg (by decide)]
    have hiff : (size < 0 || i ≥ p.sz || i + size.toUInt32 > p.sz) = true ↔
        ¬ (0 ≤ size.toInt ∧ i.toNat < p.sz.toNat ∧ (i.toNat : ℤ) + size.toInt ≤ p.sz.toNat) := by
      rw [UInt32.lt_iff_toNat_lt] at hsz
      change _ < 2 ^ 31 at hsz
      have hint := toInt_eq size
      have hlt := size.toUInt32.toNat_lt
      have hi := i.toNat_lt
      rw [Bool.or_eq_true,Bool.or_eq_true,decide_eq_true_eq,decide_eq_true_eq,
        decide_eq_true_eq,ge_iff_le,gt_iff_lt,UInt32.le_iff_toNat_le,UInt32.lt_iff_toNat_lt,
        UInt32.toNat_add,Int32.lt_iff_toInt_lt]
      change (size.toInt < 0 ∨ _) ∨ _ ↔ _
      split at hint <;> omega
    by_cases h : 0 ≤ size.toInt ∧ i.toNat < p.sz.toNat ∧ (i.toNat : ℤ) + size.toInt ≤ p.sz.toNat
    · rw [if_neg (fun hc => hiff.mp hc h),if_pos h]
    · rw [if_pos (hiff.mpr h),if_neg h]
  · rw [if_neg harg,if_neg (fun h => harg h.1)]
    rfl

theorem add_ofNat_succ (addr : UInt32) (k : ℕ) :
    addr + UInt32.ofNat (k+1) = addr + UInt32.ofNat k + 1 := by
  rw [UInt32.ofNat_add,UInt32.add_assoc]
  rfl

theorem fetchstrLoop_of_nul {mem : UInt32 → UInt8} {addr : UInt32} {k len n : ℕ}
    (hnul : mem (addr + UInt32.ofNat len) = 0)
    (hbefore : ∀ j < len, mem (addr + UInt32.ofNat j) ≠ 0) (hk : k ≤ len) (hn : len < k+n) :
    fetchstrLoop mem addr (addr + UInt32.ofNat k) n = (UInt32.ofNat len).toInt32 := by
  induction n generalizing k with
  | zero => omega
  | succ n ih =>
    rw [fetchstrLoop]
    by_cases hkl : k = len
    · rw [hkl,if_pos hnul,UInt32.add_comm,UInt32.add_sub_cancel]
    · rw [if_neg (hbefore k (by omega)),← add_ofNat_succ]
      exact ih (by omega) (by omega)

theorem fetchstrLoop_of_forall_ne {mem : UInt32 → UInt8} {addr : UInt32} {k n : ℕ}
    (h : ∀ j, k ≤ j → j < k+n → mem (addr + UInt32.ofNat j) ≠ 0) :
    fetchstrLoop mem addr (addr + UInt32.ofNat k) n = -1 := by
  induction n generalizing k with
  | zero => rfl
  | succ n ih =>
    rw [fetchstrLoop,if_neg (h k (Nat.le_refl k) (by omega)),← add_ofNat_succ]
    exact ih fun j hj hlt => h j (by omega) (by omega)

theorem add_ofNat_zero (addr : UInt32) : addr + UInt32.ofNat 0 = addr := UInt32.add_zero addr

theorem toInt_ofNat {len : ℕ} (h : len < 2 ^ 31) : (UInt32.ofNat len).toInt32.toInt = len := by
  have hto : (UInt32.ofNat len).toInt32.toUInt32.toNat = len :=
    UInt32.toNat_ofNat_of_lt' (by change len < 2 ^ 32; omega)
  rw [toInt_eq,hto,if_pos h]

theorem fetchstr_of_nulAt (hsz : p.sz < KERNBASE) {addr : UInt32} {len : ℕ}
    (h : NulAt p addr len) (pp : UInt32) :
    (fetchstr p addr pp).1.toInt = len ∧ (fetchstr p addr pp).2 = addr := by
  have hlt := h.lt
  rw [UInt32.lt_iff_toNat_lt] at hsz
  change _ < 2 ^ 31 at hsz
  have hloop := fetchstrLoop_of_nul (n := p.sz.toNat-addr.toNat) h.nul h.before
    (Nat.zero_le len) (by omega)
  rw [add_ofNat_zero] at hloop
  rw [fetchstr,if_neg (by rw [ge_iff_le,UInt32.le_iff_toNat_le]; omega),hloop]
  exact ⟨toInt_ofNat (by omega),rfl⟩

theorem fetchstr_of_forall_not {addr : UInt32} (h : ∀ len, ¬ NulAt p addr len) (pp : UInt32) :
    (fetchstr p addr pp).1 = -1 := by
  rw [fetchstr]
  split
  · rfl
  · next hlt =>
    rw [ge_iff_le,UInt32.le_iff_toNat_le,not_le] at hlt
    have hne : ∀ j, j < p.sz.toNat-addr.toNat → p.mem (addr + UInt32.ofNat j) ≠ 0 := by
      intro j
      induction j using Nat.strong_induction_on with
      | _ j ih =>
        intro hj hnul
        exact h j ⟨by omega,hnul,fun k hk => ih k hk (by omega)⟩
    have hloop : fetchstrLoop p.mem addr (addr + UInt32.ofNat 0) (p.sz.toNat-addr.toNat) = -1 :=
      fetchstrLoop_of_forall_ne fun j _ hj => hne j (by omega)
    rw [add_ofNat_zero] at hloop
    exact hloop

theorem argstr_eq (hsz : p.sz < KERNBASE) (n pp : UInt32) :
    argstr p n pp =
      if InUser p (argAddr p n) 4 then fetchstr p (load p.mem (argAddr p n)) pp else (-1, pp) := by
  rw [argstr,argint_eq hsz]
  by_cases harg : InUser p (argAddr p n) 4
  · rw [if_pos harg,if_pos harg]
    exact if_neg (by decide)
  · rw [if_neg harg,if_neg harg]
    exact if_pos (by decide)

/-- What the helpers accept lies in the process, as integers, and nothing else is accepted: the word
of an `int`, the block of a pointer, and a string up to its first NUL. The word of an argument is
read where the 32-bit sum `esp + 4 + 4n` points. -/
theorem argument_fetching_sound (p : Caller) (hsz : p.sz < KERNBASE) :
    (∀ addr ip, fetchint p addr ip =
      if addr.toNat + 4 ≤ p.sz.toNat then (0, load p.mem addr) else (-1, ip)) ∧
    (∀ n ip, argint p n ip =
      if (argAddr p n).toNat + 4 ≤ p.sz.toNat then (0, load p.mem (argAddr p n)) else (-1, ip)) ∧
    (∀ n pp size, argptr p n pp size =
      if (argAddr p n).toNat + 4 ≤ p.sz.toNat ∧ 0 ≤ size.toInt ∧
        (load p.mem (argAddr p n)).toNat < p.sz.toNat ∧
        ((load p.mem (argAddr p n)).toNat : ℤ) + size.toInt ≤ p.sz.toNat
      then (0, load p.mem (argAddr p n)) else (-1, pp)) ∧
    (∀ addr pp, (∃ len, NulAt p addr len ∧ (fetchstr p addr pp).1.toInt = len) ∨
      (∀ len, ¬ NulAt p addr len) ∧ (fetchstr p addr pp).1 = -1) ∧
    ∀ n pp, (∃ len, (argAddr p n).toNat + 4 ≤ p.sz.toNat ∧
        NulAt p (load p.mem (argAddr p n)) len ∧ (argstr p n pp).1.toInt = len) ∨
      ((argAddr p n).toNat + 4 ≤ p.sz.toNat → ∀ len, ¬ NulAt p (load p.mem (argAddr p n)) len) ∧
        (argstr p n pp).1 = -1 := by
  have hstr : ∀ addr pp, (∃ len, NulAt p addr len ∧ (fetchstr p addr pp).1.toInt = len) ∨
      (∀ len, ¬ NulAt p addr len) ∧ (fetchstr p addr pp).1 = -1 := by
    intro addr pp
    by_cases h : ∃ len, NulAt p addr len
    · obtain ⟨len,hlen⟩ := h
      exact .inl ⟨len,hlen,(fetchstr_of_nulAt hsz hlen pp).1⟩
    · have hnone := not_exists.mp h
      exact .inr ⟨hnone,fetchstr_of_forall_not hnone pp⟩
  refine ⟨fetchint_eq hsz,argint_eq hsz,argptr_eq hsz,hstr,fun n pp => ?_⟩
  rw [argstr_eq hsz]
  by_cases harg : InUser p (argAddr p n) 4
  · rw [if_pos harg]
    rcases hstr (load p.mem (argAddr p n)) pp with ⟨len,hlen,hres⟩ | ⟨hnone,hres⟩
    · exact .inl ⟨len,harg,hlen,hres⟩
    · exact .inr ⟨fun _ => hnone,hres⟩
  · rw [if_neg harg]
    exact .inr ⟨fun hc => absurd hc harg,rfl⟩

/-- A process of one page with its stack pointer at the top of the address space: the first argument
word is then at address 0, and the pointer in it is 0. -/
def topCaller : Caller := ⟨4096, 0xfffffffc, fun _ => 0⟩

theorem argument_fetching_sound_top :
    topCaller.sz < KERNBASE ∧ argptr topCaller 0 7 4096 = (0, 0) ∧
      argptr topCaller 0 7 4097 = (-1, 7) ∧ argptr topCaller 0 7 (-1) = (-1, 7) := by
  have h := argument_fetching_sound topCaller (by decide)
  refine ⟨by decide,?_,?_,?_⟩ <;> rw [h.2.2.1] <;> decide

end Xv6Container.Syscall
