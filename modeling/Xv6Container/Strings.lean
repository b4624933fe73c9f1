import Xv6Container.Kernel.Open
import Xv6Container.Lib.Overlay
import Xv6Container.User.Ls

/-!
# Strings and memory

`memmove` of `string.c` and `ulib.c`, and the functions behind the names of container files.
Memory is a function from addresses to bytes. Where it matters which bytes are read, the others
are missing.
-/

namespace Xv6Container.Strings

open Function List Nat
open Option (some.inj)

variable {m : ℕ → UInt8} {d s i a n : ℕ}

/-- `while(n-- > 0) *d++ = *s++`. -/
def copyUp : ℕ → (ℕ → UInt8) → ℕ → ℕ → ℕ → UInt8
  | 0, m, _, _ => m
  | n + 1, m, d, s => copyUp n (update m d (m s)) (d + 1) (s + 1)

/-- `while(n-- > 0) *--d = *--s`. -/
def copyDown : ℕ → (ℕ → UInt8) → ℕ → ℕ → ℕ → UInt8
  | 0, m, _, _ => m
  | n + 1, m, d, s => copyDown n (update m (d - 1) (m (s - 1))) (d - 1) (s - 1)

/-- `memmove` of the kernel. -/
def memmove (m : ℕ → UInt8) (dst src : ℕ) (n : UInt32) : ℕ → UInt8 :=
  if src < dst ∧ (src + n.toNat) % 2 ^ 32 > dst then
    copyDown n.toNat m (dst + n.toNat) (src + n.toNat)
  else copyUp n.toNat m dst src

/-- `memmove` of the user library. -/
def Ulib.memmove (m : ℕ → UInt8) (dst src : ℕ) (n : Int32) : ℕ → UInt8 :=
  copyUp n.toInt.toNat m dst src

/-- The bytes at `dst` are those that were at `src`, and the others are as before. -/
def Copied (m m' : ℕ → UInt8) (dst src n : ℕ) : Prop :=
  ∀ a, m' a = if dst ≤ a ∧ a < dst + n then m (src + (a - dst)) else m a

theorem copied_iff {m' : ℕ → UInt8} (hout : ∀ a, a < d ∨ d + n ≤ a → m' a = m a) :
    Copied m m' d s n ↔ ∀ i < n, m' (d+i) = m (s+i) := by
  constructor
  · intro h i hi
    rw [h (d+i),if_pos (by omega),Nat.add_sub_cancel_left]
  · intro h a
    split
    · next ha =>
      have := h (a-d) (by omega)
      rwa [Nat.add_sub_cancel' ha.1] at this
    · exact hout a (by omega)

theorem copyUp_of_out (h : a < d ∨ d + n ≤ a) : copyUp n m d s a = m a := by
  induction n generalizing m d s with
  | zero => rfl
  | succ n ih => rw [copyUp,ih (by omega),update_of_ne (by omega)]

theorem copyDown_of_out (h : a < d ∨ d + n ≤ a) : copyDown n m (d+n) (s+n) a = m a := by
  induction n generalizing m with
  | zero => rfl
  | succ n ih =>
    change copyDown n (update m (d+n) (m (s+n))) (d+n) (s+n) a = m a
    rw [ih (by omega),update_of_ne (by omega)]

theorem copyUp_of_le (hds : d ≤ s) (hi : i < n) : copyUp n m d s (d+i) = m (s+i) := by
  induction n generalizing m d s i with
  | zero => omega
  | succ n ih =>
    rw [copyUp]
    cases i with
    | zero => rw [copyUp_of_out (by omega),Nat.add_zero,update_self,Nat.add_zero]
    | succ j =>
      have := ih (m := update m d (m s)) (i := j) (succ_le_succ hds) (by omega)
      rw [show d + (j+1) = d + 1 + j by omega,this,update_of_ne (by omega)]
      congr 1
      omega

/-- Each byte is read where it has been left by the copies before. -/
theorem copyUp_of_lt (hsd : s < d) (hi : i < n) : copyUp n m d s (d+i) = copyUp n m d s (s+i) := by
  induction n generalizing m d s i with
  | zero => omega
  | succ n ih =>
    rw [copyUp]
    cases i with
    | zero =>
      rw [copyUp_of_out (by omega),copyUp_of_out (by omega),Nat.add_zero,update_self,Nat.add_zero,
        update_of_ne (by omega)]
    | succ j =>
      have := ih (m := update m d (m s)) (i := j) (succ_lt_succ hsd) (by omega)
      rwa [show d + (j+1) = d.succ + j by omega,show s + (j+1) = s.succ + j by omega]

theorem copyDown_of_le (hsd : s ≤ d) (hi : i < n) : copyDown n m (d+n) (s+n) (d+i) = m (s+i) := by
  induction n generalizing m with
  | zero => omega
  | succ n ih =>
    change copyDown n (update m (d+n) (m (s+n))) (d+n) (s+n) (d+i) = _
    by_cases hin : i = n
    · rw [hin,copyDown_of_out (by omega),update_self]
    · rw [ih (by omega),update_of_ne (by omega)]

/-- Copied upwards into its own end, a region is repeated with the distance as its period. -/
theorem copied_copyUp_iff : Copied m (copyUp n m d s) d s n ↔
    (s < d → d < s+n → ∀ i, i + (d-s) < n → m (s + i + (d-s)) = m (s+i)) := by
  rw [copied_iff fun a ha => copyUp_of_out ha]
  by_cases hsd : s < d
  · have hout : ∀ i, i < d-s → copyUp n m d s (s+i) = m (s+i) := fun i hi =>
      copyUp_of_out (by omega)
    constructor
    · intro h _ _ i hi
      have hread := copyUp_of_lt (m := m) hsd hi
      rw [h _ hi,show s + (i + (d-s)) = d + i by omega,h i (by omega)] at hread
      rwa [show s + i + (d-s) = d + i by omega]
    intro h i
    induction i using Nat.strong_induction_on with
    | _ i ih =>
      intro hi
      rw [copyUp_of_lt hsd hi]
      by_cases hlt : i < d-s
      · exact hout i hlt
      · obtain ⟨j,rfl⟩ := Nat.exists_eq_add_of_le' (Nat.le_of_not_lt hlt)
        have hsame := h hsd (by omega) j hi
        rw [show s + (j + (d-s)) = d + j by omega,ih j (by omega) (by omega),← hsame]
        congr 1
        omega
  · refine iff_of_true (fun i hi => copyUp_of_le (Nat.le_of_not_lt hsd) hi) fun h => absurd h hsd

theorem copied_memmove {n : UInt32} (hd : d + n.toNat ≤ 2 ^ 32) :
    Copied m (memmove m d s n) d s n.toNat := by
  rw [memmove]
  split
  · next h =>
    rw [copied_iff fun a ha => copyDown_of_out ha]
    exact fun i hi => copyDown_of_le (Nat.le_of_lt h.1) hi
  · next h =>
    rw [copied_copyUp_iff]
    intro hlt hover
    exact absurd ⟨hlt,by rw [mod_eq_of_lt (by omega)]; exact hover⟩ h

theorem toNat_toInt32 (n : UInt32) :
    n.toInt32.toInt.toNat = if n.toNat < 2 ^ 31 then n.toNat else 0 := by
  change n.toBitVec.toInt.toNat = _
  rw [BitVec.toInt_eq_toNat_cond,UInt32.toNat_toBitVec]
  have := n.toNat_lt
  split <;> split <;> omega

/-- The kernel's `memmove` is right. That of the user library is right, and does the same, if and
only if `n` is positive as an `int` and the destination does not start inside the source, or what it
would destroy there is the same as what it puts there. -/
theorem memmove_right_iff (m : ℕ → UInt8) (dst src : ℕ) (n : UInt32)
    (hdst : dst + n.toNat ≤ 2 ^ 32) :
    Copied m (memmove m dst src n) dst src n.toNat ∧
      (Copied m (Ulib.memmove m dst src n.toInt32) dst src n.toNat ∧
          Ulib.memmove m dst src n.toInt32 = memmove m dst src n ↔
        if n.toNat < 2 ^ 31 then src < dst → dst < src + n.toNat →
          ∀ i, i + (dst - src) < n.toNat → m (src + i + (dst - src)) = m (src + i)
        else ∀ i < n.toNat, m (dst + i) = m (src + i)) := by
  have hright := copied_memmove (m := m) (s := src) hdst
  refine ⟨hright,?_⟩
  have hsame : Copied m (Ulib.memmove m dst src n.toInt32) dst src n.toNat →
      Ulib.memmove m dst src n.toInt32 = memmove m dst src n := by
    intro h
    funext a
    rw [h a,hright a]
  rw [and_iff_left_of_imp hsame,Ulib.memmove,toNat_toInt32]
  split
  · exact copied_copyUp_iff
  · exact copied_iff fun _ _ => rfl

/-- Bytes 1, 2, 3, 4, .. of which the first three are moved down by one. -/
theorem memmove_right_iff_down : Copied (fun a => .ofNat a)
    (Ulib.memmove (fun a => .ofNat a) 0 1 3) 0 1 3 :=
  ((memmove_right_iff (fun a => .ofNat a) 0 1 3 (by decide)).2.mpr
    (by rw [if_pos (by decide)]; intro h; omega)).1

/-- Moved up by one, the first byte is put everywhere. -/
theorem ulib_memmove_repeats : ¬ Copied (fun a => .ofNat a)
    (Ulib.memmove (fun a => .ofNat a) 2 1 3) 2 1 3 := by
  intro h
  have := h 3
  revert this
  decide

section Strcmp

variable {m : ℕ → Option UInt8} {p q fuel a : ℕ} {s t : List UInt8} {b : UInt8}

/-- `while(*s){a++;s++;}`. -/
def scan (m : ℕ → Option UInt8) : ℕ → ℕ → ℕ → Option (ℕ × ℕ)
  | 0, _, _ => none
  | fuel + 1, a, s => do
    let c ← m s
    if c = 0 then pure (a, s) else scan m fuel (a + 1) (s + 1)

/-- `while(a--){ if(*s1-- != *s2--) return 0; } return 1;`. -/
def compareBack (m : ℕ → Option UInt8) : ℕ → ℕ → ℕ → Option ℕ
  | 0, _, _ => pure 1
  | a + 1, s1, s2 => do
    let c1 ← m s1
    let c2 ← m s2
    if c1 ≠ c2 then pure 0 else compareBack m a (s1 - 1) (s2 - 1)

/-- `mystrcmp`; it has no result if it reads a byte that is missing. -/
def mystrcmp (m : ℕ → Option UInt8) (fuel s1 s2 : ℕ) : Option ℕ := do
  let x ← scan m fuel 0 s1
  let y ← scan m fuel 0 s2
  if x.1 ≠ y.1 then pure 0 else compareBack m x.1 x.2 y.2

/-- The string `s` with its NUL is at `p`. -/
structure HasStr (m : ℕ → Option UInt8) (p : ℕ) (s : List UInt8) : Prop where
  bytes : ∀ i ≤ s.length, m (p + i) = some (s.getD i 0)
  nonzero : 0 ∉ s

theorem HasStr.tail (h : HasStr m p (b :: s)) : HasStr m (p+1) s := by
  refine ⟨fun i hi => ?_,fun h0 => h.nonzero (mem_cons_of_mem b h0)⟩
  rw [Nat.add_right_comm,Nat.add_assoc,h.bytes (i+1) (succ_le_succ hi),getD_cons_succ]

theorem HasStr.scan (h : HasStr m p s) (hf : s.length < fuel) (a : ℕ) :
    scan m fuel a p = some (a+s.length, p+s.length) := by
  obtain ⟨f,rfl⟩ : ∃ f, fuel = f+1 := ⟨fuel-1,by omega⟩
  induction s generalizing p f a with
  | nil =>
    have h0 := h.bytes 0 le_rfl
    rw [Nat.add_zero] at h0
    simp [Strings.scan,h0]
  | cons b s ih =>
    have hb := h.bytes 0 (Nat.zero_le _)
    rw [Nat.add_zero] at hb
    have hne : b ≠ 0 := fun e => h.nonzero (e ▸ mem_cons_self)
    rw [length_cons] at hf ⊢
    obtain ⟨g,rfl⟩ : ∃ g, f = g+1 := ⟨f-1,by omega⟩
    rw [Strings.scan,hb]
    change (if b = 0 then _ else _) = _
    rw [if_neg hne,ih h.tail (a+1) g (by omega),Nat.add_assoc,Nat.add_assoc,Nat.add_comm 1]

theorem compareBack_eq (hs : HasStr m p s) (ht : HasStr m q t) (ha : a ≤ s.length)
    (hat : a ≤ t.length) : compareBack m a (p+a) (q+a) =
      some (if (List.range a).all fun n => s.getD (a-n) 0 = t.getD (a-n) 0 then 1 else 0) := by
  induction a with
  | zero => rfl
  | succ a ih =>
    rw [compareBack,hs.bytes _ ha,ht.bytes _ hat,range_succ_eq_map,all_cons,all_map]
    change (if s.getD (a+1) 0 ≠ t.getD (a+1) 0 then _ else compareBack m a (p+a) (q+a)) = _
    rw [ih (by omega) (by omega)]
    simp only [comp_def,succ_eq_add_one,Nat.add_sub_add_right,Nat.sub_zero]
    by_cases hne : s.getD (a+1) 0 = t.getD (a+1) 0
    · rw [if_neg (not_not.mpr hne),decide_eq_true hne,Bool.true_and]
    · rw [if_pos hne,decide_eq_false hne,Bool.false_and]
      rfl

theorem mystrcmp_eq (hs : HasStr m p s) (ht : HasStr m q t) (hf : s.length < fuel)
    (hft : t.length < fuel) :
    mystrcmp m fuel p q = some (if Kernel.mystrcmp s t then 1 else 0) := by
  rw [mystrcmp,hs.scan hf,ht.scan hft]
  simp only [Nat.zero_add,Option.bind_eq_bind,Option.bind_some]
  by_cases hlen : s.length = t.length
  · have hk : Kernel.mystrcmp s t = (List.range s.length).all fun n =>
        s.getD (s.length-n) 0 = t.getD (s.length-n) 0 := by
      rw [Kernel.mystrcmp,decide_eq_true hlen,Bool.true_and,← hlen]
    rw [if_neg (not_not.mpr hlen),← hlen,compareBack_eq hs ht le_rfl hlen.le,hk]
  · have hk : Kernel.mystrcmp s t = false := by
      rw [Kernel.mystrcmp,decide_eq_false hlen,Bool.false_and]
    rw [if_pos hlen,hk]
    rfl

theorem kernel_mystrcmp_iff :
    Kernel.mystrcmp s t = true ↔ s.length = t.length ∧ s.tail = t.tail := by
  rw [Kernel.mystrcmp,Bool.and_eq_true,decide_eq_true_eq,and_congr_right_iff]
  intro hlen
  rw [← hlen,all_eq_true]
  constructor
  · intro h
    apply ext_getElem (by rw [length_tail,length_tail,hlen])
    intro i hi hit
    rw [length_tail] at hi
    have := h (s.length - (i+1)) (List.mem_range.mpr (by omega))
    rw [decide_eq_true_eq,show s.length - (s.length - (i+1)) = i + 1 by omega,
      getD_eq_getElem _ _ (by omega),getD_eq_getElem _ _ (by omega)] at this
    rwa [getElem_tail,getElem_tail]
  intro h n hn
  obtain ⟨i,hi⟩ : ∃ i, s.length-n = i+1 := by
    have := List.mem_range.mp hn
    exact ⟨s.length - n - 1,by omega⟩
  have htail : ∀ l : List UInt8, l.getD (i+1) 0 = l.tail.getD i 0 := fun l => by
    cases l with
    | nil => rfl
    | cons b l => exact getD_cons_succ
  rw [hi,htail,htail,h,decide_eq_true_eq]

/-- `mystrcmp` reads nothing but the two strings. It decides whether they are equal, except for two
strings of one length that differ in their first byte and in no other. -/
theorem mystrcmp_decides_iff (hs : HasStr m p s) (ht : HasStr m q t) (hf : s.length < fuel)
    (hft : t.length < fuel) : ∃ r, mystrcmp m fuel p q = some r ∧
      ((r = 1 ↔ s = t) ↔ (s.length = t.length → s.tail = t.tail → s.head? = t.head?)) := by
  refine ⟨_,mystrcmp_eq hs ht hf hft,?_⟩
  have hone : (if Kernel.mystrcmp s t then 1 else 0) = 1 ↔ s.length = t.length ∧ s.tail = t.tail := by
    rw [← kernel_mystrcmp_iff]
    split <;> simp [*]
  rw [hone]
  constructor
  · intro h hlen htail
    rw [h.mp ⟨hlen,htail⟩]
  intro h
  refine ⟨fun ⟨hlen,htail⟩ => ?_,fun e => by rw [e]; exact ⟨rfl,rfl⟩⟩
  have hhead := h hlen htail
  cases s with
  | nil => exact (List.length_eq_zero_iff.mp hlen.symm).symm
  | cons b s =>
    cases t with
    | nil => cases hlen
    | cons c t => rw [some.inj hhead,show s = t from htail]

def twoStrings (s t : List UInt8) (a : ℕ) : Option UInt8 := (s ++ 0 :: t ++ [0])[a]?

/-- `ab` and `ac`. -/
theorem mystrcmp_decides_iff_second : ∃ r, mystrcmp (twoStrings [97, 98] [97, 99]) 9 0 3 = some r ∧
    (r = 1 ↔ [97, 98] = ([97, 99] : List UInt8)) := by
  obtain ⟨r,hr,hiff⟩ := mystrcmp_decides_iff (m := twoStrings [97,98] [97,99]) (p := 0) (q := 3)
    (s := [97,98]) (t := [97,99]) ⟨by decide,by decide⟩ ⟨by decide,by decide⟩
    (show 2 < 9 by decide) (by decide)
  exact ⟨r,hr,hiff.mpr fun _ _ => rfl⟩

/-- `ab` and `cb`. -/
theorem mystrcmp_ignores_first : HasStr (twoStrings [97, 98] [99, 98]) 0 [97, 98] ∧
    HasStr (twoStrings [97, 98] [99, 98]) 3 [99, 98] ∧
    mystrcmp (twoStrings [97, 98] [99, 98]) 9 0 3 = some 1 :=
  ⟨⟨by decide,by decide⟩,⟨by decide,by decide⟩,by decide⟩

end Strcmp

section Suffix

variable {m m' : ℕ → UInt8} {a b c d f i p page page' b' s s' : ℕ} {x : UInt8} {u v xs ys : List UInt8}

/-- `do{ ++p; n = n/10; }while(n)`. -/
def countDigits : ℕ → ℕ → ℕ → ℕ
  | 0, _, p => p
  | f + 1, n, p => if n / 10 = 0 then p + 1 else countDigits f (n / 10) (p + 1)

/-- `do{ *--p = digit[i%10]; i = i/10; }while(i)`. -/
def storeDigits : ℕ → (ℕ → UInt8) → ℕ → ℕ → (ℕ → UInt8) × ℕ
  | 0, m, _, p => (m, p)
  | f + 1, m, i, p =>
    let m := update m (p - 1) (.ofNat (48 + i % 10))
    if i / 10 = 0 then (m, p - 1) else storeDigits f m (i / 10) (p - 1)

/-- `my_itoa(i, b)` for an `i` that is not negative. -/
def myItoa (m : ℕ → UInt8) (i b : ℕ) : ℕ → UInt8 :=
  let p := countDigits (i + 1) i b + 1
  let r := storeDigits (i + 1) (update m p 0) i p
  update r.1 (r.2 - 1) Fs.dollar

/-- `atoi`, with `n` read so far. -/
def atoi (m : ℕ → UInt8) : ℕ → ℕ → Int32 → Option Int32
  | 0, _, _ => none
  | f + 1, s, n =>
    if 48 ≤ m s ∧ m s ≤ 57 then atoi m f (s + 1) (n * 10 + .ofNat (m s).toNat - 48) else some n

/-- `while (*s) *b++=*s++;`. -/
def copyStr : ℕ → (ℕ → UInt8) → ℕ → ℕ → Option ((ℕ → UInt8) × ℕ)
  | 0, _, _, _ => none
  | f + 1, m, b, s => if m s = 0 then some (m, b) else copyStr f (update m b (m s)) (b + 1) (s + 1)

/-- `strcat(s1, s2)` into the page at `b`. -/
def strcat (m : ℕ → UInt8) (fuel b s1 s2 : ℕ) : Option (ℕ → UInt8) := do
  let x ← copyStr fuel m b s1
  let y ← copyStr fuel x.1 x.2 s2
  pure (update y.1 y.2 0)

theorem HasStr.unique {m : ℕ → Option UInt8} (h : HasStr m p u) (h' : HasStr m p v) : u = v := by
  have hlen : u.length = v.length := by
    have hu := h.scan (lt_succ_of_le (le_max_left u.length v.length)) 0
    rw [h'.scan (lt_succ_of_le (le_max_right u.length v.length)) 0,Nat.zero_add,Nat.zero_add] at hu
    exact (Prod.mk.inj (some.inj hu)).1.symm
  apply ext_getElem hlen
  intro i hi hi'
  have := (h.bytes i hi.le).symm.trans (h'.bytes i hi'.le)
  rwa [getD_eq_getElem _ _ hi,getD_eq_getElem _ _ hi',Option.some.injEq] at this

/-- A string is where it was if nothing is stored over it. -/
theorem HasStr.keep (h : HasStr (some ∘ m) s u)
    (hapart : ∀ i ≤ u.length, ∀ j < xs.length, s + i ≠ b+j) :
    HasStr (some ∘ overlay m b xs) s u := by
  refine ⟨fun i hi => Eq.trans (congrArg some (if_neg fun hin => ?_)) (h.bytes i hi),h.nonzero⟩
  exact hapart i hi (s + i - b) (by omega) (by omega)

theorem hasStr_overlay (h0 : 0 ∉ xs) : HasStr (some ∘ overlay m b (xs ++ [0])) b xs := by
  refine ⟨fun i hi => congrArg some ?_,h0⟩
  rw [overlay,if_pos (by simp; omega),Nat.add_sub_cancel_left]
  by_cases hlt : i < xs.length
  · rw [getD_append _ _ _ _ hlt]
  · obtain rfl : i = xs.length := by omega
    rw [getD_append_right _ _ _ _ le_rfl,Nat.sub_self,getD_eq_default _ _ le_rfl]
    rfl

theorem countDigits_eq : countDigits f i p = p + (Kernel.digits Kernel.digit f i).length := by
  induction f generalizing i p with
  | zero => rfl
  | succ f ih =>
    rw [countDigits,Kernel.digits]
    split
    · rfl
    · rw [ih,length_append,length_singleton]
      omega

theorem storeDigits_eq : storeDigits f m i (p + (Kernel.digits Kernel.digit f i).length) =
    (overlay m p (Kernel.digits Kernel.digit f i), p) := by
  induction f generalizing m i with
  | zero => rw [storeDigits,Kernel.digits,overlay_nil,length_nil,Nat.add_zero]
  | succ f ih =>
    rw [storeDigits,Kernel.digits]
    split
    · exact congrArg (·, p) update_eq_overlay
    · rw [length_append,length_singleton,← Nat.add_assoc,Nat.add_sub_cancel,ih,
        ← update_overlay_comm (.inr le_rfl),update_overlay]
      rfl

theorem mem_digits (h : x ∈ Kernel.digits Kernel.digit f i) : 48 ≤ x ∧ x ≤ 57 := by
  have hdigit : ∀ d < 10, 48 ≤ Kernel.digit d ∧ Kernel.digit d ≤ 57 := by decide
  induction f generalizing i with
  | zero => cases h
  | succ f ih =>
    rw [Kernel.digits] at h
    split at h
    · rw [List.mem_singleton.mp h]
      exact hdigit _ (mod_lt _ (by decide))
    · rcases List.mem_append.mp h with h | h
      · exact ih h
      · rw [List.mem_singleton.mp h]
        exact hdigit _ (mod_lt _ (by decide))

theorem zero_notMem_digits : 0 ∉ Kernel.digits Kernel.digit f i := fun h => absurd (mem_digits h).1 (by decide)

theorem dollar_notMem_digits : Fs.dollar ∉ Kernel.digits Kernel.digit f i := fun h =>
  absurd (mem_digits h).1 (by decide)

theorem zero_notMem_decimal : 0 ∉ Kernel.decimal c := by
  rw [Kernel.decimal,mem_cons,not_or]
  exact ⟨by decide,zero_notMem_digits⟩

theorem myItoa_eq : myItoa m c b = overlay m b (Kernel.decimal c ++ [0]) := by
  have hlen : b + (Kernel.digits Kernel.digit (c+1) c).length + 1 = b + 1 + (Kernel.digits Kernel.digit (c+1) c).length :=
    Nat.add_right_comm ..
  rw [myItoa,countDigits_eq,hlen,storeDigits_eq,← update_overlay_comm (.inr le_rfl),update_overlay]
  exact (update_overlay_comm (.inl (lt_succ_self b))).trans overlay_cons

/-- The digits are those of the decimal numeral. -/
theorem digits_eq_toDigits (hf : c < f) :
    Kernel.digits Kernel.digit f c = (Nat.toDigits 10 c).map fun x => .ofNat x.toNat := by
  induction f generalizing c with
  | zero => omega
  | succ f ih =>
    have hlt : c % 10 < 10 := mod_lt _ (by decide)
    have hone : [Kernel.digit (c % 10)] =
        (Nat.toDigits 10 (c % 10)).map fun x => .ofNat x.toNat := by
      rw [toDigits_of_lt_base hlt,map_singleton,toNat_digitChar_of_lt_ten hlt]
      rfl
    rw [Kernel.digits,hone]
    split
    · next h => rw [mod_eq_of_lt (by omega)]
    · next h =>
      rw [ih (by omega),← map_append,toDigits_append_toDigits (by decide) (by omega) hlt,
        div_add_mod]

def numeral (xs : List UInt8) (n : Int32) : Int32 :=
  xs.foldl (fun n x => n * 10 + .ofNat x.toNat - 48) n

theorem numeral_digits (hf : c < f) : numeral (Kernel.digits Kernel.digit f c) 0 = .ofNat c := by
  have hlast : ∀ k d, d < 10 → Int32.ofNat k * 10 + .ofNat (Kernel.digit d).toNat - 48 =
      Int32.ofNat (k * 10 + d) := by
    intro k d hd
    have htoNat : (Kernel.digit d).toNat = 48+d := by
      rw [Kernel.digit,UInt8.toNat_ofNat']
      omega
    rw [htoNat,Int32.ofNat_add,Int32.ofNat_add,Int32.ofNat_mul]
    change _ * 10 + (48+_) - 48 = _ * 10 + _
    rw [Int32.add_comm 48,← Int32.add_assoc,Int32.add_sub_cancel]
  induction f generalizing c with
  | zero => omega
  | succ f ih =>
    have hlt : c % 10 < 10 := mod_lt _ (by decide)
    rw [Kernel.digits]
    split
    · next h =>
      have := hlast 0 (c % 10) hlt
      rw [Nat.zero_mul,Nat.zero_add,mod_eq_of_lt (by omega)] at this
      rw [mod_eq_of_lt (by omega)]
      exact this
    · next h =>
      rw [numeral,foldl_append]
      change numeral (Kernel.digits Kernel.digit f (c / 10)) 0 * 10 + _ - 48 = _
      rw [ih (by omega),hlast _ _ hlt,div_add_mod']

theorem HasStr.atoi (h : HasStr (some ∘ m) p xs) (hd : ∀ x ∈ xs, 48 ≤ x ∧ x ≤ 57)
    (hf : xs.length < f) (n : Int32) : atoi m f p n = some (numeral xs n) := by
  obtain ⟨f,rfl⟩ : ∃ g, f = g+1 := ⟨f-1,by omega⟩
  have hbyte : m p = xs.getD 0 0 := some.inj (h.bytes 0 (Nat.zero_le _))
  induction xs generalizing p f n with
  | nil =>
    rw [Strings.atoi,hbyte]
    rfl
  | cons x xs ih =>
    rw [length_cons] at hf
    obtain ⟨f,rfl⟩ : ∃ g, f = g+1 := ⟨f-1,by omega⟩
    have hx : m p = x := hbyte
    rw [Strings.atoi,hx,if_pos (hd x mem_cons_self)]
    exact ih h.tail (fun y hy => hd y (mem_cons_of_mem x hy)) _ f (by omega)
      (some.inj (h.tail.bytes 0 (Nat.zero_le _)))

theorem HasStr.copyStr (h : HasStr (some ∘ m) s xs) (hf : xs.length < f)
    (hapart : ∀ i ≤ xs.length, ∀ j < xs.length, s + i ≠ b+j) :
    copyStr f m b s = some (overlay m b xs, b+xs.length) := by
  obtain ⟨f,rfl⟩ : ∃ g, f = g+1 := ⟨f-1,by omega⟩
  have hbyte : m s = xs.getD 0 0 := some.inj (h.bytes 0 (Nat.zero_le _))
  induction xs generalizing m s b f with
  | nil =>
    rw [Strings.copyStr,hbyte,overlay_nil]
    rfl
  | cons x xs ih =>
    rw [length_cons] at hf hapart ⊢
    obtain ⟨f,rfl⟩ : ∃ g, f = g+1 := ⟨f-1,by omega⟩
    have hx : m s = x := hbyte
    have hne : x ≠ 0 := fun e => h.nonzero (e ▸ mem_cons_self)
    have htail : HasStr (some ∘ update m b x) (s+1) xs := by
      rw [update_eq_overlay]
      refine h.tail.keep fun i hi j hj => ?_
      have hj0 : j < 1 := hj
      have := hapart (i+1) (by omega) j (by omega)
      omega
    have hapart' : ∀ i ≤ xs.length, ∀ j < xs.length, s + 1 + i ≠ b + 1 + j := fun i hi j hj => by
      have := hapart (i+1) (by omega) (j+1) (by omega)
      omega
    rw [Strings.copyStr,hx,if_neg hne,ih htail hapart' f (by omega)
      (some.inj (htail.bytes 0 (Nat.zero_le _))),overlay_cons,Nat.add_assoc,Nat.add_comm 1]

/-- The path `p`, the buffer for the suffix of container `c` and the page for the result are apart,
and the page has room. -/
structure Placed (m : ℕ → UInt8) (page b s : ℕ) (p : List UInt8) (c : ℕ) : Prop where
  path : HasStr (some ∘ m) s p
  room : p.length + (Kernel.decimal c).length < PGSIZE
  buffer : ∀ i ≤ p.length, ∀ j ≤ (Kernel.decimal c).length, s + i ≠ b + j
  page_path : ∀ i ≤ p.length, ∀ j < PGSIZE, s + i ≠ page + j
  page_buffer : ∀ i ≤ (Kernel.decimal c).length, ∀ j < PGSIZE, b + i ≠ page + j

theorem Placed.strcat {p : List UInt8} (h : Placed m page b s p c) (hf : PGSIZE ≤ f) :
    ∃ r, strcat (Strings.myItoa m c b) f page s b = some r ∧
      HasStr (some ∘ r) page (p ++ Kernel.decimal c) := by
  have hroom := h.room
  have hpath : HasStr (some ∘ Strings.myItoa m c b) s p := by
    rw [myItoa_eq]
    refine h.path.keep fun i hi j hj => h.buffer i hi j ?_
    rw [length_append] at hj
    exact le_of_lt_succ hj
  have hsuffix : HasStr (some ∘ overlay (Strings.myItoa m c b) page p) b (Kernel.decimal c) := by
    rw [myItoa_eq]
    exact (hasStr_overlay zero_notMem_decimal).keep fun i hi j hj =>
      h.page_buffer i hi j (by omega)
  have hcopy := hpath.copyStr (f := f) (b := page) (by omega) fun i hi j hj =>
    h.page_path i hi j (by omega)
  have hcopy' := hsuffix.copyStr (f := f) (b := page+p.length) (by omega) fun i hi j hj => by
    have := h.page_buffer i hi (p.length+j) (by omega)
    omega
  rw [overlay_append] at hcopy'
  refine ⟨overlay (Strings.myItoa m c b) page (p ++ Kernel.decimal c ++ [0]),?_,hasStr_overlay ?_⟩
  · rw [Strings.strcat,hcopy]
    change (Strings.copyStr f _ (page+p.length) b >>= _) = _
    rw [hcopy',← update_overlay,length_append,← Nat.add_assoc]
    rfl
  · rw [mem_append,not_or]
    exact ⟨h.path.nonzero,zero_notMem_decimal⟩

theorem last_dollar_unique (h : u ++ x :: xs = v ++ x :: ys) (hx : x ∉ xs) (hy : x ∉ ys) :
    u = v ∧ xs = ys := by
  rcases List.append_eq_append_iff.mp h with ⟨l,rfl,hl⟩ | ⟨l,rfl,hl⟩
  all_goals
    cases l with
    | nil => simp_all
    | cons y l =>
      -- a second mark before the last one would be among the digits
      obtain ⟨-,rfl⟩ := List.cons.inj hl
      exact absurd (mem_append_right l mem_cons_self) (by assumption)

/-- `'$'` and the decimal numeral. -/
def suffix (c : ℕ) : List UInt8 := Fs.dollar :: (Nat.toDigits 10 c).map fun x => .ofNat x.toNat

theorem decimal_eq_suffix (c : ℕ) : Kernel.decimal c = suffix c := by
  rw [Kernel.decimal,digits_eq_toDigits (lt_succ_self c),suffix]

/-- `my_itoa` stores the suffix of a container, from which `atoi` gets the number back, `strcat` puts
it behind a path, and two paths with suffixes are the same only if the paths and the numbers are. -/
theorem suffix_injective :
    (∀ (m : ℕ → UInt8) (b c : ℕ), c < 2 ^ 31 →
      HasStr (some ∘ myItoa m c b) b (suffix c) ∧
      ∃ f r, atoi (myItoa m c b) f (b + 1) 0 = some r ∧ r.toInt = c) ∧
    ∀ (m m' : ℕ → UInt8) (page page' b b' s s' : ℕ) (p q : List UInt8) (c d : ℕ),
      c < 2 ^ 31 → d < 2 ^ 31 → Placed m page b s p c → Placed m' page' b' s' q d →
      ∃ f r r', strcat (myItoa m c b) f page s b = some r ∧
        strcat (myItoa m' d b') f page' s' b' = some r' ∧
        HasStr (some ∘ r) page (p ++ suffix c) ∧ HasStr (some ∘ r') page' (q ++ suffix d) ∧
        ∀ u, HasStr (some ∘ r) page u → HasStr (some ∘ r') page' u → p = q ∧ c = d := by
  refine ⟨fun m b c hc => ?_,fun m m' page page' b b' s s' p q c d hc hd h h' => ?_⟩
  · have hstr : HasStr (some ∘ myItoa m c b) b (Kernel.decimal c) := by
      rw [myItoa_eq]
      exact hasStr_overlay zero_notMem_decimal
    have hnum := hstr.tail.atoi (fun x hx => mem_digits hx) (lt_succ_self _) 0
    rw [numeral_digits (lt_succ_self c)] at hnum
    rw [← decimal_eq_suffix]
    exact ⟨hstr,_,_,hnum,Int32.toInt_ofNat_of_lt hc⟩
  obtain ⟨r,hr,hu⟩ := h.strcat le_rfl
  obtain ⟨r',hr',hu'⟩ := h'.strcat le_rfl
  rw [← decimal_eq_suffix,← decimal_eq_suffix]
  refine ⟨_,r,r',hr,hr',hu,hu',fun u hs hs' => ?_⟩
  obtain ⟨hpq,hdigits⟩ := last_dollar_unique ((hu.unique hs).trans (hs'.unique hu'))
    dollar_notMem_digits dollar_notMem_digits
  have hnum := numeral_digits (lt_succ_self c)
  rw [hdigits,numeral_digits (lt_succ_self d)] at hnum
  have hint := congrArg Int32.toInt hnum
  rw [Int32.toInt_ofNat_of_lt hc,Int32.toInt_ofNat_of_lt hd] at hint
  exact ⟨hpq,(Int.ofNat.inj hint).symm⟩

/-- The path `a` at 0, with the buffer at 16 and the page at 4096. -/
theorem placed_letter (hc : (Kernel.decimal c).length ≤ 3) :
    Placed (update (fun _ => 0) 0 97) 4096 16 0 [97] c where
  path := ⟨fun i hi => by
    have : i ≤ 1 := hi
    interval_cases i
    all_goals rfl,by decide⟩
  room := by
    change 1 + (Kernel.decimal c).length < 4096
    omega
  buffer i hi j _ := by
    have : i ≤ 1 := hi
    omega
  page_path i hi j _ := by
    have : i ≤ 1 := hi
    omega
  page_buffer i hi j _ := by omega

/-- The number 12, and `a` in the containers 1 and 12. -/
theorem suffix_injective_letter :
    (∃ f r, atoi (myItoa (fun _ => 0) 12 0) f 1 0 = some r ∧ r.toInt = 12) ∧
    ∃ f r r', strcat (myItoa (update (fun _ => 0) 0 97) 1 16) f 4096 0 16 = some r ∧
      strcat (myItoa (update (fun _ => 0) 0 97) 12 16) f 4096 0 16 = some r' ∧
      HasStr (some ∘ r) 4096 [97, 36, 49] ∧ HasStr (some ∘ r') 4096 [97, 36, 49, 50] := by
  refine ⟨(suffix_injective.1 (fun _ => 0) 0 12 (by decide)).2,?_⟩
  obtain ⟨f,r,r',h,h',hr,hr',-⟩ := suffix_injective.2 _ _ _ _ _ _ _ _ _ _ 1 12 (by decide) (by decide)
    (placed_letter (by decide)) (placed_letter (by decide))
  exact ⟨f,r,r',h,h',hr,hr'⟩

end Suffix

section Removelast

variable {p mem : List UInt8}

/-- `removelast` takes the suffix off if and only if the block that it has got already holds what is
in the path from its first `'$'` on, and a NUL behind it. -/
theorem removelast_undoes_iff (hp : p.length < 90) (c : ℕ) :
    Ls.removelast mem (p ++ Kernel.decimal c) = .ok p ↔
      (mem.drop (p.takeWhile (· ≠ Fs.dollar)).length).takeWhile (· ≠ 0) =
        p.dropWhile (· ≠ Fs.dollar) := by
  have hcopied : (p ++ Kernel.decimal c).takeWhile (· ≠ Fs.dollar) =
      p.takeWhile (· ≠ Fs.dollar) := by
    rw [takeWhile_append]
    split
    · next h =>
      have hall : p.takeWhile (· ≠ Fs.dollar) = p :=
        ( takeWhile_prefix _).eq_of_length h
      rw [hall]
      exact append_nil p
    · rfl
  have hlen : (p.takeWhile (· ≠ Fs.dollar)).length ≤ 100 :=
    ( takeWhile_prefix _).length_le.trans (by omega)
  rw [Ls.removelast]
  simp only [hcopied,if_pos hlen,Except.ok.injEq]
  have hsplit := takeWhile_append_dropWhile (p := (· ≠ Fs.dollar)) (l := p)
  constructor
  · intro h
    exact append_cancel_left (h.trans hsplit.symm)
  · intro h
    rw [h,hsplit]

/-- `ab` in a block of zeros. -/
theorem removelast_undoes_iff_zeros :
    Ls.removelast (List.replicate 100 0) ([97, 98] ++ Kernel.decimal 12) = .ok [97, 98] :=
  (removelast_undoes_iff (by decide) 12).mpr (by decide)

/-- Of `a$b` only `a` is left. -/
theorem removelast_cuts_first :
    Ls.removelast (List.replicate 100 0) ([97, 36, 98] ++ Kernel.decimal 1) = .ok [97] ∧
      ([97] : List UInt8) ≠ [97, 36, 98] :=
  ⟨rfl,by decide⟩

end Removelast

end Xv6Container.Strings
