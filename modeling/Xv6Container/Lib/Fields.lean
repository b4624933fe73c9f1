import Xv6Container.Lib.Block

/-!
# Records and bits in blocks

`part` reads a stretch of a block and `overlay` stores it. A block is also an array of
little-endian 16-bit words, and an array of bits.
-/

namespace Xv6Container.Block

variable {n m k : ℕ}

/-- The `m` bytes from offset `o` on, as a block. -/
def part (b : Block n) (o m : ℕ) : Block m := fun i => b.get (o + i.val)

/-- The block with `d` stored at offset `o`. -/
def overlay (b : Block n) (o : ℕ) (d : Block m) : Block n := fun i =>
  if o ≤ i.val ∧ i.val < o + m then d.get (i.val - o) else b i

/-- The `j`-th little-endian 16-bit word. -/
def half (b : Block n) (j : ℕ) : ℕ :=
  (b.get (2 * j)).toNat + 256 * (b.get (2 * j + 1)).toNat

/-- Store `v` as the `j`-th 16-bit word. -/
def setHalf (b : Block n) (j v : ℕ) : Block n := fun i =>
  if i.val / 2 = j then wordByte v (i.val % 2) else b i

/-- Bit `i`, counted from the low end of byte 0. -/
def bit (b : Block n) (i : ℕ) : Bool := (b.get (i / 8)).toNat.testBit (i % 8)

/-- `b[i/8] |= 1 << (i%8)`. -/
def setBit (b : Block n) (i : ℕ) : Block n := fun k =>
  if k.val = i / 8 then b k ||| UInt8.ofNat (2 ^ (i % 8)) else b k

theorem get_overlay (b : Block n) (o : ℕ) (d : Block m) {i : ℕ} (h : i < n) :
    (b.overlay o d).get i = if o ≤ i ∧ i < o + m then d.get (i-o) else b.get i := by
  rw [get_of_lt _ h,get_of_lt _ h]
  rfl

theorem part_overlay_self (b : Block n) {o : ℕ} (d : Block m) (h : o + m ≤ n) :
    (b.overlay o d).part o m = d := by
  funext i
  have hi := i.isLt
  rw [part,get_overlay _ _ _ (by omega),if_pos (by omega),Nat.add_sub_cancel_left,get_of_lt _ hi]

theorem part_overlay_of_disjoint (b : Block n) {o p : ℕ} (d : Block m) (h : p + k ≤ n)
    (hne : p + k ≤ o ∨ o + m ≤ p) : (b.overlay o d).part p k = b.part p k := by
  funext i
  have hi := i.isLt
  rw [part,part,get_overlay _ _ _ (by omega),if_neg (by omega)]

@[simp] theorem part_zero (o m : ℕ) : (zero : Block n).part o m = zero := by
  funext i
  exact get_zero _

@[simp] theorem half_zero (j : ℕ) : (zero : Block n).half j = 0 := by simp [half]

theorem get_setHalf (b : Block n) (j v : ℕ) {i : ℕ} (h : i < n) :
    (b.setHalf j v).get i = if i / 2 = j then wordByte v (i % 2) else b.get i := by
  rw [get_of_lt _ h,get_of_lt _ h]
  rfl

theorem half_setHalf_self (b : Block n) {j v : ℕ} (hj : 2 * j + 2 ≤ n) (hv : v < 2 ^ 16) :
    (b.setHalf j v).half j = v := by
  have h0 : (b.setHalf j v).get (2*j) = wordByte v 0 := by
    rw [get_setHalf _ _ _ (by omega),if_pos (by omega)]
    congr 1
    omega
  have h1 : (b.setHalf j v).get (2 * j + 1) = wordByte v 1 := by
    rw [get_setHalf _ _ _ (by omega),if_pos (by omega)]
    congr 1
    omega
  rw [half,h0,h1,toNat_wordByte,toNat_wordByte]
  omega

theorem half_setHalf_of_ne (b : Block n) {j l v : ℕ} (hl : 2 * l + 2 ≤ n) (hne : l ≠ j) :
    (b.setHalf j v).half l = b.half l := by
  rw [half,half,get_setHalf _ _ _ (by omega),get_setHalf _ _ _ (by omega),if_neg (by omega),
    if_neg (by omega)]

theorem half_setWord_of_ne (b : Block n) {j l v : ℕ} (hl : 2 * l + 2 ≤ n) (hne : l / 2 ≠ j) :
    (b.setWord j v).half l = b.half l := by
  rw [half,half,get_setWord _ _ _ (by omega),get_setWord _ _ _ (by omega),if_neg (by omega),
    if_neg (by omega)]

theorem word_setHalf_of_ne (b : Block n) {j l v : ℕ} (hl : 4 * l + 4 ≤ n) (hne : j / 2 ≠ l) :
    (b.setHalf j v).word l = b.word l := by
  have hbyte : ∀ i, i < 4 → (b.setHalf j v).get (4 * l + i) = b.get (4 * l + i) := by
    intro i hi
    rw [get_setHalf _ _ _ (by omega),if_neg (by omega)]
  have h0 := hbyte 0 (by omega)
  rw [Nat.add_zero] at h0
  rw [word,word,h0,hbyte 1 (by omega),hbyte 2 (by omega),hbyte 3 (by omega)]

theorem bit_zero (i : ℕ) : (zero : Block n).bit i = false := by simp [bit]

theorem bit_setBit (b : Block n) {i j : ℕ} (hj : j / 8 < n) :
    (b.setBit i).bit j = (b.bit j || decide (j = i)) := by
  have hget : (b.setBit i).get (j / 8) =
      if j / 8 = i / 8 then b.get (j / 8) ||| UInt8.ofNat (2 ^ (i % 8)) else b.get (j / 8) := by
    rw [get_of_lt _ hj,get_of_lt _ hj]
    rfl
  rw [bit,hget,bit]
  split
  · next hij =>
    have hpow : 2 ^ (i % 8) < 256 := by
      calc 2 ^ (i % 8) < 2 ^ 8 := Nat.pow_lt_pow_right (by omega) (Nat.mod_lt _ (by omega))
        _ = 256 := rfl
    rw [UInt8.toNat_or,Nat.testBit_or,UInt8.toNat_ofNat_of_lt' hpow,Nat.testBit_two_pow]
    congr 1
    apply decide_eq_decide.mpr
    omega
  · next hij =>
    have hne : j ≠ i := fun h => hij (by rw [h])
    simp [hne]

/-- `for(i = 0; i < used; i++) b[i/8] |= 1 << (i%8)`. -/
def marks (b : Block n) (used : ℕ) : Block n := (List.range used).foldl setBit b

theorem bit_marks (b : Block n) (used : ℕ) {j : ℕ} (hj : j / 8 < n) :
    (b.marks used).bit j = (b.bit j || decide (j < used)) := by
  induction used with
  | zero => simp [marks]
  | succ used ih =>
    have hstep : b.marks (used+1) = (b.marks used).setBit used := by
      rw [marks,marks,List.range_succ,List.foldl_append]
      rfl
    rw [hstep,bit_setBit _ hj,ih,Bool.or_assoc]
    congr 1
    rw [← Bool.decide_or]
    apply decide_eq_decide.mpr
    omega

end Xv6Container.Block
