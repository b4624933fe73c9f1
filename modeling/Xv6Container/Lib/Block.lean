import Mathlib.Tactic
import Mathlib.Data.List.GetD

/-!
# Fixed-size byte blocks

A block of `n` bytes, read and written in three ways: byte by byte, as a
stretch of bytes (`patch`, what a `memmove` into the block does) and as an
array of little-endian 32-bit words.
-/

namespace Xv6Container

/-- `n` bytes. -/
abbrev Block (n : ℕ) := Fin n → UInt8

namespace Block

variable {n : ℕ}

/-- The byte at offset `i`; reading past the end gives zero. -/
def get (b : Block n) (i : ℕ) : UInt8 := if h : i < n then b ⟨i, h⟩ else 0

/-- The block with all bytes zero. -/
def zero : Block n := fun _ => 0

/-- `memmove(b + o, src, |src|)`. -/
def patch (b : Block n) (o : ℕ) (src : List UInt8) : Block n := fun i =>
  if o ≤ i.val ∧ i.val < o + src.length then src.getD (i.val - o) 0 else b i

/-- The `m` bytes from offset `o` on. -/
def slice (b : Block n) (o m : ℕ) : List UInt8 := (List.range m).map fun k => b.get (o + k)

/-- The `j`-th little-endian 32-bit word. -/
def word (b : Block n) (j : ℕ) : ℕ :=
  (b.get (4 * j)).toNat + 256 * (b.get (4 * j + 1)).toNat +
    65536 * (b.get (4 * j + 2)).toNat + 16777216 * (b.get (4 * j + 3)).toNat

/-- Byte `k` of the 32-bit word `v`. -/
def wordByte (v k : ℕ) : UInt8 := UInt8.ofNat (v / 256 ^ k)

/-- Store `v` as the `j`-th word. -/
def setWord (b : Block n) (j v : ℕ) : Block n := fun i =>
  if i.val / 4 = j then wordByte v (i.val % 4) else b i

theorem get_of_lt (b : Block n) {i : ℕ} (h : i < n) : b.get i = b ⟨i, h⟩ := dif_pos h

@[simp] theorem get_zero (i : ℕ) : (zero : Block n).get i = 0 := by
  unfold get zero
  split <;> rfl

@[simp] theorem word_zero (j : ℕ) : (zero : Block n).word j = 0 := by simp [word]

theorem get_patch (b : Block n) (o : ℕ) (src : List UInt8) {i : ℕ} (h : i < n) :
    (b.patch o src).get i =
      if o ≤ i ∧ i < o + src.length then src.getD (i-o) 0 else b.get i := by
  rw [get_of_lt _ h,get_of_lt _ h]
  rfl

theorem get_setWord (b : Block n) (j v : ℕ) {i : ℕ} (h : i < n) :
    (b.setWord j v).get i = if i / 4 = j then wordByte v (i % 4) else b.get i := by
  rw [get_of_lt _ h,get_of_lt _ h]
  rfl

theorem toNat_wordByte (v k : ℕ) : (wordByte v k).toNat = v / 256 ^ k % 256 := by
  simp [wordByte,UInt8.toNat_ofNat']

theorem word_setWord_self (b : Block n) {j v : ℕ} (hj : 4 * j + 4 ≤ n) (hv : v < 2 ^ 32) :
    (b.setWord j v).word j = v := by
  have hbyte : ∀ k, k < 4 → (b.setWord j v).get (4 * j + k) = wordByte v k := by
    intro k hk
    rw [get_setWord _ _ _ (by omega),if_pos (by omega)]
    congr 1
    omega
  have h0 := hbyte 0 (by omega)
  rw [Nat.add_zero] at h0
  rw [word,h0,hbyte 1 (by omega),hbyte 2 (by omega),hbyte 3 (by omega)]
  simp only [toNat_wordByte]
  omega

theorem word_setWord_of_ne (b : Block n) {j k v : ℕ} (hk : 4 * k + 4 ≤ n) (hne : k ≠ j) :
    (b.setWord j v).word k = b.word k := by
  have hbyte : ∀ i, i < 4 → (b.setWord j v).get (4 * k + i) = b.get (4 * k + i) := by
    intro i hi
    rw [get_setWord _ _ _ (by omega),if_neg (by omega)]
  have h0 := hbyte 0 (by omega)
  rw [Nat.add_zero] at h0
  rw [word,word,h0,hbyte 1 (by omega),hbyte 2 (by omega),hbyte 3 (by omega)]

theorem word_lt (b : Block n) (j : ℕ) : b.word j < 2 ^ 32 := by
  have hb : ∀ i, (b.get i).toNat < 256 := fun i => UInt8.toNat_lt _
  have h0 := hb (4*j)
  have h1 := hb (4 * j + 1)
  have h2 := hb (4 * j + 2)
  have h3 := hb (4 * j + 3)
  rw [word]
  omega

end Block

end Xv6Container
