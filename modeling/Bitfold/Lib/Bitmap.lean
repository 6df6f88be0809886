import Mathlib
/-!
# Bitmaps of 32-bit words

Bit `j` of an array of words is bit `j % 32` of word `j / 32`. The lemmas say
what the usual word operations do to single bits; bits past the end are zero.
-/

namespace Lib

/-- The word at `i`, zero past the end. -/
def word {n : Nat} (w : Vector UInt32 n) (i : Nat) : UInt32 := w[i]?.getD 0

/-- Bit `j` of the array. -/
def bit {n : Nat} (w : Vector UInt32 n) (j : Nat) : Bool := (word w (j / 32)).toNat.testBit (j % 32)

variable {n : Nat}

theorem word_of_lt {w : Vector UInt32 n} {i : Nat} (h : i < n) : word w i = w[i] := by simp [word, h]

theorem word_of_le {w : Vector UInt32 n} {i : Nat} (h : n ≤ i) : word w i = 0 := by simp [word, h]

theorem bit_of_le {w : Vector UInt32 n} {j : Nat} (h : n ≤ j / 32) : bit w j = false := by
  simp [bit, word_of_le h]

theorem bit_replicate (j : Nat) : bit (Vector.replicate n 0) j = false := by
  by_cases h : j / 32 < n
  · simp [bit, word_of_lt h]
  · exact bit_of_le (by omega)

theorem testBit_toNat_of_le {x : UInt32} {k : Nat} (h : 32 ≤ k) : x.toNat.testBit k = false :=
  Nat.testBit_lt_two_pow (lt_of_lt_of_le x.toNat_lt (Nat.pow_le_pow_right (by omega) h))

/-- The array is all zero iff no bit is set. -/
theorem all_zero_iff {w : Vector UInt32 n} : w.all (· == 0) = true ↔ ∀ j, bit w j = false := by
  rw [Vector.all_eq_true]
  constructor
  · intro h j
    by_cases hj : j / 32 < n
    · have := h _ hj
      simp_all [bit, word_of_lt hj]
    · exact bit_of_le (by omega)
  · intro h i hi
    have hz : w[i].toNat = 0 := by
      apply Nat.eq_of_testBit_eq
      intro k
      rw [Nat.zero_testBit]
      by_cases hk : k < 32
      · have hb := h (32 * i + k)
        rwa [bit, show (32 * i + k) / 32 = i by omega, show (32 * i + k) % 32 = k by omega, word_of_lt hi] at hb
      · exact testBit_toNat_of_le (by omega)
    have hw : w[i] = 0 := UInt32.toNat_inj.1 hz
    simp [hw]

theorem toNat_one_shiftLeft {b : UInt32} (h : b.toNat < 32) : (1 <<< b : UInt32).toNat = 2 ^ b.toNat := by
  have : 2 ^ b.toNat < 2 ^ 32 := Nat.pow_lt_pow_right (by omega) h
  rw [UInt32.toNat_shiftLeft, Nat.mod_eq_of_lt h, UInt32.toNat_one, Nat.one_shiftLeft, Nat.mod_eq_of_lt this]

/-- Masking with one bit tests it. -/
theorem and_one_shiftLeft_ne_zero {x b : UInt32} (h : b.toNat < 32) :
    ((x &&& (1 <<< b)) != 0) = x.toNat.testBit b.toNat := by
  rw [Bool.eq_iff_iff, bne_iff_ne, ne_eq, ← UInt32.toNat_inj, UInt32.toNat_and, toNat_one_shiftLeft h,
    UInt32.toNat_zero, Nat.and_two_pow]
  cases x.toNat.testBit b.toNat <;> simp

/-- Setting a bit sets that bit alone. -/
theorem bit_set_or {w : Vector UInt32 n} {i : Nat} (hi : i < n) {b : UInt32} (hb : b.toNat < 32) (k : Nat) :
    bit (w.set i (w[i] ||| (1 <<< b))) k = (bit w k || decide (k = 32 * i + b.toNat)) := by
  by_cases hk : k / 32 < n
  · rw [bit, word_of_lt hk, Vector.getElem_set, bit, word_of_lt hk]
    split
    · rename_i he
      subst he
      rw [UInt32.toNat_or, toNat_one_shiftLeft hb, Nat.testBit_or, Nat.testBit_two_pow]
      congr 1
      rw [decide_eq_decide]
      omega
    · rename_i hne
      rw [decide_eq_false (by omega), Bool.or_false]
  · rw [bit_of_le (by omega), bit_of_le (by omega), decide_eq_false (by omega)]
    rfl

/-- The bits of a word made of the high bits of `x` and the low bits of `y`. -/
theorem testBit_funnel_shift {x y b : UInt32} (h₀ : 0 < b.toNat) (h : b.toNat < 32) {k : Nat} (hk : k < 32) :
    ((x >>> b) ||| (y <<< (32 - b))).toNat.testBit k =
      if k + b.toNat < 32 then x.toNat.testBit (k + b.toNat) else y.toNat.testBit (k + b.toNat - 32) := by
  have hs : (32 - b).toNat = 32 - b.toNat := by
    rw [UInt32.toNat_sub]
    simp
    omega
  rw [UInt32.toNat_or, UInt32.toNat_shiftRight, UInt32.toNat_shiftLeft, hs, Nat.mod_eq_of_lt h,
    Nat.mod_eq_of_lt (by omega : 32 - b.toNat < 32), Nat.testBit_or, Nat.testBit_shiftRight,
    Nat.testBit_mod_two_pow, Nat.testBit_shiftLeft, Nat.add_comm b.toNat k]
  split
  · rw [decide_eq_false (by omega : ¬ k ≥ 32 - b.toNat)]
    simp
  · rw [testBit_toNat_of_le (by omega), decide_eq_true hk, decide_eq_true (by omega : k ≥ 32 - b.toNat)]
    simp only [Bool.false_or, Bool.true_and]
    congr 1
    omega

end Lib
