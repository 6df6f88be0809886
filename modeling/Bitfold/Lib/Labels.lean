import Mathlib
/-!
# Labels on a circle

Numbers that are counted without bound and carried as their low 16 bits.
-/

namespace Lib

/-- The label of a number: its low 16 bits. -/
def label (n : Int) : UInt16 := .ofNat (n % 65536).toNat

theorem label_toNat (n : Int) : ((label n).toNat : Int) = n % 65536 := by
  rw [label, UInt16.toNat_ofNat']
  omega

theorem label_eq_iff {a b : Int} : label a = label b ↔ a % 65536 = b % 65536 := by
  rw [← UInt16.toNat_inj, ← Int.natCast_inj, label_toNat, label_toNat]

theorem label_add_one (n : Int) : label n + 1 = label (n + 1) := by
  have h := label_toNat n
  have h' := label_toNat (n + 1)
  rw [← UInt16.toNat_inj, UInt16.toNat_add, UInt16.toNat_one]
  omega

theorem label_sub (a b : Int) : label a - label b = label (a - b) := by
  have ha := label_toNat a
  have hb := label_toNat b
  have h := label_toNat (a - b)
  rw [← UInt16.toNat_inj, UInt16.toNat_sub]
  omega

end Lib
