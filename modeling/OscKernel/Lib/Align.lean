import Mathlib.Data.Nat.Bitwise

/-! # Rounding to a power of two

Masking off the low bits of a bit vector.

* `and_not_toNat`: it rounds down to a multiple.
* `add_and_not_toNat`: it rounds up, once the mask has been added. -/

namespace OscKernel.Lib.Align

variable {w k : ℕ} {a align : BitVec w}

theorem lt_width (hk : align.toNat = 2 ^ k) : k < w := by
  by_contra hge
  have h1 := align.isLt
  have h2 := Nat.pow_le_pow_right (show 0 < 2 by decide) (not_lt.1 hge)
  omega

theorem sub_one_toNat (hk : align.toNat = 2 ^ k) : (align - 1).toNat = 2 ^ k - 1 := by
  have hlt := lt_width hk
  have hone : (1 : BitVec w).toNat = 1 := by
    exact Nat.mod_eq_of_lt (Nat.one_lt_two_pow (by omega))
  have h1 : (1 : BitVec w) ≤ align := BitVec.le_def.2 (by rw [hk, hone]; exact Nat.two_pow_pos k)
  rw [BitVec.toNat_sub_of_le h1, hk, hone]

theorem and_not_toNat (hk : align.toNat = 2 ^ k) :
    (a &&& ~~~(align - 1)).toNat = a.toNat / 2 ^ k * 2 ^ k := by
  have hlt := lt_width hk
  have hbit : ∀ i, (align - 1).getLsbD i = decide (i < k) := fun i => by
    rw [← BitVec.testBit_toNat, sub_one_toNat hk, Nat.testBit_two_pow_sub_one]
  refine Nat.eq_of_testBit_eq fun i => ?_
  rw [BitVec.testBit_toNat, BitVec.getLsbD_and, BitVec.getLsbD_not, hbit,
    ← Nat.shiftRight_eq_div_pow, ← Nat.shiftLeft_eq, Nat.testBit_shiftLeft, Nat.testBit_shiftRight,
    BitVec.testBit_toNat]
  by_cases hi : i < k
  · simp [hi, Nat.not_le.2 hi]
  · have hle : k ≤ i := not_lt.1 hi
    rw [Nat.add_sub_cancel' hle]
    by_cases hw : i < w
    · simp [hi, hle, hw]
    · simp [BitVec.getLsbD_of_ge _ _ (not_lt.1 hw)]

/-- Rounding up, as long as the sum does not wrap. -/
theorem add_and_not_toNat (hk : align.toNat = 2 ^ k) (ha : a.toNat + align.toNat ≤ 2 ^ w) :
    ((a + align - 1) &&& ~~~(align - 1)).toNat = (a.toNat + (2 ^ k - 1)) / 2 ^ k * 2 ^ k := by
  have hpos := Nat.two_pow_pos k
  have hsum : (a + align - 1).toNat = a.toNat + (2 ^ k - 1) := by
    rw [BitVec.sub_eq_add_neg, BitVec.add_assoc, ← BitVec.sub_eq_add_neg, BitVec.toNat_add,
      sub_one_toNat hk, Nat.mod_eq_of_lt (by omega)]
  rw [and_not_toNat hk, hsum]

end OscKernel.Lib.Align
