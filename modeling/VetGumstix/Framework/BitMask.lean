import Mathlib

/-! # Contiguous Bit Masks

    A mask of `w` consecutive ones starting at bit `lo` selects a field of a
    word.  The lemmas below turn masking into division and remainder, the
    form in which `omega` can use it.
-/

namespace BitMask

/-- Masking with `w` ones at bit `lo`, as arithmetic. -/
theorem nat_and_field (x lo w : Nat) :
    x &&& 2 ^ lo * (2 ^ w - 1) = 2 ^ lo * (x / 2 ^ lo % 2 ^ w) := by
  apply Nat.eq_of_testBit_eq
  intro i
  simp only [Nat.testBit_and, Nat.testBit_two_pow_mul, Nat.testBit_two_pow_sub_one,
    Nat.testBit_mod_two_pow, Nat.testBit_div_two_pow]
  by_cases h : lo ≤ i
  · have hi : i - lo + lo = i := by omega
    simp only [h, decide_true, Bool.true_and, hi]
    exact Bool.and_comm _ _
  · simp [h]

/-- The value of a masked word, given the mask as `w` ones at bit `lo`. -/
theorem toNat_and_field {n : Nat} (x m : BitVec n) (lo w : Nat)
    (hm : m.toNat = 2 ^ lo * (2 ^ w - 1)) :
    (x &&& m).toNat = 2 ^ lo * (x.toNat / 2 ^ lo % 2 ^ w) := by
  rw [BitVec.toNat_and, hm, nat_and_field]

/-- Two words that share a bit. -/
theorem and_ne_zero_of_bit {n : Nat} {x y : BitVec n} (i : Nat) (hx : x.getLsbD i = true)
    (hy : y.getLsbD i = true) : x &&& y ≠ 0 := by
  intro h
  have hbit : (x &&& y).getLsbD i = true := by rw [BitVec.getLsbD_and, hx, hy, Bool.and_true]
  rw [h] at hbit
  exact absurd hbit (by simp)

section Within

variable {n : Nat} {x y z : BitVec n} {i : Nat}

/-- Every bit of `x` is one of `y`. -/
def Within (x y : BitVec n) : Prop := ∀ i, x.getLsbD i = true → y.getLsbD i = true

theorem Within.trans (h : Within x y) (h' : Within y z) : Within x z := fun i hi => h' i (h i hi)

theorem Within.clear (h : Within x y) (hy : y.getLsbD i = false) : x.getLsbD i = false :=
  Bool.eq_false_iff.mpr fun hx => absurd (hy.symm.trans (h i hx)) Bool.false_ne_true

theorem eq_zero_of_within (h : Within x 0) : x = 0 := by
  apply BitVec.eq_of_getLsbD_eq
  intro i _
  rw [Bool.eq_false_iff.mpr fun hi => absurd (h i hi) (by simp)]
  exact (BitVec.getLsbD_zero).symm

theorem within_and_left (x y : BitVec n) : Within (x &&& y) x := by
  intro i hi
  rw [BitVec.getLsbD_and, Bool.and_eq_true] at hi
  exact hi.1

theorem within_and_right (x y : BitVec n) : Within (x &&& y) y := by
  rw [BitVec.and_comm]
  exact within_and_left y x

/-- A bit that is left was there, and is none of those cleared. -/
theorem bit_of_clear (h : (x &&& ~~~y).getLsbD i = true) :
    x.getLsbD i = true ∧ y.getLsbD i = false := by
  rw [BitVec.getLsbD_and, BitVec.getLsbD_not] at h
  simp only [Bool.and_eq_true, Bool.not_eq_true', decide_eq_true_eq] at h
  exact ⟨h.1, h.2.2⟩

theorem bit_clear (hx : x.getLsbD i = true) (hy : y.getLsbD i = false) :
    (x &&& ~~~y).getLsbD i = true := by
  rw [BitVec.getLsbD_and, BitVec.getLsbD_not, hx, hy]
  simp [BitVec.lt_of_getLsbD hx]

end Within

end BitMask
