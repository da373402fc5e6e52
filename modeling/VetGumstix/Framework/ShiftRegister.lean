import Mathlib

/-! # Linear Feedback Shift Registers

    The register moves down one place at a time; the bit that falls out decides
    whether a fixed word, the polynomial, is added.  Addition is exclusive or,
    and every step is linear for it.  Two facts carry what is built on top:

    * linearity (`shifts_xor`), and
    * while the low bits are clear the register only moves down
      (`shifts_of_clear`), so that `n` steps of a word are the word moved down
      and `n` steps of its low `n` bits (`shifts_slice`).

    A table of the steps of all short words thus replaces the steps of a long
    one, in slices of any width.
-/

namespace ShiftRegister

variable {w : Nat}

/-! ## Section 1: Steps -/

/-- One step of the register `x` for the polynomial `p`. -/
def shift (p x : BitVec w) : BitVec w := (x >>> 1) ^^^ (if x.getLsbD 0 then p else 0#w)

/-- `n` steps. -/
def shifts (p : BitVec w) : Nat → BitVec w → BitVec w
  | 0, x     => x
  | n + 1, x => shifts p n (shift p x)

/-- A table of the steps of the words of `n` bits. -/
def IsTable (p : BitVec w) (n steps : Nat) (tab : Nat → BitVec w) : Prop :=
  ∀ i < 2 ^ n, tab i = shifts p steps (BitVec.ofNat w i)

variable {p : BitVec w}

theorem shifts_add (m n : Nat) (x : BitVec w) :
    shifts p (m + n) x = shifts p n (shifts p m x) := by
  induction m generalizing x with
  | zero => rw [Nat.zero_add, shifts]
  | succ m ih =>
    rw [Nat.succ_add, shifts, shifts]
    exact ih (shift p x)

theorem shifts_eq_iterate (n : Nat) (x : BitVec w) : shifts p n x = (shift p)^[n] x := by
  induction n generalizing x with
  | zero => rfl
  | succ n ih => rw [shifts, ih, Function.iterate_succ_apply]

/-- Rounds of `n` steps. -/
theorem iterate_shifts (m n : Nat) (x : BitVec w) : (shifts p n)^[m] x = shifts p (m * n) x := by
  induction m generalizing x with
  | zero => rw [Nat.zero_mul, Function.iterate_zero, shifts, id_eq]
  | succ m ih => rw [Function.iterate_succ_apply, ih, ← shifts_add, Nat.succ_mul, Nat.add_comm]

/-! ## Section 2: Linearity -/

theorem shift_xor (x y : BitVec w) : shift p (x ^^^ y) = shift p x ^^^ shift p y := by
  unfold shift
  rw [BitVec.ushiftRight_xor_distrib, BitVec.getLsbD_xor]
  -- the polynomial comes in twice and cancels, or once, or not at all
  cases x.getLsbD 0 with
  | false => cases y.getLsbD 0 <;> simp [BitVec.xor_assoc]
  | true =>
    cases y.getLsbD 0 with
    | false =>
      simp only [Bool.xor_false, if_true, Bool.false_eq_true, if_false]
      rw [BitVec.xor_assoc, BitVec.xor_comm (y >>> 1) p, BitVec.xor_zero, BitVec.xor_assoc]
    | true =>
      simp only [Bool.xor_self, Bool.false_eq_true, if_false, if_true]
      rw [BitVec.xor_zero, BitVec.xor_comm (y >>> 1) p, BitVec.xor_assoc, ← BitVec.xor_assoc p p,
        BitVec.xor_self, BitVec.zero_xor]

theorem shifts_xor (n : Nat) (x y : BitVec w) :
    shifts p n (x ^^^ y) = shifts p n x ^^^ shifts p n y := by
  induction n generalizing x y with
  | zero => rfl
  | succ n ih => rw [shifts, shifts, shifts, shift_xor, ih]

@[simp] theorem shifts_zero (n : Nat) : shifts p n 0#w = 0#w := by
  have h := shifts_xor (p := p) n 0#w 0#w
  rwa [BitVec.xor_self, BitVec.xor_self] at h

/-! ## Section 3: Clear low bits -/

/-- As long as nothing but zeros falls out, the register only moves down. -/
theorem shifts_of_clear {n : Nat} {x : BitVec w} (h : ∀ i < n, x.getLsbD i = false) :
    shifts p n x = x >>> n := by
  induction n generalizing x with
  | zero => rw [shifts, BitVec.ushiftRight_zero]
  | succ n ih =>
    have hzero : x.getLsbD 0 = false := h 0 (Nat.succ_pos n)
    have hshift : shift p x = x >>> 1 := by
      unfold shift
      rw [hzero]
      exact BitVec.xor_zero
    have hclear : ∀ i < n, (x >>> 1).getLsbD i = false := by
      intro i hi
      rw [BitVec.getLsbD_ushiftRight]
      exact h (1 + i) (by omega)
    rw [shifts, hshift, ih hclear, Nat.add_comm, BitVec.shiftRight_add]

/-- A word is its low `n` bits and the rest. -/
theorem split_low (n : Nat) (x : BitVec w) :
    x = (x >>> n) <<< n ^^^ BitVec.ofNat w (x.toNat % 2 ^ n) := by
  apply BitVec.eq_of_getLsbD_eq
  intro i hi
  rw [BitVec.getLsbD_xor, BitVec.getLsbD_shiftLeft, BitVec.getLsbD_ushiftRight,
    BitVec.getLsbD_ofNat, Nat.testBit_mod_two_pow]
  by_cases hlow : i < n
  · simp [hlow, hi, BitVec.getLsbD]
  · have hsum : n + (i - n) = i := by omega
    simp [hlow, hi, hsum]

/-- **A slice**: `n` steps of a word are the word moved down, and the steps of
    its low `n` bits. -/
theorem shifts_slice (n : Nat) (x : BitVec w) :
    shifts p n x = (x >>> n) ^^^ shifts p n (BitVec.ofNat w (x.toNat % 2 ^ n)) := by
  have hclear : ∀ i < n, ((x >>> n) <<< n).getLsbD i = false := by
    intro i hi
    simp [hi]
  have hdown : ((x >>> n) <<< n) >>> n = x >>> n := by
    apply BitVec.eq_of_getLsbD_eq
    intro i hi
    rw [BitVec.getLsbD_ushiftRight, BitVec.getLsbD_shiftLeft, BitVec.getLsbD_ushiftRight]
    by_cases hin : n + i < w
    · simp [hin]
    · simp [hin, BitVec.getLsbD_of_ge x (n + i) (by omega)]
  conv_lhs => rw [split_low n x, shifts_xor, shifts_of_clear hclear, hdown]

/-- The low bits go their own way through all the steps. -/
theorem shifts_peel (n m : Nat) (x : BitVec w) :
    shifts p (n + m) x =
      shifts p m (x >>> n) ^^^ shifts p (n + m) (BitVec.ofNat w (x.toNat % 2 ^ n)) := by
  rw [shifts_add, shifts_slice n x, shifts_xor, ← shifts_add]

theorem IsTable.slice {n : Nat} {tab : Nat → BitVec w} (h : IsTable p n n tab) (x : BitVec w) :
    shifts p n x = (x >>> n) ^^^ tab (x.toNat % 2 ^ n) := by
  rw [shifts_slice, h _ (Nat.mod_lt _ (Nat.two_pow_pos n))]

theorem IsTable.peel {n m : Nat} {tab : Nat → BitVec w} (h : IsTable p n (n + m) tab)
    (x : BitVec w) : shifts p (n + m) x = shifts p m (x >>> n) ^^^ tab (x.toNat % 2 ^ n) := by
  rw [shifts_peel, h _ (Nat.mod_lt _ (Nat.two_pow_pos n))]

/-- A word that is fed in later may be fed in now, further up. -/
theorem shifts_feed_later {m n : Nat} {x b : BitVec w} (hb : b.toNat * 2 ^ m < 2 ^ w) :
    shifts p n (shifts p m x ^^^ b) = shifts p (m + n) (x ^^^ b <<< m) := by
  have hclear : ∀ i < m, (b <<< m).getLsbD i = false := by
    intro i hi
    simp [hi]
  have hdown : (b <<< m) >>> m = b := by
    apply BitVec.eq_of_toNat_eq
    rw [BitVec.toNat_ushiftRight, BitVec.toNat_shiftLeft, Nat.shiftLeft_eq,
      Nat.mod_eq_of_lt hb, Nat.shiftRight_eq_div_pow]
    exact Nat.mul_div_cancel _ (Nat.two_pow_pos m)
  have hfed : shifts p m (b <<< m) = b := (shifts_of_clear hclear).trans hdown
  rw [shifts_add, shifts_xor m, hfed]

/-! ## Section 4: Tables by doubling -/

theorem ofNat_add_eq_xor {i j m : Nat} (hi : i < 2 ^ m) (hj : 2 ^ m ∣ j) :
    BitVec.ofNat w (i + j) = BitVec.ofNat w i ^^^ BitVec.ofNat w j := by
  obtain ⟨k, rfl⟩ := hj
  apply BitVec.eq_of_getLsbD_eq
  intro b hb
  simp only [BitVec.getLsbD_xor, BitVec.getLsbD_ofNat, hb, decide_true, Bool.true_and]
  rw [Nat.add_comm, Nat.testBit_two_pow_mul_add k hi, Nat.testBit_two_pow_mul]
  by_cases hlow : b < m
  · simp [hlow, Nat.not_le.mpr hlow]
  · have hhigh : i.testBit b = false :=
      Nat.testBit_lt_two_pow (lt_of_lt_of_le hi (Nat.pow_le_pow_right (by omega) (by omega)))
    simp [hlow, hhigh, Nat.not_lt.mp hlow]

/-- The steps of a power of two: it moves down to one first. -/
theorem shifts_two_pow {m k : Nat} (h : m < w) :
    shifts p (m + k) (BitVec.ofNat w (2 ^ m)) = shifts p k 1#w := by
  have hclear : ∀ i < m, (BitVec.ofNat w (2 ^ m)).getLsbD i = false := by
    intro i hi
    rw [BitVec.getLsbD_ofNat, Nat.testBit_two_pow_of_ne (by omega), Bool.and_false]
  have hone : BitVec.ofNat w (2 ^ m) >>> m = 1#w := by
    apply BitVec.eq_of_toNat_eq
    rw [BitVec.toNat_ushiftRight, BitVec.toNat_ofNat, BitVec.toNat_ofNat,
      Nat.mod_eq_of_lt (Nat.pow_lt_pow_right (by omega) h), Nat.shiftRight_eq_div_pow,
      Nat.div_self (Nat.two_pow_pos m), Nat.mod_eq_of_lt (Nat.one_lt_two_pow (by omega))]
  rw [shifts_add, shifts_of_clear hclear, hone]

/-- **An odd multiple of a power of two** from the multiple below it. -/
theorem shifts_two_pow_add {m k j : Nat} (h : m < w) (hj : 2 ^ (m + 1) ∣ j) :
    shifts p (m + k) (BitVec.ofNat w (2 ^ m + j)) =
      shifts p k 1#w ^^^ shifts p (m + k) (BitVec.ofNat w j) := by
  have hlt : 2 ^ m < 2 ^ (m + 1) := Nat.pow_lt_pow_right (by omega) (Nat.lt_succ_self m)
  rw [ofNat_add_eq_xor hlt hj, shifts_xor, shifts_two_pow h]

end ShiftRegister
