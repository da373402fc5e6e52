import VetGumstix.Framework.SingleCycle
import VetGumstix.Swatt.Checksum

/-! # The T Function

    Every block starts with `muls r11,r10,r10; orr r11,r11,#5; add r10,r10,r11`,
    the step `x + (x * x or 5)` of the pseudo-code.  Over the natural numbers
    it adds `x * x or 5` to `x`; this increment satisfies the conditions of
    `SingleCycle`, so that modulo every power of two the step runs through all
    residues in one cycle.  `t_function_single_cycle` carries that over to the
    32-bit words the code works on and to their low bits.
-/

namespace Swatt

open Arm SingleCycle Finset

/-! ## Section 1: The increment -/

/-- `x^2 or 5`, without a bound on the width. -/
def squareOrFive (x : ℕ) : ℕ := x * x ||| 5

/-- The or with 5 looks at the three low bits. -/
theorem or_five_add (a b : ℕ) : (a + 8 * b) ||| 5 = (a ||| 5) + 8 * b := by
  have hdiv : ∀ n : ℕ, (n ||| 5) / 2 ^ 3 = n / 2 ^ 3 := by
    intro n
    rw [Nat.or_div_two_pow]
    exact Nat.or_zero _
  have hmod : ∀ n : ℕ, (n ||| 5) % 2 ^ 3 = n % 2 ^ 3 ||| 5 := by
    intro n
    rw [Nat.or_mod_two_pow]
  have hq : (a + 8 * b) / 2 ^ 3 = a / 2 ^ 3 + b := Nat.add_mul_div_left a b (by norm_num)
  have hr : (a + 8 * b) % 2 ^ 3 = a % 2 ^ 3 := Nat.add_mul_mod_self_left a 8 b
  rw [← Nat.div_add_mod ((a + 8 * b) ||| 5) (2 ^ 3), hdiv, hmod, hq, hr, Nat.mul_add,
    ← hmod, ← hdiv]
  have hsplit := Nat.div_add_mod (a ||| 5) (2 ^ 3)
  omega

theorem or_five_congr {w a b : ℕ} (h : a ≡ b [MOD 2 ^ w]) : a ||| 5 ≡ b ||| 5 [MOD 2 ^ w] := by
  unfold Nat.ModEq at h ⊢
  rw [Nat.or_mod_two_pow, Nat.or_mod_two_pow, h]

/-- Squaring gains a bit, except that nothing is known of the lowest one; the
    or with 5 sets that. -/
theorem squareOrFive_narrow {w x y : ℕ} (h : x ≡ y [MOD 2 ^ w]) :
    squareOrFive x ≡ squareOrFive y [MOD 2 ^ (w + 1)] := by
  by_cases hw : w = 0
  · subst hw
    have hodd : ∀ n : ℕ, (n ||| 5) % 2 ^ 1 = 1 := by
      intro n
      rw [Nat.or_mod_two_pow]
      have hbit : n % 2 ^ 1 = 0 ∨ n % 2 ^ 1 = 1 := by omega
      rcases hbit with h0 | h1
      · rw [h0]
        rfl
      · rw [h1]
        rfl
    exact (hodd _).trans (hodd _).symm
  · apply or_five_congr
    -- the difference of the squares is `(x - y) * (x + y)`, both factors even
    have hdiff : (2 ^ w : ℤ) ∣ (y : ℤ) - x := by
      have := (Nat.modEq_iff_dvd).mp h
      push_cast at this
      exact this
    have heven : (2 : ℤ) ∣ y + x := by
      have htwo : (2 : ℤ) ∣ (y : ℤ) - x := (dvd_pow_self 2 hw).trans hdiff
      omega
    rw [Nat.modEq_iff_dvd]
    push_cast
    rw [pow_succ, mul_self_sub_mul_self, mul_comm ((y : ℤ) + x)]
    exact mul_dvd_mul hdiff heven

/-- The increments of the upper half of the residues, from those of the lower
    half. -/
theorem squareOrFive_add_two_pow (w r : ℕ) :
    squareOrFive (2 ^ (w + 3) + r) =
      squareOrFive r + 2 ^ (w + 3) * (2 * r) + 2 ^ (w + 3) * 2 ^ (w + 3) := by
  have hsquare : (2 ^ (w + 3) + r) * (2 ^ (w + 3) + r) =
      r * r + 8 * (2 ^ w * (2 * r) + 2 ^ w * 2 ^ (w + 3)) := by ring
  unfold squareOrFive
  rw [hsquare, or_five_add]
  ring

/-- Doubling the range of the residues doubles the sum of the increments, up
    to a multiple of a higher power. -/
theorem sum_squareOrFive_double (w : ℕ) :
    ∑ r ∈ range (2 ^ (w + 4)), squareOrFive r ≡
      2 * ∑ r ∈ range (2 ^ (w + 3)), squareOrFive r [MOD 2 ^ (w + 5)] := by
  have hcross : 2 ^ (w + 5) ∣ ∑ r ∈ range (2 ^ (w + 3)), 2 ^ (w + 3) * (2 * r) := by
    rw [← mul_sum, ← mul_sum]
    -- `2 * ∑ r = n * (n - 1)`
    rw [mul_comm 2, sum_range_id_mul_two, ← mul_assoc, ← pow_add]
    exact (pow_dvd_pow 2 (by omega)).mul_right _
  have hsquare : 2 ^ (w + 5) ∣ ∑ _r ∈ range (2 ^ (w + 3)), 2 ^ (w + 3) * 2 ^ (w + 3) := by
    rw [sum_const, card_range, smul_eq_mul, ← pow_add, ← pow_add]
    exact pow_dvd_pow 2 (by omega)
  have hrange : 2 ^ (w + 4) = 2 ^ (w + 3) + 2 ^ (w + 3) := by ring
  rw [hrange, sum_range_add, sum_congr rfl fun r _ => squareOrFive_add_two_pow w r,
    sum_add_distrib, sum_add_distrib, two_mul, add_assoc]
  refine Nat.ModEq.add_left _ ?_
  exact (Nat.modEq_zero_iff_dvd.mpr (hcross.add hsquare)).add_left _

theorem squareOrFive_total (w : ℕ) :
    ∑ r ∈ range (2 ^ w), squareOrFive r ≡ 2 ^ w [MOD 2 ^ (w + 1)] := by
  -- from eight residues on the sums double
  match w with
  | 0 | 1 | 2 => decide
  | w + 3 =>
    induction w with
    | zero => decide
    | succ w ih =>
      have hdouble := ih.mul_left' 2
      rw [← pow_succ', ← pow_succ'] at hdouble
      exact (sum_squareOrFive_double w).trans hdouble

theorem increment_squareOrFive : Increment squareOrFive :=
  ⟨squareOrFive_narrow, squareOrFive_total⟩

/-! ## Section 2: The words -/

theorem toNat_tFunction (x : Word) :
    (tFunction x).toNat ≡ advance squareOrFive x.toNat [MOD 2 ^ 32] := by
  have hsquare : (x * x).toNat ≡ x.toNat * x.toNat [MOD 2 ^ 32] := by
    rw [BitVec.toNat_mul]
    exact Nat.mod_modEq _ _
  calc (tFunction x).toNat
      ≡ x.toNat + (x * x ||| 5).toNat [MOD 2 ^ 32] := by
        rw [tFunction, BitVec.toNat_add]
        exact Nat.mod_modEq _ _
    _ = x.toNat + ((x * x).toNat ||| 5) := by rw [BitVec.toNat_or]; rfl
    _ ≡ advance squareOrFive x.toNat [MOD 2 ^ 32] := (or_five_congr hsquare).add_left _

theorem toNat_iterate_tFunction (n : ℕ) (x : Word) :
    (tFunction^[n] x).toNat ≡ (advance squareOrFive)^[n] x.toNat [MOD 2 ^ 32] := by
  induction n with
  | zero => exact Nat.ModEq.refl _
  | succ n ih =>
    rw [Function.iterate_succ_apply', Function.iterate_succ_apply']
    exact (toNat_tFunction _).trans (increment_squareOrFive.advance_congr ih)

theorem setWidth_eq_iff {w : ℕ} {x y : Word} :
    x.setWidth w = y.setWidth w ↔ x.toNat ≡ y.toNat [MOD 2 ^ w] := by
  rw [← BitVec.toNat_inj, BitVec.toNat_setWidth, BitVec.toNat_setWidth]
  rfl

section low

variable {w : ℕ} (hw : w ≤ 32)

include hw

/-- The low bits of an iterate, computed without the bound of 32 bits. -/
theorem toNat_iterate_low (n : ℕ) (x : Word) :
    (tFunction^[n] x).toNat ≡ (advance squareOrFive)^[n] x.toNat [MOD 2 ^ w] :=
  (toNat_iterate_tFunction n x).of_dvd (pow_dvd_pow 2 hw)

/-- The low bits of a step depend on no others. -/
theorem tFunction_low_congr {x y : Word} (h : x.setWidth w = y.setWidth w) :
    (tFunction x).setWidth w = (tFunction y).setWidth w := by
  rw [setWidth_eq_iff] at h ⊢
  have hx := toNat_iterate_low hw 1 x
  have hy := toNat_iterate_low hw 1 y
  exact (hx.trans (increment_squareOrFive.advance_congr h)).trans hy.symm

/-- **One cycle** through the low bits. -/
theorem circulates_low : Circulates tFunction (BitVec.setWidth w) (2 ^ w) := by
  intro x
  constructor
  · intro r
    obtain ⟨n, hlt, hn⟩ := increment_squareOrFive.exists_iterate_modEq w x.toNat r.toNat
    refine ⟨n, hlt, ?_⟩
    have hmod := (toNat_iterate_low hw n x).trans hn
    apply BitVec.eq_of_toNat_eq
    rw [BitVec.toNat_setWidth, hmod, Nat.mod_eq_of_lt r.isLt]
  · intro n m
    have hn := toNat_iterate_low hw n x
    have hm := toNat_iterate_low hw m x
    rw [setWidth_eq_iff, ← increment_squareOrFive.iterate_modEq_iff w x.toNat n m]
    exact ⟨fun h => (hn.symm.trans h).trans hm, fun h => (hn.trans h).trans hm.symm⟩

end low

/-- All 32 bits are the word. -/
theorem circulates_word : Circulates tFunction id (2 ^ 32) := by
  have hlow := circulates_low (Nat.le_refl 32)
  have hview : (BitVec.setWidth 32 : Word → Word) = id := by
    funext x
    exact BitVec.setWidth_eq x
  rwa [hview] at hlow

/-! ## Section 3: The code -/

/-- The first three instructions of a block. -/
theorem exec_step_tFunction (i : Fin 8) (a : Word) (s : Cpu) :
    (execAll a ((blockCode i).take 3) s).r 10 = tFunction (s.r 10) := by
  have hcode : (blockCode i).take 3 = tFunc.take 3 := rfl
  rw [hcode]
  simp [tFunc, execAll, Instr.exec, Operand.value, LogicOp.value, ArithOp.sum, Cond.holds,
    addWithCarry, tFunction]

/-- **The step of `x` is one single cycle.**  Every block takes it with its
    first three instructions; it is a permutation of the words, a cycle of
    length `2 ^ 32`, and its low `w` bits, which depend on no others, go
    through a cycle of length `2 ^ w`. -/
theorem t_function_single_cycle :
    (∀ (i : Fin 8) (a : Word) (s : Cpu),
      (execAll a ((blockCode i).take 3) s).r 10 = tFunction (s.r 10)) ∧
    Function.Bijective tFunction ∧ Circulates tFunction id (2 ^ 32) ∧
    ∀ w ≤ 32,
      (∀ x y : Word, x.setWidth w = y.setWidth w →
        (tFunction x).setWidth w = (tFunction y).setWidth w) ∧
      Circulates tFunction (BitVec.setWidth w) (2 ^ w) := by
  refine ⟨exec_step_tFunction, circulates_word.bijective, circulates_word, ?_⟩
  intro w hw
  exact ⟨fun x y h => tFunction_low_congr hw h, circulates_low hw⟩

/-- The low byte goes through a cycle of 256, and 7 and `0x507` are at the same
    place of it. -/
theorem t_function_low_byte :
    Circulates tFunction (BitVec.setWidth 8) 256 ∧
      (tFunction 7).setWidth 8 = (tFunction 0x507).setWidth 8 := by
  obtain ⟨hcongr, hcycle⟩ := t_function_single_cycle.2.2.2 8 (by decide)
  exact ⟨hcycle, hcongr 7 0x507 (by decide)⟩

end Swatt
