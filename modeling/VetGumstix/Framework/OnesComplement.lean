import VetGumstix.Framework.Bytes

/-! # One's Complement Sums

    The arithmetic behind the Internet checksum.  A sum of 16-bit words is
    folded by adding its carries back in: the result is the sum modulo 65535,
    with 65535 instead of 0 for a sum that is not 0.

    A buffer verifies when the sum of its words, in network byte order, folds
    to 65535.  Taking the words in the other byte order multiplies the sum by
    256 modulo 65535, so it makes no difference to verification.
-/

namespace OnesComplement

open Bytes

/-! ## Section 1: Folding -/

/-- A sum with its carries added back in. -/
def fold (s : Nat) : Nat := if s = 0 then 0 else (s - 1) % 65535 + 1

/-- Two additions of the upper half fold any sum of 32 bits. -/
theorem fold_halves {s t : Nat} (hs : s < 2 ^ 32) (ht : t = s / 65536 + s % 65536) :
    (t + t / 65536) % 65536 = fold s := by
  by_cases h0 : s = 0
  · subst h0
    simp [fold, ht]
  · -- `65536 * h + l` is `h + l` modulo 65535
    have hpred : s - 1 = (t - 1) + 65535 * (s / 65536) := by omega
    have htpos : 0 < t := by omega
    have htle : t ≤ 131070 := by omega
    rw [fold, if_neg h0, hpred, Nat.add_mul_mod_self_left]
    by_cases hsmall : t < 65536
    · rw [Nat.div_eq_of_lt hsmall]
      omega
    · have hdiv : t / 65536 = 1 := by omega
      rw [hdiv]
      omega

theorem fold_eq_max_iff (s : Nat) : fold s = 65535 ↔ s ≠ 0 ∧ s % 65535 = 0 := by
  unfold fold
  split <;> omega

/-- A sum and the complement of what it folds to. -/
theorem fold_add_complement (s : Nat) : fold (s + (65535 - fold s)) = 65535 := by
  rw [fold_eq_max_iff]
  unfold fold
  split <;> omega

/-- Addition with the carry out of 16 bits added back in. -/
def endAround (a b : Nat) : Nat := (a + b) % 65536 + (a + b) / 65536

/-- The one's complement sum of 16-bit words. -/
def onesSum (ws : List Nat) : Nat := ws.foldr endAround 0

theorem fold_lt (s : Nat) : fold s < 65536 := by
  unfold fold
  split <;> omega

theorem endAround_fold {a : Nat} (ha : a < 65536) (s : Nat) :
    endAround a (fold s) = fold (a + s) := by
  unfold endAround fold
  split
  · next hs =>
    subst hs
    split <;> omega
  · rw [if_neg (by omega)]
    omega

/-- The carries can be added back in one by one, or all at the end. -/
theorem onesSum_eq_fold {ws : List Nat} (h : ∀ w ∈ ws, w < 65536) : onesSum ws = fold ws.sum := by
  induction ws with
  | nil => rfl
  | cons w ws ih =>
    have hws := ih fun x hx => h x (List.mem_cons_of_mem w hx)
    rw [List.sum_cons, ← endAround_fold (h w List.mem_cons_self), ← hws]
    rfl

/-! ## Section 2: Sums of buffers -/

/-- The sum of the words of a buffer, low byte first. -/
def leSum : List Byte → Nat
  | b0 :: b1 :: l => b0.toNat + 256 * b1.toNat + leSum l
  | [b0] => b0.toNat
  | [] => 0

/-- The sum of the words in network byte order. -/
def beSum : List Byte → Nat
  | b0 :: b1 :: l => 256 * b0.toNat + b1.toNat + beSum l
  | [b0] => 256 * b0.toNat
  | [] => 0

/-- The words of a buffer; a byte left over is padded with a zero. -/
def words (join : Byte → Byte → Nat) : List Byte → List Nat
  | b0 :: b1 :: l => join b0 b1 :: words join l
  | [b0] => [join b0 0]
  | [] => []

/-- The words, low byte first. -/
def leWords : List Byte → List Nat := words fun b0 b1 => b0.toNat + 256 * b1.toNat

/-- The words in network byte order. -/
def beWords : List Byte → List Nat := words fun b0 b1 => 256 * b0.toNat + b1.toNat

/-- The checksum of a buffer is right. -/
def Verifies (l : List Byte) : Prop := fold (beSum l) = 65535

instance (l : List Byte) : Decidable (Verifies l) := inferInstanceAs (Decidable (_ = _))

theorem leWords_sum (l : List Byte) : (leWords l).sum = leSum l := by
  unfold leWords
  induction l using leSum.induct with
  | case1 b0 b1 l ih => simp [words, leSum, ih]
  | case2 b0 => simp [words, leSum]
  | case3 => rfl

theorem beWords_sum (l : List Byte) : (beWords l).sum = beSum l := by
  unfold beWords
  induction l using beSum.induct with
  | case1 b0 b1 l ih => simp [words, beSum, ih]
  | case2 b0 => simp [words, beSum]
  | case3 => rfl

theorem words_lt {join : Byte → Byte → Nat} (h : ∀ b0 b1, join b0 b1 < 65536) (l : List Byte) :
    ∀ w ∈ words join l, w < 65536 := by
  induction l using words.induct with
  | case1 b0 b1 l ih =>
    simp only [words, List.mem_cons]
    rintro w (rfl | hw)
    · exact h b0 b1
    · exact ih w hw
  | case2 b0 =>
    simp only [words, List.mem_singleton]
    rintro w rfl
    exact h b0 0
  | case3 => simp [words]

theorem onesSum_leWords (l : List Byte) : onesSum (leWords l) = fold (leSum l) := by
  have hlt : ∀ w ∈ leWords l, w < 65536 := words_lt (fun b0 b1 => by omega) l
  rw [onesSum_eq_fold hlt, leWords_sum]

theorem verifies_iff_onesSum (l : List Byte) : Verifies l ↔ onesSum (beWords l) = 65535 := by
  have hlt : ∀ w ∈ beWords l, w < 65536 := words_lt (fun b0 b1 => by omega) l
  rw [onesSum_eq_fold hlt, beWords_sum]
  rfl

theorem leSum_append {l l' : List Byte} (h : l.length % 2 = 0) :
    leSum (l ++ l') = leSum l + leSum l' := by
  induction l using leSum.induct with
  | case1 b0 b1 l ih =>
    have heven : l.length % 2 = 0 := by
      simp only [List.length_cons] at h
      omega
    simp only [List.cons_append, leSum, ih heven]
    omega
  | case2 b0 => simp at h
  | case3 => simp [leSum]

theorem beSum_append {l l' : List Byte} (h : l.length % 2 = 0) :
    beSum (l ++ l') = beSum l + beSum l' := by
  induction l using beSum.induct with
  | case1 b0 b1 l ih =>
    have heven : l.length % 2 = 0 := by
      simp only [List.length_cons] at h
      omega
    simp only [List.cons_append, beSum, ih heven]
    omega
  | case2 b0 => simp at h
  | case3 => simp [beSum]

theorem leSum_le (l : List Byte) : leSum l ≤ 65535 * ((l.length + 1) / 2) := by
  induction l using leSum.induct with
  | case1 b0 b1 l ih =>
    have h0 := b0.isLt
    have h1 := b1.isLt
    simp only [leSum, List.length_cons]
    omega
  | case2 b0 =>
    have h0 := b0.isLt
    simp [leSum]
    omega
  | case3 => simp [leSum]

/-- Swapping the bytes of every word multiplies the sum by 256. -/
theorem beSum_mod (l : List Byte) : beSum l % 65535 = 256 * leSum l % 65535 := by
  induction l using leSum.induct with
  | case1 b0 b1 l ih =>
    simp only [leSum, beSum]
    omega
  | case2 b0 => simp [leSum, beSum]
  | case3 => rfl

theorem beSum_eq_zero_iff (l : List Byte) : beSum l = 0 ↔ leSum l = 0 := by
  induction l using leSum.induct with
  | case1 b0 b1 l ih =>
    simp only [leSum, beSum]
    omega
  | case2 b0 =>
    simp only [leSum, beSum]
    omega
  | case3 => rfl

/-- Verification does not depend on the byte order. -/
theorem verifies_iff (l : List Byte) : Verifies l ↔ fold (leSum l) = 65535 := by
  have hmod := beSum_mod l
  have hzero := beSum_eq_zero_iff l
  rw [Verifies, fold_eq_max_iff, fold_eq_max_iff]
  omega

end OnesComplement
