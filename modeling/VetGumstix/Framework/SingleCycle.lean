import Mathlib

/-! # Single Cycles Modulo Powers of Two

    A step on the natural numbers adds to `x` an increment `g x`.  If the low
    `w` bits of `x` fix the low `w + 1` bits of `g x`, the step acts on the
    residues modulo every power of two.  If moreover the increments over all
    residues modulo `2 ^ w` sum to an odd multiple of `2 ^ w`, then modulo
    every power of two that action is one single cycle.

    * `Increment.iterate_modEq_iff`: two iterates agree modulo `2 ^ w` exactly
      when their numbers of steps do.
    * `Increment.exists_iterate_modEq`: every residue is reached.

    The induction is on `w`.  Once around the cycle modulo `2 ^ w` the step
    has added every increment once, that is `2 ^ w` modulo `2 ^ (w + 1)`: bit
    `w` has changed, and the cycle closes only after a second round.
-/

namespace SingleCycle

open Finset

/-! ## Section 1: Cycles and increments -/

/-- From any start the iterates of `f`, as `view` shows them, run through all
    of `β` in one cycle of length `N`. -/
def Circulates {α β : Type} (f : α → α) (view : α → β) (N : ℕ) : Prop :=
  ∀ x, (∀ y, ∃ n < N, view (f^[n] x) = y) ∧
    ∀ n m, view (f^[n] x) = view (f^[m] x) ↔ n ≡ m [MOD N]

/-- One step before a full round is the way back. -/
theorem Circulates.bijective {α : Type} [Finite α] {f : α → α} {N : ℕ}
    (h : Circulates f id (N + 1)) : Function.Bijective f := by
  apply Finite.surjective_iff_bijective.mp
  intro y
  refine ⟨f^[N] y, ?_⟩
  have hround : f^[N + 1] y = f^[0] y := ((h y).2 (N + 1) 0).mpr (Nat.mod_self (N + 1))
  rwa [Function.iterate_succ_apply'] at hround

/-- What a step adds: it looks at one bit less than it determines, and over
    the residues modulo `2 ^ w` it comes to `2 ^ w`. -/
structure Increment (g : ℕ → ℕ) : Prop where
  narrow : ∀ {w x y : ℕ}, x ≡ y [MOD 2 ^ w] → g x ≡ g y [MOD 2 ^ (w + 1)]
  total  : ∀ w : ℕ, ∑ r ∈ range (2 ^ w), g r ≡ 2 ^ w [MOD 2 ^ (w + 1)]

/-- The step that adds the increment. -/
def advance (g : ℕ → ℕ) (x : ℕ) : ℕ := x + g x

variable {g : ℕ → ℕ}

theorem Increment.advance_congr (h : Increment g) {w x y : ℕ} (hxy : x ≡ y [MOD 2 ^ w]) :
    advance g x ≡ advance g y [MOD 2 ^ w] := by
  have hg : g x ≡ g y [MOD 2 ^ w] := (h.narrow hxy).of_dvd (pow_dvd_pow 2 w.le_succ)
  exact hxy.add hg

/-- An iterate has added one increment for each of its steps. -/
theorem iterate_eq_add_sum (g : ℕ → ℕ) (n x : ℕ) :
    (advance g)^[n] x = x + ∑ k ∈ range n, g ((advance g)^[k] x) := by
  induction n with
  | zero => simp
  | succ n ih =>
    rw [Function.iterate_succ_apply', sum_range_succ, ← add_assoc, ← ih]
    rfl

/-! ## Section 2: From one bit to the next -/

/-- The step closes its cycle modulo `2 ^ w` after every `2 ^ w` steps, and
    only then. -/
def Closes (g : ℕ → ℕ) (w : ℕ) : Prop :=
  ∀ x n, (advance g)^[n] x ≡ x [MOD 2 ^ w] ↔ 2 ^ w ∣ n

theorem Closes.iterate_modEq_iff {w : ℕ} (h : Closes g w) (x n m : ℕ) :
    (advance g)^[n] x ≡ (advance g)^[m] x [MOD 2 ^ w] ↔ n ≡ m [MOD 2 ^ w] := by
  wlog hle : m ≤ n generalizing n m
  · rw [Nat.ModEq.comm, this m n (by omega), Nat.ModEq.comm]
  -- the later iterate is an iterate of the earlier one
  obtain ⟨d, rfl⟩ := Nat.exists_eq_add_of_le' hle
  rw [Function.iterate_add_apply, h, Nat.ModEq.comm, Nat.modEq_iff_dvd' (Nat.le_add_left m d),
    Nat.add_sub_cancel]

theorem Closes.injOn_residues {w : ℕ} (h : Closes g w) (x : ℕ) :
    Set.InjOn (fun k => (advance g)^[k] x % 2 ^ w) (range (2 ^ w)) := by
  intro n hn m hm heq
  have hmod : n ≡ m [MOD 2 ^ w] := (h.iterate_modEq_iff x n m).mp heq
  exact hmod.eq_of_lt_of_lt (mem_range.mp hn) (mem_range.mp hm)

/-- The first `2 ^ w` iterates take every residue once. -/
theorem Closes.image_residues {w : ℕ} (h : Closes g w) (x : ℕ) :
    (range (2 ^ w)).image (fun k => (advance g)^[k] x % 2 ^ w) = range (2 ^ w) := by
  apply eq_of_subset_of_card_le
  · intro r hr
    obtain ⟨k, _, rfl⟩ := mem_image.mp hr
    exact mem_range.mpr (Nat.mod_lt _ (Nat.two_pow_pos w))
  · rw [card_image_of_injOn (h.injOn_residues x)]

/-- Once around the cycle, every residue has contributed its increment. -/
theorem Increment.sum_round (hg : Increment g) {w : ℕ} (h : Closes g w) (x : ℕ) :
    ∑ k ∈ range (2 ^ w), g ((advance g)^[k] x) ≡ ∑ r ∈ range (2 ^ w), g r [MOD 2 ^ (w + 1)] := by
  have hreduce : ∀ k, g ((advance g)^[k] x) ≡ g ((advance g)^[k] x % 2 ^ w) [MOD 2 ^ (w + 1)] := by
    intro k
    exact hg.narrow (Nat.mod_modEq _ _).symm
  calc ∑ k ∈ range (2 ^ w), g ((advance g)^[k] x)
      ≡ ∑ k ∈ range (2 ^ w), g ((advance g)^[k] x % 2 ^ w) [MOD 2 ^ (w + 1)] :=
        Nat.ModEq.sum fun k _ => hreduce k
    _ = ∑ r ∈ range (2 ^ w), g r := by
        conv_rhs => rw [← h.image_residues x]
        rw [sum_image (h.injOn_residues x)]

/-- `2 ^ w` steps change bit `w`. -/
theorem Increment.iterate_two_pow (hg : Increment g) {w : ℕ} (h : Closes g w) (x : ℕ) :
    (advance g)^[2 ^ w] x ≡ x + 2 ^ w [MOD 2 ^ (w + 1)] := by
  rw [iterate_eq_add_sum]
  exact ((hg.sum_round h x).trans (hg.total w)).add_left x

theorem Increment.iterate_two_pow_mul (hg : Increment g) {w : ℕ} (h : Closes g w) (x q : ℕ) :
    (advance g)^[2 ^ w * q] x ≡ x + 2 ^ w * q [MOD 2 ^ (w + 1)] := by
  induction q with
  | zero => exact Nat.ModEq.refl x
  | succ q ih =>
    have hsplit : 2 ^ w * (q + 1) = 2 ^ w + 2 ^ w * q := by ring
    rw [hsplit, Function.iterate_add_apply]
    calc (advance g)^[2 ^ w] ((advance g)^[2 ^ w * q] x)
        ≡ (advance g)^[2 ^ w * q] x + 2 ^ w [MOD 2 ^ (w + 1)] := hg.iterate_two_pow h _
      _ ≡ x + 2 ^ w * q + 2 ^ w [MOD 2 ^ (w + 1)] := ih.add_right _
      _ = x + (2 ^ w + 2 ^ w * q) := by ring

/-- The step closes its cycle one bit further on. -/
theorem Increment.closes_succ (hg : Increment g) {w : ℕ} (h : Closes g w) : Closes g (w + 1) := by
  intro x n
  constructor
  · intro hn
    -- the cycle modulo `2 ^ w` has closed, and each of its rounds changed bit `w`
    have hlow : (advance g)^[n] x ≡ x [MOD 2 ^ w] := hn.of_dvd (pow_dvd_pow 2 w.le_succ)
    obtain ⟨q, rfl⟩ := (h x n).mp hlow
    have hadd : x + 2 ^ w * q ≡ x + 0 [MOD 2 ^ (w + 1)] :=
      (hg.iterate_two_pow_mul h x q).symm.trans hn
    exact Nat.modEq_zero_iff_dvd.mp hadd.add_left_cancel'
  · rintro ⟨q, rfl⟩
    have hround := hg.iterate_two_pow_mul h x (2 * q)
    rw [← Nat.mul_assoc, ← pow_succ] at hround
    have hzero : 2 ^ (w + 1) * q ≡ 0 [MOD 2 ^ (w + 1)] :=
      Nat.modEq_zero_iff_dvd.mpr (Nat.dvd_mul_right _ q)
    exact hround.trans (hzero.add_left x)

/-! ## Section 3: Every power of two -/

theorem Increment.closes (hg : Increment g) (w : ℕ) : Closes g w := by
  induction w with
  | zero =>
    intro x n
    simp [Nat.modEq_one]
  | succ w ih => exact hg.closes_succ ih

/-- **One cycle, counted**: iterates agree modulo `2 ^ w` exactly when their
    numbers of steps do. -/
theorem Increment.iterate_modEq_iff (hg : Increment g) (w x n m : ℕ) :
    (advance g)^[n] x ≡ (advance g)^[m] x [MOD 2 ^ w] ↔ n ≡ m [MOD 2 ^ w] :=
  (hg.closes w).iterate_modEq_iff x n m

/-- **One cycle, covered**: every residue is reached within one round. -/
theorem Increment.exists_iterate_modEq (hg : Increment g) (w x y : ℕ) :
    ∃ n < 2 ^ w, (advance g)^[n] x ≡ y [MOD 2 ^ w] := by
  have hy : y % 2 ^ w ∈ range (2 ^ w) := mem_range.mpr (Nat.mod_lt y (Nat.two_pow_pos w))
  rw [← (hg.closes w).image_residues x] at hy
  obtain ⟨n, hn, heq⟩ := mem_image.mp hy
  exact ⟨n, mem_range.mp hn, heq⟩

end SingleCycle
