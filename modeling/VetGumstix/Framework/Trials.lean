import Mathlib

/-! # Trials

    A trial makes a state out of an input and either keeps it or undoes it.
    The inputs that were undone can be left out: a run over the kept inputs
    alone ends in the same state.
-/

/-- Trials of inputs `α` on states `σ`. -/
structure Trials (σ α : Type*) where
  step  : σ → α → σ
  keeps : σ → α → Bool
  undo  : ∀ s a, keeps s a = false → step s a = s

namespace Trials

variable {σ α : Type*} (T : Trials σ α)

def run (s : σ) (as : List α) : σ := as.foldl T.step s

/-- The inputs of a run that are kept. -/
def kept (s : σ) : List α → List α
  | []      => []
  | a :: as => if T.keeps s a then a :: kept (T.step s a) as else kept (T.step s a) as

theorem run_concat (s : σ) (as : List α) (a : α) :
    T.run s (as ++ [a]) = T.step (T.run s as) a := by
  simp [run]

theorem kept_concat (s : σ) (as : List α) (a : α) :
    T.kept s (as ++ [a]) = T.kept s as ++ if T.keeps (T.run s as) a then [a] else [] := by
  induction as generalizing s with
  | nil => rfl
  | cons b as ih =>
    simp only [List.cons_append, kept, ih]
    split <;> rfl

theorem kept_length_le (s : σ) (as : List α) : (T.kept s as).length ≤ as.length := by
  induction as generalizing s with
  | nil => exact Nat.le_refl 0
  | cons a as ih =>
    have hle := ih (T.step s a)
    unfold kept
    split <;> simp only [List.length_cons] <;> omega

/-- **What was undone can be left out.** -/
theorem run_kept (s : σ) (as : List α) : T.run s (T.kept s as) = T.run s as := by
  induction as generalizing s with
  | nil => rfl
  | cons a as ih =>
    have hrun : T.run s (a :: as) = T.run (T.step s a) as := rfl
    rw [hrun, ← ih (T.step s a), kept]
    cases h : T.keeps s a with
    | true => rfl
    | false => simp only [T.undo s a h, Bool.false_eq_true, if_false]

/-- A counter of the kept inputs. -/
theorem counter_run {c : σ → Nat}
    (hkeep : ∀ s a, T.keeps s a = true → c (T.step s a) = c s + 1) (s : σ) (as : List α) :
    c (T.run s as) = c s + (T.kept s as).length := by
  induction as generalizing s with
  | nil => rfl
  | cons a as ih =>
    have hrun : T.run s (a :: as) = T.run (T.step s a) as := rfl
    rw [hrun, ih, kept]
    cases h : T.keeps s a with
    | true =>
      rw [hkeep s a h, if_pos rfl, List.length_cons]
      omega
    | false =>
      rw [T.undo s a h]
      rfl

end Trials
