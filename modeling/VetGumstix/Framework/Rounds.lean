import VetGumstix.Framework.Machine

/-! # Machines that Work in Rounds

    A machine works in rounds when, from the start `s` of a round, it visits
    the states `body s`, closes the round in `close s` and steps to `next s`:
    the start of another round, of smaller measure, or a last state, one step
    away from halting.  A whole run is then a sequence of rounds.

    * `Rounds.run`: the rounds of a halting run, from the first to the last.
    * `roundStates_closes`, `roundStates_of_tag`: the closing states of a run,
      and the states of one of its rounds, picked out of the run.
-/

namespace Machine

universe u

variable {σ : Type u}

/-! ## Section 1: Rounds -/

/-- The machine works in rounds, and `μ` bounds their number. -/
structure Rounds (step : σ → Option σ) (Start Last : σ → Prop) (body : σ → List σ)
    (close next : σ → σ) (μ : σ → Nat) : Prop where
  round : ∀ s, Start s → Steps step s (body s ++ [close s]) (next s)
  again : ∀ s, Start s → (Start (next s) ∧ μ (next s) < μ s) ∨ Last (next s)
  last  : ∀ s, Last s → ∃ t, step s = some t ∧ step t = none

/-- The states of the first `n` rounds from `s`. -/
def roundStates (body : σ → List σ) (close next : σ → σ) (n : Nat) (s : σ) : List σ :=
  (List.range n).flatMap fun i => body (next^[i] s) ++ [close (next^[i] s)]

variable {step : σ → Option σ} {Start Last : σ → Prop} {body : σ → List σ} {close next : σ → σ}
  {μ : σ → Nat}

theorem roundStates_cons (n : Nat) (s : σ) :
    roundStates body close next (n + 1) s =
      body s ++ [close s] ++ roundStates body close next n (next s) := by
  unfold roundStates
  rw [List.range_succ_eq_map, List.flatMap_cons, List.flatMap_map]
  rfl

theorem roundStates_length (close next : σ → σ) {ℓ : Nat} (hbody : ∀ s, (body s).length ≤ ℓ)
    (n : Nat) (s : σ) :
    (roundStates body close next n s).length ≤ (ℓ + 1) * n := by
  induction n generalizing s with
  | zero => simp [roundStates]
  | succ n ih =>
    have hrest := ih (next s)
    have hfirst := hbody s
    rw [roundStates_cons, Nat.mul_succ]
    simp only [List.length_append, List.length_singleton]
    omega

/-- **The rounds of a run**, up to the halted state: the starts of the rounds
    are the iterates of `next`.  The induction is on the measure. -/
theorem Rounds.run (h : Rounds step Start Last body close next μ) {s : σ} (hs : Start s) :
    ∃ n t, (∀ i ≤ n, Start (next^[i] s) ∧ μ (next^[i] s) + i ≤ μ s) ∧
      Steps step s (roundStates body close next (n + 1) s ++ [next^[n + 1] s]) t ∧
      Last (next^[n + 1] s) ∧ step (next^[n + 1] s) = some t ∧ step t = none := by
  induction hm : μ s using Nat.strongRecOn generalizing s with
  | ind m ih =>
    have hround := h.round s hs
    rcases h.again s hs with ⟨hnext, hlt⟩ | hlast
    · obtain ⟨n, t, hall, hsteps, hend⟩ := ih (μ (next s)) (hm ▸ hlt) hnext rfl
      refine ⟨n + 1, t, ?_, ?_, hend⟩
      · intro i hi
        cases i with
        | zero => exact ⟨hs, by simp [hm]⟩
        | succ i =>
          obtain ⟨hstart, hle⟩ := hall i (by omega)
          refine ⟨hstart, ?_⟩
          rw [Function.iterate_succ_apply]
          omega
      · rw [roundStates_cons, List.append_assoc]
        exact hround.append hsteps
    · obtain ⟨t, hstep, hnone⟩ := h.last _ hlast
      refine ⟨0, t, ?_, ?_, hlast, hstep, hnone⟩
      · intro i hi
        obtain rfl : i = 0 := by omega
        exact ⟨hs, by simp [hm]⟩
      · rw [roundStates_cons]
        exact (hround.append (.nil _)).append (.single hstep)

/-! ## Section 2: Parts of a run -/

/-- The closing states are those of the rounds. -/
theorem roundStates_closes (body : σ → List σ) (close next : σ → σ) (mark : σ → Bool) (s : σ)
    (n : Nat)
    (hbody : ∀ i < n, ∀ x ∈ body (next^[i] s), mark x = false)
    (hclose : ∀ i < n, mark (close (next^[i] s)) = true) :
    (roundStates body close next n s).filter mark =
      (List.range n).map fun i => close (next^[i] s) := by
  induction n with
  | zero => rfl
  | succ n ih =>
    have hlast : (body (next^[n] s) ++ [close (next^[n] s)]).filter mark =
        [close (next^[n] s)] := by
      rw [List.filter_append, List.filter_eq_nil_iff.mpr]
      · simp [hclose n (Nat.lt_succ_self n)]
      · intro x hx
        simp [hbody n (Nat.lt_succ_self n) x hx]
    unfold roundStates at ih ⊢
    rw [List.range_succ, List.flatMap_append, List.filter_append, List.map_append,
      ih (fun i hi => hbody i (Nat.lt_succ_of_lt hi)) fun i hi => hclose i (Nat.lt_succ_of_lt hi)]
    simpa using hlast

/-- The states of round `k` are those that carry its number. -/
theorem roundStates_of_tag (body : σ → List σ) (close next : σ → σ) (tag : σ → Nat) (s : σ)
    (n : Nat)
    (htag : ∀ i < n, ∀ x ∈ body (next^[i] s) ++ [close (next^[i] s)], tag x = i) {k : Nat}
    (hk : k < n) :
    (roundStates body close next n s).filter (fun x => tag x = k) =
      body (next^[k] s) ++ [close (next^[k] s)] := by
  -- a round with another number contributes nothing
  have hnil : ∀ i < n, i ≠ k → (body (next^[i] s) ++ [close (next^[i] s)]).filter
      (fun x => tag x = k) = [] := by
    intro i hi hne
    rw [List.filter_eq_nil_iff]
    intro x hx
    simp [htag i hi x hx, hne]
  have hself : (body (next^[k] s) ++ [close (next^[k] s)]).filter (fun x => tag x = k) =
      body (next^[k] s) ++ [close (next^[k] s)] := by
    rw [List.filter_eq_self]
    intro x hx
    simp [htag k hk x hx]
  obtain ⟨m, rfl⟩ : ∃ m, n = k + 1 + m := ⟨n - (k + 1), by omega⟩
  have hrange : List.range (k + 1 + m) =
      List.range k ++ [k] ++ (List.range m).map (k + 1 + ·) := by
    rw [List.range_add, List.range_succ]
  unfold roundStates
  rw [hrange, List.flatMap_append, List.flatMap_append, List.filter_append, List.filter_append,
    List.flatMap_singleton, hself]
  have hbefore : (((List.range k).flatMap fun i => body (next^[i] s) ++ [close (next^[i] s)]).filter
      fun x => tag x = k) = [] := by
    rw [List.filter_flatMap, List.flatMap_eq_nil_iff]
    intro i hi
    have := List.mem_range.mp hi
    exact hnil i (by omega) (by omega)
  have hafter : ((((List.range m).map (k + 1 + ·)).flatMap fun i =>
      body (next^[i] s) ++ [close (next^[i] s)]).filter fun x => tag x = k) = [] := by
    rw [List.filter_flatMap, List.flatMap_eq_nil_iff]
    intro i hi
    obtain ⟨j, hj, rfl⟩ := List.mem_map.mp hi
    have := List.mem_range.mp hj
    exact hnil _ (by omega) (by omega)
  rw [hbefore, hafter, List.nil_append, List.append_nil]

end Machine
