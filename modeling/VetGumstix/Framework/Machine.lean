import Mathlib

/-! # Deterministic Machines and their Runs

    A machine is a step function `step : σ → Option σ`; `step s = none`
    means that `s` has halted.  This module collects what the developments
    built on top of it share:

    * `Steps step s tr t`: a run from `s` to `t`, with the list `tr` of the
      states a step was taken from.
    * `run` and `visits`: the same run as a function of a fuel bound, and
      the theorem that enough fuel gives the whole halting run.
    * the invariant rule, for a run and for every state it visits.
    * a termination rule from a decreasing measure.
    * lifting a run of a sub-machine into the machine that contains it.
    * two machines run side by side, compared by what each step shows.
-/

namespace Machine

universe u v

variable {σ : Type u} {τ : Type v}

/-! ## Section 1: Runs -/

/-- `Steps step s tr t`: the machine goes from `s` to `t`, and `tr` lists
    the states it stepped from, in order. -/
inductive Steps (step : σ → Option σ) : σ → List σ → σ → Prop where
  | nil  : ∀ s, Steps step s [] s
  | cons : ∀ {s s' t : σ} {tr : List σ},
             step s = some s' → Steps step s' tr t → Steps step s (s :: tr) t

/-- The state after at most `n` steps; a halted state stays where it is. -/
def run (step : σ → Option σ) : Nat → σ → σ
  | 0, s => s
  | n + 1, s =>
    match step s with
    | none    => s
    | some s' => run step n s'

/-- The states stepped from within the first `n` steps. -/
def visits (step : σ → Option σ) : Nat → σ → List σ
  | 0, _ => []
  | n + 1, s =>
    match step s with
    | none    => []
    | some s' => s :: visits step n s'

variable {step : σ → Option σ}

theorem Steps.single {s s' : σ} (h : step s = some s') : Steps step s [s] s' :=
  .cons h (.nil s')

theorem Steps.append {s t w : σ} {tr tr' : List σ}
    (h : Steps step s tr t) (h' : Steps step t tr' w) : Steps step s (tr ++ tr') w := by
  induction h with
  | nil s => exact h'
  | cons hs _ ih => exact .cons hs (ih h')

/-- Every state of the trace has been stepped from. -/
theorem Steps.stepped {s t : σ} {tr : List σ} (h : Steps step s tr t) :
    ∀ x ∈ tr, ∃ y, step x = some y := by
  induction h with
  | nil s => simp
  | @cons s s' t tr hs _ ih =>
    intro x hx
    rcases List.mem_cons.mp hx with rfl | hx
    · exact ⟨s', hs⟩
    · exact ih x hx

/-- A run that leaves its first state has stepped from it. -/
theorem Steps.first_mem {s t : σ} {tr : List σ} (h : Steps step s tr t) (hne : s ≠ t) :
    s ∈ tr := by
  cases h with
  | nil => exact absurd rfl hne
  | cons _ _ => exact List.mem_cons_self ..

/-- The fuelled run is a run. -/
theorem steps_run (step : σ → Option σ) (n : Nat) (s : σ) :
    Steps step s (visits step n s) (run step n s) := by
  induction n generalizing s with
  | zero => exact .nil s
  | succ n ih =>
    cases hs : step s with
    | none =>
      simp only [run, visits, hs]
      exact .nil s
    | some s' =>
      simp only [run, visits, hs]
      exact .cons hs (ih s')

theorem visits_length (step : σ → Option σ) (n : Nat) (s : σ) :
    (visits step n s).length ≤ n := by
  induction n generalizing s with
  | zero => exact Nat.le_refl 0
  | succ n ih =>
    cases hs : step s with
    | none => simp [visits, hs]
    | some s' =>
      simp only [visits, hs, List.length_cons]
      exact Nat.succ_le_succ (ih s')

/-- Enough fuel reaches the halted state a run ends in. -/
theorem Steps.run_eq {s t : σ} {tr : List σ} (h : Steps step s tr t)
    (hhalt : step t = none) {n : Nat} (hn : tr.length ≤ n) : run step n s = t := by
  induction h generalizing n with
  | nil s => cases n <;> simp [run, hhalt]
  | @cons s s' t tr hs _ ih =>
    obtain ⟨m, rfl⟩ : ∃ m, n = m + 1 := ⟨n - 1, by simp at hn; omega⟩
    simp only [run, hs]
    exact ih hhalt (by simpa using hn)

/-- Enough fuel visits exactly the states of a halting run. -/
theorem Steps.visits_eq {s t : σ} {tr : List σ} (h : Steps step s tr t)
    (hhalt : step t = none) {n : Nat} (hn : tr.length ≤ n) : visits step n s = tr := by
  induction h generalizing n with
  | nil s => cases n <;> simp [visits, hhalt]
  | @cons s s' t tr hs _ ih =>
    obtain ⟨m, rfl⟩ : ∃ m, n = m + 1 := ⟨n - 1, by simp at hn; omega⟩
    simp only [visits, hs]
    rw [ih hhalt (by simpa using hn)]

/-! ### Runs without their trace -/

/-- The machine goes from `s` to `t`. -/
def Reaches (step : σ → Option σ) (s t : σ) : Prop := ∃ tr, Steps step s tr t

/-- The machine goes from `s` to `t` and halts there. -/
def Halts (step : σ → Option σ) (s t : σ) : Prop := Reaches step s t ∧ step t = none

theorem Reaches.refl (s : σ) : Reaches step s s := ⟨[], .nil s⟩

theorem Reaches.single {s t : σ} (h : step s = some t) : Reaches step s t := ⟨[s], .single h⟩

theorem Reaches.trans {s t w : σ} (h : Reaches step s t) (h' : Reaches step t w) :
    Reaches step s w := by
  obtain ⟨tr, htr⟩ := h
  obtain ⟨tr', htr'⟩ := h'
  exact ⟨tr ++ tr', htr.append htr'⟩

/-- A machine halts in one state. -/
theorem Halts.unique {s t t' : σ} (h : Halts step s t) (h' : Halts step s t') : t = t' := by
  obtain ⟨⟨tr, htr⟩, hnone⟩ := h
  obtain ⟨⟨tr', htr'⟩, hnone'⟩ := h'
  rw [← htr.run_eq hnone (Nat.le_max_left tr.length tr'.length),
    ← htr'.run_eq hnone' (Nat.le_max_right tr.length tr'.length)]

/-- Every run is the beginning of the halting run. -/
theorem Steps.split {s t u : σ} {tr tr' : List σ} (h : Steps step s tr t)
    (hhalt : step t = none) (h' : Steps step s tr' u) :
    ∃ rest, tr = tr' ++ rest ∧ Steps step u rest t := by
  induction h' generalizing tr with
  | nil s => exact ⟨tr, rfl, h⟩
  | @cons s s' u tr' hs _ ih =>
    cases h with
    | nil => simp [hhalt] at hs
    | @cons _ s₁ _ tr hs₁ hrest =>
      obtain rfl : s₁ = s' := Option.some.inj (hs₁.symm.trans hs)
      obtain ⟨rest, rfl, hu⟩ := ih hrest
      exact ⟨rest, rfl, hu⟩

/-! ## Section 2: Invariants -/

/-- **Invariant rule**: what every step preserves holds in every visited
    state and in the state reached. -/
theorem Steps.invariant {Inv : σ → Prop} {s t : σ} {tr : List σ}
    (h : Steps step s tr t) (hinit : Inv s)
    (hstep : ∀ s s', Inv s → step s = some s' → Inv s') :
    (∀ x ∈ tr, Inv x) ∧ Inv t := by
  induction h with
  | nil s => exact ⟨by simp, hinit⟩
  | @cons s s' t tr hs _ ih =>
    obtain ⟨htr, ht⟩ := ih (hstep s s' hinit hs)
    refine ⟨?_, ht⟩
    intro x hx
    rcases List.mem_cons.mp hx with rfl | hx
    · exact hinit
    · exact htr x hx

/-! ## Section 3: Termination -/

/-- **Termination rule**: a measure that every step from an invariant state
    lowers bounds the length of a run that reaches a halted state. -/
theorem exists_halting {Inv : σ → Prop} (step : σ → Option σ) (μ : σ → Nat)
    (hinv : ∀ s s', Inv s → step s = some s' → Inv s')
    (hdec : ∀ s s', Inv s → step s = some s' → μ s' < μ s)
    (s : σ) (hs : Inv s) :
    ∃ tr t, Steps step s tr t ∧ step t = none ∧ tr.length ≤ μ s := by
  induction hm : μ s using Nat.strongRecOn generalizing s with
  | ind m ih =>
    cases hstep : step s with
    | none => exact ⟨[], s, .nil s, hstep, by simp⟩
    | some s' =>
      have hlt : μ s' < m := hm ▸ hdec s s' hs hstep
      obtain ⟨tr, t, htr, ht, hlen⟩ := ih (μ s') hlt s' (hinv s s' hs hstep) rfl
      refine ⟨s :: tr, t, .cons hstep htr, ht, ?_⟩
      simp only [List.length_cons]
      omega

/-- **Divergence rule**: where every round leads, in at least one step, to
    the start of another round, no run halts.  The induction is on the length
    of the run that is supposed to halt. -/
theorem not_halts_of_rounds (Start : σ → Prop)
    (hround : ∀ s, Start s → ∃ tr t, Steps step s tr t ∧ tr ≠ [] ∧ Start t) {s : σ}
    (hs : Start s) (t : σ) : ¬ Halts step s t := by
  rintro ⟨⟨tr, htr⟩, hhalt⟩
  induction hn : tr.length using Nat.strongRecOn generalizing s tr with
  | ind n ih =>
    obtain ⟨first, u, hfirst, hne, hu⟩ := hround s hs
    obtain ⟨rest, rfl, hrest⟩ := htr.split hhalt hfirst
    have hpos : 0 < first.length := List.length_pos_iff.mpr hne
    rw [List.length_append] at hn
    exact ih rest.length (by omega) hu rest hrest rfl

/-! ## Section 4: Sub-machines -/

/-- A run of a sub-machine is a run of the machine it is lifted into. -/
theorem Steps.lift {step' : τ → Option τ} (f : σ → τ)
    (hf : ∀ s s', step s = some s' → step' (f s) = some (f s'))
    {s t : σ} {tr : List σ} (h : Steps step s tr t) :
    Steps step' (f s) (tr.map f) (f t) := by
  induction h with
  | nil s => exact .nil (f s)
  | cons hs _ ih => exact .cons (hf _ _ hs) ih

/-- **Simulation rule**: where every step of the abstract machine is the image
    of a step that keeps the invariant, so is every run. -/
theorem Steps.simulate {step' : τ → Option τ} (f : σ → τ) {Inv : σ → Prop}
    (hf : ∀ s k, Inv s → step' (f s) = some k → ∃ s', step s = some s' ∧ Inv s' ∧ f s' = k)
    {s : σ} (hs : Inv s) {k : τ} {tr' : List τ} (h : Steps step' (f s) tr' k) :
    ∃ tr t, Steps step s tr t ∧ tr.map f = tr' ∧ (∀ x ∈ tr, Inv x) ∧ Inv t ∧ f t = k := by
  generalize hk : f s = k₀ at h
  induction h generalizing s with
  | nil _ => exact ⟨[], s, .nil s, rfl, by simp, hs, hk⟩
  | @cons k₁ k₂ k₃ tr' hstep _ ih =>
    obtain ⟨s', hs', hinv, hfs⟩ := hf s k₂ hs (hk ▸ hstep)
    obtain ⟨tr, t, hrun, hmap, hall, ht, hft⟩ := ih hinv hfs
    refine ⟨s :: tr, t, .cons hs' hrun, ?_, ?_, ht, hft⟩
    · rw [List.map_cons, hmap, hk]
    · intro x hx
      rcases List.mem_cons.mp hx with rfl | hx
      · exact hs
      · exact hall x hx

/-! ## Section 5: Two machines side by side -/

variable {stepA stepB : σ → Option σ} {obs : Type v} {showA showB : σ → List obs}
  {Agree : σ → Prop}

/-- **Lockstep rule**: where the two machines agree they take the same step,
    and they agree on a state exactly when they show the same there.  Then two
    runs from one state show the same if and only if the machines agree on
    every state of the first run. -/
theorem lockstep_iff (hshow : ∀ s, showA s = showB s ↔ Agree s)
    (hlen : ∀ s, (showA s).length = (showB s).length)
    (hstep : ∀ s, Agree s → stepA s = stepB s)
    (hhalt : ∀ s, stepA s = none ↔ stepB s = none) (n : Nat) (s : σ) :
    (visits stepA n s).flatMap showA = (visits stepB n s).flatMap showB ↔
      ∀ x ∈ visits stepA n s, Agree x := by
  induction n generalizing s with
  | zero => simp [visits]
  | succ n ih =>
    cases hA : stepA s with
    | none => simp [visits, hA, (hhalt s).mp hA]
    | some sA =>
      cases hB : stepB s with
      | none => simp [(hhalt s).mpr hB] at hA
      | some sB =>
        simp only [visits, hA, hB, List.flatMap_cons, List.forall_mem_cons]
        constructor
        · -- both show equally much at `s`, so the traces split there
          intro h
          obtain ⟨hhead, htail⟩ := List.append_inj h (hlen s)
          have hag : Agree s := (hshow s).mp hhead
          obtain rfl : sA = sB := by simpa [hA, hB] using hstep s hag
          exact ⟨hag, (ih sA).mp htail⟩
        · rintro ⟨hag, htail⟩
          obtain rfl : sA = sB := by simpa [hA, hB] using hstep s hag
          rw [(hshow s).mpr hag, (ih sA).mpr htail]

/-- Machines that agree along a run take the same run. -/
theorem lockstep_eq (hstep : ∀ s, Agree s → stepA s = stepB s)
    (hhalt : ∀ s, stepA s = none ↔ stepB s = none) (n : Nat) (s : σ)
    (h : ∀ x ∈ visits stepA n s, Agree x) :
    visits stepA n s = visits stepB n s ∧ run stepA n s = run stepB n s := by
  induction n generalizing s with
  | zero => exact ⟨rfl, rfl⟩
  | succ n ih =>
    cases hA : stepA s with
    | none => simp [visits, run, hA, (hhalt s).mp hA]
    | some sA =>
      simp only [visits, hA, List.forall_mem_cons] at h
      have hB : stepB s = some sA := by rw [← hstep s h.1, hA]
      obtain ⟨hv, hr⟩ := ih sA h.2
      simp only [visits, run, hA, hB, hv, hr, and_self]

end Machine
