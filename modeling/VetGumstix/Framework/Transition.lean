import Mathlib

/-! # Runs of Labelled Transition Relations

    A relation `step s a t` says that action `a` may take state `s` to `t`.
    `Run` collects the steps of a run; the invariant rule is for runs whose
    steps meet a condition, which is how a property of a system is stated under
    an assumption on its environment.
-/

namespace Transition

universe u v

variable {σ : Type u} {α : Type v}

/-- One step of a run: the state before, the action, the state after. -/
structure Taken (σ : Type u) (α : Type v) where
  pre : σ
  action : α
  post : σ

/-- `Run step s tr t`: the steps `tr` lead from `s` to `t`. -/
inductive Run (step : σ → α → σ → Prop) : σ → List (Taken σ α) → σ → Prop where
  | nil  : ∀ s, Run step s [] s
  | cons : ∀ {s s' t : σ} {a : α} {tr : List (Taken σ α)},
             step s a s' → Run step s' tr t → Run step s (⟨s, a, s'⟩ :: tr) t

variable {step : σ → α → σ → Prop}

/-- **Invariant rule**: what every step under the condition `ok` preserves
    holds before every step of a run whose steps meet `ok`, and at its end. -/
theorem Run.invariant {Inv : σ → Prop} {ok : σ → α → Prop} {s t : σ} {tr : List (Taken σ α)}
    (h : Run step s tr t) (hinit : Inv s)
    (hstep : ∀ s a s', Inv s → ok s a → step s a s' → Inv s')
    (hok : ∀ x ∈ tr, ok x.pre x.action) : Inv t ∧ ∀ x ∈ tr, Inv x.pre := by
  induction h with
  | nil s => exact ⟨hinit, by simp⟩
  | @cons s s' t a tr hs _ ih =>
    have hnext := hstep s a s' hinit (hok _ (List.mem_cons_self ..)) hs
    obtain ⟨hend, hall⟩ := ih hnext fun x hx => hok x (List.mem_cons_of_mem _ hx)
    refine ⟨hend, ?_⟩
    intro x hx
    rcases List.mem_cons.mp hx with rfl | hx
    · exact hinit
    · exact hall x hx

/-- Every step of a run is a step. -/
theorem Run.taken {s t : σ} {tr : List (Taken σ α)} (h : Run step s tr t) :
    ∀ x ∈ tr, step x.pre x.action x.post := by
  induction h with
  | nil s => simp
  | cons hs _ ih =>
    intro x hx
    rcases List.mem_cons.mp hx with rfl | hx
    · exact hs
    · exact ih x hx

theorem Run.append {s t u : σ} {tr tr' : List (Taken σ α)} (h : Run step s tr t)
    (h' : Run step t tr' u) : Run step s (tr ++ tr') u := by
  induction h with
  | nil => exact h'
  | cons hs _ ih => exact .cons hs (ih h')

/-! ## Systems with one next state -/

section Next

variable (enabled : σ → α → Prop) (next : σ → α → σ)

/-- The relation of a system that is given by when an action may be taken and
    what it leads to. -/
def Next (s : σ) (a : α) (t : σ) : Prop := enabled s a ∧ t = next s a

/-- The steps of a list of actions. -/
def steps : σ → List α → List (Taken σ α)
  | _, []     => []
  | s, a :: l => ⟨s, a, next s a⟩ :: steps (next s a) l

/-- Each action of the list may be taken when its turn comes. -/
def Playable : σ → List α → Prop
  | _, []     => True
  | s, a :: l => enabled s a ∧ Playable (next s a) l

variable {enabled next}

theorem run_of_playable {s : σ} {l : List α} (h : Playable enabled next s l) :
    Run (Next enabled next) s (steps next s l) (l.foldl next s) := by
  induction l generalizing s with
  | nil => exact .nil s
  | cons a l ih => exact .cons ⟨h.1, rfl⟩ (ih h.2)

theorem action_of_mem_steps {s : σ} {l : List α} {x : Taken σ α} (h : x ∈ steps next s l) :
    x.action ∈ l := by
  induction l generalizing s with
  | nil => exact absurd h List.not_mem_nil
  | cons a l ih =>
    rcases List.mem_cons.mp h with rfl | h
    · exact List.mem_cons_self
    · exact List.mem_cons_of_mem _ (ih h)

end Next

end Transition
