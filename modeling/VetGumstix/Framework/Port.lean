import Mathlib

/-! # Command Ports

    A slow object behind two registers.  A command is written to the command
    register; until it has been carried out the register shows busy.  The data
    register holds what the command takes and what it leaves.

    When a command is carried out is up to the object: `done` says at which
    accesses to the port a pending command completes, and nothing is assumed
    about it.  What the port will hold once it has settled does not depend on
    it (`settle_tick`), so that a user who polls the busy bit for a bounded time
    learns whether the port has settled (`wait_idle`) and else only that it
    will.
-/

universe u v w

/-- What a command does with the data register and the object. -/
abbrev Port.Action (σ : Type u) (Cmd : Type v) (Data : Type w) := Cmd → Data → σ → Data × σ

structure Port (σ : Type u) (Cmd : Type v) (Data : Type w) where
  obj : σ
  pending : Option Cmd
  data : Data
  /-- The accesses so far. -/
  clock : Nat

namespace Port

variable {σ : Type u} {Cmd : Type v} {Data : Type w}

/-! ## Section 1: Accesses -/

def Idle (p : Port σ Cmd Data) : Prop := p.pending = none

instance (p : Port σ Cmd Data) : Decidable p.Idle :=
  decidable_of_iff (p.pending.isNone) Option.isNone_iff_eq_none

/-- The pending command is carried out. -/
def settle (act : Action σ Cmd Data) (p : Port σ Cmd Data) : Port σ Cmd Data :=
  match p.pending with
  | none   => p
  | some c => { p with
      obj := (act c p.data p.obj).2, data := (act c p.data p.obj).1, pending := none }

/-- An access: time goes by, and the pending command may complete. -/
def tick (act : Action σ Cmd Data) (done : Nat → Bool) (p : Port σ Cmd Data) : Port σ Cmd Data :=
  { (if done p.clock then p.settle act else p) with clock := p.clock + 1 }

/-- Write a command. -/
def start (c : Cmd) (p : Port σ Cmd Data) : Port σ Cmd Data := { p with pending := some c }

/-- Write the data register. -/
def put (x : Data) (p : Port σ Cmd Data) : Port σ Cmd Data := { p with data := x }

/-- Look at the busy bit, at most `n` times, until it is clear. -/
def wait (act : Action σ Cmd Data) (done : Nat → Bool) :
    Nat → Port σ Cmd Data → Bool × Port σ Cmd Data
  | 0, p     => (false, p)
  | n + 1, p =>
    if (p.tick act done).Idle then (true, p.tick act done) else wait act done n (p.tick act done)

/-! ## Section 2: What the port will hold -/

variable (act : Action σ Cmd Data) (done : Nat → Bool)

/-- The object once the port has settled. -/
def effect (p : Port σ Cmd Data) : σ := (p.settle act).obj

/-- The data register once the port has settled. -/
def result (p : Port σ Cmd Data) : Data := (p.settle act).data

variable {act done} {p : Port σ Cmd Data}

theorem settle_of_idle (h : p.Idle) : p.settle act = p := by
  unfold Idle at h
  unfold settle
  rw [h]

theorem effect_of_idle (act : Action σ Cmd Data) (h : p.Idle) : p.effect act = p.obj := by
  rw [effect, settle_of_idle h]

theorem result_of_idle (act : Action σ Cmd Data) (h : p.Idle) : p.result act = p.data := by
  rw [result, settle_of_idle h]

theorem settle_idle (act : Action σ Cmd Data) (p : Port σ Cmd Data) : (p.settle act).Idle := by
  unfold settle Idle
  split
  · assumption
  · rfl

/-- Settling does not look at the clock. -/
theorem settle_clock (n : Nat) :
    ({ p with clock := n } : Port σ Cmd Data).settle act = { p.settle act with clock := n } := by
  obtain ⟨obj, pending, data, clock⟩ := p
  cases pending <;> rfl

theorem settle_settle : (p.settle act).settle act = p.settle act :=
  settle_of_idle (p.settle_idle act)

/-- **Whenever the command completes**, the port settles to the same. -/
theorem settle_tick :
    (p.tick act done).settle act = { p.settle act with clock := p.clock + 1 } := by
  unfold tick
  rw [settle_clock]
  by_cases hdone : done p.clock = true
  · rw [if_pos hdone, settle_settle]
  · rw [if_neg hdone]

@[simp] theorem effect_tick : (p.tick act done).effect act = p.effect act := by
  rw [effect, settle_tick, effect]

@[simp] theorem result_tick : (p.tick act done).result act = p.result act := by
  rw [result, settle_tick, result]

theorem tick_idle (h : p.Idle) : p.tick act done = { p with clock := p.clock + 1 } := by
  unfold tick
  rw [settle_of_idle h, ite_self]

theorem Idle.tick (h : p.Idle) : (p.tick act done).Idle := by
  rw [tick_idle h]
  exact h

theorem tick_of_done (act : Action σ Cmd Data) (h : done p.clock = true) :
    (p.tick act done).Idle := by
  unfold tick
  rw [if_pos h]
  exact p.settle_idle act

theorem tick_of_not_done (act : Action σ Cmd Data) (h : done p.clock = false) :
    p.tick act done = { p with clock := p.clock + 1 } := by
  unfold tick
  rw [h]
  rfl

/-- At an access nothing has happened to the object, or all that will. -/
theorem obj_tick : (p.tick act done).obj = p.obj ∨ (p.tick act done).obj = p.effect act := by
  unfold tick
  by_cases hdone : done p.clock = true
  · rw [if_pos hdone]
    exact .inr rfl
  · rw [if_neg hdone]
    exact .inl rfl

/-- What a command will have done that is written to a port that has settled. -/
theorem effect_start (c : Cmd) : (p.start c).effect act = (act c p.data p.obj).2 := rfl

theorem result_start (c : Cmd) : (p.start c).result act = (act c p.data p.obj).1 := rfl

/-! ## Section 3: Waiting -/

theorem effect_wait (n : Nat) : (p.wait act done n).2.effect act = p.effect act := by
  induction n generalizing p with
  | zero => rfl
  | succ n ih =>
    unfold wait
    split
    · exact effect_tick
    · exact ih.trans effect_tick

theorem obj_wait (n : Nat) :
    (p.wait act done n).2.obj = p.obj ∨ (p.wait act done n).2.obj = p.effect act := by
  induction n generalizing p with
  | zero => exact .inl rfl
  | succ n ih =>
    unfold wait
    split
    · exact obj_tick
    · rcases ih (p := p.tick act done) with hobj | hobj
      · rw [hobj]
        exact obj_tick
      · exact .inr (hobj.trans effect_tick)

theorem result_wait (n : Nat) : (p.wait act done n).2.result act = p.result act := by
  induction n generalizing p with
  | zero => rfl
  | succ n ih =>
    unfold wait
    split
    · exact result_tick
    · exact ih.trans result_tick

/-- Who sees the bit clear finds the port settled. -/
theorem wait_idle {n : Nat} (h : (p.wait act done n).1 = true) : (p.wait act done n).2.Idle := by
  induction n generalizing p with
  | zero => exact absurd h Bool.false_ne_true
  | succ n ih =>
    unfold wait at h ⊢
    split at h
    · rename_i hidle
      rw [if_pos hidle]
      exact hidle
    · rename_i hbusy
      rw [if_neg hbusy]
      exact ih h

/-- Who never does leaves the port busy. -/
theorem wait_busy {n : Nat} (hn : 0 < n) (h : (p.wait act done n).1 = false) :
    ¬ (p.wait act done n).2.Idle := by
  induction n generalizing p with
  | zero => exact absurd hn (Nat.lt_irrefl 0)
  | succ n ih =>
    unfold wait at h ⊢
    by_cases hidle : (p.tick act done).Idle
    · rw [if_pos hidle] at h
      exact absurd h.symm Bool.false_ne_true
    · rw [if_neg hidle] at h ⊢
      cases n with
      | zero => exact hidle
      | succ n => exact ih (Nat.succ_pos n) h

/-- **Within `n` looks**: the bit is seen clear when the command completes at one
    of them. -/
theorem wait_of_done (act : Action σ Cmd Data) {n k : Nat} (hk : k < n)
    (h : done (p.clock + k) = true) : (p.wait act done n).1 = true := by
  induction n generalizing p k with
  | zero => exact absurd hk (Nat.not_lt_zero k)
  | succ n ih =>
    unfold wait
    by_cases hidle : (p.tick act done).Idle
    · rw [if_pos hidle]
    · rw [if_neg hidle]
      cases k with
      | zero =>
        -- it completes at this look, so the port is idle
        exact absurd (tick_of_done act h) hidle
      | succ k =>
        apply ih (Nat.lt_of_succ_lt_succ hk)
        have hclock : (p.tick act done).clock + k = p.clock + (k + 1) := by
          show p.clock + 1 + k = _
          omega
        rw [hclock]
        exact h

/-- A port that does not complete in the time stays as it is. -/
theorem wait_of_not_done {n : Nat} (hbusy : ¬ p.Idle) (h : ∀ k < n, done (p.clock + k) = false) :
    p.wait act done n = (false, { p with clock := p.clock + n }) := by
  induction n generalizing p with
  | zero => rfl
  | succ n ih =>
    have htick := tick_of_not_done act (h 0 (Nat.succ_pos n))
    have hstill : ¬ (p.tick act done).Idle := by
      rw [htick]
      exact hbusy
    have hlater : ∀ k < n, done ((p.tick act done).clock + k) = false := by
      intro k hk
      have hclock : (p.tick act done).clock + k = p.clock + (k + 1) := by
        show p.clock + 1 + k = _
        omega
      rw [hclock]
      exact h (k + 1) (by omega)
    unfold wait
    rw [if_neg hstill, ih hstill hlater, htick]
    congr 2
    show p.clock + 1 + n = _
    omega

end Port
