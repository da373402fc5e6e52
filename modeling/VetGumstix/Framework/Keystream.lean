import Mathlib

/-! # Keystreams

    A generator makes one symbol at a time out of a state.  Its stream is what
    comes out when it runs without end; a cipher combines the stream with the
    symbols of a buffer, one call after another.  Calls compose: a buffer takes
    up the stream where the buffers before it left off.
-/

namespace Keystream

variable {σ β : Type*} (next : σ → σ × β) (op : β → β → β)

/-- The state after `n` symbols. -/
def after (s : σ) (n : Nat) : σ := (fun s => (next s).1)^[n] s

/-- Symbol `n` of the stream. -/
def stream (s : σ) (n : Nat) : β := (next (after next s n)).2

theorem after_zero (s : σ) : after next s 0 = s := rfl

theorem after_succ (s : σ) (n : Nat) : after next s (n + 1) = (next (after next s n)).1 :=
  Function.iterate_succ_apply' _ _ _

theorem after_add (s : σ) (m n : Nat) : after next s (m + n) = after next (after next s m) n := by
  unfold after
  rw [Nat.add_comm, Function.iterate_add_apply]

/-- The stream goes on where it was left. -/
theorem stream_add (s : σ) (m n : Nat) :
    stream next s (m + n) = stream next (after next s m) n := by
  rw [stream, after_add, stream]

/-- Combine a buffer with the stream. -/
def crypt : σ → List β → σ × List β
  | s, []       => (s, [])
  | s, b :: buf =>
    let (s, k) := next s
    let (s, out) := crypt s buf
    (s, op b k :: out)

theorem crypt_state (s : σ) (buf : List β) :
    (crypt next op s buf).1 = after next s buf.length := by
  induction buf generalizing s with
  | nil => rfl
  | cons b buf ih =>
    rw [List.length_cons, Nat.add_comm, after_add]
    exact ih _

/-- What a call makes of symbol `i` of its buffer. -/
theorem crypt_getElem? (s : σ) (buf : List β) (i : Nat) :
    (crypt next op s buf).2[i]? = buf[i]?.map fun b => op b (stream next s i) := by
  induction buf generalizing s i with
  | nil => rfl
  | cons b buf ih =>
    cases i with
    | zero => rfl
    | succ i =>
      rw [Nat.add_comm i 1, stream_add, Nat.add_comm 1 i, List.getElem?_cons_succ]
      exact ih _ i

end Keystream
