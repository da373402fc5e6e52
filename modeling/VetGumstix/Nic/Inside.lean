import VetGumstix.Nic.Poll

/-! # Bounds of the Answer

    The responder addresses `skb->data` up to offset 279, and never compares
    an offset with `skb->len`.  What it reads and writes is inside the frame
    exactly when the frame is long enough for a whole challenge: 298 bytes
    with Ethernet header and frame checksum.  There is one exception: for a
    packet length below 4 the subtraction of the frame checksum wraps, and
    `skb->len` becomes larger than any offset.

    `stays_inside_iff` states this for every packet length and contents.
-/

namespace Nic

open Bytes

/-- The bytes of the classification. -/
def classifyAccesses (len : Nat) : List Access := [⟨9, 1, len⟩, ⟨20, 1, len⟩]

/-- From a buffer with `len` bytes, all bytes the responder addresses. -/
theorem answered_accesses (f : Responder) (s : Skb) :
    (((s.note 9 1).note 20 1).answered f).accesses =
      s.accesses ++ (classifyAccesses s.len ++ renewAccesses s.len ++
        exchangeAccesses 12 16 4 s.len ++ exchangeAccesses 0 6 6 ((s.len + 14) % 2 ^ 32)) := by
  simp [Skb.answered, Skb.note, classifyAccesses]

/-- If the packet is classified as a challenge, it is answered and every byte
    of `skb->data` that is read or written on the way is below `skb->len`. -/
def StaysInside (f : Responder) {n : Nat} (m : Fresh n) (words : List (BitVec 32))
    (length : Nat) : Prop :=
  ∀ s, receiveSkb m words length = some s → s.Challenge →
    ∃ s', (handle f).run s = some (true, s') ∧ ∀ x ∈ s'.accesses, x.Inside

/-- The packet is classified as a challenge. -/
def Challenged {n : Nat} (m : Fresh n) (words : List (BitVec 32)) (length : Nat) : Prop :=
  ∃ s, receiveSkb m words length = some s ∧ s.Challenge

section packet

variable {n length : Nat} {m : Fresh n} {words : List (BitVec 32)}

/-- A challenge is answered, and these are the bytes addressed. -/
theorem handle_received (f : Responder)
    (h : (ethTypeTrans (filledSkb m words length)).Challenge) :
    ∃ s', (handle f).run (ethTypeTrans (filledSkb m words length)) = some (true, s') ∧
      s'.accesses =
        classifyAccesses (ethTypeTrans (filledSkb m words length)).len ++
        renewAccesses (ethTypeTrans (filledSkb m words length)).len ++
        exchangeAccesses 12 16 4 (ethTypeTrans (filledSkb m words length)).len ++
        exchangeAccesses 0 6 6 (((ethTypeTrans (filledSkb m words length)).len + 14) % 2 ^ 32) := by
  refine ⟨_, handle_run h (filledSkb_data m words length), ?_⟩
  rw [answered_accesses, ethTypeTrans_accesses]
  rfl

/-- Offset 279 is addressed, and it is the last one. -/
theorem accesses_inside_iff (len : Nat) (hlen : len < 2 ^ 32 - 14) :
    (∀ x ∈ classifyAccesses len ++ renewAccesses len ++ exchangeAccesses 12 16 4 len ++
      exchangeAccesses 0 6 6 ((len + 14) % 2 ^ 32), x.Inside) ↔ 280 ≤ len := by
  have hpush : (len + 14) % 2 ^ 32 = len + 14 := Nat.mod_eq_of_lt (by omega)
  simp only [classifyAccesses, renewAccesses, exchangeAccesses, hpush, List.cons_append,
    List.nil_append, List.forall_mem_cons, Access.Inside]
  simp only [List.not_mem_nil, IsEmpty.forall_iff, implies_true, and_true]
  omega

/-- A challenge is answered inside the frame exactly for these lengths. -/
theorem handle_inside_iff (f : Responder)
    (hlt : length < 2 ^ 14) (h : (ethTypeTrans (filledSkb m words length)).Challenge) :
    (∃ s', (handle f).run (ethTypeTrans (filledSkb m words length)) = some (true, s') ∧
      ∀ x ∈ s'.accesses, x.Inside) ↔ 298 ≤ length ∨ length < 4 := by
  have hlen := filledSkb_len m words hlt
  obtain ⟨s', hrun, haccesses⟩ := handle_received f h
  have hinside := accesses_inside_iff (ethTypeTrans (filledSkb m words length)).len (by omega)
  rw [← haccesses] at hinside
  constructor
  · -- the run is deterministic, so its accesses are the ones listed
    rintro ⟨t, hrun', hall⟩
    obtain rfl : s' = t := by simpa using hrun.symm.trans hrun'
    have h280 := hinside.mp hall
    omega
  · intro hcases
    exact ⟨s', hrun, hinside.mpr (by omega)⟩

end packet

/-- **The responder stays inside the frame exactly for long frames**, of at
    least 298 bytes, and for packet lengths below 4, where `skb->len` has
    wrapped.  For every status word, contents of the FIFO and of memory. -/
theorem stays_inside_iff (f : Responder) (rxstat : BitVec 32) (m : Fresh (4 * pktwords rxstat))
    (words : List (BitVec 32)) :
    StaysInside f m words (pktlength rxstat) ↔
      (Challenged m words (pktlength rxstat) →
        298 ≤ pktlength rxstat ∨ pktlength rxstat < 4) := by
  have hlt := pktlength_lt rxstat
  have hreceive := receiveSkb_eq m words hlt (pktwords_room rxstat)
  constructor
  · rintro hinside ⟨s, hs, hchallenge⟩
    have hanswer := hinside s hs hchallenge
    obtain rfl := Option.some.inj (hreceive.symm.trans hs)
    exact (handle_inside_iff f hlt hchallenge).mp hanswer
  · intro hlong s hs hchallenge
    have hcases := hlong ⟨s, hs, hchallenge⟩
    obtain rfl := Option.some.inj (hreceive.symm.trans hs)
    exact (handle_inside_iff f hlt hchallenge).mpr hcases

/-- The words of a packet of 64 bytes with the bytes of the classification. -/
def shortPacket : List (BitVec 32) :=
  [0, 0, 0, 0x00080000, 0, 0, 0x00000100, 0, 0, 0x00000002, 0, 0, 0, 0, 0, 0, 0]

/-- A minimum Ethernet frame is answered like a whole challenge: 46 bytes are
    left behind its header. -/
theorem short_packet_outside :
    ¬ StaysInside ⟨id, id⟩ (⟨fun _ => 0, 132, by decide⟩ : Fresh (4 * pktwords 0x00400000))
      shortPacket (pktlength 0x00400000) := by
  intro hinside
  have hanswer := hinside _ (receiveSkb_eq _ _ (by decide) (by decide)) (by decide +kernel)
  have hcases := (handle_inside_iff _ (by decide) (by decide +kernel)).mp hanswer
  exact absurd hcases (by decide)

end Nic
