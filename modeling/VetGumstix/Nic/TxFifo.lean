import VetGumstix.Framework.Bytes
import VetGumstix.Framework.Transition

/-! # The Transmit FIFO

    `smsc911x_hard_start_xmit` writes two command words and the padded frame
    into the TX data FIFO without looking whether they fit: it relies on the
    queue having been stopped when space ran low.  The network stack calls it
    only while the queue runs.  The responder in `smsc911x_poll` calls it at
    any time, and so can overfill the FIFO.

    `calls_fit_iff`: in every order of sends, responses, draining and TDFA
    interrupts, the FIFO is never overfilled exactly when every response finds
    room for itself.  For the calls of the stack the flow control is enough.
-/

namespace Nic

open Bytes Transition

/-! ## Section 1: The transmit routine -/

/-- The capacity of the TX data FIFO in bytes. -/
def txFifoSize : Nat := 4608

/-- `TX_FIFO_LOW_THRESHOLD` -/
def txFifoLowThreshold : Nat := 1600

/-- What `TX_FIFO_INF` and `FIFO_INT` hold, and whether the queue is stopped. -/
structure TxFifo where
  /-- The free bytes, `TX_FIFO_INF_TDFREE_`. -/
  free : Nat
  free_le : free ≤ txFifoSize
  stopped : Bool
  fifoInt : BitVec 32

/-- `FIFO_INT_TX_AVAIL_LEVEL_`, in units of 64 bytes. -/
def TxFifo.availLevel (tx : TxFifo) : Nat := (tx.fifoInt >>> 24).toNat

/-- The words of `tx_writefifo`: the frame from the word boundary before
    `skb->data` on. -/
def wrsz (data len : Nat) : Nat := (len + 3 + data % 4) % 2 ^ 32 / 4

/-- `tx_cmd_a`: the data offset, first and last segment, the length. -/
def txCmdA (data len : Nat) : BitVec 32 :=
  (BitVec.ofNat 32 (data % 4) <<< 16) ||| (0x00002000 ||| 0x00001000) ||| BitVec.ofNat 32 len

/-- `tx_cmd_b`: the length, as packet tag and as packet length. -/
def txCmdB (len : Nat) : BitVec 32 := (BitVec.ofNat 32 len <<< 16) ||| BitVec.ofNat 32 len

/-- What a call writes to `TX_DATA_FIFO`. -/
def txWords (mem : ByteMem) (data len : Nat) : List (BitVec 32) :=
  txCmdA data len :: txCmdB len :: toWords (readBytes mem (data - data % 4) (4 * wrsz data len))

/-- How many bytes that is. -/
def bytesWritten (data len : Nat) : Nat := 4 * (2 + wrsz data len)

/-- `freespace -= (skb->len + 32)`, in 32 bits without sign. -/
def freespaceAfter (freespace len : Nat) : Nat :=
  (freespace + (2 ^ 32 - (len + 32) % 2 ^ 32)) % 2 ^ 32

/-- `netif_stop_queue`, and the interrupt level that will wake the queue. -/
def TxFifo.stopQueue (tx : TxFifo) : TxFifo :=
  { tx with stopped := true, fifoInt := (tx.fifoInt &&& 0x00FFFFFF) ||| 0x32000000 }

/-- The hardware takes in written bytes; those beyond the free space are
    lost. -/
def TxFifo.fill (tx : TxFifo) (n : Nat) : TxFifo :=
  { tx with free := tx.free - n, free_le := Nat.le_trans (Nat.sub_le _ _) tx.free_le }

/-- `smsc911x_hard_start_xmit` for a frame of `len` bytes at `data`. -/
def hardStartXmit (data len : Nat) (tx : TxFifo) : TxFifo :=
  let freespace := freespaceAfter (tx.free &&& 0x0000FFFF) len
  let tx := tx.fill (bytesWritten data len)
  if freespace < txFifoLowThreshold then tx.stopQueue else tx

/-- The TDFA part of `smsc911x_irqhandler`: put the level out of reach and wake
    the queue. -/
def irqTdfa (tx : TxFifo) : TxFifo :=
  { tx with stopped := false, fifoInt := tx.fifoInt ||| 0xFF000000 }

/-! ## Section 2: The transitions -/

inductive TxAction where
  | xmit (data len : Nat)     -- the network stack sends a frame
  | respond (data len : Nat)  -- `smsc911x_poll` sends a response
  | drain (n : Nat)           -- the hardware has transmitted `n` bytes
  | tdfa                      -- the hardware raises the TDFA interrupt

def TxStep (tx : TxFifo) : TxAction → TxFifo → Prop
  | .xmit data len, tx' =>
      tx.stopped = false ∧ len ≤ 1514 ∧ tx' = hardStartXmit data len tx
  | .respond data len, tx' => len ≤ 1514 ∧ tx' = hardStartXmit data len tx
  | .drain n, tx' =>
      tx'.free = tx.free + n ∧ tx'.stopped = tx.stopped ∧ tx'.fifoInt = tx.fifoInt
  | .tdfa, tx' => 64 * tx.availLevel < tx.free ∧ tx' = irqTdfa tx

/-- After `smsc911x_open`: the FIFO empty, the queue running, the interrupt
    level out of reach. -/
structure TxFifo.Opened (tx : TxFifo) : Prop where
  empty   : tx.free = txFifoSize
  running : tx.stopped = false
  level   : tx.availLevel = 0xFF

/-- A call that neither overfills the FIFO nor wraps `freespace`, and leaves
    the queue stopped when space is low: by the driver's count, and by the
    hardware's. -/
structure CallFits (data len : Nat) (tx tx' : TxFifo) : Prop where
  fits   : bytesWritten data len ≤ tx.free
  noWrap : len + 32 ≤ tx.free
  stops  : tx.free - (len + 32) < txFifoLowThreshold → tx'.stopped = true
  low    : tx'.free < txFifoLowThreshold → tx'.stopped = true

/-- The calls of a run fit. -/
def CallsFit (tr : List (Taken TxFifo TxAction)) : Prop :=
  ∀ x ∈ tr, ∀ data len, x.action = .xmit data len ∨ x.action = .respond data len →
    CallFits data len x.pre x.post

/-- Every response of a run finds room for its frame and 32 bytes more. -/
def ResponsesHaveRoom (tr : List (Taken TxFifo TxAction)) : Prop :=
  ∀ x ∈ tr, ∀ data len, x.action = .respond data len → len + 32 ≤ x.pre.free

/-! ## Section 3: One call -/

theorem bytesWritten_le (data : Nat) {len : Nat} (hlen : len ≤ 1514) :
    bytesWritten data len ≤ len + 32 := by
  unfold bytesWritten wrsz
  have hword : len + 3 + data % 4 < 2 ^ 32 := by omega
  rw [Nat.mod_eq_of_lt hword]
  omega

/-- What a call puts into the FIFO is what it is said to write. -/
theorem txWords_length (mem : ByteMem) (data len : Nat) :
    4 * (txWords mem data len).length = bytesWritten data len := by
  have hwords : (toWords (readBytes mem (data - data % 4) (4 * wrsz data len))).length =
      wrsz data len := toWords_length readBytes_length
  simp only [txWords, bytesWritten, List.length_cons]
  rw [hwords]
  omega

/-- With room for the frame the driver's count is a plain subtraction. -/
theorem freespaceAfter_of_le {freespace len : Nat} (hfree : freespace ≤ txFifoSize)
    (h : len + 32 ≤ freespace) : freespaceAfter freespace len = freespace - (len + 32) := by
  unfold freespaceAfter
  unfold txFifoSize at hfree
  have hlen : (len + 32) % 2 ^ 32 = len + 32 := Nat.mod_eq_of_lt (by omega)
  rw [hlen]
  omega

theorem tdfree_mask (tx : TxFifo) : tx.free &&& 0x0000FFFF = tx.free := by
  have hle := tx.free_le
  unfold txFifoSize at hle
  rw [show (0x0000FFFF : Nat) = 2 ^ 16 - 1 from rfl, Nat.and_two_pow_sub_one_eq_mod]
  exact Nat.mod_eq_of_lt (by omega)

/-- A call that finds room: what it leaves free, and when it stops the
    queue. -/
theorem hardStartXmit_of_room (data : Nat) {len : Nat} {tx : TxFifo} (h : len + 32 ≤ tx.free) :
    (hardStartXmit data len tx).free = tx.free - bytesWritten data len ∧
    (tx.free - (len + 32) < txFifoLowThreshold ∧
        hardStartXmit data len tx = (tx.fill (bytesWritten data len)).stopQueue ∨
      txFifoLowThreshold ≤ tx.free - (len + 32) ∧
        hardStartXmit data len tx = tx.fill (bytesWritten data len)) := by
  have hcount := freespaceAfter_of_le tx.free_le h
  unfold hardStartXmit
  rw [tdfree_mask, hcount]
  by_cases hlow : tx.free - (len + 32) < txFifoLowThreshold
  · simp only [if_pos hlow]
    exact ⟨rfl, .inl ⟨hlow, trivial⟩⟩
  · simp only [if_neg hlow]
    exact ⟨rfl, .inr ⟨Nat.le_of_not_lt hlow, trivial⟩⟩

/-- Room is all a call needs. -/
theorem callFits_of_room {data len : Nat} {tx : TxFifo} (hlen : len ≤ 1514)
    (h : len + 32 ≤ tx.free) : CallFits data len tx (hardStartXmit data len tx) := by
  have hbytes := bytesWritten_le data hlen
  obtain ⟨hfree, hcases⟩ := hardStartXmit_of_room data h
  -- the driver's count is below the hardware's, so it stops the queue in time
  have hstops : tx.free - (len + 32) < txFifoLowThreshold →
      (hardStartXmit data len tx).stopped = true := by
    intro hlow
    rcases hcases with ⟨-, heq⟩ | ⟨hhigh, -⟩
    · rw [heq]
      rfl
    · omega
  refine ⟨by omega, h, hstops, ?_⟩
  intro hlow
  apply hstops
  omega

/-! ## Section 4: Runs -/

/-- The flow control: while the queue runs, a full frame has room; while it is
    stopped, the interrupt level is the one `smsc911x_hard_start_xmit` set. -/
structure FlowInv (tx : TxFifo) : Prop where
  running : tx.stopped = false → txFifoLowThreshold ≤ tx.free
  stopped : tx.stopped = true → tx.availLevel = 0x32

theorem TxFifo.Opened.flowInv {tx : TxFifo} (h : tx.Opened) : FlowInv tx := by
  constructor
  · intro _
    rw [h.empty]
    decide
  · intro hs
    rw [h.running] at hs
    exact absurd hs (by decide)

theorem stopQueue_availLevel (tx : TxFifo) : tx.stopQueue.availLevel = 0x32 := by
  have hlevel : ∀ w : BitVec 32, ((w &&& 0x00FFFFFF) ||| 0x32000000) >>> 24 = 0x32 := by
    intro w
    have hlow : (0x00FFFFFF : BitVec 32) >>> 24 = 0 := rfl
    have hhigh : (0x32000000 : BitVec 32) >>> 24 = 0x32 := rfl
    rw [BitVec.ushiftRight_or_distrib, BitVec.ushiftRight_and_distrib, hlow, hhigh]
    simp
  exact congrArg BitVec.toNat (hlevel tx.fifoInt)

theorem flowInv_of_room {data len : Nat} {tx : TxFifo} (hinv : FlowInv tx) (hlen : len ≤ 1514)
    (h : len + 32 ≤ tx.free) : FlowInv (hardStartXmit data len tx) := by
  have hbytes := bytesWritten_le data hlen
  obtain ⟨hfree, ⟨-, heq⟩ | ⟨hhigh, heq⟩⟩ := hardStartXmit_of_room data h
  · -- the queue is stopped now
    rw [heq]
    refine ⟨fun hrun => absurd hrun (by simp [TxFifo.stopQueue]), fun _ => ?_⟩
    exact stopQueue_availLevel _
  · -- enough is left, and the queue stays as it was
    refine ⟨fun _ => by omega, ?_⟩
    rw [heq]
    exact hinv.stopped

/-- While the queue runs, every frame of the stack has room. -/
theorem FlowInv.room {tx : TxFifo} (h : FlowInv tx) {len : Nat} (hlen : len ≤ 1514)
    (hrun : tx.stopped = false) : len + 32 ≤ tx.free := by
  have hfree := h.running hrun
  unfold txFifoLowThreshold at hfree
  omega

/-- The condition on a step: a response has room. -/
def RoomToRespond (tx : TxFifo) : TxAction → Prop
  | .respond _ len => len + 32 ≤ tx.free
  | _ => True

theorem flowInv_step (tx : TxFifo) (a : TxAction) (tx' : TxFifo) (hinv : FlowInv tx)
    (hroom : RoomToRespond tx a) (hstep : TxStep tx a tx') : FlowInv tx' := by
  cases a with
  | xmit data len =>
    -- the stack sends only while the queue runs
    obtain ⟨hrun, hlen, rfl⟩ := hstep
    exact flowInv_of_room hinv hlen (hinv.room hlen hrun)
  | respond data len =>
    obtain ⟨hlen, rfl⟩ := hstep
    exact flowInv_of_room hinv hlen hroom
  | drain n =>
    obtain ⟨hfree, hstopped, hint⟩ := hstep
    constructor
    · intro hrun
      have h1600 := hinv.running (hstopped ▸ hrun)
      omega
    · intro hs
      have hlevel := hinv.stopped (hstopped ▸ hs)
      unfold TxFifo.availLevel at hlevel ⊢
      rw [hint, hlevel]
  | tdfa =>
    obtain ⟨hlevel, rfl⟩ := hstep
    refine ⟨fun _ => ?_, fun hs => absurd hs (by simp [irqTdfa])⟩
    show txFifoLowThreshold ≤ tx.free
    by_cases hs : tx.stopped = true
    · -- the level is 0x32, and 3200 bytes are more than the threshold
      rw [hinv.stopped hs] at hlevel
      unfold txFifoLowThreshold
      omega
    · exact hinv.running (by simpa using hs)

/-- **The FIFO is never overfilled exactly when every response has room**, in
    every run from an opened device. -/
theorem calls_fit_iff {tx tx' : TxFifo} {tr : List (Taken TxFifo TxAction)} (hopen : tx.Opened)
    (hrun : Run TxStep tx tr tx') : CallsFit tr ↔ ResponsesHaveRoom tr := by
  constructor
  · intro hfit x hx data len ha
    exact (hfit x hx data len (.inr ha)).noWrap
  · -- the invariant holds before every step, as the responses keep it
    intro hroom x hx data len ha
    have hok : ∀ x ∈ tr, RoomToRespond x.pre x.action := by
      intro x hx
      unfold RoomToRespond
      split
      · rename_i data len ha
        exact hroom x hx data len ha
      · trivial
    have hinv := (hrun.invariant hopen.flowInv flowInv_step hok).2 x hx
    have hstep := hrun.taken x hx
    rcases ha with ha | ha
    · rw [ha] at hstep
      obtain ⟨hrunning, hlen, hpost⟩ := hstep
      rw [hpost]
      exact callFits_of_room hlen (hinv.room hlen hrunning)
    · have hhave := hroom x hx data len ha
      rw [ha] at hstep
      obtain ⟨hlen, hpost⟩ := hstep
      rw [hpost]
      exact callFits_of_room hlen hhave

/-- The device after `smsc911x_open`. -/
def opened : TxFifo := ⟨txFifoSize, Nat.le_refl _, false, 0xFF000000⟩

/-- A frame of the stack, its transmission, and a response. -/
theorem calls_fit_sample :
    CallsFit [⟨opened, .xmit 2 1514, hardStartXmit 2 1514 opened⟩,
      ⟨hardStartXmit 2 1514 opened, .respond 2 294,
        hardStartXmit 2 294 (hardStartXmit 2 1514 opened)⟩] ↔
    ResponsesHaveRoom [⟨opened, .xmit 2 1514, hardStartXmit 2 1514 opened⟩,
      ⟨hardStartXmit 2 1514 opened, .respond 2 294,
        hardStartXmit 2 294 (hardStartXmit 2 1514 opened)⟩] :=
  calls_fit_iff ⟨rfl, rfl, rfl⟩
    (.cons ⟨rfl, by decide, rfl⟩ (.cons ⟨by decide, rfl⟩ (.nil _)))

/-- Two frames of the stack fill the FIFO up to the threshold and stop the
    queue; two responses go on writing, the second one beyond the free space. -/
theorem responses_overfill :
    ∃ tr tx', Run TxStep opened tr tx' ∧ opened.Opened ∧ ¬ CallsFit tr := by
  let send := hardStartXmit 2 1514
  have h1 : TxStep opened (.xmit 2 1514) (send opened) := ⟨rfl, by decide, rfl⟩
  have h2 : TxStep (send opened) (.xmit 2 1514) (send (send opened)) := ⟨rfl, by decide, rfl⟩
  have h3 : TxStep (send (send opened)) (.respond 2 1514) (send (send (send opened))) :=
    ⟨by decide, rfl⟩
  have h4 : TxStep (send (send (send opened))) (.respond 2 1514)
      (send (send (send (send opened)))) := ⟨by decide, rfl⟩
  refine ⟨_, _, .cons h1 (.cons h2 (.cons h3 (.cons h4 (.nil _)))), ⟨rfl, rfl, rfl⟩, ?_⟩
  intro hfit
  have hlast := (hfit ⟨send (send (send opened)), .respond 2 1514,
    send (send (send (send opened)))⟩ (by simp) 2 1514 (.inr rfl)).fits
  -- 36 bytes are free
  exact absurd hlast (by decide)

end Nic
