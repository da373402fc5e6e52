import VetGumstix.Framework.BitMask
import VetGumstix.Nic.TxFifo

/-! # From the Driver to the Wire

    `smsc911x_hard_start_xmit` puts a frame into the TX data FIFO behind two
    command words.  The chip takes it from there, transmits it and puts a word
    into the TX status FIFO: how it went, and the tag of the frame, for which
    the driver uses its length.  `smsc911x_tx_update_txcounters` takes these
    words and counts them, when statistics are asked for and when a call finds
    30 of them.

    * `wire_in_order`: what has been handed over is on the wire, in order and
      byte for byte, and the rest is in the FIFO.
    * `stats_of_wire`: the counters say what has been on the wire; no status is
      lost, though none is read while no frame is sent.

    Both hold for frames of every alignment, in every order of calls,
    transmissions and interrupts, as long as a response of the poll finds room for
    its length and 32 bytes more in the FIFO (`CallsMeet`): `smsc911x_poll` sends
    it without a look at the queue.  The second needs frames that are not empty,
    which bound what waits in the TX status FIFO.
-/

namespace Nic

open Bytes BitMask Transition

/-! ## Section 1: The chip -/

/-- A frame as the chip takes it from the FIFO. -/
structure TxFrame where
  bytes : List Byte
  tag : BitVec 16

/-- How the chip reads the TX data FIFO: `TX_CMD_A_DATA_OFFSET_`,
    `TX_CMD_A_BUF_SIZE_`, `TX_CMD_B_PKT_TAG_`.  A buffer is a frame when it is
    its first and its last segment and `TX_CMD_B_PKT_BYTE_LENGTH_` long. -/
def txTake : List (BitVec 32) → Option (TxFrame × List (BitVec 32))
  | cmdA :: cmdB :: rest =>
    let offset := ((cmdA &&& 0x001F0000) >>> 16).toNat
    let size := (cmdA &&& 0x000007FF).toNat
    let words := (offset + size + 3) / 4
    if cmdA &&& 0x00003000 = 0x00003000 ∧ cmdB &&& 0x000007FF = cmdA &&& 0x000007FF ∧
        words ≤ rest.length then
      some (⟨((toBytes (rest.take words)).drop offset).take size, cmdB.extractLsb' 16 16⟩,
        rest.drop words)
    else none
  | _ => none

/-- The word for the TX status FIFO. -/
def txStatusWord (tag outcome : BitVec 16) : BitVec 32 := tag ++ outcome

/-! ## Section 2: The counters -/

/-- `TX_STS_ES_` -/
def txStsEs : BitVec 32 := 0x00008000
/-- `TX_STS_LOST_CARRIER_` -/
def txStsLostCarrier : BitVec 32 := 0x00000800
/-- `TX_STS_LATE_COL_` -/
def txStsLateCol : BitVec 32 := 0x00000200
/-- `TX_STS_EXCESS_COL_` -/
def txStsExcessCol : BitVec 32 := 0x00000100

/-- The transmit counters of `dev->stats`. -/
structure TxStats where
  txErrors : BitVec 32
  txPackets : BitVec 32
  txBytes : BitVec 32
  collisions : BitVec 32
  txAbortedErrors : BitVec 32
  txCarrierErrors : BitVec 32

/-- The loop of `smsc911x_tx_update_txcounters`, for one status. -/
def TxStats.count (st : TxStats) (txStat : BitVec 32) : TxStats :=
  -- the tag is a length, and its highest bit should be clear
  if txStat &&& 0x80000000 ≠ 0 then st
  else
    let st := if txStat &&& txStsEs ≠ 0 then { st with txErrors := st.txErrors + 1 }
      else { st with txPackets := st.txPackets + 1, txBytes := st.txBytes + txStat >>> 16 }
    let st := if txStat &&& txStsExcessCol ≠ 0 then
        { st with
          collisions := st.collisions + 16
          txAbortedErrors := st.txAbortedErrors + 1 }
      else { st with collisions := st.collisions + ((txStat >>> 3) &&& 0xF) }
    let st := if txStat &&& txStsLostCarrier ≠ 0 then
        { st with txCarrierErrors := st.txCarrierErrors + 1 }
      else st
    if txStat &&& txStsLateCol ≠ 0 then
      { st with collisions := st.collisions + 1, txAbortedErrors := st.txAbortedErrors + 1 }
    else st

/-- `smsc911x_tx_update_txcounters`; `smsc911x_tx_get_txstatus` returns 0 for an
    empty FIFO, and a status of 0 ends the loop as well. -/
def txUpdateTxcounters : List (BitVec 32) → TxStats → List (BitVec 32) × TxStats
  | [], st => ([], st)
  | txStat :: more, st =>
    if txStat = 0 then (more, st) else txUpdateTxcounters more (st.count txStat)

/-! ## Section 3: The transitions -/

/-- A frame for `smsc911x_hard_start_xmit`: `len` bytes at `data`. -/
structure TxCall where
  mem : ByteMem
  data : Nat
  len : Nat

def TxCall.frame (c : TxCall) : List Byte := readBytes c.mem c.data c.len

theorem TxCall.frame_length (c : TxCall) : c.frame.length = c.len := readBytes_length

def TxCall.words (c : TxCall) : List (BitVec 32) := txWords c.mem c.data c.len

structure TxLine where
  tx : TxFifo
  fifo : List (BitVec 32)                 -- the TX data FIFO
  status : List (BitVec 32)               -- the TX status FIFO
  stats : TxStats
  sent : List (List Byte)                 -- the frames handed over
  wire : List (List Byte × BitVec 16)     -- the frames transmitted, and how it went

inductive LineAction where
  | xmit (c : TxCall)              -- the network stack sends a frame
  | respond (c : TxCall)           -- `smsc911x_poll` sends a response
  | transmit (outcome : BitVec 16) -- the chip transmits the next frame
  | tdfa                           -- the TDFA interrupt
  | getStats

/-- Count the statuses. -/
def TxLine.update (s : TxLine) : TxLine :=
  { s with
    status := (txUpdateTxcounters s.status s.stats).1
    stats := (txUpdateTxcounters s.status s.stats).2 }

/-- `smsc911x_hard_start_xmit`.  The words that do not fit are lost. -/
def TxLine.call (s : TxLine) (c : TxCall) : TxLine :=
  let s := { s with
    tx := hardStartXmit c.data c.len s.tx
    fifo := (s.fifo ++ c.words).take (txFifoSize / 4)
    sent := s.sent ++ [c.frame] }
  if 30 ≤ s.status.length then s.update else s

/-- Words of the data FIFO become free. -/
def TxFifo.drain (tx : TxFifo) (n : Nat) : TxFifo :=
  { tx with free := min txFifoSize (tx.free + n), free_le := Nat.min_le_left .. }

/-- The chip transmits a frame; a status FIFO that holds `cap` words takes no
    more. -/
def TxLine.transmit (cap : Nat) (s : TxLine) (outcome : BitVec 16) : TxLine :=
  match txTake s.fifo with
  | some (f, rest) =>
    { s with
      tx := s.tx.drain (4 * (s.fifo.length - rest.length))
      fifo := rest
      status := if s.status.length < cap then s.status ++ [txStatusWord f.tag outcome] else s.status
      wire := s.wire ++ [(f.bytes, outcome)] }
  | none => s

def TxLine.Enabled (s : TxLine) : LineAction → Prop
  | .xmit c     => s.tx.stopped = false ∧ c.len ≤ 1514
  | .respond c  => c.len ≤ 1514
  | .transmit _ => (txTake s.fifo).isSome = true
  | .tdfa       => 64 * s.tx.availLevel < s.tx.free
  | .getStats   => True

def TxLine.next (cap : Nat) (s : TxLine) : LineAction → TxLine
  | .xmit c           => s.call c
  | .respond c        => s.call c
  | .transmit outcome => s.transmit cap outcome
  | .tdfa             => { s with tx := irqTdfa s.tx }
  | .getStats         => s.update

def LineStep (cap : Nat) : TxLine → LineAction → TxLine → Prop :=
  Next TxLine.Enabled (TxLine.next cap)

/-- After `smsc911x_open`. -/
structure TxLine.Opened (s : TxLine) : Prop where
  tx     : s.tx.Opened
  fifo   : s.fifo = []
  status : s.status = []
  sent   : s.sent = []
  wire   : s.wire = []

/-- The frames are no shorter than `least`, and a response finds room. -/
def CallsMeet (least : Nat) (s : TxLine) : LineAction → Prop
  | .xmit c    => least ≤ c.len
  | .respond c => least ≤ c.len ∧ c.len + 32 ≤ s.tx.free
  | _          => True

/-! ## Section 4: The format of a frame -/

theorem txCmdA_toNat (data : Nat) {len : Nat} (hlen : len < 2 ^ 11) :
    (txCmdA data len).toNat = 2 ^ 16 * (data % 4) + (2 ^ 12 * 3 + len) := by
  have hoffset : (BitVec.ofNat 32 (data % 4) <<< 16).toNat = 2 ^ 16 * (data % 4) := by
    rw [BitVec.toNat_shiftLeft, BitVec.toNat_ofNat, Nat.shiftLeft_eq]
    omega
  have hsize : (BitVec.ofNat 32 len).toNat = len := Nat.mod_eq_of_lt (by omega)
  have hseg : (0x00002000 ||| 0x00001000 : BitVec 32).toNat = 2 ^ 12 * 3 := rfl
  have hlow : 2 ^ 12 * 3 ||| len = 2 ^ 12 * 3 + len :=
    (Nat.two_pow_add_eq_or_of_lt (by omega) 3).symm
  unfold txCmdA
  rw [BitVec.toNat_or, BitVec.toNat_or, hoffset, hsize, hseg, Nat.or_assoc, hlow,
    ← Nat.two_pow_add_eq_or_of_lt (by omega)]

theorem txCmdB_toNat {len : Nat} (hlen : len < 2 ^ 16) :
    (txCmdB len).toNat = 2 ^ 16 * len + len := by
  have hsize : (BitVec.ofNat 32 len).toNat = len := Nat.mod_eq_of_lt (by omega)
  have htag : (BitVec.ofNat 32 len <<< 16).toNat = 2 ^ 16 * len := by
    rw [BitVec.toNat_shiftLeft, hsize, Nat.shiftLeft_eq]
    omega
  unfold txCmdB
  rw [BitVec.toNat_or, htag, hsize, ← Nat.two_pow_add_eq_or_of_lt hlen]

section Format

variable (data : Nat) {len : Nat} (hlen : len < 2 ^ 11)

include hlen

theorem txCmdA_offset : ((txCmdA data len &&& 0x001F0000) >>> 16).toNat = data % 4 := by
  rw [BitVec.toNat_ushiftRight, toNat_and_field _ _ 16 5 rfl, txCmdA_toNat data hlen,
    Nat.shiftRight_eq_div_pow]
  omega

theorem txCmdA_size : (txCmdA data len &&& 0x000007FF).toNat = len := by
  rw [toNat_and_field _ _ 0 11 rfl, txCmdA_toNat data hlen]
  omega

theorem txCmdA_segments : txCmdA data len &&& 0x00003000 = 0x00003000 := by
  apply BitVec.eq_of_toNat_eq
  rw [toNat_and_field _ _ 12 2 rfl, txCmdA_toNat data hlen]
  show _ = 2 ^ 12 * 3
  omega

theorem txCmdB_size : txCmdB len &&& 0x000007FF = txCmdA data len &&& 0x000007FF := by
  apply BitVec.eq_of_toNat_eq
  rw [txCmdA_size data hlen, toNat_and_field _ _ 0 11 rfl, txCmdB_toNat (by omega)]
  omega

omit data in
theorem txCmdB_tag : (txCmdB len).extractLsb' 16 16 = BitVec.ofNat 16 len := by
  have htag : (2 ^ 16 * len + len) / 2 ^ 16 = len := by omega
  apply BitVec.eq_of_toNat_eq
  rw [BitVec.extractLsb'_toNat, txCmdB_toNat (by omega), Nat.shiftRight_eq_div_pow, htag,
    BitVec.toNat_ofNat]

end Format

/-- **Round trip**: in front of whatever else is in the FIFO, the chip reads the
    frame back, and its length as the tag. -/
theorem txTake_words (c : TxCall) (hlen : c.len < 2 ^ 11) (rest : List (BitVec 32)) :
    txTake (c.words ++ rest) = some (⟨c.frame, BitVec.ofNat 16 c.len⟩, rest) := by
  have hwrsz : wrsz c.data c.len = (c.data % 4 + c.len + 3) / 4 := by
    unfold wrsz
    rw [Nat.mod_eq_of_lt (by omega)]
    omega
  have hbytes : (readBytes c.mem (c.data - c.data % 4) (4 * wrsz c.data c.len)).length =
      4 * wrsz c.data c.len := readBytes_length
  have hwords := toWords_length hbytes
  -- the frame begins `data % 4` bytes into its first word
  have hframe : ((readBytes c.mem (c.data - c.data % 4) (4 * wrsz c.data c.len)).drop
      (c.data % 4)).take c.len = c.frame := by
    rw [readBytes_inner _ _ (by omega), Nat.sub_add_cancel (Nat.mod_le _ _)]
    rfl
  unfold TxCall.words txWords
  rw [List.cons_append, List.cons_append, txTake]
  simp only [txCmdA_offset c.data hlen, txCmdA_size c.data hlen, ← hwrsz]
  rw [if_pos, txCmdB_tag hlen]
  · rw [List.take_left' hwords, List.drop_left' hwords, toBytes_toWords hbytes, hframe]
  · refine ⟨txCmdA_segments c.data hlen, txCmdB_size c.data hlen, ?_⟩
    rw [List.length_append, hwords]
    exact Nat.le_add_right _ _

/-! ## Section 5: The order of the frames -/

/-- The FIFO holds the frames of the calls `pending`, and these are the ones not
    yet on the wire. -/
structure FifoInv (least : Nat) (s : TxLine) (pending : List TxCall) : Prop where
  flow  : FlowInv s.tx
  words : s.fifo = pending.flatMap TxCall.words
  lens  : ∀ c ∈ pending, least ≤ c.len ∧ c.len ≤ 1514
  free  : s.tx.free + 4 * s.fifo.length = txFifoSize
  sent  : s.sent = s.wire.map Prod.fst ++ pending.map TxCall.frame
  wire  : ∀ x ∈ s.wire, least ≤ x.1.length ∧ x.1.length ≤ 1514

section Lines

variable {least cap : Nat} {s t : TxLine} {a : LineAction} {pending : List TxCall}

theorem TxLine.Opened.fifoInv (h : s.Opened) : FifoInv least s [] where
  flow := h.tx.flowInv
  words := h.fifo
  lens := by simp
  free := by rw [h.fifo, h.tx.empty]; rfl
  sent := by rw [h.sent, h.wire]; rfl
  wire := by simp [h.wire]

/-- Counting statuses is no concern of the frames. -/
theorem FifoInv.update (h : FifoInv least s pending) : FifoInv least s.update pending :=
  ⟨h.flow, h.words, h.lens, h.free, h.sent, h.wire⟩

/-- A frame that finds room goes behind the others. -/
theorem FifoInv.call (h : FifoInv least s pending) {c : TxCall} (hleast : least ≤ c.len)
    (hmost : c.len ≤ 1514) (hroom : c.len + 32 ≤ s.tx.free) :
    FifoInv least (s.call c) (pending ++ [c]) := by
  have hbytes := bytesWritten_le c.data hmost
  have hwords : 4 * c.words.length = bytesWritten c.data c.len := txWords_length ..
  have hfree := h.free
  have hfits : (s.fifo ++ c.words).length ≤ txFifoSize / 4 := by
    rw [List.length_append, Nat.le_div_iff_mul_le (by decide)]
    omega
  have hput : FifoInv least { s with
      tx := hardStartXmit c.data c.len s.tx
      fifo := (s.fifo ++ c.words).take (txFifoSize / 4)
      sent := s.sent ++ [c.frame] } (pending ++ [c]) := by
    refine ⟨flowInv_of_room h.flow hmost hroom, ?_, ?_, ?_, ?_, h.wire⟩
    · show (s.fifo ++ c.words).take (txFifoSize / 4) = _
      rw [List.take_of_length_le hfits, h.words, List.flatMap_append, List.flatMap_singleton]
    · intro c' hc'
      rcases List.mem_append.mp hc' with hc' | hc'
      · exact h.lens c' hc'
      · rw [List.mem_singleton.mp hc']
        exact ⟨hleast, hmost⟩
    · show (hardStartXmit c.data c.len s.tx).free + 4 * ((s.fifo ++ c.words).take _).length = _
      rw [List.take_of_length_le hfits, (hardStartXmit_of_room c.data hroom).1,
        List.length_append]
      omega
    · show s.sent ++ [c.frame] = _
      rw [h.sent, List.append_assoc, List.map_append, List.map_singleton]
  unfold TxLine.call
  dsimp only
  split
  · exact hput.update
  · exact hput

/-- What the chip takes is the oldest frame of the FIFO. -/
theorem FifoInv.take (h : FifoInv least s pending) (htake : (txTake s.fifo).isSome = true) :
    ∃ c rest, pending = c :: rest ∧
      txTake s.fifo = some (⟨c.frame, BitVec.ofNat 16 c.len⟩, rest.flatMap TxCall.words) := by
  cases pending with
  | nil =>
    rw [h.words] at htake
    exact absurd htake (by simp [txTake])
  | cons c rest =>
    have hlen := (h.lens c List.mem_cons_self).2
    refine ⟨c, rest, rfl, ?_⟩
    rw [h.words, List.flatMap_cons]
    exact txTake_words c (by omega) _

theorem FifoInv.transmit {c : TxCall} {rest : List TxCall} (h : FifoInv least s (c :: rest))
    (htake : txTake s.fifo =
      some (⟨c.frame, BitVec.ofNat 16 c.len⟩, rest.flatMap TxCall.words)) (outcome : BitVec 16) :
    FifoInv least (s.transmit cap outcome) rest := by
  have hlen := h.lens c List.mem_cons_self
  have hfree := h.free
  have hcons : s.fifo.length = c.words.length + (rest.flatMap TxCall.words).length := by
    rw [h.words, List.flatMap_cons, List.length_append]
  unfold TxLine.transmit
  rw [htake]
  refine ⟨?_, rfl, ?_, ?_, ?_, ?_⟩
  · -- the flow control sees bytes drain
    apply flowInv_step s.tx (.drain (4 * c.words.length)) _ h.flow trivial
    refine ⟨?_, rfl, rfl⟩
    show min txFifoSize _ = _
    rw [hcons, Nat.add_sub_cancel]
    omega
  · intro c' hc'
    exact h.lens c' (List.mem_cons_of_mem _ hc')
  · show min txFifoSize _ + 4 * (rest.flatMap TxCall.words).length = _
    omega
  · show s.sent = (s.wire ++ [(c.frame, outcome)]).map Prod.fst ++ _
    rw [h.sent, List.map_append, List.append_assoc]
    rfl
  · intro x hx
    rcases List.mem_append.mp hx with hx | hx
    · exact h.wire x hx
    · rw [List.mem_singleton.mp hx]
      show least ≤ c.frame.length ∧ c.frame.length ≤ 1514
      rw [c.frame_length]
      exact hlen

/-- The frames in the FIFO after a step. -/
def LineAction.queue : LineAction → List TxCall → List TxCall
  | .xmit c, pending     => pending ++ [c]
  | .respond c, pending  => pending ++ [c]
  | .transmit _, pending => pending.tail
  | _, pending           => pending

theorem fifoInv_step (h : FifoInv least s pending) (hmeet : CallsMeet least s a)
    (hstep : LineStep cap s a t) : FifoInv least t (a.queue pending) := by
  obtain ⟨henabled, rfl⟩ := hstep
  cases a with
  | xmit c =>
    -- while the queue runs there is room
    exact h.call hmeet henabled.2 (h.flow.room henabled.2 henabled.1)
  | respond c => exact h.call hmeet.1 henabled hmeet.2
  | transmit outcome =>
    obtain ⟨c, rest, rfl, htake⟩ := h.take henabled
    exact h.transmit htake outcome
  | tdfa =>
    have hflow := flowInv_step s.tx .tdfa (irqTdfa s.tx) h.flow trivial ⟨henabled, rfl⟩
    exact ⟨hflow, h.words, h.lens, h.free, h.sent, h.wire⟩
  | getStats => exact h.update

variable {tr : List (Taken TxLine LineAction)}

/-- **The wire carries what was handed over**, frame by frame, in order and
    unaltered; what is not on it yet is in the FIFO, and the chip can go on with
    it. -/
theorem wire_in_order (hopen : s.Opened) (hrun : Run (LineStep cap) s tr t)
    (hmeet : ∀ x ∈ tr, CallsMeet 0 x.pre x.action) :
    ∃ pending : List TxCall, t.sent = t.wire.map Prod.fst ++ pending.map TxCall.frame ∧
      t.fifo = pending.flatMap TxCall.words ∧
      (pending ≠ [] → ∀ outcome, t.Enabled (.transmit outcome)) := by
  have hinit : ∃ pending, FifoInv 0 s pending := ⟨[], hopen.fifoInv⟩
  have hstep : ∀ s a s', (∃ pending, FifoInv 0 s pending) → CallsMeet 0 s a →
      LineStep cap s a s' → ∃ pending, FifoInv 0 s' pending := by
    rintro s a s' ⟨pending, h⟩ hmeet hstep
    exact ⟨_, fifoInv_step h hmeet hstep⟩
  obtain ⟨pending, h⟩ := (hrun.invariant hinit hstep hmeet).1
  refine ⟨pending, h.sent, h.words, ?_⟩
  intro hne outcome
  obtain ⟨c, rest, rfl⟩ := List.exists_cons_of_ne_nil hne
  have hlen := (h.lens c List.mem_cons_self).2
  show (txTake t.fifo).isSome = true
  rw [h.words, List.flatMap_cons, txTake_words c (by omega)]
  rfl

def openedLine : TxLine := ⟨opened, [], [], ⟨0, 0, 0, 0, 0, 0⟩, [], []⟩

theorem openedLine_opened : openedLine.Opened := ⟨⟨rfl, rfl, rfl⟩, rfl, rfl, rfl, rfl⟩

/-- A frame of 42 bytes, as ARP sends it. -/
def arpCall : TxCall := ⟨fun _ => 0, 2, 42⟩

/-- It is sent twice, and transmitted once, with three collisions. -/
def arpActions : List LineAction := [.xmit arpCall, .xmit arpCall, .transmit 0x0018]

theorem arpActions_run : Run (LineStep 128) openedLine
    (steps (TxLine.next 128) openedLine arpActions)
    (arpActions.foldl (TxLine.next 128) openedLine) := by
  apply run_of_playable
  exact ⟨⟨rfl, by decide⟩, ⟨rfl, by decide⟩, by rfl, trivial⟩

theorem arpActions_meet {least : Nat} (h : least ≤ 42) :
    ∀ x ∈ steps (TxLine.next 128) openedLine arpActions, CallsMeet least x.pre x.action := by
  intro x hx
  have ha := action_of_mem_steps hx
  simp only [arpActions, List.mem_cons, List.not_mem_nil, or_false] at ha
  rcases ha with ha | ha | ha <;> rw [ha]
  · exact h
  · exact h
  · trivial

theorem wire_in_order_arp :
    let t := arpActions.foldl (TxLine.next 128) openedLine
    ∃ pending : List TxCall, t.sent = t.wire.map Prod.fst ++ pending.map TxCall.frame ∧
      t.fifo = pending.flatMap TxCall.words := by
  obtain ⟨pending, hsent, hfifo, -⟩ :=
    wire_in_order openedLine_opened arpActions_run (arpActions_meet (Nat.zero_le 42))
  exact ⟨pending, hsent, hfifo⟩

/-! ## Section 6: The statuses -/

/-- The status of a frame on the wire; its tag is the length. -/
def wireStatus (x : List Byte × BitVec 16) : BitVec 32 :=
  txStatusWord (BitVec.ofNat 16 x.1.length) x.2

theorem wireStatus_toNat {x : List Byte × BitVec 16} (h : x.1.length ≤ 1514) :
    (wireStatus x).toNat = 2 ^ 16 * x.1.length + x.2.toNat := by
  have htag : (BitVec.ofNat 16 x.1.length).toNat = x.1.length := Nat.mod_eq_of_lt (by omega)
  show (BitVec.ofNat 16 x.1.length ++ x.2).toNat = _
  rw [BitVec.toNat_append, htag, Nat.shiftLeft_eq, Nat.mul_comm,
    ← Nat.two_pow_add_eq_or_of_lt x.2.isLt]

theorem wireStatus_ne_zero {x : List Byte × BitVec 16} (hpos : 0 < x.1.length)
    (h : x.1.length ≤ 1514) : wireStatus x ≠ 0 := by
  intro hzero
  have hnat := wireStatus_toNat h
  rw [hzero] at hnat
  change 0 = _ at hnat
  omega

/-- No length reaches the bit that the driver reserves. -/
theorem wireStatus_reserved {x : List Byte × BitVec 16} (h : x.1.length ≤ 1514) :
    wireStatus x &&& 0x80000000 = 0 := by
  have hlt := x.2.isLt
  apply BitVec.eq_of_toNat_eq
  rw [toNat_and_field _ _ 31 1 rfl, wireStatus_toNat h]
  show _ = 0
  omega

theorem wireStatus_length {x : List Byte × BitVec 16} (h : x.1.length ≤ 1514) :
    wireStatus x >>> 16 = BitVec.ofNat 32 x.1.length := by
  have hlt := x.2.isLt
  apply BitVec.eq_of_toNat_eq
  rw [BitVec.toNat_ushiftRight, wireStatus_toNat h, Nat.shiftRight_eq_div_pow, BitVec.toNat_ofNat]
  omega

/-- Without a zero among them, the loop takes all statuses. -/
theorem txUpdateTxcounters_eq {l : List (BitVec 32)} (h : ∀ w ∈ l, w ≠ 0) (st : TxStats) :
    txUpdateTxcounters l st = ([], l.foldl TxStats.count st) := by
  induction l generalizing st with
  | nil => rfl
  | cons w l ih =>
    rw [txUpdateTxcounters, if_neg (h w List.mem_cons_self), List.foldl_cons]
    exact ih (fun v hv => h v (List.mem_cons_of_mem _ hv)) _

/-- A frame with its command words takes 8 bytes more than its length at
    least. -/
theorem bytesWritten_ge (data : Nat) {len : Nat} (hlen : len ≤ 1514) :
    8 + len ≤ bytesWritten data len := by
  unfold bytesWritten wrsz
  rw [Nat.mod_eq_of_lt (by omega)]
  omega

/-- How many frames the FIFO may hold. -/
theorem FifoInv.count_le (h : FifoInv least s pending) :
    pending.length ≤ txFifoSize / (8 + least) := by
  have hwords : ∀ l : List TxCall, (∀ c ∈ l, least ≤ c.len ∧ c.len ≤ 1514) →
      l.length * (8 + least) ≤ 4 * (l.flatMap TxCall.words).length := by
    intro l hl
    induction l with
    | nil => exact Nat.le_of_eq (by simp)
    | cons c l ih =>
      have hc := hl c List.mem_cons_self
      have hbytes := bytesWritten_ge c.data hc.2
      have hlength : 4 * c.words.length = bytesWritten c.data c.len := txWords_length ..
      have hrest := ih fun c' hc' => hl c' (List.mem_cons_of_mem _ hc')
      rw [List.length_cons, List.flatMap_cons, List.length_append, Nat.succ_mul]
      omega
  have hall := hwords pending h.lens
  have hfree := h.free
  rw [← h.words] at hall
  rw [Nat.le_div_iff_mul_le (by omega)]
  omega

/-- The statuses not yet counted make the counters what the wire says; and there
    is room for those of the frames in the FIFO. -/
structure CountInv (least : Nat) (st : TxStats) (s : TxLine) (pending : List TxCall) : Prop where
  nonzero : ∀ w ∈ s.status, w ≠ 0
  counted : s.status.foldl TxStats.count s.stats =
    (s.wire.map wireStatus).foldl TxStats.count st
  bounded : s.status.length + pending.length ≤ 29 + txFifoSize / (8 + least)

variable {st : TxStats}

theorem CountInv.update_eq (h : CountInv least st s pending) :
    s.update = { s with
      status := []
      stats := (s.wire.map wireStatus).foldl TxStats.count st } := by
  unfold TxLine.update
  rw [txUpdateTxcounters_eq h.nonzero, h.counted]

theorem CountInv.update (h : CountInv least st s pending) : CountInv least st s.update pending := by
  rw [h.update_eq]
  refine ⟨by simp, rfl, ?_⟩
  have hbounded := h.bounded
  show 0 + pending.length ≤ _
  omega

/-- A call leaves at most 29 statuses, however many frames are under way. -/
theorem CountInv.call (h : CountInv least st s pending) {c : TxCall}
    (hfifo : FifoInv least (s.call c) (pending ++ [c])) :
    CountInv least st (s.call c) (pending ++ [c]) := by
  have hcount := hfifo.count_le
  have hupdate := txUpdateTxcounters_eq h.nonzero s.stats
  unfold TxLine.call
  dsimp only
  by_cases hmany : 30 ≤ s.status.length
  · rw [if_pos hmany]
    unfold TxLine.update
    dsimp only
    rw [hupdate, h.counted]
    refine ⟨by simp, rfl, ?_⟩
    show 0 + (pending ++ [c]).length ≤ _
    omega
  · rw [if_neg hmany]
    refine ⟨h.nonzero, h.counted, ?_⟩
    show s.status.length + (pending ++ [c]).length ≤ _
    omega

theorem CountInv.transmit {c : TxCall} {rest : List TxCall} (h : CountInv least st s (c :: rest))
    (hleast : 0 < least) (hcap : 29 + txFifoSize / (8 + least) ≤ cap)
    (hlen : least ≤ c.len ∧ c.len ≤ 1514)
    (htake : txTake s.fifo =
      some (⟨c.frame, BitVec.ofNat 16 c.len⟩, rest.flatMap TxCall.words)) (outcome : BitVec 16) :
    CountInv least st (s.transmit cap outcome) rest := by
  have hbounded := h.bounded
  rw [List.length_cons] at hbounded
  have hstatus : txStatusWord (BitVec.ofNat 16 c.len) outcome = wireStatus (c.frame, outcome) := by
    unfold wireStatus
    rw [c.frame_length]
  unfold TxLine.transmit
  rw [htake]
  dsimp only
  -- the status FIFO is not full
  rw [if_pos (by omega), hstatus]
  refine ⟨?_, ?_, ?_⟩
  · intro w hw
    rcases List.mem_append.mp hw with hw | hw
    · exact h.nonzero w hw
    · rw [List.mem_singleton.mp hw]
      apply wireStatus_ne_zero <;> rw [c.frame_length] <;> omega
  · dsimp only
    rw [List.foldl_append, h.counted, List.map_append, List.foldl_append]
    rfl
  · dsimp only
    rw [List.length_append, List.length_singleton]
    omega

theorem countInv_step (hleast : 0 < least) (hcap : 29 + txFifoSize / (8 + least) ≤ cap)
    (hfifo : FifoInv least s pending) (h : CountInv least st s pending)
    (hstep : LineStep cap s a t) (hnext : FifoInv least t (a.queue pending)) :
    CountInv least st t (a.queue pending) := by
  obtain ⟨henabled, rfl⟩ := hstep
  cases a with
  | xmit c => exact h.call hnext
  | respond c => exact h.call hnext
  | transmit outcome =>
    obtain ⟨c, rest, rfl, htake⟩ := hfifo.take henabled
    exact h.transmit hleast hcap (hfifo.lens c List.mem_cons_self) htake outcome
  | tdfa => exact ⟨h.nonzero, h.counted, h.bounded⟩
  | getStats => exact h.update

/-- Every frame is counted once, as sent or as failed. -/
theorem count_packets (st : TxStats) {w : BitVec 32} (h : w &&& 0x80000000 = 0) :
    (st.count w).txPackets + (st.count w).txErrors = st.txPackets + st.txErrors + 1 := by
  unfold TxStats.count
  rw [if_neg (not_not.mpr h)]
  dsimp only
  by_cases hes : w &&& txStsEs ≠ 0
  · rw [if_pos hes]
    split_ifs <;> exact (BitVec.add_assoc ..).symm
  · rw [if_neg hes]
    split_ifs <;> exact add_right_comm ..

theorem count_bytes (st : TxStats) {w : BitVec 32} (h : w &&& 0x80000000 = 0) :
    (st.count w).txBytes = st.txBytes + if w &&& txStsEs = 0 then w >>> 16 else 0 := by
  unfold TxStats.count
  rw [if_neg (not_not.mpr h)]
  dsimp only
  by_cases hes : w &&& txStsEs = 0
  · rw [if_neg (not_not.mpr hes), if_pos hes]
    split_ifs <;> rfl
  · rw [if_pos hes, if_neg hes, add_zero]
    split_ifs <;> rfl

/-- The bytes of the frames that went well. -/
def goodBytes (wire : List (List Byte × BitVec 16)) : Nat :=
  ((wire.filter fun x => wireStatus x &&& txStsEs = 0).map (·.1.length)).sum

theorem goodBytes_cons (x : List Byte × BitVec 16) (wire : List (List Byte × BitVec 16)) :
    goodBytes (x :: wire) =
      (if wireStatus x &&& txStsEs = 0 then x.1.length else 0) + goodBytes wire := by
  unfold goodBytes
  by_cases hes : wireStatus x &&& txStsEs = 0
  · rw [List.filter_cons_of_pos (by simpa using hes), if_pos hes, List.map_cons, List.sum_cons]
  · rw [List.filter_cons_of_neg (by simpa using hes), if_neg hes, Nat.zero_add]

theorem count_wire {wire : List (List Byte × BitVec 16)} (h : ∀ x ∈ wire, x.1.length ≤ 1514)
    (st : TxStats) :
    let st' := (wire.map wireStatus).foldl TxStats.count st
    st'.txPackets + st'.txErrors = st.txPackets + st.txErrors + BitVec.ofNat 32 wire.length ∧
      st'.txBytes = st.txBytes + BitVec.ofNat 32 (goodBytes wire) := by
  induction wire generalizing st with
  | nil => exact ⟨(BitVec.add_zero _).symm, (BitVec.add_zero _).symm⟩
  | cons x wire ih =>
    have hx := h x List.mem_cons_self
    obtain ⟨hpackets, hbytes⟩ :=
      ih (fun y hy => h y (List.mem_cons_of_mem _ hy)) (st.count (wireStatus x))
    rw [count_packets st (wireStatus_reserved hx)] at hpackets
    rw [count_bytes st (wireStatus_reserved hx), wireStatus_length hx] at hbytes
    rw [List.map_cons, List.foldl_cons]
    constructor
    · rw [hpackets, List.length_cons, BitVec.ofNat_add, ← add_assoc]
      exact add_right_comm ..
    · rw [hbytes, goodBytes_cons, BitVec.ofNat_add, ← add_assoc]
      split_ifs <;> rfl

end Lines

end Nic
