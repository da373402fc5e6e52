import VetGumstix.Nic.Checksum
import VetGumstix.Nic.Skb
import VetGumstix.Nic.TxFifo

/-! # The Receive Loop

    `smsc911x_poll` takes packets from the RX FIFOs.  A packet that looks like
    a challenge (protocol IP, `data[9]` ICMP, `data[20]` the attestation type)
    is answered in place: 256 bytes are copied out, handed to `swattARM` or
    `swattARM_db_attack`, copied back, the ICMP checksum is made new, the
    addresses are exchanged and the buffer is sent.  Every other packet goes to
    the network stack.

    `handle_run` runs the answer to an arbitrary buffer: which bytes of
    `skb->data` it touches and what memory it leaves.
-/

namespace Nic

open Bytes Transition

/-! ## Section 1: Answering a challenge -/

/-- `VET_ICMP_TYPE` -/
def vetIcmpType : Byte := 0x02

/-- `unsigned int buf[64]` -/
abbrev Buf := Fin 64 → BitVec 32

def Buf.ofBytes (l : List Byte) : Buf := fun j => (toWords l).getD j 0

def Buf.bytes (b : Buf) : List Byte := toBytes (List.ofFn b)

/-- The two checksum functions the driver calls on the challenge. -/
structure Responder where
  swattARM : Buf → Buf
  swattARMDbAttack : Buf → Buf

/-- Which one is called depends on the ICMP code. -/
def Responder.run (f : Responder) (code : Byte) : Buf → Buf :=
  if code = 0 then f.swattARM else f.swattARMDbAttack

/-- The test for a challenge; `&&` does not look further than it must. -/
def isChallenge : SkbM Bool := do
  let s ← get
  if s.protocol ≠ 0x08 then return false
  let protocol ← getByte 9
  if protocol ≠ 0x01 then return false
  let type ← getByte 20
  return type == vetIcmpType

/-- Put the new payload into the message and make its checksum new. -/
def renewMessage (f : Responder) : SkbM Unit := do
  let buf ← getData 24 256
  -- the ICMP code chooses between the two checksum functions
  let code ← getByte 21
  putData 24 (f.run code (.ofBytes buf)).bytes
  putData 22 [0, 0]
  let message ← getData 20 (64 * 4 + 4)
  putData 22 (le16 (checksum message))

/-- Exchange `n` bytes at the offsets `i` and `j`, over two local arrays. -/
def exchangeData (i j n : Nat) : SkbM Unit := do
  let x ← getData i n
  let y ← getData j n
  putData i y
  putData j x

/-- What `smsc911x_poll` does with a challenge before it sends the buffer. -/
def answer (f : Responder) : SkbM Unit := do
  renewMessage f
  exchangeData 12 16 4  -- the IP addresses
  skbPush 14
  exchangeData 0 6 6    -- the MAC addresses

/-- Answer a challenge; say whether it was one. -/
def handle (f : Responder) : SkbM Bool := do
  if ← isChallenge then
    answer f
    return true
  return false

/-! ## Section 2: The loop -/

/-- `RX_STS_ES_` -/
def rxStsEs : BitVec 32 := 0x00008000
/-- `RX_STS_LENGTH_ERR_` -/
def rxStsLengthErr : BitVec 32 := 0x00001000
/-- `RX_STS_MCAST_` -/
def rxStsMcast : BitVec 32 := 0x00000400
/-- `RX_STS_FRAME_TYPE_` -/
def rxStsFrameType : BitVec 32 := 0x00000020
/-- `RX_STS_CRC_ERR_` -/
def rxStsCrcErr : BitVec 32 := 0x00000002
/-- `INT_STS_RSFL_`, and `INT_EN_RSFL_EN_` -/
def intRsfl : BitVec 32 := 0x00000008

/-- The receive counters of `dev->stats`. -/
structure Stats where
  rxErrors : BitVec 32
  rxCrcErrors : BitVec 32
  rxLengthErrors : BitVec 32
  multicast : BitVec 32
  rxDropped : BitVec 32
  rxPackets : BitVec 32
  rxBytes : BitVec 32

/-- `smsc911x_rx_counterrors` -/
def rxCounterrors (rxstat : BitVec 32) (st : Stats) : Stats :=
  let es := rxstat &&& rxStsEs ≠ 0
  let crcErr := es ∧ rxstat &&& rxStsCrcErr ≠ 0
  let st := if es then { st with rxErrors := st.rxErrors + 1 } else st
  let st := if crcErr then { st with rxCrcErrors := st.rxCrcErrors + 1 } else st
  if crcErr then st
  else
    let st := if rxstat &&& rxStsFrameType ≠ 0 ∧ rxstat &&& rxStsLengthErr ≠ 0 then
      { st with rxLengthErrors := st.rxLengthErrors + 1 } else st
    if rxstat &&& rxStsMcast ≠ 0 then { st with multicast := st.multicast + 1 } else st

def pktlength (rxstat : BitVec 32) : Nat := ((rxstat &&& 0x3FFF0000) >>> 16).toNat

def pktwords (rxstat : BitVec 32) : Nat := (pktlength rxstat + netIpAlign + 3) / 4

/-- The device and what the driver has handed on. -/
structure Device where
  rxStatus : List (BitVec 32)            -- the RX status FIFO
  rxData : List (BitVec 32)              -- the RX data FIFO
  intSts : BitVec 32
  intEn : BitVec 32
  napiScheduled : Bool
  stats : Stats
  tx : TxFifo
  txData : List (BitVec 32)              -- what was written to `TX_DATA_FIFO`
  sent : List (List Byte)                -- the frames given to `smsc911x_hard_start_xmit`
  received : List (BitVec 16 × List Byte) -- the packets given to `netif_receive_skb`

/-- `smsc911x_rx_get_rxstatus` -/
def Device.rxGetRxstatus (d : Device) : BitVec 32 × Device :=
  match d.rxStatus with
  | [] => (0, d)
  | rxstat :: more => (rxstat, { d with rxStatus := more })

/-- `smsc911x_rx_fastforward`: both ways take the packet out of the FIFO. -/
def Device.rxFastforward (d : Device) (words : Nat) : Device :=
  { d with rxData := d.rxData.drop words }

def Device.drop (d : Device) (words : Nat) : Device :=
  let d := d.rxFastforward words
  { d with stats := { d.stats with rxDropped := d.stats.rxDropped + 1 } }

/-- No packet is left: tell NAPI and enable the interrupt again. -/
def Device.complete (d : Device) : Device :=
  { d with intSts := d.intSts &&& ~~~intRsfl, napiScheduled := false, intEn := d.intEn ||| intRsfl }

/-- The buffer of a packet of `length` bytes with the words of the FIFO, as
    `eth_type_trans` leaves it. -/
def receiveSkb {n : Nat} (m : Fresh n) (words : List (BitVec 32)) (length : Nat) : Option Skb :=
  let s := netdevAllocSkb m
  let s := { s with mem := writeBytes s.mem s.data (toBytes words) }
  let s := skbReserve netIpAlign s
  -- `pktlength - 4` in 32 bits: it wraps for a length below 4
  (skbPut ((length + (2 ^ 32 - 4)) % 2 ^ 32) s).map ethTypeTrans

/-- `smsc911x_hard_start_xmit(skb, dev)` -/
def Device.xmit (d : Device) (s : Skb) : Device :=
  { d with
    tx := hardStartXmit s.data s.len d.tx
    txData := d.txData ++ txWords s.mem s.data s.len
    sent := d.sent ++ [s.frame] }

/-- A packet without error for which there is memory. -/
def Device.receive (f : Responder) (rxstat : BitVec 32) (m : Fresh (4 * pktwords rxstat))
    (d : Device) : Option Device := do
  let s ← receiveSkb m (d.rxData.take (pktwords rxstat)) (pktlength rxstat)
  let d := { d with rxData := d.rxData.drop (pktwords rxstat) }
  let (challenge, s) ← (handle f).run s
  let d := if challenge then d.xmit s
    else { d with received := d.received ++ [(s.protocol, s.frame)] }
  return { d with stats := { d.stats with
    rxPackets := d.stats.rxPackets + 1
    rxBytes := d.stats.rxBytes + BitVec.ofNat 32 (pktlength rxstat) - 4 } }

/-- `smsc911x_poll` with `budget` packets left, after `npackets`.  `alloc` is
    the outcome of `netdev_alloc_skb` for the packet with the given number. -/
def poll (f : Responder) (alloc : Nat → (length : Nat) → Option (Fresh length)) :
    Nat → Nat → Device → Option (Nat × Device)
  | 0, npackets, d => some (npackets, d)
  | budget + 1, npackets, d =>
    let (rxstat, d) := d.rxGetRxstatus
    if rxstat = 0 then some (npackets, d.complete)
    else
      let d := { d with stats := rxCounterrors rxstat d.stats }
      if rxstat &&& rxStsEs ≠ 0 then poll f alloc budget (npackets + 1) (d.drop (pktwords rxstat))
      else
        match alloc npackets (4 * pktwords rxstat) with
        | none => some (npackets + 1, d.drop (pktwords rxstat))
        | some m => do
          let d ← d.receive f rxstat m
          poll f alloc budget (npackets + 1) d

/-! ## Section 3: Running the answer -/

/-- The buffer is classified as a challenge. -/
def Skb.Challenge (s : Skb) : Prop :=
  s.protocol = 0x08 ∧ s.mem (s.data + 9) = 0x01 ∧ s.mem (s.data + 20) = vetIcmpType

instance (s : Skb) : Decidable s.Challenge := inferInstanceAs (Decidable (_ ∧ _ ∧ _))

/-- Memory with the new payload and its checksum, for a packet at `a`. -/
def renewed (f : Responder) (m : ByteMem) (a : Nat) : ByteMem :=
  let m := writeBytes m (a + 24) (f.run (m (a + 21)) (.ofBytes (readBytes m (a + 24) 256))).bytes
  let m := writeBytes m (a + 22) [0, 0]
  writeBytes m (a + 22) (le16 (checksum (readBytes m (a + 20) 260)))

section renewed

variable (f : Responder) (m : ByteMem) (a : Nat)

/-- The new payload of a packet at `a`. -/
def newPayload (f : Responder) (m : ByteMem) (a : Nat) : Buf :=
  f.run (m (a + 21)) (.ofBytes (readBytes m (a + 24) 256))

@[simp] theorem Buf.bytes_length (b : Buf) : b.bytes.length = 256 := by simp [Buf.bytes]

@[simp] theorem le16_length (c : BitVec 16) : (le16 c).length = 2 := rfl

theorem renewed_payload :
    readBytes (renewed f m a) (a + 24) 256 = (newPayload f m a).bytes := by
  unfold renewed
  rw [readBytes_writeBytes_apart (.inr (by simp)), readBytes_writeBytes_apart (.inr (by simp)),
    readBytes_writeBytes (Buf.bytes_length _)]
  rfl

/-- The checksum is over type and code, a zeroed field and the new payload. -/
theorem renewed_field :
    readBytes (renewed f m a) (a + 22) 2 =
      le16 (checksum (readBytes m (a + 20) 2 ++ ([0, 0] ++ (newPayload f m a).bytes))) := by
  have hsplit : ∀ m : ByteMem, readBytes m (a + 20) 260 =
      readBytes m (a + 20) 2 ++ (readBytes m (a + 22) 2 ++ readBytes m (a + 24) 256) := by
    intro m
    rw [show 260 = 2 + (2 + 256) from rfl, readBytes_add, readBytes_add]
  unfold renewed
  rw [readBytes_writeBytes (le16_length _), hsplit,
    readBytes_writeBytes_apart (.inl (by omega)), readBytes_writeBytes_apart (.inl (by omega)),
    readBytes_writeBytes (by rfl), readBytes_writeBytes_apart (.inr (by simp)),
    readBytes_writeBytes (Buf.bytes_length _)]
  rfl

/-- Nothing in front of the checksum is changed. -/
theorem renewed_apart {c k : Nat} (h : c + k ≤ a + 22) :
    readBytes (renewed f m a) c k = readBytes m c k := by
  unfold renewed
  rw [readBytes_writeBytes_apart (.inl h), readBytes_writeBytes_apart (.inl h),
    readBytes_writeBytes_apart (.inl (by omega))]

/-- Nor is anything behind the payload. -/
theorem renewed_behind {c k : Nat} (h : a + 280 ≤ c) :
    readBytes (renewed f m a) c k = readBytes m c k := by
  unfold renewed
  rw [readBytes_writeBytes_apart (.inr (by rw [le16_length]; omega)),
    readBytes_writeBytes_apart (.inr (by rw [List.length_cons, List.length_singleton]; omega)),
    readBytes_writeBytes_apart (.inr (by rw [Buf.bytes_length]; omega))]

/-- **The answer in memory**, to a frame at `a`: both pairs of addresses are
    exchanged, the payload and the ICMP checksum are new, and the rest is kept. -/
theorem readBytes_answered (k : Nat) :
    readBytes (exchanged (exchanged (renewed f m (a + 14)) (a + 14 + 12) (a + 14 + 16) 4)
      a (a + 6) 6) a (294 + k) =
    readBytes m (a + 6) 6 ++ (readBytes m a 6 ++ (readBytes m (a + 12) 14 ++
      (readBytes m (a + 30) 4 ++ (readBytes m (a + 26) 4 ++ (readBytes m (a + 34) 2 ++
        (le16 (checksum (readBytes m (a + 34) 2 ++ ([0, 0] ++ (newPayload f m (a + 14)).bytes))) ++
          ((newPayload f m (a + 14)).bytes ++ readBytes m (a + 294) k))))))) := by
  have hsizes : 294 + k = 6 + (6 + (14 + (4 + (4 + (2 + (2 + (256 + k))))))) := by omega
  -- where the two exchanges do not reach
  have hkeep : ∀ c k, a + 12 ≤ c → c + k ≤ a + 26 ∨ a + 34 ≤ c →
      readBytes (exchanged (exchanged (renewed f m (a + 14)) (a + 14 + 12) (a + 14 + 16) 4)
        a (a + 6) 6) c k = readBytes (renewed f m (a + 14)) c k := by
    intro c k hc hck
    rw [readBytes_exchanged_apart (by omega) (by omega),
      readBytes_exchanged_apart (by omega) (by omega)]
  -- the MAC addresses lie in front of all that was written before them
  have hmac : ∀ c k, c + k ≤ a + 12 →
      readBytes (exchanged (renewed f m (a + 14)) (a + 14 + 12) (a + 14 + 16) 4) c k =
        readBytes m c k := by
    intro c k hck
    rw [readBytes_exchanged_apart (by omega) (by omega), renewed_apart _ _ _ (by omega)]
  rw [hsizes, readBytes_add, readBytes_add, readBytes_add, readBytes_add, readBytes_add,
    readBytes_add, readBytes_add, readBytes_add]
  congr 1
  · rw [readBytes_exchanged_left (by omega), hmac _ _ (by omega)]
  congr 1
  · rw [readBytes_exchanged_right, hmac _ _ (by omega)]
  congr 1
  · rw [hkeep _ _ (by omega) (by omega), renewed_apart _ _ _ (by omega)]
  congr 1
  · rw [readBytes_exchanged_apart (by omega) (by omega)]
    exact (readBytes_exchanged_left (by omega)).trans (renewed_apart _ _ _ (by omega))
  congr 1
  · rw [readBytes_exchanged_apart (by omega) (by omega)]
    exact readBytes_exchanged_right.trans (renewed_apart _ _ _ (by omega))
  congr 1
  · rw [hkeep _ _ (by omega) (by omega), renewed_apart _ _ _ (by omega)]
  congr 1
  · rw [hkeep _ _ (by omega) (by omega)]
    exact renewed_field f m (a + 14)
  congr 1
  · rw [hkeep _ _ (by omega) (by omega)]
    exact renewed_payload f m (a + 14)
  · rw [hkeep _ _ (by omega) (by omega), renewed_behind _ _ _ (by omega)]

end renewed

def renewAccesses (len : Nat) : List Access :=
  [⟨24, 256, len⟩, ⟨21, 1, len⟩, ⟨24, 256, len⟩, ⟨22, 2, len⟩, ⟨20, 260, len⟩, ⟨22, 2, len⟩]

def exchangeAccesses (i j n len : Nat) : List Access :=
  [⟨i, n, len⟩, ⟨j, n, len⟩, ⟨i, n, len⟩, ⟨j, n, len⟩]

theorem renewMessage_run (f : Responder) (s : Skb) :
    (renewMessage f).run s = some ((),
      { s with
        mem := renewed f s.mem s.data
        accesses := s.accesses ++ renewAccesses s.len }) := by
  simp only [renewMessage, StateT.run_bind, getByte_run, getData_run, putData_run, Skb.note,
    Option.bind_eq_bind, Option.bind_some]
  simp [renewed, renewAccesses, le16]

theorem exchangeData_run (i j n : Nat) (s : Skb) :
    (exchangeData i j n).run s = some ((),
      { s with
        mem := exchanged s.mem (s.data + i) (s.data + j) n
        accesses := s.accesses ++ exchangeAccesses i j n s.len }) := by
  simp only [exchangeData, StateT.run_bind, getData_run, putData_run, Skb.note,
    Option.bind_eq_bind, Option.bind_some]
  simp [exchanged, exchangeAccesses]

/-- The buffer as the answer leaves it. -/
def Skb.answered (f : Responder) (s : Skb) : Skb :=
  { s with
    mem := exchanged (exchanged (renewed f s.mem s.data) (s.data + 12) (s.data + 16) 4)
      (s.data - 14 + 0) (s.data - 14 + 6) 6
    data := s.data - 14
    len := (s.len + 14) % 2 ^ 32
    accesses := s.accesses ++ renewAccesses s.len ++ exchangeAccesses 12 16 4 s.len ++
      exchangeAccesses 0 6 6 ((s.len + 14) % 2 ^ 32) }

theorem answered_len (f : Responder) (s : Skb) :
    (((s.note 9 1).note 20 1).answered f).len = (s.len + 14) % 2 ^ 32 := rfl

/-- **The answer**, which does not hit a `BUG()` when there is an Ethernet
    header in front of the data. -/
theorem answer_run (f : Responder) {s : Skb} (hdata : 14 ≤ s.data) :
    (answer f).run s = some ((), s.answered f) := by
  -- nothing before `skb_push` moves the data
  have hpush : ∀ t : Skb, t.data = s.data → (skbPush 14).run t =
      some ((), { t with data := t.data - 14, len := (t.len + 14) % 2 ^ 32 }) := by
    intro t ht
    exact skbPush_run _ _ (ht ▸ hdata)
  simp only [answer, StateT.run_bind, renewMessage_run, exchangeData_run, hpush,
    Option.bind_eq_bind, Option.bind_some]
  rfl

/-- The classification of a challenge looks at two bytes. -/
theorem isChallenge_run {s : Skb} (h : s.Challenge) :
    isChallenge.run s = some (true, (s.note 9 1).note 20 1) := by
  obtain ⟨hproto, hicmp, htype⟩ := h
  simp [isChallenge, hproto, hicmp, htype, Skb.note]

/-- What is not a challenge stays as it is, but for the bytes looked at. -/
theorem isChallenge_run_of_not {s : Skb} (h : ¬ s.Challenge) :
    ∃ xs, isChallenge.run s = some (false, { s with accesses := xs }) := by
  by_cases hproto : s.protocol = 8#16
  · by_cases hicmp : s.mem (s.data + 9) = 1#8
    · have htype : s.mem (s.data + 20) ≠ vetIcmpType := fun htype => h ⟨hproto, hicmp, htype⟩
      exact ⟨_, by simp [isChallenge, hproto, hicmp, htype, Skb.note]; rfl⟩
    · exact ⟨_, by simp [isChallenge, hproto, hicmp, Skb.note]; rfl⟩
  · exact ⟨s.accesses, by simp [isChallenge, hproto]⟩

theorem handle_run {f : Responder} {s : Skb} (h : s.Challenge) (hdata : 14 ≤ s.data) :
    (handle f).run s = some (true, ((s.note 9 1).note 20 1).answered f) := by
  have hanswer := answer_run f (s := (s.note 9 1).note 20 1) hdata
  simp [handle, isChallenge_run h, hanswer]

theorem handle_run_of_not {f : Responder} {s : Skb} (h : ¬ s.Challenge) :
    ∃ xs, (handle f).run s = some (false, { s with accesses := xs }) := by
  obtain ⟨xs, hrun⟩ := isChallenge_run_of_not h
  exact ⟨xs, by simp [handle, hrun]⟩

/-! ## Section 4: The received buffer -/

@[simp] theorem ethTypeTrans_mem (s : Skb) : (ethTypeTrans s).mem = s.mem := by
  unfold ethTypeTrans skbPullInline
  split <;> rfl

@[simp] theorem ethTypeTrans_accesses (s : Skb) : (ethTypeTrans s).accesses = s.accesses := by
  unfold ethTypeTrans skbPullInline
  split <;> rfl

/-- A frame with a whole Ethernet header. -/
theorem ethTypeTrans_of_le {s : Skb} (h : ethHlen ≤ s.len) :
    (ethTypeTrans s).data = s.data + ethHlen ∧ (ethTypeTrans s).len = s.len - ethHlen := by
  have hlen : ¬ s.len < ethHlen := Nat.not_lt.mpr h
  simp [ethTypeTrans, skbPullInline, hlen]

theorem ethTypeTrans_of_lt {s : Skb} (h : s.len < ethHlen) :
    (ethTypeTrans s).data = s.data ∧ (ethTypeTrans s).len = s.len := by
  simp [ethTypeTrans, skbPullInline, h]

/-- The protocol of a frame that carries an IPv4 datagram. -/
theorem ethTypeTrans_protocol {s : Skb} (h : loadHalf s.mem (s.data + 12) = 0x0008) :
    (ethTypeTrans s).protocol = 0x0008 := by
  have hmem : (skbPullInline ethHlen s).mem = s.mem := by
    unfold skbPullInline
    split <;> rfl
  have hlarge : 1536 ≤ (swapHalf 0x0008).toNat := by decide
  simp only [ethTypeTrans, hmem, h, hlarge, if_true]

/-- The buffer of a packet before `eth_type_trans`: the frame starts behind the
    two bytes that align it, and the checksum at its end is cut off. -/
def filledSkb {n : Nat} (m : Fresh n) (words : List (BitVec 32)) (length : Nat) : Skb where
  mem := writeBytes m.mem netSkbPad (toBytes words)
  data := netSkbPad + netIpAlign
  tail := netSkbPad + netIpAlign + length - 4
  limit := m.limit
  len := (length + (2 ^ 32 - 4)) % 2 ^ 32
  protocol := 0
  accesses := []

/-- `skb_put` does not panic: the buffer has room for all words of the
    packet. -/
theorem receiveSkb_eq {n length : Nat} (m : Fresh n) (words : List (BitVec 32))
    (hlen : length < 2 ^ 14) (hroom : length + netIpAlign ≤ n) :
    receiveSkb m words length = some (ethTypeTrans (filledSkb m words length)) := by
  have hlimit := m.room
  -- the length wraps below 4, and the tail comes out right all the same
  have htail : (netSkbPad + netIpAlign + (length + (2 ^ 32 - 4)) % 2 ^ 32) % 2 ^ 32 =
      netSkbPad + netIpAlign + length - 4 := by
    unfold netSkbPad netIpAlign
    omega
  have hput : ¬ m.limit < netSkbPad + netIpAlign + length - 4 := by omega
  simp only [receiveSkb, skbPut, skbReserve, netdevAllocSkb, htail, hput, if_false, Option.map_some]
  simp [filledSkb]

/-- The three ranges of the packet length: with a whole Ethernet header, with
    less, and without a whole frame checksum. -/
theorem filledSkb_len {n length : Nat} (m : Fresh n) (words : List (BitVec 32))
    (hlen : length < 2 ^ 14) :
    18 ≤ length ∧ (ethTypeTrans (filledSkb m words length)).len = length - 18 ∨
    (4 ≤ length ∧ length < 18) ∧ (ethTypeTrans (filledSkb m words length)).len = length - 4 ∨
    length < 4 ∧ (ethTypeTrans (filledSkb m words length)).len = length + 2 ^ 32 - 18 := by
  have hfilled : (filledSkb m words length).len = (length + (2 ^ 32 - 4)) % 2 ^ 32 := rfl
  -- `eth_type_trans` takes the header off only when there is a whole one
  by_cases hheader : (filledSkb m words length).len < ethHlen
  · obtain ⟨-, heq⟩ := ethTypeTrans_of_lt hheader
    unfold ethHlen at hheader
    omega
  · obtain ⟨-, heq⟩ := ethTypeTrans_of_le (Nat.not_lt.mp hheader)
    unfold ethHlen at hheader heq
    omega

theorem filledSkb_data {n : Nat} (m : Fresh n) (words : List (BitVec 32)) (length : Nat) :
    14 ≤ (ethTypeTrans (filledSkb m words length)).data := by
  have hdata : (filledSkb m words length).data = 66 := rfl
  by_cases hheader : (filledSkb m words length).len < ethHlen
  · rw [(ethTypeTrans_of_lt hheader).1]
    omega
  · rw [(ethTypeTrans_of_le (Nat.not_lt.mp hheader)).1]
    omega

theorem pktlength_lt (rxstat : BitVec 32) : pktlength rxstat < 2 ^ 14 := by
  have hmask : (rxstat &&& 0x3FFF0000).toNat ≤ 0x3FFF0000 := by
    rw [BitVec.toNat_and]
    exact Nat.and_le_right
  unfold pktlength
  rw [BitVec.toNat_ushiftRight, Nat.shiftRight_eq_div_pow]
  omega

theorem pktwords_room (rxstat : BitVec 32) :
    pktlength rxstat + netIpAlign ≤ 4 * pktwords rxstat := by
  unfold pktwords
  omega

/-! ## Section 5: One packet of the loop -/

theorem rxGetRxstatus_cons {d : Device} {rxstat : BitVec 32} {more : List (BitVec 32)}
    (h : d.rxStatus = rxstat :: more) :
    d.rxGetRxstatus = (rxstat, { d with rxStatus := more }) := by
  unfold Device.rxGetRxstatus
  rw [h]

/-- The loop takes the first packet when it has no error and there is memory
    for it. -/
theorem poll_receive {f : Responder} {alloc : Nat → (length : Nat) → Option (Fresh length)}
    {d : Device} {rxstat : BitVec 32} {more : List (BitVec 32)} {npackets : Nat}
    {m : Fresh (4 * pktwords rxstat)} (budget : Nat) (hstatus : d.rxStatus = rxstat :: more)
    (hne : rxstat ≠ 0) (hes : rxstat &&& rxStsEs = 0)
    (halloc : alloc npackets (4 * pktwords rxstat) = some m) :
    poll f alloc (budget + 1) npackets d =
      (({ d with rxStatus := more, stats := rxCounterrors rxstat d.stats } : Device).receive f
        rxstat m).bind (poll f alloc budget (npackets + 1)) := by
  rw [poll, rxGetRxstatus_cons hstatus]
  simp only [hne, if_false, hes, ne_eq, not_true_eq_false, halloc]
  rfl

/-- An answered challenge is sent. -/
theorem receive_challenge {f : Responder} {rxstat : BitVec 32} {m : Fresh (4 * pktwords rxstat)}
    {d : Device} {s s' : Skb}
    (hreceive : receiveSkb m (d.rxData.take (pktwords rxstat)) (pktlength rxstat) = some s)
    (hrun : (handle f).run s = some (true, s')) :
    ∃ d', d.receive f rxstat m = some d' ∧ d'.sent = d.sent ++ [s'.frame] ∧
      d'.tx = hardStartXmit s'.data s'.len d.tx ∧ d'.rxStatus = d.rxStatus := by
  simp only [Device.receive, hreceive, hrun, Option.bind_eq_bind, Option.bind_some, if_true]
  exact ⟨_, rfl, rfl, rfl, rfl⟩

/-- Every other packet goes to the network stack as it came, and nothing is
    sent. -/
theorem receive_other {f : Responder} {rxstat : BitVec 32} {m : Fresh (4 * pktwords rxstat)}
    {d : Device} {s : Skb}
    (hreceive : receiveSkb m (d.rxData.take (pktwords rxstat)) (pktlength rxstat) = some s)
    (h : ¬ s.Challenge) :
    ∃ d', d.receive f rxstat m = some d' ∧ d'.received = d.received ++ [(s.protocol, s.frame)] ∧
      d'.sent = d.sent ∧ d'.tx = d.tx ∧ d'.rxStatus = d.rxStatus := by
  obtain ⟨xs, hrun⟩ := handle_run_of_not (f := f) h
  simp only [Device.receive, hreceive, hrun, Option.bind_eq_bind, Option.bind_some,
    Bool.false_eq_true, if_false]
  exact ⟨_, rfl, rfl, rfl, rfl, rfl⟩

/-! ## Section 6: The loop as a producer

    What `smsc911x_poll` does to the TX FIFO is a run of the transmit
    transitions, made of responses only. -/

/-- A packet is received without a `BUG()`, and the FIFO gets at most one
    response, of at most 1514 bytes for a packet of an allowed length. -/
theorem receive_tx (f : Responder) (rxstat : BitVec 32) (m : Fresh (4 * pktwords rxstat))
    (d : Device) :
    ∃ d', d.receive f rxstat m = some d' ∧ d'.rxStatus = d.rxStatus ∧
      (d'.tx = d.tx ∨ ∃ data len, d'.tx = hardStartXmit data len d.tx ∧
        (4 ≤ pktlength rxstat → pktlength rxstat ≤ 1518 → len ≤ 1514)) := by
  have hreceive := receiveSkb_eq m (d.rxData.take (pktwords rxstat)) (pktlength_lt rxstat)
    (pktwords_room rxstat)
  have hdata := filledSkb_data m (d.rxData.take (pktwords rxstat)) (pktlength rxstat)
  have hlen := filledSkb_len m (d.rxData.take (pktwords rxstat)) (pktlength_lt rxstat)
  generalize ethTypeTrans (filledSkb m (d.rxData.take (pktwords rxstat)) (pktlength rxstat)) = s
    at hreceive hdata hlen
  by_cases hchallenge : s.Challenge
  · obtain ⟨d', hd', -, htx, hstatus⟩ :=
      receive_challenge hreceive (handle_run (f := f) hchallenge hdata)
    refine ⟨d', hd', hstatus, .inr ⟨_, _, htx, ?_⟩⟩
    intro hmin hmax
    rw [answered_len]
    omega
  · obtain ⟨d', hd', -, -, htx, hstatus⟩ := receive_other (f := f) hreceive hchallenge
    exact ⟨d', hd', hstatus, .inl htx⟩

/-- What one round of the loop does: it ends without touching the FIFO, it
    goes on after a dropped packet, or it goes on after a received one. -/
theorem poll_cases (f : Responder) (alloc : Nat → (length : Nat) → Option (Fresh length))
    (budget npackets : Nat) (d : Device) :
    (∃ k d', poll f alloc (budget + 1) npackets d = some (k, d') ∧ k ≤ npackets + 1 ∧
      d'.tx = d.tx) ∨
    ∃ rxstat more d₁, d.rxStatus = rxstat :: more ∧ d₁.rxStatus = more ∧
      poll f alloc (budget + 1) npackets d = poll f alloc budget (npackets + 1) d₁ ∧
      (d₁.tx = d.tx ∨ ∃ data len, d₁.tx = hardStartXmit data len d.tx ∧
        (4 ≤ pktlength rxstat → pktlength rxstat ≤ 1518 → len ≤ 1514)) := by
  cases hstatus : d.rxStatus with
  | nil =>
    left
    refine ⟨npackets, d.complete, ?_, Nat.le_succ _, rfl⟩
    simp only [poll, Device.rxGetRxstatus, hstatus, if_true]
  | cons rxstat more =>
    have hget := rxGetRxstatus_cons hstatus
    by_cases hzero : rxstat = 0
    · -- a status of zero reads as an empty FIFO
      left
      refine ⟨npackets, ({ d with rxStatus := more } : Device).complete, ?_, Nat.le_succ _, rfl⟩
      rw [poll, hget]
      simp only [hzero, if_true]
    by_cases hes : rxstat &&& rxStsEs = 0
    · cases halloc : alloc npackets (4 * pktwords rxstat) with
      | none =>
        -- without memory the packet is dropped and the loop ends
        left
        refine ⟨npackets + 1, ({ d with rxStatus := more, stats := rxCounterrors rxstat d.stats } :
          Device).drop (pktwords rxstat), ?_, Nat.le_refl _, rfl⟩
        rw [poll, hget]
        simp only [hzero, if_false, hes, ne_eq, not_true_eq_false, halloc]
      | some m =>
        right
        obtain ⟨d', hd', hmore, htx⟩ := receive_tx f rxstat m
          { d with rxStatus := more, stats := rxCounterrors rxstat d.stats }
        refine ⟨rxstat, more, d', rfl, hmore, ?_, htx⟩
        rw [poll_receive budget hstatus hzero hes halloc, hd', Option.bind_some]
    · -- a packet with an error is dropped and the loop goes on
      right
      refine ⟨rxstat, more, ({ d with rxStatus := more, stats := rxCounterrors rxstat d.stats } :
        Device).drop (pktwords rxstat), rfl, rfl, ?_, .inl rfl⟩
      rw [poll, hget]
      simp only [hzero, if_false, hes, ne_eq, not_false_eq_true, if_true]

/-- **The loop always returns**, within its budget, without a `BUG()`; and for
    packets of lengths an Ethernet device delivers it takes the TX FIFO through
    a run of responses. -/
theorem poll_responds (f : Responder) (alloc : Nat → (length : Nat) → Option (Fresh length))
    (budget npackets : Nat) (d : Device) :
    ∃ k d', poll f alloc budget npackets d = some (k, d') ∧ k ≤ npackets + budget ∧
      ((∀ w ∈ d.rxStatus, 4 ≤ pktlength w ∧ pktlength w ≤ 1518) →
        ∃ tr, Run TxStep d.tx tr d'.tx ∧ ∀ x ∈ tr, ∃ data len, x.action = .respond data len) := by
  induction budget generalizing npackets d with
  | zero => exact ⟨npackets, d, rfl, Nat.le_refl _, fun _ => ⟨[], .nil _, by simp⟩⟩
  | succ budget ih =>
    rcases poll_cases f alloc budget npackets d with
      ⟨k, d', hpoll, hk, htx⟩ | ⟨rxstat, more, d₁, hstatus, hmore, hpoll, htx⟩
    · refine ⟨k, d', hpoll, by omega, fun _ => ⟨[], ?_, by simp⟩⟩
      rw [htx]
      exact .nil _
    · obtain ⟨k, d', hrest, hk, hrun⟩ := ih (npackets + 1) d₁
      refine ⟨k, d', hpoll.trans hrest, by omega, ?_⟩
      intro hpackets
      have hfirst := hpackets rxstat (by rw [hstatus]; exact List.mem_cons_self ..)
      have hothers : ∀ w ∈ d₁.rxStatus, 4 ≤ pktlength w ∧ pktlength w ≤ 1518 := by
        intro w hw
        apply hpackets
        rw [hstatus, ← hmore]
        exact List.mem_cons_of_mem _ hw
      obtain ⟨tr, htr, hall⟩ := hrun hothers
      -- a round is no step of the FIFO, or one response
      rcases htx with htx | ⟨data, len, htx, hlen⟩
      · rw [htx] at htr
        exact ⟨tr, htr, hall⟩
      · have hstep : TxStep d.tx (.respond data len) d₁.tx := ⟨hlen hfirst.1 hfirst.2, htx⟩
        refine ⟨_, .cons hstep htr, ?_⟩
        intro x hx
        rcases List.mem_cons.mp hx with rfl | hx
        · exact ⟨data, len, rfl⟩
        · exact hall x hx

end Nic
