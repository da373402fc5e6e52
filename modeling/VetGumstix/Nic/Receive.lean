import VetGumstix.Framework.Transition
import VetGumstix.Nic.Exchange

/-! # From the Wire to the Driver

    The chip puts a received frame into two FIFOs: one word of status, and the
    words of the frame.  `smsc911x_poll` takes the status first and learns from
    it how many words to take, so that one wrong count would cut every frame
    behind it.

    `frames_in_order`: however frames arrive between the rounds of the loop and
    wherever memory runs out, every frame meets one fate, in its order.  It is
    dropped, for an error or for want of memory, or handed to the network stack
    with the right protocol and bytes, or answered with the frame `replyTo`
    makes of it; and the counters say how many there were of each.
-/

namespace Nic

open Bytes Transition

/-! ## Section 1: Frames -/

/-- A frame in the RX FIFOs, two bytes behind a word boundary.  What has no error
    is as long as an Ethernet frame. -/
structure RxFrame where
  status : BitVec 32
  words : List (BitVec 32)
  count : words.length = pktwords status
  nonzero : status ≠ 0
  least : status &&& rxStsEs = 0 → 64 ≤ pktlength status

/-- The frame, without its checksum. -/
def RxFrame.frame (x : RxFrame) : List Byte :=
  ((toBytes x.words).drop netIpAlign).take (pktlength x.status - 4)

/-- Two bytes of a frame as a little-endian host loads them. -/
def halfAt (l : List Byte) (i : Nat) : BitVec 16 := l.getD (i + 1) 0 ++ l.getD i 0

/-- The protocol a frame is for: its type, or one of the two the kernel has for
    frames with a length in its place. -/
def etherProtocol (frame : List Byte) : BitVec 16 :=
  if 1536 ≤ (swapHalf (halfAt frame 12)).toNat then halfAt frame 12
  else if halfAt frame 14 = 0xFFFF then swapHalf 0x0001
  else swapHalf 0x0004

/-- An IPv4 datagram without options with an attestation message. -/
def ChallengeFrame (frame : List Byte) : Prop :=
  etherProtocol frame = 0x08 ∧ frame.getD 23 0 = 0x01 ∧ frame.getD 34 0 = vetIcmpType

instance (frame : List Byte) : Decidable (ChallengeFrame frame) :=
  inferInstanceAs (Decidable (_ ∧ _ ∧ _))

/-- What becomes of a frame. -/
inductive RxOutcome where
  | error
  | starved  -- there is no memory for it
  | stack (protocol : BitVec 16) (data : List Byte)
  | reply (frame : List Byte)

/-- The reply to a challenge of at least 294 bytes: the MAC addresses and the IP
    addresses are exchanged, the payload is what the checksum function makes of
    it, the ICMP checksum is made new, and the rest is kept. -/
def replyTo (f : Responder) (l : List Byte) : List Byte :=
  let part := fun i n => (l.drop i).take n
  let payload := (f.run (l.getD 35 0) (.ofBytes (part 38 256))).bytes
  part 6 6 ++ (part 0 6 ++ (part 12 14 ++ (part 30 4 ++ (part 26 4 ++ (part 34 2 ++
    (le16 (checksum (part 34 2 ++ ([0, 0] ++ payload))) ++ (payload ++ l.drop 294)))))))

/-- The fates a frame may meet. -/
inductive Fate (f : Responder) (x : RxFrame) : RxOutcome → Prop where
  | error : x.status &&& rxStsEs ≠ 0 → Fate f x .error
  | starved : x.status &&& rxStsEs = 0 → Fate f x .starved
  | stack : x.status &&& rxStsEs = 0 → ¬ ChallengeFrame x.frame →
      Fate f x (.stack (etherProtocol x.frame) (x.frame.drop ethHlen))
  /-- The reply is as long as the challenge.  The driver takes 294 bytes all the
      same: `behind` is what lies behind a shorter one in the buffer. -/
  | reply : ∀ behind : List Byte, x.status &&& rxStsEs = 0 → ChallengeFrame x.frame →
      behind.length = 294 - x.frame.length →
      Fate f x (.reply ((replyTo f (x.frame ++ behind)).take x.frame.length))

/-- With memory for it, a challenge that is long enough is answered, from its own
    bytes alone. -/
theorem Fate.of_challenge {f : Responder} {x : RxFrame} {o : RxOutcome} (h : Fate f x o)
    (hgood : x.status &&& rxStsEs = 0) (hchallenge : ChallengeFrame x.frame)
    (hlong : 294 ≤ x.frame.length) (hmemory : o ≠ .starved) :
    o = .reply ((replyTo f x.frame).take x.frame.length) := by
  cases h with
  | error herror => exact absurd hgood herror
  | starved => exact absurd rfl hmemory
  | stack _ hnot => exact absurd hchallenge hnot
  | reply behind _ _ hbehind =>
    have hnil : behind = [] := List.eq_nil_of_length_eq_zero (by omega)
    rw [hnil, List.append_nil]

def RxOutcome.toStack : RxOutcome → Option (BitVec 16 × List Byte)
  | .stack protocol data => some (protocol, data)
  | _ => none

def RxOutcome.replied : RxOutcome → Option (List Byte)
  | .reply frame => some frame
  | _ => none

def RxOutcome.isError : RxOutcome → Bool
  | .error => true
  | _ => false

def RxOutcome.isDropped : RxOutcome → Bool
  | .error => true
  | .starved => true
  | _ => false

/-- The bytes that count: all of a frame that is not dropped, without its
    checksum. -/
def RxOutcome.bytes : RxOutcome → Nat
  | .stack _ data => ethHlen + data.length
  | .reply frame => frame.length
  | _ => 0

/-- The FIFOs hold the frames. -/
structure Device.Holds (d : Device) (frames : List RxFrame) : Prop where
  status : d.rxStatus = frames.map RxFrame.status
  data   : d.rxData = frames.flatMap RxFrame.words

/-- The device went from `d` to `d'` over the frames `done`, with `outs` as
    their outcomes.  With ample memory none of them is starved. -/
structure Processed (f : Responder) (ample : Prop) (d : Device) (done : List RxFrame)
    (outs : List RxOutcome) (d' : Device) : Prop where
  fates    : List.Forall₂ (Fate f) done outs
  memory   : ample → .starved ∉ outs
  received : d'.received = d.received ++ outs.filterMap RxOutcome.toStack
  sent     : d'.sent = d.sent ++ outs.filterMap RxOutcome.replied
  packets  : d'.stats.rxPackets =
    d.stats.rxPackets + BitVec.ofNat 32 (outs.countP (!·.isDropped))
  dropped  : d'.stats.rxDropped = d.stats.rxDropped + BitVec.ofNat 32 (outs.countP (·.isDropped))
  errors   : d'.stats.rxErrors = d.stats.rxErrors + BitVec.ofNat 32 (outs.countP (·.isError))
  bytes    : d'.stats.rxBytes = d.stats.rxBytes + BitVec.ofNat 32 (outs.map RxOutcome.bytes).sum

section Fates

variable {f : Responder} {ample : Prop} {d e d' : Device}

theorem Processed.append {xs ys : List RxFrame} {os ps : List RxOutcome}
    (h : Processed f ample d xs os e) (h' : Processed f ample e ys ps d') :
    Processed f ample d (xs ++ ys) (os ++ ps) d' where
  fates := List.rel_append h.fates h'.fates
  memory := by
    intro hample hmem
    rcases List.mem_append.mp hmem with hmem | hmem
    · exact h.memory hample hmem
    · exact h'.memory hample hmem
  received := by rw [h'.received, h.received, List.append_assoc, List.filterMap_append]
  sent := by rw [h'.sent, h.sent, List.append_assoc, List.filterMap_append]
  packets := by rw [h'.packets, h.packets, List.countP_append, BitVec.ofNat_add, add_assoc]
  dropped := by rw [h'.dropped, h.dropped, List.countP_append, BitVec.ofNat_add, add_assoc]
  errors := by rw [h'.errors, h.errors, List.countP_append, BitVec.ofNat_add, add_assoc]
  bytes := by
    rw [h'.bytes, h.bytes, List.map_append, List.sum_append, BitVec.ofNat_add, add_assoc]

/-- Nothing is taken; the interrupt may change. -/
theorem Processed.nil (hreceived : d'.received = d.received) (hsent : d'.sent = d.sent)
    (hstats : d'.stats = d.stats) : Processed f ample d [] [] d' where
  fates := .nil
  memory := fun _ => List.not_mem_nil
  received := by rw [hreceived, List.filterMap_nil, List.append_nil]
  sent := by rw [hsent, List.filterMap_nil, List.append_nil]
  packets := by rw [hstats]; exact (BitVec.add_zero _).symm
  dropped := by rw [hstats]; exact (BitVec.add_zero _).symm
  errors := by rw [hstats]; exact (BitVec.add_zero _).symm
  bytes := by rw [hstats]; exact (BitVec.add_zero _).symm

/-! ## Section 2: The buffer of a frame -/

theorem byte_of_read {m : ByteMem} {a n i : Nat} {l : List Byte} (h : readBytes m a n = l)
    (hi : i < n) : m (a + i) = l.getD i 0 := by
  rw [← h, List.getD_eq_getElem?_getD, readBytes_getElem? hi]
  rfl

theorem half_of_read {m : ByteMem} {a n i : Nat} {l : List Byte} (h : readBytes m a n = l)
    (hi : i + 1 < n) : loadHalf m (a + i) = halfAt l i := by
  unfold loadHalf halfAt
  rw [byte_of_read h (Nat.lt_of_succ_lt hi), Nat.add_assoc, byte_of_read h hi]

theorem RxFrame.frame_length (x : RxFrame) : x.frame.length = pktlength x.status - 4 := by
  have hroom := pktwords_room x.status
  unfold RxFrame.frame
  rw [List.length_take, List.length_drop, toBytes_length, x.count]
  omega

/-- The buffer holds the frame, with the data behind its header. -/
structure Buffered (x : RxFrame) (s : Skb) : Prop where
  least    : 64 ≤ pktlength x.status
  data     : s.data = 66 + ethHlen
  len      : s.len = pktlength x.status - 18
  read     : readBytes s.mem 66 (pktlength x.status - 4) = x.frame
  protocol : s.protocol = etherProtocol x.frame

/-- A frame without error is copied into the buffer and found to be of its
    protocol. -/
theorem RxFrame.buffered (x : RxFrame) (hgood : x.status &&& rxStsEs = 0)
    (m : Fresh (4 * pktwords x.status)) :
    ∃ s, receiveSkb m x.words (pktlength x.status) = some s ∧ Buffered x s := by
  have hleast := x.least hgood
  have hlt := pktlength_lt x.status
  have hroom := pktwords_room x.status
  refine ⟨_, receiveSkb_eq m x.words hlt hroom, ?_⟩
  generalize hs : filledSkb m x.words (pktlength x.status) = s
  have hdata : s.data = 66 := by
    rw [← hs]
    rfl
  have hlen : s.len = pktlength x.status - 4 := by
    rw [← hs]
    show (pktlength x.status + (2 ^ 32 - 4)) % 2 ^ 32 = _
    omega
  have hread : readBytes s.mem 66 (pktlength x.status - 4) = x.frame := by
    have hsplit : toBytes x.words = (toBytes x.words).take netIpAlign ++ (x.frame ++
        ((toBytes x.words).drop netIpAlign).drop (pktlength x.status - 4)) := by
      rw [RxFrame.frame, List.take_append_drop, List.take_append_drop]
    rw [← hs]
    apply readBytes_writeBytes_part _ _ _ hsplit
    · rw [List.length_take, toBytes_length, x.count]
      show 66 = netSkbPad + min 2 (4 * pktwords x.status)
      unfold netSkbPad
      omega
    · exact x.frame_length.symm
  obtain ⟨hdata', hlen'⟩ := ethTypeTrans_of_le (s := s) (by rw [hlen]; unfold ethHlen; omega)
  refine ⟨hleast, by rw [hdata', hdata], ?_, by rw [ethTypeTrans_mem]; exact hread, ?_⟩
  · rw [hlen', hlen]
    unfold ethHlen
    omega
  · have hpull : skbPullInline ethHlen s =
        { s with data := s.data + ethHlen, len := s.len - ethHlen } := by
      unfold skbPullInline
      rw [if_neg (by rw [hlen]; unfold ethHlen; omega)]
    have htype := half_of_read hread (show 12 + 1 < pktlength x.status - 4 by omega)
    have hnext := half_of_read hread (show ethHlen + 1 < pktlength x.status - 4 by
      unfold ethHlen; omega)
    have hlong : 2 ≤ pktlength x.status - 4 - ethHlen := by unfold ethHlen; omega
    unfold ethTypeTrans etherProtocol
    simp only [hpull, hdata, hlen, htype, hnext, hlong, true_and]
    rfl

/-- The reply to a frame in memory is the answer there. -/
theorem replyTo_read (f : Responder) (m : ByteMem) (a k : Nat) :
    readBytes (exchanged (exchanged (renewed f m (a + 14)) (a + 14 + 12) (a + 14 + 16) 4)
      a (a + 6) 6) a (294 + k) = replyTo f (readBytes m a (294 + k)) := by
  have hpart : ∀ i n, i + n ≤ 294 + k →
      ((readBytes m a (294 + k)).drop i).take n = readBytes m (a + i) n :=
    fun i n h => readBytes_inner m a h
  have hcode : (readBytes m a (294 + k)).getD 35 0 = m (a + 35) :=
    (byte_of_read rfl (by omega)).symm
  have hrest : (readBytes m a (294 + k)).drop 294 = readBytes m (a + 294) k := by
    rw [readBytes_add, List.drop_left' readBytes_length]
  rw [readBytes_answered]
  unfold replyTo
  simp only [hcode, hrest, hpart 6 6 (by omega), hpart 0 6 (by omega), hpart 12 14 (by omega),
    hpart 30 4 (by omega), hpart 26 4 (by omega), hpart 34 2 (by omega), hpart 38 256 (by omega)]
  rfl

section Buffer

variable {x : RxFrame} {s : Skb} (h : Buffered x s)

include h

/-- The network stack gets what is behind the header. -/
theorem Buffered.frame : s.frame = x.frame.drop ethHlen := by
  have hleast := h.least
  have hlen : pktlength x.status - 4 = ethHlen + (pktlength x.status - 18) := by
    unfold ethHlen
    omega
  have hread := h.read
  rw [hlen, readBytes_add] at hread
  unfold Skb.frame
  rw [h.data, h.len, ← hread, List.drop_left' readBytes_length]

theorem Buffered.challenge_iff : s.Challenge ↔ ChallengeFrame x.frame := by
  have hleast := h.least
  have hicmp : s.mem (66 + ethHlen + 9) = x.frame.getD 23 0 :=
    byte_of_read h.read (show 23 < _ by omega)
  have htype : s.mem (66 + ethHlen + 20) = x.frame.getD 34 0 :=
    byte_of_read h.read (show 34 < _ by omega)
  unfold Skb.Challenge ChallengeFrame
  rw [h.protocol, h.data, hicmp, htype]

/-- The frame that goes back. -/
theorem Buffered.answered (f : Responder) :
    let frame := (((s.note 9 1).note 20 1).answered f).frame
    frame.length = x.frame.length ∧ ∃ behind : List Byte,
      behind.length = 294 - x.frame.length ∧
      frame = (replyTo f (x.frame ++ behind)).take x.frame.length := by
  have hlt := pktlength_lt x.status
  have hleast := h.least
  have hlen : (s.len + 14) % 2 ^ 32 = x.frame.length := by
    rw [h.len, x.frame_length]
    omega
  have hframe : (((s.note 9 1).note 20 1).answered f).frame =
      readBytes (exchanged (exchanged (renewed f s.mem (66 + 14)) (66 + 14 + 12) (66 + 14 + 16) 4)
        66 (66 + 6) 6) 66 x.frame.length := by
    show readBytes (exchanged (exchanged (renewed f s.mem s.data) (s.data + 12) (s.data + 16) 4)
      (s.data - 14 + 0) (s.data - 14 + 6) 6) (s.data - 14) ((s.len + 14) % 2 ^ 32) = _
    rw [hlen, h.data]
    rfl
  intro frame
  have hf : frame = _ := hframe
  rw [hf]
  refine ⟨readBytes_length, readBytes s.mem (66 + x.frame.length) (294 - x.frame.length),
    readBytes_length, ?_⟩
  -- the frame and what lies behind it, as one read of at least 294 bytes
  have hread : x.frame ++ readBytes s.mem (66 + x.frame.length) (294 - x.frame.length) =
      readBytes s.mem 66 (294 + (x.frame.length - 294)) := by
    have hsplit : 294 + (x.frame.length - 294) = x.frame.length + (294 - x.frame.length) := by
      omega
    have hfirst := h.read
    rw [← x.frame_length] at hfirst
    rw [hsplit, readBytes_add, hfirst]
  have hpart := readBytes_inner (exchanged (exchanged (renewed f s.mem (66 + 14)) (66 + 14 + 12)
    (66 + 14 + 16) 4) 66 (66 + 6) 6) 66
    (show 0 + x.frame.length ≤ 294 + (x.frame.length - 294) by omega)
  rw [hread, ← replyTo_read]
  exact hpart.symm

end Buffer

/-! ## Section 3: One round of the loop -/

theorem rxCounterrors_keeps (rxstat : BitVec 32) (st : Stats) :
    (rxCounterrors rxstat st).rxPackets = st.rxPackets ∧
      (rxCounterrors rxstat st).rxDropped = st.rxDropped ∧
      (rxCounterrors rxstat st).rxBytes = st.rxBytes ∧
      (rxCounterrors rxstat st).rxErrors =
        st.rxErrors + if rxstat &&& rxStsEs ≠ 0 then 1 else 0 := by
  unfold rxCounterrors
  by_cases hes : rxstat &&& rxStsEs ≠ 0
  · rw [if_pos hes]
    dsimp only
    split_ifs <;> exact ⟨rfl, rfl, rfl, rfl⟩
  · simp only [hes, if_false, false_and, add_zero]
    split_ifs <;> exact ⟨rfl, rfl, rfl, rfl⟩

variable {rxstat : BitVec 32} {m : Fresh (4 * pktwords rxstat)}

/-- All that receiving a packet changes. -/
theorem receive_changes {s : Skb}
    (hreceive : receiveSkb m (d.rxData.take (pktwords rxstat)) (pktlength rxstat) = some s)
    (hdata : 14 ≤ s.data) :
    ∃ d', d.receive f rxstat m = some d' ∧ d'.rxStatus = d.rxStatus ∧
      d'.rxData = d.rxData.drop (pktwords rxstat) ∧
      d'.stats = { d.stats with
        rxPackets := d.stats.rxPackets + 1
        rxBytes := d.stats.rxBytes + BitVec.ofNat 32 (pktlength rxstat) - 4 } ∧
      (s.Challenge ∧ d'.received = d.received ∧
          d'.sent = d.sent ++ [(((s.note 9 1).note 20 1).answered f).frame] ∨
        ¬ s.Challenge ∧ d'.received = d.received ++ [(s.protocol, s.frame)] ∧
          d'.sent = d.sent) := by
  by_cases hchallenge : s.Challenge
  · simp only [Device.receive, hreceive, handle_run (f := f) hchallenge hdata,
      Option.bind_eq_bind, Option.bind_some, if_true]
    exact ⟨_, rfl, rfl, rfl, rfl, .inl ⟨hchallenge, rfl, rfl⟩⟩
  · obtain ⟨xs, hrun⟩ := handle_run_of_not (f := f) hchallenge
    simp only [Device.receive, hreceive, hrun, Option.bind_eq_bind, Option.bind_some,
      Bool.false_eq_true, if_false]
    exact ⟨_, rfl, rfl, rfl, rfl, .inr ⟨hchallenge, rfl, rfl⟩⟩

/-- The packet of the round has left the status FIFO and is counted. -/
def Device.taken (d : Device) (x : RxFrame) (more : List (BitVec 32)) : Device :=
  { d with rxStatus := more, stats := rxCounterrors x.status d.stats }

variable {x : RxFrame} {more : List (BitVec 32)}

theorem processed_error (herror : x.status &&& rxStsEs ≠ 0) :
    Processed f ample d [x] [.error] ((d.taken x more).drop (pktwords x.status)) := by
  obtain ⟨hpackets, hdropped, hbytes, herrors⟩ := rxCounterrors_keeps x.status d.stats
  rw [if_pos herror] at herrors
  refine ⟨.cons (.error herror) .nil, fun _ => by simp, ?_, ?_, ?_, ?_, herrors, ?_⟩
  · exact (List.append_nil _).symm
  · exact (List.append_nil _).symm
  · exact hpackets.trans (BitVec.add_zero _).symm
  · exact congrArg (· + 1) hdropped
  · exact hbytes.trans (BitVec.add_zero _).symm

theorem processed_starved (hgood : x.status &&& rxStsEs = 0) (hstarved : ¬ ample) :
    Processed f ample d [x] [.starved] ((d.taken x more).drop (pktwords x.status)) := by
  obtain ⟨hpackets, hdropped, hbytes, herrors⟩ := rxCounterrors_keeps x.status d.stats
  rw [if_neg (not_not.mpr hgood)] at herrors
  refine ⟨.cons (.starved hgood) .nil, fun hc => absurd hc hstarved, ?_, ?_, ?_, ?_, herrors, ?_⟩
  · exact (List.append_nil _).symm
  · exact (List.append_nil _).symm
  · exact hpackets.trans (BitVec.add_zero _).symm
  · exact congrArg (· + 1) hdropped
  · exact hbytes.trans (BitVec.add_zero _).symm

/-- `smsc911x_poll` adds the length without the checksum, modulo 2^32. -/
theorem ofNat_sub_four {n : Nat} (h : 4 ≤ n) (w : BitVec 32) :
    w + BitVec.ofNat 32 n - 4 = w + BitVec.ofNat 32 (n - 4) := by
  have hn : BitVec.ofNat 32 n = BitVec.ofNat 32 (n - 4) + 4 := by
    rw [← Nat.sub_add_cancel h, BitVec.ofNat_add, Nat.sub_add_cancel h]
    rfl
  rw [hn, ← add_assoc, add_sub_cancel_right]

theorem processed_kept {o : RxOutcome} (hgood : x.status &&& rxStsEs = 0) (hfate : Fate f x o)
    (hkept : o.isDropped = false) (hbytes : o.bytes = pktlength x.status - 4)
    (hreceived : d'.received = d.received ++ o.toStack.toList)
    (hsent : d'.sent = d.sent ++ o.replied.toList)
    (hstats : d'.stats = { (d.taken x more).stats with
      rxPackets := (d.taken x more).stats.rxPackets + 1
      rxBytes := (d.taken x more).stats.rxBytes + BitVec.ofNat 32 (pktlength x.status) - 4 }) :
    Processed f ample d [x] [o] d' := by
  have hleast := x.least hgood
  obtain ⟨hpackets, hdropped, hcount, herrors⟩ := rxCounterrors_keeps x.status d.stats
  rw [if_neg (not_not.mpr hgood)] at herrors
  have herror : o.isError = false := by
    cases o with
    | error => exact nomatch hkept
    | _ => rfl
  have hstarved : .starved ≠ o := by
    rintro rfl
    exact nomatch hkept
  refine ⟨.cons hfate .nil, fun _ => by simpa using hstarved, ?_, ?_, ?_, ?_, ?_, ?_⟩
  · rw [hreceived]
    cases o <;> rfl
  · rw [hsent]
    cases o <;> rfl
  · rw [hstats, List.countP_singleton, hkept]
    exact congrArg (· + 1) hpackets
  · rw [hstats, List.countP_singleton, hkept]
    exact hdropped.trans (BitVec.add_zero _).symm
  · rw [hstats, List.countP_singleton, herror]
    exact herrors
  · rw [hstats, List.map_singleton, List.sum_singleton, hbytes]
    show (rxCounterrors x.status d.stats).rxBytes + _ - 4 = _
    rw [hcount, ofNat_sub_four (by omega)]

/-- A frame without error for which there is memory is handed on or answered. -/
theorem processed_received (hgood : x.status &&& rxStsEs = 0)
    (m : Fresh (4 * pktwords x.status)) {rest : List (BitVec 32)}
    (hwords : d.rxData = x.words ++ rest) :
    ∃ d' o, (d.taken x more).receive f x.status m = some d' ∧ d'.rxStatus = more ∧
      d'.rxData = rest ∧ Processed f ample d [x] [o] d' := by
  obtain ⟨s, hreceive, hbuffered⟩ := x.buffered hgood m
  have htake : (d.taken x more).rxData.take (pktwords x.status) = x.words := by
    show d.rxData.take _ = _
    rw [hwords, List.take_left' x.count]
  have hdrop : d.rxData.drop (pktwords x.status) = rest := by
    rw [hwords, List.drop_left' x.count]
  obtain ⟨d', hd', hstatus, hdata, hstats, hfate⟩ := receive_changes (f := f)
    (d := d.taken x more) (by rw [htake]; exact hreceive)
    (by rw [hbuffered.data]; unfold ethHlen; omega)
  have hleast := hbuffered.least
  rcases hfate with ⟨hchallenge, hreceived, hsent⟩ | ⟨hchallenge, hreceived, hsent⟩
  · obtain ⟨hlength, behind, hbehind, hanswer⟩ := hbuffered.answered f
    have hreply := Fate.reply (f := f) behind hgood (hbuffered.challenge_iff.mp hchallenge) hbehind
    rw [← hanswer] at hreply
    refine ⟨d', _, hd', hstatus, hdata.trans hdrop,
      processed_kept hgood hreply rfl ?_ ?_ hsent hstats⟩
    · exact hlength.trans x.frame_length
    · exact hreceived.trans (List.append_nil _).symm
  · have hstack := Fate.stack (f := f) hgood (mt hbuffered.challenge_iff.mpr hchallenge)
    rw [hbuffered.protocol, hbuffered.frame] at hreceived
    refine ⟨d', _, hd', hstatus, hdata.trans hdrop,
      processed_kept hgood hstack rfl ?_ hreceived ?_ hstats⟩
    · show ethHlen + (x.frame.drop ethHlen).length = _
      rw [List.length_drop, x.frame_length]
      unfold ethHlen
      omega
    · exact hsent.trans (List.append_nil _).symm

/-! ## Section 4: The loop -/

variable {alloc : Nat → (length : Nat) → Option (Fresh length)} {frames : List RxFrame}

/-- What a call of `smsc911x_poll` with `budget` has done, from `d` on with
    `n` packets. -/
def Polled (ample : Prop) (f : Responder) (alloc : Nat → (length : Nat) → Option (Fresh length))
    (budget n : Nat) (d : Device) (frames : List RxFrame) : Prop :=
  ∃ d' done rest outs, poll f alloc budget n d = some (n + done.length, d') ∧
    frames = done ++ rest ∧ d'.Holds rest ∧ Processed f ample d done outs d' ∧
    (done.length = budget ∨ rest = [] ∨ .starved ∈ outs)

/-- One frame, and then the rest of the loop. -/
theorem Polled.cons {budget n : Nat} {o : RxOutcome}
    (hround : poll f alloc (budget + 1) n d = poll f alloc budget (n + 1) e)
    (hfirst : Processed f ample d [x] [o] e)
    (hrest : Polled ample f alloc budget (n + 1) e frames) :
    Polled ample f alloc (budget + 1) n d (x :: frames) := by
  obtain ⟨d', done, rest, outs, hpoll, hsplit, hholds, hprocessed, hwhy⟩ := hrest
  refine ⟨d', x :: done, rest, o :: outs, ?_, ?_, hholds, hfirst.append hprocessed, ?_⟩
  · rw [hround, hpoll, List.length_cons, Nat.add_assoc, Nat.add_comm 1]
  · rw [hsplit, List.cons_append]
  · rcases hwhy with hbudget | hrest | hstarved
    · exact .inl (congrArg (· + 1) hbudget)
    · exact .inr (.inl hrest)
    · exact .inr (.inr (List.mem_cons_of_mem _ hstarved))

theorem poll_empty (budget n : Nat) (hstatus : d.rxStatus = []) :
    poll f alloc (budget + 1) n d = some (n, d.complete) := by
  have hget : d.rxGetRxstatus = (0, d) := by
    unfold Device.rxGetRxstatus
    rw [hstatus]
  rw [poll, hget]
  exact if_pos rfl

theorem poll_error (budget n : Nat) (hstatus : d.rxStatus = x.status :: more)
    (herror : x.status &&& rxStsEs ≠ 0) :
    poll f alloc (budget + 1) n d =
      poll f alloc budget (n + 1) ((d.taken x more).drop (pktwords x.status)) := by
  rw [poll, rxGetRxstatus_cons hstatus]
  dsimp only
  rw [if_neg x.nonzero, if_pos herror]
  rfl

theorem poll_starved (budget : Nat) {n : Nat} (hstatus : d.rxStatus = x.status :: more)
    (hgood : x.status &&& rxStsEs = 0) (halloc : alloc n (4 * pktwords x.status) = none) :
    poll f alloc (budget + 1) n d =
      some (n + 1, (d.taken x more).drop (pktwords x.status)) := by
  rw [poll, rxGetRxstatus_cons hstatus]
  dsimp only
  rw [if_neg x.nonzero, if_neg (not_not.mpr hgood), halloc]
  rfl

/-- **One call**: it takes frames until its budget is used up, none is left or
    memory runs out, and leaves the others as they are. -/
theorem poll_fates (f : Responder)
    (hample : ample → ∀ n length, (alloc n length).isSome = true) (budget n : Nat) (d : Device)
    (hd : d.Holds frames) : Polled ample f alloc budget n d frames := by
  induction budget generalizing n d frames with
  | zero => exact ⟨d, [], frames, [], rfl, rfl, hd, .nil rfl rfl rfl, .inl rfl⟩
  | succ budget ih =>
    cases frames with
    | nil =>
      exact ⟨d.complete, [], [], [], poll_empty budget n hd.status, rfl, ⟨hd.status, hd.data⟩,
        .nil rfl rfl rfl, .inr (.inl rfl)⟩
    | cons x frames =>
      have hstatus : d.rxStatus = x.status :: frames.map RxFrame.status := hd.status
      have hdata : d.rxData = x.words ++ frames.flatMap RxFrame.words := hd.data
      have hdrop : ((d.taken x (frames.map RxFrame.status)).drop (pktwords x.status)).Holds
          frames := by
        refine ⟨rfl, ?_⟩
        show d.rxData.drop _ = _
        rw [hdata, List.drop_left' x.count]
      by_cases hgood : x.status &&& rxStsEs = 0
      · cases halloc : alloc n (4 * pktwords x.status) with
        | none =>
          have hstarved : ¬ ample := by
            intro hc
            have hsome := hample hc n (4 * pktwords x.status)
            rw [halloc] at hsome
            exact Bool.false_ne_true hsome
          exact ⟨_, [x], frames, [.starved], poll_starved budget hstatus hgood halloc, rfl, hdrop,
            processed_starved hgood hstarved, .inr (.inr List.mem_cons_self)⟩
        | some m =>
          have hround : poll f alloc (budget + 1) n d =
              ((d.taken x (frames.map RxFrame.status)).receive f x.status m).bind
                (poll f alloc budget (n + 1)) :=
            poll_receive budget hstatus x.nonzero hgood halloc
          obtain ⟨e, o, hreceive, hmore, hrest, hprocessed⟩ := processed_received hgood m hdata
          rw [hreceive, Option.bind_some] at hround
          exact .cons hround hprocessed (ih (n + 1) e ⟨hmore, hrest⟩)
      · exact .cons (poll_error budget n hstatus hgood) (processed_error hgood)
          (ih (n + 1) _ hdrop)

end Fates

/-! ## Section 5: Runs -/

structure RxLine where
  dev : Device
  arrived : List RxFrame  -- all frames the chip has received

inductive RxLineAction where
  | arrive (x : RxFrame)
  | poll (budget : Nat) (alloc : Nat → (length : Nat) → Option (Fresh length))

/-- A frame is put behind the others.  A call takes frames by turns with the
    chip: what arrives between two of its rounds arrives between two calls with
    smaller budgets. -/
inductive RxLineStep (f : Responder) : RxLine → RxLineAction → RxLine → Prop where
  | arrive : ∀ (s : RxLine) (x : RxFrame), RxLineStep f s (.arrive x)
      { dev := { s.dev with
          rxStatus := s.dev.rxStatus ++ [x.status]
          rxData := s.dev.rxData ++ x.words }
        arrived := s.arrived ++ [x] }
  | poll : ∀ (s : RxLine) budget alloc n d', Nic.poll f alloc budget 0 s.dev = some (n, d') →
      RxLineStep f s (.poll budget alloc) { s with dev := d' }

/-- Every call finds memory for each of its packets. -/
def RxLineAction.Ample : RxLineAction → Prop
  | .arrive _ => True
  | .poll _ alloc => ∀ n length, (alloc n length).isSome = true

/-- Of the frames that have arrived some are done, and the FIFOs hold the
    others. -/
def RxInOrder (f : Responder) (ample : Prop) (d₀ : Device) (s : RxLine) : Prop :=
  ∃ done rest outs, s.arrived = done ++ rest ∧ s.dev.Holds rest ∧
    Processed f ample d₀ done outs s.dev

theorem rxInOrder_step {ample : Prop} {d₀ : Device} {f : Responder} (s : RxLine)
    (a : RxLineAction) (t : RxLine) (h : RxInOrder f ample d₀ s) (hample : ample → a.Ample)
    (hstep : RxLineStep f s a t) : RxInOrder f ample d₀ t := by
  obtain ⟨done, rest, outs, harrived, hholds, hprocessed⟩ := h
  cases hstep with
  | arrive x =>
    refine ⟨done, rest ++ [x], outs, ?_, ⟨?_, ?_⟩, ?_⟩
    · show s.arrived ++ [x] = _
      rw [harrived, List.append_assoc]
    · show s.dev.rxStatus ++ [x.status] = _
      rw [hholds.status, List.map_append, List.map_singleton]
    · show s.dev.rxData ++ x.words = _
      rw [hholds.data, List.flatMap_append, List.flatMap_singleton]
    · obtain ⟨h1, h2, h3, h4, h5, h6, h7, h8⟩ := hprocessed
      exact ⟨h1, h2, h3, h4, h5, h6, h7, h8⟩
  | poll budget alloc n d' hpoll =>
    obtain ⟨e, more, rest', outs', hpoll', hsplit, hholds', hprocessed', -⟩ :=
      poll_fates f hample budget 0 s.dev hholds
    obtain ⟨-, rfl⟩ := Prod.mk.inj (Option.some.inj (hpoll.symm.trans hpoll'))
    refine ⟨done ++ more, rest', outs ++ outs', ?_, hholds', hprocessed.append hprocessed'⟩
    rw [harrived, hsplit, List.append_assoc]

def idleLine : RxLine where
  dev := ⟨[], [], 0, 0, true, ⟨0, 0, 0, 0, 0, 0, 0⟩, opened, [], [], []⟩
  arrived := []

/-- The shortest frame, of zeros. -/
def zeroFrame : RxFrame where
  status := 0x00400000
  words := List.replicate 17 0
  count := rfl
  nonzero := nofun
  least := by decide

/-- With memory for it, it goes to the network stack. -/
theorem zeroFrame_fate {f : Responder} {o : RxOutcome} (h : Fate f zeroFrame o)
    (hmemory : o ≠ .starved) : o = .stack (swapHalf 0x0004) (zeroFrame.frame.drop ethHlen) := by
  cases h with
  | error herror => exact absurd rfl herror
  | starved => exact absurd rfl hmemory
  | stack => rfl
  | reply _ _ hchallenge => exact absurd hchallenge.1 (by decide)

/-- A challenge of the client, as the chip holds it. -/
def challengeRxFrame : RxFrame where
  status := 0x012A0000
  words := sampleDevice.rxData
  count := toWords_length sampleFrame_padded
  nonzero := nofun
  least := by decide

theorem challengeRxFrame_frame : challengeRxFrame.frame = sampleFrame := by
  have hlen : pktlength 0x012A0000 - 4 = sampleFrame.length := by
    rw [sampleFrame, etherFrame_length, sentMessage_eq, icmpMessage_length]
    rfl
  show ((toBytes (toWords _)).drop netIpAlign).take (pktlength 0x012A0000 - 4) = _
  rw [toBytes_toWords sampleFrame_padded, hlen]
  exact List.take_left

theorem challengeRxFrame_challenge : ChallengeFrame sampleFrame := by decide +kernel

end Nic
