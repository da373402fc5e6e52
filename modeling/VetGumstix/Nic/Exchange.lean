import VetGumstix.Nic.Client

/-! # The Challenge and its Answer

    A challenge of the client travels as an IPv4 datagram in an Ethernet
    frame; the device answers by rewriting the frame in place.  The headers
    are structures that carry what makes them valid, so exchanging the
    addresses of an IP header gives a valid header again: its checksum is a
    sum of words and does not change.

    `challenge_exchange` follows a challenge through `smsc911x_poll` and back
    to the client.
-/

namespace Nic

open Bytes OnesComplement

/-! ## Section 1: Frames -/

abbrev MacAddr := { l : List Byte // l.length = 6 }

/-- An IPv4 header of 20 bytes in front of an ICMP message. -/
structure Ip4Header where
  /-- The bytes up to and including the header checksum. -/
  fixed : List Byte
  saddr : List Byte
  daddr : List Byte
  fixed_length : fixed.length = 12
  saddr_length : saddr.length = 4
  daddr_length : daddr.length = 4
  icmp : fixed[9]? = some 0x01
  valid : Verifies (fixed ++ (saddr ++ daddr))

def Ip4Header.bytes (h : Ip4Header) : List Byte := h.fixed ++ (h.saddr ++ h.daddr)

theorem Ip4Header.bytes_length (h : Ip4Header) : h.bytes.length = 20 := by
  simp [Ip4Header.bytes, h.fixed_length, h.saddr_length, h.daddr_length]

/-- The header with its addresses exchanged and every other byte kept. -/
def Ip4Header.swapped (h : Ip4Header) : Ip4Header where
  fixed := h.fixed
  saddr := h.daddr
  daddr := h.saddr
  fixed_length := h.fixed_length
  saddr_length := h.daddr_length
  daddr_length := h.saddr_length
  icmp := h.icmp
  valid := by
    -- the sum of the words does not depend on the order of the addresses
    have hvalid := h.valid
    have h12 := h.fixed_length
    have h4 := h.saddr_length
    have h4' := h.daddr_length
    unfold Verifies at hvalid ⊢
    rw [beSum_append (by omega), beSum_append (by omega)] at hvalid ⊢
    rw [Nat.add_comm (beSum h.daddr)]
    exact hvalid

/-- An Ethernet frame with an IPv4 datagram. -/
def etherFrame (dest source : MacAddr) (ip : Ip4Header) (message : List Byte) : List Byte :=
  dest.val ++ (source.val ++ ([0x08, 0x00] ++ (ip.bytes ++ message)))

theorem etherFrame_length (dest source : MacAddr) (ip : Ip4Header) (message : List Byte) :
    (etherFrame dest source ip message).length = 34 + message.length := by
  simp [etherFrame, dest.property, source.property, ip.bytes_length]
  omega

/-- The datagram of a frame. -/
theorem etherFrame_drop (dest source : MacAddr) (ip : Ip4Header) (message : List Byte) :
    (etherFrame dest source ip message).drop 14 = ip.bytes ++ message := by
  have hlen : (dest.val ++ (source.val ++ [0x08, 0x00])).length = 14 := by
    simp [dest.property, source.property]
  rw [etherFrame, show dest.val ++ (source.val ++ ([0x08, 0x00] ++ (ip.bytes ++ message))) =
    (dest.val ++ (source.val ++ [0x08, 0x00])) ++ (ip.bytes ++ message) by simp, ← hlen,
    List.drop_left]

/-- The device has received `frame` without an error, as the first of its
    packets: the FIFO holds two bytes for alignment, the frame, and its
    checksum. -/
structure Delivered (d : Device) (rxstat : BitVec 32) (frame : List Byte) : Prop where
  status  : d.rxStatus.head? = some rxstat
  noError : rxstat &&& rxStsEs = 0
  length  : pktlength rxstat = frame.length + 4
  data    : ∃ align rest, align.length = netIpAlign ∧
    toBytes (d.rxData.take (pktwords rxstat)) = align ++ (frame ++ rest)

/-! ## Section 2: The answered frame -/

/-- A frame with an attestation message lies in memory at `a`.  Of its
    checksum nothing is said. -/
structure HoldsFrame (m : ByteMem) (a : Nat) (dest source : MacAddr) (ip : Ip4Header)
    (code : Byte) (payload : Buf) : Prop where
  dest    : readBytes m a 6 = dest.val
  source  : readBytes m (a + 6) 6 = source.val
  proto   : readBytes m (a + 12) 2 = [0x08, 0x00]
  fixed   : readBytes m (a + 14) 12 = ip.fixed
  saddr   : readBytes m (a + 26) 4 = ip.saddr
  daddr   : readBytes m (a + 30) 4 = ip.daddr
  head    : readBytes m (a + 34) 2 = [vetIcmpType, code]
  payload : readBytes m (a + 38) 256 = payload.bytes

section frame

variable {m : ByteMem} {a : Nat} {dest source : MacAddr} {ip : Ip4Header} {code : Byte}
  {payload : Buf}

theorem readBytes_frame (m : ByteMem) (a : Nat) :
    readBytes m a 294 = readBytes m a 6 ++ (readBytes m (a + 6) 6 ++ (readBytes m (a + 12) 2 ++
      ((readBytes m (a + 14) 12 ++ (readBytes m (a + 26) 4 ++ readBytes m (a + 30) 4)) ++
        (readBytes m (a + 34) 2 ++ (readBytes m (a + 36) 2 ++ readBytes m (a + 38) 256))))) := by
  have hsizes : 294 = 6 + (6 + (2 + ((12 + (4 + 4)) + (2 + (2 + 256))))) := rfl
  rw [hsizes, readBytes_add, readBytes_add, readBytes_add, readBytes_add, readBytes_add,
    readBytes_add, readBytes_add, readBytes_add]

/-- The frame read from memory, field by field. -/
theorem holdsFrame_of_read
    (h : readBytes m a 294 = etherFrame dest source ip (icmpMessage code payload)) :
    HoldsFrame m a dest source ip code payload ∧
    readBytes m (a + 36) 2 =
      le16 (checksum ([vetIcmpType, code] ++ ([0, 0] ++ payload.bytes))) := by
  rw [readBytes_frame, etherFrame, Ip4Header.bytes, icmpMessage] at h
  obtain ⟨hdest, h⟩ := List.append_inj h (by simp [dest.property])
  obtain ⟨hsource, h⟩ := List.append_inj h (by simp [source.property])
  obtain ⟨hproto, h⟩ := List.append_inj h (by simp)
  obtain ⟨hip, h⟩ := List.append_inj h
    (by simp [ip.fixed_length, ip.saddr_length, ip.daddr_length])
  obtain ⟨hfixed, hip⟩ := List.append_inj hip (by simp [ip.fixed_length])
  obtain ⟨hsaddr, hdaddr⟩ := List.append_inj hip (by simp [ip.saddr_length])
  obtain ⟨hhead, h⟩ := List.append_inj h (by simp)
  obtain ⟨hfield, hpayload⟩ := List.append_inj h (by simp)
  exact ⟨⟨hdest, hsource, hproto, hfixed, hsaddr, hdaddr, hhead, hpayload⟩, hfield⟩

/-- The bytes of the classification. -/
theorem HoldsFrame.classify (h : HoldsFrame m a dest source ip code payload) :
    loadHalf m (a + 12) = 0x0008 ∧ m (a + 14 + 9) = 0x01 ∧ m (a + 14 + 20) = vetIcmpType ∧
      m (a + 14 + 21) = code := by
  have hproto : [m (a + 12), m (a + 12 + 1)] = [0x08, 0x00] := h.proto
  have hhead : [m (a + 34), m (a + 34 + 1)] = [vetIcmpType, code] := h.head
  have hicmp : (readBytes m (a + 14) 12)[9]? = some (m (a + 14 + 9)) :=
    readBytes_getElem? (by decide)
  rw [h.fixed, ip.icmp] at hicmp
  simp only [List.cons.injEq, and_true] at hproto hhead
  refine ⟨?_, (Option.some.inj hicmp).symm, hhead.1, hhead.2⟩
  rw [loadHalf, hproto.1, hproto.2]
  rfl

/-- **The answer as a frame**: both address pairs exchanged, the new payload
    and its checksum in place, everything else kept. -/
theorem answered_frame (f : Responder) (h : HoldsFrame m a dest source ip code payload) :
    readBytes (exchanged (exchanged (renewed f m (a + 14)) (a + 14 + 12) (a + 14 + 16) 4)
      a (a + 6) 6) a 294 =
    etherFrame source dest ip.swapped (icmpMessage code (f.run code payload)) := by
  obtain ⟨-, -, -, hcode⟩ := h.classify
  have hpayload : newPayload f m (a + 14) = f.run code payload := by
    have hread : readBytes m (a + 14 + 24) 256 = payload.bytes := h.payload
    rw [newPayload, hcode, hread, Buf.ofBytes_bytes]
  have hkept : readBytes m (a + 12) 14 = [0x08, 0x00] ++ ip.fixed := by
    rw [show 14 = 2 + 12 from rfl, readBytes_add, h.proto, h.fixed]
  rw [show 294 = 294 + 0 from rfl, readBytes_answered, hpayload, hkept, h.source, h.dest, h.daddr,
    h.saddr, h.head]
  simp [etherFrame, Ip4Header.bytes, Ip4Header.swapped, icmpMessage, readBytes]

end frame

/-! ## Section 3: The exchange -/

/-- A checksum function that changes only words 0 to 12 of the buffer. -/
def KeepsTail (g : Buf → Buf) : Prop := ∀ b j, 13 ≤ j.val → g b j = b j

section exchange

variable {d : Device} {rxstat : BitVec 32} {dest source : MacAddr} {ip : Ip4Header} {code : Byte}
  {nonce : Buf}

/-- The buffer of a delivered challenge: the frame lies behind the headroom,
    it is classified as a challenge, and 280 bytes are left behind its
    Ethernet header. -/
theorem delivered_skb (m : Fresh (4 * pktwords rxstat))
    (h : Delivered d rxstat (etherFrame dest source ip (icmpMessage code nonce))) :
    ∃ s, receiveSkb m (d.rxData.take (pktwords rxstat)) (pktlength rxstat) = some s ∧
      s.Challenge ∧ s.data = 66 + 14 ∧ s.len = 280 ∧
      HoldsFrame s.mem 66 dest source ip code nonce := by
  obtain ⟨align, rest, halign, hbytes⟩ := h.data
  have hlength : pktlength rxstat = 298 := by
    rw [h.length, etherFrame_length, icmpMessage_length]
  have hroom := pktwords_room rxstat
  rw [hlength] at hroom ⊢
  refine ⟨_, receiveSkb_eq m _ (by decide) hroom, ?_⟩
  generalize hs : filledSkb m (d.rxData.take (pktwords rxstat)) 298 = s
  have hdata : s.data = 66 := by
    rw [← hs]
    rfl
  have hlen : s.len = 294 := by
    rw [← hs]
    rfl
  -- the frame starts behind the two bytes that align it
  have hread : readBytes s.mem 66 294 =
      etherFrame dest source ip (icmpMessage code nonce) := by
    rw [← hs]
    apply readBytes_writeBytes_part align _ rest hbytes
    · rw [halign]
      rfl
    · rw [etherFrame_length, icmpMessage_length]
  have hholds := (holdsFrame_of_read hread).1
  obtain ⟨hproto, hicmp, htype, -⟩ := hholds.classify
  obtain ⟨hdata', hlen'⟩ := ethTypeTrans_of_le (s := s) (by rw [hlen]; decide)
  rw [hdata] at hdata'
  rw [hlen] at hlen'
  have hprotocol : (ethTypeTrans s).protocol = 0x0008 :=
    ethTypeTrans_protocol (by rw [hdata, hproto])
  refine ⟨⟨hprotocol, ?_, ?_⟩, hdata', hlen', ?_⟩
  · rw [hdata', ethTypeTrans_mem]
    exact hicmp
  · rw [hdata', ethTypeTrans_mem]
    exact htype
  · rw [ethTypeTrans_mem]
    exact hholds

/-- **The exchange.**  A challenge of the client, delivered to the device with
    memory for it, is answered with a frame in which the MAC addresses and the
    IP addresses are exchanged, every other byte of the IP header is kept and
    its checksum is right, the message has the same type and code, a right
    checksum and the payload of the checksum function; the client recognises
    the datagram and prints the first eight words of that payload.  `f` may be
    any pair of functions for `swattARM` and `swattARM_db_attack`. -/
theorem challenge_exchange (f : Responder) (code : Byte) (hkeep : KeepsTail (f.run code))
    (alloc : Nat → (length : Nat) → Option (Fresh length)) (budget npackets : Nat)
    (nonce : Buf) (packet : ByteMem) (dest source : MacAddr) (ip : Ip4Header) (d : Device)
    (rxstat : BitVec 32) (m : Fresh (4 * pktwords rxstat))
    (hdelivered : Delivered d rxstat (etherFrame dest source ip (sentMessage code nonce packet)))
    (halloc : alloc npackets (4 * pktwords rxstat) = some m) :
    ∃ d' response,
      poll f alloc (budget + 1) npackets d = poll f alloc budget (npackets + 1) d' ∧
      d'.sent = d.sent ++ [response] ∧
      response = etherFrame source dest ip.swapped (icmpMessage code (f.run code nonce)) ∧
      response.length = (etherFrame dest source ip (sentMessage code nonce packet)).length ∧
      Verifies ip.swapped.bytes ∧
      Verifies (icmpMessage code (f.run code nonce)) ∧
      (∀ j : Fin 64, 13 ≤ j.val → f.run code nonce j = nonce j) ∧
      ∀ more packet', recvLoop (response.drop 14 :: more) packet' =
        some (printed ((List.ofFn (f.run code nonce)).take 8)) := by
  rw [sentMessage_eq] at hdelivered ⊢
  -- the packet is taken from the FIFO
  obtain ⟨more, hstatus⟩ : ∃ more, d.rxStatus = rxstat :: more :=
    List.head?_eq_some_iff.mp hdelivered.status
  have hne : rxstat ≠ 0 := by
    -- a status of zero has length zero
    intro h0
    have hlength := hdelivered.length
    rw [h0, etherFrame_length, icmpMessage_length] at hlength
    exact absurd hlength (by decide)
  have hpoll := poll_receive (f := f) budget hstatus hne hdelivered.noError halloc
  -- and answered
  obtain ⟨s, hreceive, hchallenge, hdata, hlen, hholds⟩ := delivered_skb m hdelivered
  have hrun := handle_run (f := f) hchallenge (by omega)
  have hframe : (((s.note 9 1).note 20 1).answered f).frame =
      etherFrame source dest ip.swapped (icmpMessage code (f.run code nonce)) := by
    have hanswer := answered_frame f hholds
    simp only [Skb.frame, Skb.answered, Skb.note, hlen, hdata]
    exact hanswer
  obtain ⟨d', hd', hsent, -⟩ := receive_challenge
    (d := { d with rxStatus := more, stats := rxCounterrors rxstat d.stats }) hreceive hrun
  rw [hd', Option.bind_some] at hpoll
  refine ⟨d', _, hpoll, hsent, hframe, ?_, ip.swapped.valid, icmpMessage_verifies _ _,
    fun j hj => hkeep nonce j hj, ?_⟩
  · rw [hframe, etherFrame_length, etherFrame_length, icmpMessage_length, icmpMessage_length]
  · intro more packet'
    rw [hframe, etherFrame_drop]
    exact recvLoop_of_message ip.swapped.bytes_length _ _ _ _

end exchange

/-! ### A concrete exchange -/

def sampleHeader : Ip4Header where
  fixed := [0x45, 0x00, 0x01, 0x18, 0x00, 0x00, 0x00, 0x00, 0x40, 0x01, 0x65, 0xe3]
  saddr := [0x0a, 0x00, 0x00, 0x01]
  daddr := [0x0a, 0x00, 0x00, 0x02]
  fixed_length := rfl
  saddr_length := rfl
  daddr_length := rfl
  icmp := rfl
  valid := by decide

def sampleFrame : List Byte :=
  etherFrame ⟨[0x02, 0, 0, 0, 0, 0x02], rfl⟩ ⟨[0x02, 0, 0, 0, 0, 0x01], rfl⟩ sampleHeader
    (sentMessage vetIcmpCode (fun j => BitVec.ofNat 32 j) fun _ => 0)

/-- An idle device into which the frame has come. -/
def sampleDevice : Device where
  rxStatus := [0x012A0000]
  rxData := toWords ([0, 0] ++ (sampleFrame ++ [0, 0, 0, 0]))
  intSts := 0
  intEn := 0
  napiScheduled := true
  stats := ⟨0, 0, 0, 0, 0, 0, 0⟩
  tx := opened
  txData := []
  sent := []
  received := []

theorem sampleFrame_padded : ([0, 0] ++ (sampleFrame ++ [0, 0, 0, 0])).length = 4 * 75 := by
  rw [sampleFrame, List.length_append, List.length_append, etherFrame_length, sentMessage_eq,
    icmpMessage_length]
  rfl

theorem sampleDevice_delivered : Delivered sampleDevice 0x012A0000 sampleFrame where
  status := rfl
  noError := rfl
  length := by
    rw [sampleFrame, etherFrame_length, sentMessage_eq, icmpMessage_length]
    rfl
  data := by
    have htake : sampleDevice.rxData.take (pktwords 0x012A0000) = sampleDevice.rxData :=
      List.take_of_length_le (Nat.le_of_eq (toWords_length sampleFrame_padded))
    exact ⟨[0, 0], [0, 0, 0, 0], rfl, by rw [htake]; exact toBytes_toWords sampleFrame_padded⟩

theorem sample_exchange :
    ∃ d' response,
      poll ⟨fun b j => if j.val < 13 then ~~~(b j) else b j, id⟩
        (fun _ length => some ⟨fun _ => 0, 64 + length, Nat.le_refl _⟩) 1 0 sampleDevice =
          some (1, d') ∧
      d'.sent = [response] ∧ response.length = 294 := by
  have hkeep : KeepsTail (Responder.run
      ⟨fun b j => if j.val < 13 then ~~~(b j) else b j, id⟩ vetIcmpCode) := by
    intro b j hj
    exact if_neg (Nat.not_lt.mpr hj)
  obtain ⟨d', response, hpoll, hsent, -, hlength, -⟩ := challenge_exchange _ vetIcmpCode hkeep
    (fun _ length => some ⟨fun _ => 0, 64 + length, Nat.le_refl _⟩) 0 0 _ _ _ _ _ _ _ _
    sampleDevice_delivered rfl
  refine ⟨d', response, hpoll, hsent, ?_⟩
  rw [hlength, etherFrame_length, sentMessage_eq, icmpMessage_length]

end Nic
