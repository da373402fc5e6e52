import VetGumstix.Nic.Poll

/-! # The Client

    `icmp.c` builds a challenge of 64 random words in its packet buffer, sends
    it over a raw ICMP socket and waits for a datagram whose byte 20 is the
    attestation type.  It then prints the first eight words behind the ICMP
    header of that datagram.

    The packet buffer is memory: a short datagram leaves the end of the one
    before it in place.
-/

namespace Nic

open Bytes OnesComplement

/-- `VET_ICMP_CODE` -/
def vetIcmpCode : Byte := 0x00

/-- The challenge in the packet buffer; the source has `code = VET_ICMP_CODE`
    and takes the nonce from `rand()`. -/
def buildPacket (code : Byte) (nonce : Buf) (packet : ByteMem) : ByteMem :=
  let packet := writeBytes packet 0 [vetIcmpType]
  let packet := writeBytes packet 1 [code]
  let packet := writeBytes packet 2 [0, 0]
  let packet := writeBytes packet 4 nonce.bytes
  writeBytes packet 2 (le16 (checksum (readBytes packet 0 (4 + 64 * 4))))

/-- What `sendto` sends. -/
def sentMessage (code : Byte) (nonce : Buf) (packet : ByteMem) : List Byte :=
  readBytes (buildPacket code nonce packet) 0 (4 + 64 * 4)

def hexDigit (d : Nat) : Char := ("0123456789abcdef".toList).getD d '0'

/-- `%08x` -/
def hex8 (w : BitVec 32) : String :=
  String.ofList ((List.range 8).map fun i => hexDigit ((w >>> (28 - 4 * i)).toNat % 16))

/-- What is printed of the words of a checksum. -/
def printed (words : List (BitVec 32)) : String :=
  "Checksum received:\n" ++ String.join (words.map hex8) ++ "\n"

/-- The loop around `recvfrom` on the datagrams that come in; `none` while it
    waits for more. -/
def recvLoop : List (List Byte) → ByteMem → Option String
  | [], _ => none
  | datagram :: more, packet =>
    -- the rest of the buffer keeps what an earlier datagram left
    let packet := writeBytes packet 0 (datagram.take 500)
    if packet 20 = vetIcmpType then some (printed (toWords (readBytes packet (20 + 4) (8 * 4))))
    else recvLoop more packet

/-! ### The message -/

/-- An attestation message with its checksum. -/
def icmpMessage (code : Byte) (payload : Buf) : List Byte :=
  [vetIcmpType, code] ++
    (le16 (checksum ([vetIcmpType, code] ++ ([0, 0] ++ payload.bytes))) ++ payload.bytes)

@[simp] theorem icmpMessage_length (code : Byte) (payload : Buf) :
    (icmpMessage code payload).length = 260 := by
  simp [icmpMessage]

theorem icmpMessage_verifies (code : Byte) (payload : Buf) :
    Verifies (icmpMessage code payload) := by
  apply checksum_verifies
  · simp
  · simp

/-- The client sends an attestation message. -/
theorem sentMessage_eq (code : Byte) (nonce : Buf) (packet : ByteMem) :
    sentMessage code nonce packet = icmpMessage code nonce := by
  have hsplit : ∀ m : ByteMem, readBytes m 0 (4 + 64 * 4) =
      readBytes m 0 2 ++ (readBytes m 2 2 ++ readBytes m 4 256) := by
    intro m
    rw [show 4 + 64 * 4 = 2 + (2 + 256) from rfl, readBytes_add, readBytes_add]
  -- the buffer before the checksum is stored
  generalize hp : writeBytes (writeBytes (writeBytes (writeBytes packet 0 [vetIcmpType]) 1 [code])
    2 [0, 0]) 4 nonce.bytes = p
  have hhead : readBytes p 0 2 = [vetIcmpType, code] := by
    rw [← hp, readBytes_writeBytes_apart (.inl (by decide)),
      readBytes_writeBytes_apart (.inl (by decide)), readBytes_add _ 0 1 1,
      readBytes_writeBytes_apart (.inl (by decide)), readBytes_writeBytes (by rfl),
      readBytes_writeBytes (by rfl)]
    rfl
  have hfield : readBytes p 2 2 = [0, 0] := by
    rw [← hp, readBytes_writeBytes_apart (.inl (by decide)), readBytes_writeBytes (by rfl)]
  have hnonce : readBytes p 4 256 = nonce.bytes := by
    rw [← hp, readBytes_writeBytes nonce.bytes_length]
  have hbuild : buildPacket code nonce packet =
      writeBytes p 2 (le16 (checksum (readBytes p 0 (4 + 64 * 4)))) := by
    rw [← hp]
    rfl
  rw [sentMessage, hbuild, hsplit p, hhead, hfield, hnonce, hsplit,
    readBytes_writeBytes_apart (.inl (by decide)), readBytes_writeBytes (le16_length _),
    readBytes_writeBytes_apart (.inr (by simp)), hhead, hnonce]
  rfl

/-- The words of a buffer survive in memory. -/
theorem Buf.ofBytes_bytes (b : Buf) : Buf.ofBytes b.bytes = b := by
  funext j
  have hj : j.val < (List.ofFn b).length := by
    rw [List.length_ofFn]
    exact j.isLt
  rw [Buf.ofBytes, Buf.bytes, toWords_toBytes, List.getD_eq_getElem?_getD,
    List.getElem?_eq_getElem hj, Option.getD_some, List.getElem_ofFn]

/-- **The client recognises** a datagram with an attestation message behind a
    header of 20 bytes, and prints the first eight words of its payload. -/
theorem recvLoop_of_message {header : List Byte} (h : header.length = 20) (code : Byte)
    (payload : Buf) (more : List (List Byte)) (packet : ByteMem) :
    recvLoop ((header ++ icmpMessage code payload) :: more) packet =
      some (printed ((List.ofFn payload).take 8)) := by
  generalize hc : le16 (checksum ([vetIcmpType, code] ++ ([0, 0] ++ payload.bytes))) = c
  have hclen : c.length = 2 := by rw [← hc, le16_length]
  have hmessage : icmpMessage code payload = [vetIcmpType, code] ++ (c ++ payload.bytes) := by
    rw [← hc]
    rfl
  -- the eight words that are printed, and the rest
  have hwords : payload.bytes = toBytes ((List.ofFn payload).take 8) ++
      toBytes ((List.ofFn payload).drop 8) := by
    rw [← toBytes_append, List.take_append_drop]
    rfl
  -- the datagram is shorter than the buffer
  have htake : (header ++ icmpMessage code payload).take 500 = header ++ icmpMessage code payload :=
    List.take_of_length_le (by simp [h])
  have htype : writeBytes packet 0 (header ++ icmpMessage code payload) 20 = vetIcmpType := by
    have hread : readBytes (writeBytes packet 0 (header ++ icmpMessage code payload)) 20 1 =
        [vetIcmpType] := by
      apply readBytes_writeBytes_part header [vetIcmpType] ([code] ++ (c ++ payload.bytes))
      · rw [hmessage]
        rfl
      · omega
      · rfl
    exact (List.cons.inj hread).1
  have hdata : readBytes (writeBytes packet 0 (header ++ icmpMessage code payload)) (20 + 4)
      (8 * 4) = toBytes ((List.ofFn payload).take 8) := by
    apply readBytes_writeBytes_part (header ++ ([vetIcmpType, code] ++ c)) _
      (toBytes ((List.ofFn payload).drop 8))
    · rw [hmessage, hwords]
      simp only [List.append_assoc]
    · simp [h, hclen]
    · rw [toBytes_length, List.length_take, List.length_ofFn]
      rfl
  rw [recvLoop, htake]
  simp only [htype, if_true, hdata, toWords_toBytes]

end Nic
