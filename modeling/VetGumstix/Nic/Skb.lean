import VetGumstix.Framework.Bytes

/-! # Socket Buffers

    The part of the kernel's `struct sk_buff` the driver works with: memory
    from `skb->head` on, `data`, `tail` and `end` as offsets into it, and
    `len`.  `unsigned int` arithmetic is modulo 2^32, so putting a negative
    length into a buffer gives it a very large `len`.

    `SkbM` is driver code on one buffer: `none` is a `BUG()` of the kernel.
    Reads and writes of `skb->data` are noted in `accesses`, with `skb->len`
    at the time.
-/

namespace Nic

open Bytes

/-- A read or write of `count` bytes of `skb->data` from `offset` on, and
    `skb->len` at the time. -/
structure Access where
  offset : Nat
  count : Nat
  len : Nat
  deriving DecidableEq, Repr

/-- All bytes of the access are below `skb->len`. -/
def Access.Inside (x : Access) : Prop := x.offset + x.count ≤ x.len

instance (x : Access) : Decidable x.Inside := inferInstanceAs (Decidable (_ ≤ _))

structure Skb where
  /-- Memory from `skb->head` on; it does not end with the buffer. -/
  mem : ByteMem
  data : Nat
  tail : Nat
  limit : Nat  -- `skb->end`
  len : Nat
  protocol : BitVec 16
  accesses : List Access

abbrev SkbM := StateT Skb Option

/-! ## Section 1: Kernel functions -/

/-- `NET_SKB_PAD`, with cache lines of 64 bytes. -/
def netSkbPad : Nat := max 32 64

/-- `NET_IP_ALIGN` -/
def netIpAlign : Nat := 2

/-- `ETH_HLEN` -/
def ethHlen : Nat := 14

/-- The memory `netdev_alloc_skb` finds for `length` bytes: its contents, and
    where the buffer ends, which leaves room for them behind the headroom. -/
structure Fresh (length : Nat) where
  mem : ByteMem
  limit : Nat
  room : netSkbPad + length ≤ limit

/-- `netdev_alloc_skb` when it has found memory. -/
def netdevAllocSkb {length : Nat} (m : Fresh length) : Skb where
  mem := m.mem
  data := netSkbPad
  tail := netSkbPad
  limit := m.limit
  len := 0
  protocol := 0
  accesses := []

def skbReserve (n : Nat) (s : Skb) : Skb := { s with data := s.data + n, tail := s.tail + n }

/-- `skb_put`; it panics when the tail goes beyond the end. -/
def skbPut (n : Nat) (s : Skb) : Option Skb :=
  let tail := (s.tail + n) % 2 ^ 32
  if s.limit < tail then none
  else some { s with tail := tail, len := (s.len + n) % 2 ^ 32 }

/-- `skb_pull_inline`: a buffer that is too short stays as it is. -/
def skbPullInline (n : Nat) (s : Skb) : Skb :=
  if s.len < n then s else { s with data := s.data + n, len := s.len - n }

/-- `skb_push`; it panics when the data would start in front of the head. -/
def skbPush (n : Nat) : SkbM Unit := fun s =>
  if s.data < n then none
  else some ((), { s with data := s.data - n, len := (s.len + n) % 2 ^ 32 })

/-- Two bytes as a little-endian host loads them. -/
def loadHalf (m : ByteMem) (a : Nat) : BitVec 16 := m (a + 1) ++ m a

/-- `ntohs` and `htons` -/
def swapHalf (h : BitVec 16) : BitVec 16 := h.extractLsb' 0 8 ++ h.extractLsb' 8 8

/-- `eth_type_trans` on a device without DSA tags: moves the data behind the
    Ethernet header and returns the protocol in network byte order. -/
def ethTypeTrans (s : Skb) : Skb :=
  let eth := s.data
  let s := skbPullInline ethHlen s
  let hProto := loadHalf s.mem (eth + 12)
  let protocol :=
    if 1536 ≤ (swapHalf hProto).toNat then hProto
    else if 2 ≤ s.len ∧ loadHalf s.mem s.data = 0xFFFF then swapHalf 0x0001
    else swapHalf 0x0004
  { s with protocol := protocol }

/-! ## Section 2: Access to the data -/

def Skb.note (s : Skb) (offset count : Nat) : Skb :=
  { s with accesses := s.accesses ++ [⟨offset, count, s.len⟩] }

/-- Read `n` bytes from `&skb->data[offset]` on. -/
def getData (offset n : Nat) : SkbM (List Byte) := fun s =>
  some (readBytes s.mem (s.data + offset) n, s.note offset n)

/-- `skb->data[offset]` -/
def getByte (offset : Nat) : SkbM Byte := fun s =>
  some (s.mem (s.data + offset), s.note offset 1)

/-- Write bytes to `&skb->data[offset]`. -/
def putData (offset : Nat) (l : List Byte) : SkbM Unit := fun s =>
  some ((), { s.note offset l.length with mem := writeBytes s.mem (s.data + offset) l })

section run

variable (offset n : Nat) (l : List Byte) (s : Skb)

@[simp] theorem getData_run :
    (getData offset n).run s = some (readBytes s.mem (s.data + offset) n, s.note offset n) := rfl

@[simp] theorem getByte_run :
    (getByte offset).run s = some (s.mem (s.data + offset), s.note offset 1) := rfl

@[simp] theorem putData_run :
    (putData offset l).run s = some ((),
      { s.note offset l.length with mem := writeBytes s.mem (s.data + offset) l }) := rfl

theorem skbPush_run (h : n ≤ s.data) :
    (skbPush n).run s =
      some ((), { s with data := s.data - n, len := (s.len + n) % 2 ^ 32 }) :=
  if_neg (Nat.not_lt.mpr h)

end run

/-- The frame the buffer holds. -/
def Skb.frame (s : Skb) : List Byte := readBytes s.mem s.data s.len

end Nic
